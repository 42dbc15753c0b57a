import Companion.Proofs.Grammar.Identifiers
import Companion.Proofs.Grammar.Quiet
import Companion.Proofs.Grammar.Totality
import Companion.Proofs.Token.Tiling

/-!
What reading points at. A complaint about a text that cannot be read has places of tokens for its
labels (`Diagnostic.Cites`), and a name that is kept with its place stands there as an identifier
(`TypeDecl.Cited`). So every label lies in the source, with both ends between characters
(`Parsed.cites_of_mem_diagnostics`), and the text at the place of a type or of a variable is its
name, apart from an escape (`Parsed.cited_of_mem_allTypes`).
-/

set_option autoImplicit false
set_option relaxedAutoImplicit false

namespace Companion

variable {T : Token → Prop}

/-! ### Citations of tokens -/

/-- The tokens ahead are of a kind, and so is the one that stands in for them at the end. -/
def Cursor.All (T : Token → Prop) (c : Cursor) : Prop := ∀ t ∈ Token.endAt 0 :: c.rest, T t

/-- A complaint of reading: its labels are places of tokens of a kind. -/
structure Diagnostic.Cites (T : Token → Prop) (d : Diagnostic) : Prop where
  code : d.code.number < 2000
  labels : ∀ l ∈ d.labels, ∃ t, T t ∧ t.span = l.span

/-- A name with the place of an identifier that stands for it. -/
def Cited (T : Token → Prop) (n : String) (place : Span) : Prop :=
  ∃ t, T t ∧ t.name = n ∧ t.span = place

def Declarator.Cited (T : Token → Prop) (x : Declarator) : Prop :=
  Companion.Cited T x.name x.nameSpan

/-- The names of a type and of the variables of its fields are cited, those in nested types aside.
-/
structure TypeDecl.Cited (T : Token → Prop) (d : TypeDecl) : Prop where
  name : Companion.Cited T d.header.name d.header.nameSpan
  declarators : ∀ f ∈ d.fields, ∀ x ∈ f.declarators, x.Cited T

def Member.Cited (T : Token → Prop) : Member → Prop
  | .field f => ∀ x ∈ f.declarators, x.Cited T
  | .type d => ∀ e ∈ d.all, e.Cited T
  | .other _ => True

theorem Cursor.All.current {c : Cursor} (h : c.All T) : T c.current := by
  obtain ⟨previous, _ | ⟨t, ts⟩⟩ := c
  · exact h _ List.mem_cons_self
  · exact h _ (List.mem_cons_of_mem _ List.mem_cons_self)

theorem Cursor.All.of_reads {c c' : Cursor} {read : List Token} (h : c.All T)
    (hread : c.Reads read c') : c'.All T := by
  intro t ht
  rcases List.mem_cons.mp ht with rfl | ht
  · exact h _ List.mem_cons_self
  · exact h t (List.mem_cons_of_mem _ (hread.rest_eq ▸ List.mem_append_right _ ht))

theorem Diagnostic.Cites.withContext {d : Diagnostic} (h : d.Cites T) {t : Token} (ht : T t)
    (label : String) : (d.withContext t.span label).Cites T := by
  refine ⟨h.code, List.forall_mem_append.mpr ⟨h.labels, ?_⟩⟩
  exact List.forall_mem_singleton.mpr ⟨t, ht, rfl⟩

theorem Diagnostic.cites_error {code : Code} (hcode : code.number < 2000) {t : Token} (ht : T t)
    (message label : String) : (error code message t.span label).Cites T :=
  ⟨hcode, List.forall_mem_singleton.mpr ⟨t, ht, rfl⟩⟩

theorem Parser.cites_expectedAt {code : Diagnostic.Code} (hcode : code.number < 2000)
    (what : String)
    {c : Cursor} (hc : c.All T) : (expectedAt code what c).Cites T :=
  Diagnostic.cites_error hcode hc.current _ _

theorem Parser.number_missingCode (c : Cursor) : (missingCode c).number < 2000 := by
  unfold missingCode
  split <;> decide

theorem Member.cited_of_mem_allTypes {ms : List Member} (h : ∀ m ∈ ms, m.Cited T) :
    ∀ d ∈ Member.allTypes ms, d.Cited T := by
  induction ms with
  | nil => exact nofun
  | cons m ms ih =>
    obtain ⟨hm, hms⟩ := List.forall_mem_cons.mp h
    cases m with
    | type d => exact List.forall_mem_append.mpr ⟨hm, ih hms⟩
    | field _ => exact ih hms
    | other _ => exact ih hms

theorem TypeDecl.cited_mk {header : TypeHeader} {ms : List Member}
    (hname : Companion.Cited T header.name header.nameSpan) (hms : ∀ m ∈ ms, m.Cited T) :
    ∀ d ∈ (TypeDecl.mk header ms).all, d.Cited T := by
  rw [TypeDecl.all, List.forall_mem_cons]
  refine ⟨⟨hname, fun f hf ↦ ?_⟩, Member.cited_of_mem_allTypes hms⟩
  obtain ⟨m, hm, hfield⟩ := List.mem_filterMap.mp hf
  cases m with
  | field g => exact Option.some.inj hfield ▸ hms _ hm
  | type _ => cases hfield
  | other _ => cases hfield

/-! ### Parsers -/

namespace Parser

variable {α β : Type} {good : α → Prop}

/-- What a parser answers: a good value, or a complaint. -/
def Answers (T : Token → Prop) (good : α → Prop) : Except Diagnostic α → Prop
  | .ok a => good a
  | .error d => d.Cites T

/-- From tokens of a kind a parser goes on to tokens of that kind, what it reports points at such
tokens, and what it answers is good. -/
structure CitesAt (T : Token → Prop) (good : α → Prop) (o : Outcome α) : Prop where
  cursor : o.cursor.All T
  reported : ∀ d ∈ o.reported, d.Cites T
  result : Answers T good o.result

def Cites (T : Token → Prop) (good : α → Prop) (q : Parser α) : Prop :=
  ∀ c, c.All T → CitesAt T good (q c)

section Steps

theorem cites_pure {a : α} (h : good a) : (pure a : Parser α).Cites T good :=
  fun _ hc ↦ ⟨hc, nofun, h⟩

theorem cites_nil : (pure [] : Parser (List α)).Cites T fun l ↦ ∀ a ∈ l, good a :=
  cites_pure nofun

theorem cites_look {f : Cursor → α} (h : ∀ c, c.All T → good (f c)) : (look f).Cites T good :=
  fun c hc ↦ ⟨hc, nofun, h c hc⟩

theorem cites_look_true (f : Cursor → α) : (look f).Cites T fun _ ↦ True :=
  cites_look fun _ _ ↦ trivial

theorem cites_report {d : Diagnostic} (h : d.Cites T) : (report d).Cites T fun _ ↦ True :=
  fun _ hc ↦ ⟨hc, List.forall_mem_singleton.mpr h, trivial⟩

/-- A parser that reports nothing of its own has only to answer well. -/
theorem Quiet.cites {q : Parser α} (hquiet : q.Quiet) (hforward : q.Forward)
    (hresult : ∀ c, c.All T → Answers T good (q c).result) : q.Cites T good := by
  intro c hc
  obtain ⟨read, hread, -⟩ := hforward c
  refine ⟨hc.of_reads hread, fun d hd ↦ ?_, hresult c hc⟩
  rw [hquiet c] at hd
  exact absurd hd List.not_mem_nil

/-- A parser that neither reports nor fails says nothing. -/
theorem Quiet.cites_of_succeeds {q : Parser α} (hquiet : q.Quiet) (hforward : q.Forward)
    (hsucceeds : q.Succeeds) : q.Cites T fun _ ↦ True := by
  refine hquiet.cites hforward fun c _ ↦ ?_
  obtain ⟨a, ha⟩ := hsucceeds c
  rw [ha]
  trivial

theorem Cites.bind {good' : β → Prop} {q : Parser β} {f : β → Parser α} (hq : q.Cites T good')
    (hf : ∀ b, good' b → (f b).Cites T good) : (q >>= f).Cites T good := by
  intro c hc
  have hfirst := hq c hc
  show CitesAt T good (Parser.bind q f c)
  unfold Parser.bind
  cases h : q c with
  | mk result c' reported =>
    rw [h] at hfirst
    cases result with
    | error d => exact ⟨hfirst.cursor, hfirst.reported, hfirst.result⟩
    | ok b =>
      have hsecond := hf b hfirst.result c' hfirst.cursor
      exact ⟨hsecond.cursor, List.forall_mem_append.mpr ⟨hfirst.reported, hsecond.reported⟩,
        hsecond.result⟩

theorem Cites.map {good' : β → Prop} {q : Parser β} {f : β → α} (hq : q.Cites T good')
    (hf : ∀ b, good' b → good (f b)) : (f <$> q).Cites T good :=
  hq.bind fun b hb ↦ cites_pure (hf b hb)

theorem Cites.mono {good' : α → Prop} {q : Parser α} (hq : q.Cites T good')
    (himp : ∀ a, good' a → good a) : q.Cites T good := by
  intro c hc
  refine ⟨(hq c hc).cursor, (hq c hc).reported, ?_⟩
  have hresult := (hq c hc).result
  cases h : (q c).result with
  | ok a =>
    rw [h] at hresult
    exact himp a hresult
  | error d =>
    rw [h] at hresult
    exact hresult

theorem Cites.ite {b : Prop} [Decidable b] {q r : Parser α} (hq : q.Cites T good)
    (hr : r.Cites T good) : (if b then q else r).Cites T good := by
  split <;> assumption

theorem Cites.attempt {q : Parser α} (hq : q.Cites T good) :
    (attempt q).Cites T (Answers T good) :=
  fun c hc ↦ ⟨(hq c hc).cursor, (hq c hc).reported, (hq c hc).result⟩

end Steps

theorem cites_advance : advance.Cites T T :=
  quiet_advance.cites forward_advance fun _ hc ↦ hc.current

theorem cites_check (k : Token.Kind) : (check k).Cites T fun _ ↦ True := cites_look_true _

theorem cites_spanFrom (start : Span) : (spanFrom start).Cites T fun _ ↦ True := cites_look_true _

theorem cites_eat (k : Token.Kind) : (eat k).Cites T fun _ ↦ True :=
  (quiet_eat k).cites_of_succeeds (forward_eat k) (succeeds_eat k)

theorem cites_failExpected {code : Diagnostic.Code} (hcode : code.number < 2000) (what : String) :
    (failExpected code what : Parser α).Cites T good :=
  (quiet_failExpected _ _).cites (forward_failExpected _ _) fun _ hc ↦
    cites_expectedAt hcode what hc

theorem cites_expect (k : Token.Kind) : (expect k).Cites T T := by
  refine (quiet_expect k).cites (forward_expect k) fun c hc ↦ ?_
  unfold expect
  split
  · exact hc.current
  · exact cites_expectedAt (number_missingCode c) _ hc

theorem cites_identifier : identifier.Cites T fun named ↦ Cited T named.1 named.2 := by
  refine quiet_identifier.cites forward_identifier fun c hc ↦ ?_
  unfold identifier
  split
  · exact ⟨c.current, hc.current, rfl, rfl⟩
  · exact cites_expectedAt (by decide) _ hc

theorem cites_closingBrace {opened : Token} (hopened : T opened) (what : String) :
    (closingBrace opened.span what).Cites T fun _ ↦ True := by
  intro c hc
  obtain ⟨read, hread, -⟩ := forward_closingBrace opened.span what c
  refine ⟨hc.of_reads hread, ?_, ?_⟩
  · unfold closingBrace
    split
    · exact nofun
    · exact List.forall_mem_singleton.mpr
        ((cites_expectedAt (number_missingCode c) _ hc).withContext hopened _)
  · unfold closingBrace
    split <;> trivial

theorem cites_commaSeparated {item : Parser α} (hitem : item.Cites T good) :
    ∀ budget, (commaSeparated item budget).Cites T fun l ↦ ∀ a ∈ l, good a
  | 0 => hitem.bind fun a ha ↦ cites_pure (List.forall_mem_singleton.mpr ha)
  | budget + 1 => by
    refine hitem.bind fun a ha ↦ (cites_eat _).bind fun _ _ ↦ .ite ?_ ?_
    · refine (cites_commaSeparated hitem budget).bind fun rest hrest ↦ cites_pure ?_
      exact List.forall_mem_cons.mpr ⟨ha, hrest⟩
    · exact cites_pure (List.forall_mem_singleton.mpr ha)

theorem cites_manyAt (k : Token.Kind) {item : Parser α} (hitem : item.Cites T fun _ ↦ True) :
    ∀ budget, (manyAt k item budget).Cites T fun _ ↦ True
  | 0 => cites_pure trivial
  | budget + 1 => (cites_check k).bind fun _ _ ↦ .ite
      (hitem.bind fun _ _ ↦ (cites_manyAt k hitem budget).bind fun _ _ ↦ cites_pure trivial)
      (cites_pure trivial)

/-- A group that is not closed is cited with its opening bracket and the end of the file. -/
theorem cites_group : group.Cites T fun _ ↦ True := by
  refine quiet_group.cites forward_group fun c hc ↦ ?_
  obtain ⟨read, hread, -⟩ := forward_group c
  have hbehind := hc.of_reads hread
  unfold group at hbehind ⊢
  dsimp only at hbehind ⊢
  split
  case isTrue hopener =>
    rw [if_pos hopener] at hbehind
    split
    case h_1 => trivial
    case h_2 hclosing =>
      rw [hclosing] at hbehind
      exact (Diagnostic.cites_error (by decide) hc.current _ _).withContext hbehind.current _
  case isFalse => trivial

theorem cites_memberRestWithin :
    ∀ (budget : Nat) (inExpression : Bool),
      (memberRestWithin budget inExpression).Cites T fun _ ↦ True
  | 0, _ => cites_pure trivial
  | budget + 1, inExpression => by
    have hrest := cites_memberRestWithin budget
    have hadvance : (discard advance : Parser Unit).Cites T fun _ ↦ True :=
      cites_advance.map fun _ _ ↦ trivial
    have heat : (discard (eat .semicolon) : Parser Unit).Cites T fun _ ↦ True :=
      (cites_eat _).map fun _ _ ↦ trivial
    refine (cites_look_true _).bind fun k _ ↦ ?_
    split
    · exact hadvance
    · exact cites_pure trivial
    · exact cites_pure trivial
    · exact cites_group.bind fun _ _ ↦ (cites_check _).bind fun _ _ ↦ .ite (hrest true) heat
    all_goals first
      | exact cites_group.bind fun _ _ ↦ hrest _
      | exact cites_advance.bind fun _ _ ↦ hrest _

theorem cites_memberRest : memberRest.Cites T fun _ ↦ True :=
  fun c hc ↦ cites_memberRestWithin (c.rest.length + 1) false c hc

theorem cites_initializerWithin :
    ∀ (budget : Nat) (last : Span), (initializerWithin budget last).Cites T fun _ ↦ True
  | 0, _ => cites_pure trivial
  | budget + 1, last => by
    have hrest := cites_initializerWithin budget
    have htypeArgs : typeArgs.Cites T fun _ ↦ True := by
      have hquiet : typeArgs.Quiet := fun _ ↦ rfl
      exact hquiet.cites_of_succeeds forward_typeArgs fun _ ↦ ⟨_, rfl⟩
    refine (cites_look_true _).bind fun k _ ↦ .ite (cites_pure trivial) <|
      .ite (cites_group.bind fun stop _ ↦ hrest stop) ?_
    exact (cites_look_true _).bind fun _ _ ↦ .ite (htypeArgs.bind fun stop _ ↦ hrest stop)
      (cites_advance.bind fun t _ ↦ hrest t.span)

theorem cites_initializer : initializer.Cites T fun _ ↦ True := by
  intro c hc
  unfold initializer
  split
  · exact cites_failExpected (by decide) _ c hc
  · exact (cites_initializerWithin _ c.current.span).map (fun _ _ ↦ trivial) c hc

/-! ### Types, attributes and the heads of declarations -/

section Types

variable {type : Parser TypeRef} (htype : type.Cites T fun _ ↦ True)

include htype

theorem cites_typeArgsWith (budget : Nat) : (typeArgsWith type budget).Cites T fun _ ↦ True := by
  have hclose (args : List TypeRef) :
      (do let _ ← expect .gt; pure args : Parser (List TypeRef)).Cites T fun _ ↦ True :=
    (cites_expect _).bind fun _ _ ↦ cites_pure trivial
  have hnone : (pure [] : Parser (List TypeRef)).Cites T fun _ ↦ True := cites_pure trivial
  exact (cites_expect _).bind fun _ _ ↦ (cites_check _).bind fun _ _ ↦
    .ite (hnone.bind fun args _ ↦ hclose args)
      ((cites_commaSeparated htype budget).bind fun args _ ↦ hclose args)

theorem cites_segmentWith (budget : Nat) : (segmentWith type budget).Cites T fun _ ↦ True := by
  refine cites_identifier.bind fun named _ ↦ (cites_check _).bind fun _ _ ↦ ?_
  have hend (args : List TypeRef) :
      (do let span ← spanFrom named.2; pure (Segment.mk named.1 args span)).Cites T fun _ ↦ True :=
    (cites_spanFrom _).bind fun _ _ ↦ cites_pure trivial
  have hnone : (pure [] : Parser (List TypeRef)).Cites T fun _ ↦ True := cites_pure trivial
  exact .ite ((cites_typeArgsWith htype budget).bind fun args _ ↦ hend args)
    (hnone.bind fun args _ ↦ hend args)

theorem cites_segmentsWith (budget : Nat) :
    ∀ n, (segmentsWith (segmentWith type budget) n).Cites T fun _ ↦ True
  | 0 => (cites_segmentWith htype budget).bind fun _ _ ↦ cites_pure trivial
  | n + 1 => (cites_segmentWith htype budget).bind fun _ _ ↦ (cites_look_true _).bind fun _ _ ↦
      .ite (cites_advance.bind fun _ _ ↦ (cites_segmentsWith budget n).bind fun _ _ ↦
        cites_pure trivial) (cites_pure trivial)

omit htype in
theorem cites_qualifier : qualifier.Cites T fun _ ↦ True :=
  (cites_look_true _).bind fun _ _ ↦ .ite
    (cites_identifier.bind fun _ _ ↦ cites_advance.bind fun _ _ ↦
      .ite (cites_pure trivial) (cites_pure trivial)) (cites_pure trivial)

theorem cites_nameWith (budget : Nat) : (nameWith type budget).Cites T fun _ ↦ True :=
  (cites_look_true _).bind fun _ _ ↦ cites_qualifier.bind fun _ _ ↦
    (cites_segmentsWith htype budget budget).bind fun _ _ ↦ (cites_spanFrom _).bind fun _ _ ↦
      cites_pure trivial

theorem cites_simpleTypeWith (budget : Nat) :
    (simpleTypeWith type budget).Cites T fun _ ↦ True := by
  have helement : (tupleElementWith type).Cites T fun _ ↦ True :=
    htype.bind fun _ _ ↦ (cites_eat _).bind fun _ _ ↦ cites_pure trivial
  refine (cites_look_true _).bind fun t _ ↦ ?_
  split
  · exact (cites_expect _).bind fun _ _ ↦ (cites_commaSeparated helement budget).bind fun _ _ ↦
      (cites_expect _).bind fun _ _ ↦ cites_pure trivial
  · split
    · exact cites_advance.bind fun _ _ ↦ cites_pure trivial
    · exact (cites_nameWith htype budget).map fun _ _ ↦ trivial
  · exact cites_failExpected (by decide) _

end Types

theorem cites_commas : ∀ budget, (commas budget).Cites T fun _ ↦ True
  | 0 => cites_pure trivial
  | budget + 1 => (cites_eat _).bind fun _ _ ↦
      .ite ((cites_commas budget).bind fun _ _ ↦ cites_pure trivial) (cites_pure trivial)

theorem cites_suffixesWithin :
    ∀ (budget : Nat) (t : TypeRef), (suffixesWithin budget t).Cites T fun _ ↦ True
  | 0, _ => cites_pure trivial
  | budget + 1, t => by
    have hrest := cites_suffixesWithin budget
    refine (cites_look_true _).bind fun _ _ ↦ (cites_check _).bind fun _ _ ↦
      .ite ?_ (.ite ?_ (cites_pure trivial))
    · exact cites_advance.bind fun _ _ ↦ hrest _
    · exact cites_advance.bind fun _ _ ↦ (cites_commas budget).bind fun _ _ ↦
        (cites_expect _).bind fun _ _ ↦ hrest _

theorem cites_typeRefWithin (budget : Nat) :
    ∀ depth, (typeRefWithin budget depth).Cites T fun _ ↦ True
  | 0 => cites_failExpected (by decide) _
  | depth + 1 => (cites_simpleTypeWith (cites_typeRefWithin budget depth) budget).bind
      fun t _ ↦ cites_suffixesWithin budget t

theorem cites_typeRef : typeRef.Cites T fun _ ↦ True :=
  fun c hc ↦ cites_typeRefWithin (c.rest.length + 1) (c.rest.length + 1) c hc

theorem cites_name : name.Cites T fun _ ↦ True := fun c hc ↦
  cites_nameWith (cites_typeRefWithin (c.rest.length + 1) (c.rest.length + 1))
    (c.rest.length + 1) c hc

theorem cites_attributeUse : attributeUse.Cites T fun _ ↦ True := by
  refine cites_name.bind fun n _ ↦ (cites_check _).bind fun _ _ ↦ ?_
  have hend (args : Option Span) :
      (do let span ← spanFrom n.span; pure (⟨n.render, n.span, args, span⟩ : Attribute)).Cites T
        fun _ ↦ True :=
    (cites_spanFrom _).bind fun _ _ ↦ cites_pure trivial
  have hargs (args : Option Span) : (pure args : Parser (Option Span)).Cites T fun _ ↦ True :=
    cites_pure trivial
  exact .ite ((cites_look_true _).bind fun _ _ ↦ cites_group.bind fun _ _ ↦
    (hargs _).bind fun args _ ↦ hend args) ((hargs none).bind fun args _ ↦ hend args)

theorem cites_attributesWithin : ∀ budget, (attributesWithin budget).Cites T fun _ ↦ True
  | 0 => cites_pure trivial
  | budget + 1 => (cites_check _).bind fun _ _ ↦ .ite (cites_pure trivial) <|
      cites_attributeUse.bind fun _ _ ↦ (cites_eat _).bind fun _ _ ↦
        .ite ((cites_attributesWithin budget).bind fun _ _ ↦ cites_pure trivial)
          (cites_pure trivial)

theorem cites_attributeLists : attributeLists.Cites T fun _ ↦ True := by
  have htarget : attributeTarget.Cites T fun _ ↦ True := (cites_look_true _).bind fun _ _ ↦
    .ite (cites_advance.bind fun _ _ ↦ cites_advance.bind fun _ _ ↦ cites_pure trivial)
      (cites_pure trivial)
  have hlist : attributeList.Cites T fun _ ↦ True :=
    (cites_expect _).bind fun _ _ ↦ htarget.bind fun _ _ ↦ (cites_look_true _).bind fun n _ ↦
      (cites_attributesWithin n).bind fun _ _ ↦ (cites_expect _).bind fun _ _ ↦ cites_pure trivial
  exact fun c hc ↦ cites_manyAt .lbracket hlist (c.rest.length + 1) c hc

theorem cites_modifiers : modifiers.Cites T fun _ ↦ True :=
  quiet_modifiers.cites_of_succeeds forward_modifiers fun _ ↦ ⟨_, rfl⟩

theorem cites_typeParams : typeParams.Cites T fun _ ↦ True := by
  have hend : (do let named ← identifier; pure ⟨named.1, named.2⟩ : Parser TypeParam).Cites T
      fun _ ↦ True :=
    cites_identifier.bind fun _ _ ↦ cites_pure trivial
  have hparam : typeParam.Cites T fun _ ↦ True :=
    cites_attributeLists.bind fun _ _ ↦ (cites_look_true _).bind fun _ _ ↦
      .ite (cites_advance.bind fun _ _ ↦ hend) hend
  exact (cites_expect _).bind fun _ _ ↦ (cites_look_true _).bind fun n _ ↦
    (cites_commaSeparated hparam n).bind fun _ _ ↦ (cites_expect _).bind fun _ _ ↦
      cites_pure trivial

theorem cites_baseList : baseList.Cites T fun _ ↦ True := by
  have hbase : baseType.Cites T fun _ ↦ True :=
    cites_typeRef.bind fun _ _ ↦ (cites_check _).bind fun _ _ ↦
      .ite (cites_group.bind fun _ _ ↦ cites_pure trivial) (cites_pure trivial)
  exact fun c hc ↦ (cites_commaSeparated hbase c.rest.length).mono (fun _ _ ↦ trivial) c hc

theorem cites_constraints : constraints.Cites T fun _ ↦ True := by
  have hwithin : ∀ n, (constraintsWithin n).Cites T fun _ ↦ True := by
    intro n
    induction n with
    | zero => exact cites_pure trivial
    | succ n ih =>
      refine (cites_look_true _).bind fun k _ ↦ ?_
      split
      · exact cites_pure trivial
      · exact cites_pure trivial
      · exact cites_pure trivial
      · exact cites_group.bind fun _ _ ↦ ih
      · exact cites_advance.bind fun _ _ ↦ ih
  exact (cites_look_true _).bind fun _ _ ↦
    .ite ((cites_look_true _).bind fun n _ ↦ hwithin (n + 1)) (cites_pure trivial)

/-- The name of a type stands at the head of its declaration. -/
theorem cites_typeHead (kind : TypeKind) :
    (typeHead kind).Cites T fun head ↦ Cited T head.1.1 head.1.2 := by
  have hwords : (kindWords kind).Cites T fun _ ↦ True :=
    cites_advance.bind fun _ _ ↦ (cites_look_true _).bind fun _ _ ↦
      .ite (cites_advance.bind fun _ _ ↦ cites_pure trivial) (cites_pure trivial)
  have hparams : optionalTypeParams.Cites T fun _ ↦ True :=
    (cites_check _).bind fun _ _ ↦ .ite cites_typeParams (cites_pure trivial)
  have hgroup : optionalGroup.Cites T fun _ ↦ True := (cites_check _).bind fun _ _ ↦
    .ite (cites_group.bind fun _ _ ↦ cites_pure trivial) (cites_pure trivial)
  have hbases : optionalBases.Cites T fun _ ↦ True :=
    (cites_eat _).bind fun _ _ ↦ .ite cites_baseList (cites_pure trivial)
  have hparts : headParts.Cites T fun _ ↦ True :=
    hparams.bind fun _ _ ↦ hgroup.bind fun _ _ ↦ hbases.bind fun _ _ ↦
      cites_constraints.bind fun _ _ ↦ cites_pure trivial
  rw [typeHead_eq]
  exact hwords.bind fun _ _ ↦ cites_identifier.bind fun _ hnamed ↦ hparts.bind fun _ _ ↦
    cites_pure hnamed

/-! ### Members -/

theorem cites_declarator : declarator.Cites T (Declarator.Cited T) := by
  refine cites_identifier.bind fun named hnamed ↦ (cites_eat _).bind fun _ _ ↦ ?_
  have hend (init : Option Span) :
      (pure ⟨named.1, named.2, init⟩ : Parser Declarator).Cites T (Declarator.Cited T) :=
    cites_pure hnamed
  have hsome : (some <$> initializer).Cites T fun _ ↦ True :=
    cites_initializer.map fun _ _ ↦ trivial
  have hnone : (pure none : Parser (Option Span)).Cites T fun _ ↦ True := cites_pure trivial
  exact .ite (hsome.bind fun init _ ↦ hend init) (hnone.bind fun init _ ↦ hend init)

theorem cites_declarators : declarators.Cites T fun ds ↦ ∀ x ∈ ds, x.Cited T :=
  (cites_look_true _).bind fun n _ ↦ (cites_commaSeparated cites_declarator n).bind fun _ hds ↦
    (cites_expect _).bind fun _ _ ↦ cites_pure hds

theorem cites_otherMember (start : Span) :
    (otherMember start).Cites T fun o ↦ ∀ m ∈ o, m.Cited T :=
  cites_memberRest.bind fun _ _ ↦ (cites_spanFrom _).bind fun _ _ ↦ cites_pure fun _ hm ↦ by
    obtain rfl := Option.some.inj hm
    trivial

theorem cites_typedMember (attributes : List AttributeList) (mods : List Modifier) (start : Span) :
    (typedMember attributes mods start).Cites T fun o ↦ ∀ m ∈ o, m.Cited T := by
  refine cites_typeRef.bind fun type _ ↦ (cites_look_true _).bind fun _ _ ↦
    .ite (cites_failExpected (by decide) _) <| .ite (cites_otherMember start) <| .ite ?_ <|
      .ite (cites_otherMember start) (cites_failExpected (by decide) _)
  refine cites_declarators.bind fun ds hds ↦ (cites_spanFrom _).bind fun _ _ ↦
    cites_pure fun m hm ↦ ?_
  obtain rfl := Option.some.inj hm
  exact hds

section Members

variable {members : Parser (List Member)}
  (hmembers : members.Cites T fun ms ↦ ∀ m ∈ ms, m.Cited T)

include hmembers

theorem cites_typeBodyWith (kind : TypeKind) :
    (typeBodyWith members kind).Cites T fun ms ↦ ∀ m ∈ ms, m.Cited T := by
  refine (cites_eat _).bind fun _ _ ↦ .ite cites_nil (.ite ?_ ?_)
  · exact (cites_check _).bind fun _ _ ↦ .ite (cites_group.bind fun _ _ ↦ cites_nil)
      ((cites_expect _).bind fun _ _ ↦ cites_nil)
  · exact (cites_expect _).bind fun opened hopened ↦ hmembers.bind fun ms hms ↦
      (cites_closingBrace hopened _).bind fun _ _ ↦ cites_pure hms

theorem cites_typeDeclWith (kind : TypeKind) (attributes : List AttributeList)
    (mods : List Modifier) (start : Span) :
    (typeDeclWith members kind attributes mods start).Cites T fun d ↦ ∀ e ∈ d.all, e.Cited T := by
  rw [typeDeclWith_eq]
  exact (cites_typeHead kind).bind fun head hhead ↦
    (cites_typeBodyWith hmembers kind).bind fun ms hms ↦ (cites_eat _).bind fun _ _ ↦
      (cites_spanFrom _).bind fun _ _ ↦ cites_pure (TypeDecl.cited_mk hhead hms)

theorem cites_memberWith : (memberWith members).Cites T fun o ↦ ∀ m ∈ o, m.Cited T := by
  have hnone : (pure none : Parser (Option Member)).Cites T fun o ↦ ∀ m ∈ o, m.Cited T :=
    cites_pure nofun
  refine (cites_look_true _).bind fun start _ ↦ cites_attributeLists.bind fun attributes _ ↦
    cites_modifiers.bind fun mods _ ↦ (cites_look_true _).bind fun c _ ↦ ?_
  split
  · refine (cites_typeDeclWith hmembers _ attributes mods start).bind fun d hd ↦
      cites_pure fun m hm ↦ ?_
    obtain rfl := Option.some.inj hm
    exact hd
  · exact .ite (cites_advance.bind fun _ _ ↦ hnone) <| .ite hnone <|
      .ite (cites_otherMember start) (cites_typedMember attributes mods start)

end Members

theorem cites_recoverInBody : recoverInBody.Cites T fun _ ↦ True :=
  quiet_recoverInBody.cites_of_succeeds forward_recoverInBody succeeds_recoverInBody

theorem cites_recoverToItem : recoverToItem.Cites T fun _ ↦ True :=
  quiet_recoverToItem.cites_of_succeeds forward_recoverToItem succeeds_recoverToItem

/-- A member that cannot be read is reported with what its failure carries. -/
theorem cites_memberStep {member : Parser (Option Member)}
    (hmember : member.Cites T fun o ↦ ∀ m ∈ o, m.Cited T) :
    (memberStep member).Cites T (Answers T fun o ↦ ∀ m ∈ o, m.Cited T) := by
  refine (cites_look_true _).bind fun c _ ↦ hmember.attempt.bind fun r hr ↦ ?_
  have hpass : (passFailure r).Cites T fun _ ↦ True := by
    cases r with
    | ok m => exact cites_pure trivial
    | error d => exact (cites_report hr).bind fun _ _ ↦ cites_recoverInBody
  have hunstick : (unstick c).Cites T fun _ ↦ True := (cites_look_true _).bind fun _ _ ↦
    .ite (cites_advance.bind fun _ _ ↦ cites_pure trivial) (cites_pure trivial)
  exact hpass.bind fun _ _ ↦ hunstick.bind fun _ _ ↦ cites_pure hr

theorem cites_membersWith {member : Parser (Option Member)}
    (hmember : member.Cites T fun o ↦ ∀ m ∈ o, m.Cited T) :
    ∀ budget, (membersWith member budget).Cites T fun ms ↦ ∀ m ∈ ms, m.Cited T
  | 0 => cites_nil
  | budget + 1 => by
    rw [membersWith_succ]
    refine (cites_look_true _).bind fun _ _ ↦ .ite cites_nil ?_
    refine (cites_memberStep hmember).bind fun r hr ↦
      (cites_membersWith hmember budget).bind fun rest hrest ↦ ?_
    rcases r with d | _ | m
    · exact cites_pure hrest
    · exact cites_pure hrest
    · exact cites_pure (List.forall_mem_cons.mpr ⟨hr m rfl, hrest⟩)

theorem cites_membersWithin (budget : Nat) :
    ∀ depth, (membersWithin budget depth).Cites T fun ms ↦ ∀ m ∈ ms, m.Cited T
  | 0 => cites_nil
  | depth + 1 => cites_membersWith (cites_memberWith (cites_membersWithin budget depth)) budget

theorem cites_members : members.Cites T fun ms ↦ ∀ m ∈ ms, m.Cited T := fun c hc ↦
  cites_membersWithin (c.rest.length + 1) (c.rest.length + 1) c hc

/-! ### Namespaces -/

/-- The names of all types in an entry, and of the variables in their fields, are cited. -/
def Entry.Cited (T : Token → Prop) : Entry → Prop
  | .item i => ∀ d ∈ i.types, d.Cited T
  | _ => True

def CitedBody (T : Token → Prop) (body : List Using × List Item) : Prop :=
  ∀ d ∈ Item.allTypes body.2, d.Cited T

theorem cites_usingDirective (isGlobal : Bool) :
    (usingDirective isGlobal).Cites T fun _ ↦ True := by
  refine (cites_expect _).bind fun start _ ↦ (cites_look_true _).bind fun isStatic _ ↦ ?_
  have hend (aliasName : Option String) :
      (do
        let target ← typeRef
        let stop ← expect .semicolon
        pure (⟨aliasName, isStatic, isGlobal, target, start.span.merge stop.span⟩ :
          Using)).Cites T fun _ ↦ True :=
    cites_typeRef.bind fun _ _ ↦ (cites_expect _).bind fun _ _ ↦ cites_pure trivial
  have hname (aliasName : Option String) :
      (pure aliasName : Parser (Option String)).Cites T fun _ ↦ True :=
    cites_pure trivial
  refine .ite (cites_advance.bind fun _ _ ↦ (cites_look_true _).bind fun _ _ ↦ ?_)
    ((cites_look_true _).bind fun _ _ ↦ ?_)
  all_goals
    exact .ite (cites_identifier.bind fun _ _ ↦ cites_advance.bind fun _ _ ↦
      (hname _).bind fun n _ ↦ hend n) ((hname none).bind fun n _ ↦ hend n)

theorem cites_declarationEntry : declarationEntry.Cites T (Entry.Cited T) := by
  refine (cites_look_true _).bind fun start _ ↦ cites_attributeLists.bind fun attributes _ ↦
    cites_modifiers.bind fun mods _ ↦ (cites_look_true _).bind fun c _ ↦ ?_
  split
  · exact (cites_typeDeclWith cites_members _ attributes mods start).bind fun d hd ↦ cites_pure hd
  · exact .ite (cites_memberRest.bind fun _ _ ↦ cites_pure trivial) <|
      .ite (cites_pure trivial) (cites_failExpected (by decide) _)

section Body

variable {body : BodyEnd → Parser (List Using × List Item)}
  (hbody : ∀ bodyEnd, (body bodyEnd).Cites T (CitedBody T))

include hbody

theorem cites_namespaceWith : (namespaceWith body).Cites T fun i ↦ ∀ d ∈ i.types, d.Cited T := by
  refine (cites_expect _).bind fun start _ ↦ cites_name.bind fun n _ ↦
    (cites_eat _).bind fun _ _ ↦ .ite ?_ ?_
  · exact (hbody _).bind fun inside hinside ↦ (cites_spanFrom _).bind fun _ _ ↦ cites_pure hinside
  · exact (cites_expect _).bind fun opened hopened ↦ (hbody _).bind fun inside hinside ↦
      (cites_closingBrace hopened _).bind fun _ _ ↦ (cites_eat _).bind fun _ _ ↦
        (cites_spanFrom _).bind fun _ _ ↦ cites_pure hinside

theorem cites_entryWith : (entryWith body).Cites T (Entry.Cited T) := by
  refine (cites_look_true _).bind fun c _ ↦ .ite ?_ (.ite ?_ (.ite ?_ (.ite ?_ ?_)))
  · exact (cites_usingDirective _).map fun _ _ ↦ trivial
  · exact cites_advance.bind fun _ _ ↦ (cites_usingDirective _).map fun _ _ ↦ trivial
  · exact cites_recoverToItem.bind fun _ _ ↦ cites_pure trivial
  · exact (cites_namespaceWith hbody).map fun _ hi ↦ hi
  · exact cites_declarationEntry

theorem cites_stepWith : (stepWith body).Cites T (Entry.Cited T) := by
  refine (cites_look fun _ hc ↦ hc).bind fun c (hc : c.All T) ↦ .ite ?_ (.ite ?_ ?_)
  · exact (cites_report (cites_expectedAt (by decide) _ hc)).bind fun _ _ ↦
      cites_advance.bind fun _ _ ↦ cites_pure trivial
  · exact cites_advance.bind fun _ _ ↦ cites_pure trivial
  · refine (cites_entryWith hbody).attempt.bind fun r hr ↦ ?_
    cases r with
    | ok e => exact cites_pure hr
    | error d =>
      exact (cites_report hr).bind fun _ _ ↦ cites_recoverToItem.bind fun _ _ ↦ cites_pure trivial

theorem cites_entriesWith (bodyEnd : BodyEnd) :
    ∀ budget, (entriesWith body bodyEnd budget).Cites T (CitedBody T)
  | 0 => cites_pure nofun
  | budget + 1 => by
    rw [entriesWith_succ]
    refine (cites_look_true _).bind fun k _ ↦ .ite (cites_pure nofun) ?_
    refine (cites_stepWith hbody).bind fun e he ↦
      (cites_entriesWith bodyEnd budget).bind fun rest hrest ↦ ?_
    cases e with
    | «using» u => exact cites_pure hrest
    | item i => exact cites_pure (List.forall_mem_append.mpr ⟨he, hrest⟩)
    | nothing => exact cites_pure hrest

end Body

theorem cites_namespaceBodyWithin (budget : Nat) :
    ∀ depth bodyEnd, (namespaceBodyWithin budget depth bodyEnd).Cites T (CitedBody T)
  | 0, _ => cites_pure nofun
  | depth + 1, bodyEnd =>
    cites_entriesWith (cites_namespaceBodyWithin budget depth) bodyEnd budget

theorem cites_namespaceBody (bodyEnd : BodyEnd) : (namespaceBody bodyEnd).Cites T (CitedBody T) :=
  fun c hc ↦ cites_namespaceBodyWithin (c.rest.length + 1) (c.rest.length + 1) bodyEnd c hc

end Parser

/-! ### Whole files -/

/-- The text of a token is what stands at its place in a source. -/
structure Token.StandsIn (source : String) (t : Token) : Prop where
  fits : t.span.Fits source.toList
  text_eq : t.span.text source = t.text

theorem Token.standsIn_endAt_zero (source : String) : (endAt 0).StandsIn source := by
  refine ⟨.of_cuts (Nat.le_refl _) (Text.isCut_zero _) (Text.isCut_zero _), ?_⟩
  simp [endAt, Span.ofRange, Span.text, Text.between, Text.dropBytes, Text.takeBytes]

/-- As long as offsets reach to the end of a source, its tokens stand in it. -/
theorem Token.all_standsIn {source : String}
    (hsize : Text.byteLength source.toList ≤ Span.maxOffset) :
    ∀ t ∈ endAt 0 :: ofSource source, t.StandsIn source := by
  refine List.forall_mem_cons.mpr ⟨standsIn_endAt_zero source, fun t ht ↦ ?_⟩
  obtain ⟨hfits, htext⟩ := (tiles_ofSource hsize).fits t ht
  refine ⟨hfits, ?_⟩
  rw [Span.text, htext, Option.getD_some, String.ofList_toList]

theorem Cited.unescape_text {source n : String} {place : Span}
    (h : Cited (Token.StandsIn source) n place) : Token.unescape (place.text source) = n := by
  obtain ⟨t, ht, rfl, rfl⟩ := h
  rw [ht.text_eq]
  rfl

theorem Cited.fits {source n : String} {place : Span} (h : Cited (Token.StandsIn source) n place) :
    place.Fits source.toList := by
  obtain ⟨t, ht, -, rfl⟩ := h
  exact ht.fits

namespace Parsed

variable (path : String) {source : String} {T : Token → Prop}
  (htokens : ∀ t ∈ Token.endAt 0 :: Token.ofSource source, T t)
include htokens

theorem all_readable : (Cursor.ofTokens (readable source)).All T := by
  obtain ⟨hend, htokens⟩ := List.forall_mem_cons.mp htokens
  exact List.forall_mem_cons.mpr ⟨hend, fun t ht ↦ htokens t (List.mem_of_mem_filter ht)⟩

/-- What is found wrong in a source is said of its file, and all labels are places of tokens. -/
theorem cites_of_mem_diagnostics {d : Diagnostic} (hd : d ∈ (ofSource path source).diagnostics) :
    d.file = some path ∧ d.Cites T := by
  rw [ofSource, ofLexed, Diagnostic.sortByPlace, List.mem_mergeSort, List.mem_map] at hd
  obtain ⟨e, he, rfl⟩ := hd
  have hcites : e.Cites T := by
    rcases List.mem_append.mp he with he | he
    · obtain ⟨t, ht, rfl⟩ := List.mem_map.mp he
      have hmem := List.mem_cons_of_mem (Token.endAt 0) (List.mem_of_mem_filter ht)
      exact Diagnostic.cites_error (by decide) (htokens t hmem) _ _
    · exact (Parser.cites_namespaceBody .endOfFile _ (all_readable htokens)).reported e he
  exact ⟨rfl, hcites.code, hcites.labels⟩

/-- The names of types, and those of the variables of their fields, stand at their places. -/
theorem cited_of_mem_allTypes {d : TypeDecl}
    (hd : d ∈ Item.allTypes (ofSource path source).file.items) : d.Cited T := by
  have hresult := (Parser.cites_namespaceBody .endOfFile _ (all_readable htokens)).result
  rcases file_cases path source with ⟨body, hbody, hfile⟩ | hfile <;> rw [hfile] at hd
  · have hcited : Parser.CitedBody T body := by
      unfold readable at hresult
      rw [hbody] at hresult
      exact hresult
    exact hcited d hd
  · exact absurd hd List.not_mem_nil

end Parsed
end Companion
