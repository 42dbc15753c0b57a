import Companion.Proofs.Grammar.Loops
import Companion.Proofs.Token.Tiling
import Companion.Run
import Mathlib.Data.List.Nodup
import Mathlib.Data.List.Perm.Basic

/-!
The places of declarations in a file. Tokens start one behind the other (`Token.inOrder_ofSource`).
A type declaration starts with the first token that is read for it, and its name and the names of
variables are tokens of their own; so in the order in which a file is read, the starts of all type
declarations, of their names and of variables grow strictly (`Parsed.pairwise_starts`). Hence no two
declarations of a file share a span or the place of a name, and no two variables do
(`Parsed.nodup_spans`, `Parsed.nodup_nameSpans`, `Parsed.nodup_fieldStarts`).
-/

set_option autoImplicit false
set_option relaxedAutoImplicit false

namespace Companion

/-! ### Tokens in order -/

namespace Token

/-- Each token starts behind the start of the one before it. -/
def InOrder (ts : List Token) : Prop := ts.Pairwise fun t u ↦ t.span.start < u.span.start

theorem InOrder.of_reads {c c' : Cursor} {read : List Token} (h : InOrder c.rest)
    (hread : c.Reads read c') : InOrder c'.rest := by
  rw [hread.rest_eq] at h
  exact (List.pairwise_append.mp h).2.1

/-- The last token that was read starts no earlier than the first. -/
theorem InOrder.start_le_previous {c c' : Cursor} {t : Token} {read : List Token}
    (h : InOrder c.rest) (hread : c.Reads (t :: read) c') :
    t.span.start ≤ c'.previous.start := by
  rw [hread.rest_eq, List.cons_append] at h
  obtain ⟨u, hu, heq⟩ := List.mem_map.mp (hread.previous_mem (List.cons_ne_nil _ _))
  rw [← heq]
  rcases List.mem_cons.mp hu with rfl | hu
  · exact Nat.le_refl _
  · exact Nat.le_of_lt ((List.pairwise_cons.mp h).1 u (List.mem_append_left _ hu))

/-- The tokens of a text, with the end of the file, stand one behind the other. -/
theorem inOrder_ofSource {source : String}
    (hsize : Text.byteLength source.toList ≤ Span.maxOffset) : InOrder (ofSource source) :=
  (tiles_ofSource hsize).ordered.imp And.left

end Token

/-! ### Starts of declarations and variables -/

/-- Where the variables of a field start. -/
def Field.starts (f : Field) : List Nat := f.declarators.map (·.nameSpan.start)

mutual

/-- Where a type declaration, its name and everything in it starts, in the order in which it is
read. -/
def TypeDecl.starts : TypeDecl → List Nat
  | .mk h ms => h.span.start :: h.nameSpan.start :: Member.allStarts ms

def Member.allStarts : List Member → List Nat
  | [] => []
  | .type d :: ms => d.starts ++ Member.allStarts ms
  | .field f :: ms => f.starts ++ Member.allStarts ms
  | .other _ :: ms => Member.allStarts ms

end

mutual

def Item.starts : Item → List Nat
  | .namespaceDecl _ items => Item.allStarts items
  | .typeDecl d => d.starts

def Item.allStarts : List Item → List Nat
  | [] => []
  | i :: is => i.starts ++ Item.allStarts is

end

namespace Parser

variable {α : Type}

/-- Wherever the tokens ahead are in order, a parser gives what `post` says. -/
def Always (post : α → List Token → Cursor → Prop) (p : Parser α) : Prop :=
  ∀ c, Token.InOrder c.rest → p.Gives c post

/-- Some places in the value of a parser are starts of tokens that were read for it, in order. -/
abbrev Records (starts : α → List Nat) (p : Parser α) : Prop :=
  p.Always fun a read _ ↦ (starts a).Sublist (read.map (·.span.start))

section Steps

variable {β : Type} {post : α → List Token → Cursor → Prop} {starts : α → List Nat}

theorem Always.ite {b : Prop} [Decidable b] {p q : Parser α} (hp : p.Always post)
    (hq : q.Always post) : (if b then p else q).Always post := by
  split <;> assumption

/-- What only passes tokens changes nothing for what comes behind it. -/
theorem Forward.bind_records {p : Parser β} {f : β → Parser α} (hp : p.Forward)
    (hf : ∀ b, (f b).Records starts) : (p >>= f).Records starts := by
  intro c hc
  refine hp.gives_bind fun b before c' hread ↦ ?_
  refine (hf b c' (hc.of_reads hread)).mono fun a read _ _ hstarts ↦ ?_
  rw [List.map_append]
  exact hstarts.trans (List.sublist_append_right _ _)

/-- What is recorded stays so if nothing is added behind it. -/
theorem Always.bind_records {starts' : β → List Nat} {p : Parser β} {f : β → Parser α}
    (hp : p.Records starts')
    (hf : ∀ b c, (f b).Gives c fun a _ _ ↦ starts a = starts' b) : (p >>= f).Records starts := by
  intro c hc
  refine gives_bind ((hp c hc).mono fun b read c' _ hstarts ↦ ?_)
  refine (hf b c').mono fun a read' _ _ ha ↦ ?_
  rw [ha, List.map_append]
  exact hstarts.trans (List.sublist_append_left _ _)

theorem records_pure {a : α} (h : starts a = []) : (pure a : Parser α).Records starts :=
  fun _ _ ↦ gives_pure (h ▸ List.nil_sublist _)

theorem records_failExpected (code : Diagnostic.Code) (what : String) :
    (failExpected code what : Parser α).Records starts :=
  fun c _ ↦ ⟨[], .nothing c, fun _ ha ↦ by cases ha⟩

end Steps

theorem records_identifier : identifier.Records fun a ↦ [a.2.start] := by
  refine fun c _ ↦ (gives_identifier c).mono fun _ read _ _ h ↦ ?_
  obtain ⟨t, -, rfl, rfl⟩ := h
  exact List.Sublist.refl _

theorem records_commaSeparated {item : Parser α} {starts : α → List Nat}
    (hitem : item.Records starts) :
    ∀ budget, (commaSeparated item budget).Records fun as ↦ as.flatMap starts
  | 0 => hitem.bind_records fun _ _ ↦ gives_pure (by simp)
  | budget + 1 => by
    intro c hc
    refine gives_bind ((hitem c hc).mono fun a read c' hread ha ↦ ?_)
    refine (forward_eat _).gives_bind fun more comma c'' hcomma ↦ ?_
    split
    · have hrest := records_commaSeparated hitem budget c'' ((hc.of_reads hread).of_reads hcomma)
      refine gives_bind (hrest.mono fun as rest _ _ has ↦ gives_pure ?_)
      simp only [List.flatMap_cons, List.map_append, List.append_nil]
      exact ha.append (has.trans (List.sublist_append_right _ _))
    · refine gives_pure ?_
      simp only [List.flatMap_cons, List.flatMap_nil, List.append_nil, List.map_append]
      exact ha.trans (List.sublist_append_left _ _)

/-! ### Members -/

theorem records_declarator : declarator.Records fun d ↦ [d.nameSpan.start] := by
  refine records_identifier.bind_records fun _ c ↦ (forward_eat _).gives_bind fun _ _ _ _ ↦ ?_
  split
  · exact (forward_initializer.map some).gives_bind fun _ _ _ _ ↦ gives_pure rfl
  · exact gives_bind (gives_pure (gives_pure rfl))

theorem records_declarators : declarators.Records fun ds ↦ ds.map (·.nameSpan.start) :=
  Forward.bind_records (.look _) fun budget ↦
    (records_commaSeparated records_declarator budget).bind_records fun _ _ ↦
      (forward_expect _).gives_bind fun _ _ _ _ ↦ gives_pure List.map_eq_flatMap

/-- The places in a member, if there is one. -/
abbrev memberStarts (m : Option Member) : List Nat := Member.allStarts m.toList

theorem records_otherMember (start : Span) : (otherMember start).Records memberStarts :=
  forward_memberRest.bind_records fun _ ↦ (forward_spanFrom start).bind_records fun _ ↦
    records_pure rfl

theorem records_typedMember (attributes : List AttributeList) (modifiers : List Modifier)
    (start : Span) : (typedMember attributes modifiers start).Records memberStarts := by
  have hfield (type : TypeRef) :
      (do
        let ds ← declarators
        let span ← spanFrom start
        pure (some (Member.field ⟨attributes, modifiers, type, ds, span⟩))).Records memberStarts :=
    records_declarators.bind_records fun ds _ ↦ (forward_spanFrom start).gives_bind fun _ _ _ _ ↦
      gives_pure (by simp [memberStarts, Member.allStarts, Field.starts])
  refine forward_typeRef.bind_records fun type ↦ Forward.bind_records (.look _) fun c ↦ ?_
  exact .ite (records_failExpected _ _) <| .ite (records_otherMember start) <|
    .ite (hfield type) <| .ite (records_otherMember start) (records_failExpected _ _)

/-! ### Type declarations -/

theorem records_typeBodyWith {members : Parser (List Member)}
    (hmembers : members.Records Member.allStarts) (kind : TypeKind) :
    (typeBodyWith members kind).Records Member.allStarts := by
  refine (forward_eat _).bind_records fun _ ↦ .ite (records_pure rfl) (.ite ?_ ?_)
  · exact (forward_check _).bind_records fun _ ↦
      .ite (forward_group.bind_records fun _ ↦ records_pure rfl)
        ((forward_expect _).bind_records fun _ ↦ records_pure rfl)
  · exact (forward_expect _).bind_records fun opened ↦ hmembers.bind_records fun ms _ ↦
      (forward_closingBrace _ _).gives_bind fun _ _ _ _ ↦ gives_pure rfl

/-- The name of a type declaration is read behind its keyword. -/
theorem gives_typeHead_name (kind : TypeKind) {c : Cursor} (hkind : c.kind ≠ .eof)
    (hc : Token.InOrder c.rest) :
    (typeHead kind).Gives c fun head read _ ↦ ∃ more, read = c.current :: more ∧
      [head.1.2.start].Sublist (more.map (·.span.start)) := by
  rw [typeHead_eq]
  refine gives_bind ((gives_kindWords kind hkind).mono fun _ words c' hwords hfirst ↦ ?_)
  obtain ⟨more, rfl⟩ := hfirst
  refine gives_bind ((records_identifier c' (hc.of_reads hwords)).mono fun _ place _ _ hplace ↦ ?_)
  refine forward_headParts.gives_bind fun _ parts _ _ ↦
    gives_pure ⟨more ++ (place ++ (parts ++ [])), rfl, ?_⟩
  rw [List.map_append, List.map_append]
  exact (hplace.trans (List.sublist_append_left _ _)).trans (List.sublist_append_right _ _)

/-- A type declaration starts where it is told to, and what it holds was read behind its keyword. -/
theorem gives_typeDeclWith {members : Parser (List Member)}
    (hmembers : members.Records Member.allStarts) (kind : TypeKind)
    (attributes : List AttributeList) (modifiers : List Modifier) (start : Span) {c : Cursor}
    (hkind : c.kind ≠ .eof) (hc : Token.InOrder c.rest) :
    (typeDeclWith members kind attributes modifiers start).Gives c fun d read c' ↦
      d.header.span = start.merge c'.previous ∧ ∃ more, read = c.current :: more ∧
        (d.header.nameSpan.start :: Member.allStarts d.members).Sublist
          (more.map (·.span.start)) := by
  rw [typeDeclWith_eq]
  refine gives_bind ((gives_typeHead_name kind hkind hc).mono fun head words c' hwords hname ↦ ?_)
  obtain ⟨more, rfl, hname⟩ := hname
  have hbody := records_typeBodyWith hmembers kind c' (hc.of_reads hwords)
  refine gives_bind (hbody.mono fun ms body _ _ hms ↦ ?_)
  refine (forward_eat _).gives_bind fun _ semicolon _ _ ↦ gives_bind (gives_look (gives_pure ?_))
  refine ⟨rfl, more ++ (body ++ (semicolon ++ [])), rfl, ?_⟩
  rw [List.map_append, List.map_append]
  exact hname.append (hms.trans (List.sublist_append_left _ _))

/-- A declaration that is read from `c` on starts at the first token behind `c`. -/
theorem starts_sublist_of_typeDeclWith {c c' c'' : Cursor} {front read : List Token}
    {d : TypeDecl} (hc : Token.InOrder c.rest) (hfront : c.Reads front c')
    (hread : c'.Reads read c'') (hspan : d.header.span = c.current.span.merge c''.previous)
    (hmore : ∃ more, read = c'.current :: more ∧
      (d.header.nameSpan.start :: Member.allStarts d.members).Sublist
        (more.map (·.span.start))) :
    d.starts.Sublist ((front ++ read).map (·.span.start)) := by
  obtain ⟨more, rfl, hstarts⟩ := hmore
  obtain ⟨first, others, hsplit, hothers⟩ : ∃ first others,
      front ++ c'.current :: more = first :: others ∧ more.Sublist others := by
    cases front with
    | nil => exact ⟨_, more, rfl, .refl _⟩
    | cons first others =>
      exact ⟨first, _, rfl, (List.sublist_cons_self _ _).trans (List.sublist_append_right _ _)⟩
  have hall : c.Reads (first :: others) c'' := hsplit ▸ hfront.trans hread
  have hfirst : c.current = first := by rw [Cursor.current, hall.rest_eq]; rfl
  have hstart : d.header.span.start = first.span.start := by
    rw [hspan, hfirst]
    exact Nat.min_eq_left (hc.start_le_previous hall)
  obtain ⟨h, ms⟩ := d
  rw [hsplit, TypeDecl.starts, List.map_cons, show h.span.start = first.span.start from hstart]
  exact (hstarts.trans (hothers.map _)).cons_cons _

/-- What may start with a type declaration: the declaration, or something else behind attributes and
modifiers. -/
theorem records_declared {members : Parser (List Member)}
    (hmembers : members.Records Member.allStarts) {declared : TypeDecl → α}
    {other : Span → List AttributeList → List Modifier → Cursor → Parser α} {starts : α → List Nat}
    (hdeclared : ∀ d, starts (declared d) = d.starts)
    (hother : ∀ start attributes mods c, (other start attributes mods c).Records starts) :
    Records starts (do
      let start ← look (·.current.span)
      let attributes ← attributeLists
      let mods ← modifiers
      let c ← look id
      match declaredKind c with
      | some kind =>
        let d ← typeDeclWith members kind attributes mods start
        pure (declared d)
      | none => other start attributes mods c) := by
  intro c hc
  refine gives_bind (gives_look ?_)
  refine forward_attributeLists.gives_bind fun attributes lists c' hlists ↦ ?_
  refine forward_modifiers.gives_bind fun mods words c'' hwords ↦ gives_bind (gives_look ?_)
  have hc'' := (hc.of_reads hlists).of_reads hwords
  split
  · rename_i kind hkind
    refine gives_bind ((gives_typeDeclWith hmembers kind attributes mods c.current.span
      (kind_ne_eof_of_declaredKind hkind) hc'').mono fun d read _ hread ⟨hspan, hmore⟩ ↦ ?_)
    refine gives_pure ?_
    rw [hdeclared]
    simpa using starts_sublist_of_typeDeclWith hc (hlists.trans hwords) hread hspan hmore
  · refine (hother _ attributes mods _ c'' hc'').mono fun a read _ _ hstarts ↦ ?_
    simp only [List.map_append, List.nil_append]
    exact (hstarts.trans (List.sublist_append_right _ _)).trans (List.sublist_append_right _ _)

theorem records_memberWith {members : Parser (List Member)}
    (hmembers : members.Records Member.allStarts) : (memberWith members).Records memberStarts := by
  refine records_declared hmembers (fun d ↦ by simp [memberStarts, Member.allStarts])
    fun start attributes mods c ↦ ?_
  exact .ite (forward_advance.bind_records fun _ ↦ records_pure rfl) <| .ite (records_pure rfl) <|
    .ite (records_otherMember start) (records_typedMember attributes mods start)

/-- The places in what was read, unless reading failed. -/
def attemptStarts (starts : α → List Nat) : Except Diagnostic α → List Nat
  | .ok a => starts a
  | .error _ => []

theorem records_attempt {p : Parser α} {starts : α → List Nat} (hp : p.Records starts) :
    (attempt p).Records (attemptStarts starts) :=
  fun c hc ↦ gives_attempt (hp c hc) fun _ _ _ ↦ List.nil_sublist _

theorem records_memberStep {member : Parser (Option Member)}
    (hmember : member.Records memberStarts) :
    (memberStep member).Records (attemptStarts memberStarts) :=
  Forward.bind_records (.look _) fun c ↦ (records_attempt hmember).bind_records fun r _ ↦
    (forward_passFailure r).gives_bind fun _ _ _ _ ↦
      (forward_unstick c).gives_bind fun _ _ _ _ ↦ gives_pure rfl

theorem allStarts_cons (m : Member) (ms : List Member) :
    Member.allStarts (m :: ms) = memberStarts (some m) ++ Member.allStarts ms := by
  cases m <;> simp [memberStarts, Member.allStarts]

theorem records_membersWith {member : Parser (Option Member)}
    (hmember : member.Records memberStarts) :
    ∀ budget, (membersWith member budget).Records Member.allStarts
  | 0 => records_pure rfl
  | budget + 1 => by
    rw [membersWith_succ]
    refine Forward.bind_records (.look _) fun _ ↦ .ite (records_pure rfl) fun c hc ↦ ?_
    refine gives_bind ((records_memberStep hmember c hc).mono fun r read c' hread hr ↦ ?_)
    have hrest := records_membersWith hmember budget c' (hc.of_reads hread)
    refine gives_bind (hrest.mono fun ms more _ _ hms ↦ ?_)
    have hall : (attemptStarts memberStarts r ++ Member.allStarts ms).Sublist
        ((read ++ (more ++ []) : List Token).map (·.span.start)) := by
      rw [List.append_nil, List.map_append]
      exact hr.append hms
    rcases r with d | _ | m
    · exact gives_pure hall
    · exact gives_pure hall
    · exact gives_pure (by rwa [allStarts_cons])

theorem records_membersWithin (budget : Nat) :
    ∀ depth, (membersWithin budget depth).Records Member.allStarts
  | 0 => records_pure rfl
  | depth + 1 =>
    records_membersWith (records_memberWith (records_membersWithin budget depth)) budget

theorem records_members : members.Records Member.allStarts :=
  fun c hc ↦ (records_membersWithin (c.rest.length + 1) (c.rest.length + 1) c hc).of_eq rfl

/-! ### Namespaces and files -/

/-- The places in an entry of a namespace. -/
def Entry.starts : Entry → List Nat
  | .item i => i.starts
  | .using _ => []
  | .nothing => []

/-- The places in the body of a namespace. -/
def bodyStarts (body : List Using × List Item) : List Nat := Item.allStarts body.2

theorem records_declarationEntry : declarationEntry.Records Entry.starts := by
  refine records_declared records_members (fun d ↦ rfl) fun _ attributes mods c ↦ ?_
  exact .ite (forward_memberRest.bind_records fun _ ↦ records_pure rfl) <|
    .ite (records_pure rfl) (records_failExpected _ _)

section Body

variable {body : BodyEnd → Parser (List Using × List Item)}

theorem records_namespaceWith (hbody : ∀ bodyEnd, (body bodyEnd).Records bodyStarts) :
    (namespaceWith body).Records Item.starts := by
  refine (forward_expect _).bind_records fun start ↦ forward_name.bind_records fun n ↦
    (forward_eat _).bind_records fun _ ↦ .ite ?_ ?_
  · exact (hbody _).bind_records fun _ _ ↦
      (forward_spanFrom _).gives_bind fun _ _ _ _ ↦ gives_pure rfl
  · exact (forward_expect _).bind_records fun opened ↦ (hbody _).bind_records fun _ _ ↦
      (forward_closingBrace _ _).gives_bind fun _ _ _ _ ↦
        (forward_eat _).gives_bind fun _ _ _ _ ↦
          (forward_spanFrom _).gives_bind fun _ _ _ _ ↦ gives_pure rfl

theorem records_entryWith (hbody : ∀ bodyEnd, (body bodyEnd).Records bodyStarts) :
    (entryWith body).Records Entry.starts := by
  refine Forward.bind_records (.look _) fun c ↦ .ite ?_ (.ite ?_ (.ite ?_ (.ite ?_ ?_)))
  · exact (forward_usingDirective _).bind_records fun _ ↦ records_pure rfl
  · exact forward_advance.bind_records fun _ ↦
      (forward_usingDirective _).bind_records fun _ ↦ records_pure rfl
  · exact forward_recoverToItem.bind_records fun _ ↦ records_pure rfl
  · exact (records_namespaceWith hbody).bind_records fun _ _ ↦ gives_pure rfl
  · exact records_declarationEntry

theorem records_stepWith (hbody : ∀ bodyEnd, (body bodyEnd).Records bodyStarts) :
    (stepWith body).Records Entry.starts := by
  refine Forward.bind_records (.look _) fun c ↦ .ite ?_ (.ite ?_ ?_)
  · exact (forward_report _).bind_records fun _ ↦
      forward_advance.bind_records fun _ ↦ records_pure rfl
  · exact forward_advance.bind_records fun _ ↦ records_pure rfl
  · refine (records_attempt (records_entryWith hbody)).bind_records fun r c ↦ ?_
    cases r with
    | ok e => exact gives_pure rfl
    | error d =>
      exact (forward_report d).gives_bind fun _ _ _ _ ↦
        forward_recoverToItem.gives_bind fun _ _ _ _ ↦ gives_pure rfl

theorem records_entriesWith (hbody : ∀ bodyEnd, (body bodyEnd).Records bodyStarts)
    (bodyEnd : BodyEnd) : ∀ budget, (entriesWith body bodyEnd budget).Records bodyStarts
  | 0 => records_pure rfl
  | budget + 1 => by
    refine Forward.bind_records (.look _) fun k ↦ .ite (records_pure rfl) fun c hc ↦ ?_
    refine gives_bind ((records_stepWith hbody c hc).mono fun e read c' hread he ↦ ?_)
    have hrest := records_entriesWith hbody bodyEnd budget c' (hc.of_reads hread)
    refine gives_bind (hrest.mono fun body more _ _ hitems ↦ ?_)
    have hall : (e.starts ++ Item.allStarts body.2).Sublist
        ((read ++ (more ++ []) : List Token).map (·.span.start)) := by
      rw [List.append_nil, List.map_append]
      exact he.append hitems
    rcases e with u | i | _
    · exact gives_pure hall
    · exact gives_pure hall
    · exact gives_pure hall

end Body

theorem records_namespaceBodyWithin (budget : Nat) :
    ∀ depth bodyEnd, (namespaceBodyWithin budget depth bodyEnd).Records bodyStarts
  | 0, _ => records_pure rfl
  | depth + 1, bodyEnd =>
    records_entriesWith (records_namespaceBodyWithin budget depth) bodyEnd budget

theorem records_namespaceBody (bodyEnd : BodyEnd) : (namespaceBody bodyEnd).Records bodyStarts :=
  fun c hc ↦
    (records_namespaceBodyWithin (c.rest.length + 1) (c.rest.length + 1) bodyEnd c hc).of_eq rfl

end Parser

/-! ### Distinct places -/

/-- Where the variables of a declaration itself start. -/
def TypeDecl.fieldStarts (d : TypeDecl) : List Nat := d.fields.flatMap Field.starts

/-- Where some declarations start, and their names and variables. -/
def startsOf (ds : List TypeDecl) : List Nat :=
  ds.map (·.header.span.start) ++
    (ds.map (·.header.nameSpan.start) ++ ds.flatMap TypeDecl.fieldStarts)

theorem count_startsOf_append (n : Nat) (ds ds' : List TypeDecl) :
    (startsOf (ds ++ ds')).count n = (startsOf ds).count n + (startsOf ds').count n := by
  simp only [startsOf, List.map_append, List.flatMap_append, List.count_append]
  omega

mutual

theorem TypeDecl.count_starts (n : Nat) :
    ∀ d : TypeDecl, d.starts.count n = (startsOf d.all).count n
  | .mk h ms => by
    have hms := Member.count_allStarts n h ms
    simp only [startsOf, List.count_append] at hms
    simp only [TypeDecl.starts, TypeDecl.all, startsOf, List.map_cons, List.flatMap_cons,
      List.count_cons, List.count_append]
    show _ = _ + (if (h.span.start == n) = true then 1 else 0) +
      (_ + (if (h.nameSpan.start == n) = true then 1 else 0) + _)
    omega

theorem Member.count_allStarts (n : Nat) (h : TypeHeader) :
    ∀ ms : List Member, (Member.allStarts ms).count n =
      (TypeDecl.mk h ms).fieldStarts.count n + (startsOf (Member.allTypes ms)).count n
  | [] => rfl
  | .type d :: ms => by
    have hd := TypeDecl.count_starts n d
    have hms := Member.count_allStarts n h ms
    simp only [Member.allStarts, Member.allTypes, List.count_append, count_startsOf_append]
    show _ = (TypeDecl.mk h ms).fieldStarts.count n + _
    omega
  | .field f :: ms => by
    have hms := Member.count_allStarts n h ms
    simp only [Member.allStarts, Member.allTypes, List.count_append]
    show _ = (f.starts ++ (TypeDecl.mk h ms).fieldStarts).count n + _
    rw [List.count_append]
    omega
  | .other _ :: ms => Member.count_allStarts n h ms

end

mutual

theorem Item.count_starts (n : Nat) :
    ∀ i : Item, i.starts.count n = (startsOf (Item.types i)).count n
  | .namespaceDecl _ items => Item.count_allStarts n items
  | .typeDecl d => TypeDecl.count_starts n d

theorem Item.count_allStarts (n : Nat) :
    ∀ is : List Item, (Item.allStarts is).count n = (startsOf (Item.allTypes is)).count n
  | [] => rfl
  | i :: is => by
    have hi := Item.count_starts n i
    have his := Item.count_allStarts n is
    simp only [Item.allStarts, Item.allTypes, List.count_append, count_startsOf_append]
    omega

end

section Distinct

variable (path : String) {source : String} (hsize : Text.byteLength source.toList ≤ Span.maxOffset)
include hsize

/-- In the order in which a file is read, its type declarations and variables start one behind the
other. -/
theorem Parsed.pairwise_starts :
    (Item.allStarts (ofSource path source).file.items).Pairwise (· < ·) := by
  let tokens := (Token.ofSource source).filter (·.kind ≠ .error)
  have htokens : Token.InOrder tokens := (Token.inOrder_ofSource hsize).filter _
  obtain ⟨read, hread, hstarts⟩ :=
    Parser.records_namespaceBody .endOfFile (Cursor.ofTokens tokens) htokens
  have hinOrder : (read.map (·.span.start)).Pairwise (· < ·) := by
    have hrest : tokens = read ++ _ := hread.rest_eq
    rw [hrest] at htokens
    exact List.pairwise_map.mpr (List.pairwise_append.mp htokens).1
  rcases file_cases path source with ⟨body, hresult, hfile⟩ | hfile <;> rw [hfile]
  · exact hinOrder.sublist (hstarts body hresult)
  · exact .nil

theorem Parsed.nodup_startsOf :
    (startsOf (Item.allTypes (ofSource path source).file.items)).Nodup := by
  have hnodup : (Item.allStarts (ofSource path source).file.items).Nodup :=
    (pairwise_starts path hsize).imp Nat.ne_of_lt
  exact (List.perm_iff_count.mpr fun n ↦ Item.count_allStarts n _).nodup_iff.mp hnodup

/-- No two type declarations of a file share a span. -/
theorem Parsed.nodup_spans :
    ((Item.allTypes (ofSource path source).file.items).map (·.header.span)).Nodup := by
  refine List.Nodup.of_map Span.start ?_
  rw [List.map_map]
  exact (List.nodup_append.mp (nodup_startsOf path hsize)).1

/-- No two type declarations of a file share the place of their names. -/
theorem Parsed.nodup_nameSpans :
    ((Item.allTypes (ofSource path source).file.items).map (·.header.nameSpan)).Nodup := by
  refine List.Nodup.of_map Span.start ?_
  rw [List.map_map]
  exact (List.nodup_append.mp (List.nodup_append.mp (nodup_startsOf path hsize)).2.1).1

/-- No two variables of a file share the start of their names. -/
theorem Parsed.nodup_fieldStarts :
    ((Item.allTypes (ofSource path source).file.items).flatMap TypeDecl.fieldStarts).Nodup :=
  (List.nodup_append.mp (List.nodup_append.mp (nodup_startsOf path hsize)).2.1).2.1

end Distinct

end Companion
