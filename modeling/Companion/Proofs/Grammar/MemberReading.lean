import Companion.Proofs.Grammar.Placeless
import Mathlib.Data.List.Forall2

/-!
Members of type bodies. A parser passes over a group if brackets are balanced inside it
(`Balanced`), whatever else stands there (`Parser.takes_group`); so it passes over a method with a
body, and stops behind the body (`Parser.takes_memberRest`). A field is read to its attributes
(`Parser.takes_attributeLists`), its type and its variable.
-/

set_option autoImplicit false
set_option relaxedAutoImplicit false

namespace Companion

open Token

/-- How many groups are open behind a token, if `depth` are open before: nothing if it closes a
group that was not opened, or if the file ends or has an error there. -/
def nestingStep (depth : Nat) (b : Bare) : Option Nat :=
  if b.1 = .eof || b.1 = .error then none
  else if b.1.isOpener then some (depth + 1)
  else if b.1.isCloser then (if depth = 0 then none else some (depth - 1))
  else some depth

/-- How many groups are open behind some tokens, if `depth` are open before. -/
def nesting (depth : Nat) (bs : List Bare) : Option Nat := bs.foldlM nestingStep depth

/-- Every group that is opened among the tokens is closed among them. -/
def Balanced (bs : List Bare) : Prop := nesting 0 bs = some 0

/-- No token opens or closes a group, ends the file or is an error. -/
def IsFlat (bs : List Bare) : Prop :=
  ∀ b ∈ bs, b.1 ≠ .eof ∧ b.1 ≠ .error ∧ b.1.isOpener = false ∧ b.1.isCloser = false

/-- No token is an error. -/
def IsClean (bs : List Bare) : Prop := ∀ b ∈ bs, b.1 ≠ .error

theorem isClean_append {bs bs' : List Bare} :
    IsClean (bs ++ bs') ↔ IsClean bs ∧ IsClean bs' := List.forall_mem_append

theorem isClean_cons {b : Bare} {bs : List Bare} :
    IsClean (b :: bs) ↔ b.1 ≠ .error ∧ IsClean bs := List.forall_mem_cons

theorem isClean_nil : IsClean [] := fun _ h ↦ absurd h List.not_mem_nil

theorem isClean_plain (ns : List String) : IsClean (TypeRef.plain ns).tokens := by
  intro b hb herror
  rcases TypeRef.mem_tokens_plain hb with hkind | hkind <;> rw [hkind] at herror <;> cases herror

instance (bs : List Bare) : Decidable (Balanced bs) :=
  inferInstanceAs (Decidable (nesting 0 bs = some 0))

theorem nesting_append {bs bs' : List Bare} {depth depth' : Nat}
    (h : nesting depth bs = some depth') : nesting depth (bs ++ bs') = nesting depth' bs' := by
  rw [nesting] at h
  rw [nesting, List.foldlM_append, h]
  rfl

theorem nestingStep_add {b : Bare} {depth depth' : Nat} (h : nestingStep depth b = some depth')
    (outer : Nat) : nestingStep (depth + outer) b = some (depth' + outer) := by
  rw [nestingStep] at h ⊢
  split_ifs at h ⊢ <;> simp_all <;> omega

/-- Groups around the tokens stay open. -/
theorem nesting_add {bs : List Bare} {depth depth' : Nat} (h : nesting depth bs = some depth')
    (outer : Nat) : nesting (depth + outer) bs = some (depth' + outer) := by
  induction bs generalizing depth with
  | nil => rw [← Option.some.inj h]; rfl
  | cons b bs ih =>
    rw [nesting, List.foldlM_cons] at h ⊢
    obtain ⟨inner, hstep, hrest⟩ := Option.bind_eq_some_iff.mp h
    rw [nestingStep_add hstep outer]
    exact ih hrest

theorem IsFlat.nesting_eq {bs : List Bare} (h : IsFlat bs) (depth : Nat) :
    nesting depth bs = some depth := by
  induction bs with
  | nil => rfl
  | cons b bs ih =>
    obtain ⟨⟨heof, herror, hopen, hclose⟩, hrest⟩ := List.forall_mem_cons.mp h
    have hstep : nestingStep depth b = some depth := by
      simp [nestingStep, heof, herror, hopen, hclose]
    rw [nesting, List.foldlM_cons, hstep]
    exact ih hrest

theorem isClean_of_nesting {bs : List Bare} {depth depth' : Nat}
    (h : nesting depth bs = some depth') : IsClean bs := by
  induction bs generalizing depth with
  | nil => exact fun b hb ↦ absurd hb List.not_mem_nil
  | cons b bs ih =>
    rw [nesting, List.foldlM_cons] at h
    obtain ⟨inner, hstep, hrest⟩ := Option.bind_eq_some_iff.mp h
    refine List.forall_mem_cons.mpr ⟨fun herror ↦ ?_, ih hrest⟩
    simp [nestingStep, herror] at hstep

namespace Balanced

variable {bs bs' : List Bare}

theorem isClean (h : Balanced bs) : IsClean bs := isClean_of_nesting h

theorem nesting_eq (h : Balanced bs) (depth : Nat) : nesting depth bs = some depth := by
  simpa using nesting_add h depth

theorem nil : Balanced [] := rfl

theorem append (h : Balanced bs) (h' : Balanced bs') : Balanced (bs ++ bs') :=
  (nesting_append h).trans h'

theorem of_isFlat (h : IsFlat bs) : Balanced bs := h.nesting_eq 0

end Balanced

theorem Token.Kind.ne_of_isOpener {k : Token.Kind} (h : k.isOpener = true) :
    k ≠ .eof ∧ k ≠ .error := by
  constructor <;> rintro rfl <;> cases h

theorem Token.Kind.not_isOpener_of_isCloser {k : Token.Kind} (h : k.isCloser = true) :
    k.isOpener = false ∧ k ≠ .eof ∧ k ≠ .error := by
  cases k <;> first | exact ⟨rfl, Kind.noConfusion, Kind.noConfusion⟩ | cases h

/-- A group whose inside is balanced is balanced. -/
theorem Balanced.group {o c : Bare} {bs : List Bare} (ho : o.1.isOpener = true)
    (hc : c.1.isCloser = true) (h : Balanced bs) : Balanced (o :: (bs ++ [c])) := by
  obtain ⟨hopen, heof, herror⟩ := Kind.not_isOpener_of_isCloser hc
  have hfirst : nesting 0 [o] = some 1 := by
    simp [nesting, nestingStep, Kind.ne_of_isOpener ho, ho]
  have hlast : nesting 1 [c] = some 0 := by
    simp [nesting, nestingStep, heof, herror, hopen, hc]
  rw [Balanced, ← List.singleton_append, nesting_append hfirst, nesting_append (h.nesting_eq 1),
    hlast]

/-! ### Groups -/

theorem Cursor.closing_cons {depth depth' : Nat} {t : Token} {ts : List Token}
    (h : nestingStep depth t.bare = some depth') : closing depth (t :: ts) = closing depth' ts := by
  rw [nestingStep, bare] at h
  dsimp only at h
  rw [closing.eq_def]
  split_ifs at h ⊢ <;> cases depth <;> simp_all

/-- Balanced tokens do not close the groups around them. -/
theorem Cursor.closing_eq {bs rest : List Bare} {depth depth' : Nat}
    (h : nesting depth bs = some depth') {ts : List Token} (hts : ts.map bare = bs ++ rest) :
    ∃ ts', closing depth ts = closing depth' ts' ∧ ts'.map bare = rest := by
  induction bs generalizing depth ts with
  | nil =>
    obtain rfl := Option.some.inj h
    exact ⟨ts, rfl, hts⟩
  | cons b bs ih =>
    cases ts with
    | nil => cases hts
    | cons t ts =>
      obtain ⟨rfl, htail⟩ := List.cons.inj hts
      rw [nesting, List.foldlM_cons] at h
      obtain ⟨inner, hstep, hrest⟩ := Option.bind_eq_some_iff.mp h
      rw [closing_cons hstep]
      exact ih hrest htail

namespace Parser

open TypeRef

variable {o cl : Bare} {bs rest : List Bare}

/-- A group is read up to the bracket that closes it. -/
theorem takes_group (ho : o.1.isOpener = true) (hcl : cl.1.isCloser = true) (hbs : Balanced bs) :
    group.Takes (o :: (bs ++ [cl])) rest fun _ ↦ True := by
  intro c hc
  have hopener : c.current.kind.isOpener = true := by
    rw [show c.current.kind = o.1 from hc.kind_cons, ho]
  have hnext : c.next.Spells (bs ++ cl :: rest) := by
    simpa using hc.next (Kind.ne_of_isOpener ho).1
  obtain ⟨ts, hclosing, hts⟩ := Cursor.closing_eq hbs hnext
  cases ts with
  | nil => cases hts
  | cons t ts =>
    obtain ⟨rfl, htail⟩ := List.cons.inj hts
    obtain ⟨hopen, heof, -⟩ := Kind.not_isOpener_of_isCloser hcl
    have hfound : Cursor.closing 0 (t :: ts) = some (t, ts) := by
      rw [Cursor.closing.eq_def]
      simp only [if_neg (show t.kind ≠ .eof from heof), show t.kind.isOpener = false from hopen,
        show t.kind.isCloser = true from hcl]
      rfl
    refine ⟨t.span, ⟨t.span, ts⟩, ?_, htail, trivial⟩
    rw [group, if_pos hopener, hclosing, hfound]

/-! ### Members that are not looked into -/

/-- Whether a kind of token in a member is passed over without a further look. -/
def isQuiet : Token.Kind → Bool
  | .semicolon | .lbrace | .rbrace | .lparen | .lbracket | .eq | .fatArrow | .eof => false
  | _ => true

theorem ne_eof_of_isQuiet {k : Token.Kind} (h : isQuiet k = true) : k ≠ .eof := by
  rintro rfl
  cases h

theorem memberRestWithin_quiet {budget : Nat} {inExpression : Bool} {t : Token}
    (ht : isQuiet t.kind = true) (s : Span) (ts : List Token) :
    memberRestWithin (budget + 1) inExpression ⟨s, t :: ts⟩ =
      memberRestWithin budget inExpression ⟨t.span, ts⟩ := by
  have hadvance : (do let _ ← advance; memberRestWithin budget inExpression) ⟨s, t :: ts⟩ =
      memberRestWithin budget inExpression ⟨t.span, ts⟩ :=
    advance_bind_cons (ne_eof_of_isQuiet ht) s ts
  rw [memberRestWithin, look_bind, show Cursor.kind ⟨s, t :: ts⟩ = t.kind from rfl]
  cases hkind : t.kind
  all_goals first
    | exact hadvance
    | (rw [hkind] at ht; cases ht)

/-- The rest of a method: what stands in front of its parameters, the parameters and the body. -/
def methodRest (front params body : List Bare) : List Bare :=
  front ++ (.lparen, "(") :: (params ++ (.rparen, ")") :: (.lbrace, "\x7b") ::
    (body ++ [(.rbrace, "\x7d")]))

variable {front params body : List Bare}

theorem takes_memberRestWithin_block {budget : Nat} (hbody : Balanced body)
    (hrest : kindAt rest 0 ≠ .eq) (hsemicolon : kindAt rest 0 ≠ .semicolon) :
    (memberRestWithin (budget + 1) false).Takes ((.lbrace, "\x7b") :: (body ++ [(.rbrace, "\x7d")]))
      rest fun _ ↦ True := by
  refine takes_look_bind fun c hc ↦ ?_
  rw [hc.kind_cons]
  refine (takes_group rfl rfl hbody).bind_nil fun _ _ ↦ takes_check_bind ?_
  rw [List.nil_append, beq_false_of_ne hrest, if_neg (by simp)]
  exact takes_eat_bind_of_ne hsemicolon (takes_pure trivial)

theorem takes_memberRestWithin {budget : Nat} (hfront : ∀ b ∈ front, isQuiet b.1 = true)
    (hparams : Balanced params) (hbody : Balanced body) (hrest : kindAt rest 0 ≠ .eq)
    (hsemicolon : kindAt rest 0 ≠ .semicolon) (hbudget : front.length + 2 ≤ budget) :
    (memberRestWithin budget false).Takes (methodRest front params body) rest fun _ ↦ True := by
  induction front generalizing budget with
  | nil =>
    obtain ⟨budget, rfl⟩ := Nat.exists_eq_add_of_le' hbudget
    refine takes_look_bind fun c hc ↦ ?_
    rw [show c.kind = .lparen from hc.kind_cons]
    have hgroup : group.Takes ((.lparen, "(") :: (params ++ [(.rparen, ")")]))
        ((.lbrace, "\x7b") :: (body ++ [(.rbrace, "\x7d")]) ++ rest) fun _ ↦ True :=
      takes_group rfl rfl hparams
    have hblock := hgroup.bind (f := fun _ ↦ memberRestWithin (budget + 1) false) fun _ _ ↦
      takes_memberRestWithin_block hbody hrest hsemicolon
    simpa [methodRest] using hblock
  | cons b front ih =>
    obtain ⟨hb, hfront⟩ := List.forall_mem_cons.mp hfront
    obtain ⟨budget, rfl⟩ : ∃ m, budget = m + 1 := ⟨budget - 1, by simp at hbudget; omega⟩
    have hmore := ih hfront (show front.length + 2 ≤ budget by simp at hbudget; omega)
    rintro ⟨s, ts⟩ hc
    obtain ⟨t, ts, rfl, rfl, hts⟩ := List.map_eq_cons_iff.mp hc
    rw [memberRestWithin_quiet hb]
    exact hmore ⟨t.span, ts⟩ hts

/-- The rest of a method is passed over. -/
theorem takes_memberRest (hfront : ∀ b ∈ front, isQuiet b.1 = true) (hparams : Balanced params)
    (hbody : Balanced body) (hrest : kindAt rest 0 ≠ .eq)
    (hsemicolon : kindAt rest 0 ≠ .semicolon) :
    memberRest.Takes (methodRest front params body) rest fun _ ↦ True := by
  intro c hc
  refine takes_memberRestWithin hfront hparams hbody hrest hsemicolon ?_ c hc
  rw [hc.length_rest, methodRest]
  simp only [List.length_append, List.length_cons]
  omega

/-! ### Modifiers -/

/-- The tokens of modifiers. -/
def modifierTokens (ms : List Modifier) : List Bare := ms.map fun m ↦ (.ident, m.keyword)

/-- A declaration goes on with the tokens, of which the first is no modifier. -/
def EndsModifiers (rest : List Bare) : Prop :=
  followsModifier (kindAt rest 0) = true ∧ ∀ b ∈ rest.head?, Modifier.ofKeyword? b.2 = none

theorem ofKeyword?_keyword (m : Modifier) : Modifier.ofKeyword? m.keyword = some m := by
  cases m <;> decide

theorem followsModifier_head (ts : List Token) :
    (ts.head?.map fun next ↦ followsModifier next.kind).getD false =
      followsModifier (kindAt (ts.map bare) 0) := by
  cases ts <;> rfl

theorem followsModifier_modifierTokens (ms : List Modifier)
    (hrest : followsModifier (kindAt rest 0) = true) :
    followsModifier (kindAt (modifierTokens ms ++ rest) 0) = true := by
  cases ms with
  | nil => exact hrest
  | cons m ms => rfl

theorem modifiersAt_eq {ms : List Modifier} (hrest : EndsModifiers rest) (previous : Span)
    {ts : List Token} (hts : ts.map bare = modifierTokens ms ++ rest) :
    ∃ c : Cursor, modifiersAt previous ts = (ms, c) ∧ c.Spells rest := by
  induction ms generalizing previous ts with
  | nil =>
    refine ⟨⟨previous, ts⟩, ?_, hts⟩
    cases ts with
    | nil => rfl
    | cons t ts =>
      obtain rfl : (t :: ts).map bare = rest := hts
      have hword : Modifier.ofKeyword? t.text = none := hrest.2 t.bare rfl
      rw [modifiersAt, hword]
  | cons m ms ih =>
    cases ts with
    | nil => cases hts
    | cons t ts =>
      obtain ⟨ht, htail⟩ := List.cons.inj hts
      replace htail : ts.map bare = modifierTokens ms ++ rest := htail
      obtain ⟨hkind, htext⟩ := Prod.mk.inj ht
      obtain ⟨c, hmore, hc⟩ := ih t.span htail
      refine ⟨c, ?_, hc⟩
      rw [modifiersAt, htext, ofKeyword?_keyword]
      dsimp only
      rw [followsModifier_head, htail, followsModifier_modifierTokens ms hrest.1, hkind, hmore]
      rfl

theorem takes_modifiers {ms : List Modifier} (hrest : EndsModifiers rest) :
    modifiers.Takes (modifierTokens ms) rest (· = ms) := by
  intro c hc
  obtain ⟨c', heq, hc'⟩ := modifiersAt_eq hrest c.previous hc
  exact ⟨ms, c', by rw [modifiers, heq], hc', rfl⟩

/-! ### Attributes -/

/-- The tokens are read to a list of attributes, wherever they stand. -/
structure IsAttributeList (bs : List Bare) (l : AttributeList) : Prop where
  opens : kindAt bs 0 = .lbracket
  takes : ∀ rest, attributeList.Takes bs rest (·.placeless = l)

theorem takes_manyAt_attributeList {lists : List (List Bare)} {ls : List AttributeList}
    (h : List.Forall₂ IsAttributeList lists ls) (hrest : kindAt rest 0 ≠ .lbracket) {budget : Nat}
    (hbudget : lists.length < budget) :
    (manyAt .lbracket attributeList budget).Takes lists.flatten rest
      (·.map AttributeList.placeless = ls) := by
  induction h generalizing budget with
  | nil =>
    obtain ⟨budget, rfl⟩ := Nat.exists_eq_succ_of_ne_zero (by omega : budget ≠ 0)
    refine takes_check_bind ?_
    rw [List.flatten_nil, List.nil_append, beq_false_of_ne hrest, if_neg (by simp)]
    exact takes_pure rfl
  | @cons bs l lists ls hl _ ih =>
    obtain ⟨budget, rfl⟩ := Nat.exists_eq_succ_of_ne_zero (by omega : budget ≠ 0)
    refine takes_check_bind ?_
    rw [List.flatten_cons, List.append_assoc, kindAt_append hl.opens (by simp), if_pos (by rfl)]
    refine (hl.takes _).bind fun l' hl' ↦ ?_
    exact (ih (by simpa using hbudget)).bind_nil fun ls' hls' ↦
      takes_pure (by rw [List.map_cons, hl', hls'])

theorem kindAt_flatten {lists : List (List Bare)} {ls : List AttributeList}
    (h : List.Forall₂ IsAttributeList lists ls) (hne : lists ≠ []) :
    kindAt lists.flatten 0 = .lbracket := by
  cases h with
  | nil => exact absurd rfl hne
  | cons hl _ =>
    rw [List.flatten_cons]
    exact kindAt_append hl.opens (by simp) _

theorem length_le_flatten {lists : List (List Bare)} {ls : List AttributeList}
    (h : List.Forall₂ IsAttributeList lists ls) : lists.length ≤ lists.flatten.length := by
  induction h with
  | nil => exact Nat.le_refl _
  | @cons bs l lists ls hl _ ih =>
    have hpos : bs ≠ [] := by
      rintro rfl
      cases hl.opens
    have hlength := List.length_pos_of_ne_nil hpos
    simp only [List.flatten_cons, List.length_append, List.length_cons]
    omega

/-- The attribute lists in front of a declaration. -/
theorem takes_attributeLists {lists : List (List Bare)} {ls : List AttributeList}
    (h : List.Forall₂ IsAttributeList lists ls) (hrest : kindAt rest 0 ≠ .lbracket) :
    attributeLists.Takes lists.flatten rest (·.map AttributeList.placeless = ls) := by
  intro c hc
  refine takes_manyAt_attributeList h hrest ?_ c hc
  have hlists := length_le_flatten h
  rw [hc.length_rest, List.length_append]
  omega

/-- The name of an attribute as it is read. -/
def attributeName (ns : List String) : String := joinWith "." (ns.map unescape)

theorem render_of_readAs_plain {ns : List String} {n : Name} (h : ReadAs (plain ns) (.ofName n)) :
    n.render = attributeName ns := by
  rw [ReadAs, renamed_plain] at h
  rw [Name.render, ← render_placeless, h, render_plain, attributeName]

variable {ns : List String}

theorem takes_attributeUse (hne : ns ≠ []) (hns : ∀ n ∈ ns, IsIdentifier n)
    (hrest : EndsName rest) (hparen : kindAt rest 0 ≠ .lparen) :
    attributeUse.Takes (plain ns).tokens rest
      (·.placeless = ⟨attributeName ns, nowhere, none, nowhere⟩) := by
  refine ((legible_plain hne hns).printable.takes_name hrest).bind_nil fun n hn ↦
    takes_check_bind ?_
  rw [List.nil_append, beq_false_of_ne hparen, if_neg (by simp)]
  refine (takes_pure_self none).bind_nil fun args hargs ↦
    takes_spanFrom_bind fun _ ↦ takes_pure ?_
  rw [hargs, Attribute.placeless, render_of_readAs_plain hn, Option.map_none]

theorem takes_attributeUse_args {args : List Bare} (hne : ns ≠ [])
    (hns : ∀ n ∈ ns, IsIdentifier n) (hargs : Balanced args) :
    attributeUse.Takes ((plain ns).tokens ++ (.lparen, "(") :: (args ++ [(.rparen, ")")])) rest
      (·.placeless = ⟨attributeName ns, nowhere, some nowhere, nowhere⟩) := by
  refine ((legible_plain hne hns).printable.takes_name ⟨by simp, by simp, by simp⟩).bind fun n hn ↦
    takes_check_bind ?_
  rw [List.cons_append, kindAt_cons_zero, if_pos (by rfl)]
  refine takes_look_bind fun c _ ↦ ?_
  refine (takes_group rfl rfl hargs).bind_nil fun stop _ ↦ ?_
  refine (takes_pure_self (some _)).bind_nil fun args hargs ↦ takes_spanFrom_bind fun _ ↦
    takes_pure ?_
  rw [hargs, Attribute.placeless, render_of_readAs_plain hn, Option.map_some]

theorem takes_attributeTarget_none (hrest : kindAt rest 1 ≠ .colon) :
    attributeTarget.Takes [] rest (· = none) := by
  refine takes_look_bind fun c hc ↦ ?_
  rw [List.nil_append] at hc
  rw [hc.kindAhead, beq_false_of_ne hrest, Bool.and_false, if_neg (by simp)]
  exact takes_pure rfl

/-- Two attributes, of which the second has arguments. -/
theorem takes_attributesWithin_pair {ms : List String} {args : List Bare} (hms : ms ≠ [])
    (hns : ns ≠ []) (hmnames : ∀ n ∈ ms, IsIdentifier n) (hnnames : ∀ n ∈ ns, IsIdentifier n)
    (hargs : Balanced args) {budget : Nat} (hbudget : 2 ≤ budget) :
    (attributesWithin budget).Takes ((plain ms).tokens ++ (.comma, ",") ::
        ((plain ns).tokens ++ (.lparen, "(") :: (args ++ [(.rparen, ")")])))
      ((.rbracket, "]") :: rest)
      (·.map Attribute.placeless = [⟨attributeName ms, nowhere, none, nowhere⟩,
        ⟨attributeName ns, nowhere, some nowhere, nowhere⟩]) := by
  obtain ⟨budget, rfl⟩ := Nat.exists_eq_add_of_le' hbudget
  have hstart (ns : List String) (hne : ns ≠ []) (r : List Bare) :
      (kindAt ((plain ns).tokens ++ r) 0 == .rbracket) = false := by
    rw [kindAt_plain_zero hne]
    rfl
  have hlast : (attributesWithin (budget + 1)).Takes
      ((plain ns).tokens ++ (.lparen, "(") :: (args ++ [(.rparen, ")")]))
      ((.rbracket, "]") :: rest)
      (·.map Attribute.placeless = [⟨attributeName ns, nowhere, some nowhere, nowhere⟩]) := by
    refine takes_check_bind ?_
    rw [List.append_assoc, hstart ns hns, if_neg (by simp)]
    refine (takes_attributeUse_args hns hnnames hargs).bind_nil fun a ha ↦
      takes_eat_bind_of_ne (by simp) (takes_pure ?_)
    rw [List.map_singleton, ha]
  refine takes_check_bind ?_
  rw [List.append_assoc, hstart ms hms, if_neg (by simp)]
  refine (takes_attributeUse hms hmnames ⟨by simp, by simp, by simp⟩ (by simp)).bind
    fun a ha ↦ ?_
  refine (takes_eat (b := (.comma, ",")) Kind.noConfusion).cons_bind fun more hmore ↦ ?_
  rw [hmore, if_pos rfl]
  exact hlast.bind_nil fun as has ↦ takes_pure (by rw [List.map_cons, ha, has])

/-- The tokens of a list of attributes. -/
def attributeListTokens (attributes : List Bare) : List Bare :=
  (.lbracket, "[") :: (attributes ++ [(.rbracket, "]")])

theorem isAttributeList_pair {ms : List String} {args : List Bare} (hms : ms ≠ []) (hns : ns ≠ [])
    (hmnames : ∀ n ∈ ms, IsIdentifier n) (hnnames : ∀ n ∈ ns, IsIdentifier n)
    (hargs : Balanced args) :
    IsAttributeList (attributeListTokens ((plain ms).tokens ++ (.comma, ",") ::
        ((plain ns).tokens ++ (.lparen, "(") :: (args ++ [(.rparen, ")")]))))
      ⟨none, [⟨attributeName ms, nowhere, none, nowhere⟩,
        ⟨attributeName ns, nowhere, some nowhere, nowhere⟩], nowhere⟩ where
  opens := rfl
  takes rest := by
    rw [attributeListTokens]
    refine (takes_expect (b := (.lbracket, "[")) Kind.noConfusion).cons_bind fun opened _ ↦ ?_
    refine (takes_attributeTarget_none ?_).nil_bind fun target htarget ↦ ?_
    · rw [List.append_assoc, List.append_assoc]
      rcases kindAt_plain_one _ hms with h | h <;> rw [h] <;> simp
    · refine takes_look_bind fun c hc ↦ ?_
      refine (takes_attributesWithin_pair hms hns hmnames hnnames hargs ?_).bind fun as has ↦ ?_
      · rw [hc.length_rest]
        simp only [List.length_append, List.length_cons]
        omega
      · refine (takes_expect (b := (.rbracket, "]")) Kind.noConfusion).bind_nil
          fun closed _ ↦ takes_pure ?_
        rw [AttributeList.placeless, has, htarget]

/-! ### Initializers -/

theorem typeArgsAhead_eq {inner : List Bare}
    (hinner : ∀ b ∈ inner, Cursor.withinTypeArgs b.1 = true)
    (hrest : Cursor.followsTypeArgs (kindAt rest 0) = true) {ts : List Token}
    (hts : ts.map bare = inner ++ (.gt, ">") :: rest) : Cursor.typeArgsAhead 1 ts = true := by
  induction inner generalizing ts with
  | nil =>
    cases ts with
    | nil => cases hts
    | cons t ts =>
      obtain ⟨ht, rfl⟩ := List.cons.inj hts
      have hkind : t.kind = .gt := (Prod.mk.inj ht).1
      have hnext :
          (ts.head?.map fun next ↦ Cursor.followsTypeArgs next.kind).getD false = true := by
        cases ts with
        | nil => cases hrest
        | cons u us => exact hrest
      simp [Cursor.typeArgsAhead, hkind, hnext]
  | cons b inner ih =>
    cases ts with
    | nil => cases hts
    | cons t ts =>
      obtain ⟨rfl, htail⟩ := List.cons.inj hts
      obtain ⟨hb, hinner⟩ := List.forall_mem_cons.mp hinner
      have hlt : t.kind ≠ .lt := by
        intro heq
        rw [show t.bare.1 = .lt from heq] at hb
        cases hb
      have hgt : t.kind ≠ .gt := by
        intro heq
        rw [show t.bare.1 = .gt from heq] at hb
        cases hb
      rw [Cursor.typeArgsAhead, if_neg hlt, if_neg hgt, ih hinner htail, Bool.and_true]
      exact hb

theorem pastTypeArgs_eq {inner : List Bare} (hinner : ∀ b ∈ inner, Cursor.withinTypeArgs b.1 = true)
    (previous : Span) {ts : List Token} (hts : ts.map bare = inner ++ (.gt, ">") :: rest) :
    (Cursor.pastTypeArgs 1 previous ts).2.Spells rest := by
  induction inner generalizing previous ts with
  | nil =>
    cases ts with
    | nil => cases hts
    | cons t ts =>
      obtain ⟨ht, rfl⟩ := List.cons.inj hts
      have hkind : t.kind = .gt := (Prod.mk.inj ht).1
      simp [Cursor.pastTypeArgs, hkind, Cursor.Spells]
  | cons b inner ih =>
    cases ts with
    | nil => cases hts
    | cons t ts =>
      obtain ⟨rfl, htail⟩ := List.cons.inj hts
      obtain ⟨hb, hinner⟩ := List.forall_mem_cons.mp hinner
      have hkind : t.kind ≠ .eof ∧ t.kind ≠ .lt ∧ t.kind ≠ .gt := by
        refine ⟨?_, ?_, ?_⟩
        all_goals
          intro heq
          rw [show t.bare.1 = _ from heq] at hb
          cases hb
      rw [Cursor.pastTypeArgs, if_neg hkind.1, if_neg hkind.2.1, if_neg hkind.2.2]
      exact ih hinner t.span htail

/-- Type arguments without others inside. -/
theorem takes_typeArgs {inner : List Bare}
    (hinner : ∀ b ∈ inner, Cursor.withinTypeArgs b.1 = true) :
    typeArgs.Takes ((.lt, "<") :: (inner ++ [(.gt, ">")])) rest fun _ ↦ True := by
  intro c hc
  obtain ⟨previous, ts⟩ := c
  cases ts with
  | nil => cases hc
  | cons t ts =>
    obtain ⟨ht, htail⟩ := List.cons.inj hc
    have hkind : t.kind = .lt := (Prod.mk.inj ht).1
    have hpast : Cursor.pastTypeArgs 0 previous (t :: ts) = Cursor.pastTypeArgs 1 t.span ts := by
      rw [Cursor.pastTypeArgs, if_neg (by simp [hkind]), if_pos hkind]
    refine ⟨_, (Cursor.pastTypeArgs 0 previous (t :: ts)).2, rfl, ?_, trivial⟩
    rw [hpast]
    exact pastTypeArgs_eq hinner _ (by simpa using htail)

section Initializer

variable {budget : Nat} {last : Span}

theorem takes_initializerWithin_nil (hrest : endsInitializer (kindAt rest 0) = true) :
    (initializerWithin budget last).Takes [] rest fun _ ↦ True := by
  cases budget with
  | zero => exact takes_pure trivial
  | succ budget =>
    refine takes_look_bind fun c hc ↦ ?_
    rw [List.nil_append] at hc
    rw [hc.kind, if_pos hrest]
    exact takes_pure trivial

/-- A token in an initializer that stands for itself. -/
theorem takes_initializerWithin_cons {b : Bare} (hends : endsInitializer b.1 = false)
    (hopener : b.1.isOpener = false) (hlt : b.1 ≠ .lt)
    (hmore : ∀ last, (initializerWithin budget last).Takes bs rest fun _ ↦ True) :
    (initializerWithin (budget + 1) last).Takes (b :: bs) rest fun _ ↦ True := by
  have heof : b.1 ≠ .eof := by
    intro heof
    rw [heof] at hends
    cases hends
  refine takes_look_bind fun c hc ↦ ?_
  rw [show c.kind = b.1 from hc.kind_cons, hends, hopener, if_neg (by simp), if_neg (by simp)]
  refine takes_look_bind fun c' _ ↦ ?_
  rw [beq_false_of_ne hlt, Bool.false_and, if_neg (by simp)]
  exact (takes_advance heof).cons_bind fun t _ ↦ hmore t.span

theorem takes_initializerWithin_group {o cl : Bare} {inner : List Bare} (ho : o.1.isOpener = true)
    (hcl : cl.1.isCloser = true) (hinner : Balanced inner)
    (hmore : ∀ last, (initializerWithin budget last).Takes bs rest fun _ ↦ True) :
    (initializerWithin (budget + 1) last).Takes (o :: (inner ++ [cl]) ++ bs) rest fun _ ↦ True := by
  have hends : endsInitializer o.1 = false := by
    cases hkind : o.1 <;> simp_all [endsInitializer, Kind.isOpener]
  refine takes_look_bind fun c hc ↦ ?_
  rw [show c.kind = o.1 from hc.kind_cons, hends, if_neg (by simp), if_pos ho]
  exact (takes_group ho hcl hinner).bind fun stop _ ↦ hmore stop

theorem takes_initializerWithin_typeArgs {inner : List Bare}
    (hinner : ∀ b ∈ inner, Cursor.withinTypeArgs b.1 = true)
    (hfollows : Cursor.followsTypeArgs (kindAt (bs ++ rest) 0) = true)
    (hmore : ∀ last, (initializerWithin budget last).Takes bs rest fun _ ↦ True) :
    (initializerWithin (budget + 1) last).Takes ((.lt, "<") :: (inner ++ [(.gt, ">")]) ++ bs) rest
      fun _ ↦ True := by
  refine takes_look_bind fun c hc ↦ ?_
  rw [show c.kind = .lt from hc.kind_cons, if_neg (by decide), if_neg (by decide)]
  refine takes_look_bind fun c' hc' ↦ ?_
  have hgeneric : Cursor.typeArgsAhead 0 c'.rest = true := by
    obtain ⟨previous, ts⟩ := c'
    cases ts with
    | nil => cases hc'
    | cons t ts =>
      obtain ⟨ht, htail⟩ := List.cons.inj hc'
      rw [Cursor.typeArgsAhead, if_pos (Prod.mk.inj ht).1]
      exact typeArgsAhead_eq hinner hfollows (by simpa using htail)
  rw [hgeneric, if_pos (by rfl)]
  exact (takes_typeArgs hinner).bind fun stop _ ↦ hmore stop

end Initializer

/-- The tokens of a new list of some type. -/
def newListTokens (element : List Bare) : List Bare :=
  (.ident, "new") :: (.ident, "List") :: ((.lt, "<") :: (element ++ [(.gt, ">")]) ++
    [(.lparen, "("), (.rparen, ")")])

theorem takes_initializer_newList {element : List Bare}
    (helement : ∀ b ∈ element, Cursor.withinTypeArgs b.1 = true)
    (hrest : endsInitializer (kindAt rest 0) = true) :
    initializer.Takes (newListTokens element) rest fun _ ↦ True := by
  intro c hc
  obtain ⟨budget, hbudget⟩ : ∃ m, c.rest.length + 1 = m + 4 := by
    refine Nat.exists_eq_add_of_le' ?_
    rw [hc.length_rest, newListTokens]
    simp only [List.length_append, List.length_cons]
    omega
  have hparens (last : Span) : (initializerWithin (budget + 1) last).Takes
      ((.lparen, "(") :: ([] ++ [(.rparen, ")")]) ++ []) rest fun _ ↦ True :=
    takes_initializerWithin_group rfl rfl .nil fun _ ↦ takes_initializerWithin_nil hrest
  have hargs (last : Span) : (initializerWithin (budget + 2) last).Takes
      ((.lt, "<") :: (element ++ [(.gt, ">")]) ++ [(.lparen, "("), (.rparen, ")")]) rest
      fun _ ↦ True := takes_initializerWithin_typeArgs helement rfl hparens
  have hall : (initializerWithin (budget + 4) c.current.span).Takes (newListTokens element) rest
      fun _ ↦ True :=
    takes_initializerWithin_cons rfl rfl Kind.noConfusion fun _ ↦
      takes_initializerWithin_cons rfl rfl Kind.noConfusion hargs
  have hends : endsInitializer c.kind = false := by
    rw [hc.kind]
    rfl
  rw [initializer, if_neg (by simp [hends]), hbudget]
  exact (hall.map (g := c.current.span.merge) fun _ _ ↦ trivial) c hc

end Parser
end Companion
