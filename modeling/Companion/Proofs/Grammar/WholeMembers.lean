import Companion.Proofs.Grammar.BoundedReading

/-!
A member in front of a `;`. A member that is read from tokens without braces, with all groups closed
and a `;` at their end, ends behind that `;`, unless it fails in front of it
(`Parser.finishes_memberWith`); and what is passed over after a failure ends behind it too
(`Parser.yields_recoverInBody`). So a member, or what is passed over in its place, takes up all of
these tokens, and what comes behind them changes nothing (`Parser.yields_readOrPass`).
-/

set_option autoImplicit false
set_option relaxedAutoImplicit false

namespace Companion

namespace Parser

variable {α β : Type} {c : Cursor}

/-! ### Whole members -/

/-- With a value behind the `;`, with a failure in front of it. -/
def behind : Except Diagnostic α → Cursor → Prop
  | .ok _, c => c.rest = []
  | .error _, c => c.Guarded

/-- The parser reads the `;`, unless it fails. -/
def Finishes (p : Parser α) : Prop := ∀ c, c.Guarded → p.Alike c behind

/-- What needs no more tokens, behind a parser that reads the `;`. -/
theorem alike_behind_bind {p : Parser β} {f : β → Parser α} (hp : p.Alike c behind)
    (hf : ∀ b c', c'.rest = [] → (f b).Alike c' behind) : (p >>= f).Alike c behind :=
  hp.bind (fun _ _ h ↦ h) fun b c' hc' ↦ hf b c' hc'

theorem Keeps.finishes {p : Parser β} {f : β → Parser α} (hp : p.Keeps)
    (hf : ∀ b, (f b).Finishes) : (p >>= f).Finishes :=
  fun _ hc ↦ hp.bind_alike hc (fun _ _ h ↦ h) fun b c' hc' ↦ hf b c' hc'

/-- The end of a member, with its span. -/
theorem alike_spanFrom_bind {start : Span} {f : Span → α} (hc : c.rest = []) :
    (spanFrom start >>= fun span ↦ pure (f span)).Alike c behind :=
  alike_of_eq ⟨.ok (f (start.merge c.previous)), c, []⟩ hc fun _ _ ↦ rfl

theorem finishes_failExpected (code : Diagnostic.Code) (what : String) :
    (failExpected code what : Parser α).Finishes :=
  fun _ hc ↦ alike_failExpected code what hc fun _ ↦ hc

/-- The `;` is read. -/
theorem yields_advance_past (hc : c.Guarded) (hkind : c.kind = .semicolon) :
    advance.Yields c fun _ c' ↦ c'.rest = [] := by
  obtain ⟨hrest, hnext⟩ := hc.past hkind
  refine yields_of_eq c.current hrest [] fun ts _ ↦ ?_
  rw [advance, hc.current_eq, hnext]

theorem finishes_expect_semicolon : (expect .semicolon).Finishes := by
  intro c hc
  by_cases hkind : c.kind = .semicolon
  · obtain ⟨hrest, hnext⟩ := hc.past hkind
    refine alike_of_eq ⟨.ok c.current, c.next, []⟩ hrest fun ts _ ↦ ?_
    rw [expect, if_pos ((hc.kind_eq ts).trans hkind), hc.current_eq, hnext]
    rfl
  · refine alike_of_eq
      ⟨.error (expectedAt (missingCode c) Token.Kind.semicolon.display c), c, []⟩ hc fun ts _ ↦ ?_
    rw [expect, if_neg (by rwa [hc.kind_eq]), missingCode_followedBy hc, expectedAt_followedBy hc]
    rfl

/-- No brace is ahead. -/
theorem alike_expect_lbrace (hc : c.Guarded) :
    (expect .lbrace).Alike c fun r c' ↦ (∃ d, r = .error d) ∧ c'.Guarded := by
  refine alike_of_eq ⟨.error (expectedAt (missingCode c) Token.Kind.lbrace.display c), c, []⟩
    ⟨⟨_, rfl⟩, hc⟩ fun ts _ ↦ ?_
  rw [expect, if_neg (by rw [hc.kind_eq]; exact hc.kind_ne.1), missingCode_followedBy hc,
    expectedAt_followedBy hc]
  rfl

theorem finishes_expect_lbrace_bind {f : Token → Parser α} : (expect .lbrace >>= f).Finishes := by
  refine fun c hc ↦ (alike_expect_lbrace hc).bind (fun _ _ h ↦ h.2) fun t c' h ↦ ?_
  obtain ⟨⟨_, h⟩, -⟩ := h
  cases h

/-- Another kind of token is ahead. -/
theorem alike_eat_of_ne {k : Token.Kind} {f : Bool → Parser α}
    {post : Except Diagnostic α → Cursor → Prop}
    (h : ∀ ts, Token.Goes ts → (c.followedBy ts).kind ≠ k) (hf : (f false).Alike c post) :
    (eat k >>= f).Alike c post := by
  have heat : (eat k).Yields c fun b c' ↦ b = false ∧ c' = c :=
    yields_of_eq false ⟨rfl, rfl⟩ [] fun ts hts ↦ by
      rw [eat, if_neg (h ts hts)]
  refine heat.bind fun b c' h ↦ ?_
  obtain ⟨rfl, rfl⟩ := h
  exact hf

/-- Behind the `;` there is not another one. -/
theorem alike_eat_behind {f : Bool → Parser α} {post : Except Diagnostic α → Cursor → Prop}
    (hc : c.rest = []) (hf : (f false).Alike c post) : (eat .semicolon >>= f).Alike c post := by
  refine alike_eat_of_ne (fun ts hts ↦ ?_) hf
  rw [Cursor.kind, Cursor.current, Cursor.followedBy, hc, List.nil_append]
  cases ts with
  | nil => exact Token.Kind.noConfusion
  | cons t ts => exact hts.head t rfl

theorem finishes_declarators : declarators.Finishes := by
  have hlist := keeps_of_settled (settled_commaSeparated forward_declarator) (fun _ ↦ Nat.le_refl _)
    (keeps_commaSeparated keeps_declarator)
  rw [declarators, budget_bind]
  exact hlist.finishes fun ds c hc ↦
    alike_behind_bind (finishes_expect_semicolon c hc) fun _ _ hc' ↦ alike_pure hc'

theorem finishes_typeBodyWith (members : Parser (List Member)) (kind : TypeKind) :
    (typeBodyWith members kind).Finishes := by
  intro c hc
  by_cases hkind : c.kind = .semicolon
  · obtain ⟨hrest, hnext⟩ := hc.past hkind
    have heat : (eat .semicolon).Yields c fun b c' ↦ b = true ∧ c'.rest = [] :=
      yields_of_eq true ⟨rfl, hrest⟩ [] fun ts _ ↦ by
        rw [eat, if_pos ((hc.kind_eq ts).trans hkind), hnext]
    refine heat.bind fun b c' h ↦ ?_
    obtain ⟨rfl, hc'⟩ := h
    exact alike_pure hc'
  · refine alike_eat_of_ne (fun ts _ ↦ by rwa [hc.kind_eq]) ?_
    rw [if_neg Bool.false_ne_true]
    split
    · refine alike_look_bind (fun ts ↦ by rw [hc.kind_eq]) ?_
      rw [beq_false_of_ne hc.kind_ne.1, if_neg Bool.false_ne_true]
      exact finishes_expect_lbrace_bind c hc
    · exact finishes_expect_lbrace_bind c hc

theorem alike_typeDeclWith (members : Parser (List Member)) {kind : TypeKind}
    (attributes : List AttributeList) (mods : List Modifier) (start : Span) (hc : c.Guarded)
    (hkind : c.kind ≠ .semicolon) :
    (typeDeclWith members kind attributes mods start).Alike c behind := by
  rw [typeDeclWith_eq]
  refine (alike_typeHead hc hkind).bind (fun _ _ h ↦ h) fun head c' hc' ↦ ?_
  refine alike_behind_bind (finishes_typeBodyWith members kind c' hc') fun ms c'' hc'' ↦ ?_
  exact alike_eat_behind hc'' (alike_spanFrom_bind hc'')

/-- The rest of a member ends behind the `;`. -/
theorem yields_memberRestWithin {budget : Nat} {inExpression : Bool} (hc : c.Guarded)
    (hbudget : c.rest.length ≤ budget) :
    (memberRestWithin budget inExpression).Yields c fun _ c' ↦ c'.rest = [] := by
  induction budget generalizing c inExpression with
  | zero => exact absurd (List.eq_nil_of_length_eq_zero (Nat.le_zero.mp hbudget)) hc.rest_ne_nil
  | succ budget ih =>
    refine alike_look_bind (fun ts ↦ by rw [hc.kind_eq]) ?_
    have hgroup (b : Bool) (hopener : c.kind.isOpener = true) :
        (do let _ ← group; memberRestWithin budget b : Parser Unit).Yields c
          fun _ c' ↦ c'.rest = [] :=
      alike_group_bind hc hopener fun _ c' hc' hless ↦ ih hc' (by omega)
    have hadvance (b : Bool) (hkind : c.kind ≠ .semicolon) :
        (do let _ ← advance; memberRestWithin budget b : Parser Unit).Yields c
          fun _ c' ↦ c'.rest = [] :=
      alike_advance_bind hc hkind fun _ hnext hless ↦ ih hnext (by omega)
    split
    · rename_i hkind
      exact (yields_advance_past hc hkind).bind fun _ _ hc' ↦ yields_pure hc'
    · rename_i hkind
      exact absurd hkind hc.kind_ne.2.1
    · rename_i hkind
      exact absurd hkind hc.kind_ne.2.2
    · rename_i hkind
      exact absurd hkind hc.kind_ne.1
    · rename_i hkind
      exact hgroup _ (by rw [hkind]; rfl)
    · rename_i hkind
      exact hgroup _ (by rw [hkind]; rfl)
    · rename_i hkind
      exact hadvance _ (by rw [hkind]; decide)
    · rename_i hkind
      exact hadvance _ (by rw [hkind]; decide)
    · rename_i hsemi _ _ _ _ _ _ _
      exact hadvance _ hsemi

theorem finishes_otherMember (start : Span) : (otherMember start).Finishes := by
  intro c hc
  have hrest : memberRest.Yields c fun _ c' ↦ c'.rest = [] :=
    alike_of_settled (settled_memberRestWithin false) hc (fun _ ↦ Nat.le_succ _)
      fun _ hn ↦ yields_memberRestWithin hc (Nat.le_of_succ_le hn)
  exact hrest.bind fun _ _ hc' ↦ alike_spanFrom_bind hc'

theorem finishes_typedMember (attributes : List AttributeList) (mods : List Modifier)
    (start : Span) : (typedMember attributes mods start).Finishes := by
  refine keeps_typeRef.finishes fun type c hc ↦ ?_
  by_cases hkind : c.kind = .ident
  · have hahead := (hc.inside (by rw [hkind]; decide)).kindAhead_eq
    refine alike_look_bind (fun ts ↦ by
      simp only [id, hc.kind_eq, hc.current_eq, hahead]) ?_
    simp only [id, hkind, ne_eq, not_true_eq_false, if_false]
    split
    · exact finishes_otherMember start c hc
    · split
      · exact alike_behind_bind (finishes_declarators c hc) fun ds c' hc' ↦ alike_spanFrom_bind hc'
      · split
        · exact finishes_otherMember start c hc
        · exact finishes_failExpected _ _ c hc
  · refine alike_look_bind (fun ts ↦ ?_) ?_
    · simp only [id, hc.kind_eq, ne_eq, hkind, not_false_eq_true, if_true]
    · rw [id, if_pos hkind]
      exact finishes_failExpected _ _ c hc

theorem declaredKind_followedBy (hc : c.Guarded) (ts : List Token) :
    declaredKind (c.followedBy ts) = declaredKind c := by
  rw [declaredKind, declaredKind, hc.kind_eq, hc.current_eq]
  cases hkind : c.kind <;> try rfl
  rw [(hc.inside (by rw [hkind]; decide)).kindAhead_eq]

theorem startsOther_followedBy (hc : c.Guarded) (ts : List Token) :
    startsOther (c.followedBy ts) = startsOther c := by
  rw [startsOther, startsOther, hc.kind_eq, hc.current_eq]
  cases hkind : c.kind <;> try rfl
  rw [(hc.inside (by rw [hkind]; decide)).kindAhead_eq]

theorem finishes_memberWith (members : Parser (List Member)) : (memberWith members).Finishes := by
  refine fun c hc ↦ alike_look_bind (fun ts ↦ by rw [hc.current_eq]) ?_
  refine keeps_attributeLists.finishes
    (fun attributes ↦ keeps_modifiers.finishes fun mods c hc ↦ ?_) c hc
  refine alike_look_bind (fun ts ↦ by
    simp only [id, declaredKind_followedBy hc, startsOther_followedBy hc, hc.kind_eq]) ?_
  simp only [id]
  cases hdeclared : declaredKind c with
  | some kind =>
    have hkind : c.kind ≠ .semicolon := fun h ↦ by
      rw [declaredKind, h] at hdeclared
      cases hdeclared
    exact alike_behind_bind (alike_typeDeclWith members attributes mods _ hc hkind) fun _ _ hc' ↦
      alike_pure hc'
  | none =>
    dsimp only
    split
    · rename_i hkind
      exact (yields_advance_past hc hkind).bind fun _ _ hc' ↦ alike_pure hc'
    · rw [if_neg hc.kind_ne.2.1]
      split
      · exact finishes_otherMember _ c hc
      · exact finishes_typedMember attributes mods _ c hc

/-! ### Passing over -/

/-- What is passed over after a failure ends behind the `;`. -/
theorem yields_recoverInBodyWithin {budget : Nat} (hc : c.Guarded)
    (hbudget : c.rest.length ≤ budget) :
    (recoverInBodyWithin budget).Yields c fun _ c' ↦ c'.rest = [] := by
  induction budget generalizing c with
  | zero => exact absurd (List.eq_nil_of_length_eq_zero (Nat.le_zero.mp hbudget)) hc.rest_ne_nil
  | succ budget ih =>
    refine alike_look_bind (fun ts ↦ by rw [hc.kind_eq]) ?_
    split
    · rename_i hkind
      exact (yields_advance_past hc hkind).bind fun _ _ hc' ↦ yields_pure hc'
    · rename_i hkind
      exact absurd hkind hc.kind_ne.2.1
    · rename_i hkind
      exact absurd hkind hc.kind_ne.2.2
    · rename_i hkind
      exact absurd hkind hc.kind_ne.1
    · split
      · rename_i hopener
        refine (yields_group hc hopener).yields_attempt.bind fun r c' h ↦ ?_
        obtain ⟨_, rfl, hc', hless⟩ := h
        exact ih hc' (by omega)
      · rename_i hsemi _ _ _ _
        exact alike_advance_bind hc hsemi fun _ hnext hless ↦ ih hnext (by omega)

theorem yields_recoverInBody (hc : c.Guarded) :
    recoverInBody.Yields c fun _ c' ↦ c'.rest = [] :=
  alike_of_settled settled_recoverInBodyWithin hc (fun _ ↦ Nat.le_succ _)
    fun _ hn ↦ yields_recoverInBodyWithin hc (Nat.le_of_succ_le hn)

/-- A member, or what is passed over in its place. -/
def readOrPass (member : Parser (Option Member)) :
    Parser (Except Diagnostic (Option Member)) := do
  let read ← attempt member
  passFailure read
  pure read

theorem yields_readOrPass {member : Parser (Option Member)} (hmember : member.Finishes)
    (hc : c.Guarded) : (readOrPass member).Yields c fun _ c' ↦ c'.rest = [] := by
  refine (hmember c hc).yields_attempt.bind fun read c' hbehind ↦ ?_
  cases read with
  | ok m => exact yields_pure hbehind
  | error d =>
    have hreport : (report d).Yields c' fun _ c'' ↦ c'' = c' :=
      yields_of_eq () rfl [d] fun _ _ ↦ rfl
    have hpass : (passFailure (.error d)).Yields c' fun _ c'' ↦ c''.rest = [] :=
      hreport.bind fun _ _ h ↦ h ▸ yields_recoverInBody hbehind
    exact hpass.bind fun _ _ h ↦ yields_pure h

/-- A step that has gone on is not stuck. -/
theorem memberStep_eq_readOrPass {member : Parser (Option Member)}
    (h : (readOrPass member c).cursor.rest.length < c.rest.length) :
    memberStep member c = readOrPass member c := by
  rw [memberStep, look_bind]
  refine bind_congr_at rfl fun r hr ↦ bind_congr_at rfl fun u hu ↦ ?_
  rw [readOrPass, cursor_bind_of_ok hr, cursor_bind_of_ok hu] at h
  have hstuck : ((passFailure r (attempt member c).cursor).cursor.rest.length ==
      c.rest.length) = false := beq_false_of_ne (Nat.ne_of_lt h)
  rw [unstick, bind_assoc, look_bind, id, hstuck]
  rfl

end Parser
end Companion
