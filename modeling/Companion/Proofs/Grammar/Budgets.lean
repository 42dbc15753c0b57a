import Companion.Proofs.Grammar.Progress

/-!
Budgets of loops. Every loop of a parser counts its steps down from a budget. In a file that ends in
its end-of-file token, each step that goes on has read a token; so the number of tokens ahead is
budget enough, and a larger budget changes nothing (`Parser.Settled`, `Parser.BudgetsSuffice`): no
loop stops because its budget is used up. The loops over members and entries are therefore the loops
without a budget that they stand for (`Parser.members_eq_memberLoop`,
`Parser.namespaceBody_eq_entryLoop`).
-/

set_option autoImplicit false
set_option relaxedAutoImplicit false

namespace Companion

namespace Parser

variable {α β σ : Type}

/-! ### Parsers that do the same -/

/-- Two parsers do the same where at most `bound` tokens are ahead. -/
def Agree (bound : Nat) (p q : Parser α) : Prop :=
  ∀ c : Cursor, c.Ended → c.rest.length ≤ bound → p c = q c

/-- A loop does the same with every budget of at least as many steps as tokens are ahead. -/
def Settled (loop : Nat → Parser α) : Prop :=
  ∀ {bound budget budget' : Nat}, bound ≤ budget → bound ≤ budget' →
    Agree bound (loop budget) (loop budget')

section Agree

variable {bound : Nat} {p q : Parser α} {f g : α → Parser β}

theorem Agree.refl (p : Parser α) : Agree bound p p := fun _ _ _ ↦ rfl

/-- Somewhere in a file at least its end is ahead. -/
theorem Agree.zero : Agree 0 p q :=
  fun _ hc hlength ↦ absurd hc.length_pos (Nat.not_lt.mpr hlength)

theorem Agree.symm (h : Agree bound p q) : Agree bound q p :=
  fun c hc hlength ↦ (h c hc hlength).symm

theorem Agree.mono {bound' : Nat} (h : Agree bound p q) (hle : bound' ≤ bound) :
    Agree bound' p q := fun c hc hlength ↦ h c hc (Nat.le_trans hlength hle)

protected theorem Agree.bind (hp : Agree bound p q) (hforward : p.Forward)
    (hf : ∀ a, Agree bound (f a) (g a)) : Agree bound (p >>= f) (q >>= g) :=
  fun c hc hlength ↦ bind_congr_at (hp c hc hlength) fun a _ ↦
    hf a _ (hforward.ended hc) (Nat.le_trans (hforward.length_le c) hlength)

/-- Behind a parser that reads something fewer tokens are ahead. -/
theorem Agree.advances_bind (hp : Agree (bound + 1) p q) (hadvances : p.Advances)
    (hf : ∀ a, Agree bound (f a) (g a)) : Agree (bound + 1) (p >>= f) (q >>= g) :=
  fun c hc hlength ↦ bind_congr_at (hp c hc hlength) fun a ha ↦
    hf a _ (hadvances.forward.ended hc)
      (Nat.le_of_lt_succ (Nat.lt_of_lt_of_le (hadvances.length_lt ha) hlength))

/-- A parser that reads something here, in front of others that agree. -/
theorem bind_congr_of_lt {c : Cursor} (hforward : p.Forward) (hc : c.Ended)
    (hlength : c.rest.length ≤ bound + 1) (hless : (p c).cursor.rest.length < c.rest.length)
    (hf : ∀ a, Agree bound (f a) (g a)) : (p >>= f) c = (p >>= g) c :=
  bind_congr_at rfl fun a _ ↦ hf a _ (hforward.ended hc) (by omega)

theorem Agree.look_bind {h : Cursor → α}
    (heq : ∀ c : Cursor, c.Ended → c.rest.length ≤ bound → f (h c) c = g (h c) c) :
    Agree bound (look h >>= f) (look h >>= g) :=
  fun c hc hlength ↦ bind_congr_at rfl fun a ha ↦ by
    obtain rfl : h c = a := Except.ok.inj ha
    exact heq c hc hlength

theorem Agree.ite {b : Prop} [Decidable b] {p' q' : Parser α} (hp : Agree bound p q)
    (hp' : Agree bound p' q') : Agree bound (if b then p else p') (if b then q else q') := by
  split <;> assumption

theorem Agree.map (hp : Agree bound p q) (k : α → β) : Agree bound (k <$> p) (k <$> q) :=
  fun c hc hlength ↦ bind_congr_at (hp c hc hlength) fun _ _ ↦ rfl

theorem Agree.attempt (hp : Agree bound p q) : Agree bound (attempt p) (attempt q) := by
  intro c hc hlength
  rw [Parser.attempt, Parser.attempt, hp c hc hlength]

/-- If the token is there, fewer are ahead behind it. -/
theorem Agree.eat_bind {k : Token.Kind} {f g : Bool → Parser β} (hk : k ≠ .eof)
    (hread : Agree bound (f true) (g true)) (hleft : Agree (bound + 1) (f false) (g false)) :
    Agree (bound + 1) (eat k >>= f) (eat k >>= g) := by
  refine fun c hc hlength ↦ bind_congr_at rfl fun eaten h ↦ ?_
  have hended := (forward_eat k).ended hc
  rw [eat] at h hended ⊢
  split at h
  · rename_i hkind
    obtain rfl := Except.ok.inj h
    rw [if_pos hkind] at hended ⊢
    have hless := Cursor.length_next (hkind ▸ hk)
    exact hread _ hended (show c.next.rest.length ≤ bound by omega)
  · rename_i hkind
    obtain rfl := Except.ok.inj h
    rw [if_neg hkind]
    exact hleft c hc hlength

end Agree

/-- Two loops agree if their steps agree whenever what comes behind them agrees. -/
theorem agree_of_step {limit : Nat} (loop loop' : Nat → σ → Parser α)
    (h : ∀ {bound budget budget' : Nat}, bound < limit → bound ≤ budget → bound ≤ budget' →
      (∀ s, Agree bound (loop budget s) (loop' budget' s)) →
        ∀ s, Agree (bound + 1) (loop (budget + 1) s) (loop' (budget' + 1) s))
    {budget budget' : Nat} (hle : limit ≤ budget) (hle' : limit ≤ budget') (s : σ) :
    Agree limit (loop budget s) (loop' budget' s) := by
  -- by induction on how many of the tokens ahead the loops have budget for
  have hbelow (bound : Nat) : bound ≤ limit → ∀ {budget budget' : Nat}, bound ≤ budget →
      bound ≤ budget' → ∀ s, Agree bound (loop budget s) (loop' budget' s) := by
    induction bound with
    | zero => exact fun _ _ _ _ _ _ ↦ .zero
    | succ bound ih =>
      intro hlimit budget budget' hle hle' s
      obtain ⟨n, rfl⟩ := Nat.exists_eq_add_of_le' hle
      obtain ⟨m, rfl⟩ := Nat.exists_eq_add_of_le' hle'
      exact h hlimit (Nat.le_add_left bound n) (Nat.le_add_left bound m)
        (ih (Nat.le_of_succ_le hlimit) (Nat.le_add_left ..) (Nat.le_add_left ..)) s
  exact hbelow limit (Nat.le_refl limit) hle hle' s

/-- A loop is settled if its steps agree whenever what comes behind them agrees. -/
theorem settled_of_step (loop : Nat → σ → Parser α)
    (h : ∀ {bound budget budget' : Nat}, bound ≤ budget → bound ≤ budget' →
      (∀ s, Agree bound (loop budget s) (loop budget' s)) →
        ∀ s, Agree (bound + 1) (loop (budget + 1) s) (loop (budget' + 1) s)) (s : σ) :
    Settled fun budget ↦ loop budget s :=
  fun hle hle' ↦ agree_of_step loop loop (fun _ ↦ h) hle hle' s

/-! ### Passing over -/

/-- A step at a token that is not the end of the file: the token is read, or the group it opens. -/
theorem advance_bind_congr {bound : Nat} {f g : Token → Parser α} {c : Cursor} (hc : c.Ended)
    (hlength : c.rest.length ≤ bound + 1) (hkind : c.kind ≠ .eof)
    (hf : ∀ t, Agree bound (f t) (g t)) : (advance >>= f) c = (advance >>= g) c :=
  bind_congr_of_lt forward_advance hc hlength (length_advance_lt hkind) hf

theorem group_bind_congr {bound : Nat} {f g : Span → Parser α} {c : Cursor} (hc : c.Ended)
    (hlength : c.rest.length ≤ bound + 1) (hkind : c.kind ≠ .eof)
    (hf : ∀ s, Agree bound (f s) (g s)) : (group >>= f) c = (group >>= g) c :=
  bind_congr_of_lt forward_group hc hlength (length_group_lt hkind) hf

theorem attempt_group_bind_congr {bound : Nat} {f g : Except Diagnostic Span → Parser α}
    {c : Cursor} (hc : c.Ended) (hlength : c.rest.length ≤ bound + 1) (hkind : c.kind ≠ .eof)
    (hf : ∀ r, Agree bound (f r) (g r)) : (attempt group >>= f) c = (attempt group >>= g) c :=
  bind_congr_of_lt forward_group.attempt hc hlength (length_group_lt hkind) hf

theorem settled_memberRestWithin (inExpression : Bool) :
    Settled fun budget ↦ memberRestWithin budget inExpression := by
  refine settled_of_step _ (fun {bound budget budget'} _ _ ih inExpression ↦ ?_) inExpression
  refine .look_bind fun c hc hlength ↦ ?_
  have hadvance (b : Bool) (hkind : c.kind ≠ .eof) :
      (do let _ ← advance; memberRestWithin budget b : Parser Unit) c =
        (do let _ ← advance; memberRestWithin budget' b : Parser Unit) c :=
    advance_bind_congr hc hlength hkind fun _ ↦ ih b
  cases hkind : c.kind
  case lbrace =>
    exact group_bind_congr hc hlength (by rw [hkind]; decide) fun _ ↦
      .bind (.refl _) (forward_check _) fun _ ↦ .ite (ih true) (.refl _)
  case lparen =>
    exact group_bind_congr hc hlength (by rw [hkind]; decide) fun _ ↦ ih inExpression
  case lbracket =>
    exact group_bind_congr hc hlength (by rw [hkind]; decide) fun _ ↦ ih inExpression
  all_goals first
    | rfl
    | exact hadvance _ (by rw [hkind]; decide)

theorem settled_initializerWithin (last : Span) :
    Settled fun budget ↦ initializerWithin budget last := by
  refine settled_of_step _ (fun {bound budget budget'} _ _ ih last ↦ ?_) last
  refine .look_bind fun c hc hlength ↦ ?_
  split
  · rfl
  · rename_i hends
    have hkind : c.kind ≠ .eof := fun h ↦ hends (by rw [h]; rfl)
    split
    · exact group_bind_congr hc hlength hkind ih
    · refine bind_congr_at rfl fun generic hgeneric ↦ ?_
      obtain rfl := Except.ok.inj hgeneric
      split
      · exact bind_congr_of_lt forward_typeArgs hc hlength (length_typeArgs_lt hkind) ih
      · exact advance_bind_congr hc hlength hkind fun t ↦ ih t.span

theorem settled_recoverInBodyWithin : Settled recoverInBodyWithin := by
  refine settled_of_step (fun budget (_ : Unit) ↦ recoverInBodyWithin budget)
    (fun {bound budget budget'} _ _ ih _ ↦ ?_) ()
  refine .look_bind fun c hc hlength ↦ ?_
  cases hkind : c.kind
  case lparen | lbracket =>
    refine attempt_group_bind_congr hc hlength (by rw [hkind]; decide) fun r ↦ ?_
    cases r with
    | ok => exact ih ()
    | error => exact .refl _
  all_goals first
    | rfl
    | exact advance_bind_congr hc hlength (by rw [hkind]; decide) fun _ ↦ ih ()

theorem settled_recoverToItemWithin : Settled recoverToItemWithin := by
  refine settled_of_step (fun budget (_ : Unit) ↦ recoverToItemWithin budget)
    (fun {bound budget budget'} _ _ ih _ ↦ ?_) ()
  refine .look_bind fun c hc hlength ↦ ?_
  split
  · rfl
  · split
    · rfl
    · rename_i hends
      have hkind : c.kind ≠ .eof := fun h ↦ hends (by simp [h])
      split
      · refine attempt_group_bind_congr hc hlength hkind fun r ↦ ?_
        cases r with
        | ok => exact ih ()
        | error => exact .refl _
      · exact advance_bind_congr hc hlength hkind fun _ ↦ ih ()

theorem settled_constraintsWithin : Settled constraintsWithin := by
  refine settled_of_step (fun budget (_ : Unit) ↦ constraintsWithin budget)
    (fun {bound budget budget'} _ _ ih _ ↦ ?_) ()
  refine .look_bind fun c hc hlength ↦ ?_
  cases hkind : c.kind
  case lparen => exact group_bind_congr hc hlength (by rw [hkind]; decide) fun _ ↦ ih ()
  all_goals first
    | rfl
    | exact advance_bind_congr hc hlength (by rw [hkind]; decide) fun _ ↦ ih ()

/-! ### Lists of things -/

theorem agree_commaSeparated {item item' : Parser α} {bound budget budget' : Nat}
    (hitem : Agree bound item item') (hforward : item.Forward) (hle : bound ≤ budget)
    (hle' : bound ≤ budget') :
    Agree bound (commaSeparated item budget) (commaSeparated item' budget') := by
  refine agree_of_step (fun budget (_ : Unit) ↦ commaSeparated item budget)
    (fun budget _ ↦ commaSeparated item' budget) (fun hlimit _ _ ih _ ↦ ?_) hle hle' ()
  exact (hitem.mono hlimit).bind hforward fun a ↦ .eat_bind (by decide)
    ((ih ()).bind (forward_commaSeparated hforward _) fun _ ↦ .refl _) (.refl _)

theorem settled_manyAt {k : Token.Kind} {item : Parser α} (hadvances : item.Advances) :
    Settled (manyAt k item) := by
  refine settled_of_step (fun budget (_ : Unit) ↦ manyAt k item budget)
    (fun {bound budget budget'} _ _ ih _ ↦ ?_) ()
  refine .bind (.refl _) (forward_check _) fun _ ↦ .ite ?_ (.refl _)
  exact .advances_bind (.refl _) hadvances fun a ↦
    (ih ()).bind (forward_manyAt k hadvances.forward budget) fun _ ↦ .refl _

theorem settled_commas : Settled commas := by
  refine settled_of_step (fun budget (_ : Unit) ↦ commas budget)
    (fun {bound budget budget'} _ _ ih _ ↦ ?_) ()
  exact .eat_bind (by decide) ((ih ()).bind (forward_commas budget) fun _ ↦ .refl _) (.refl _)

theorem settled_attributesWithin : Settled attributesWithin := by
  refine settled_of_step (fun budget (_ : Unit) ↦ attributesWithin budget)
    (fun {bound budget budget'} _ _ ih _ ↦ ?_) ()
  refine .bind (.refl _) (forward_check _) fun _ ↦ .ite (.refl _) ?_
  refine .bind (.refl _) forward_attributeUse fun a ↦ .eat_bind (by decide) ?_ (.refl _)
  exact (ih ()).bind (forward_attributesWithin budget) fun _ ↦ .refl _

/-! ### Types -/

section Types

variable {bound budget budget' : Nat}

theorem agree_typeArgsWith {type type' : Parser TypeRef} (htype : Agree bound type type')
    (hforward : type.Forward) (hle : bound ≤ budget) (hle' : bound ≤ budget') :
    Agree bound (typeArgsWith type budget) (typeArgsWith type' budget') := by
  refine .bind (.refl _) (forward_expect _) fun _ ↦ .bind (.refl _) (forward_check _) fun _ ↦
    .ite (.refl _) ?_
  exact (agree_commaSeparated htype hforward hle hle').bind
    (forward_commaSeparated hforward budget) fun _ ↦ .refl _

/-- Type arguments stand behind an identifier. -/
theorem agree_segmentWith {type type' : Parser TypeRef} (htype : Agree bound type type')
    (hforward : type.Forward) (hle : bound ≤ budget) (hle' : bound ≤ budget') :
    Agree (bound + 1) (segmentWith type budget) (segmentWith type' budget') := by
  refine .advances_bind (.refl _) advances_identifier fun _ ↦
    .bind (.refl _) (forward_check _) fun _ ↦ .ite ?_ (.refl _)
  exact (agree_typeArgsWith htype hforward hle hle').bind (forward_typeArgsWith hforward budget)
    fun _ ↦ .refl _

theorem agree_segmentsWith {segment segment' : Parser Segment}
    (hsegment : Agree bound segment segment') (hforward : segment.Forward) (hle : bound ≤ budget)
    (hle' : bound ≤ budget') :
    Agree bound (segmentsWith segment budget) (segmentsWith segment' budget') := by
  refine agree_of_step (fun budget (_ : Unit) ↦ segmentsWith segment budget)
    (fun budget _ ↦ segmentsWith segment' budget) (fun hlimit _ _ ih _ ↦ ?_) hle hle' ()
  refine (hsegment.mono hlimit).bind hforward fun s ↦ .look_bind fun c hc hlength ↦ ?_
  split
  · rename_i hmore
    have hkind : c.kind = .dot := by
      simp only [Bool.and_eq_true, beq_iff_eq] at hmore
      exact hmore.1
    exact advance_bind_congr hc hlength (by rw [hkind]; decide) fun _ ↦
      (ih ()).bind (forward_segmentsWith hforward _) fun _ ↦ .refl _
  · rfl

theorem agree_nameWith {type type' : Parser TypeRef} (htype : Agree bound type type')
    (hforward : type.Forward) (hle : bound + 1 ≤ budget) (hle' : bound + 1 ≤ budget') :
    Agree (bound + 1) (nameWith type budget) (nameWith type' budget') := by
  have hsegment := forward_segmentWith hforward budget
  refine .bind (.refl _) (.look _) fun _ ↦ .bind (.refl _) forward_qualifier fun _ ↦ ?_
  exact (agree_segmentsWith (agree_segmentWith htype hforward (Nat.le_of_succ_le hle)
    (Nat.le_of_succ_le hle')) hsegment hle hle').bind (forward_segmentsWith hsegment budget)
    fun _ ↦ .refl _

theorem agree_tupleWith {type type' : Parser TypeRef} (htype : Agree bound type type')
    (hforward : type.Forward) (hle : bound ≤ budget) (hle' : bound ≤ budget') :
    Agree (bound + 1) (tupleWith type budget) (tupleWith type' budget') := by
  have helement : (tupleElementWith type).Forward :=
    hforward.bind fun t ↦ (forward_eat _).bind fun _ ↦ .pure t
  refine .advances_bind (.refl _) (advances_expect (by decide)) fun _ ↦ ?_
  exact (agree_commaSeparated (htype.bind hforward fun _ ↦ .refl _) helement hle hle').bind
    (forward_commaSeparated helement budget) fun _ ↦ .refl _

theorem agree_simpleTypeWith {type type' : Parser TypeRef} (htype : Agree bound type type')
    (hforward : type.Forward) (hle : bound + 1 ≤ budget) (hle' : bound + 1 ≤ budget') :
    Agree (bound + 1) (simpleTypeWith type budget) (simpleTypeWith type' budget') := by
  refine .bind (.refl _) (.look _) fun t ↦ ?_
  split
  · exact agree_tupleWith htype hforward (Nat.le_of_succ_le hle) (Nat.le_of_succ_le hle')
  · split
    · exact .refl _
    · exact (agree_nameWith htype hforward hle hle').map _
  · exact .refl _

theorem settled_suffixesWithin (t : TypeRef) : Settled fun budget ↦ suffixesWithin budget t := by
  refine settled_of_step _ (fun {bound budget budget'} hle hle' ih t ↦ ?_) t
  refine .look_bind fun c hc hlength ↦ bind_congr_at rfl fun question hquestion ↦ ?_
  obtain rfl := Except.ok.inj hquestion
  split
  · rename_i hmark
    have hkind : c.kind ≠ .eof := by
      rw [show c.kind = .question from beq_iff_eq.mp hmark]
      decide
    exact advance_bind_congr hc hlength hkind fun _ ↦ ih _
  · split
    · rename_i hbrackets
      simp only [Bool.and_eq_true, beq_iff_eq] at hbrackets
      have hkind : c.kind ≠ .eof := by
        rw [hbrackets.1]
        decide
      exact advance_bind_congr hc hlength hkind fun _ ↦
        (settled_commas hle hle').bind (forward_commas budget) fun n ↦
          .bind (.refl _) (forward_expect _) fun closed ↦ ih _
    · rfl

/-- Neither the nesting of types nor the length of a list in them meets the end of its budget. -/
theorem agree_typeRefWithin {depth depth' : Nat} (hle : bound ≤ budget) (hle' : bound ≤ budget')
    (hdepth : bound ≤ depth) (hdepth' : bound ≤ depth') :
    Agree bound (typeRefWithin budget depth) (typeRefWithin budget' depth') := by
  refine agree_of_step (fun depth (_ : Unit) ↦ typeRefWithin budget depth)
    (fun depth _ ↦ typeRefWithin budget' depth) (fun {_ depth _} hlimit _ _ ih _ ↦ ?_)
    hdepth hdepth' ()
  have hforward := forward_typeRefWithin budget depth
  have hle := Nat.le_trans hlimit hle
  have hle' := Nat.le_trans hlimit hle'
  exact (agree_simpleTypeWith (ih ()) hforward hle hle').bind
    (forward_simpleTypeWith hforward budget) fun t ↦ settled_suffixesWithin t hle hle'

end Types

/-! ### Declarations -/

section Members

variable {bound budget budget' : Nat} {members members' : Parser (List Member)}

theorem agree_typeBodyWith (hmembers : Agree bound members members') (hforward : members.Forward)
    (kind : TypeKind) : Agree bound (typeBodyWith members kind) (typeBodyWith members' kind) :=
  .bind (.refl _) (forward_eat _) fun _ ↦ .ite (.refl _) <| .ite (.refl _) <|
    .bind (.refl _) (forward_expect _) fun _ ↦ hmembers.bind hforward fun _ ↦ .refl _

/-- The body of a type stands behind the keyword of the type. -/
theorem typeDeclWith_congr (hmembers : Agree bound members members') (hforward : members.Forward)
    {c : Cursor} (hc : c.Ended) (hlength : c.rest.length ≤ bound + 1) {kind : TypeKind}
    (hkind : declaredKind c = some kind) (attributes : List AttributeList) (mods : List Modifier)
    (start : Span) : typeDeclWith members kind attributes mods start c =
      typeDeclWith members' kind attributes mods start c := by
  rw [typeDeclWith_eq, typeDeclWith_eq]
  refine bind_congr_at rfl fun head hhead ↦ ?_
  obtain ⟨read, hread, hne⟩ := gives_typeHead kind c
  have hpos := List.length_pos_of_ne_nil (hne head hhead (kind_ne_eof_of_declaredKind hkind))
  have hless := hread.length_eq
  exact (agree_typeBodyWith hmembers hforward kind).bind (forward_typeBodyWith hforward kind)
    (fun _ ↦ .refl _) _ (hc.of_reads hread) (by omega)

theorem agree_memberWith (hmembers : Agree bound members members') (hforward : members.Forward) :
    Agree (bound + 1) (memberWith members) (memberWith members') := by
  refine .bind (.refl _) (.look _) fun start ↦ .bind (.refl _) forward_attributeLists fun ls ↦
    .bind (.refl _) forward_modifiers fun mods ↦ .look_bind fun c hc hlength ↦ ?_
  dsimp only [id]
  cases hkind : declaredKind c with
  | none => rfl
  | some kind =>
    exact bind_congr_at (typeDeclWith_congr hmembers hforward hc hlength hkind ls mods start)
      fun _ _ ↦ rfl

theorem agree_memberStep {member member' : Parser (Option Member)}
    (hmember : Agree bound member member') (hforward : member.Forward) :
    Agree bound (memberStep member) (memberStep member') :=
  .bind (.refl _) (.look _) fun _ ↦ hmember.attempt.bind hforward.attempt fun _ ↦ .refl _

theorem agree_membersWith {member member' : Parser (Option Member)}
    (hmember : Agree bound member member') (hforward : member.Forward)
    (hforward' : member'.Forward) (hle : bound ≤ budget) (hle' : bound ≤ budget') :
    Agree bound (membersWith member budget) (membersWith member' budget') := by
  refine agree_of_step (fun budget (_ : Unit) ↦ membersWith member budget)
    (fun budget _ ↦ membersWith member' budget) (fun hlimit _ _ ih _ ↦ ?_) hle hle' ()
  rw [membersWith_succ, membersWith_succ]
  refine .look_bind fun c hc hlength ↦ ?_
  split
  · rfl
  · rename_i hgoes
    have heof : c.kind ≠ .eof := fun h ↦ hgoes (by simp [h])
    have hstep := agree_memberStep (hmember.mono hlimit) hforward
    refine (bind_congr_at (hstep c hc hlength) fun _ _ ↦ rfl).trans ?_
    exact bind_congr_of_lt (forward_memberStep hforward') hc hlength
      (length_memberStep_lt hforward' heof) fun r ↦
        (ih ()).bind (forward_membersWith hforward _) fun _ ↦ .refl _

/-- Neither the nesting of types nor the number of members meets the end of its budget. -/
theorem agree_membersWithin {depth depth' : Nat} (hle : bound ≤ budget) (hle' : bound ≤ budget')
    (hdepth : bound ≤ depth) (hdepth' : bound ≤ depth') :
    Agree bound (membersWithin budget depth) (membersWithin budget' depth') := by
  refine agree_of_step (fun depth (_ : Unit) ↦ membersWithin budget depth)
    (fun depth _ ↦ membersWithin budget' depth) (fun hlimit _ _ ih _ ↦ ?_) hdepth hdepth' ()
  have hforward (budget depth : Nat) := forward_membersWithin budget depth
  exact agree_membersWith (agree_memberWith (ih ()) (hforward _ _))
    (forward_memberWith (hforward _ _)) (forward_memberWith (hforward _ _))
    (Nat.le_trans hlimit hle) (Nat.le_trans hlimit hle')

end Members

section Body

variable {bound budget budget' : Nat} {body body' : BodyEnd → Parser (List Using × List Item)}

theorem agree_namespaceWith (hbody : ∀ e, Agree bound (body e) (body' e))
    (hforward : ∀ e, (body e).Forward) :
    Agree (bound + 1) (namespaceWith body) (namespaceWith body') := by
  refine .advances_bind (.refl _) (advances_expect (by decide)) fun _ ↦
    .bind (.refl _) forward_name fun _ ↦ .bind (.refl _) (forward_eat _) fun _ ↦ .ite ?_ ?_
  · exact (hbody _).bind (hforward _) fun _ ↦ .refl _
  · exact .bind (.refl _) (forward_expect _) fun _ ↦ (hbody _).bind (hforward _) fun _ ↦ .refl _

theorem agree_stepWith (hbody : ∀ e, Agree bound (body e) (body' e))
    (hforward : ∀ e, (body e).Forward) :
    Agree (bound + 1) (stepWith body) (stepWith body') := by
  have hentry : Agree (bound + 1) (entryWith body) (entryWith body') :=
    .bind (.refl _) (.look _) fun _ ↦ .ite (.refl _) <| .ite (.refl _) <| .ite (.refl _) <|
      .ite ((agree_namespaceWith hbody hforward).map _) (.refl _)
  exact .bind (.refl _) (.look _) fun _ ↦ .ite (.refl _) <| .ite (.refl _) <|
    hentry.attempt.bind (forward_entryWith hforward).attempt fun _ ↦ .refl _

theorem agree_entriesWith (hstep : Agree bound (stepWith body) (stepWith body'))
    (hforward : ∀ e, (body e).Forward) (hforward' : ∀ e, (body' e).Forward) (bodyEnd : BodyEnd)
    (hle : bound ≤ budget) (hle' : bound ≤ budget') :
    Agree bound (entriesWith body bodyEnd budget) (entriesWith body' bodyEnd budget') := by
  refine agree_of_step (fun budget (_ : Unit) ↦ entriesWith body bodyEnd budget)
    (fun budget _ ↦ entriesWith body' bodyEnd budget) (fun hlimit _ _ ih _ ↦ ?_) hle hle' ()
  rw [entriesWith_succ, entriesWith_succ]
  refine .look_bind fun c hc hlength ↦ ?_
  split
  · rfl
  · rename_i hgoes
    have heof : c.kind ≠ .eof := fun h ↦ hgoes (by simp [h])
    refine (bind_congr_at (hstep.mono hlimit c hc hlength) fun _ _ ↦ rfl).trans ?_
    exact bind_congr_of_lt (forward_stepWith hforward') hc hlength
      (length_stepWith_lt hforward' heof) fun e ↦
        (ih ()).bind (forward_entriesWith hforward bodyEnd _) fun _ ↦ .refl _

end Body

/-- Neither the nesting of namespaces nor the number of entries meets the end of its budget. -/
theorem agree_namespaceBodyWithin {bound budget budget' depth depth' : Nat}
    (hle : bound ≤ budget) (hle' : bound ≤ budget') (hdepth : bound ≤ depth)
    (hdepth' : bound ≤ depth') (bodyEnd : BodyEnd) :
    Agree bound (namespaceBodyWithin budget depth bodyEnd)
      (namespaceBodyWithin budget' depth' bodyEnd) := by
  refine agree_of_step (namespaceBodyWithin budget) (namespaceBodyWithin budget')
    (fun hlimit _ _ ih bodyEnd ↦ ?_) hdepth hdepth' bodyEnd
  have hforward (budget depth : Nat) := forward_namespaceBodyWithin budget depth
  exact agree_entriesWith (agree_stepWith ih (hforward _ _)) (hforward _ _) (hforward _ _)
    bodyEnd (Nat.le_trans hlimit hle) (Nat.le_trans hlimit hle')

/-! ### Loops without budgets -/

section Loops

variable {bound budget : Nat}

/-- The loop over members, as far as its first step. -/
def memberLoop (members : Parser (List Member)) : Parser (List Member) := do
  let c ← look id
  if c.kind = .rbrace || c.kind = .eof then pure []
  else
    let read ← memberStep (memberWith members)
    let rest ← members
    keepRead read rest

/-- The loop over what stands in a namespace, as far as its first step. -/
def entryLoop (body : BodyEnd → Parser (List Using × List Item)) (bodyEnd : BodyEnd) :
    Parser (List Using × List Item) := do
  let k ← look Cursor.kind
  if k = .eof || (k = .rbrace && bodyEnd = .closingBrace) then pure ([], [])
  else
    let e ← stepWith body
    let rest ← body bodyEnd
    keepEntry e rest

theorem agree_members {depth : Nat} (hle : bound ≤ budget) (hdepth : bound ≤ depth) :
    Agree bound (membersWithin budget depth) members :=
  fun c hc hlength ↦ agree_membersWithin (Nat.le_trans hlength hle) (Nat.le_succ _)
    (Nat.le_trans hlength hdepth) (Nat.le_succ _) c hc (Nat.le_refl _)

theorem agree_namespaceBody {depth : Nat} (hle : bound ≤ budget) (hdepth : bound ≤ depth)
    (bodyEnd : BodyEnd) :
    Agree bound (namespaceBodyWithin budget depth bodyEnd) (namespaceBody bodyEnd) :=
  fun c hc hlength ↦ agree_namespaceBodyWithin (Nat.le_trans hlength hle) (Nat.le_succ _)
    (Nat.le_trans hlength hdepth) (Nat.le_succ _) bodyEnd c hc (Nat.le_refl _)

theorem agree_membersWith_members (hle : bound ≤ budget) :
    Agree bound (membersWith (memberWith members) budget) members := fun c hc hlength ↦ by
  have hmember : Agree c.rest.length (memberWith members)
      (memberWith (membersWithin (c.rest.length + 1) c.rest.length)) :=
    ((agree_memberWith (agree_members (Nat.le_succ _) (Nat.le_refl _))
      (forward_membersWithin _ _)).mono (Nat.le_succ _)).symm
  exact agree_membersWith hmember (forward_memberWith forward_members)
    (forward_memberWith (forward_membersWithin _ _)) (Nat.le_trans hlength hle) (Nat.le_succ _) c hc
    (Nat.le_refl _)

/-- Reading members is the loop over members, with itself as the parser of what is left and of the
members of nested types. -/
theorem members_eq_memberLoop {c : Cursor} (hc : c.Ended) : members c = memberLoop members c := by
  have hforward := forward_memberWith forward_members
  rw [← agree_membersWith_members (Nat.le_succ _) c hc (Nat.le_refl _), membersWith_succ,
    memberLoop, look_bind, look_bind]
  split
  · rfl
  · rename_i hgoes
    have heof : c.kind ≠ .eof := fun h ↦ hgoes (by simp [h])
    exact bind_congr_of_lt (forward_memberStep hforward) hc (Nat.le_succ _)
      (length_memberStep_lt hforward heof) fun r ↦
        (agree_membersWith_members (Nat.le_refl _)).bind (forward_membersWith hforward _)
          fun _ ↦ .refl _

theorem agree_entriesWith_namespaceBody (hle : bound ≤ budget) (bodyEnd : BodyEnd) :
    Agree bound (entriesWith namespaceBody bodyEnd budget) (namespaceBody bodyEnd) :=
  fun c hc hlength ↦ by
    have hstep : Agree c.rest.length (stepWith namespaceBody)
        (stepWith (namespaceBodyWithin (c.rest.length + 1) c.rest.length)) :=
      ((agree_stepWith (fun e ↦ agree_namespaceBody (Nat.le_succ _) (Nat.le_refl _) e)
        (forward_namespaceBodyWithin _ _)).mono (Nat.le_succ _)).symm
    exact agree_entriesWith hstep forward_namespaceBody (forward_namespaceBodyWithin _ _) bodyEnd
      (Nat.le_trans hlength hle) (Nat.le_succ _) c hc (Nat.le_refl _)

/-- Reading what stands in a namespace is the loop over it, with itself as the parser of what is
left and of what stands in nested namespaces. -/
theorem namespaceBody_eq_entryLoop {c : Cursor} (hc : c.Ended) (bodyEnd : BodyEnd) :
    namespaceBody bodyEnd c = entryLoop namespaceBody bodyEnd c := by
  rw [← agree_entriesWith_namespaceBody (Nat.le_succ _) bodyEnd c hc (Nat.le_refl _),
    entriesWith_succ, entryLoop, look_bind, look_bind]
  split
  · rfl
  · rename_i hgoes
    have heof : c.kind ≠ .eof := fun h ↦ hgoes (by simp [h])
    exact bind_congr_of_lt (forward_stepWith forward_namespaceBody) hc (Nat.le_succ _)
      (length_stepWith_lt forward_namespaceBody heof) fun r ↦
        (agree_entriesWith_namespaceBody (Nat.le_refl _) bodyEnd).bind
          (forward_entriesWith forward_namespaceBody _ _) fun _ ↦ .refl _

end Loops

/-- The loops over members and over what stands in a namespace go on step by step, without a budget;
and each step, which is at a token that is not the end of the file, leaves fewer tokens ahead. -/
structure LoopsAdvance : Prop where
  members {c : Cursor} (hc : c.Ended) : members c = memberLoop members c
  namespaces {c : Cursor} (hc : c.Ended) (bodyEnd : BodyEnd) :
    namespaceBody bodyEnd c = entryLoop namespaceBody bodyEnd c
  member {c : Cursor} (heof : c.kind ≠ .eof) :
    (memberStep (memberWith Parser.members) c).cursor.rest.length < c.rest.length
  entry {c : Cursor} (heof : c.kind ≠ .eof) :
    (stepWith namespaceBody c).cursor.rest.length < c.rest.length

theorem loopsAdvance : LoopsAdvance where
  members := members_eq_memberLoop
  namespaces := namespaceBody_eq_entryLoop
  member := length_memberStep_lt (forward_memberWith forward_members)
  entry := length_stepWith_lt forward_namespaceBody

/-! ### All loops -/

/-- No loop of reading stops because its budget is used up: where at most `bound` tokens are ahead,
every budget of `bound` steps or more does the same. -/
structure BudgetsSuffice : Prop where
  memberRest (inExpression : Bool) : Settled fun budget ↦ memberRestWithin budget inExpression
  initializer (last : Span) : Settled fun budget ↦ initializerWithin budget last
  recoverInBody : Settled recoverInBodyWithin
  recoverToItem : Settled recoverToItemWithin
  constraints : Settled constraintsWithin
  commas : Settled commas
  suffixes (type : TypeRef) : Settled fun budget ↦ suffixesWithin budget type
  attributes : Settled attributesWithin
  attributeLists : Settled (manyAt .lbracket attributeList)
  lists {α : Type} {item : Parser α} (h : item.Forward) : Settled (commaSeparated item)
  types {bound budget budget' depth depth' : Nat} (hle : bound ≤ budget) (hle' : bound ≤ budget')
    (hdepth : bound ≤ depth) (hdepth' : bound ≤ depth') :
    Agree bound (typeRefWithin budget depth) (typeRefWithin budget' depth')
  members {bound budget budget' depth depth' : Nat} (hle : bound ≤ budget) (hle' : bound ≤ budget')
    (hdepth : bound ≤ depth) (hdepth' : bound ≤ depth') :
    Agree bound (membersWithin budget depth) (membersWithin budget' depth')
  namespaces {bound budget budget' depth depth' : Nat} (hle : bound ≤ budget)
    (hle' : bound ≤ budget') (hdepth : bound ≤ depth) (hdepth' : bound ≤ depth')
    (bodyEnd : BodyEnd) :
    Agree bound (namespaceBodyWithin budget depth bodyEnd)
      (namespaceBodyWithin budget' depth' bodyEnd)

theorem budgetsSuffice : BudgetsSuffice where
  memberRest := settled_memberRestWithin
  initializer := settled_initializerWithin
  recoverInBody := settled_recoverInBodyWithin
  recoverToItem := settled_recoverToItemWithin
  constraints := settled_constraintsWithin
  commas := settled_commas
  suffixes := settled_suffixesWithin
  attributes := settled_attributesWithin
  attributeLists := settled_manyAt advances_attributeList
  lists h := fun hle hle' ↦ agree_commaSeparated (.refl _) h hle hle'
  types := agree_typeRefWithin
  members := agree_membersWithin
  namespaces := agree_namespaceBodyWithin

end Parser
end Companion
