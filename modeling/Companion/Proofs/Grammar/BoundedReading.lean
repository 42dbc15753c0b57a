import Companion.Proofs.Grammar.Boundary

/-!
What looks no further than a `;`. Types (`Parser.keeps_typeRef`), attributes
(`Parser.keeps_attributeLists`), modifiers, the heads of type declarations (`Parser.alike_typeHead`)
and initializers (`Parser.keeps_initializer`) are read from the tokens in front of a `;` alone: what
comes behind it in the file changes neither the value nor what is reported, and the parser stops in
front of the `;`, with all groups closed ahead of it.
-/

set_option autoImplicit false
set_option relaxedAutoImplicit false

namespace Companion

namespace Parser

variable {α β γ : Type} {c : Cursor}

/-! ### Types -/

/-- Tokens that are read if the kinds at the cursor and behind it are these. -/
theorem keeps_ahead_advance {k : Token.Kind} (hk : k ≠ .semicolon) (p : Token.Kind → Bool)
    {f : Bool → Parser α} {g : Token → Parser α} (hf : f true = advance >>= g)
    (hg : ∀ t, (g t).Keeps) (hnone : (f false).Keeps) :
    (look (fun c ↦ c.kind == k && p (c.kindAhead 1)) >>= f).Keeps := by
  refine fun c hc ↦ alike_look_bind (fun ts ↦ by rw [hc.ahead_eq hk p]) ?_
  cases hahead : c.kind == k && p (c.kindAhead 1) with
  | false => exact hnone c hc
  | true =>
    have hkind : c.kind = k := beq_iff_eq.mp (Bool.and_eq_true_iff.mp hahead).1
    rw [hf]
    exact alike_advance_bind hc (hkind ▸ hk) fun t hnext _ ↦ hg t _ hnext

section Types

variable {type : Parser TypeRef} (htype : type.Keeps)

include htype

theorem keeps_typeArgsWith (budget : Nat) : (typeArgsWith type budget).Keeps := by
  have hclose (args : List TypeRef) :
      (do let _ ← expect .gt; pure args : Parser (List TypeRef)).Keeps :=
    (keeps_expect (by decide)).bind fun _ ↦ keeps_pure args
  exact (keeps_expect (by decide)).bind fun _ ↦ keeps_check_bind fun _ ↦
    .ite ((keeps_pure []).bind hclose) ((keeps_commaSeparated htype budget).bind hclose)

theorem keeps_segmentWith (budget : Nat) : (segmentWith type budget).Keeps := by
  have hend (ident : String) (place : Span) (args : List TypeRef) :
      (do let span ← spanFrom place; pure (.mk ident args span) : Parser Segment).Keeps :=
    (keeps_spanFrom place).bind fun _ ↦ keeps_pure _
  exact keeps_identifier.bind fun named ↦ keeps_check_bind fun _ ↦
    .ite ((keeps_typeArgsWith htype budget).bind (hend named.1 named.2))
      ((keeps_pure []).bind (hend named.1 named.2))

omit htype in
theorem keeps_segmentsWith {segment : Parser Segment} (hsegment : segment.Keeps) :
    ∀ budget, (segmentsWith segment budget).Keeps
  | 0 => hsegment.bind fun s ↦ keeps_pure [s]
  | budget + 1 => hsegment.bind fun s ↦
    keeps_ahead_advance (k := .dot) (by decide) (· == .ident) rfl
      (fun _ ↦ (keeps_segmentsWith hsegment budget).bind fun rest ↦ keeps_pure (s :: rest))
      (keeps_pure [s])

omit htype in
theorem keeps_qualifier : qualifier.Keeps := by
  refine fun c hc ↦ alike_look_bind (fun ts ↦ by
    rw [hc.ahead_eq (by decide) (· == .doubleColon)]) ?_
  split
  · rename_i hahead
    rw [Bool.and_eq_true, beq_iff_eq, beq_iff_eq] at hahead
    refine (alike_identifier hc).bind (fun _ _ h ↦ h.1) fun named c' h ↦ ?_
    obtain rfl := h.2 hahead.1
    have hkind : c.next.kind = .doubleColon :=
      (Cursor.kind_next (by rw [hahead.1]; decide)).trans hahead.2
    refine alike_advance_bind h.1 (by rw [hkind]; decide) fun _ hnext _ ↦ ?_
    exact Keeps.ite (keeps_pure _) (keeps_pure _) _ hnext
  · exact keeps_pure _ c hc

theorem keeps_nameWith (budget : Nat) : (nameWith type budget).Keeps :=
  keeps_look_bind (fun c hc ts ↦ by rw [hc.current_eq]) fun start ↦
    keeps_qualifier.bind fun q ↦
      (keeps_segmentsWith (keeps_segmentWith htype budget) budget).bind fun segments ↦
        (keeps_spanFrom start).bind fun span ↦ keeps_pure _

theorem keeps_tupleWith (budget : Nat) : (tupleWith type budget).Keeps := by
  have helement : (tupleElementWith type).Keeps :=
    htype.bind fun t ↦ (keeps_eat (by decide)).bind fun _ ↦ keeps_pure t
  exact (keeps_expect (by decide)).bind fun opened ↦
    (keeps_commaSeparated helement budget).bind fun elements ↦
      (keeps_expect (by decide)).bind fun closed ↦ keeps_pure _

theorem keeps_simpleTypeWith (budget : Nat) : (simpleTypeWith type budget).Keeps := by
  refine fun c hc ↦ alike_look_bind (fun ts ↦ by rw [hc.current_eq]) ?_
  split
  · exact keeps_tupleWith htype budget c hc
  · rename_i hkind
    have hsemi : c.kind ≠ .semicolon := by
      rw [Cursor.kind, hkind]
      decide
    split
    · exact alike_advance_bind hc hsemi fun _ hnext _ ↦ keeps_pure _ _ hnext
    · exact (keeps_nameWith htype budget).map _ c hc
  · exact keeps_failExpected _ _ c hc

end Types

theorem keeps_commas : ∀ budget, (commas budget).Keeps
  | 0 => keeps_pure 0
  | budget + 1 => (keeps_eat (by decide)).bind fun _ ↦
      .ite ((keeps_commas budget).bind fun n ↦ keeps_pure (n + 1)) (keeps_pure 0)

theorem keeps_suffixesWithin : ∀ (budget : Nat) (t : TypeRef), (suffixesWithin budget t).Keeps
  | 0, t => keeps_pure t
  | budget + 1, t => by
    have hrest := keeps_suffixesWithin budget
    refine fun c hc ↦ alike_look_bind (fun ts ↦ by
      rw [hc.ahead_eq (by decide) fun k ↦ k == .rbracket || k == .comma]) ?_
    refine alike_look_bind (fun ts ↦ by rw [hc.kind_eq]) ?_
    split
    · rename_i hquestion
      have hkind : c.kind = .question := beq_iff_eq.mp hquestion
      exact alike_advance_bind hc (by rw [hkind]; decide) fun _ hnext _ ↦ hrest _ _ hnext
    · split
      · rename_i hbrackets
        have hkind : c.kind = .lbracket := beq_iff_eq.mp (Bool.and_eq_true_iff.mp hbrackets).1
        refine alike_advance_bind hc (by rw [hkind]; decide) fun _ hnext _ ↦ ?_
        exact Keeps.bind (keeps_commas budget) (fun _ ↦ (keeps_expect (by decide)).bind fun _ ↦
          hrest _) _ hnext
      · exact keeps_pure t c hc

theorem keeps_typeRefWithin (budget : Nat) : ∀ depth, (typeRefWithin budget depth).Keeps
  | 0 => keeps_failExpected _ _
  | depth + 1 => (keeps_simpleTypeWith (keeps_typeRefWithin budget depth) budget).bind
      (keeps_suffixesWithin budget)

theorem settled_typeRefWithin : Settled fun n ↦ typeRefWithin n n :=
  fun hle hle' ↦ agree_typeRefWithin hle hle' hle hle'

theorem settled_nameWith : Settled fun n ↦ nameWith (typeRefWithin n n) n := by
  intro bound budget budget' hle hle'
  cases bound with
  | zero => exact .zero
  | succ bound =>
    have hless := Nat.le_of_succ_le hle
    have hless' := Nat.le_of_succ_le hle'
    exact agree_nameWith (settled_typeRefWithin hless hless') (forward_typeRefWithin _ _) hle hle'

theorem keeps_typeRef : typeRef.Keeps :=
  keeps_of_settled settled_typeRefWithin (fun _ ↦ Nat.le_succ _) fun n ↦ keeps_typeRefWithin n n

theorem keeps_name : name.Keeps :=
  keeps_of_settled settled_nameWith (fun _ ↦ Nat.le_succ _) fun n ↦
    keeps_nameWith (keeps_typeRefWithin n n) n

/-! ### Attributes -/

/-- A loop whose budget is read off the cursor in front of it. -/
theorem budget_bind (loop : Nat → Parser β) (f : β → Parser α) :
    (look (·.rest.length) >>= fun n ↦ loop n >>= f) =
      Parser.bind (fun c ↦ loop c.rest.length c) f := rfl

theorem keeps_budget_bind {loop : Nat → Parser β} (hsettled : Settled loop)
    (hloop : ∀ n, (loop n).Keeps) {f : β → Parser α} (hf : ∀ b, (f b).Keeps) :
    (look (·.rest.length) >>= fun n ↦ loop n >>= f).Keeps := by
  rw [budget_bind]
  exact (keeps_of_settled hsettled (fun _ ↦ Nat.le_refl _) hloop).bind hf

theorem keeps_attributeUse : attributeUse.Keeps := by
  have hend (n : Name) (args : Option Span) :
      (do let span ← spanFrom n.span; pure ⟨n.render, n.span, args, span⟩ :
        Parser Attribute).Keeps :=
    (keeps_spanFrom _).bind fun _ ↦ keeps_pure _
  refine keeps_name.bind fun n c hc ↦ alike_look_bind (fun ts ↦ by rw [hc.kind_eq]) ?_
  split
  · rename_i hopener
    have hkind : c.kind = .lparen := beq_iff_eq.mp hopener
    refine alike_look_bind (fun ts ↦ by rw [hc.current_eq]) ?_
    refine alike_group_bind hc (by rw [hkind]; rfl) fun closed c' hc' _ ↦ ?_
    exact Keeps.bind (keeps_pure _) (hend n) c' hc'
  · exact Keeps.bind (keeps_pure _) (hend n) c hc

theorem keeps_attributesWithin : ∀ budget, (attributesWithin budget).Keeps
  | 0 => keeps_pure []
  | budget + 1 => keeps_check_bind fun _ ↦ .ite (keeps_pure []) <|
      keeps_attributeUse.bind fun a ↦ (keeps_eat (by decide)).bind fun _ ↦
        .ite ((keeps_attributesWithin budget).bind fun rest ↦ keeps_pure (a :: rest))
          (keeps_pure [a])

theorem keeps_attributeTarget : attributeTarget.Keeps := by
  refine fun c hc ↦ alike_look_bind (fun ts ↦ by rw [hc.ahead_eq (by decide) (· == .colon)]) ?_
  split
  · rename_i hahead
    rw [Bool.and_eq_true, beq_iff_eq, beq_iff_eq] at hahead
    have hkind : c.next.kind = .colon :=
      (Cursor.kind_next (by rw [hahead.1]; decide)).trans hahead.2
    refine alike_advance_bind hc (by rw [hahead.1]; decide) fun t hnext _ ↦ ?_
    exact alike_advance_bind hnext (by rw [hkind]; decide) fun _ hnext' _ ↦ keeps_pure _ _ hnext'
  · exact keeps_pure _ c hc

theorem keeps_attributeList : attributeList.Keeps :=
  (keeps_expect (by decide)).bind fun opened ↦ keeps_attributeTarget.bind fun target ↦
    keeps_budget_bind settled_attributesWithin keeps_attributesWithin fun attributes ↦
      (keeps_expect (by decide)).bind fun closed ↦ keeps_pure _

theorem keeps_attributeLists : attributeLists.Keeps :=
  keeps_of_settled (settled_manyAt advances_attributeList) (fun _ ↦ Nat.le_succ _)
    (keeps_manyAt keeps_attributeList)

/-! ### Heads of declarations -/

theorem modifiersAt_followedBy (hc : c.Guarded) : ∃ ms, ∃ c' : Cursor, c'.Guarded ∧
    ∀ ts, modifiersAt c.previous (c.rest ++ ts) = (ms, c'.followedBy ts) := by
  obtain ⟨previous, rest⟩ := c
  induction rest generalizing previous with
  | nil => exact absurd rfl hc.rest_ne_nil
  | cons t rest ih =>
    by_cases hword : t.kind = .ident
    · have heof : t.kind ≠ .eof := hc.kind_ne.2.2
      have hinside := hc.inside (show t.kind ≠ .semicolon by rw [hword]; decide)
      have hhead := hinside.head?_append heof
      obtain ⟨ms, c', hc', hmore⟩ := ih t.span (Cursor.next_cons heof previous rest ▸ hinside.next)
      cases hm : Modifier.ofKeyword? t.text with
      | none =>
        refine ⟨[], _, hc, fun ts ↦ ?_⟩
        rw [List.cons_append, modifiersAt, hm]
        rfl
      | some m =>
        cases hfollows : (rest.head?.map fun next ↦ followsModifier next.kind).getD false with
        | false =>
          refine ⟨[], _, hc, fun ts ↦ ?_⟩
          rw [List.cons_append, modifiersAt, hm, hhead, hfollows]
          simp only [Bool.and_false, Bool.false_eq_true, if_false]
          rfl
        | true =>
          refine ⟨m :: ms, c', hc', fun ts ↦ ?_⟩
          rw [List.cons_append, modifiersAt, hm, hhead, hfollows]
          simp only [hword, decide_true, Bool.and_self, if_true]
          rw [show modifiersAt t.span (rest ++ ts) = _ from hmore ts]
    · refine ⟨[], _, hc, fun ts ↦ ?_⟩
      rw [List.cons_append, modifiersAt]
      simp only [hword, decide_false, Bool.false_and, Bool.false_eq_true, if_false]
      split <;> rfl

theorem keeps_modifiers : modifiers.Keeps := by
  intro c hc
  obtain ⟨ms, c', hc', h⟩ := modifiersAt_followedBy hc
  refine alike_of_eq ⟨.ok ms, c', []⟩ hc' fun ts _ ↦ ?_
  have hsame : modifiersAt (c.followedBy ts).previous (c.followedBy ts).rest =
      (ms, c'.followedBy ts) := h ts
  rw [modifiers, hsame]
  rfl

theorem keeps_typeParam : typeParam.Keeps := by
  refine keeps_attributeLists.bind fun _ c hc ↦ ?_
  have hword {w : String} (h : c.current.isWord w = true) : c.kind = .ident :=
    Token.kind_of_isWord h
  have hsame (ts : List Token) :
      ((((c.followedBy ts).current.isWord "in" || (c.followedBy ts).current.isWord "out") &&
        (c.followedBy ts).kindAhead 1 == .ident) =
      ((c.current.isWord "in" || c.current.isWord "out") && c.kindAhead 1 == .ident)) := by
    rw [hc.current_eq]
    cases h : c.current.isWord "in" || c.current.isWord "out" with
    | false => rfl
    | true =>
      have hkind : c.kind = .ident := (Bool.or_eq_true_iff.mp h).elim hword hword
      rw [(hc.inside (by rw [hkind]; decide)).kindAhead_eq]
  have hname : (identifier >>= fun named ↦ pure ⟨named.1, named.2⟩ : Parser TypeParam).Keeps :=
    keeps_identifier.bind fun _ ↦ keeps_pure _
  refine alike_look_bind (fun ts ↦ by rw [hsame]) ?_
  split
  · rename_i hvariance
    have hkind : c.kind = .ident :=
      (Bool.or_eq_true_iff.mp (Bool.and_eq_true_iff.mp hvariance).1).elim hword hword
    exact alike_advance_bind hc (by rw [hkind]; decide) fun _ hnext _ ↦ hname _ hnext
  · exact hname c hc

theorem settled_commaSeparated {item : Parser α} (hitem : item.Forward) :
    Settled (commaSeparated item) :=
  fun hle hle' ↦ agree_commaSeparated (.refl _) hitem hle hle'

theorem keeps_typeParams : typeParams.Keeps :=
  (keeps_expect (by decide)).bind fun _ ↦
    keeps_budget_bind (settled_commaSeparated forward_typeParam)
      (keeps_commaSeparated keeps_typeParam) fun params ↦
        (keeps_expect (by decide)).bind fun _ ↦ keeps_pure params

theorem keeps_baseType : baseType.Keeps :=
  keeps_typeRef.bind fun t ↦ keeps_check_group (k := .lparen) rfl rfl (fun _ ↦ keeps_pure t)
    (keeps_pure t)

theorem keeps_baseList : baseList.Keeps :=
  keeps_of_settled (settled_commaSeparated forward_baseType) (fun _ ↦ Nat.le_refl _)
    (keeps_commaSeparated keeps_baseType)

theorem keeps_constraintsWithin : ∀ budget, (constraintsWithin budget).Keeps
  | 0 => keeps_pure ()
  | budget + 1 => by
    have hrest := keeps_constraintsWithin budget
    refine fun c hc ↦ alike_look_bind (fun ts ↦ by rw [hc.kind_eq]) ?_
    split
    · exact keeps_pure () c hc
    · exact keeps_pure () c hc
    · exact keeps_pure () c hc
    · rename_i hkind
      exact alike_group_bind hc (by rw [hkind]; rfl) fun _ c' hc' _ ↦ hrest c' hc'
    · rename_i hsemi _ _
      exact alike_advance_bind hc hsemi fun _ hnext _ ↦ hrest _ hnext

theorem keeps_constraints : constraints.Keeps := by
  have hsettled : Settled fun n ↦ constraintsWithin (n + 1) :=
    fun hle hle' ↦ settled_constraintsWithin (Nat.le_succ_of_le hle) (Nat.le_succ_of_le hle')
  refine keeps_checkWord_bind fun _ ↦ .ite (fun c hc ↦ ?_) (keeps_pure ())
  exact (keeps_of_settled hsettled (fun _ ↦ Nat.le_refl _)
    (fun n ↦ keeps_constraintsWithin (n + 1)) c hc).congr fun _ ↦ rfl

/-- What introduces a type declaration stands in front of the `;`. -/
theorem alike_kindWords {kind : TypeKind} (hc : c.Guarded) (hkind : c.kind ≠ .semicolon) :
    (kindWords kind).Alike c fun _ c' ↦ c'.Guarded := by
  refine alike_advance_bind hc hkind fun _ hnext _ ↦ alike_look_bind (fun ts ↦ by
    rw [hnext.kind_eq]) ?_
  split
  · rename_i hsecond
    have hsecond := (Bool.and_eq_true_iff.mp hsecond).2
    simp only [Bool.or_eq_true, beq_iff_eq] at hsecond
    have hsemi : c.next.kind ≠ .semicolon := by
      rcases hsecond with h | h <;> rw [h] <;> decide
    exact alike_advance_bind hnext hsemi fun _ hnext' _ ↦ alike_pure hnext'
  · exact alike_pure hnext

theorem alike_typeHead {kind : TypeKind} (hc : c.Guarded) (hkind : c.kind ≠ .semicolon) :
    (typeHead kind).Alike c fun _ c' ↦ c'.Guarded := by
  have hparams : optionalTypeParams.Keeps :=
    keeps_check_bind fun _ ↦ .ite keeps_typeParams (keeps_pure [])
  have hgroup : optionalGroup.Keeps :=
    keeps_check_group (k := .lparen) rfl rfl (fun _ ↦ keeps_pure ()) (keeps_pure ())
  have hbases : optionalBases.Keeps :=
    (keeps_eat (by decide)).bind fun _ ↦ .ite keeps_baseList (keeps_pure [])
  have hparts : headParts.Keeps := hparams.bind fun _ ↦ hgroup.bind fun _ ↦
    hbases.bind fun _ ↦ keeps_constraints.bind fun _ ↦ keeps_pure _
  rw [typeHead_eq]
  refine (alike_kindWords hc hkind).bind (fun _ _ h ↦ h) fun _ c' hc' ↦ ?_
  exact keeps_identifier.bind (fun _ ↦ hparts.bind fun _ ↦ keeps_pure _) c' hc'

/-! ### Initializers -/

/-- Generic arguments are looked for no further than the `;`, and are read in front of it. -/
theorem typeArgsAhead_followedBy (hc : c.Guarded) (depth : Nat) (ts : List Token) :
    Cursor.typeArgsAhead depth (c.rest ++ ts) = Cursor.typeArgsAhead depth c.rest ∧
      (Cursor.typeArgsAhead depth c.rest = true → ∃ stop, ∃ c' : Cursor, c'.Guarded ∧
        ∀ ts, Cursor.pastTypeArgs depth c.previous (c.rest ++ ts) = (stop, c'.followedBy ts)) := by
  obtain ⟨previous, rest⟩ := c
  induction rest generalizing depth previous with
  | nil => exact absurd rfl hc.rest_ne_nil
  | cons t rest ih =>
    by_cases hsemi : t.kind = .semicolon
    · have hno (us : List Token) : Cursor.typeArgsAhead depth (t :: us) = false := by
        rw [Cursor.typeArgsAhead, hsemi]
        rfl
      exact ⟨(hno _).trans (hno _).symm, fun h ↦ by cases (hno rest).symm.trans h⟩
    · have hkind : t.kind ≠ .eof := hc.kind_ne.2.2
      have hinside := hc.inside hsemi
      have hrest : Cursor.Guarded ⟨t.span, rest⟩ :=
        Cursor.next_cons hkind previous rest ▸ hinside.next
      have hhead := hinside.head?_append hkind
      simp only [List.cons_append, Cursor.typeArgsAhead, Cursor.pastTypeArgs, if_neg hkind]
      split
      · exact ih (depth + 1) t.span hrest
      · split
        · split
          · exact ⟨by rw [hhead], fun _ ↦ ⟨t.span, _, hrest, fun _ ↦ rfl⟩⟩
          · exact ih (depth - 1) t.span hrest
        · obtain ⟨hsame, hpast⟩ := ih depth t.span hrest
          exact ⟨congrArg _ hsame, fun h ↦ hpast (Bool.and_eq_true_iff.mp h).2⟩

theorem keeps_initializerWithin : ∀ (budget : Nat) (last : Span),
    (initializerWithin budget last).Keeps
  | 0, last => keeps_pure last
  | budget + 1, last => by
    have hrest := keeps_initializerWithin budget
    refine fun c hc ↦ alike_look_bind (fun ts ↦ by rw [hc.kind_eq]) ?_
    split
    · exact keeps_pure last c hc
    · rename_i hends
      have hkind : c.kind ≠ .semicolon := fun h ↦ hends (by rw [h]; rfl)
      split
      · rename_i hopener
        exact alike_group_bind hc hopener fun stop c' hc' _ ↦ hrest stop c' hc'
      · refine alike_look_bind (fun ts ↦ by
          rw [Cursor.followedBy, (typeArgsAhead_followedBy hc 0 ts).1]) ?_
        split
        · rename_i hgeneric
          obtain ⟨stop, c', hc', hpast⟩ := (typeArgsAhead_followedBy hc 0 []).2
            (Bool.and_eq_true_iff.mp hgeneric).2
          have htypeArgs : typeArgs.Alike c fun _ d ↦ d = c' :=
            alike_of_eq ⟨.ok stop, c', []⟩ rfl fun ts _ ↦ by
              rw [typeArgs, Cursor.followedBy, hpast]
              rfl
          refine htypeArgs.bind (fun _ _ h ↦ h ▸ hc') fun s d hd ↦ ?_
          exact hrest s d (hd ▸ hc')
        · exact alike_advance_bind hc hkind fun t hnext _ ↦ hrest t.span _ hnext

theorem keeps_initializer : initializer.Keeps := by
  intro c hc
  have hwithin : Alike (fun d ↦ (initializerWithin (d.rest.length + 1) c.current.span) d) c
      fun _ c' ↦ c'.Guarded :=
    keeps_of_settled (settled_initializerWithin _) (fun _ ↦ Nat.le_succ _)
      (fun n ↦ keeps_initializerWithin n _) c hc
  by_cases hends : endsInitializer c.kind = true
  · refine (keeps_failExpected .unexpectedToken "initializer expression" c hc).congr fun ts ↦ ?_
    rw [initializer, hc.kind_eq, if_pos hends]
  · have hmap : Alike (fun d ↦ (initializerWithin (d.rest.length + 1) c.current.span >>=
        fun s ↦ pure (c.current.span.merge s)) d) c fun _ c' ↦ c'.Guarded :=
      hwithin.bind (fun _ _ h ↦ h) fun s c' hc' ↦ keeps_pure _ c' hc'
    refine hmap.congr fun ts ↦ ?_
    rw [initializer, hc.kind_eq, if_neg hends, hc.current_eq]
    rfl

theorem keeps_declarator : declarator.Keeps := by
  have hend (named : String × Span) (init : Option Span) :
      (pure ⟨named.1, named.2, init⟩ : Parser Declarator).Keeps := keeps_pure _
  exact keeps_identifier.bind fun named ↦ (keeps_eat (by decide)).bind fun _ ↦
    .ite ((keeps_initializer.map _).bind (hend named)) ((keeps_pure none).bind (hend named))

end Parser
end Companion
