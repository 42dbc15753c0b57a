import Companion.Proofs.Grammar.Embedding

/-!
Declarations of a file inside another file. Types, attributes, initializers and whole type
declarations that are read of a file without a report are read of its tokens in another file as
well, with all places moved on (`Parser.carriesAt_typeDeclWith`, `Parser.carries_members`). A step
of the loop over members is so carried over because a failed member is a report
(`Parser.carriesAt_memberStep`).
-/

set_option autoImplicit false
set_option relaxedAutoImplicit false

namespace Companion.Parser

variable {α β : Type} {n : Nat} {rest : List Token} {c d : Cursor}

open TypeRef

/-! ### What does not start at the end of a file -/

theorem complains_segmentsWith (type : Parser TypeRef) (budget : Nat) (h : c.kind = .eof) :
    ∀ m, (segmentsWith (segmentWith type budget) m).Complains c := by
  have hsegment : (segmentWith type budget).Complains c :=
    (complains_identifier (by rw [h]; decide)).bind _
  intro m
  cases m <;> exact hsegment.bind _

theorem qualifier_eof (h : c.kind = .eof) : qualifier c = ⟨.ok (false, []), c, []⟩ := by
  rw [qualifier, look_bind, h]
  rfl

theorem complains_nameWith (type : Parser TypeRef) (budget : Nat) (h : c.kind = .eof) :
    (nameWith type budget).Complains c := by
  refine complains_look_bind (complains_bind fun q c' hq ↦ ?_)
  rw [qualifier_eof h] at hq
  obtain rfl : c = c' := congrArg Outcome.cursor hq
  exact (complains_segmentsWith type budget h budget).bind _

theorem complains_typeRef (h : c.kind = .eof) : typeRef.Complains c := by
  have hsimple (type : Parser TypeRef) (budget : Nat) :
      (simpleTypeWith type budget).Complains c := by
    refine complains_look_bind ?_
    rw [show c.current.kind = .eof from h]
    exact complains_failExpected _ _
  have hwithin : (typeRefWithin (c.rest.length + 1) (c.rest.length + 1)).Complains c := by
    rw [typeRefWithin, typeRefWith]
    exact (hsimple _ _).bind _
  intro t c' hok
  rw [typeRef] at hok
  exact hwithin t c' hok

/-! ### Types -/

/-- A name and the token behind it, if the kinds at the cursor and behind it are these. -/
theorem carriesAt_named_advance_bind {view : α → α} {k : Token.Kind} (hk : k ≠ .eof)
    {f g : String × Span → Parser α} (h : c.Embeds n rest d)
    (hahead : (c.kind == .ident && c.kindAhead 1 == k) = true)
    (hf : ∀ named, (f named).Carries n rest view (g (movedName n named))) :
    (identifier >>= fun named ↦ advance >>= fun _ ↦ f named).CarriesAt n rest view
      (identifier >>= fun named ↦ advance >>= fun _ ↦ g named) c d := by
  rw [Bool.and_eq_true, beq_iff_eq, beq_iff_eq] at hahead
  refine (carries_identifier c d h).bind fun named c' d' hnamed h' ↦ ?_
  rw [identifier, if_pos hahead.1] at hnamed
  obtain rfl : c.next = c' := congrArg Outcome.cursor hnamed
  have hkind : c.next.kind = k :=
    (Cursor.kind_next (by rw [hahead.1]; decide)).trans hahead.2
  exact carriesAt_advance_bind h' (hkind ▸ hk) fun _ hnext ↦ hf named _ _ hnext

section Types

variable {type : Parser TypeRef} (htype : type.Carries n rest (relocated (.moved n)) type)

include htype

theorem carries_types (budget : Nat) :
    (commaSeparated type budget).Carries n rest (relocatedAll (.moved n))
      (commaSeparated type budget) :=
  funext (relocatedAll_eq_map (.moved n)) ▸ carries_commaSeparated htype budget

theorem carries_typeArgsWith (budget : Nat) :
    (typeArgsWith type budget).Carries n rest (relocatedAll (.moved n))
      (typeArgsWith type budget) := by
  have hclose (args : List TypeRef) :
      (do let _ ← expect .gt; pure args : Parser (List TypeRef)).Carries n rest
        (relocatedAll (.moved n))
        (do let _ ← expect .gt; pure (relocatedAll (.moved n) args)) :=
    (carries_expect (by decide)).bind fun _ ↦ carries_pure rfl
  exact (carries_expect (by decide)).bind fun _ ↦ carries_check_bind rfl fun _ ↦
    .ite (hclose []) ((carries_types htype budget).bind hclose)

theorem carries_segmentWith (budget : Nat) :
    (segmentWith type budget).Carries n rest (Segment.relocated (.moved n))
      (segmentWith type budget) := by
  have hend (ident : String) (place : Span) (args : List TypeRef) :
      (do let span ← spanFrom place; pure (.mk ident args span) : Parser Segment).Carries n rest
        (Segment.relocated (.moved n))
        (do
          let span ← spanFrom (place.moved n)
          pure (.mk ident (relocatedAll (.moved n) args) span)) :=
    (carries_spanFrom rfl).bind fun _ ↦ carries_pure rfl
  exact carries_identifier.bind fun named ↦
    carries_optional (carries_check rfl) (carries_typeArgsWith htype budget) rfl
      (hend named.1 named.2)

omit htype in
theorem carries_segmentsWith {segment : Parser Segment}
    (hsegment : segment.Carries n rest (Segment.relocated (.moved n)) segment) :
    ∀ budget, (segmentsWith segment budget).Carries n rest (List.map (Segment.relocated (.moved n)))
      (segmentsWith segment budget)
  | 0 => hsegment.bind fun _ ↦ carries_pure rfl
  | budget + 1 => hsegment.bind fun _ ↦
    carries_ahead_advance (k := .dot) (by decide) (p := (· == .ident)) rfl rfl rfl
      (fun _ ↦ (carries_segmentsWith hsegment budget).bind fun _ ↦ carries_pure rfl)
      (carries_pure rfl)

omit htype in
theorem carries_qualifier :
    qualifier.Carries n rest (fun q ↦ (q.1, q.2.map (Segment.relocated (.moved n)))) qualifier := by
  refine fun c d h ↦ carriesAt_look_bind ?_
  rw [h.ahead_eq (by decide) (p := (· == .doubleColon)) rfl]
  refine .ite (fun hahead ↦ ?_) fun _ ↦ carriesAt_pure h rfl
  exact carriesAt_named_advance_bind Token.Kind.noConfusion h hahead fun _ ↦
    .ite (carries_pure rfl) (carries_pure rfl)

theorem carries_nameWith (budget : Nat) :
    (nameWith type budget).Carries n rest (Name.relocated (.moved n)) (nameWith type budget) := by
  intro c d h
  by_cases heof : c.kind = .eof
  · exact (complains_nameWith type budget heof).carriesAt
  · refine carriesAt_look_bind (Carries.carriesAt ?_ h)
    rw [h.current_eq heof]
    refine carries_qualifier.bind fun q ↦
      (carries_segmentsWith (carries_segmentWith htype budget) budget).bind fun segments ↦
        (carries_spanFrom rfl).bind fun span ↦ carries_pure ?_
    rw [Name.relocated, relocatedSegments_eq_map, List.map_append]

theorem carries_tupleWith (budget : Nat) :
    (tupleWith type budget).Carries n rest (relocated (.moved n)) (tupleWith type budget) := by
  have helement : (tupleElementWith type).Carries n rest (relocated (.moved n))
      (tupleElementWith type) :=
    htype.bind fun _ ↦ (carries_eat (by decide)).bind fun _ ↦ carries_pure rfl
  refine (carries_expect (by decide)).bind fun opened ↦
    (carries_commaSeparated helement budget).bind fun elements ↦
      (carries_expect (by decide)).bind fun closed ↦ carries_pure ?_
  rw [relocated, relocatedAll_eq_map, Span.moved_merge]
  rfl

theorem carries_simpleTypeWith (budget : Nat) :
    (simpleTypeWith type budget).Carries n rest (relocated (.moved n))
      (simpleTypeWith type budget) := by
  intro c d h
  refine carriesAt_look_bind ?_
  by_cases heof : c.kind = .eof
  · rw [show c.current.kind = .eof from heof]
    exact (complains_failExpected _ _).carriesAt
  rw [h.current_eq heof]
  split
  · rename_i hkind
    rw [show (c.current.moved n).kind = .lparen from hkind]
    exact carries_tupleWith htype budget c d h
  · rename_i hkind
    rw [show (c.current.moved n).kind = .ident from hkind,
      show predefined? (c.current.moved n) = predefined? c.current from rfl]
    cases predefined? c.current with
    | some p => exact carriesAt_advance_bind h heof fun _ hnext ↦ carriesAt_pure hnext rfl
    | none => exact Carries.carriesAt ((carries_nameWith htype budget).map fun _ ↦ rfl) h
  · exact (complains_failExpected _ _).carriesAt

end Types

theorem carries_commas : ∀ budget, (commas budget).Carries n rest id (commas budget)
  | 0 => carries_pure rfl
  | budget + 1 => (carries_eat (by decide)).bind fun _ ↦
      .ite ((carries_commas budget).bind fun _ ↦ carries_pure rfl) (carries_pure rfl)

theorem carries_suffixesWithin : ∀ (budget : Nat) (t : TypeRef),
    (suffixesWithin budget t).Carries n rest (relocated (.moved n))
      (suffixesWithin budget (t.relocated (.moved n)))
  | 0, t => carries_pure rfl
  | budget + 1, t => by
    have hspan (span : Span) : (t.span.merge span).moved n =
        (t.relocated (.moved n)).span.merge (span.moved n) := by
      rw [Span.moved_merge]
      cases t <;> rfl
    have hrest (t' : TypeRef) : (suffixesWithin budget t').Carries n rest (relocated (.moved n))
        (suffixesWithin budget (t'.relocated (.moved n))) := carries_suffixesWithin budget t'
    intro c d h
    refine carriesAt_look_bind ?_
    rw [h.ahead_eq (k := .lbracket) (by decide) (p := fun k ↦ k == .rbracket || k == .comma) rfl]
    refine carriesAt_look_bind ?_
    rw [h.beq_kind rfl]
    refine .ite (fun hquestion ↦ ?_) fun _ ↦ .ite (fun hbrackets ↦ ?_) fun _ ↦ carriesAt_pure h rfl
    · have hkind : c.kind = .question := beq_iff_eq.mp hquestion
      refine carriesAt_advance_bind h (by rw [hkind]; decide) fun mark hnext ↦ ?_
      have hmark := hrest (.nullable t (t.span.merge mark.span)) _ _ hnext
      rwa [relocated, hspan] at hmark
    · have hkind : c.kind = .lbracket := beq_iff_eq.mp (Bool.and_eq_true_iff.mp hbrackets).1
      refine carriesAt_advance_bind h (by rw [hkind]; decide) fun _ hnext ↦
        Carries.carriesAt ?_ hnext
      refine (carries_commas budget).bind fun m ↦ (carries_expect (by decide)).bind fun closed ↦ ?_
      have hclosed := hrest (.array t (min (m + 1) maxRank) (t.span.merge closed.span))
      rwa [relocated, hspan] at hclosed

theorem carries_typeRefWithin (budget : Nat) : ∀ depth,
    (typeRefWithin budget depth).Carries n rest (relocated (.moved n)) (typeRefWithin budget depth)
  | 0 => fun _ _ _ ↦ (complains_failExpected _ _).carriesAt
  | depth + 1 => (carries_simpleTypeWith (carries_typeRefWithin budget depth) budget).bind
      (carries_suffixesWithin budget)

theorem carries_typeRef : typeRef.Carries n rest (relocated (.moved n)) typeRef :=
  carries_of_settled settled_typeRefWithin (fun _ ↦ Nat.le_succ _) fun m ↦ carries_typeRefWithin m m

theorem carries_name : name.Carries n rest (Name.relocated (.moved n)) name :=
  carries_of_settled settled_nameWith (fun _ ↦ Nat.le_succ _) fun m ↦
    carries_nameWith (carries_typeRefWithin m m) m

/-! ### Attributes -/

theorem carries_attributeUse :
    attributeUse.Carries n rest (Attribute.relocated (.moved n)) attributeUse := by
  have hend (m : Name) (args : Option Span) :
      (do let span ← spanFrom m.span; pure ⟨m.render, m.span, args, span⟩ :
        Parser Attribute).Carries n rest (Attribute.relocated (.moved n))
        (do
          let span ← spanFrom (m.relocated (.moved n)).span
          pure ⟨(m.relocated (.moved n)).render, (m.relocated (.moved n)).span,
            args.map (.moved n), span⟩) :=
    (carries_spanFrom rfl).bind fun _ ↦ carries_pure (by rw [Name.render_relocated]; rfl)
  refine carries_name.bind fun m c d h ↦ carriesAt_look_bind ?_
  rw [h.beq_kind rfl]
  refine .ite (fun hopener ↦ carriesAt_look_bind ?_) fun _ ↦ hend m none c d h
  have hkind : c.kind = .lparen := beq_iff_eq.mp hopener
  rw [h.current_eq (by rw [hkind]; decide)]
  exact carriesAt_group_bind h (by rw [hkind]; rfl) fun closed ↦ hend m _

theorem carries_attributesWithin : ∀ budget, (attributesWithin budget).Carries n rest
    (List.map (Attribute.relocated (.moved n))) (attributesWithin budget)
  | 0 => carries_pure rfl
  | budget + 1 => carries_check_bind rfl fun _ ↦ .ite (carries_pure rfl) <|
      carries_attributeUse.bind fun _ ↦ (carries_eat (by decide)).bind fun _ ↦
        .ite ((carries_attributesWithin budget).bind fun _ ↦ carries_pure rfl) (carries_pure rfl)

theorem carries_attributeTarget : attributeTarget.Carries n rest id attributeTarget := by
  refine fun c d h ↦ carriesAt_look_bind ?_
  rw [h.ahead_eq (by decide) (p := (· == .colon)) rfl]
  refine .ite (fun hahead ↦ ?_) fun _ ↦ carriesAt_pure h rfl
  rw [Bool.and_eq_true, beq_iff_eq, beq_iff_eq] at hahead
  have hkind : c.next.kind = .colon :=
    (Cursor.kind_next (by rw [hahead.1]; decide)).trans hahead.2
  refine carriesAt_advance_bind h (by rw [hahead.1]; decide) fun t hnext ↦ ?_
  exact carriesAt_advance_bind hnext (by rw [hkind]; decide) fun _ hnext' ↦
    carriesAt_pure hnext' rfl

theorem carries_attributeList :
    attributeList.Carries n rest (AttributeList.relocated (.moved n)) attributeList := by
  refine (carries_expect (by decide)).bind fun opened ↦ carries_attributeTarget.bind fun target ↦
    carries_budget_bind settled_attributesWithin carries_attributesWithin fun attributes ↦
      (carries_expect (by decide)).bind fun closed ↦ carries_pure ?_
  rw [AttributeList.relocated, Span.moved_merge]
  rfl

theorem carries_attributeLists : attributeLists.Carries n rest
    (List.map (AttributeList.relocated (.moved n))) attributeLists :=
  carries_of_settled (settled_manyAt advances_attributeList) (fun _ ↦ Nat.le_succ _)
    (carries_manyAt rfl carries_attributeList)

/-! ### Heads of declarations -/

theorem modifiersAt_of_head? {ts : List Token} (h : ∀ t ∈ ts.head?, t.kind ≠ .ident)
    (previous : Span) : modifiersAt previous ts = ([], ⟨previous, ts⟩) := by
  cases ts with
  | nil => rfl
  | cons t ts =>
    rw [modifiersAt, decide_eq_false (h t rfl)]
    simp only [Bool.false_and, Bool.false_eq_true, if_false]
    split <;> rfl

theorem modifiersAt_embeds {ts us : List Token} (h : Token.Embeds n rest ts us)
    (hrest : Token.Closes rest) (previous : Span) :
    (modifiersAt (previous.moved n) us).1 = (modifiersAt previous ts).1 ∧
      (modifiersAt previous ts).2.Embeds n rest (modifiersAt (previous.moved n) us).2 := by
  induction h generalizing previous with
  | @ends e he =>
    have hrest' : ∀ t ∈ rest.head?, t.kind ≠ .ident := fun t ht ↦ by
      rcases hrest.head t ht with h | h <;> rw [h] <;> decide
    have he' : ∀ t ∈ [e].head?, t.kind ≠ .ident := fun t ht ↦ by
      obtain rfl := Option.some.inj ht
      rw [he]
      decide
    rw [modifiersAt_of_head? hrest', modifiersAt_of_head? he']
    exact ⟨rfl, .ends he, rfl, hrest⟩
  | @token t ts us ht halias h ih =>
    have hfollows := h.kind_head? hrest (f := followsModifier) rfl
    have hstays : Cursor.Embeds n rest ⟨previous, t :: ts⟩ ⟨previous.moved n, t.moved n :: us⟩ :=
      ⟨.token ht halias h, rfl, hrest⟩
    rw [modifiersAt, modifiersAt, hfollows, show (t.moved n).text = t.text from rfl,
      show (t.moved n).kind = t.kind from rfl]
    cases Modifier.ofKeyword? t.text with
    | none => exact ⟨rfl, hstays⟩
    | some m =>
      dsimp only
      split
      · obtain ⟨hsame, hembeds⟩ := ih t.span
        exact ⟨congrArg (m :: ·) hsame, hembeds⟩
      · exact ⟨rfl, hstays⟩

theorem carries_modifiers : modifiers.Carries n rest id modifiers := by
  intro c d h ms c' hok
  obtain ⟨hsame, hembeds⟩ := modifiersAt_embeds h.tokens h.closes c.previous
  injection hok with hresult hcursor
  obtain rfl := Except.ok.inj hresult
  obtain rfl := hcursor
  rw [← h.previous] at hsame hembeds
  exact ⟨_, by rw [id, ← hsame]; rfl, hembeds⟩

theorem carries_typeParam :
    typeParam.Carries n rest (TypeParam.relocated (.moved n)) typeParam := by
  refine carries_attributeLists.bind fun _ c d h ↦ carriesAt_look_bind ?_
  have hname :
      (identifier >>= fun named ↦ pure ⟨named.1, named.2⟩ : Parser TypeParam).Carries n rest
      (TypeParam.relocated (.moved n)) (identifier >>= fun named ↦ pure ⟨named.1, named.2⟩) :=
    carries_identifier.bind fun _ ↦ carries_pure rfl
  have hkind (hword : (c.current.isWord "in" || c.current.isWord "out") = true) : c.kind ≠ .eof :=
    (Bool.or_eq_true_iff.mp hword).elim Cursor.kind_ne_eof_of_isWord Cursor.kind_ne_eof_of_isWord
  have hsame : ((d.current.isWord "in" || d.current.isWord "out") && d.kindAhead 1 == .ident) =
      ((c.current.isWord "in" || c.current.isWord "out") && c.kindAhead 1 == .ident) := by
    rw [h.isWord_eq, h.isWord_eq]
    cases hword : c.current.isWord "in" || c.current.isWord "out" with
    | false => rfl
    | true => exact h.kindAhead_map (f := (· == .ident)) (hkind hword) rfl
  rw [hsame]
  refine .ite (fun hvariance ↦ ?_) fun _ ↦ hname c d h
  exact carriesAt_advance_bind h (hkind (Bool.and_eq_true_iff.mp hvariance).1) fun _ hnext ↦
    hname _ _ hnext

theorem carries_typeParams :
    typeParams.Carries n rest (List.map (TypeParam.relocated (.moved n))) typeParams :=
  (carries_expect (by decide)).bind fun _ ↦
    carries_budget_bind (settled_commaSeparated forward_typeParam)
      (carries_commaSeparated carries_typeParam) fun _ ↦
        (carries_expect (by decide)).bind fun _ ↦ carries_pure rfl

theorem carries_baseType : baseType.Carries n rest (relocated (.moved n)) baseType :=
  carries_typeRef.bind fun _ ↦ carries_check_group (k := .lparen) rfl rfl rfl
    (fun _ ↦ carries_pure rfl) (carries_pure rfl)

theorem carries_baseList :
    baseList.Carries n rest (List.map (relocated (.moved n))) baseList :=
  carries_of_settled (settled_commaSeparated forward_baseType) (fun _ ↦ Nat.le_refl _)
    (carries_commaSeparated carries_baseType)

section Constraints

variable {f g : Parser α} {view : α → α} (hf : f.Carries n rest view g)
  (heof : ∀ e : Cursor, e.kind = .eof → f.Complains e)

include hf heof

/-- Constraint clauses are read on in front of a brace, but not at the end of the file. This does
not matter if what comes behind them does not start there. -/
theorem carries_constraintsWithin_bind : ∀ budget,
    (constraintsWithin budget >>= fun _ ↦ f).Carries n rest view
      (constraintsWithin budget >>= fun _ ↦ g)
  | 0 => hf
  | budget + 1 => by
    have hrest := carries_constraintsWithin_bind budget
    intro c d h
    rw [constraintsWithin, bind_assoc, bind_assoc]
    refine carriesAt_look_bind ?_
    by_cases hend : c.kind = .eof
    · rw [hend]
      exact (heof c hend).carriesAt
    rw [h.kind_eq hend]
    split
    · exact hf c d h
    · exact hf c d h
    · exact hf c d h
    · rename_i hkind
      rw [bind_assoc, bind_assoc]
      exact carriesAt_group_bind h (by rw [hkind]; rfl) fun _ ↦ hrest
    · rw [bind_assoc, bind_assoc]
      exact carriesAt_advance_bind h hend fun _ hnext ↦ hrest _ _ hnext

theorem carries_constraints_bind :
    (constraints >>= fun _ ↦ f).Carries n rest view (constraints >>= fun _ ↦ g) := by
  have hsettled (p : Parser α) : Settled fun m ↦ constraintsWithin m >>= fun _ ↦ p :=
    fun hle hle' ↦ (settled_constraintsWithin hle hle').bind (forward_constraintsWithin _)
      fun _ ↦ .refl p
  rw [constraints, bind_assoc, bind_assoc]
  refine carries_checkWord_bind fun word ↦ ?_
  rw [ite_bind, ite_bind, bind_assoc, bind_assoc]
  refine .ite (fun c d h ↦ carriesAt_look_bind ?_) hf
  exact carriesAt_of_settled (hsettled f) (hsettled g) h
    (fun m ↦ carries_constraintsWithin_bind hf heof m c d h) (Nat.le_succ _) (Nat.le_succ _)

end Constraints

theorem carriesAt_kindWords (kind : TypeKind) (h : c.Embeds n rest d) (hkind : c.kind ≠ .eof) :
    (kindWords kind).CarriesAt n rest id (kindWords kind) c d := by
  refine carriesAt_advance_bind h hkind fun _ hnext ↦ carriesAt_look_bind ?_
  rw [hnext.beq_kind (k := .classWord) rfl, hnext.beq_kind (k := .structWord) rfl]
  refine .ite (fun hsecond ↦ ?_) fun _ ↦ carriesAt_pure hnext rfl
  have hsecond := (Bool.and_eq_true_iff.mp hsecond).2
  simp only [Bool.or_eq_true, beq_iff_eq] at hsecond
  refine carriesAt_advance_bind hnext ?_ fun _ hnext' ↦ carriesAt_pure hnext' rfl
  rcases hsecond with h | h <;> rw [h] <;> decide

/-! ### Initializers and variables -/

/-- Generic arguments are looked for no further than the end of the file, and those that are there
are read. -/
theorem typeArgsAhead_embeds {ts us : List Token} (h : Token.Embeds n rest ts us)
    (hrest : Token.Closes rest) (depth : Nat) (previous : Span) :
    Cursor.typeArgsAhead depth us = Cursor.typeArgsAhead depth ts ∧
      (Cursor.typeArgsAhead depth ts = true →
        (Cursor.pastTypeArgs depth (previous.moved n) us).1 =
            (Cursor.pastTypeArgs depth previous ts).1.moved n ∧
          (Cursor.pastTypeArgs depth previous ts).2.Embeds n rest
            (Cursor.pastTypeArgs depth (previous.moved n) us).2) := by
  induction h generalizing depth previous with
  | @ends e he =>
    have hno {ts : List Token} (hhead : ∀ t ∈ ts.head?, t.kind = .rbrace ∨ t.kind = .eof) :
        Cursor.typeArgsAhead depth ts = false := by
      cases ts with
      | nil => rfl
      | cons t ts =>
        rw [Cursor.typeArgsAhead]
        rcases hhead t rfl with h | h <;> rw [h] <;> rfl
    have hend : Cursor.typeArgsAhead depth [e] = false := hno fun t ht ↦ by
      obtain rfl := Option.some.inj ht
      exact .inr he
    rw [hno hrest.head, hend]
    exact ⟨rfl, fun h ↦ by cases h⟩
  | @token t ts us ht halias h ih =>
    have hfollows := h.kind_head? hrest (f := Cursor.followsTypeArgs) rfl
    have ht' : (t.moved n).kind ≠ .eof := ht
    simp only [Cursor.typeArgsAhead, Cursor.pastTypeArgs, if_neg ht, if_neg ht', hfollows]
    rw [show (t.moved n).kind = t.kind from rfl, show (t.moved n).span = t.span.moved n from rfl]
    split_ifs
    · exact ih (depth + 1) t.span
    · exact ⟨rfl, fun _ ↦ ⟨rfl, h, rfl, hrest⟩⟩
    · exact ih (depth - 1) t.span
    · obtain ⟨hsame, hpast⟩ := ih depth t.span
      exact ⟨congrArg _ hsame, fun hahead ↦ hpast (Bool.and_eq_true_iff.mp hahead).2⟩

theorem carriesAt_typeArgs (h : c.Embeds n rest d)
    (hahead : Cursor.typeArgsAhead 0 c.rest = true) :
    typeArgs.CarriesAt n rest (Span.moved n) typeArgs c d := by
  intro s c' hok
  obtain ⟨hstop, hembeds⟩ := (typeArgsAhead_embeds h.tokens h.closes 0 c.previous).2 hahead
  rw [← h.previous] at hstop hembeds
  injection hok with hresult hcursor
  obtain rfl := Except.ok.inj hresult
  obtain rfl := hcursor
  exact ⟨_, by rw [← hstop]; rfl, hembeds⟩

theorem carries_initializerWithin : ∀ (budget : Nat) (last : Span),
    (initializerWithin budget last).Carries n rest (Span.moved n)
      (initializerWithin budget (last.moved n))
  | 0, _ => carries_pure rfl
  | budget + 1, last => by
    have hrest (s : Span) : (initializerWithin budget s).Carries n rest (Span.moved n)
        (initializerWithin budget (s.moved n)) := carries_initializerWithin budget s
    refine fun c d h ↦ carriesAt_look_bind ?_
    rw [h.kind_map (f := endsInitializer) rfl, h.kind_map (f := Token.Kind.isOpener) rfl]
    refine .ite (fun _ ↦ carriesAt_pure h rfl) fun hgoes ↦ .ite (fun hopener ↦ ?_) fun _ ↦ ?_
    · exact carriesAt_group_bind h hopener hrest
    · have heof : c.kind ≠ .eof := fun heof ↦ hgoes (by rw [heof]; rfl)
      refine carriesAt_look_bind ?_
      rw [h.beq_kind (k := .lt) rfl, (typeArgsAhead_embeds h.tokens h.closes 0 c.previous).1]
      refine .ite (fun hgeneric ↦ ?_) fun _ ↦ ?_
      · exact (carriesAt_typeArgs h (Bool.and_eq_true_iff.mp hgeneric).2).bind
          fun s c' d' _ h' ↦ hrest s c' d' h'
      · exact carriesAt_advance_bind h heof fun t hnext ↦ hrest t.span _ _ hnext

theorem carries_initializer : initializer.Carries n rest (Span.moved n) initializer := by
  intro c d h
  have hends : endsInitializer d.kind = endsInitializer c.kind := h.kind_map rfl
  have hsettled (first : Span) :
      Settled fun m ↦ first.merge <$> initializerWithin m first :=
    fun hle hle' ↦ (settled_initializerWithin first hle hle').map _
  rcases Bool.eq_false_or_eq_true (endsInitializer c.kind) with hend | hgoes
  · intro s c' hok
    rw [initializer, if_pos hend] at hok
    exact absurd hok (complains_failExpected _ _ s c')
  · have heof : c.kind ≠ .eof := fun heof ↦ by rw [heof] at hgoes; cases hgoes
    have hfirst (m : Nat) :
        (c.current.span.merge <$> initializerWithin m c.current.span).CarriesAt n rest (.moved n)
          (d.current.span.merge <$> initializerWithin m d.current.span) c d := by
      rw [h.current_eq heof]
      exact Carries.carriesAt ((carries_initializerWithin m _).map fun _ ↦
        (Span.moved_merge n _ _).symm) h
    intro s c' hok
    rw [initializer, hgoes] at hok
    rw [initializer, hends, hgoes]
    exact carriesAt_of_settled (hsettled _) (hsettled _) h hfirst (Nat.le_succ _) (Nat.le_succ _)
      s c' hok

theorem carries_declarator :
    declarator.Carries n rest (Declarator.relocated (.moved n)) declarator := by
  have hend (named : String × Span) (init : Option Span) :
      (pure ⟨named.1, named.2, init⟩ : Parser Declarator).Carries n rest
        (Declarator.relocated (.moved n))
        (pure ⟨named.1, named.2.moved n, init.map (.moved n)⟩) := carries_pure rfl
  have hinit : (some <$> initializer).Carries n rest (Option.map (.moved n))
      (some <$> initializer) := carries_initializer.map fun _ ↦ rfl
  exact carries_identifier.bind fun named ↦
    carries_optional (carries_eat (by decide)) hinit rfl (hend named)

theorem carries_declarators :
    declarators.Carries n rest (List.map (Declarator.relocated (.moved n))) declarators :=
  carries_budget_bind (settled_commaSeparated forward_declarator)
    (carries_commaSeparated carries_declarator) fun _ ↦
      (carries_expect (by decide)).bind fun _ ↦ carries_pure rfl

/-! ### Members -/

theorem carries_memberRestWithin : ∀ (budget : Nat) (inExpression : Bool),
    (memberRestWithin budget inExpression).Carries n rest id (memberRestWithin budget inExpression)
  | 0, _ => carries_pure rfl
  | budget + 1, inExpression => by
    have hrest (b : Bool) :
        (memberRestWithin budget b).Carries n rest id (memberRestWithin budget b) :=
      carries_memberRestWithin budget b
    intro c d h
    refine carriesAt_look_bind ?_
    by_cases heof : c.kind = .eof
    · rcases h.kind_of_eof heof with hkind | hkind <;>
        · rw [heof, hkind]
          exact carriesAt_pure h rfl
    rw [h.kind_eq heof]
    have hgroup (b : Bool) (hopener : c.kind.isOpener = true) :
        (do let _ ← group; memberRestWithin budget b : Parser Unit).CarriesAt n rest id
          (do let _ ← group; memberRestWithin budget b) c d :=
      carriesAt_group_bind h hopener fun _ ↦ hrest b
    have hadvance (b : Bool) :
        (do let _ ← advance; memberRestWithin budget b : Parser Unit).CarriesAt n rest id
          (do let _ ← advance; memberRestWithin budget b) c d :=
      carriesAt_advance_bind h heof fun _ hnext ↦ hrest b _ _ hnext
    split
    · exact carriesAt_advance_bind h heof fun _ hnext ↦ carriesAt_pure hnext rfl
    · exact carriesAt_pure h rfl
    · exact carriesAt_pure h rfl
    · rename_i hkind
      refine carriesAt_group_bind h (by rw [hkind]; rfl) fun _ ↦
        carries_check_bind rfl fun assigned ↦ .ite (hrest true) ?_
      exact (carries_eat (by decide)).bind fun _ ↦ carries_pure rfl
    · rename_i hkind
      exact hgroup _ (by rw [hkind]; rfl)
    · rename_i hkind
      exact hgroup _ (by rw [hkind]; rfl)
    · exact hadvance _
    · exact hadvance _
    · exact hadvance _

theorem carries_memberRest : memberRest.Carries n rest id memberRest :=
  carries_of_settled (settled_memberRestWithin false) (fun _ ↦ Nat.le_succ _) fun m ↦
    carries_memberRestWithin m false

/-- A member, if there is one, with every place moved on. -/
abbrev movedMember (n : Nat) : Option Member → Option Member :=
  Option.map (Member.relocated (.moved n))

theorem carries_otherMember (start : Span) :
    (otherMember start).Carries n rest (movedMember n) (otherMember (start.moved n)) :=
  carries_memberRest.bind fun _ ↦ (carries_spanFrom rfl).bind fun _ ↦ carries_pure rfl

theorem carries_typedMember (attributes : List AttributeList) (mods : List Modifier)
    (start : Span) :
    (typedMember attributes mods start).Carries n rest (movedMember n)
      (typedMember (attributes.map (AttributeList.relocated (.moved n))) mods (start.moved n)) := by
  refine carries_typeRef.bind fun type c d h ↦ carriesAt_look_bind ?_
  by_cases hkind : c.kind = .ident
  · have heof : c.kind ≠ .eof := by rw [hkind]; decide
    have hkind' : d.kind = .ident := (h.kind_eq heof).trans hkind
    have hfield : showsField (d.kindAhead 1) = showsField (c.kindAhead 1) :=
      h.kindAhead_map heof rfl
    have hother : showsOther (d.kindAhead 1) = showsOther (c.kindAhead 1) :=
      h.kindAhead_map heof rfl
    simp only [id, hkind, hkind', hfield, hother, h.isWord_eq, ne_eq, not_true_eq_false, if_false]
    refine .ite (fun _ ↦ carries_otherMember start c d h) fun _ ↦ .ite (fun _ ↦ ?_) fun _ ↦
      .ite (fun _ ↦ carries_otherMember start c d h) fun _ ↦ (complains_failExpected _ _).carriesAt
    refine Carries.carriesAt ?_ h
    exact carries_declarators.bind fun _ ↦ (carries_spanFrom rfl).bind fun _ ↦ carries_pure rfl
  · refine Complains.carriesAt ?_
    rw [id, if_pos hkind]
    exact complains_failExpected _ _

theorem complains_typeBodyWith (members : Parser (List Member)) (kind : TypeKind)
    (h : c.kind = .eof) : (typeBodyWith members kind).Complains c := by
  have hexpect {α : Type} (f : Token → Parser α) : (expect .lbrace >>= f).Complains c :=
    (complains_expect (by rw [h]; decide)).bind f
  have heat : eat .semicolon c = ⟨.ok false, c, []⟩ := by rw [eat, if_neg (by rw [h]; decide)]
  intro ms c' hok
  rw [typeBodyWith, bind_of_ok heat, if_neg Bool.false_ne_true] at hok
  split at hok
  · rw [check_bind, h] at hok
    exact hexpect _ ms c' hok
  · exact hexpect _ ms c' hok

/-- What is declared behind the word `record`, by the kind of the next token. -/
def recordKind (k : Token.Kind) : Option TypeKind :=
  if k = .structWord then some .recordStruct
  else if k = .classWord ∨ k = .ident then some .recordType
  else none

theorem declaredKind_ident (hkind : c.kind = .ident) : declaredKind c =
    if c.current.isWord "record" then recordKind (c.kindAhead 1) else none := by
  rw [declaredKind, hkind]
  cases c.kindAhead 1 <;> rfl

theorem declaredKind_embeds (h : c.Embeds n rest d) : declaredKind d = declaredKind c := by
  by_cases heof : c.kind = .eof
  · rw [declaredKind, declaredKind, heof]
    rcases h.kind_of_eof heof with hkind | hkind <;> rw [hkind]
  · by_cases hident : c.kind = .ident
    · rw [declaredKind_ident hident, declaredKind_ident ((h.kind_eq heof).trans hident),
        h.isWord_eq, h.kindAhead_map (f := recordKind) heof rfl]
    · rw [declaredKind, declaredKind, h.kind_eq heof]
      cases hkind : c.kind <;> first | rfl | exact absurd hkind hident

theorem startsOther_embeds (h : c.Embeds n rest d) : startsOther d = startsOther c := by
  by_cases heof : c.kind = .eof
  · rw [startsOther, startsOther, heof]
    rcases h.kind_of_eof heof with hkind | hkind <;> rw [hkind]
  · rw [startsOther, startsOther, h.kind_eq heof, h.isWord_eq,
      show d.current.text = c.current.text by rw [h.current_eq heof]; rfl,
      h.kindAhead_map (f := (· == .lparen)) heof rfl]

section Bodies

variable {members : Parser (List Member)}
  (hmembers : members.Carries n rest (Member.allRelocated (.moved n)) members)

include hmembers

theorem carries_typeBodyWith (kind : TypeKind) :
    (typeBodyWith members kind).Carries n rest (Member.allRelocated (.moved n))
      (typeBodyWith members kind) := by
  have hnone : (pure [] : Parser (List Member)).Carries n rest (Member.allRelocated (.moved n))
      (pure []) := carries_pure rfl
  refine (carries_eat (by decide)).bind fun _ ↦ .ite hnone (.ite ?_ ?_)
  · refine carries_check_group (k := .lbrace) rfl rfl rfl (fun _ ↦ hnone) ?_
    exact (carries_expect (by decide)).bind fun _ ↦ hnone
  · exact (carries_expect (by decide)).bind fun opened ↦ hmembers.bind fun _ ↦
      (carries_closingBrace _ _ _).bind fun _ ↦ carries_pure rfl

theorem carriesAt_typeDeclWith (kind : TypeKind) (attributes : List AttributeList)
    (mods : List Modifier) (start : Span) (h : c.Embeds n rest d) (hkind : c.kind ≠ .eof) :
    (typeDeclWith members kind attributes mods start).CarriesAt n rest
      (TypeDecl.relocated (.moved n))
      (typeDeclWith members kind (attributes.map (AttributeList.relocated (.moved n))) mods
        (start.moved n)) c d := by
  -- constraint clauses may stop at the end of the file, where no body starts
  have hbody (named : String × Span) (params : List TypeParam) (bases : List TypeRef) :
      (do
        constraints
        let ms ← typeBodyWith members kind
        let _ ← eat .semicolon
        let span ← spanFrom start
        pure (.mk ⟨kind, attributes, mods, named.1, named.2, params, bases, span⟩ ms) :
        Parser TypeDecl).Carries n rest (TypeDecl.relocated (.moved n))
        (do
          constraints
          let ms ← typeBodyWith members kind
          let _ ← eat .semicolon
          let span ← spanFrom (start.moved n)
          pure (.mk ⟨kind, attributes.map (AttributeList.relocated (.moved n)), mods, named.1,
            named.2.moved n, params.map (TypeParam.relocated (.moved n)),
            bases.map (relocated (.moved n)), span⟩ ms)) := by
    refine carries_constraints_bind ?_ fun e he ↦ (complains_typeBodyWith members kind he).bind _
    exact (carries_typeBodyWith hmembers kind).bind fun _ ↦ (carries_eat (by decide)).bind fun _ ↦
      (carries_spanFrom rfl).bind fun _ ↦ carries_pure rfl
  refine (carriesAt_kindWords kind h hkind).bind fun _ c' d' _ h' ↦ Carries.carriesAt ?_ h'
  refine carries_identifier.bind fun named ↦
    carries_optional (carries_check rfl) carries_typeParams rfl fun params ↦ ?_
  refine carries_check_group (k := .lparen) rfl rfl rfl (fun _ ↦ ?_) ?_
  all_goals
    exact carries_optional (carries_eat (by decide)) carries_baseList rfl (hbody named params)

/-- Where a member starts, the file does not end. -/
theorem carriesAt_memberWith (h : c.Embeds n rest d) (hkind : c.kind ≠ .eof) :
    (memberWith members).CarriesAt n rest (movedMember n) (memberWith members) c d := by
  refine carriesAt_look_bind ?_
  rw [h.current_eq hkind]
  refine Carries.carriesAt (carries_attributeLists.bind fun attributes ↦
    carries_modifiers.bind fun mods c' d' h' ↦ carriesAt_look_bind ?_) h
  dsimp only [id]
  rw [declaredKind_embeds h']
  cases hdeclared : declaredKind c' with
  | some kind =>
    have hkind' := kind_ne_eof_of_declaredKind hdeclared
    exact (carriesAt_typeDeclWith hmembers kind attributes mods _ h' hkind').bind
      fun _ _ _ _ h'' ↦ carriesAt_pure h'' rfl
  | none =>
    dsimp only
    by_cases hend : c'.kind = .eof
    · have hstarts : startsOther c' = false := by rw [startsOther, hend]
      refine Complains.carriesAt ?_
      rw [hend, hstarts, if_neg (by decide), if_neg (by decide), if_neg Bool.false_ne_true]
      exact (complains_typeRef hend).bind _
    · rw [h'.kind_eq hend, startsOther_embeds h']
      refine .ite (fun _ ↦ ?_) fun _ ↦ .ite (fun _ ↦ carriesAt_pure h' rfl) fun _ ↦
        .ite (fun _ ↦ carries_otherMember _ c' d' h') fun _ ↦
          carries_typedMember attributes mods _ c' d' h'
      exact carriesAt_advance_bind h' hend fun _ hnext ↦ carriesAt_pure hnext rfl

end Bodies

section Loop

variable {member : Parser (Option Member)} (hforward : member.Forward)
  (hmember : ∀ {c d : Cursor}, c.Embeds n rest d → c.kind ≠ .eof →
    member.CarriesAt n rest (movedMember n) member c d)

include hforward hmember

/-- One step of the loop: nothing is passed over where nothing is reported. -/
theorem carriesAt_memberStep (h : c.Embeds n rest d) (hkind : c.kind ≠ .eof) :
    (memberStep member).CarriesAt n rest (Except.map (movedMember n)) (memberStep member) c d := by
  refine carriesAt_look_bind ((hmember h hkind).attempt_bind (fun m c' d' hok h' ↦ ?_) fun e c' ↦
    ((complains_report e).bind _).bind _)
  have hlength : (d'.rest.length == d.rest.length) = (c'.rest.length == c.rest.length) := by
    have hlength := h.length_eq
    have hlength' := h'.length_eq
    rw [Bool.eq_iff_iff, beq_iff_eq, beq_iff_eq]
    omega
  have hunstick : (unstick c).CarriesAt n rest id (unstick d) c' d' := by
    refine carriesAt_look_bind ?_
    rw [hlength]
    refine .ite (fun hstuck ↦ ?_) fun _ ↦ carriesAt_pure h' rfl
    have hsame : (member c).cursor = c :=
      hforward.eq_of_length (by rw [hok]; exact beq_iff_eq.mp hstuck)
    rw [hok] at hsame
    obtain rfl : c' = c := hsame
    exact carriesAt_advance_bind h' hkind fun _ hnext ↦ carriesAt_pure hnext rfl
  exact hunstick.bind fun _ _ _ _ h'' ↦ carriesAt_pure h'' rfl

theorem carries_membersWith : ∀ budget,
    (membersWith member budget).Carries n rest (Member.allRelocated (.moved n))
      (membersWith member budget)
  | 0 => carries_pure rfl
  | budget + 1 => by
    rw [membersWith_succ]
    refine fun c d h ↦ carriesAt_look_bind ?_
    rw [id, id, h.kind_map (f := fun k ↦ decide (k = .rbrace) || decide (k = .eof)) rfl]
    refine .ite (fun _ ↦ carriesAt_pure h rfl) fun hgoes ↦ ?_
    have hkind : c.kind ≠ .eof := fun heof ↦ hgoes (by rw [heof]; rfl)
    refine (carriesAt_memberStep hforward hmember h hkind).bind fun r c' d' _ h' ↦
      (carries_membersWith budget c' d' h').bind fun ms _ _ _ h'' ↦ ?_
    rcases r with e | _ | m <;> exact carriesAt_pure h'' rfl

end Loop

theorem carries_membersWithin (budget : Nat) : ∀ depth,
    (membersWithin budget depth).Carries n rest (Member.allRelocated (.moved n))
      (membersWithin budget depth)
  | 0 => carries_pure rfl
  | depth + 1 => carries_membersWith (forward_memberWith (forward_membersWithin budget depth))
      (carriesAt_memberWith (carries_membersWithin budget depth)) budget

theorem carries_members :
    members.Carries n rest (Member.allRelocated (.moved n)) members :=
  carries_of_settled (fun hle hle' ↦ agree_membersWithin hle hle' hle hle') (fun _ ↦ Nat.le_succ _)
    fun m ↦ carries_membersWithin m m

end Companion.Parser
