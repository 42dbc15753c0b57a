import Companion.Proofs.Grammar.Loops

/-!
Parsers that report nothing. What is read between braces and behind them is reported where it goes
wrong; everything else, from names to the heads of declarations and what recovery passes over,
either gives its value or fails with the one diagnostic that the failure carries.
-/

set_option autoImplicit false
set_option relaxedAutoImplicit false

namespace Companion

namespace Parser

variable {α β : Type}

/-- Nothing is reported, beside the diagnostic that a failure carries. -/
def Quiet (p : Parser α) : Prop := ∀ c, (p c).reported = []

namespace Quiet

protected theorem pure (a : α) : (pure a : Parser α).Quiet := fun _ ↦ rfl

protected theorem look (f : Cursor → α) : (look f).Quiet := fun _ ↦ rfl

protected theorem bind {p : Parser α} {f : α → Parser β} (hp : p.Quiet) (hf : ∀ a, (f a).Quiet) :
    (p >>= f).Quiet := by
  intro c
  have hreported := hp c
  show (Parser.bind p f c).reported = []
  rw [Parser.bind]
  cases h : p c with
  | mk result c' reported =>
    rw [h] at hreported
    obtain rfl : reported = [] := hreported
    cases result with
    | error d => rfl
    | ok a => exact (List.nil_append _).trans (hf a c')

protected theorem map (f : α → β) {p : Parser α} (hp : p.Quiet) : (f <$> p).Quiet :=
  hp.bind fun _ ↦ .pure _

protected theorem ite {b : Prop} [Decidable b] {p q : Parser α} (hp : p.Quiet) (hq : q.Quiet) :
    (if b then p else q).Quiet := by
  split <;> assumption

protected theorem attempt {p : Parser α} (hp : p.Quiet) : (attempt p).Quiet := hp

end Quiet

theorem quiet_advance : advance.Quiet := fun _ ↦ rfl

theorem quiet_failExpected (code : Diagnostic.Code) (what : String) :
    (failExpected code what : Parser α).Quiet := fun _ ↦ rfl

theorem quiet_eat (k : Token.Kind) : (eat k).Quiet := by
  intro c
  rw [eat]
  split <;> rfl

theorem quiet_expect (k : Token.Kind) : (expect k).Quiet := by
  intro c
  rw [expect]
  split <;> rfl

theorem quiet_identifier : identifier.Quiet := by
  intro c
  rw [identifier]
  split <;> rfl

theorem quiet_commaSeparated {item : Parser α} (hitem : item.Quiet) :
    ∀ budget, (commaSeparated item budget).Quiet
  | 0 => hitem.bind fun a ↦ .pure [a]
  | budget + 1 => hitem.bind fun a ↦ (quiet_eat _).bind fun _ ↦
      .ite ((quiet_commaSeparated hitem budget).bind fun rest ↦ .pure (a :: rest)) (.pure [a])

theorem quiet_manyAt (k : Token.Kind) {item : Parser α} (hitem : item.Quiet) :
    ∀ budget, (manyAt k item budget).Quiet
  | 0 => .pure []
  | budget + 1 => .bind (.look _) fun _ ↦
      .ite (hitem.bind fun a ↦ (quiet_manyAt k hitem budget).bind fun rest ↦ .pure (a :: rest))
        (.pure [])

theorem quiet_group : group.Quiet := by
  intro c
  rw [group]
  dsimp only
  split
  · split <;> rfl
  · rfl

theorem quiet_memberRestWithin :
    ∀ (budget : Nat) (inExpression : Bool), (memberRestWithin budget inExpression).Quiet
  | 0, _ => .pure ()
  | budget + 1, inExpression => by
    refine .bind (.look _) fun k ↦ ?_
    have hrest := quiet_memberRestWithin budget
    split
    · exact quiet_advance.map _
    · exact .pure ()
    · exact .pure ()
    · exact quiet_group.bind fun _ ↦ .bind (.look _) fun _ ↦
        .ite (hrest true) ((quiet_eat _).map _)
    all_goals first
      | exact quiet_group.bind fun _ ↦ hrest _
      | exact quiet_advance.bind fun _ ↦ hrest _

theorem quiet_memberRest : memberRest.Quiet :=
  fun c ↦ quiet_memberRestWithin (c.rest.length + 1) false c

theorem quiet_initializerWithin :
    ∀ (budget : Nat) (last : Span), (initializerWithin budget last).Quiet
  | 0, last => .pure last
  | budget + 1, last => by
    have hrest := quiet_initializerWithin budget
    refine .bind (.look _) fun k ↦ .ite (.pure last) (.ite (quiet_group.bind hrest) ?_)
    have htypeArgs : typeArgs.Quiet := fun _ ↦ rfl
    exact .bind (.look _) fun _ ↦ .ite (htypeArgs.bind hrest)
      (quiet_advance.bind fun t ↦ hrest t.span)

theorem quiet_initializer : initializer.Quiet := by
  intro c
  rw [initializer]
  split
  · rfl
  · exact (quiet_initializerWithin _ c.current.span).map _ c

theorem quiet_modifiers : modifiers.Quiet := fun _ ↦ rfl

theorem quiet_recoverInBodyWithin : ∀ budget, (recoverInBodyWithin budget).Quiet
  | 0 => .pure ()
  | budget + 1 => by
    have hrest := quiet_recoverInBodyWithin budget
    refine .bind (.look _) fun k ↦ ?_
    split
    · exact quiet_advance.map _
    · exact .pure ()
    · exact .pure ()
    · exact quiet_group.attempt.map _
    · refine .ite (quiet_group.attempt.bind fun r ↦ ?_) (quiet_advance.bind fun _ ↦ hrest)
      cases r with
      | ok => exact hrest
      | error => exact .pure ()

theorem quiet_recoverInBody : recoverInBody.Quiet :=
  fun c ↦ quiet_recoverInBodyWithin (c.rest.length + 1) c

theorem quiet_recoverToItemWithin : ∀ budget, (recoverToItemWithin budget).Quiet
  | 0 => .pure ()
  | budget + 1 => by
    have hrest := quiet_recoverToItemWithin budget
    refine .bind (.look _) fun k ↦ .ite (quiet_advance.map _) (.ite (.pure ()) (.ite ?_ ?_))
    · refine quiet_group.attempt.bind fun r ↦ ?_
      cases r with
      | ok => exact hrest
      | error => exact .pure ()
    · exact quiet_advance.bind fun _ ↦ hrest

theorem quiet_recoverToItem : recoverToItem.Quiet := by
  intro c
  rw [recoverToItem]
  split
  · exact quiet_advance.map _ c
  · exact quiet_recoverToItemWithin _ c

/-! ### Types, attributes and the heads of declarations -/

section Types

variable {type : Parser TypeRef} (htype : type.Quiet)

include htype

theorem quiet_typeArgsWith (budget : Nat) : (typeArgsWith type budget).Quiet := by
  have hclose (args : List TypeRef) :
      (do let _ ← expect .gt; pure args : Parser (List TypeRef)).Quiet :=
    (quiet_expect _).bind fun _ ↦ .pure args
  exact (quiet_expect _).bind fun _ ↦ .bind (.look _) fun _ ↦
    .ite (.bind (.pure []) hclose) ((quiet_commaSeparated htype budget).bind hclose)

theorem quiet_segmentWith (budget : Nat) : (segmentWith type budget).Quiet := by
  refine quiet_identifier.bind fun named ↦ .bind (.look _) fun _ ↦ ?_
  have hend (args : List TypeRef) :
      (do let span ← spanFrom named.2; pure (Segment.mk named.1 args span)).Quiet :=
    .bind (.look _) fun _ ↦ .pure _
  exact .ite ((quiet_typeArgsWith htype budget).bind hend) (.bind (.pure []) hend)

theorem quiet_nameWith (budget : Nat) : (nameWith type budget).Quiet := by
  have hqualifier : qualifier.Quiet := .bind (.look _) fun _ ↦
    .ite (quiet_identifier.bind fun _ ↦ quiet_advance.bind fun _ ↦ .ite (.pure _) (.pure _))
      (.pure _)
  have hsegments : ∀ n, (segmentsWith (segmentWith type budget) n).Quiet := by
    intro n
    induction n with
    | zero => exact (quiet_segmentWith htype budget).bind fun s ↦ .pure [s]
    | succ n ih =>
      exact (quiet_segmentWith htype budget).bind fun s ↦ .bind (.look _) fun _ ↦
        .ite (quiet_advance.bind fun _ ↦ ih.bind fun rest ↦ .pure (s :: rest)) (.pure [s])
  exact .bind (.look _) fun _ ↦ hqualifier.bind fun _ ↦ (hsegments budget).bind fun _ ↦
    .bind (.look _) fun _ ↦ .pure _

theorem quiet_simpleTypeWith (budget : Nat) : (simpleTypeWith type budget).Quiet := by
  have helement : (tupleElementWith type).Quiet :=
    htype.bind fun t ↦ (quiet_eat _).bind fun _ ↦ .pure t
  refine .bind (.look _) fun t ↦ ?_
  split
  · exact (quiet_expect _).bind fun _ ↦ (quiet_commaSeparated helement budget).bind fun _ ↦
      (quiet_expect _).bind fun _ ↦ .pure _
  · split
    · exact quiet_advance.bind fun _ ↦ .pure _
    · exact (quiet_nameWith htype budget).map _
  · exact quiet_failExpected _ _

end Types

theorem quiet_commas : ∀ budget, (commas budget).Quiet
  | 0 => .pure 0
  | budget + 1 => (quiet_eat _).bind fun _ ↦
      .ite ((quiet_commas budget).bind fun n ↦ .pure (n + 1)) (.pure 0)

theorem quiet_suffixesWithin : ∀ (budget : Nat) (t : TypeRef), (suffixesWithin budget t).Quiet
  | 0, t => .pure t
  | budget + 1, t => by
    have hrest := quiet_suffixesWithin budget
    refine .bind (.look _) fun _ ↦ .bind (.look _) fun _ ↦ .ite ?_ (.ite ?_ (.pure t))
    · exact quiet_advance.bind fun mark ↦ hrest _
    · exact quiet_advance.bind fun _ ↦ (quiet_commas budget).bind fun n ↦
        (quiet_expect _).bind fun closed ↦ hrest _

theorem quiet_typeRefWithin (budget : Nat) : ∀ depth, (typeRefWithin budget depth).Quiet
  | 0 => quiet_failExpected _ _
  | depth + 1 => (quiet_simpleTypeWith (quiet_typeRefWithin budget depth) budget).bind
      (quiet_suffixesWithin budget)

theorem quiet_typeRef : typeRef.Quiet :=
  fun c ↦ quiet_typeRefWithin (c.rest.length + 1) (c.rest.length + 1) c

theorem quiet_name : name.Quiet := fun c ↦
  quiet_nameWith (quiet_typeRefWithin (c.rest.length + 1) (c.rest.length + 1)) (c.rest.length + 1) c

theorem quiet_attributeUse : attributeUse.Quiet := by
  refine quiet_name.bind fun n ↦ .bind (.look _) fun _ ↦ ?_
  have hend (args : Option Span) :
      (do let span ← spanFrom n.span; pure (⟨n.render, n.span, args, span⟩ : Attribute)).Quiet :=
    .bind (.look _) fun _ ↦ .pure _
  exact .ite (.bind (.look _) fun _ ↦ quiet_group.bind fun _ ↦ .bind (.pure _) hend)
    (.bind (.pure none) hend)

theorem quiet_attributeLists : attributeLists.Quiet := by
  have htarget : attributeTarget.Quiet := .bind (.look _) fun _ ↦
    .ite (quiet_advance.bind fun _ ↦ quiet_advance.bind fun _ ↦ .pure _) (.pure none)
  have hattributes : ∀ n, (attributesWithin n).Quiet := by
    intro n
    induction n with
    | zero => exact .pure []
    | succ n ih =>
      exact .bind (.look _) fun _ ↦ .ite (.pure []) <| quiet_attributeUse.bind fun a ↦
        (quiet_eat _).bind fun _ ↦ .ite (ih.bind fun rest ↦ .pure (a :: rest)) (.pure [a])
  have hlist : attributeList.Quiet :=
    (quiet_expect _).bind fun _ ↦ htarget.bind fun _ ↦ .bind (.look _) fun n ↦
      (hattributes n).bind fun _ ↦ (quiet_expect _).bind fun _ ↦ .pure _
  exact fun c ↦ quiet_manyAt .lbracket hlist (c.rest.length + 1) c

theorem quiet_usingDirective (isGlobal : Bool) : (usingDirective isGlobal).Quiet := by
  refine (quiet_expect _).bind fun start ↦ .bind (.look _) fun isStatic ↦ ?_
  have htarget (aliasName : Option String) :
      (do
        let target ← typeRef
        let stop ← expect .semicolon
        pure (⟨aliasName, isStatic, isGlobal, target, start.span.merge stop.span⟩ :
          Using)).Quiet :=
    quiet_typeRef.bind fun _ ↦ (quiet_expect _).bind fun _ ↦ .pure _
  refine .ite (quiet_advance.bind fun _ ↦ .bind (.look _) fun _ ↦ ?_) (.bind (.look _) fun _ ↦ ?_)
  all_goals
    exact .ite (quiet_identifier.bind fun _ ↦ quiet_advance.bind fun _ ↦
      .bind (.pure _) htarget) (.bind (.pure none) htarget)

theorem quiet_constraints : constraints.Quiet := by
  have hwithin : ∀ n, (constraintsWithin n).Quiet := by
    intro n
    induction n with
    | zero => exact .pure ()
    | succ n ih =>
      refine .bind (.look _) fun k ↦ ?_
      split
      · exact .pure ()
      · exact .pure ()
      · exact .pure ()
      · exact quiet_group.bind fun _ ↦ ih
      · exact quiet_advance.bind fun _ ↦ ih
  exact .bind (.look _) fun _ ↦ .ite (.bind (.look _) fun n ↦ hwithin (n + 1)) (.pure ())

theorem quiet_typeHead (kind : TypeKind) : (typeHead kind).Quiet := by
  have hwords : (kindWords kind).Quiet := quiet_advance.bind fun _ ↦ .bind (.look _) fun _ ↦
    .ite (quiet_advance.bind fun _ ↦ .pure ()) (.pure ())
  have hparam : typeParam.Quiet := by
    refine quiet_attributeLists.bind fun _ ↦ .bind (.look _) fun _ ↦
      .ite (quiet_advance.bind fun _ ↦ ?_) ?_
    all_goals exact quiet_identifier.bind fun _ ↦ .pure _
  have hparams : typeParams.Quiet := (quiet_expect _).bind fun _ ↦ .bind (.look _) fun n ↦
    (quiet_commaSeparated hparam n).bind fun _ ↦ (quiet_expect _).bind fun _ ↦ .pure _
  have hbase : baseType.Quiet := quiet_typeRef.bind fun t ↦ .bind (.look _) fun _ ↦
    .ite (quiet_group.bind fun _ ↦ .pure t) (.pure t)
  have hbases : baseList.Quiet := fun c ↦ quiet_commaSeparated hbase c.rest.length c
  have hparts : headParts.Quiet := by
    have hoptional : optionalTypeParams.Quiet := .bind (.look _) fun _ ↦ .ite hparams (.pure [])
    have hgroup : optionalGroup.Quiet := .bind (.look _) fun _ ↦
      .ite (quiet_group.bind fun _ ↦ .pure ()) (.pure ())
    have hoptional' : optionalBases.Quiet := (quiet_eat _).bind fun _ ↦ .ite hbases (.pure [])
    exact hoptional.bind fun _ ↦ hgroup.bind fun _ ↦ hoptional'.bind fun _ ↦
      quiet_constraints.bind fun _ ↦ .pure _
  rw [typeHead_eq]
  exact hwords.bind fun _ ↦ quiet_identifier.bind fun _ ↦ hparts.bind fun _ ↦ .pure _

theorem quiet_otherMember (start : Span) : (otherMember start).Quiet :=
  quiet_memberRest.bind fun _ ↦ .bind (.look _) fun _ ↦ .pure _

theorem quiet_typedMember (attributes : List AttributeList) (mods : List Modifier) (start : Span) :
    (typedMember attributes mods start).Quiet := by
  have hdeclarator : declarator.Quiet :=
    quiet_identifier.bind fun _ ↦ (quiet_eat _).bind fun _ ↦
      .ite ((quiet_initializer.map _).bind fun _ ↦ .pure _) (.bind (.pure none) fun _ ↦ .pure _)
  have hdeclarators : declarators.Quiet := .bind (.look _) fun n ↦
    (quiet_commaSeparated hdeclarator n).bind fun _ ↦ (quiet_expect _).bind fun _ ↦ .pure _
  exact quiet_typeRef.bind fun _ ↦ .bind (.look _) fun _ ↦ .ite (quiet_failExpected _ _) <|
    .ite (quiet_otherMember start) <|
      .ite (hdeclarators.bind fun _ ↦ .bind (.look _) fun _ ↦ .pure _) <|
        .ite (quiet_otherMember start) (quiet_failExpected _ _)

end Parser
end Companion
