import Companion.Proofs.Grammar.Totality
import Companion.Proofs.Grammar.Boundary

/-!
Reading that does not look back. From some tokens a parser comes to the same outcome whatever was
read in front of them, unless it stays where it is (`Parser.Afresh`); a parser that stays there only
if it fails departs from them (`Parser.Departs`). Both are kept by what comes behind
(`Parser.Departs.bind`, `Parser.Afresh.bind`), and types, attributes and members have them. So the
members of a body are read the same, whatever stands in front of them (`Parser.afresh_members`).
-/

set_option autoImplicit false
set_option relaxedAutoImplicit false

namespace Companion

namespace Parser

variable {α β : Type} {c : Cursor}

/-! ### Whatever stands in front -/

/-- From some tokens a parser comes to the same outcome whatever was read in front of them, unless
it stays there, which it may do with some results. -/
def AfreshUnless (stays : Except Diagnostic α → Prop) (p : Parser α) (ts : List Token) : Prop :=
  ∀ s s', p ⟨s, ts⟩ = p ⟨s', ts⟩ ∨
    ∃ r ds, stays r ∧ p ⟨s, ts⟩ = ⟨r, ⟨s, ts⟩, ds⟩ ∧ p ⟨s', ts⟩ = ⟨r, ⟨s', ts⟩, ds⟩

/-- The parser may stay there with any result. -/
def Afresh (p : Parser α) (ts : List Token) : Prop := p.AfreshUnless (fun _ ↦ True) ts

/-- The parser stays there only if it fails. -/
def Departs (p : Parser α) (ts : List Token) : Prop := p.AfreshUnless (fun r ↦ ∃ d, r = .error d) ts

section Afresh

variable {ts : List Token} {p : Parser α} {f : α → Parser β}

theorem Departs.afresh (h : p.Departs ts) : p.Afresh ts := by
  intro s s'
  rcases h s s' with heq | ⟨r, ds, -, hs, hs'⟩
  · exact .inl heq
  · exact .inr ⟨r, ds, trivial, hs, hs'⟩

theorem Afresh.same (h : p.Afresh ts) (s s' : Span) :
    (p ⟨s, ts⟩).result = (p ⟨s', ts⟩).result ∧ (p ⟨s, ts⟩).reported = (p ⟨s', ts⟩).reported ∧
      (p ⟨s, ts⟩).cursor.rest = (p ⟨s', ts⟩).cursor.rest := by
  rcases h s s' with heq | ⟨r, ds, -, hs, hs'⟩
  · rw [heq]
    exact ⟨rfl, rfl, rfl⟩
  · rw [hs, hs']
    exact ⟨rfl, rfl, rfl⟩

theorem departs_of_eq (h : ∀ s s', p ⟨s, ts⟩ = p ⟨s', ts⟩) : p.Departs ts :=
  fun s s' ↦ .inl (h s s')

theorem afresh_pure (a : α) : (pure a : Parser α).Afresh ts :=
  fun _ _ ↦ .inr ⟨.ok a, [], trivial, rfl, rfl⟩

theorem departs_failExpected (code : Diagnostic.Code) (what : String) :
    (failExpected code what : Parser α).Departs ts :=
  fun _ _ ↦ .inr ⟨_, [], ⟨_, rfl⟩, rfl, rfl⟩

theorem bind_apply_of_eq {s s' : Span} (h : p ⟨s, ts⟩ = p ⟨s', ts⟩) (f : α → Parser β) :
    (p >>= f) ⟨s, ts⟩ = (p >>= f) ⟨s', ts⟩ := by
  show Parser.bind p f _ = Parser.bind p f _
  rw [Parser.bind, Parser.bind, h]

theorem bind_error {s : Span} {d : Diagnostic} {ds : List Diagnostic}
    (h : p ⟨s, ts⟩ = ⟨.error d, ⟨s, ts⟩, ds⟩) (f : α → Parser β) :
    (p >>= f) ⟨s, ts⟩ = ⟨.error d, ⟨s, ts⟩, ds⟩ := by
  rw [bind_apply_of_error (by rw [h]), h]

theorem bind_ok {s : Span} {a : α} {ds : List Diagnostic} {o : Outcome β}
    (h : p ⟨s, ts⟩ = ⟨.ok a, ⟨s, ts⟩, ds⟩) (hf : f a ⟨s, ts⟩ = o) :
    (p >>= f) ⟨s, ts⟩ = ⟨o.result, o.cursor, ds ++ o.reported⟩ := by
  rw [bind_apply_of_ok (by rw [h]), h, hf]

/-- What comes behind a parser matters only where that may stay with a value. -/
theorem AfreshUnless.bind {stays : Except Diagnostic α → Prop} {stays' : Except Diagnostic β → Prop}
    (hp : p.AfreshUnless stays ts) (herror : ∀ d, stays (.error d) → stays' (.error d))
    (hf : ∀ a, stays (.ok a) → (f a).AfreshUnless stays' ts) :
    (p >>= f).AfreshUnless stays' ts := by
  intro s s'
  rcases hp s s' with heq | ⟨d | a, ds, hstays, hs, hs'⟩
  · exact .inl (bind_apply_of_eq heq f)
  · exact .inr ⟨.error d, ds, herror d hstays, bind_error hs f, bind_error hs' f⟩
  · rcases hf a hstays s s' with heq | ⟨r, more, hstays', hr, hr'⟩
    · exact .inl ((bind_ok hs heq).trans (bind_ok hs' rfl).symm)
    · exact .inr ⟨r, ds ++ more, hstays', bind_ok hs hr, bind_ok hs' hr'⟩

/-- Behind a value nothing is left of what stood in front. -/
theorem Departs.bind (hp : p.Departs ts) (f : α → Parser β) : (p >>= f).Departs ts :=
  AfreshUnless.bind hp (fun d _ ↦ ⟨d, rfl⟩) fun a h ↦ by
    obtain ⟨_, h⟩ := h
    cases h

theorem Afresh.bind (hp : p.Afresh ts) (hf : ∀ a, (f a).Afresh ts) : (p >>= f).Afresh ts :=
  AfreshUnless.bind hp (fun _ _ ↦ trivial) fun a _ ↦ hf a

theorem Afresh.departs_bind (hp : p.Afresh ts) (hf : ∀ a, (f a).Departs ts) :
    (p >>= f).Departs ts :=
  AfreshUnless.bind hp (fun d _ ↦ ⟨d, rfl⟩) fun a _ ↦ hf a

protected theorem Afresh.attempt (hp : p.Afresh ts) : (attempt p).Afresh ts := by
  intro s s'
  rcases hp s s' with heq | ⟨r, ds, -, hs, hs'⟩
  · exact .inl (by rw [Parser.attempt, Parser.attempt, heq])
  · exact .inr ⟨.ok r, ds, trivial, by rw [Parser.attempt, hs], by rw [Parser.attempt, hs']⟩

/-- What is read off the tokens ahead does not tell what stood in front. -/
theorem AfreshUnless.look_bind {stays : Except Diagnostic β → Prop} {g : Cursor → α}
    (hg : ∀ s s', f (g ⟨s, ts⟩) = f (g ⟨s', ts⟩))
    (h : ∀ s, (f (g ⟨s, ts⟩)).AfreshUnless stays ts) : (look g >>= f).AfreshUnless stays ts := by
  intro s s'
  rw [Parser.look_bind, Parser.look_bind, hg s' s]
  exact h s s s'

theorem afresh_look_bind {g : Cursor → α} (hg : ∀ s s', f (g ⟨s, ts⟩) = f (g ⟨s', ts⟩))
    (h : ∀ s, (f (g ⟨s, ts⟩)).Afresh ts) : (look g >>= f).Afresh ts := AfreshUnless.look_bind hg h

theorem departs_look_bind {g : Cursor → α} (hg : ∀ s s', f (g ⟨s, ts⟩) = f (g ⟨s', ts⟩))
    (h : ∀ s, (f (g ⟨s, ts⟩)).Departs ts) : (look g >>= f).Departs ts := AfreshUnless.look_bind hg h

end Afresh

section Tokens

variable {ts : List Token} {s : Span}

theorem next_eq (h : Cursor.kind ⟨s, ts⟩ ≠ .eof) (s' : Span) :
    Cursor.next ⟨s, ts⟩ = Cursor.next ⟨s', ts⟩ := by
  cases ts with
  | nil => exact absurd rfl h
  | cons t ts =>
    have hnext : ∀ s, Cursor.next ⟨s, t :: ts⟩ = ⟨t.span, ts⟩ := fun s ↦ Cursor.next_cons h s ts
    rw [hnext, hnext]

theorem departs_advance (h : Cursor.kind ⟨s, ts⟩ ≠ .eof) : advance.Departs ts :=
  departs_of_eq fun s₁ s₂ ↦ by
    rw [advance, advance, next_eq (s := s₁) h s₂]
    rfl

theorem afresh_advance : advance.Afresh ts := by
  by_cases h : Cursor.kind ⟨Span.point 0, ts⟩ = .eof
  · have hnext (s : Span) : Cursor.next ⟨s, ts⟩ = ⟨s, ts⟩ := by
      cases ts with
      | nil => rfl
      | cons t ts => exact if_pos h
    refine fun s s' ↦ .inr ⟨.ok (Cursor.current ⟨s, ts⟩), [], trivial, ?_, ?_⟩
    · rw [advance, hnext]
    · rw [advance, hnext]
      rfl
  · exact (departs_advance h).afresh

theorem departs_expect {k : Token.Kind} (hk : k ≠ .eof) : (expect k).Departs ts := by
  intro s s'
  by_cases h : Cursor.kind ⟨s, ts⟩ = k
  · refine .inl ?_
    rw [expect, expect, if_pos h, if_pos (show Cursor.kind ⟨s', ts⟩ = k from h),
      next_eq (h ▸ hk) s']
    rfl
  · exact .inr ⟨_, [], ⟨_, rfl⟩, if_neg h, if_neg h⟩

theorem departs_identifier : identifier.Departs ts := by
  intro s s'
  by_cases h : Cursor.kind ⟨s, ts⟩ = .ident
  · refine .inl ?_
    rw [identifier, identifier, if_pos h, if_pos (show Cursor.kind ⟨s', ts⟩ = .ident from h),
      next_eq (by rw [h]; decide) s']
    rfl
  · exact .inr ⟨_, [], ⟨_, rfl⟩, if_neg h, if_neg h⟩

theorem group_eq (h : (Cursor.kind ⟨s, ts⟩).isOpener = true) (s' : Span) :
    group ⟨s, ts⟩ = group ⟨s', ts⟩ := by
  have hkind : Cursor.kind ⟨s, ts⟩ ≠ .eof := fun heof ↦ by rw [heof] at h; cases h
  rw [group, group, next_eq hkind s']
  rfl

theorem departs_group (h : (Cursor.kind ⟨s, ts⟩).isOpener = true) : group.Departs ts :=
  departs_of_eq fun s₁ s₂ ↦ group_eq (s := s₁) h s₂

theorem departs_attempt_group (h : (Cursor.kind ⟨s, ts⟩).isOpener = true) :
    (attempt group).Departs ts :=
  departs_of_eq fun s₁ s₂ ↦ by rw [attempt, attempt, group_eq (s := s₁) h s₂]

end Tokens

/-! ### Types and attributes afresh -/

section Types

variable {ts : List Token}

theorem departs_segmentsWith (type : Parser TypeRef) (budget : Nat) :
    ∀ n, (segmentsWith (segmentWith type budget) n).Departs ts
  | 0 => (departs_identifier.bind _).bind _
  | _ + 1 => (departs_identifier.bind _).bind _

theorem afresh_qualifier : qualifier.Afresh ts := by
  refine afresh_look_bind (fun _ _ ↦ rfl) fun s ↦ ?_
  split
  · exact (departs_identifier.bind _).afresh
  · exact afresh_pure _

theorem departs_nameWith (type : Parser TypeRef) (budget : Nat) :
    (nameWith type budget).Departs ts :=
  departs_look_bind (fun _ _ ↦ rfl) fun _ ↦ afresh_qualifier.departs_bind fun _ ↦
    (departs_segmentsWith type budget budget).bind _

theorem departs_simpleTypeWith (type : Parser TypeRef) (budget : Nat) :
    (simpleTypeWith type budget).Departs ts := by
  refine departs_look_bind (fun _ _ ↦ rfl) fun s ↦ ?_
  split
  · exact (departs_expect (by decide)).bind _
  · rename_i hkind
    split
    · refine (departs_advance (s := s) ?_).bind _
      rw [Cursor.kind, hkind]
      decide
    · exact (departs_nameWith type budget).bind _
  · exact departs_failExpected _ _

theorem departs_typeRef : typeRef.Departs ts := by
  have hwithin : (typeRefWithin (ts.length + 1) (ts.length + 1)).Departs ts := by
    rw [typeRefWithin, typeRefWith]
    exact (departs_simpleTypeWith _ _).bind _
  exact fun s s' ↦ hwithin s s'

theorem afresh_attributeLists : attributeLists.Afresh ts := by
  have hlists : (manyAt .lbracket attributeList (ts.length + 1)).Afresh ts := by
    refine afresh_look_bind (fun _ _ ↦ rfl) fun s ↦ ?_
    split
    · exact (((departs_expect (by decide)).bind _).bind _).afresh
    · exact afresh_pure []
  exact hlists

theorem afresh_modifiers : modifiers.Afresh ts := by
  have hnone (h : ∀ s, modifiersAt s ts = ([], ⟨s, ts⟩)) : modifiers.Afresh ts :=
    fun s s' ↦ .inr ⟨.ok [], [], trivial, by rw [modifiers, h], by rw [modifiers, h]⟩
  cases ts with
  | nil => exact hnone fun _ ↦ rfl
  | cons t ts =>
    cases hm : Modifier.ofKeyword? t.text with
    | none => exact hnone fun s ↦ by rw [modifiersAt, hm]
    | some m =>
      by_cases h : t.kind = .ident &&
          (ts.head?.map fun next ↦ followsModifier next.kind).getD false
      · refine fun s s' ↦ .inl ?_
        have hsame (s : Span) : modifiersAt s (t :: ts) =
            (m :: (modifiersAt t.span ts).1, (modifiersAt t.span ts).2) := by
          rw [modifiersAt, hm]
          simp only [if_pos h]
        rw [modifiers, modifiers, hsame, hsame]
      · exact hnone fun s ↦ by
          rw [modifiersAt, hm]
          simp only [if_neg h]

end Types

/-! ### Members afresh -/

section Members

variable {ts : List Token} {s : Span}

/-- Where a member goes on, its rest has a token. -/
theorem departs_memberRest (hbrace : Cursor.kind ⟨s, ts⟩ ≠ .rbrace)
    (heof : Cursor.kind ⟨s, ts⟩ ≠ .eof) : memberRest.Departs ts := by
  have hrest : (memberRestWithin (ts.length + 1) false).Departs ts := by
    refine departs_look_bind (fun _ _ ↦ rfl) fun s ↦ ?_
    have hadvance {β : Type} (f : Token → Parser β) : (advance >>= f).Departs ts :=
      (departs_advance (s := s) heof).bind f
    have hgroup {k : Token.Kind} (h : Cursor.kind ⟨s, ts⟩ = k) (hk : k.isOpener = true)
        (f : Span → Parser Unit) : (group >>= f).Departs ts :=
      (departs_group (h ▸ hk)).bind f
    split
    · exact hadvance _
    · rename_i h
      exact absurd h hbrace
    · rename_i h
      exact absurd h heof
    · rename_i h
      exact hgroup h rfl _
    · rename_i h
      exact hgroup h rfl _
    · rename_i h
      exact hgroup h rfl _
    all_goals exact hadvance _
  exact hrest

theorem afresh_recoverInBody : recoverInBody.Afresh ts := by
  have hrest : (recoverInBodyWithin (ts.length + 1)).Afresh ts := by
    refine afresh_look_bind (fun _ _ ↦ rfl) fun s ↦ ?_
    split
    · exact afresh_advance.bind fun _ ↦ afresh_pure _
    · exact afresh_pure ()
    · exact afresh_pure ()
    · rename_i h
      exact ((departs_attempt_group (s := s) (by rw [h]; rfl)).bind _).afresh
    · rename_i heof _
      split
      · rename_i hopener
        exact ((departs_attempt_group (s := s) hopener).bind _).afresh
      · exact ((departs_advance (s := s) heof).bind _).afresh
  exact hrest

theorem afresh_passFailure (r : Except Diagnostic (Option Member)) :
    (passFailure r).Afresh ts := by
  cases r with
  | ok m => exact afresh_pure ()
  | error d =>
    have hreport : (report d).Afresh ts := fun _ _ ↦ .inr ⟨.ok (), [d], trivial, rfl, rfl⟩
    exact hreport.bind fun _ ↦ afresh_recoverInBody

theorem departs_typedMember (attributes : List AttributeList) (mods : List Modifier)
    (start : Span) : (typedMember attributes mods start).Departs ts :=
  departs_typeRef.bind _

theorem afresh_memberWith (members : Parser (List Member)) : (memberWith members).Afresh ts := by
  refine afresh_look_bind (fun _ _ ↦ rfl) fun start ↦ afresh_attributeLists.bind fun attributes ↦
    afresh_modifiers.bind fun mods ↦ afresh_look_bind (fun _ _ ↦ rfl) fun s ↦ ?_
  dsimp only [id]
  cases hdeclared : declaredKind ⟨s, ts⟩ with
  | some kind =>
    have hwords := departs_advance (kind_ne_eof_of_declaredKind hdeclared)
    exact (((hwords.bind _).bind _).bind _).afresh
  | none =>
    dsimp only
    split
    · rename_i hkind
      exact ((departs_advance (s := s) (by rw [hkind]; decide)).bind _).afresh
    · split
      · exact afresh_pure none
      · rename_i hbrace
        split
        · rename_i hstarts
          have heof : Cursor.kind ⟨s, ts⟩ ≠ .eof := fun h ↦ by
            rw [startsOther, h] at hstarts
            cases hstarts
          exact ((departs_memberRest hbrace heof).bind _).afresh
        · exact (departs_typedMember attributes mods _).afresh

theorem afresh_memberStep (members : Parser (List Member)) :
    (memberStep (memberWith members)).Afresh ts := by
  refine afresh_look_bind (fun _ _ ↦ rfl) fun s ↦
    (afresh_memberWith members).attempt.bind fun r ↦ (afresh_passFailure r).bind fun _ ↦
      .bind ?_ fun _ ↦ afresh_pure r
  refine afresh_look_bind (fun _ _ ↦ rfl) fun s' ↦ ?_
  split
  · exact afresh_advance.bind fun _ ↦ afresh_pure _
  · exact afresh_pure ()

/-- The members of a body are read the same, whatever stands in front of them. -/
theorem afresh_members (h : (Cursor.mk s ts).Ended) : members.Afresh ts := by
  have hloop : (memberLoop members).Afresh ts := by
    refine afresh_look_bind (fun _ _ ↦ rfl) fun s ↦ ?_
    split
    · exact afresh_pure []
    · rename_i hgoes
      have heof : Cursor.kind ⟨s, ts⟩ ≠ .eof := fun h ↦ hgoes (by simp [h])
      have hstep : (memberStep (memberWith members)).Departs ts := by
        intro s₁ s₂
        rcases afresh_memberStep members s₁ s₂ with heq | ⟨r, ds, -, h₁, -⟩
        · exact .inl heq
        · have hless := length_memberStep_lt (c := ⟨s₁, ts⟩)
            (forward_memberWith forward_members) heof
          rw [h₁] at hless
          exact absurd hless (Nat.lt_irrefl _)
      exact (hstep.bind _).afresh
  intro s₁ s₂
  rw [members_eq_memberLoop (c := ⟨s₁, ts⟩) h, members_eq_memberLoop (c := ⟨s₂, ts⟩) h]
  exact hloop s₁ s₂

end Members

end Parser
end Companion
