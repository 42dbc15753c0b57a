import Companion.Proofs.Grammar.Loops

/-!
Steps that go on. Recovery and the steps of both loops never fail (`Parser.Succeeds`,
`Parser.succeeds_memberStep`, `Parser.succeeds_stepWith`). A step that is taken in front of a token
has read one behind it, also where something could not be read: recovery passes over the token at
which reading failed, unless that token ends the body (`Parser.length_memberStep_lt`,
`Parser.length_stepWith_lt`).
-/

set_option autoImplicit false
set_option relaxedAutoImplicit false

namespace Companion

namespace Parser

variable {α β : Type}

/-! ### Parsers that do not fail -/

def Succeeds (p : Parser α) : Prop := ∀ c, ∃ a, (p c).result = .ok a

theorem bind_apply_of_ok {p : Parser α} {f : α → Parser β} {c : Cursor} {a : α}
    (h : (p c).result = .ok a) :
    (p >>= f) c = ⟨(f a (p c).cursor).result, (f a (p c).cursor).cursor,
      (p c).reported ++ (f a (p c).cursor).reported⟩ := by
  show Parser.bind p f c = _
  rw [Parser.bind]
  cases hp : p c with
  | mk result c' reported =>
    rw [hp] at h
    obtain rfl : result = .ok a := h
    rfl

theorem bind_apply_of_error {p : Parser α} {f : α → Parser β} {c : Cursor} {d : Diagnostic}
    (h : (p c).result = .error d) : (p >>= f) c = ⟨.error d, (p c).cursor, (p c).reported⟩ := by
  show Parser.bind p f c = _
  rw [Parser.bind]
  cases hp : p c with
  | mk result c' reported =>
    rw [hp] at h
    obtain rfl : result = .error d := h
    rfl

theorem cursor_bind_of_ok {p : Parser α} {f : α → Parser β} {c : Cursor} {a : α}
    (h : (p c).result = .ok a) : ((p >>= f) c).cursor = (f a (p c).cursor).cursor := by
  rw [bind_apply_of_ok h]

theorem result_bind_of_ok {p : Parser α} {f : α → Parser β} {c : Cursor} {a : α}
    (h : (p c).result = .ok a) : ((p >>= f) c).result = (f a (p c).cursor).result := by
  rw [bind_apply_of_ok h]

namespace Succeeds

protected theorem pure (a : α) : (pure a : Parser α).Succeeds := fun _ ↦ ⟨a, rfl⟩

protected theorem look (f : Cursor → α) : (look f).Succeeds := fun c ↦ ⟨f c, rfl⟩

protected theorem attempt (p : Parser α) : (attempt p).Succeeds := fun c ↦ ⟨(p c).result, rfl⟩

protected theorem bind {p : Parser α} {f : α → Parser β} (hp : p.Succeeds)
    (hf : ∀ a, (f a).Succeeds) : (p >>= f).Succeeds := by
  intro c
  obtain ⟨a, ha⟩ := hp c
  rw [result_bind_of_ok ha]
  exact hf a _

protected theorem ite {b : Prop} [Decidable b] {p q : Parser α} (hp : p.Succeeds)
    (hq : q.Succeeds) : (if b then p else q).Succeeds := by
  split <;> assumption

end Succeeds

theorem succeeds_advance : advance.Succeeds := fun c ↦ ⟨c.current, rfl⟩

theorem succeeds_report (d : Diagnostic) : (report d).Succeeds := fun _ ↦ ⟨(), rfl⟩

theorem succeeds_eat (k : Token.Kind) : (eat k).Succeeds := by
  intro c
  rw [eat]
  split <;> exact ⟨_, rfl⟩

theorem succeeds_closingBrace (opened : Span) (what : String) :
    (closingBrace opened what).Succeeds := by
  intro c
  rw [closingBrace]
  split <;> exact ⟨_, rfl⟩

theorem succeeds_recoverInBodyWithin : ∀ budget, (recoverInBodyWithin budget).Succeeds
  | 0 => .pure ()
  | budget + 1 => by
    have hrest := succeeds_recoverInBodyWithin budget
    refine .bind (.look _) fun k ↦ ?_
    split
    · exact succeeds_advance.bind fun _ ↦ .pure _
    · exact .pure ()
    · exact .pure ()
    · exact (Succeeds.attempt _).bind fun _ ↦ .pure _
    · refine .ite ((Succeeds.attempt _).bind fun r ↦ ?_) (succeeds_advance.bind fun _ ↦ hrest)
      cases r with
      | ok => exact hrest
      | error => exact .pure ()

theorem succeeds_recoverInBody : recoverInBody.Succeeds :=
  fun c ↦ succeeds_recoverInBodyWithin (c.rest.length + 1) c

theorem succeeds_recoverToItemWithin : ∀ budget, (recoverToItemWithin budget).Succeeds
  | 0 => .pure ()
  | budget + 1 => by
    have hrest := succeeds_recoverToItemWithin budget
    refine .bind (.look _) fun k ↦ .ite (succeeds_advance.bind fun _ ↦ .pure _)
      (.ite (.pure ()) (.ite ?_ ?_))
    · refine (Succeeds.attempt _).bind fun r ↦ ?_
      cases r with
      | ok => exact hrest
      | error => exact .pure ()
    · exact succeeds_advance.bind fun _ ↦ hrest

theorem succeeds_recoverToItem : recoverToItem.Succeeds := by
  intro c
  rw [recoverToItem]
  split
  · exact succeeds_advance.bind (fun _ ↦ .pure _) c
  · exact succeeds_recoverToItemWithin _ c

theorem succeeds_passFailure (r : Except Diagnostic (Option Member)) :
    (passFailure r).Succeeds := by
  cases r with
  | ok m => exact .pure ()
  | error d => exact (succeeds_report d).bind fun _ ↦ succeeds_recoverInBody

theorem succeeds_unstick (c : Cursor) : (unstick c).Succeeds :=
  .bind (.look _) fun _ ↦ .ite (succeeds_advance.bind fun _ ↦ .pure ()) (.pure ())

theorem succeeds_memberStep (member : Parser (Option Member)) : (memberStep member).Succeeds :=
  .bind (.look _) fun c ↦ (Succeeds.attempt _).bind fun r ↦ (succeeds_passFailure r).bind fun _ ↦
    (succeeds_unstick c).bind fun _ ↦ .pure r

theorem succeeds_stepWith (body : BodyEnd → Parser (List Using × List Item)) :
    (stepWith body).Succeeds := by
  refine .bind (.look _) fun c ↦ .ite ?_ (.ite ?_ ?_)
  · exact (succeeds_report _).bind fun _ ↦ succeeds_advance.bind fun _ ↦ .pure _
  · exact succeeds_advance.bind fun _ ↦ .pure _
  · refine (Succeeds.attempt _).bind fun r ↦ ?_
    cases r with
    | ok e => exact .pure e
    | error d => exact (succeeds_report d).bind fun _ ↦ succeeds_recoverToItem.bind fun _ ↦ .pure _

/-! ### Steps that read something -/

section Lengths

variable {c : Cursor}

/-- What a parser reads here is read in front of whatever comes behind it. -/
theorem length_bind_lt {p : Parser α} {f : α → Parser β} (hf : ∀ a, (f a).Forward)
    (h : (p c).cursor.rest.length < c.rest.length) :
    ((p >>= f) c).cursor.rest.length < c.rest.length := by
  show (Parser.bind p f c).cursor.rest.length < _
  rw [Parser.bind]
  cases hp : p c with
  | mk result c' reported =>
    rw [hp] at h
    cases result with
    | error d => exact h
    | ok a => exact Nat.lt_of_le_of_lt ((hf a).length_le c') h

theorem length_advance_lt (h : c.kind ≠ .eof) :
    (advance c).cursor.rest.length < c.rest.length := Cursor.length_next h

/-- A group has at least the token that opens it. -/
theorem length_group_lt (h : c.kind ≠ .eof) : (group c).cursor.rest.length < c.rest.length := by
  have hnext := Cursor.length_next h
  rw [group]
  dsimp only
  split
  · cases hclosing : Cursor.closing 0 c.next.rest with
    | some found =>
      obtain ⟨t, ts⟩ := found
      obtain ⟨inside, hinside⟩ := Cursor.reads_closing c.next.previous hclosing
      have hlength := hinside.length_eq
      simp only at hlength ⊢
      omega
    | none =>
      obtain ⟨inside, hinside⟩ := Cursor.reads_toEnd c.next.previous c.next.rest
      have hlength := hinside.length_eq
      simp only at hlength ⊢
      omega
  · exact hnext

/-- Generic arguments have at least the token at the cursor. -/
theorem length_typeArgs_lt (h : c.kind ≠ .eof) :
    (typeArgs c).cursor.rest.length < c.rest.length := by
  obtain ⟨previous, rest⟩ := c
  cases rest with
  | nil => exact absurd rfl h
  | cons t ts =>
    have hkind : t.kind ≠ .eof := h
    have hpast (depth : Nat) :
        (Cursor.pastTypeArgs depth t.span ts).2.rest.length < (t :: ts).length := by
      obtain ⟨read, hread⟩ := Cursor.reads_pastTypeArgs depth t.span ts
      have hlength := hread.length_eq
      simp only [List.length_cons] at hlength ⊢
      omega
    rw [typeArgs]
    dsimp only
    rw [Cursor.pastTypeArgs, if_neg hkind]
    split
    · exact hpast _
    · split
      · exact Nat.lt_succ_self _
      · exact hpast _

/-- Recovery passes over the token at which reading failed, unless it ends the body. -/
theorem length_recoverToItem_lt (heof : c.kind ≠ .eof) (hbrace : c.kind ≠ .rbrace) :
    (recoverToItem c).cursor.rest.length < c.rest.length := by
  rw [recoverToItem]
  split
  · exact length_bind_lt (fun _ ↦ .pure _) (length_advance_lt heof)
  · rename_i hstarts
    have hrest := forward_recoverToItemWithin c.rest.length
    rw [recoverToItemWithin, look_bind]
    split
    · exact length_bind_lt (fun _ ↦ .pure _) (length_advance_lt heof)
    · rw [if_neg (by simp [heof, hbrace, hstarts])]
      split
      · refine length_bind_lt (fun r ↦ ?_) (length_group_lt heof)
        cases r with
        | ok => exact hrest
        | error => exact .pure ()
      · exact length_bind_lt (fun _ ↦ hrest) (length_advance_lt heof)

/-- Wherever the cursor got to since `c`, fewer tokens are ahead then. -/
theorem length_unstick_lt (heof : c.kind ≠ .eof) {d : Cursor} {read : List Token}
    (hread : c.Reads read d) : (unstick c d).cursor.rest.length < c.rest.length := by
  rw [unstick, look_bind]
  split
  · rename_i hstuck
    obtain rfl := hread.eq_of_length (beq_iff_eq.mp hstuck)
    exact length_bind_lt (fun _ ↦ .pure _) (length_advance_lt heof)
  · rename_i hmoved
    have hlength := hread.length_eq
    have hne : d.rest.length ≠ c.rest.length := fun h ↦ hmoved (beq_iff_eq.mpr h)
    show d.rest.length < c.rest.length
    omega

/-- Each step of the loop over members reads a token. -/
theorem length_memberStep_lt {member : Parser (Option Member)} (hmember : member.Forward)
    (heof : c.kind ≠ .eof) : (memberStep member c).cursor.rest.length < c.rest.length := by
  obtain ⟨read, hread, -⟩ := hmember.attempt c
  rw [memberStep, look_bind, cursor_bind_of_ok (p := attempt member) rfl]
  obtain ⟨skipped, hskipped, -⟩ := forward_passFailure (member c).result (attempt member c).cursor
  obtain ⟨_, hpassed⟩ := succeeds_passFailure (member c).result (attempt member c).cursor
  obtain ⟨_, hunstuck⟩ := succeeds_unstick c
    (passFailure (member c).result (attempt member c).cursor).cursor
  rw [cursor_bind_of_ok hpassed, id, cursor_bind_of_ok hunstuck]
  exact length_unstick_lt heof (hread.trans hskipped)

/-- A parser that reads something here. -/
theorem Forward.gives_ne_nil {p : Parser α} (hp : p.Forward)
    (h : (p c).cursor.rest.length < c.rest.length) : p.Gives c fun _ read _ ↦ read ≠ [] := by
  obtain ⟨read, hread, -⟩ := hp c
  refine ⟨read, hread, fun _ _ ↦ ?_⟩
  rintro rfl
  have hlength := hread.length_eq
  simp only [List.length_nil] at hlength
  omega

theorem gives_bind_ne_nil {p : Parser α} {f : α → Parser β} (hf : ∀ a, (f a).Forward)
    (h : p.Gives c fun _ read _ ↦ read ≠ []) : (p >>= f).Gives c fun _ read _ ↦ read ≠ [] :=
  gives_bind (h.mono fun a _ _ _ hread ↦ (hf a).gives fun _ more _ _ ↦
    List.append_ne_nil_of_left_ne_nil hread more)

end Lengths

theorem gives_attributeLists (c : Cursor) :
    attributeLists.Gives c fun ls read _ ↦ ls ≠ [] → read ≠ [] := by
  refine Gives.of_eq (q := manyAt .lbracket attributeList (c.rest.length + 1)) ?_ rfl
  refine gives_bind (gives_look ?_)
  split
  · have hlist := gives_bind_ne_nil (c := c) (fun l ↦ (forward_manyAt .lbracket
      forward_attributeList c.rest.length).bind fun ls ↦ .pure (l :: ls)) (advances_attributeList c)
    exact hlist.mono fun _ _ _ _ hread _ ↦ hread
  · exact gives_pure fun h ↦ absurd rfl h

/-- Where a member goes on, its rest has a token. -/
theorem length_memberRestWithin_lt {c : Cursor} (hbrace : c.kind ≠ .rbrace) (heof : c.kind ≠ .eof)
    (budget : Nat) (inExpression : Bool) :
    (memberRestWithin (budget + 1) inExpression c).cursor.rest.length < c.rest.length := by
  have hadvance (f : Token → Parser Unit) (hf : ∀ t, (f t).Forward) :
      ((advance >>= f) c).cursor.rest.length < c.rest.length :=
    length_bind_lt hf (length_advance_lt heof)
  have hgroup (f : Span → Parser Unit) (hf : ∀ s, (f s).Forward) :
      ((group >>= f) c).cursor.rest.length < c.rest.length :=
    length_bind_lt hf (length_group_lt heof)
  have hrest (b : Bool) : (memberRestWithin budget b).Forward := forward_memberRestWithin budget b
  rw [memberRestWithin, look_bind]
  cases hkind : c.kind
  case semicolon => exact hadvance _ fun _ ↦ .pure ()
  case rbrace => exact absurd hkind hbrace
  case eof => exact absurd hkind heof
  case lbrace =>
    refine hgroup _ fun _ ↦ (forward_check _).bind fun _ ↦ ?_
    split
    · exact hrest true
    · exact (forward_eat _).discard
  case lparen => exact hgroup _ fun _ ↦ hrest inExpression
  case lbracket => exact hgroup _ fun _ ↦ hrest inExpression
  all_goals exact hadvance _ fun _ ↦ hrest _

theorem length_memberRest_lt {c : Cursor} (hbrace : c.kind ≠ .rbrace) (heof : c.kind ≠ .eof) :
    (memberRest c).cursor.rest.length < c.rest.length := length_memberRestWithin_lt hbrace heof _ _

theorem advances_declarationEntry : declarationEntry.Advances := by
  intro c
  refine gives_bind (gives_look (gives_bind ?_))
  refine (gives_attributeLists c).mono fun attributes lists c₁ _ hlists ↦ ?_
  refine forward_modifiers.gives_bind fun mods words c₂ _ ↦ gives_bind (gives_look ?_)
  have hrest {e : Parser Entry} (he : e.Gives c₂ fun _ read _ ↦ read ≠ []) :
      e.Gives c₂ fun _ read _ ↦ [] ++ (lists ++ (words ++ ([] ++ read))) ≠ [] := by
    refine he.mono fun _ read _ _ hread ↦ ?_
    simp [hread]
  split
  · rename_i hkind
    refine hrest (gives_bind_ne_nil (fun _ ↦ .pure _) ?_)
    rw [typeDecl, typeDeclWith_eq]
    refine gives_bind_ne_nil (fun _ ↦ (forward_typeBodyWith forward_members _).bind fun _ ↦
      (forward_eat _).bind fun _ ↦ (forward_spanFrom _).bind fun _ ↦ .pure _) ?_
    exact (gives_typeHead _ c₂).mono fun _ _ _ _ hread ↦
      hread (kind_ne_eof_of_declaredKind hkind)
  · split
    · rename_i hkind
      have hless : (memberRest c₂).cursor.rest.length < c₂.rest.length :=
        length_memberRest_lt (ne_of_eq_of_ne hkind (by decide)) (ne_of_eq_of_ne hkind (by decide))
      exact hrest (gives_bind_ne_nil (fun _ ↦ .pure _) (forward_memberRest.gives_ne_nil hless))
    · split
      · rename_i hwide
        have hne : attributes ≠ [] := by
          rintro rfl
          simp at hwide
        exact gives_pure (List.append_ne_nil_of_left_ne_nil (hlists hne) _)
      · exact ⟨[], .nothing _, fun _ h ↦ by cases h⟩

section Body

variable {body : BodyEnd → Parser (List Using × List Item)}
  (hbody : ∀ bodyEnd, (body bodyEnd).Forward)

include hbody

theorem advances_entryWith : (entryWith body).Advances := by
  intro c
  refine gives_bind (gives_look ?_)
  have hsame {e : Parser Entry} (he : e.Gives c fun _ read _ ↦ read ≠ []) :
      e.Gives c fun _ read _ ↦ [] ++ read ≠ [] := he
  dsimp only [id]
  split
  · exact hsame ((advances_usingDirective false).bind (fun _ ↦ .pure _) c)
  · split
    · rename_i hglobal
      have hkind : c.kind ≠ .eof := by
        intro heof
        simp [Token.isWord, show c.current.kind = .eof from heof] at hglobal
      exact hsame (gives_bind_ne_nil (fun _ ↦ (forward_usingDirective true).map _)
        (forward_advance.gives_ne_nil (length_advance_lt hkind)))
    · split
      · rename_i hextern
        have hkind : c.kind = .ident := Token.kind_of_isWord (Bool.and_eq_true_iff.mp hextern).1
        exact hsame (gives_bind_ne_nil (fun _ ↦ .pure _) (forward_recoverToItem.gives_ne_nil
          (length_recoverToItem_lt (by rw [hkind]; decide) (by rw [hkind]; decide))))
      · split
        · exact hsame ((advances_namespaceWith hbody).bind (fun _ ↦ .pure _) c)
        · exact hsame (advances_declarationEntry c)

/-- Each step of the loop over entries reads a token. -/
theorem length_stepWith_lt {c : Cursor} (heof : c.kind ≠ .eof) :
    (stepWith body c).cursor.rest.length < c.rest.length := by
  rw [stepWith, look_bind]
  dsimp only [id]
  split
  · rw [cursor_bind_of_ok (p := report _) rfl]
    exact length_bind_lt (fun _ ↦ .pure _) (length_advance_lt heof)
  · rename_i hbrace
    split
    · exact length_bind_lt (fun _ ↦ .pure _) (length_advance_lt heof)
    · obtain ⟨read, hread, -⟩ := (forward_entryWith hbody).attempt c
      have hok : (attempt (entryWith body) c).result = .ok (entryWith body c).result := rfl
      rw [cursor_bind_of_ok hok]
      cases hresult : (entryWith body c).result with
      | ok e => exact (advances_entryWith hbody).length_lt hresult
      | error d =>
        have hreported :
            (report d (attempt (entryWith body) c).cursor).cursor =
              (attempt (entryWith body) c).cursor := rfl
        obtain ⟨_, hrecovered⟩ := succeeds_recoverToItem (attempt (entryWith body) c).cursor
        rw [cursor_bind_of_ok (p := report d) rfl, hreported, cursor_bind_of_ok hrecovered]
        show (recoverToItem (attempt (entryWith body) c).cursor).cursor.rest.length < _
        by_cases hmoved : (attempt (entryWith body) c).cursor.rest.length = c.rest.length
        · rw [hread.eq_of_length hmoved]
          exact length_recoverToItem_lt heof hbrace
        · have hlength := hread.length_eq
          have hrecover := forward_recoverToItem.length_le (attempt (entryWith body) c).cursor
          omega

end Body

end Parser
end Companion
