import Companion.Proofs.Grammar.EmbeddedBody
import Companion.Proofs.Grammar.OpaqueMembers

/-!
What is read behind an item of a namespace that could not be read. An item that stops at a keyword
with which an item could start has read a token, so there is no need to pass over that keyword; but
recovery does so, and then the declaration behind it is lost
(`Parser.not_forall_recoverToItem_stays`). Where another token is in between, recovery stops in
front of the keyword, and the declaration is read as if nothing stood before it
(`Parser.namespaceBody_of_failedEntry`).
-/

set_option autoImplicit false
set_option relaxedAutoImplicit false

namespace Companion

/-- Tokens that recovery passes over on its way to the next item: groups, and tokens that neither
end an item nor start one. -/
inductive Token.PassedOver : List Token → Prop
  | nil : PassedOver []
  | plain {t : Token} {ts : List Token} (hends : t.kind ∉ [Kind.semicolon, .rbrace, .eof])
      (hstarts : Parser.startsItem t.kind = false) (hopener : t.kind.isOpener = false)
      (h : PassedOver ts) : PassedOver (t :: ts)
  | group {opened closed : Token} {inside ts : List Token} (hopened : opened.kind.isOpener = true)
      (hclosing : Cursor.closing 0 (inside ++ [closed]) = some (closed, []))
      (h : PassedOver ts) : PassedOver (opened :: (inside ++ closed :: ts))

namespace Parser

open Token

variable {s : Span} {skipped after : List Token} {keyword : Token} {budget : Nat}

/-! ### Recovery -/

/-- A group, whatever brackets are in it. -/
theorem group_of_closing {opened closed : Token} {inside ts : List Token}
    (hopened : opened.kind.isOpener = true)
    (hclosing : Cursor.closing 0 (inside ++ [closed]) = some (closed, [])) :
    group ⟨s, opened :: (inside ++ closed :: ts)⟩ = ⟨.ok closed.span, ⟨closed.span, ts⟩, []⟩ := by
  have heof : opened.kind ≠ .eof := fun h ↦ by
    rw [h] at hopened
    cases hopened
  have hcurrent : (Cursor.mk s (opened :: (inside ++ closed :: ts))).current = opened := rfl
  have hall : Cursor.closing 0 (inside ++ closed :: ts) = some (closed, ts) := by
    simpa using Cursor.closing_append hclosing ts
  rw [group, hcurrent, Cursor.next_cons heof, if_pos hopened]
  dsimp only
  rw [hall]

theorem ne_of_startsItem {k : Kind} (h : startsItem k = true) :
    k ≠ .semicolon ∧ k ≠ .rbrace ∧ k ≠ .eof ∧ k.isOpener = false := by
  revert h
  cases k <;> decide

theorem startsItem_of_isOpener {k : Kind} (h : k.isOpener = true) :
    startsItem k = false ∧ k ∉ [Kind.semicolon, .rbrace, .eof] := by
  revert h
  cases k <;> decide

/-- The loop of recovery goes on to the keyword. -/
theorem recoverToItemWithin_of_passedOver (hskipped : PassedOver skipped)
    (hkeyword : startsItem keyword.kind = true) (hbudget : skipped.length < budget) :
    ∃ s', recoverToItemWithin budget ⟨s, skipped ++ keyword :: after⟩ =
      ⟨.ok (), ⟨s', keyword :: after⟩, []⟩ := by
  induction hskipped generalizing s budget with
  | nil =>
    obtain ⟨budget, rfl⟩ := Nat.exists_eq_succ_of_ne_zero (Nat.ne_of_gt hbudget)
    have hkind : Cursor.kind ⟨s, keyword :: after⟩ = keyword.kind := rfl
    rw [List.nil_append, recoverToItemWithin, look_bind, hkind,
      if_neg (ne_of_startsItem hkeyword).1, if_pos (by simp [hkeyword])]
    exact ⟨s, rfl⟩
  | @plain t ts hends hstarts hopener _ ih =>
    obtain ⟨budget, rfl⟩ := Nat.exists_eq_succ_of_ne_zero (Nat.ne_zero_of_lt hbudget)
    have hkind : Cursor.kind ⟨s, t :: (ts ++ keyword :: after)⟩ = t.kind := rfl
    simp only [List.mem_cons, List.not_mem_nil, or_false, not_or] at hends
    rw [List.cons_append, recoverToItemWithin, look_bind, hkind, if_neg hends.1,
      if_neg (by simp [hends, hstarts]), if_neg (by simp [hopener]), advance_bind_cons hends.2.2]
    exact ih (Nat.lt_of_succ_lt_succ hbudget)
  | @group opened closed inside ts hopened hclosing _ ih =>
    obtain ⟨budget, rfl⟩ := Nat.exists_eq_succ_of_ne_zero (Nat.ne_zero_of_lt hbudget)
    have hends := (startsItem_of_isOpener hopened).2
    simp only [List.mem_cons, List.not_mem_nil, or_false, not_or] at hends
    have htokens : (opened :: (inside ++ closed :: ts)) ++ keyword :: after =
        opened :: (inside ++ closed :: (ts ++ keyword :: after)) := by simp
    have hkind : Cursor.kind ⟨s, opened :: (inside ++ closed :: (ts ++ keyword :: after))⟩ =
        opened.kind := rfl
    rw [htokens, recoverToItemWithin, look_bind, hkind, if_neg hends.1,
      if_neg (by simp [hends, (startsItem_of_isOpener hopened).1]), if_pos hopened,
      attempt_bind_of_ok (group_of_closing hopened hclosing)]
    refine ih ?_
    simp only [List.length_cons, List.length_append] at hbudget
    omega

/-- Where recovery goes on: in front of the keyword, but behind it if reading stopped there. -/
theorem recoverToItem_of_passedOver (hskipped : PassedOver skipped)
    (hkeyword : startsItem keyword.kind = true) :
    ∃ s', recoverToItem ⟨s, skipped ++ keyword :: after⟩ =
      ⟨.ok (), ⟨s', if skipped = [] then after else keyword :: after⟩, []⟩ := by
  by_cases hnil : skipped = []
  · subst hnil
    have hkind : Cursor.kind ⟨s, keyword :: after⟩ = keyword.kind := rfl
    rw [List.nil_append, if_pos rfl, recoverToItem, hkind, if_pos hkeyword]
    exact ⟨keyword.span, advance_bind_cons (ne_of_startsItem hkeyword).2.2.1 s after⟩
  · have hstarts : startsItem (Cursor.kind ⟨s, skipped ++ keyword :: after⟩) = false := by
      cases hskipped with
      | nil => exact absurd rfl hnil
      | plain _ hstarts => exact hstarts
      | group hopened => exact (startsItem_of_isOpener hopened).1
    rw [if_neg hnil, recoverToItem, hstarts, if_neg Bool.false_ne_true]
    refine recoverToItemWithin_of_passedOver hskipped hkeyword ?_
    simp only [List.length_append, List.length_cons]
    omega

/-! ### Items that cannot be read -/

/-- A type declaration without attributes and modifiers has read its keyword. -/
theorem length_declarationEntry_lt {c : Cursor} {kind : TypeKind} (hbracket : c.kind ≠ .lbracket)
    (hident : c.kind ≠ .ident) (hdeclared : declaredKind c = some kind) :
    (declarationEntry c).cursor.rest.length < c.rest.length := by
  rw [declarationEntry, look_bind, bind_of_ok (attributeLists_of_ne hbracket),
    bind_of_ok (modifiers_of_ne hident), look_bind, id, hdeclared]
  refine length_bind_lt (fun _ ↦ .pure _) ?_
  rw [typeDecl, typeDeclWith_eq]
  refine length_bind_lt (fun _ ↦ (forward_typeBodyWith forward_members _).bind fun _ ↦
    (forward_eat _).bind fun _ ↦ (forward_spanFrom _).bind fun _ ↦ .pure _) ?_
  rw [typeHead_eq]
  refine length_bind_lt (fun _ ↦ forward_identifier.bind fun _ ↦
    forward_headParts.bind fun _ ↦ .pure _) ?_
  exact length_bind_lt (fun _ ↦ .bind (.look _) fun _ ↦
    .ite (forward_advance.bind fun _ ↦ .pure ()) (.pure ()))
    (length_advance_lt (kind_ne_eof_of_declaredKind hdeclared))

/-- An item that could not be read and stopped at a keyword with which an item starts has read a
token: recovery makes progress without passing over the keyword. -/
theorem length_entryWith_lt {body : BodyEnd → Parser (List Using × List Item)}
    (hbody : ∀ bodyEnd, (body bodyEnd).Forward) {c : Cursor}
    (hstarts : startsItem (entryWith body c).cursor.kind = true) :
    (entryWith body c).cursor.rest.length < c.rest.length := by
  by_contra hnot
  have hstays : (entryWith body c).cursor = c := by
    refine (forward_entryWith hbody).eq_of_length (Nat.le_antisymm ?_ (Nat.le_of_not_lt hnot))
    exact (forward_entryWith hbody).length_le c
  rw [hstays] at hstarts
  refine hnot ?_
  obtain ⟨-, -, heof, -⟩ := ne_of_startsItem hstarts
  have hident : c.kind ≠ .ident := fun h ↦ by
    rw [h] at hstarts
    cases hstarts
  have hbracket : c.kind ≠ .lbracket := fun h ↦ by
    rw [h] at hstarts
    cases hstarts
  have hword (w : String) : c.current.isWord w = false :=
    Bool.eq_false_iff.mpr fun h ↦ hident (Token.kind_of_isWord h)
  have hexpect {k : Kind} (hk : c.kind = k) : (expect k c).cursor.rest.length < c.rest.length := by
    rw [expect, if_pos hk]
    exact Cursor.length_next heof
  rw [entryWith, look_bind, id, hword, hword, Bool.false_and, Bool.false_and,
    if_neg Bool.false_ne_true, if_neg Bool.false_ne_true]
  by_cases husing : c.kind = .usingWord
  · obtain ⟨f, heq, hf⟩ := exists_usingDirective_eq false
    rw [if_pos husing, heq]
    exact length_bind_lt (fun _ ↦ .pure _) (length_bind_lt hf (hexpect husing))
  rw [if_neg husing]
  by_cases hnamespace : c.kind = .namespaceWord
  · obtain ⟨f, heq, hf⟩ := exists_namespaceWith_eq hbody
    rw [if_pos hnamespace, heq]
    exact length_bind_lt (fun _ ↦ .pure _) (length_bind_lt hf (hexpect hnamespace))
  rw [if_neg hnamespace]
  obtain ⟨kind, hdeclared⟩ : ∃ kind, declaredKind c = some kind := by
    unfold declaredKind
    revert hstarts husing hnamespace
    cases c.kind <;> simp [startsItem]
  exact length_declarationEntry_lt hbracket hident hdeclared

/-! ### Steps through a body -/

/-- What was read last, in front of what comes behind it. -/
def Entry.before (e : Entry) (body : List Using × List Item) : List Using × List Item :=
  match e with
  | .using u => (u :: body.1, body.2)
  | .item i => (body.1, i :: body.2)
  | .nothing => body

/-- Steps of the loop over what stands in a namespace, with what they read and report. -/
inductive EntrySteps (bodyEnd : BodyEnd) : Cursor → List Entry → List Diagnostic → Cursor → Prop
  | nil (c : Cursor) : EntrySteps bodyEnd c [] [] c
  | cons {c c' c'' : Cursor} {e : Entry} {es : List Entry} {ds ds' : List Diagnostic}
      (heof : c.kind ≠ .eof) (hgoes : c.kind = .rbrace → bodyEnd ≠ .closingBrace)
      (hstep : stepWith namespaceBody c = ⟨.ok e, c', ds⟩) (h : EntrySteps bodyEnd c' es ds' c'') :
      EntrySteps bodyEnd c (e :: es) (ds ++ ds') c''

/-- What a step reads stands in front of what is read behind it. -/
theorem namespaceBody_of_step {bodyEnd : BodyEnd} {c c' : Cursor} {e : Entry}
    {ds : List Diagnostic} (hc : c.Ended) (heof : c.kind ≠ .eof)
    (hgoes : c.kind = .rbrace → bodyEnd ≠ .closingBrace)
    (hstep : stepWith namespaceBody c = ⟨.ok e, c', ds⟩) :
    namespaceBody bodyEnd c = ⟨e.before <$> (namespaceBody bodyEnd c').result,
      (namespaceBody bodyEnd c').cursor, ds ++ (namespaceBody bodyEnd c').reported⟩ := by
  have hloop : ¬(c.kind = .eof || (c.kind = .rbrace && bodyEnd = .closingBrace) : Bool) := by
    simpa [heof] using hgoes
  have hkeep (body : List Using × List Item) : keepEntry e body = pure (e.before body) := by
    cases e <;> rfl
  rw [namespaceBody_eq_entryLoop hc, entryLoop, look_bind, if_neg hloop,
    bind_apply_of_ok (p := stepWith namespaceBody) (by rw [hstep]), hstep]
  dsimp only
  cases hresult : (namespaceBody bodyEnd c').result with
  | error d =>
    rw [bind_apply_of_error hresult]
    rfl
  | ok body =>
    rw [bind_apply_of_ok hresult, hkeep]
    show Outcome.mk _ _ (ds ++ (_ ++ [])) = _
    rw [List.append_nil]
    rfl

theorem EntrySteps.ended {bodyEnd : BodyEnd} {c c' : Cursor} {es : List Entry}
    {ds : List Diagnostic} (h : EntrySteps bodyEnd c es ds c') (hc : c.Ended) : c'.Ended := by
  induction h with
  | nil c => exact hc
  | cons _ _ hstep _ ih =>
    have hended := (forward_stepWith forward_namespaceBody).ended hc
    rw [hstep] at hended
    exact ih hended

theorem EntrySteps.namespaceBody_eq {bodyEnd : BodyEnd} {c c' : Cursor} {es : List Entry}
    {ds : List Diagnostic} (h : EntrySteps bodyEnd c es ds c') (hc : c.Ended) :
    namespaceBody bodyEnd c =
      ⟨(es.foldr Entry.before ·) <$> (namespaceBody bodyEnd c').result,
        (namespaceBody bodyEnd c').cursor, ds ++ (namespaceBody bodyEnd c').reported⟩ := by
  induction h with
  | nil c => rw [List.nil_append]; simp
  | @cons c c₁ c' e es ds ds' heof hgoes hstep _ ih =>
    have hended : c₁.Ended := (EntrySteps.cons heof hgoes hstep (.nil c₁)).ended hc
    rw [namespaceBody_of_step hc heof hgoes hstep, ih hended, List.append_assoc]
    simp only [List.foldr_cons, Functor.map_map]

/-- A step at an item that cannot be read reports it and goes on where recovery stops. -/
theorem stepWith_of_error {body : BodyEnd → Parser (List Using × List Item)} {c c' c'' : Cursor}
    {d : Diagnostic} {ds : List Diagnostic} (hbrace : c.kind ≠ .rbrace)
    (hsemicolon : c.kind ≠ .semicolon) (hfails : entryWith body c = ⟨.error d, c', ds⟩)
    (hrecovers : recoverToItem c' = ⟨.ok (), c'', []⟩) :
    stepWith body c = ⟨.ok .nothing, c'', ds ++ [d]⟩ := by
  have hattempt : attempt (entryWith body) c = ⟨.ok (.error d), c', ds⟩ := by
    rw [attempt, hfails]
  have hreport : (do report d; recoverToItem; pure Entry.nothing : Parser Entry) c' =
      ⟨.ok .nothing, c'', [d]⟩ := by
    have hreport : report d c' = ⟨.ok (), c', [d]⟩ := rfl
    rw [bind_apply_of_ok (congrArg Outcome.result hreport), hreport]
    dsimp only
    rw [bind_of_ok hrecovers]
    rfl
  rw [stepWith, look_bind, id, if_neg hbrace, if_neg hsemicolon,
    bind_apply_of_ok (p := attempt (entryWith body)) (by rw [hattempt]), hattempt]
  dsimp only
  rw [hreport]

/-- An item cannot be read, and reading stops in front of a keyword with which an item starts or of
some tokens before it. Recovery stops in front of the keyword if and only if there are such tokens,
although a token has been read also where there are none. If there are some, the item is reported,
and what stands from the keyword on is read as if the item were not there. Otherwise the keyword is
passed over, and what is read is what stands behind it. -/
theorem namespaceBody_of_failedEntry {bodyEnd : BodyEnd} {c₀ c : Cursor} {es : List Entry}
    {before ds : List Diagnostic} {d : Diagnostic} (hc : c₀.Ended)
    (hsteps : EntrySteps bodyEnd c₀ es before c)
    (hkind : c.kind ∉ [Kind.eof, .rbrace, .semicolon])
    (hfails : entryWith namespaceBody c = ⟨.error d, ⟨s, skipped ++ keyword :: after⟩, ds⟩)
    (hskipped : PassedOver skipped) (hkeyword : startsItem keyword.kind = true) :
    ((recoverToItem ⟨s, skipped ++ keyword :: after⟩).cursor.rest = keyword :: after ↔
      skipped ≠ []) ∧
    (skipped = [] → (keyword :: after).length < c.rest.length) ∧
    ∀ s', let behind :=
        namespaceBody bodyEnd ⟨s', if skipped = [] then after else keyword :: after⟩
      (namespaceBody bodyEnd c₀).result = (es.foldr Entry.before ·) <$> behind.result ∧
      (namespaceBody bodyEnd c₀).reported = before ++ ds ++ d :: behind.reported ∧
      (namespaceBody bodyEnd c₀).cursor.rest = behind.cursor.rest := by
  obtain ⟨stop, hrecovers⟩ : ∃ stop, recoverToItem ⟨s, skipped ++ keyword :: after⟩ =
      ⟨.ok (), ⟨stop, if skipped = [] then after else keyword :: after⟩, []⟩ :=
    recoverToItem_of_passedOver hskipped hkeyword
  simp only [List.mem_cons, List.not_mem_nil, or_false, not_or] at hkind
  obtain ⟨heof, hbrace, hsemicolon⟩ := hkind
  refine ⟨?_, ?_, ?_⟩
  · rw [hrecovers]
    by_cases hnil : skipped = []
    · simp [hnil]
    · simp [hnil]
  · rintro rfl
    have hread :=
      length_entryWith_lt (c := c) forward_namespaceBody (by rw [hfails]; exact hkeyword)
    rwa [hfails] at hread
  · intro s' behind
    have hstep := stepWith_of_error hbrace hsemicolon hfails hrecovers
    have hgoes : c.kind = .rbrace → bodyEnd ≠ .closingBrace := fun h ↦ absurd h hbrace
    have hended : (Cursor.mk stop (if skipped = [] then after else keyword :: after)).Ended :=
      (EntrySteps.cons heof hgoes hstep (.nil _)).ended (hsteps.ended hc)
    -- what stands in front of the keyword does not matter
    obtain ⟨hresult, hreported, hrest⟩ := (afresh_namespaceBody hended bodyEnd).same stop s'
    have hbody := hsteps.namespaceBody_eq hc
    rw [namespaceBody_of_step (hsteps.ended hc) heof hgoes hstep, hresult, hreported] at hbody
    rw [hbody]
    exact ⟨by simp [behind, Entry.before], by simp [behind], hrest⟩

/-- The tokens of `using System`. -/
private def unfinishedUsing : List Token :=
  [⟨.usingWord, ⟨0, 5⟩, "using"⟩, ⟨.ident, ⟨6, 12⟩, "System"⟩]

/-- The tokens of `class C{}` from an offset on, with the end of the file. -/
private def emptyClass (n : Nat) : List Token :=
  [⟨.classWord, ⟨n, n + 5⟩, "class"⟩, ⟨.ident, ⟨n + 6, n + 7⟩, "C"⟩,
    ⟨.lbrace, ⟨n + 7, n + 8⟩, "\x7b"⟩, ⟨.rbrace, ⟨n + 8, n + 9⟩, "\x7d"⟩, Token.endAt (n + 9)]

/-- The file `using System x class C{}`, from its start on. -/
private def spacedUsing : Cursor :=
  ⟨.point 0, unfinishedUsing ++ ⟨.ident, ⟨13, 14⟩, "x"⟩ :: emptyClass 15⟩

/-- The file `using System class C{}`, from its start on. -/
private def bareUsing : Cursor := ⟨.point 0, unfinishedUsing ++ emptyClass 13⟩

/-- Behind `using System x` a class is read. -/
theorem namespaceBody_of_failedEntry_spaced :
    ∃ d, (namespaceBody .endOfFile spacedUsing).reported =
        d :: (namespaceBody .endOfFile ⟨.point 0, emptyClass 15⟩).reported ∧
      (namespaceBody .endOfFile spacedUsing).result =
        (namespaceBody .endOfFile ⟨.point 0, emptyClass 15⟩).result := by
  have hcursor : (entryWith namespaceBody spacedUsing).cursor =
      ⟨⟨6, 12⟩, [⟨.ident, ⟨13, 14⟩, "x"⟩] ++ emptyClass 15⟩ := by decide +kernel
  have hreported : (entryWith namespaceBody spacedUsing).reported = [] := by decide +kernel
  have hnone : (entryWith namespaceBody spacedUsing).result.toOption.isNone := by decide +kernel
  have hended : spacedUsing.Ended :=
    ⟨spacedUsing.rest.dropLast, Token.endAt 24, rfl, rfl, by decide⟩
  cases hresult : (entryWith namespaceBody spacedUsing).result with
  | ok e =>
    rw [hresult] at hnone
    cases hnone
  | error d =>
    have hfails : entryWith namespaceBody spacedUsing =
        ⟨.error d, ⟨⟨6, 12⟩, [⟨.ident, ⟨13, 14⟩, "x"⟩] ++ emptyClass 15⟩, []⟩ := by
      rw [← hresult, ← hcursor, ← hreported]
    have hskipped : PassedOver [⟨.ident, ⟨13, 14⟩, "x"⟩] := .plain (by decide) rfl rfl .nil
    have hsteps : EntrySteps .endOfFile spacedUsing [] [] spacedUsing := .nil _
    obtain ⟨-, -, hbehind⟩ :=
      namespaceBody_of_failedEntry hended hsteps (by decide) hfails hskipped rfl
    obtain ⟨hsame, hreports, -⟩ := hbehind (.point 0)
    exact ⟨d, hreports, hsame.trans (id_map _)⟩

/-- The keyword of the class behind `using System` is passed over, and the class is lost. -/
theorem not_forall_recoverToItem_stays :
    ¬ ∀ (c : Cursor) (d : Diagnostic), c.Ended → (entryWith namespaceBody c).result = .error d →
      (entryWith namespaceBody c).cursor ≠ c →
      startsItem (entryWith namespaceBody c).cursor.kind = true →
      (recoverToItem (entryWith namespaceBody c).cursor).cursor =
        (entryWith namespaceBody c).cursor ∧
      (namespaceBody .endOfFile c).result =
        (namespaceBody .endOfFile (entryWith namespaceBody c).cursor).result := by
  intro hall
  have hcursor : (entryWith namespaceBody bareUsing).cursor = ⟨⟨6, 12⟩, emptyClass 13⟩ := by
    decide +kernel
  have hnone : (entryWith namespaceBody bareUsing).result.toOption.isNone := by decide +kernel
  have hended : bareUsing.Ended := ⟨bareUsing.rest.dropLast, Token.endAt 22, rfl, rfl, by decide⟩
  cases hresult : (entryWith namespaceBody bareUsing).result with
  | ok e =>
    rw [hresult] at hnone
    cases hnone
  | error d =>
    obtain ⟨hstays, -⟩ := hall bareUsing d hended hresult (by rw [hcursor]; decide)
      (by rw [hcursor]; rfl)
    rw [hcursor] at hstays
    revert hstays
    decide +kernel

end Parser
end Companion
