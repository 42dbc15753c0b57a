import Companion.Proofs.Grammar.EmbeddedDeclarations

/-!
A file as the body of a namespace. A file without file-scoped namespaces that is read without a
report is read so between braces, and at the end of another file: what stands in it is the same,
with all places moved on (`Parser.carriesIf_namespaceBody`). Nor does it matter what was read in
front of it (`Parser.afresh_namespaceBody`).
-/

set_option autoImplicit false
set_option relaxedAutoImplicit false

namespace Companion

mutual

/-- Whether a file-scoped namespace is in an item. -/
def Item.holdsFileScoped : Item → Bool
  | .namespaceDecl h items => h.fileScoped || Item.anyFileScoped items
  | .typeDecl _ => false

def Item.anyFileScoped : List Item → Bool
  | [] => false
  | i :: is => i.holdsFileScoped || Item.anyFileScoped is

end

namespace Parser

variable {α β : Type} {n : Nat} {rest : List Token} {c d : Cursor}

open TypeRef

/-! ### Entries -/

theorem carries_usingDirective (isGlobal : Bool) :
    (usingDirective isGlobal).Carries n rest (Using.relocated (.moved n))
      (usingDirective isGlobal) := by
  refine (carries_expect (by decide)).bind fun start ↦ ?_
  have htarget (aliasName : Option String) (isStatic : Bool) :
      (do
        let target ← typeRef
        let stop ← expect .semicolon
        pure ⟨aliasName, isStatic, isGlobal, target, start.span.merge stop.span⟩ :
        Parser Using).Carries n rest (Using.relocated (.moved n))
        (do
          let target ← typeRef
          let stop ← expect .semicolon
          pure ⟨aliasName, isStatic, isGlobal, target, (start.moved n).span.merge stop.span⟩) := by
    refine carries_typeRef.bind fun target ↦ (carries_expect (by decide)).bind fun stop ↦
      carries_pure ?_
    rw [Using.relocated, Span.moved_merge]
    rfl
  refine fun c d h ↦ carriesAt_look_bind ?_
  rw [h.isWord_eq]
  refine .ite (fun hstatic ↦ carriesAt_advance_bind h (Cursor.kind_ne_eof_of_isWord hstatic)
    fun _ h ↦ carriesAt_look_bind ?_) fun _ ↦ carriesAt_look_bind ?_
  all_goals
    rw [h.ahead_eq (by decide) (p := (· == .eq)) rfl]
    refine .ite (fun hahead ↦ ?_) fun _ ↦ htarget none _ _ _ h
    exact carriesAt_named_advance_bind Token.Kind.noConfusion h hahead fun named ↦
      htarget (some named.1) _

/-- An entry with every place moved on. -/
def movedEntry (n : Nat) : Entry → Entry
  | .using u => .using (u.relocated (.moved n))
  | .item i => .item (i.relocated (.moved n))
  | .nothing => .nothing

theorem carriesAt_declarationEntry (h : c.Embeds n rest d) (hkind : c.kind ≠ .eof) :
    declarationEntry.CarriesAt n rest (movedEntry n) declarationEntry c d := by
  refine carriesAt_look_bind ?_
  rw [h.current_eq hkind]
  refine Carries.carriesAt (carries_attributeLists.bind fun attributes ↦
    carries_modifiers.bind fun mods c' d' h' ↦ carriesAt_look_bind ?_) h
  dsimp only [id]
  rw [declaredKind_embeds h']
  cases hdeclared : declaredKind c' with
  | some kind =>
    have hkind' := kind_ne_eof_of_declaredKind hdeclared
    exact (carriesAt_typeDeclWith carries_members kind attributes mods _ h' hkind').bind
      fun _ _ _ _ h'' ↦ carriesAt_pure h'' rfl
  | none =>
    have hwide : (attributes.map (AttributeList.relocated (.moved n))).all isAssemblyWide =
        attributes.all isAssemblyWide := List.all_map
    have hdelegate : (d'.kind = .delegateWord) = (c'.kind = .delegateWord) :=
      h'.kind_map (f := (· = .delegateWord)) (by simp)
    simp only [hdelegate, hwide, List.isEmpty_map]
    refine .ite (fun _ ↦ ?_) fun _ ↦ .ite (fun _ ↦ carriesAt_pure h' rfl) fun _ ↦
      (complains_failExpected _ _).carriesAt
    exact Carries.carriesAt (carries_memberRest.bind fun _ ↦ carries_pure rfl) h'

/-! ### Bodies without file-scoped namespaces -/

/-- What one parser reads without a report, another one reads in the other place, if the value has a
property. -/
def CarriesIf (n : Nat) (rest : List Token) (P : α → Prop) (view : α → α) (p q : Parser α) : Prop :=
  ∀ c d, c.Embeds n rest d → ∀ a c', p c = ⟨.ok a, c', []⟩ → P a →
    ∃ d', q d = ⟨.ok (view a), d', []⟩ ∧ c'.Embeds n rest d'

section Steps

variable {P : α → Prop} {P' : β → Prop} {view : α → α} {view' : β → β} {p q : Parser α}
  {f g : α → Parser β}

theorem Carries.carriesIf (h : p.Carries n rest view q) : p.CarriesIf n rest P view q :=
  fun c d hcd a c' hok _ ↦ h c d hcd a c' hok

theorem CarriesIf.bind (hp : p.CarriesIf n rest P view q)
    (hP : ∀ a c b c', f a c = ⟨.ok b, c', []⟩ → P' b → P a)
    (hf : ∀ a, (f a).CarriesIf n rest P' view' (g (view a))) :
    (p >>= f).CarriesIf n rest P' view' (q >>= g) := by
  intro c d h b c' hok hb
  obtain ⟨a, e, hpok, hfok⟩ := bind_eq_ok hok
  obtain ⟨e', hqok, he⟩ := hp c d h a e hpok (hP a e b c' hfok hb)
  obtain ⟨d', hgok, hd'⟩ := hf a e e' he b c' hfok hb
  exact ⟨d', by rw [bind_of_ok hqok, hgok], hd'⟩

theorem Carries.bind_carriesIf (hp : p.Carries n rest view q)
    (hf : ∀ a, (f a).CarriesIf n rest P' view' (g (view a))) :
    (p >>= f).CarriesIf n rest P' view' (q >>= g) :=
  CarriesIf.bind (P := fun _ ↦ True) hp.carriesIf (fun _ _ _ _ _ _ ↦ trivial) hf

end Steps

/-- A body with every place moved on. -/
def movedBody (n : Nat) (body : List Using × List Item) : List Using × List Item :=
  (body.1.map (Using.relocated (.moved n)), Item.allRelocated (.moved n) body.2)

section Body

variable {body : BodyEnd → Parser (List Using × List Item)}
  (hbody : (body .closingBrace).CarriesIf n rest (fun b ↦ Item.anyFileScoped b.2 = false)
    (movedBody n) (body .closingBrace))

include hbody

theorem carriesIf_namespaceWith :
    (namespaceWith body).CarriesIf n rest (fun i ↦ i.holdsFileScoped = false)
      (Item.relocated (.moved n)) (namespaceWith body) := by
  refine (carries_expect (by decide)).bind_carriesIf fun start ↦ carries_name.bind_carriesIf
    fun m ↦ (carries_eat (by decide)).bind_carriesIf fun b ↦ ?_
  cases b with
  | true =>
    -- what is read then is a file-scoped namespace
    intro c d h i c' hok hbraced
    obtain ⟨read, e, -, hok⟩ := bind_eq_ok hok
    obtain ⟨span, e', -, hok⟩ := bind_eq_ok hok
    obtain rfl := Except.ok.inj (congrArg Outcome.result hok)
    cases hbraced
  | false =>
    refine (carries_expect (by decide)).bind_carriesIf fun opened ↦
      hbody.bind (fun read e i c' hok hbraced ↦ ?_) fun read ↦ Carries.carriesIf ?_
    · obtain ⟨_, _, -, hok⟩ := bind_eq_ok hok
      obtain ⟨_, _, -, hok⟩ := bind_eq_ok hok
      obtain ⟨span, _, -, hok⟩ := bind_eq_ok hok
      obtain rfl := Except.ok.inj (congrArg Outcome.result hok)
      exact hbraced
    · refine (carries_closingBrace _ _ _).bind fun _ ↦ (carries_eat (by decide)).bind fun _ ↦
        (carries_spanFrom rfl).bind fun span ↦ carries_pure ?_
      rw [Item.relocated, NamespaceHeader.relocated, Name.parts_relocated]
      rfl

/-- Whether a file-scoped namespace is in an entry. -/
def Entry.holdsFileScoped : Entry → Bool
  | .item i => i.holdsFileScoped
  | _ => false

theorem entryWith_embeds (h : c.Embeds n rest d) (hkind : c.kind ≠ .eof) {e : Entry}
    {c' : Cursor} (hok : entryWith body c = ⟨.ok e, c', []⟩) (hbraced : e.holdsFileScoped = false) :
    ∃ d', entryWith body d = ⟨.ok (movedEntry n e), d', []⟩ ∧ c'.Embeds n rest d' := by
  have halias : (d.current.isWord "extern" && d.isWordAhead 1 "alias") =
      (c.current.isWord "extern" && c.isWordAhead 1 "alias") := by
    rw [h.isWord_eq, h.isWordAhead_eq hkind]
  have husing (isGlobal : Bool) {c d : Cursor} (h : c.Embeds n rest d) :
      (Entry.using <$> usingDirective isGlobal).CarriesAt n rest (movedEntry n)
        (Entry.using <$> usingDirective isGlobal) c d :=
    Carries.carriesAt ((carries_usingDirective isGlobal).map fun _ ↦ rfl) h
  have hahead : decide (d.kindAhead 1 = .usingWord) = decide (c.kindAhead 1 = .usingWord) :=
    h.kindAhead_map (f := fun k ↦ decide (k = .usingWord)) hkind rfl
  rw [entryWith, look_bind, id, h.not_externAlias] at hok
  rw [entryWith, look_bind, id, halias, h.not_externAlias, h.kind_eq hkind, h.isWord_eq, hahead]
  split at hok
  case isTrue hhere =>
    rw [if_pos hhere]
    exact husing false h e c' hok
  case isFalse hhere =>
  rw [if_neg hhere]
  split at hok
  case isTrue hhere =>
    rw [if_pos hhere]
    exact carriesAt_advance_bind (f := fun _ ↦ Entry.using <$> usingDirective true)
      (g := fun _ ↦ Entry.using <$> usingDirective true) h hkind (fun _ hnext ↦ husing true hnext)
      e c' hok
  case isFalse hhere =>
  rw [if_neg hhere]
  rw [if_neg Bool.false_ne_true] at hok ⊢
  split at hok
  case isTrue hhere =>
    rw [if_pos hhere]
    obtain ⟨i, e', hnamespace, hok⟩ := bind_eq_ok hok
    injection hok with hresult hcursor
    obtain rfl := Except.ok.inj hresult
    obtain rfl := hcursor
    obtain ⟨d', hnamespace', h'⟩ := carriesIf_namespaceWith hbody c d h i e' hnamespace hbraced
    exact ⟨d', bind_of_ok hnamespace', h'⟩
  case isFalse hhere =>
    rw [if_neg hhere]
    exact carriesAt_declarationEntry h hkind e c' hok

/-- One step through a body: nothing is passed over where nothing is reported. -/
theorem stepWith_embeds (h : c.Embeds n rest d) (hkind : c.kind ≠ .eof) {e : Entry}
    {c' : Cursor} (hok : stepWith body c = ⟨.ok e, c', []⟩) (hbraced : e.holdsFileScoped = false) :
    ∃ d', stepWith body d = ⟨.ok (movedEntry n e), d', []⟩ ∧ c'.Embeds n rest d' := by
  rw [stepWith, look_bind, id] at hok
  rw [stepWith, look_bind, id, h.kind_eq hkind]
  split at hok
  case isTrue => exact absurd hok ((complains_report _).bind _ e c')
  case isFalse hhere =>
  rw [if_neg hhere]
  split at hok
  case isTrue hhere =>
    rw [if_pos hhere]
    exact carriesAt_advance_bind (f := fun _ ↦ pure Entry.nothing) (g := fun _ ↦ pure Entry.nothing)
      h hkind (fun _ hnext ↦ carriesAt_pure hnext rfl) e c' hok
  case isFalse hhere =>
  rw [if_neg hhere]
  obtain ⟨e', c'', hentry, hok⟩ :=
    attempt_bind_eq_ok (fun x c ↦ (complains_report x).bind _) hok
  injection hok with hresult hcursor
  obtain rfl := Except.ok.inj hresult
  obtain rfl := hcursor
  obtain ⟨d', hentry', h'⟩ := entryWith_embeds hbody h hkind hentry hbraced
  exact ⟨d', attempt_bind_of_ok hentry', h'⟩

end Body

/-! ### Whole bodies -/

theorem namespaceBody_eq_within (bodyEnd : BodyEnd) {c : Cursor} (hc : c.Ended) {m : Nat}
    (hm : c.rest.length ≤ m) : namespaceBody bodyEnd c = namespaceBodyWithin m m bodyEnd c :=
  (agree_namespaceBody hm hm bodyEnd c hc (Nat.le_refl _)).symm

theorem keepEntry_eq_pure (e : Entry) (read : List Using × List Item) :
    ∃ body, keepEntry e read = pure body ∧ keepEntry (movedEntry n e) (movedBody n read) =
      pure (movedBody n body) ∧
      Item.anyFileScoped body.2 = (e.holdsFileScoped || Item.anyFileScoped read.2) := by
  cases e <;> exact ⟨_, rfl, rfl, rfl⟩

/-- The ends of a body in both places. One that ends at a brace does so in both. -/
structure BodyEnd.Embeds (rest : List Token) (bodyEnd bodyEnd' : BodyEnd) : Prop where
  closed : bodyEnd = .closingBrace → bodyEnd' = .closingBrace
  closes : ∀ t ∈ rest.head?, t.kind = .rbrace → bodyEnd' = .closingBrace

/-- Where the body ends in the file, it ends in the other one. -/
theorem BodyEnd.Embeds.stops {bodyEnd bodyEnd' : BodyEnd}
    (hend : BodyEnd.Embeds rest bodyEnd bodyEnd')
    (h : c.Embeds n rest d)
    (hstop : (c.kind = .eof || (c.kind = .rbrace && bodyEnd = .closingBrace) : Bool)) :
    (d.kind = .eof || (d.kind = .rbrace && bodyEnd' = .closingBrace) : Bool) := by
  by_cases hkind : c.kind = .eof
  · rcases h.kind_of_eof hkind with hbrace | heof
    · obtain ⟨previous, us⟩ := d
      obtain rfl : us = rest := h.of_eof hkind
      cases us with
      | nil => cases hbrace
      | cons u us => simpa [hbrace] using hend.closes u rfl hbrace
    · simp [heof]
  · rw [h.kind_eq hkind]
    simp only [hkind, decide_false, Bool.false_or, Bool.and_eq_true, decide_eq_true_eq] at hstop ⊢
    exact ⟨hstop.1, hend.closed hstop.2⟩

theorem carriesIf_entriesWith {body : BodyEnd → Parser (List Using × List Item)}
    (hbody : (body .closingBrace).CarriesIf n rest (fun b ↦ Item.anyFileScoped b.2 = false)
      (movedBody n) (body .closingBrace)) {bodyEnd bodyEnd' : BodyEnd}
    (hend : BodyEnd.Embeds rest bodyEnd bodyEnd') : ∀ budget,
    (entriesWith body bodyEnd budget).CarriesIf n rest (fun b ↦ Item.anyFileScoped b.2 = false)
      (movedBody n) (entriesWith body bodyEnd' budget)
  | 0 => (carries_pure rfl).carriesIf
  | budget + 1 => by
    have hnone : (pure ([], []) : Parser (List Using × List Item)).Carries n rest (movedBody n)
      (pure ([], [])) := carries_pure rfl
    intro c d h b c' hok hbraced
    rw [entriesWith_succ, look_bind] at hok ⊢
    split at hok
    case isTrue hstop =>
      rw [if_pos (hend.stops h hstop)]
      exact hnone c d h b c' hok
    case isFalse hgoes =>
    have heof : c.kind ≠ .eof := fun heof ↦ hgoes (by simp [heof])
    obtain ⟨e, c₁, hstep, hok⟩ := bind_eq_ok hok
    obtain ⟨read, c₂, hread, hok⟩ := bind_eq_ok hok
    -- a brace that does not end the body is reported
    have hbrace : c.kind ≠ .rbrace := by
      intro hbrace
      rw [stepWith, look_bind, id, if_pos hbrace] at hstep
      exact (complains_report _).bind _ e c₁ hstep
    obtain ⟨b', hkeep, hkeep', hholds⟩ := keepEntry_eq_pure (n := n) e read
    rw [hkeep] at hok
    injection hok with hresult hcursor
    obtain rfl := Except.ok.inj hresult
    obtain rfl := hcursor
    rw [hholds, Bool.or_eq_false_iff] at hbraced
    obtain ⟨d₁, hstep', h₁⟩ := stepWith_embeds hbody h heof hstep hbraced.1
    obtain ⟨d₂, hread', h₂⟩ :=
      carriesIf_entriesWith hbody hend budget c₁ d₁ h₁ read c₂ hread hbraced.2
    rw [if_neg (by rw [h.kind_eq heof]; simp [heof, hbrace]), bind_of_ok hstep',
      bind_of_ok hread', hkeep']
    exact ⟨d₂, rfl, h₂⟩

theorem carriesIf_namespaceBodyWithin (budget : Nat) : ∀ depth {bodyEnd bodyEnd' : BodyEnd},
    BodyEnd.Embeds rest bodyEnd bodyEnd' →
    (namespaceBodyWithin budget depth bodyEnd).CarriesIf n rest
      (fun b ↦ Item.anyFileScoped b.2 = false) (movedBody n)
      (namespaceBodyWithin budget depth bodyEnd')
  | 0, _, _, _ => (carries_pure rfl).carriesIf
  | depth + 1, _, _, hend => carriesIf_entriesWith
      (carriesIf_namespaceBodyWithin budget depth ⟨id, fun _ _ _ ↦ rfl⟩) hend budget

/-- What stands in a file is read the same inside another one. -/
theorem carriesIf_namespaceBody {bodyEnd bodyEnd' : BodyEnd}
    (hend : BodyEnd.Embeds rest bodyEnd bodyEnd') :
    (namespaceBody bodyEnd).CarriesIf n rest (fun b ↦ Item.anyFileScoped b.2 = false)
      (movedBody n) (namespaceBody bodyEnd') := by
  intro c d h b c' hok
  rw [namespaceBody_eq_within bodyEnd h.ended_left (Nat.le_add_right _ d.rest.length)] at hok
  rw [namespaceBody_eq_within bodyEnd' h.ended_right (Nat.le_add_left _ c.rest.length)]
  exact carriesIf_namespaceBodyWithin _ _ hend c d h b c' hok

/-! ### Whatever stands in front of a body -/

section Afresh

variable {ts : List Token} {s : Span}

theorem afresh_recoverToItem : recoverToItem.Afresh ts := by
  have hloop : (recoverToItemWithin (ts.length + 1)).Afresh ts := by
    refine afresh_look_bind (fun _ _ ↦ rfl) fun s ↦ ?_
    split
    · exact afresh_advance.bind fun _ ↦ afresh_pure _
    · split
      · exact afresh_pure ()
      · rename_i hgoes
        split
        · rename_i hopener
          exact ((departs_attempt_group (s := s) hopener).bind _).afresh
        · have heof : Cursor.kind ⟨s, ts⟩ ≠ .eof := fun h ↦ hgoes (by simp [h])
          exact ((departs_advance (s := s) heof).bind _).afresh
  by_cases hstarts : startsItem (Cursor.kind ⟨.point 0, ts⟩) = true
  · have heq (s : Span) : recoverToItem ⟨s, ts⟩ = (advance >>= fun _ ↦ pure ()) ⟨s, ts⟩ :=
      if_pos (show startsItem (Cursor.kind ⟨s, ts⟩) = true from hstarts)
    intro s s'
    rw [heq, heq]
    exact (afresh_advance.bind fun _ ↦ afresh_pure ()) s s'
  · have heq (s : Span) : recoverToItem ⟨s, ts⟩ = recoverToItemWithin (ts.length + 1) ⟨s, ts⟩ :=
      if_neg (show ¬startsItem (Cursor.kind ⟨s, ts⟩) = true from hstarts)
    intro s s'
    rw [heq, heq]
    exact hloop s s'

theorem afresh_declarationEntry : declarationEntry.Afresh ts := by
  refine afresh_look_bind (fun _ _ ↦ rfl) fun start ↦ afresh_attributeLists.bind fun attributes ↦
    afresh_modifiers.bind fun mods ↦ afresh_look_bind (fun _ _ ↦ rfl) fun s ↦ ?_
  dsimp only [id]
  cases hdeclared : declaredKind ⟨s, ts⟩ with
  | some kind =>
    have hwords := departs_advance (kind_ne_eof_of_declaredKind hdeclared)
    exact (((hwords.bind _).bind _).bind _).afresh
  | none =>
    dsimp only
    split
    · rename_i hdelegate
      exact ((departs_memberRest (s := s) (by rw [hdelegate]; decide)
        (by rw [hdelegate]; decide)).bind _).afresh
    · split
      · exact afresh_pure _
      · exact (departs_failExpected _ _).afresh

theorem afresh_entryWith (body : BodyEnd → Parser (List Using × List Item)) :
    (entryWith body).Afresh ts := by
  have husing (isGlobal : Bool) : (Entry.using <$> usingDirective isGlobal).Afresh ts :=
    (((departs_expect (by decide)).bind _).bind _).afresh
  have hnamespace : (Entry.item <$> namespaceWith body).Afresh ts :=
    (((departs_expect (by decide)).bind _).bind _).afresh
  refine afresh_look_bind (fun _ _ ↦ rfl) fun s ↦ ?_
  split
  · exact husing false
  · split
    · exact afresh_advance.bind fun _ ↦ husing true
    · split
      · exact afresh_recoverToItem.bind fun _ ↦ afresh_pure _
      · split
        · exact hnamespace
        · exact afresh_declarationEntry

theorem afresh_stepWith (body : BodyEnd → Parser (List Using × List Item)) :
    (stepWith body).Afresh ts := by
  have hreport (d : Diagnostic) : (report d).Afresh ts :=
    fun _ _ ↦ .inr ⟨.ok (), [d], trivial, rfl, rfl⟩
  refine afresh_look_bind (fun _ _ ↦ rfl) fun s ↦ ?_
  split
  · exact (hreport _).bind fun _ ↦ afresh_advance.bind fun _ ↦ afresh_pure _
  · split
    · exact afresh_advance.bind fun _ ↦ afresh_pure _
    · refine (afresh_entryWith body).attempt.bind fun r ↦ ?_
      cases r with
      | ok e => exact afresh_pure e
      | error d => exact (hreport d).bind fun _ ↦ afresh_recoverToItem.bind fun _ ↦ afresh_pure _

/-- A body is read the same, whatever stands in front of it. -/
theorem afresh_namespaceBody (h : (Cursor.mk s ts).Ended) (bodyEnd : BodyEnd) :
    (namespaceBody bodyEnd).Afresh ts := by
  have hloop : (entryLoop namespaceBody bodyEnd).Afresh ts := by
    refine afresh_look_bind (fun _ _ ↦ rfl) fun s ↦ ?_
    split
    · exact afresh_pure ([], [])
    · rename_i hgoes
      have heof : Cursor.kind ⟨s, ts⟩ ≠ .eof := fun h ↦ hgoes (by simp [h])
      have hstep : (stepWith namespaceBody).Departs ts := by
        intro s₁ s₂
        rcases afresh_stepWith namespaceBody s₁ s₂ with heq | ⟨r, ds, -, h₁, -⟩
        · exact .inl heq
        · have hless := length_stepWith_lt (c := ⟨s₁, ts⟩) forward_namespaceBody heof
          rw [h₁] at hless
          exact absurd hless (Nat.lt_irrefl _)
      exact (hstep.bind _).afresh
  intro s₁ s₂
  rw [namespaceBody_eq_entryLoop (c := ⟨s₁, ts⟩) h, namespaceBody_eq_entryLoop (c := ⟨s₂, ts⟩) h]
  exact hloop s₁ s₂

end Afresh

end Parser
end Companion
