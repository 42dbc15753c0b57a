import Companion.Proofs.Grammar.Locality

/-!
Texts that are read alone (`Parser.readAlone`). If a parser of attributes or of a directive reads a
whole text, then it reads the tokens of the text in front of whatever else, to the same up to places
(`Parser.isAttributeList_of_readAlone`, `Parser.isDirective_of_readAlone`).
-/

set_option autoImplicit false
set_option relaxedAutoImplicit false

namespace Companion

open Token

namespace Parser

variable {α β γ δ : Type}

/-- What one parser reads alone, up to the end of the file, the other reads where more comes
behind. The last token that is read is of kind `k`. -/
structure Ends (k : Token.Kind) (stop : Bare) (rest : List Bare) (bound : Nat) (view : α → γ)
    (p q : Parser α) : Prop where
  kind : k ≠ .eof
  last : ∀ {c c' : Cursor} {a : α} {ds : List Diagnostic}, p c = ⟨.ok a, c', ds⟩ →
    ∃ read e, c.Reads read e ∧ e.kind = k ∧ c' = e.next
  ok : ∀ {bs : List Bare} {c d c' : Cursor} {a : α}, bs.length < bound →
    Aligned stop rest bs c d → p c = ⟨.ok a, c', []⟩ → c'.Spells [(.eof, "")] →
    ∃ a' d', q d = ⟨.ok a', d', []⟩ ∧ view a' = view a ∧ d'.Spells rest

variable {k : Token.Kind} {stop : Bare} {rest : List Bare} {bound least : Nat} {view : α → γ}
  {p q : Parser α}

theorem Ends.advances (h : Ends k stop rest bound view p q) {c c' : Cursor} {a : α}
    {ds : List Diagnostic} (hok : p c = ⟨.ok a, c', ds⟩) : c'.rest.length < c.rest.length := by
  obtain ⟨read, e, hread, hkind, rfl⟩ := h.last hok
  have hnext := Cursor.reads_next_of_kind (c := e) (by rw [hkind]; exact h.kind)
  rw [hread.rest_eq, hnext.rest_eq]
  simp only [List.length_append, List.length_cons, List.length_nil]
  omega

theorem bind_eq_ok_reported {f : α → Parser β} {c c' : Cursor} {b : β} {ds : List Diagnostic}
    (h : (p >>= f) c = ⟨.ok b, c', ds⟩) :
    ∃ a e ds₁ ds₂, p c = ⟨.ok a, e, ds₁⟩ ∧ f a e = ⟨.ok b, c', ds₂⟩ ∧ ds = ds₁ ++ ds₂ := by
  replace h : Parser.bind p f c = ⟨.ok b, c', ds⟩ := h
  rw [Parser.bind] at h
  split at h
  · rename_i a e ds₁ heq
    injection h with hresult hcursor hreported
    exact ⟨a, e, ds₁, (f a e).reported, heq, by rw [← hresult, ← hcursor], hreported.symm⟩
  · cases h

/-- The last token is read, and nothing behind it. -/
theorem ends_expect (hk : k ≠ .eof) {f g : Token → α}
    (hfg : ∀ t t', view (g t') = view (f t)) :
    Ends k stop rest bound view (expect k >>= fun t ↦ pure (f t))
      (expect k >>= fun t ↦ pure (g t)) where
  kind := hk
  last {c} {c'} {a} {ds} hok := by
    obtain ⟨t, e, ds₁, ds₂, hexpect, hpure, -⟩ := bind_eq_ok_reported hok
    injection hpure with _ hcursor
    obtain rfl := hcursor
    rw [expect] at hexpect
    split at hexpect
    · rename_i hkind
      injection hexpect with _ hnext
      exact ⟨[], c, .nothing c, hkind, hnext.symm⟩
    · cases hexpect
  ok {bs} {c} {d} {c'} {a} _ haligned hok hend := by
    obtain ⟨t, e, hexpect, hpure⟩ := bind_eq_ok hok
    injection hpure with hresult hcursor
    obtain rfl := Except.ok.inj hresult
    obtain rfl := hcursor
    rw [expect] at hexpect
    split at hexpect
    · rename_i hkind
      injection hexpect with htoken hnext
      obtain rfl := hnext
      have hsame : expect k d = ⟨.ok d.current, d.next, []⟩ := by
        rw [expect, if_pos (haligned.kind_eq.trans hkind)]
      have halone := haligned.alone
      have hamong := haligned.among
      have hinside := haligned.inside
      refine ⟨g d.current, d.next, by rw [bind_of_ok hsame]; rfl, hfg _ _, ?_⟩
      cases bs with
      | nil => exact hamong.next haligned.ends
      | cons b bs =>
        -- then more than the end of the file would be left
        have hnext : c.next.Spells (bs ++ [stop, (.eof, "")]) :=
          halone.next (hinside b List.mem_cons_self)
        have hmore := hnext.length_rest
        rw [hend.length_rest, List.length_append] at hmore
        simp at hmore
    · cases hexpect

theorem Follows.bind_ends {view' : β → δ} {f g : α → Parser β}
    (hp : Follows stop rest bound least view p q)
    (hk : k ≠ .eof)
    (hf : ∀ a a', view a' = view a → Ends k stop rest (bound - least) view' (f a) (g a')) :
    Ends k stop rest bound view' (p >>= f) (q >>= g) where
  kind := hk
  last {c} {c'} {b} {ds} hok := by
    obtain ⟨a, e, ds₁, ds₂, hpok, hfok, -⟩ := bind_eq_ok_reported hok
    obtain ⟨read, hread, -⟩ := hp.forward c
    rw [hpok] at hread
    obtain ⟨read', e', hread', hkind, rfl⟩ := (hf a a rfl).last hfok
    exact ⟨read ++ read', e', hread.trans hread', hkind, rfl⟩
  ok {bs} {c} {d} {c'} {b} hbs haligned hok hend := by
    obtain ⟨a, e, hpok, hfok⟩ := bind_eq_ok hok
    have hlength := (hf a a rfl).advances hfok
    rw [hend.length_rest] at hlength
    obtain ⟨bs', a', e', hq, ha, haligned', hfew⟩ := hp.ok hbs haligned hpok hlength
    obtain ⟨b', d', hg, hb, hd'⟩ := (hf a a' ha).ok (by omega) haligned' hfok hend
    exact ⟨b', d', by rw [bind_of_ok hq, hg], hb, hd'⟩

namespace Ends

protected theorem ite {b b' : Prop} [Decidable b] [Decidable b'] {p' q' : Parser α} (hb : b' ↔ b)
    (hp : Ends k stop rest bound view p q) (hq : Ends k stop rest bound view p' q') :
    Ends k stop rest bound view (if b then p else p') (if b' then q else q') := by
  by_cases h : b
  · rw [if_pos h, if_pos (hb.mpr h)]
    exact hp
  · rw [if_neg h, if_neg (mt hb.mp h)]
    exact hq

/-- Something that is read off the cursor and is the same in both places. -/
theorem look_bind {f : Cursor → β} {g h : β → Parser α} (hk : k ≠ .eof)
    (hsame : ∀ {bs : List Bare} {c d : Cursor}, Aligned stop rest bs c d → f d = f c)
    (hg : ∀ b, Ends k stop rest bound view (g b) (h b)) :
    Ends k stop rest bound view (look f >>= g) (look f >>= h) := by
  have hlook : Follows stop rest bound 0 id (look f) (look f) := .look hsame
  refine hlook.bind_ends hk fun b b' hb ↦ ?_
  obtain rfl : b' = b := hb
  exact hg b'

/-- A budget of as many steps as there are tokens. -/
theorem budget_bind {f g : Nat → Parser α} (hk : k ≠ .eof)
    (h : ∀ n m bound', bound' ≤ n → bound' ≤ m → Ends k stop rest bound' view (f n) (g m)) :
    Ends k stop rest bound view (look (·.rest.length) >>= f) (look (·.rest.length) >>= g) where
  kind := hk
  last {c} {c'} {a} {ds} hok := by
    rw [Parser.look_bind] at hok
    exact (h c.rest.length c.rest.length 0 (Nat.zero_le _) (Nat.zero_le _)).last hok
  ok {bs} {c} {d} {c'} {a} _ haligned hok hend := by
    have halone := haligned.length_rest
    have hamong := haligned.length_rest_le
    rw [Parser.look_bind] at hok ⊢
    exact (h c.rest.length d.rest.length (bs.length + 1) (by omega) (by omega)).ok
      (Nat.lt_succ_self _) haligned hok hend

/-- A parser of some tokens alone takes them everywhere, if it ends with them. -/
theorem takes {front : List Bare} (hends : ∀ rest bound, Ends k stop rest bound view p p)
    (hinside : ∀ b ∈ front, b.1 ≠ .eof) (hstop : stop.1 ≠ .eof) {c c' : Cursor} {a : α}
    (hc : c.Spells (front ++ [stop, (.eof, "")])) (hok : p c = ⟨.ok a, c', []⟩)
    (hend : c'.Spells [(.eof, "")]) (rest : List Bare) :
    p.Takes (front ++ [stop]) rest (view · = view a) := by
  intro d hd
  rw [List.append_assoc] at hd
  obtain ⟨a', d', hq, ha, hd'⟩ := (hends rest (front.length + 1)).ok (Nat.lt_succ_self _)
    ⟨hc, hd, hinside, hstop⟩ hok hend
  exact ⟨a', d', hq, hd', ha⟩

end Ends

theorem ends_attributeList (hstop : IsStop stop.1) :
    Ends .rbracket stop rest bound AttributeList.placeless attributeList attributeList := by
  refine (follows_expect .lbracket).bind_ends Kind.noConfusion fun opened opened' _ ↦
    (follows_attributeTarget hstop).bind_ends Kind.noConfusion fun target target' htarget ↦ ?_
  obtain rfl : target' = target := htarget
  refine .budget_bind Kind.noConfusion fun n m bound' hn hm ↦ ?_
  refine (follows_attributesWithin hstop hn hm).bind_ends Kind.noConfusion fun as as' has ↦
    ends_expect Kind.noConfusion fun _ _ ↦ ?_
  exact congrArg (fun as ↦ (⟨target', as, nowhere⟩ : AttributeList)) has

theorem ends_usingDirective (hstop : IsStop stop.1) (isGlobal : Bool) :
    Ends .semicolon stop rest bound Using.placeless (usingDirective isGlobal)
      (usingDirective isGlobal) := by
  refine (follows_expect .usingWord).bind_ends Kind.noConfusion fun start start' _ ↦ ?_
  have htarget (aliasName : Option String) (isStatic : Bool) (bound : Nat) :
      Ends .semicolon stop rest bound Using.placeless
        (do
          let target ← typeRef
          let stop ← expect .semicolon
          pure ⟨aliasName, isStatic, isGlobal, target, start.span.merge stop.span⟩)
        (do
          let target ← typeRef
          let stop ← expect .semicolon
          pure ⟨aliasName, isStatic, isGlobal, target, start'.span.merge stop.span⟩) :=
    (follows_typeRef hstop).bind_ends Kind.noConfusion fun t t' ht ↦
      ends_expect Kind.noConfusion fun _ _ ↦
        congrArg (fun t ↦ (⟨aliasName, isStatic, isGlobal, t, nowhere⟩ : Using)) ht
  refine .look_bind Kind.noConfusion (fun h ↦ h.isWord_eq "static") fun isStatic ↦ .ite Iff.rfl
    (follows_advance.bind_ends Kind.noConfusion fun _ _ _ ↦ ?_) ?_
  all_goals
    refine .look_bind Kind.noConfusion (fun h ↦ h.kindAhead_eq hstop.1 .eq) fun aliased ↦
      .ite Iff.rfl ?_ (htarget none isStatic _)
    refine follows_identifier.bind_ends Kind.noConfusion fun named named' hnamed ↦
      follows_advance.bind_ends Kind.noConfusion fun _ _ _ ↦ ?_
    obtain ⟨ident, place⟩ := named
    obtain ⟨ident', place'⟩ := named'
    obtain rfl : ident' = ident := hnamed
    exact htarget (some ident') isStatic _

/-! ### Texts -/

/-- What a parser reads off a text alone, if it reads all of it without a report. -/
def readAlone (p : Parser α) (text : String) : Option α :=
  let tokens := ofSource text
  let outcome := p (Cursor.ofTokens tokens)
  match outcome.result with
  | .ok a =>
    if tokens.all (·.kind ≠ .error) && outcome.reported.isEmpty && outcome.cursor.kind = .eof then
      some a
    else none
  | .error _ => none

variable {text : String} {a : α}

theorem ok_of_readAlone (h : readAlone p text = some a) :
    IsClean (spell text.toList) ∧
      ∃ c, p (Cursor.ofTokens (ofSource text)) = ⟨.ok a, c, []⟩ ∧ c.kind = .eof := by
  obtain ⟨out, hout⟩ : ∃ out, p (Cursor.ofTokens (ofSource text)) = out := ⟨_, rfl⟩
  obtain ⟨result, c, reported⟩ := out
  rw [hout]
  rw [readAlone] at h
  simp only [hout] at h
  cases result with
  | error d => cases h
  | ok b =>
    dsimp only at h
    split_ifs at h with hall
    obtain rfl := Option.some.inj h
    simp only [Bool.and_eq_true, List.all_eq_true, decide_eq_true_eq, List.isEmpty_iff] at hall
    obtain ⟨⟨hclean, rfl⟩, hend⟩ := hall
    refine ⟨fun b hb ↦ ?_, c, rfl, hend⟩
    have hmem : b ∈ (ofSource text).map bare := by
      rw [map_bare_ofSource]
      exact List.mem_append_left _ hb
    obtain ⟨t, ht, rfl⟩ := List.mem_map.mp hmem
    exact hclean t ht

/-- A cursor that is one token in front of the end has read all others. -/
theorem last_of_reads {c e : Cursor} {read : List Token} {bs : List Bare} (hread : c.Reads read e)
    (hc : c.Spells (bs ++ [(.eof, "")])) (hbs : ∀ b ∈ bs, b.1 ≠ .eof) (hkind : e.kind ≠ .eof)
    (hend : e.next.kind = .eof) :
    ∃ front, bs = front ++ [e.current.bare] ∧ e.next.Spells [(.eof, "")] := by
  obtain ⟨previous, ts⟩ := e
  cases ts with
  | nil => exact absurd rfl hkind
  | cons t ts =>
    have hall : read.map bare ++ t.bare :: ts.map bare = bs ++ [(.eof, "")] := by
      rw [← show _ = _ from hc, hread.rest_eq, List.map_append, List.map_cons]
    have hnext : (Cursor.mk previous (t :: ts)).next = ⟨t.span, ts⟩ := if_neg hkind
    rw [hnext] at hend ⊢
    rcases List.eq_nil_or_concat ts with rfl | ⟨us, u, rfl⟩
    · have hlast := List.append_inj_right' hall rfl
      exact absurd (congrArg Prod.fst (List.cons.inj hlast).1) hkind
    · rw [List.concat_eq_append, List.map_append, ← List.cons_append, ← List.append_assoc] at hall
      obtain ⟨hfront, hlast⟩ := List.append_inj' hall rfl
      cases us with
      | nil => exact ⟨read.map bare, hfront.symm, hlast⟩
      | cons v us =>
        have hmem : v.bare ∈ bs := by rw [← hfront]; simp
        exact absurd hend (hbs _ hmem)

/-- A text that is read alone is read everywhere, if the parser ends with a token that ends
something. -/
theorem takes_of_readAlone (hk : IsStop k)
    (hends : ∀ stop : Bare, IsStop stop.1 → ∀ rest bound, Ends k stop rest bound view p p)
    (h : readAlone p text = some a) (rest : List Bare) :
    p.Takes (spell text.toList) rest (view · = view a) := by
  obtain ⟨-, c, hok, hend⟩ := ok_of_readAlone h
  have hkind := (hends (k, "") hk [] 0).kind
  obtain ⟨read, e, hread, hlast, rfl⟩ := (hends (k, "") hk [] 0).last hok
  have hall : (Cursor.ofTokens (ofSource text)).Spells (spell text.toList ++ [(.eof, "")]) :=
    map_bare_ofSource text
  have hinside : ∀ b ∈ spell text.toList, b.1 ≠ .eof := fun b hb ↦ ne_eof_of_mem_spell hb
  obtain ⟨front, hfront, hrest⟩ := last_of_reads hread hall hinside (by rwa [hlast]) hend
  rw [hfront] at hall hinside ⊢
  have hstop : e.current.bare.1 = k := hlast
  refine Ends.takes (hends e.current.bare (by rwa [hstop]))
    (fun b hb ↦ hinside b (List.mem_append_left _ hb)) (by rwa [hstop]) ?_ hok hrest rest
  rwa [List.append_assoc] at hall

/-- A text begins with the token that its parser expects. -/
theorem kindAt_of_readAlone {f : Token → Parser α} (hk : k ≠ .eof)
    (h : readAlone (expect k >>= f) text = some a) : kindAt (spell text.toList) 0 = k := by
  obtain ⟨-, c, hok, -⟩ := ok_of_readAlone h
  obtain ⟨t, e, hexpect, -⟩ := bind_eq_ok hok
  rw [expect] at hexpect
  split at hexpect
  · rename_i hkind
    have hall : (Cursor.ofTokens (ofSource text)).Spells (spell text.toList ++ [(.eof, "")]) :=
      map_bare_ofSource text
    rw [hall.kind] at hkind
    cases hspell : spell text.toList with
    | nil =>
      rw [hspell] at hkind
      exact absurd hkind.symm hk
    | cons b bs =>
      rw [hspell] at hkind
      exact hkind
  · cases hexpect

theorem isAttributeList_of_readAlone {l : AttributeList}
    (h : readAlone attributeList text = some l) :
    IsAttributeList (spell text.toList) l.placeless where
  opens := kindAt_of_readAlone Kind.noConfusion h
  takes := takes_of_readAlone (by simp [IsStop]) (fun _ hstop _ _ ↦ ends_attributeList hstop) h

theorem isDirective_of_readAlone {u : Using} (h : readAlone (usingDirective false) text = some u) :
    IsDirective (spell text.toList) u.placeless where
  opens := kindAt_of_readAlone Kind.noConfusion h
  takes := takes_of_readAlone (by simp [IsStop]) (fun _ hstop _ _ ↦
    ends_usingDirective hstop false) h

/-- A directive is global if it is read as that. -/
theorem gives_usingDirective (isGlobal : Bool) (c : Cursor) :
    (usingDirective isGlobal).Gives c fun u _ _ ↦ u.isGlobal = isGlobal := by
  refine (forward_expect _).gives_bind fun start _ _ _ ↦
    (Forward.look _).gives_bind fun isStatic _ _ _ ↦ ?_
  have htarget (aliasName : Option String) (c : Cursor) :
      (do
        let target ← typeRef
        let stop ← expect .semicolon
        pure (⟨aliasName, isStatic, isGlobal, target, start.span.merge stop.span⟩ :
          Using)).Gives c fun u _ _ ↦ u.isGlobal = isGlobal :=
    forward_typeRef.gives_bind fun _ _ _ _ ↦ (forward_expect _).gives_bind fun _ _ _ _ ↦
      gives_pure rfl
  have haliased (c : Cursor) (aliased : Bool) :
      (do
        let aliasName ← do
          if aliased then
            let named ← identifier
            let _ ← advance
            pure (some named.1)
          else pure none
        let target ← typeRef
        let stop ← expect .semicolon
        pure (⟨aliasName, isStatic, isGlobal, target, start.span.merge stop.span⟩ :
          Using)).Gives c fun u _ _ ↦ u.isGlobal = isGlobal := by
    cases aliased with
    | true =>
      exact forward_identifier.gives_bind fun named _ _ _ ↦ forward_advance.gives_bind
        fun _ _ _ _ ↦ (Forward.pure _).gives_bind fun aliasName _ _ _ ↦ htarget aliasName _
    | false => exact (Forward.pure _).gives_bind fun aliasName _ _ _ ↦ htarget aliasName _
  cases isStatic with
  | true =>
    exact forward_advance.gives_bind fun _ _ _ _ ↦ (Forward.look _).gives_bind
      fun aliased _ _ _ ↦ haliased _ aliased
  | false => exact (Forward.look _).gives_bind fun aliased _ _ _ ↦ haliased _ aliased

theorem isGlobal_of_readAlone {u : Using} {isGlobal : Bool}
    (h : readAlone (usingDirective isGlobal) text = some u) : u.isGlobal = isGlobal := by
  obtain ⟨-, c, hok, -⟩ := ok_of_readAlone h
  obtain ⟨read, -, hgives⟩ := gives_usingDirective isGlobal (Cursor.ofTokens (ofSource text))
  exact hgives u (congrArg Outcome.result hok)

/-- Texts that are read alone, one after the other. -/
theorem forall₂_of_readAlone {β : Type} {p : Parser α} {R : List Bare → β → Prop} {view : α → β}
    {f : String → String}
    (hR : ∀ t a, readAlone p (f t) = some a → R (spell (f t).toList) (view a)) {texts : List String}
    (h : ∀ t ∈ texts, ∃ a, readAlone p (f t) = some a) :
    List.Forall₂ R (texts.map fun t ↦ spell (f t).toList)
      ((texts.filterMap fun t ↦ readAlone p (f t)).map view) := by
  induction texts with
  | nil => exact .nil
  | cons t texts ih =>
    obtain ⟨ht, htexts⟩ := List.forall_mem_cons.mp h
    obtain ⟨a, ha⟩ := ht
    rw [List.map_cons, List.filterMap_cons, ha, List.map_cons]
    exact .cons (hR t a ha) (ih htexts)

end Parser
end Companion
