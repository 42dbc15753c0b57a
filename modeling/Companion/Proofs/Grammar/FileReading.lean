import Companion.Proofs.Grammar.DeclarationReading

/-!
Files with one type in them. Using directives and a type that may stand in a namespace are read one
after the other, and nothing is reported.
-/

set_option autoImplicit false
set_option relaxedAutoImplicit false

namespace Companion

open Token TypeRef

namespace Parser

variable {bs rest : List Bare} {body : BodyEnd → Parser (List Using × List Item)}

/-- The tokens are read to a using directive, wherever they stand. -/
structure IsDirective (bs : List Bare) (u : Using) : Prop where
  opens : kindAt bs 0 = .usingWord
  takes : ∀ rest, (usingDirective false).Takes bs rest (·.placeless = u)

/-- The tokens are read to an item, unless a `;` follows. -/
structure IsItem (body : BodyEnd → Parser (List Using × List Item)) (bs : List Bare) (i : Item) :
    Prop where
  opens : kindAt bs 0 = .namespaceWord ∨ kindAt bs 0 = .ident
  takes : ∀ rest, kindAt rest 0 ≠ .semicolon →
    (entryWith body).Takes bs rest fun e ↦ ∃ i', e = .item i' ∧ i'.placeless = i

theorem takes_stepWith {post : Entry → Prop} (hbrace : kindAt (bs ++ rest) 0 ≠ .rbrace)
    (hsemicolon : kindAt (bs ++ rest) 0 ≠ .semicolon) (h : (entryWith body).Takes bs rest post) :
    (stepWith body).Takes bs rest post := by
  refine takes_look_bind fun c hc ↦ ?_
  rw [id, if_neg (by rwa [hc.kind]), if_neg (by rwa [hc.kind])]
  refine h.attempt.bind_nil fun r hr ↦ ?_
  obtain ⟨e, rfl, he⟩ := hr
  exact takes_pure he

theorem IsDirective.takes_stepWith {u : Using} (h : IsDirective bs u) (rest : List Bare) :
    (stepWith body).Takes bs rest fun e ↦ ∃ u', e = .using u' ∧ u'.placeless = u := by
  have hkind := kindAt_append h.opens (by simp) rest
  refine Parser.takes_stepWith (by simp [hkind]) (by simp [hkind]) (takes_look_bind fun c hc ↦ ?_)
  rw [id, if_pos (by rw [hc.kind, hkind])]
  exact (h.takes rest).map fun u' hu' ↦ ⟨u', rfl, hu'⟩

theorem IsItem.opens_append {i : Item} (h : IsItem body bs i) (rest : List Bare) :
    kindAt (bs ++ rest) 0 = .namespaceWord ∨ kindAt (bs ++ rest) 0 = .ident :=
  h.opens.imp (kindAt_append · (by simp) rest) (kindAt_append · (by simp) rest)

theorem IsItem.takes_stepWith {i : Item} (h : IsItem body bs i)
    (hrest : kindAt rest 0 ≠ .semicolon) :
    (stepWith body).Takes bs rest fun e ↦ ∃ i', e = .item i' ∧ i'.placeless = i := by
  refine Parser.takes_stepWith ?_ ?_ (h.takes rest hrest)
  all_goals rcases h.opens_append rest with hkind | hkind <;> simp [hkind]

/-! ### Namespaces -/

/-- Using directives and one item behind them. -/
theorem takes_entriesWith {bodyEnd : BodyEnd} {lists : List (List Bare)} {us : List Using}
    (hus : List.Forall₂ IsDirective lists us) {i : Item} (hi : IsItem body bs i)
    (hend : kindAt rest 0 = .eof ∨ (kindAt rest 0 = .rbrace ∧ bodyEnd = .closingBrace))
    {budget : Nat} (hbudget : lists.length + 1 < budget) :
    (entriesWith body bodyEnd budget).Takes (lists.flatten ++ bs) rest
      fun read ↦ read.1.map Using.placeless = us ∧ read.2.map Item.placeless = [i] := by
  induction hus generalizing budget with
  | nil =>
    obtain ⟨budget, rfl⟩ := Nat.exists_eq_add_of_le' (Nat.succ_le_of_lt hbudget)
    refine takes_look_bind fun c hc ↦ ?_
    rw [List.flatten_nil, List.nil_append] at hc ⊢
    rw [hc.kind, if_neg (by rcases hi.opens_append rest with h | h <;> simp [h])]
    refine (hi.takes_stepWith (by rcases hend with h | ⟨h, -⟩ <;> simp [h])).bind_nil
      fun e ⟨i', he, hi'⟩ ↦ ?_
    subst he
    have hstop : (entriesWith body bodyEnd (budget + 1)).Takes [] rest (· = ([], [])) := by
      refine takes_look_bind fun c' hc' ↦ ?_
      rw [List.nil_append] at hc'
      rw [hc'.kind, if_pos (by rcases hend with h | ⟨h, rfl⟩ <;> simp [h])]
      exact takes_pure rfl
    refine hstop.bind_nil fun read hread ↦ ?_
    subst hread
    exact takes_pure ⟨rfl, congrArg (fun i ↦ [i]) hi'⟩
  | @cons us₁ u lists us hu _ ih =>
    obtain ⟨budget, rfl⟩ := Nat.exists_eq_succ_of_ne_zero (by omega : budget ≠ 0)
    have hmore := ih (show lists.length + 1 < budget by simpa using hbudget)
    refine takes_look_bind fun c hc ↦ ?_
    rw [List.flatten_cons, List.append_assoc, List.append_assoc] at hc
    rw [hc.kind, kindAt_append hu.opens (by simp), if_neg (by simp), List.flatten_cons,
      List.append_assoc]
    refine (hu.takes_stepWith _).bind fun e ⟨u', he, hu'⟩ ↦ ?_
    subst he
    refine hmore.bind_nil fun read ⟨husings, hitems⟩ ↦ ?_
    exact takes_pure ⟨congrArg₂ List.cons hu' husings, hitems⟩

/-- Types one in the other are an item. -/
theorem isItem_typeDecl {h : Head} {heads : List Head} (hvalid : ∀ x ∈ h :: heads, x.Valid)
    {lists : List (List Bare)} {ms : List Member}
    (hms : List.Forall₂ (fun bs m ↦ ∀ members, IsMember (memberWith members) bs m) lists ms) :
    IsItem body (nestedTokens (h :: heads) lists.flatten)
      (.typeDecl (h.decl (nestedMembers heads ms))) where
  opens := .inr rfl
  takes rest hrest := by
    refine takes_look_bind fun c hc ↦ ?_
    have hkind : c.kind = .ident := hc.kind
    have hglobal : c.current.isWord "global" = false := hc.isWord_eq _
    have hextern : c.current.isWord "extern" = false := hc.isWord_eq _
    rw [id, hkind, hglobal, hextern, if_neg (by simp), if_neg (by simp), if_neg (by simp),
      if_neg (by simp)]
    refine (takes_declarationEntry hvalid hms hrest).mono fun e ⟨d, he, hd⟩ ↦ ?_
    exact ⟨.typeDecl d, he, by rw [Item.placeless, hd]⟩

/-- The tokens of a namespace. -/
def namespaceTokens (ns : List String) (bs : List Bare) : List Bare :=
  (.namespaceWord, "namespace") :: ((plain ns).tokens ++ bodyTokens bs)

theorem parts_of_readAs_plain {ns : List String} {n : Name} (h : ReadAs (plain ns) (.ofName n)) :
    n.parts = ns.map unescape := by
  rw [ReadAs, renamed_plain, ofName, renamed, plain, renamedSegments_eq_map] at h
  injection h with _ hsegments
  have hidents := congrArg (List.map Segment.ident) hsegments
  rw [List.map_map, List.map_map] at hidents
  refine Eq.trans ?_ (hidents.trans (List.map_id _))
  exact List.map_congr_left fun s _ ↦ by cases s; rfl

/-- A namespace around one item. -/
theorem isItem_namespace {ns : List String} (hne : ns ≠ []) (hns : ∀ n ∈ ns, IsIdentifier n)
    {i : Item}
    (hbody : ∀ rest, (body .closingBrace).Takes bs ((.rbrace, "\x7d") :: rest)
      fun read ↦ read.1.map Using.placeless = [] ∧ read.2.map Item.placeless = [i]) :
    IsItem body (namespaceTokens ns bs)
      (.namespaceDecl ⟨ns.map unescape, nowhere, false, [], nowhere⟩ [i]) where
  opens := .inl rfl
  takes rest hrest := by
    have hnamespace : (namespaceWith body).Takes (namespaceTokens ns bs) rest
        (·.placeless = .namespaceDecl ⟨ns.map unescape, nowhere, false, [], nowhere⟩ [i]) := by
      refine (takes_expect (b := (.namespaceWord, "namespace")) Kind.noConfusion).cons_bind
        fun start _ ↦ ?_
      refine ((legible_plain hne hns).printable.takes_name ?_).bind fun n hn ↦ ?_
      · exact ⟨by simp [bodyTokens], by simp [bodyTokens], by simp [bodyTokens]⟩
      refine takes_eat_bind_of_ne (by simp [bodyTokens]) ?_
      rw [if_neg (by simp)]
      refine (takes_expect (b := (.lbrace, "\x7b")) Kind.noConfusion).cons_bind fun opened _ ↦ ?_
      refine (hbody rest).bind fun read hread ↦ ?_
      obtain ⟨husings, hitems⟩ := hread
      refine (takes_closingBrace _ _).bind_nil fun _ _ ↦ takes_eat_bind_of_ne hrest
        (takes_spanFrom_bind fun _ ↦ takes_pure ?_)
      rw [Item.placeless, NamespaceHeader.placeless, Item.allPlaceless_eq_map, husings, hitems,
        parts_of_readAs_plain hn]
    refine takes_look_bind fun c hc ↦ ?_
    have hkind : c.kind = .namespaceWord := hc.kind
    have hglobal : c.current.isWord "global" = false := hc.isWord_eq _
    have hextern : c.current.isWord "extern" = false := hc.isWord_eq _
    rw [id, hkind, hglobal, hextern, if_neg (by simp), if_neg (by simp), if_neg (by simp),
      if_pos rfl]
    exact hnamespace.map fun i' hi' ↦ ⟨i', rfl, hi'⟩

end Parser

/-! ### Source files -/

open Companion.Parser

namespace Parsed

variable {path source : String}

/-- A source without errors that is read without a report. -/
theorem ofSource_of_ok (hclean : IsClean (spell source.toList)) {read : List Using × List Item}
    {c : Cursor} (h : namespaceBody .endOfFile (Cursor.ofTokens (Token.ofSource source)) =
      ⟨.ok read, c, []⟩) :
    ofSource path source = ⟨⟨path, source, read.1, read.2⟩, []⟩ := by
  have hall : ∀ t ∈ Token.ofSource source, t.kind ≠ .error := by
    intro t ht
    have hmem : t.bare ∈ spell source.toList ++ [(.eof, "")] :=
      map_bare_ofSource source ▸ List.mem_map_of_mem ht
    rcases List.mem_append.mp hmem with hmem | hmem
    · exact hclean _ hmem
    · have hkind : t.kind = .eof := congrArg Prod.fst (List.mem_singleton.mp hmem)
      simp [hkind]
  have herrors : (Token.ofSource source).filter (·.kind = .error) = [] := by
    simpa [List.filter_eq_nil_iff] using hall
  have htokens : (Token.ofSource source).filter (·.kind ≠ .error) = Token.ofSource source := by
    simpa [List.filter_eq_self] using hall
  rw [ofSource, ofLexed, herrors, htokens, ofTokens, h]
  simp [Diagnostic.sortByPlace, Except.toOption]

/-- A source of which the tokens are known and read without a report. -/
theorem ofSource_of_takes {bs : List Bare} {us : List Using} {is : List Item}
    (hspell : spell source.toList = bs) (hclean : IsClean bs)
    (h : (namespaceBody .endOfFile).Takes bs [(.eof, "")]
      fun read ↦ read.1.map Using.placeless = us ∧ read.2.map Item.placeless = is) :
    (ofSource path source).diagnostics = [] ∧
      (ofSource path source).file.usings.map Using.placeless = us ∧
      (ofSource path source).file.items.map Item.placeless = is := by
  have hbare : (Token.ofSource source).map bare = bs ++ [(.eof, "")] := by
    rw [map_bare_ofSource, hspell]
  obtain ⟨read, c, hok, -, husings, hitems⟩ := h (Cursor.ofTokens (Token.ofSource source)) hbare
  rw [ofSource_of_ok (hspell ▸ hclean) hok]
  exact ⟨rfl, husings, hitems⟩

end Parsed
end Companion
