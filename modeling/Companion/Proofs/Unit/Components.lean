import Companion.Proofs.Unit.Tokens
import Companion.Proofs.Grammar.DeclarationReading

/-!
Parts of names that a companion takes over. A part that is one identifier, and no word with another
meaning, can stand wherever a companion writes a name; so a dotted name of such parts is read as a
name, and a text for a generic type of such parts as that type.
-/

set_option autoImplicit false
set_option relaxedAutoImplicit false

namespace Companion

open Token Token.Lexeme TypeRef Companion.Parser

/-- Identifiers that have another meaning in some places, besides modifiers and predefined types. -/
def contextualWords : List String :=
  ["record", "event", "operator", "this", "where", "global", "extern", "in", "out"]

/-- A text that is one identifier, and nothing else in any place. -/
structure IsComponent (n : String) : Prop where
  single : spell n.toList = [(.ident, n)]
  modifier : Modifier.ofKeyword? n = none
  predefined : Predefined.ofKeyword? n = none
  contextual : n ∉ contextualWords

instance (n : String) : Decidable (IsComponent n) :=
  decidable_of_iff (spell n.toList = [(.ident, n)] ∧ Modifier.ofKeyword? n = none ∧
    Predefined.ofKeyword? n = none ∧ n ∉ contextualWords)
    ⟨fun ⟨h₁, h₂, h₃, h₄⟩ ↦ ⟨h₁, h₂, h₃, h₄⟩, fun ⟨h₁, h₂, h₃, h₄⟩ ↦ ⟨h₁, h₂, h₃, h₄⟩⟩

namespace IsComponent

variable {n : String}

theorem isNameText (h : IsComponent n) : Token.isNameText n.toList = true :=
  (isNameText_of_spell h.single).1

theorem isIdentifier (h : IsComponent n) : IsIdentifier n where
  name := h.isNameText
  kind := (isNameText_of_spell h.single).2
  plain := h.predefined

theorem ne (h : IsComponent n) {w : String} (hw : w ∈ contextualWords) : n ≠ w := by
  rintro rfl
  exact h.contextual hw

end IsComponent

/-! ### Tokens inside types -/

/-- Kinds of tokens in names with type arguments. -/
def isTypePart : Token.Kind → Bool
  | .ident | .dot | .comma | .lt | .gt => true
  | _ => false

theorem isFlat_of_isTypePart {bs : List Bare} (h : ∀ b ∈ bs, isTypePart b.1 = true) :
    IsFlat bs := by
  intro b hb
  have hpart := h b hb
  cases hkind : b.1 <;> simp_all [isTypePart, Kind.isOpener, Kind.isCloser]

/-- A dotted name of which every part is a component. -/
def HasComponents (t : String) : Prop := ∀ n ∈ components t, IsComponent n

instance (t : String) : Decidable (HasComponents t) :=
  inferInstanceAs (Decidable (∀ n ∈ components t, IsComponent n))

namespace HasComponents

variable {t : String}

theorem isDottedName (h : HasComponents t) : IsDottedName t := fun n hn ↦ (h n hn).isNameText

theorem isIdentifier (h : HasComponents t) : ∀ n ∈ components t, IsIdentifier n :=
  fun n hn ↦ (h n hn).isIdentifier

theorem dottedTokens_eq (h : HasComponents t) :
    dottedTokens t = (TypeRef.plain (components t)).tokens := by
  rw [dottedTokens, TypeRef.tokens_plain]
  congr 1
  exact List.map_congr_left fun n hn ↦ by rw [(h.isIdentifier n hn).kind]

theorem spell_eq (h : HasComponents t) :
    spell t.toList = (TypeRef.plain (components t)).tokens := by
  rw [h.isDottedName.spell_eq, h.dottedTokens_eq]

end HasComponents

/-! ### Element types -/

/-- A named type, possibly generic, of which all names are of a kind. -/
inductive TypeRef.MadeOf (p : String → Prop) : TypeRef → Prop
  | named {segs : List Segment} {span : Span} (hne : segs ≠ []) (hnames : ∀ s ∈ segs, p s.ident)
      (hargs : ∀ s ∈ segs, ∀ a ∈ s.args, MadeOf p a) : MadeOf p (named false segs span)

/-- A component without the sign of escapes. In what is rendered, no name has one. -/
structure IsUnescaped (n : String) : Prop extends IsComponent n where
  word : isWordText n.toList = true

instance (n : String) : Decidable (IsUnescaped n) :=
  decidable_of_iff (IsComponent n ∧ isWordText n.toList = true)
    ⟨fun ⟨h₁, h₂⟩ ↦ ⟨h₁, h₂⟩, fun ⟨h₁, h₂⟩ ↦ ⟨h₁, h₂⟩⟩

/-- A named type as it is rendered. -/
def TypeRef.IsElement (r : TypeRef) : Prop := r.MadeOf IsUnescaped

/-- A text for a named type. -/
def IsElementName (t : String) : Prop :=
  ∃ (r : TypeRef) (comma : String), (comma = "," ∨ comma = ", ") ∧ r.IsElement ∧
    t = r.textWith comma

theorem TypeRef.MadeOf.mono {p q : String → Prop} (hpq : ∀ n, p n → q n) {r : TypeRef}
    (h : r.MadeOf p) : r.MadeOf q := by
  induction h with
  | named hne hnames _ ih => exact .named hne (fun s hs ↦ hpq _ (hnames s hs)) ih

theorem TypeRef.IsElement.madeOf {r : TypeRef} (h : r.IsElement) : r.MadeOf IsComponent :=
  h.mono fun _ hn ↦ hn.toIsComponent

namespace TypeRef.MadeOf

variable {r : TypeRef}

theorem legible (h : r.MadeOf IsComponent) : r.Legible := by
  induction h with
  | named hne hnames _ ih => exact .named hne (fun s hs ↦ (hnames s hs).isIdentifier) ih

theorem isTypePart_of_mem (h : r.MadeOf IsComponent) : ∀ b ∈ r.tokens, isTypePart b.1 = true := by
  induction h with
  | @named segs span _ _ _ ih =>
    intro b hb
    rw [tokens, segmentTokens_eq_map] at hb
    rcases mem_intercalate hb with rfl | ⟨list, hmem, hb⟩
    · rfl
    · obtain ⟨⟨ident, args, place⟩, hs, rfl⟩ := List.mem_map.mp hmem
      cases args with
      | nil =>
        obtain rfl := List.mem_singleton.mp hb
        rfl
      | cons a as =>
        rw [tokensOfSegment, ← tokensEach, tokensEach_eq_map] at hb
        simp only [List.mem_cons, List.mem_append, List.not_mem_nil, or_false] at hb
        rcases hb with rfl | rfl | hb | rfl
        · rfl
        · rfl
        · rcases mem_intercalate hb with rfl | ⟨inner, hinner, hb⟩
          · rfl
          · obtain ⟨x, hx, rfl⟩ := List.mem_map.mp hinner
            exact ih _ hs x hx b hb
        · rfl

/-- A named type starts with a component. -/
theorem tokens_eq_cons (h : r.MadeOf IsComponent) :
    ∃ n more, r.tokens = (.ident, n) :: more ∧ IsComponent n := by
  cases h with
  | @named segs span hne hnames _ =>
    cases segs with
    | nil => exact absurd rfl hne
    | cons s segs =>
      obtain ⟨more, hmore⟩ := segmentTokens_cons_eq_cons s segs
      exact ⟨s.ident, more, hmore, hnames s List.mem_cons_self⟩

/-- A member may start with a named type. -/
theorem opensTyped (h : r.MadeOf IsComponent) {rest : List Bare} (hrest : kindAt rest 0 ≠ .lparen) :
    OpensTyped (r.tokens ++ rest) := by
  obtain ⟨n, more, htokens, hn⟩ := h.tokens_eq_cons
  have hparts := h.isTypePart_of_mem
  rw [htokens] at hparts ⊢
  refine ⟨n, more ++ rest, rfl, hn.modifier, hn.ne (by decide), hn.ne (by decide), ?_⟩
  cases more with
  | nil => exact hrest
  | cons b more =>
    have hb := hparts b (by simp)
    intro heq
    rw [show b.1 = .lparen from heq] at hb
    cases hb

end TypeRef.MadeOf

/-- A dotted name names a type. -/
theorem madeOf_plain {p : String → Prop} {t : String} (h : ∀ n ∈ components t, p n) :
    (plain (components t)).MadeOf p := by
  refine .named (by simpa using components_ne_nil t) (fun s hs ↦ ?_) (fun s hs a ha ↦ ?_)
  all_goals obtain ⟨n, hn, rfl⟩ := List.mem_map.mp hs
  · exact h n hn
  · cases ha

theorem textWith_plain (comma : String) (ns : List String) :
    (plain ns).textWith comma = joinWith "." ns := by
  have htexts : segmentTexts comma (ns.map fun n ↦ .mk n [] (Span.point 0)) = ns := by
    rw [segmentTexts_eq_map, List.map_map]
    exact (List.map_congr_left fun n _ ↦ rfl).trans (List.map_id ns)
  rw [plain, textWith, htexts]
  exact String.empty_append

/-- A dotted name is a text for a type. -/
theorem isElementName_of_components {t : String} (h : ∀ n ∈ components t, IsUnescaped n) :
    IsElementName t :=
  ⟨_, ",", .inl rfl, madeOf_plain h, by rw [textWith_plain, joinWith_components]⟩

namespace IsElementName

variable {t : String}

theorem isTypeText (h : IsElementName t) : IsTypeText t := by
  obtain ⟨r, comma, hcomma, hr, rfl⟩ := h
  exact hr.madeOf.legible.isTypeText hcomma

/-- The tokens of a text for a type are those of the type. -/
theorem exists_spell (h : IsElementName t) :
    ∃ r : TypeRef, r.IsElement ∧ spell t.toList = r.tokens := by
  obtain ⟨r, comma, hcomma, hr, rfl⟩ := h
  refine ⟨r, hr, ?_⟩
  have halone := hr.madeOf.legible.printable.spell_text hcomma (r := []) rfl (by simp)
  rwa [List.append_nil, show spell [] = [] from rfl, List.append_nil] at halone

theorem isTypePart_of_mem (h : IsElementName t) :
    ∀ b ∈ spell t.toList, isTypePart b.1 = true := by
  obtain ⟨r, hr, hspell⟩ := h.exists_spell
  rw [hspell]
  exact hr.madeOf.isTypePart_of_mem

end IsElementName

/-! ### Names of helpers -/

/-- A character of a text for a type. -/
def isTypeChar (c : Char) : Bool :=
  continuesWord c || c = '.' || c = ',' || c = ' ' || c = '<' || c = '>'

theorem TypeRef.IsElement.all_textWith {p : Char → Bool} {comma : String}
    (hcomma : comma.toList.all p = true) (hmarks : p '<' = true ∧ p '>' = true)
    (hdot : p '.' = true) (hword : ∀ c, continuesWord c = true → p c = true) {r : TypeRef}
    (h : r.IsElement) : (r.textWith comma).toList.all p = true := by
  induction h with
  | @named segs span _ hnames _ ih =>
    rw [textWith, if_neg (by simp), String.empty_append]
    refine all_joinWith (by simp [hdot]) fun t ht ↦ ?_
    rw [segmentTexts_eq_map] at ht
    obtain ⟨s, hs, rfl⟩ := List.mem_map.mp ht
    exact all_textOfSegment hcomma hmarks (all_of_isWordText hword (hnames s hs).word) (ih s hs)

/-- A text for a type is made of words and marks between them. -/
theorem IsElementName.all_isTypeChar {t : String} (h : IsElementName t) :
    t.toList.all isTypeChar = true := by
  obtain ⟨r, comma, hcomma, hr, rfl⟩ := h
  refine hr.all_textWith (by rcases hcomma with rfl | rfl <;> decide) (by decide) (by decide)
    fun c hc ↦ ?_
  rw [isTypeChar, hc]
  rfl

/-- A character that the name of a helper keeps as a part of a word, or turns into one, or leaves
out. -/
def isHelperChar (c : Char) : Bool := isTypeChar c || c = '?' || c = '[' || c = ']'

/-- What is kept as it is goes on with a word exactly if it belongs into one. -/
theorem all_identifierPart {cs : List Char} :
    (identifierPart cs).all continuesWord = cs.all isHelperChar := by
  fun_induction identifierPart cs with
  | case1 => rfl
  | case2 cs ih =>
    rw [List.all_append, ih, List.all_cons, List.all_cons]
    rw [show isHelperChar '[' = true by decide, show isHelperChar ']' = true by decide,
      show "Array".toList.all continuesWord = true by decide]
    rfl
  | case3 cs _ ih | case4 cs _ _ ih | case5 cs _ _ _ ih =>
    simp only [List.all_cons, ih]
    rfl
  | case6 c cs _ _ _ _ hmark ih =>
    have hc : isHelperChar c = true := by
      simp only [Bool.or_eq_true, decide_eq_true_eq] at hmark
      obtain (((rfl | rfl) | rfl) | rfl) | rfl := hmark <;> decide
    rw [ih, List.all_cons, hc, Bool.true_and]
  | case7 c cs _ hdot hless hcomma hothers ih =>
    simp only [Bool.or_eq_true, decide_eq_true_eq, not_or] at hothers
    have hc : isHelperChar c = continuesWord c := by
      simp [isHelperChar, isTypeChar, hdot, hless, hcomma, hothers]
    rw [List.all_cons, List.all_cons, ih, hc]

theorem toList_repopulateName (t : String) :
    (repopulateName t).toList = 'R' :: ("epopulate".toList ++ identifierPart t.toList) := by
  simp [repopulateName]

theorem nameKind_repopulateName (t : String) : nameKind (repopulateName t).toList = .ident := by
  rw [toList_repopulateName]
  rfl

/-- The name of a helper is a word exactly if the text for the type is made of words and of the
marks that are turned into words or left out. -/
theorem isNameText_repopulateName (t : String) :
    isNameText (repopulateName t).toList = t.toList.all isHelperChar := by
  rw [toList_repopulateName, ← all_identifierPart]
  show (startsWord 'R' && List.all _ continuesWord) = _
  rw [List.all_append, show startsWord 'R' = true by decide,
    show "epopulate".toList.all continuesWord = true by decide, Bool.true_and, Bool.true_and]

/-- The name of a helper is an identifier. -/
theorem repopulateName_eq {t : String} (h : IsElementName t) :
    isNameText (repopulateName t).toList = true ∧
      spell (repopulateName t).toList = [(.ident, repopulateName t)] ∧
      repopulateName t ≠ "operator" ∧ repopulateName t ≠ "this" := by
  have hall : t.toList.all isHelperChar = true := by
    have htype := h.all_isTypeChar
    rw [List.all_eq_true] at htype ⊢
    intro c hc
    rw [isHelperChar, htype c hc]
    rfl
  have htext : isNameText (repopulateName t).toList = true :=
    (isNameText_repopulateName t).trans hall
  refine ⟨htext, ?_, ?_, ?_⟩
  · have halone := spell_append_name htext (r := []) rfl
    rwa [List.append_nil, nameKind_repopulateName] at halone
  all_goals
    intro heq
    have hname := toList_repopulateName t
    rw [heq] at hname
    exact absurd (List.cons.inj hname).1 (by decide)

end Companion
