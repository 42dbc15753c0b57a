import Companion.Proofs.Unit.Pieces
import Companion.Proofs.Grammar.TypeReading
import Companion.Unit.Text
import Mathlib.Data.List.Forall2

/-!
Texts inside generated lines: fixed texts, names, dotted names (`IsDottedName`) and lists of names,
texts for types (`IsTypeText`), and quoted texts (`spell_quoted`). Each of them stands apart from
what may follow it, so that a line of such pieces spells what the pieces spell (`apart_names`,
`apart_dottedPieces`, `apart_paramPieces`).
-/

set_option autoImplicit false
set_option relaxedAutoImplicit false

namespace Companion

open Token Token.Lexeme Piece

/-! ### Texts inside lines -/

theorem isPlain_of_continuesWord {c : Char} (h : continuesWord c = true) : isPlain c = true := by
  by_contra hplain
  simp only [isPlain, Bool.and_eq_true, decide_eq_true_eq, not_and_or, not_not] at hplain
  rcases hplain with (rfl | rfl) | rfl <;> revert h <;> decide

theorem continuesWord_of_startsWord {c : Char} (h : startsWord c = true) :
    continuesWord c = true := by
  rw [startsWord] at h
  rw [continuesWord, h, Bool.true_or]

theorem all_of_isWordText {p : Char → Bool} (hword : ∀ c, continuesWord c = true → p c = true)
    {cs : List Char} (h : isWordText cs = true) : cs.all p = true := by
  cases cs with
  | nil => rfl
  | cons c cs =>
    simp only [isWordText, Bool.and_eq_true, List.all_eq_true] at h
    rw [List.all_cons, hword c (continuesWord_of_startsWord h.1), Bool.true_and, List.all_eq_true]
    exact fun x hx ↦ hword x (h.2 x hx)

/-- What holds of the sign of escapes and inside words holds of all characters of a name. -/
theorem all_of_isNameText {p : Char → Bool} (hat : p '@' = true)
    (hword : ∀ c, continuesWord c = true → p c = true) {cs : List Char}
    (h : isNameText cs = true) : cs.all p = true := by
  rw [isNameText.eq_def] at h
  split at h
  · rw [List.all_cons, hat, all_of_isWordText hword h]
    rfl
  · exact all_of_isWordText hword h

theorem isPlain_of_isNameText {cs : List Char} (h : isNameText cs = true) :
    cs.all isPlain = true :=
  all_of_isNameText (by decide) (fun _ ↦ isPlain_of_continuesWord) h

theorem endsVisibly_of_isPlain {cs : List Char} (hne : cs ≠ []) (h : cs.all isPlain = true) :
    EndsVisibly cs := by
  refine ⟨cs.dropLast, cs.getLast hne, (List.dropLast_append_getLast hne).symm, ?_⟩
  have hlast := List.all_eq_true.mp h _ (List.getLast_mem hne)
  simp only [isPlain, Bool.and_eq_true, decide_eq_true_eq] at hlast
  exact hlast.2

theorem toList_joinWith (separator : String) (texts : List String) :
    (joinWith separator texts).toList = separator.toList.intercalate (texts.map String.toList) := by
  induction texts with
  | nil => rfl
  | cons t texts ih =>
    cases texts with
    | nil => exact List.intercalate_singleton.symm
    | cons u texts =>
      rw [joinWith, String.toList_append, String.toList_append, ih, List.map_cons, List.map_cons,
        List.map_cons, List.intercalate_cons_cons, List.append_assoc]

theorem all_joinWith {p : Char → Bool} {separator : String} {texts : List String}
    (hseparator : separator.toList.all p = true) (htexts : ∀ t ∈ texts, t.toList.all p = true) :
    (joinWith separator texts).toList.all p = true := by
  induction texts with
  | nil => rfl
  | cons t texts ih =>
    obtain ⟨ht, hrest⟩ := List.forall_mem_cons.mp htexts
    cases texts with
    | nil => exact ht
    | cons u texts =>
      rw [joinWith, String.toList_append, String.toList_append, List.all_append, List.all_append,
        ht, hseparator, ih hrest]
      rfl

/-- The parts of a dotted name. -/
def components (t : String) : List String := (t.toList.splitOn '.').map String.ofList

theorem components_ne_nil (t : String) : components t ≠ [] := by
  simp [components]

theorem joinWith_components (t : String) : joinWith "." (components t) = t := by
  have hparts : (components t).map String.toList = t.toList.splitOn '.' := by
    simp [components, Function.comp_def]
  rw [← String.toList_inj, toList_joinWith, hparts]
  exact List.intercalate_splitOn '.'

/-- A name in parts, each of which is a name. -/
def IsDottedName (t : String) : Prop := ∀ n ∈ components t, isNameText n.toList = true

instance (t : String) : Decidable (IsDottedName t) :=
  inferInstanceAs (Decidable (∀ n ∈ components t, isNameText n.toList = true))

/-- The tokens of a dotted name. -/
def dottedTokens (t : String) : List Bare :=
  [(.dot, ".")].intercalate ((components t).map fun n ↦ [(nameKind n.toList, n)])

theorem spell_append_name {n : String} (h : isNameText n.toList = true) {r : List Char}
    (hr : breaks r = true) : spell (n.toList ++ r) = (nameKind n.toList, n) :: spell r := by
  rw [spell_name h hr, String.ofList_toList]

/-- Names with separators between. -/
theorem spell_joinNames {separator : String} {mark : Bare} {names : List String}
    (hmark : ∀ n ∈ names, ∀ r,
      spell (separator.toList ++ (n.toList ++ r)) = mark :: spell (n.toList ++ r))
    (hbreaks : ∀ r, breaks (separator.toList ++ r) = true)
    (hnames : ∀ n ∈ names, isNameText n.toList = true) (hne : names ≠ []) {r : List Char}
    (hr : breaks r = true) :
    spell ((joinWith separator names).toList ++ r) =
      [mark].intercalate (names.map fun n ↦ [(nameKind n.toList, n)]) ++ spell r := by
  have hjoined : spell ((joinWith separator (names.map id)).toList ++ r) =
      [mark].intercalate (names.map fun n ↦ [(nameKind n.toList, n)]) ++ spell r :=
    spell_joinWith (fun n hn r (hr : breaks r = true) ↦ spell_append_name (hnames n hn) hr) hmark
      hbreaks hne hr
  rwa [List.map_id] at hjoined

theorem IsDottedName.spell_append {t : String} (h : IsDottedName t) {r : List Char}
    (hr : breaks r = true) : spell (t.toList ++ r) = dottedTokens t ++ spell r := by
  have hdot (n : String) (hn : n ∈ components t) (r : List Char) :
      spell (".".toList ++ (n.toList ++ r)) = (.dot, ".") :: spell (n.toList ++ r) :=
    spell_dot_name (h n hn) r
  have hjoined : spell ((joinWith "." (components t)).toList ++ r) =
      dottedTokens t ++ spell r :=
    spell_joinNames hdot (fun _ ↦ rfl) h (components_ne_nil t) hr
  rwa [joinWith_components] at hjoined

theorem IsDottedName.spell_eq {t : String} (h : IsDottedName t) :
    spell t.toList = dottedTokens t := by
  have halone := h.spell_append (r := []) rfl
  rwa [List.append_nil, show spell [] = [] from rfl, List.append_nil] at halone

/-- A dotted name begins with a name. -/
theorem IsDottedName.exists_name {t : String} (h : IsDottedName t) :
    ∃ n more, isNameText n = true ∧ t.toList = n ++ more := by
  have hjoined := joinWith_components t
  cases hparts : components t with
  | nil => exact absurd hparts (components_ne_nil t)
  | cons n ns =>
    obtain ⟨more, hmore⟩ := toList_joinWith_cons "." n ns
    rw [hparts] at hjoined
    exact ⟨n.toList, more, h n (hparts ▸ List.mem_cons_self), by rw [← hjoined, hmore]⟩

theorem IsDottedName.isPlain {t : String} (h : IsDottedName t) :
    t.toList.all isPlain = true := by
  rw [← joinWith_components t]
  exact all_joinWith (by decide) fun n hn ↦ isPlain_of_isNameText (h n hn)

/-- A text that can stand where types stand. -/
structure IsTypeText (t : String) : Prop where
  apart : ∀ r, TypeRef.Closes r → spell (t.toList ++ r) = spell t.toList ++ spell r
  opens : ∀ r, spell ('<' :: (t.toList ++ r)) = (.lt, "<") :: spell (t.toList ++ r)
  plain : t.toList.all isPlain = true

theorem IsDottedName.isTypeText {t : String} (h : IsDottedName t) : IsTypeText t where
  apart r hr := by rw [h.spell_append hr.1, h.spell_eq]
  opens r := by
    obtain ⟨n, more, hn, htext⟩ := h.exists_name
    rw [htext, List.append_assoc]
    exact spell_lt_name hn _
  plain := h.isPlain

namespace TypeRef

theorem all_textOfSegment {p : Char → Bool} {comma : String} (hcomma : comma.toList.all p = true)
    (hmarks : p '<' = true ∧ p '>' = true) {s : Segment} (hident : s.ident.toList.all p = true)
    (hargs : ∀ a ∈ s.args, (a.textWith comma).toList.all p = true) :
    (textOfSegment comma s).toList.all p = true := by
  obtain ⟨ident, args, span⟩ := s
  replace hident : ident.toList.all p = true := hident
  cases args with
  | nil => exact hident
  | cons a as =>
    have hlist : (joinWith comma (textEach comma (a :: as))).toList.all p = true := by
      refine all_joinWith hcomma fun t ht ↦ ?_
      rw [textEach_eq_map] at ht
      obtain ⟨x, hx, rfl⟩ := List.mem_map.mp ht
      exact hargs x hx
    rw [textEach] at hlist
    simp only [textOfSegment, String.toList_append, List.all_append, hident, hlist, Bool.true_and]
    simp [hmarks]

theorem Legible.isPlain {comma : String} (hcomma : comma.toList.all isPlain = true) {t : TypeRef}
    (h : t.Legible) : (t.textWith comma).toList.all isPlain = true := by
  induction h with
  | predefined p span => exact isPlain_of_isNameText (isNameText_keyword p)
  | @named fromGlobal segs span hne hnames hargs ih =>
    simp only [textWith, String.toList_append, List.all_append, Bool.and_eq_true]
    refine ⟨by cases fromGlobal <;> decide, all_joinWith (by decide) fun t ht ↦ ?_⟩
    rw [segmentTexts_eq_map] at ht
    obtain ⟨s, hs, rfl⟩ := List.mem_map.mp ht
    exact all_textOfSegment hcomma (by decide) (isPlain_of_isNameText (hnames s hs).name) (ih s hs)
  | array helement hpos hrank ih =>
    simp only [textWith, String.toList_append, List.all_append, Bool.and_eq_true,
      String.toList_ofList]
    refine ⟨⟨⟨ih, by decide⟩, List.all_eq_true.mpr fun c hc ↦ ?_⟩, by decide⟩
    rw [(List.mem_replicate.mp hc).2]
    decide
  | nullable hinner hsingle ih =>
    rw [textWith, String.toList_append, List.all_append, ih]
    decide
  | tuple hne helements ih =>
    simp only [textWith, String.toList_append, List.all_append, Bool.and_eq_true]
    refine ⟨⟨by decide, all_joinWith hcomma fun t ht ↦ ?_⟩, by decide⟩
    rw [textEach_eq_map] at ht
    obtain ⟨e, he, rfl⟩ := List.mem_map.mp ht
    exact ih e he

theorem Legible.isTypeText {t : TypeRef} (h : t.Legible) {comma : String}
    (hcomma : comma = "," ∨ comma = ", ") : IsTypeText (t.textWith comma) where
  apart r hr := by
    have halone := h.printable.spell_text hcomma (r := []) rfl (by simp)
    rw [List.append_nil, show spell [] = [] from rfl, List.append_nil] at halone
    rw [h.printable.spell_text hcomma hr.1 fun _ _ _ ↦ hr.2, halone]
  opens r := h.printable.spell_lt r
  plain := h.isPlain (by rcases hcomma with rfl | rfl <;> decide)

end TypeRef

/-! ### Pieces of lines -/

/-- A quoted text is one token. -/
theorem spell_quoted {t : String} (hne : t ≠ "") (ht : t.toList.all isPlain = true)
    (r : List Char) : spell (("\"" ++ t ++ "\"").toList ++ r) =
      (.stringLit, String.ofList ('"' :: (t.toList ++ ['"']))) :: spell r := by
  have hne : t.toList ≠ [] := mt String.toList_eq_nil_iff.mp hne
  simpa using spell_quotation hne ht r

namespace Apart

variable {r : List Char} {ps : List Piece} {t : String}

/-- A word that is the same in every unit. -/
theorem word (ht : isNameText t.toList = true) (hbreaks : breaks (chars ps ++ r) = true)
    (hps : Apart r ps) : Apart r (.text t :: ps) := by
  refine .text ?_ hps
  have halone := spell_append_name ht (r := []) rfl
  rw [List.append_nil] at halone
  rw [spell_append_name ht hbreaks, halone]
  rfl

theorem dotted (ht : IsDottedName t) (hbreaks : breaks (chars ps ++ r) = true)
    (hps : Apart r ps) : Apart r (.text t :: ps) :=
  .text (by rw [ht.spell_append hbreaks, ht.spell_eq]) hps

theorem typeText (ht : IsTypeText t) (hcloses : TypeRef.Closes (chars ps ++ r))
    (hps : Apart r ps) : Apart r (.text t :: ps) := .text (ht.apart _ hcloses) hps

/-- A sign that opens type arguments in front of a type. -/
theorem less (ht : IsTypeText t) (hps : Apart r (.text t :: ps)) :
    Apart r (.text "<" :: .text t :: ps) := by
  refine .text ?_ hps
  rw [chars_cons, List.append_assoc]
  exact ht.opens _

theorem dot {n : String} (hn : IsDottedName n) (hps : Apart r (.text n :: ps)) :
    Apart r (.text "." :: .text n :: ps) := by
  obtain ⟨first, more, hfirst, hname⟩ := hn.exists_name
  refine .text ?_ hps
  rw [chars_cons, Piece.string, hname, List.append_assoc, List.append_assoc]
  exact spell_dot_name hfirst _

theorem quoted (hne : t ≠ "") (ht : t.toList.all isPlain = true) (hps : Apart r ps) :
    Apart r (.text ("\"" ++ t ++ "\"") :: ps) := by
  refine .text ?_ hps
  have halone := spell_quoted hne ht []
  rw [List.append_nil] at halone
  rw [spell_quoted hne ht, halone]
  rfl

/-- The last piece of a line, if it stops at the end of the line. -/
theorem ending (ht : (visible t.toList).all (StopsAt '\n') = true) :
    Apart ('\n' :: r) [.text t] := by
  simp only [List.all_eq_true, decide_eq_true_eq] at ht
  exact .text (spell_append_separator newline_mem_separators ht r) .nil

end Apart

theorem endsVisibly_of_getLast? {cs : List Char} (h : (cs.getLast?.any (· ≠ '\n')) = true) :
    EndsVisibly cs := by
  cases hlast : cs.getLast? with
  | none =>
    rw [hlast] at h
    cases h
  | some c =>
    refine ⟨cs.dropLast, c, (List.dropLast_append_getLast? c hlast).symm, ?_⟩
    simpa [hlast] using h

theorem EndsVisibly.append_left {cs : List Char} (h : EndsVisibly cs) (front : List Char) :
    EndsVisibly (front ++ cs) := by
  obtain ⟨more, c, rfl, hc⟩ := h
  exact ⟨front ++ more, c, (List.append_assoc ..).symm, hc⟩

/-- A line that ends in a fixed text. -/
theorem IsLine.ofEnd {front e : String} {ps : List Piece}
    (hchars : (front ++ e).toList = Piece.chars ps)
    (hapart : ∀ r, Apart ('\n' :: r) ps) (he : (e.toList.getLast?.any (· ≠ '\n')) = true) :
    IsLine (front ++ e) ps where
  chars := hchars
  apart := hapart
  last := by
    rw [String.toList_append]
    exact (endsVisibly_of_getLast? he).append_left _

/-! ### Lists of names -/

/-- The names in a dotted name. -/
def dottedPieces (t : String) : List Piece :=
  [Piece.text "."].intercalate ((components t).map fun n ↦ [.name n])

/-- Type parameters in angle brackets; nothing if there are none. -/
def paramPieces (params : List String) : List Piece :=
  if params.isEmpty then []
  else .text "<" :: ([Piece.text ", "].intercalate (params.map fun n ↦ [.name n]) ++ [.text ">"])

theorem chars_intercalate (p : Piece) (lists : List (List Piece)) :
    chars ([p].intercalate lists) = p.string.toList.intercalate (lists.map chars) := by
  induction lists with
  | nil => rfl
  | cons l lists ih =>
    cases lists with
    | nil => simp
    | cons l' lists =>
      rw [List.map_cons] at ih
      simp only [List.intercalate_cons_cons, List.map_cons, chars_append, chars_cons, chars_nil, ih,
        List.append_nil]

theorem tokensOf_intercalate (p : Piece) (lists : List (List Piece)) :
    tokensOf ([p].intercalate lists) = p.tokens.intercalate (lists.map tokensOf) := by
  induction lists with
  | nil => rfl
  | cons l lists ih =>
    cases lists with
    | nil => simp
    | cons l' lists =>
      rw [List.map_cons] at ih
      simp only [List.intercalate_cons_cons, List.map_cons, tokensOf_append, tokensOf_cons,
        tokensOf_nil, ih, List.append_nil]

theorem apart_names {separator : String} {mark : Bare} {names : List String} {r : List Char}
    (hseparator : spell separator.toList = [mark])
    (hmark : ∀ n ∈ names, ∀ r,
      spell (separator.toList ++ (n.toList ++ r)) = mark :: spell (n.toList ++ r))
    (hbreaks : ∀ r, breaks (separator.toList ++ r) = true)
    (hnames : ∀ n ∈ names, isNameText n.toList = true) (hne : names ≠ []) (hr : breaks r = true) :
    Apart r ([Piece.text separator].intercalate (names.map fun n ↦ [.name n])) := by
  have hjoined := spell_joinNames hmark hbreaks hnames hne hr
  rw [toList_joinWith] at hjoined
  have hchars : (names.map fun n ↦ [Piece.name n]).map chars = names.map String.toList := by
    simp [Function.comp_def, Piece.string]
  have htokens : (names.map fun n ↦ [Piece.name n]).map tokensOf =
      names.map fun n ↦ [(nameKind n.toList, n)] := by
    simp [Function.comp_def, Piece.tokens]
  rw [Apart, chars_intercalate, tokensOf_intercalate, hchars, htokens]
  show spell (separator.toList.intercalate _ ++ r) = (spell separator.toList).intercalate _ ++ _
  rw [hseparator]
  exact hjoined

theorem chars_names (separator : String) (names : List String) :
    chars ([Piece.text separator].intercalate (names.map fun n ↦ [.name n])) =
      (joinWith separator names).toList := by
  rw [chars_intercalate, toList_joinWith, List.map_map]
  congr 1
  exact List.map_congr_left fun n _ ↦ List.append_nil _

theorem chars_dottedPieces (t : String) : chars (dottedPieces t) = t.toList := by
  rw [dottedPieces, chars_names, joinWith_components]

theorem apart_dottedPieces {t : String} (h : IsDottedName t) {r : List Char}
    (hr : breaks r = true) : Apart r (dottedPieces t) :=
  apart_names (show spell ".".toList = [(.dot, ".")] from rfl) (fun n hn r ↦
    spell_dot_name (h n hn) r) (fun _ ↦ rfl) h
    (components_ne_nil t) hr

theorem toList_typeParamList (params : List String) :
    (typeParamList params).toList = chars (paramPieces params) := by
  rw [typeParamList, paramPieces]
  split
  · rfl
  · simp [chars_names, Piece.string]

theorem isPlain_typeParamList {params : List String}
    (h : ∀ n ∈ params, isNameText n.toList = true) :
    (typeParamList params).toList.all isPlain = true := by
  rw [typeParamList]
  split
  · rfl
  · simp only [String.toList_append, List.all_append, Bool.and_eq_true]
    exact ⟨⟨by decide, all_joinWith (by decide) fun n hn ↦ isPlain_of_isNameText (h n hn)⟩,
      by decide⟩

theorem apart_paramPieces {params : List String} (h : ∀ n ∈ params, isNameText n.toList = true)
    (r : List Char) : Apart r (paramPieces params) := by
  rw [paramPieces]
  cases params with
  | nil => exact .nil
  | cons n params =>
    have hnames : Apart ('>' :: r)
        ([Piece.text ", "].intercalate ((n :: params).map fun n ↦ [.name n])) :=
      apart_names (show spell ", ".toList = [(.comma, ",")] from rfl)
        (fun n _ r ↦ settled_of_settles (show settles ", ".toList = true by decide) (n.toList ++ r))
        (fun _ ↦ rfl) h (List.cons_ne_nil _ _) rfl
    have hopen : spell ("<".toList ++ (chars ([Piece.text ", "].intercalate
        ((n :: params).map fun n ↦ [.name n]) ++ [.text ">"]) ++ r)) =
          spell "<".toList ++ spell (chars ([Piece.text ", "].intercalate
            ((n :: params).map fun n ↦ [.name n]) ++ [.text ">"]) ++ r) := by
      obtain ⟨more, hmore⟩ := toList_joinWith_cons ", " n params
      rw [chars_append, chars_names, hmore, List.append_assoc, List.append_assoc]
      exact spell_lt_name (h n List.mem_cons_self) _
    have hclose : Apart r [.text ">"] := .text (spell_gt r) .nil
    refine .text hopen (.append ?_ hclose)
    simpa [Piece.string] using hnames

theorem breaks_paramPieces (params : List String) {r : List Char} (hr : breaks r = true) :
    breaks (chars (paramPieces params) ++ r) = true := by
  rw [paramPieces]
  cases params with
  | nil => exact hr
  | cons n params => rfl

end Companion
