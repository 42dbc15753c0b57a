import Companion.Proofs.Grammar.Exact

/-!
Written references to types and their tokens. A reference has its tokens (`TypeRef.tokens`) and its
text, in which anything may stand between type arguments (`TypeRef.textWith`). If its names are
identifiers, its ranks are no larger than the parser counts, and no question marks stand side by
side, then it can be read back (`TypeRef.Legible`, `TypeRef.Printable`); and its text spells its
tokens, whatever comes behind it that does not go on with it (`TypeRef.Printable.spell_text`).
-/

set_option autoImplicit false
set_option relaxedAutoImplicit false

namespace Companion

open Token

namespace TypeRef

mutual

/-- The reference without places, with something done to every identifier. -/
def renamed (f : String → String) : TypeRef → TypeRef
  | predefined p _ => predefined p (Span.point 0)
  | named fromGlobal segs _ => named fromGlobal (renamedSegments f segs) (Span.point 0)
  | array e rank _ => array (renamed f e) rank (Span.point 0)
  | nullable i _ => nullable (renamed f i) (Span.point 0)
  | tuple es _ => tuple (renamedAll f es) (Span.point 0)

def renamedAll (f : String → String) : List TypeRef → List TypeRef
  | [] => []
  | t :: ts => renamed f t :: renamedAll f ts

def renamedSegment (f : String → String) : Segment → Segment
  | .mk ident args _ => .mk (f ident) (renamedAll f args) (Span.point 0)

def renamedSegments (f : String → String) : List Segment → List Segment
  | [] => []
  | s :: ss => renamedSegment f s :: renamedSegments f ss

end

mutual

/-- The tokens of a reference. -/
def tokens : TypeRef → List Bare
  | predefined p _ => [(.ident, p.keyword)]
  | named fromGlobal segs _ =>
    (if fromGlobal then [(.ident, "global"), (.doubleColon, "::")] else []) ++
      [(.dot, ".")].intercalate (segmentTokens segs)
  | array e rank _ =>
    tokens e ++ (.lbracket, "[") :: (List.replicate (rank - 1) (.comma, ",") ++ [(.rbracket, "]")])
  | nullable i _ => tokens i ++ [(.question, "?")]
  | tuple es _ => (.lparen, "(") :: ([(.comma, ",")].intercalate (tokensEach es) ++
    [(.rparen, ")")])

def tokensEach : List TypeRef → List (List Bare)
  | [] => []
  | t :: ts => tokens t :: tokensEach ts

def tokensOfSegment : Segment → List Bare
  | .mk ident args _ =>
    (.ident, ident) :: match args with
      | [] => []
      | a :: as => (.lt, "<") :: ([(.comma, ",")].intercalate (tokens a :: tokensEach as) ++
        [(.gt, ">")])

def segmentTokens : List Segment → List (List Bare)
  | [] => []
  | s :: ss => tokensOfSegment s :: segmentTokens ss

end

mutual

/-- The text of a reference, with something between type arguments. -/
def textWith (comma : String) : TypeRef → String
  | predefined p _ => p.keyword
  | named fromGlobal segs _ =>
    (if fromGlobal then "global::" else "") ++ joinWith "." (segmentTexts comma segs)
  | array e rank _ =>
    textWith comma e ++ "[" ++ String.ofList (List.replicate (rank - 1) ',') ++ "]"
  | nullable i _ => textWith comma i ++ "?"
  | tuple es _ => "(" ++ joinWith comma (textEach comma es) ++ ")"

def textEach (comma : String) : List TypeRef → List String
  | [] => []
  | t :: ts => textWith comma t :: textEach comma ts

def textOfSegment (comma : String) : Segment → String
  | .mk ident args _ =>
    match args with
    | [] => ident
    | a :: as => ident ++ "<" ++ joinWith comma (textWith comma a :: textEach comma as) ++ ">"

def segmentTexts (comma : String) : List Segment → List String
  | [] => []
  | s :: ss => textOfSegment comma s :: segmentTexts comma ss

end

variable {f : String → String} {comma : String}

theorem renamedAll_eq_map (ts : List TypeRef) : renamedAll f ts = ts.map (renamed f) := by
  induction ts with
  | nil => rfl
  | cons t ts ih => rw [renamedAll, ih, List.map_cons]

theorem renamedSegments_eq_map (ss : List Segment) :
    renamedSegments f ss = ss.map (renamedSegment f) := by
  induction ss with
  | nil => rfl
  | cons s ss ih => rw [renamedSegments, ih, List.map_cons]

theorem tokensEach_eq_map (ts : List TypeRef) : tokensEach ts = ts.map tokens := by
  induction ts with
  | nil => rfl
  | cons t ts ih => rw [tokensEach, ih, List.map_cons]

theorem segmentTokens_eq_map (ss : List Segment) :
    segmentTokens ss = ss.map tokensOfSegment := by
  induction ss with
  | nil => rfl
  | cons s ss ih => rw [segmentTokens, ih, List.map_cons]

theorem textEach_eq_map (ts : List TypeRef) : textEach comma ts = ts.map (textWith comma) := by
  induction ts with
  | nil => rfl
  | cons t ts ih => rw [textEach, ih, List.map_cons]

theorem segmentTexts_eq_map (ss : List Segment) :
    segmentTexts comma ss = ss.map (textOfSegment comma) := by
  induction ss with
  | nil => rfl
  | cons s ss ih => rw [segmentTexts, ih, List.map_cons]

/-- A text that is read as one identifier and is no keyword of a type. -/
structure IsIdentifier (t : String) : Prop where
  name : isNameText t.toList = true
  kind : nameKind t.toList = .ident
  plain : Predefined.ofKeyword? t = none

/-- A reference whose text can be read back: all names in it are identifiers, ranks are no larger
than the parser counts, and no question marks stand side by side. -/
inductive Legible : TypeRef → Prop
  | predefined (p : Predefined) (span : Span) : Legible (predefined p span)
  | named {fromGlobal : Bool} {segs : List Segment} {span : Span} (hne : segs ≠ [])
      (hnames : ∀ s ∈ segs, IsIdentifier s.ident)
      (hargs : ∀ s ∈ segs, ∀ a ∈ s.args, Legible a) : Legible (named fromGlobal segs span)
  | array {e : TypeRef} {rank : Nat} {span : Span} (helement : Legible e) (hpos : 1 ≤ rank)
      (hrank : rank ≤ Parser.maxRank) : Legible (array e rank span)
  | nullable {i : TypeRef} {span : Span} (hinner : Legible i)
      (hsingle : ∀ j s, i ≠ nullable j s) : Legible (nullable i span)
  | tuple {es : List TypeRef} {span : Span} (hne : es ≠ []) (helements : ∀ e ∈ es, Legible e) :
      Legible (tuple es span)

/-- A text that is read as one identifier. -/
structure IsWord (t : String) : Prop where
  name : isNameText t.toList = true
  kind : nameKind t.toList = .ident

/-- A reference that is read back from its text. Only at its start may no name be a keyword of a
type. -/
inductive Printable : TypeRef → Prop
  | predefined (p : Predefined) (span : Span) : Printable (predefined p span)
  | named {fromGlobal : Bool} {segs : List Segment} {span : Span} (hne : segs ≠ [])
      (hnames : ∀ s ∈ segs, IsWord s.ident)
      (hplain : fromGlobal = false → ∀ s ∈ segs.head?, Predefined.ofKeyword? s.ident = none)
      (hargs : ∀ s ∈ segs, ∀ a ∈ s.args, Printable a) : Printable (named fromGlobal segs span)
  | array {e : TypeRef} {rank : Nat} {span : Span} (helement : Printable e) (hpos : 1 ≤ rank)
      (hrank : rank ≤ Parser.maxRank) : Printable (array e rank span)
  | nullable {i : TypeRef} {span : Span} (hinner : Printable i)
      (hsingle : ∀ j s, i ≠ nullable j s) : Printable (nullable i span)
  | tuple {es : List TypeRef} {span : Span} (hne : es ≠ []) (helements : ∀ e ∈ es, Printable e) :
      Printable (tuple es span)

theorem IsIdentifier.isWord {t : String} (h : IsIdentifier t) : IsWord t := ⟨h.name, h.kind⟩

theorem Legible.printable {t : TypeRef} (h : t.Legible) : t.Printable := by
  induction h with
  | predefined p span => exact .predefined p span
  | named hne hnames _ ih =>
    exact .named hne (fun s hs ↦ (hnames s hs).isWord)
      (fun _ s hs ↦ (hnames s (List.mem_of_mem_head? hs)).plain) ih
  | array _ hpos hrank ih => exact .array ih hpos hrank
  | nullable _ hsingle ih => exact .nullable ih hsingle
  | tuple hne _ ih => exact .tuple hne ih

/-! ### Spelling -/

/-- Neither a word nor a question mark goes on with the text. -/
def Closes (r : List Char) : Prop := breaks r = true ∧ ∀ c ∈ r.head?, c ≠ '?' ∧ c ≠ '.'

theorem spell_comma (hcomma : comma = "," ∨ comma = ", ") (r : List Char) :
    spell (comma.toList ++ r) = (.comma, ",") :: spell r := by
  rcases hcomma with rfl | rfl
  · rfl
  · exact settled_of_settles (show settles ", ".toList = true by decide) r

theorem closes_comma (hcomma : comma = "," ∨ comma = ", ") (r : List Char) :
    Closes (comma.toList ++ r) := by
  rcases hcomma with rfl | rfl <;> exact ⟨rfl, by simp⟩

theorem isNameText_keyword (p : Predefined) : isNameText p.keyword.toList = true := by
  cases p <;> decide

theorem spell_keyword (p : Predefined) {r : List Char} (hr : breaks r = true) :
    spell (p.keyword.toList ++ r) = (.ident, p.keyword) :: spell r := by
  have hkind : nameKind p.keyword.toList = .ident := by cases p <;> decide
  rw [spell_name (isNameText_keyword p) hr, hkind, String.ofList_toList]

theorem IsWord.spell {t : String} (h : IsWord t) {r : List Char}
    (hr : breaks r = true) : Token.spell (t.toList ++ r) = (.ident, t) :: Token.spell r := by
  rw [spell_name h.name hr, h.kind, String.ofList_toList]

theorem toList_textOfSegment (comma : String) (s : Segment) :
    ∃ more, (textOfSegment comma s).toList = s.ident.toList ++ more := by
  obtain ⟨ident, args, span⟩ := s
  cases args with
  | nil => exact ⟨[], (List.append_nil _).symm⟩
  | cons a as =>
    simp only [textOfSegment, String.toList_append, List.append_assoc]
    exact ⟨_, rfl⟩

/-- The text of a name begins with the first identifier. -/
theorem toList_segmentTexts (comma : String) {segs : List Segment} (hne : segs ≠ []) :
    ∃ s ∈ segs, ∃ more,
      (joinWith "." (segmentTexts comma segs)).toList = s.ident.toList ++ more := by
  cases segs with
  | nil => exact absurd rfl hne
  | cons s segs =>
    obtain ⟨more, hmore⟩ := toList_joinWith_cons "." (textOfSegment comma s)
      (segmentTexts comma segs)
    obtain ⟨more', hmore'⟩ := toList_textOfSegment comma s
    exact ⟨s, List.mem_cons_self, more' ++ more,
      by rw [segmentTexts, hmore, hmore', List.append_assoc]⟩

/-- No operator starts with a `<` in front of a type. -/
theorem Printable.spell_lt {t : TypeRef} (h : t.Printable) (r : List Char) :
    spell ('<' :: ((textWith comma t).toList ++ r)) =
      (.lt, "<") :: spell ((textWith comma t).toList ++ r) := by
  induction h generalizing r with
  | predefined p span => exact spell_lt_name (isNameText_keyword p) r
  | @named fromGlobal segs span hne hnames hplain hargs ih =>
    obtain ⟨s, hs, more, hmore⟩ := toList_segmentTexts comma hne
    cases fromGlobal with
    | true =>
      simp only [textWith, if_true, String.toList_append, List.append_assoc]
      exact spell_lt_name (show isNameText "global".toList = true by decide) ("::".toList ++ _)
    | false =>
      simp only [textWith, Bool.false_eq_true, if_false, String.empty_append, hmore,
        List.append_assoc]
      exact spell_lt_name (hnames s hs).name _
  | array helement hpos hrank ih =>
    simp only [textWith, String.toList_append, List.append_assoc]
    exact ih _
  | nullable hinner hsingle ih =>
    simp only [textWith, String.toList_append, List.append_assoc]
    exact ih _
  | tuple hne helements ih =>
    simp only [textWith, String.toList_append, List.append_assoc]
    exact Token.spell_lt (c := '(') ⟨by decide, by decide⟩ _

theorem spell_segment (hcomma : comma = "," ∨ comma = ", ") {s : Segment}
    (hname : IsWord s.ident) (hprintable : ∀ a ∈ s.args, a.Printable)
    (hargs : ∀ a ∈ s.args, ∀ r, Closes r →
      spell ((textWith comma a).toList ++ r) = tokens a ++ spell r) {r : List Char}
    (hr : breaks r = true) :
    spell ((textOfSegment comma s).toList ++ r) = tokensOfSegment s ++ spell r := by
  obtain ⟨ident, args, span⟩ := s
  simp only [Segment.ident, Segment.args] at hname hprintable hargs
  cases args with
  | nil => exact hname.spell hr
  | cons a as =>
    have hlist := spell_joinWith hargs (fun _ _ _ ↦ spell_comma hcomma _) (closes_comma hcomma)
      (List.cons_ne_nil a as) (r := '>' :: r) ⟨rfl, by simp⟩
    have hopen :
        spell ('<' :: ((joinWith comma ((a :: as).map (textWith comma))).toList ++ '>' :: r)) =
        (.lt, "<") :: spell ((joinWith comma ((a :: as).map (textWith comma))).toList ++
          '>' :: r) := by
      obtain ⟨more, hmore⟩ :=
        toList_joinWith_cons comma (textWith comma a) (as.map (textWith comma))
      rw [List.map_cons, hmore, List.append_assoc]
      exact (hprintable a List.mem_cons_self).spell_lt _
    have htext : (textOfSegment comma (.mk ident (a :: as) span)).toList ++ r =
        ident.toList ++ '<' :: ((joinWith comma ((a :: as).map (textWith comma))).toList ++
          '>' :: r) := by
      simp [textOfSegment, textEach_eq_map]
    rw [htext, hname.spell (by rfl), hopen, hlist, spell_gt, tokensOfSegment, tokensEach_eq_map]
    simp

theorem spell_brackets (n : Nat) (r : List Char) :
    spell ('[' :: (List.replicate n ',' ++ ']' :: r)) =
      (.lbracket, "[") :: (List.replicate n (.comma, ",") ++ (.rbracket, "]") :: spell r) := by
  rw [spell_lbracket]
  congr 1
  induction n with
  | zero => exact spell_rbracket r
  | succ n ih =>
    rw [List.replicate_succ, List.replicate_succ, List.cons_append, List.cons_append, ← ih,
      spell_commaMark]

/-- The text of a reference spells its tokens. -/
theorem Printable.spell_text (hcomma : comma = "," ∨ comma = ", ") {t : TypeRef} (h : t.Printable)
    {r : List Char} (hr : breaks r = true)
    (hquestion : ∀ i span, t = .nullable i span → ∀ c ∈ r.head?, c ≠ '?' ∧ c ≠ '.') :
    spell ((textWith comma t).toList ++ r) = tokens t ++ spell r := by
  induction h generalizing r with
  | predefined p span => exact spell_keyword p hr
  | @named fromGlobal segs span hne hnames hplain hargs ih =>
    have hsegs : spell ((joinWith "." (segs.map (textOfSegment comma))).toList ++ r) =
        [(.dot, ".")].intercalate (segs.map tokensOfSegment) ++ spell r := by
      refine spell_joinWith (fun s hs r (hr : breaks r = true) ↦ ?_) (fun s hs r ↦ ?_)
        (fun _ ↦ rfl) hne hr
      · exact spell_segment hcomma (hnames s hs) (hargs s hs)
          (fun a ha r hr ↦ ih s hs a ha hr.1 fun _ _ _ ↦ hr.2) hr
      · obtain ⟨more, hmore⟩ := toList_textOfSegment comma s
        rw [hmore, List.append_assoc]
        exact spell_dot_name (hnames s hs).name _
    cases fromGlobal with
    | true =>
      have htext : (textWith comma (.named true segs span)).toList ++ r =
          "global".toList ++ ':' :: ':' :: ((joinWith "." (segs.map (textOfSegment comma))).toList
            ++ r) := by
        simp [textWith, segmentTexts_eq_map]
      rw [htext, spell_name (by decide) (by rfl), spell_doubleColon, hsegs, tokens,
        segmentTokens_eq_map]
      rfl
    | false => simpa [textWith, tokens, segmentTexts_eq_map, segmentTokens_eq_map] using hsegs
  | @array e rank span helement hpos hrank ih =>
    simp only [textWith, tokens, String.toList_append, List.append_assoc, String.toList_ofList]
    rw [ih (by rfl) (fun _ _ _ ↦ by simp)]
    exact congrArg _ ((spell_brackets (rank - 1) r).trans (by simp))
  | @nullable i span hinner hsingle ih =>
    simp only [textWith, tokens, String.toList_append, List.append_assoc]
    rw [ih (by rfl) (fun j s hj ↦ absurd hj (hsingle j s))]
    exact congrArg _ (spell_question (hquestion i span rfl))
  | @tuple es span hne helements ih =>
    have hlist := spell_joinWith (fun e he r (hr : Closes r) ↦ ih e he hr.1 fun _ _ _ ↦ hr.2)
      (fun _ _ _ ↦ spell_comma hcomma _) (closes_comma hcomma) hne (r := ')' :: r) ⟨rfl, by simp⟩
    have htext : (textWith comma (.tuple es span)).toList ++ r =
        '(' :: ((joinWith comma (es.map (textWith comma))).toList ++ ')' :: r) := by
      simp [textWith, textEach_eq_map]
    rw [htext, spell_lparen, hlist, spell_rparen, tokens, tokensEach_eq_map]
    simp

end TypeRef
end Companion
