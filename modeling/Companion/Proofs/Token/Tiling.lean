import Companion.Proofs.Syntax.Outline
import Companion.Proofs.Token.Delimiters
import Companion.Proofs.Token.Located

/-!
Tokens tile their text. Whatever a source is, as long as offsets reach to its end, its tokens stand
in it one behind the other, each between two of its characters and none of them empty but the end of
the file, which is the last; and what stands between two tokens, or in front of the first, is white
space, comments and directives.
-/

set_option autoImplicit false
set_option relaxedAutoImplicit false

namespace Companion.Token

open Lexeme

/-! ### Gaps -/

/-- Text in front of `behind` that is made of white space, comments and directives. A line comment
or directive goes on to the end of its line, a block comment to where it is first closed. -/
inductive Gap (behind : List Char) : List Char → Prop
  | nil : Gap behind []
  | space {c : Char} {gap : List Char} (hspace : isSkipped c = true) (h : Gap behind gap) :
      Gap behind (c :: gap)
  | lineComment {line gap : List Char} (hline : '\n' ∉ line)
      (hend : ∀ d ∈ (gap ++ behind).head?, d = '\n') (h : Gap behind gap) :
      Gap behind ('/' :: '/' :: (line ++ gap))
  | directive {line gap : List Char} (hline : '\n' ∉ line)
      (hend : ∀ d ∈ (gap ++ behind).head?, d = '\n') (h : Gap behind gap) :
      Gap behind ('#' :: (line ++ gap))
  | blockComment {inside gap : List Char} (hfirst : ¬ ['*', '/'] <:+: inside ++ ['*'])
      (h : Gap behind gap) : Gap behind ('/' :: '*' :: (inside ++ ('*' :: '/' :: gap)))

theorem Gap.spaces {behind spaces gap : List Char} (hspaces : ∀ c ∈ spaces, isSkipped c = true)
    (h : Gap behind gap) : Gap behind (spaces ++ gap) := by
  induction spaces with
  | nil => exact h
  | cons c spaces ih =>
    obtain ⟨hc, hspaces⟩ := List.forall_mem_cons.mp hspaces
    exact .space hc (ih hspaces)

/-- A line in front of where it ends. -/
theorem restOfLine_spec (cs : List Char) : '\n' ∉ cs.take (restOfLine cs) ∧
    ∀ d ∈ (cs.drop (restOfLine cs)).head?, d = '\n' :=
  ⟨fun h ↦ by simpa using of_mem_take_run h, fun _ h ↦ by simpa using of_mem_head_drop_run h⟩

/-- Only white space, a slash and a number sign begin what is no token. -/
theorem begins_of_scan {c : Char} {cs : List Char} {t : Trivia}
    (h : (scan c cs).1 = .trivia t) : isSkipped c = true ∨ c = '/' ∨ c = '#' := by
  revert h
  fun_cases scan c cs
  case case1 hskip => exact fun _ ↦ .inl hskip
  case case4 => exact fun _ ↦ .inr (.inl rfl)
  case case5 => exact fun _ ↦ .inr (.inr rfl)
  case case6 =>
    fun_cases quotedText cs
    case case1 => exact fun h ↦ absurd h (raw_ne_trivia _ _ _ _)
    all_goals exact fun h ↦ by cases h
  case case7 => fun_cases character cs <;> exact fun h ↦ by cases h
  case case8 => fun_cases escaped cs <;> exact fun h ↦ by cases h
  case case9 =>
    fun_cases dollar cs
    case case1 => exact fun h ↦ absurd h (raw_ne_trivia _ _ _ _)
    all_goals exact fun h ↦ by cases h
  case case10 => fun_cases point cs <;> exact fun h ↦ by cases h
  case case11 => exact fun h ↦ absurd h (symbol_ne_trivia _ _ _)
  all_goals exact fun h ↦ by cases h

/-- What is read and is no token makes a gap longer. -/
theorem Gap.of_scan {c : Char} {cs : List Char} {t : Trivia} (h : (scan c cs).1 = .trivia t)
    {gap behind : List Char} (hrest : cs.drop (scan c cs).2 = gap ++ behind)
    (hgap : Gap behind gap) : Gap behind (c :: cs.take (scan c cs).2 ++ gap) := by
  by_cases hskip : isSkipped c = true
  · rw [scan_of_isSkipped hskip]
    refine .spaces (fun d hd ↦ ?_) hgap
    rcases List.mem_cons.mp hd with rfl | hd
    · exact hskip
    · exact of_mem_take_run hd
  rcases begins_of_scan h with hskip' | rfl | rfl
  · exact absurd hskip' hskip
  · rw [show scan '/' cs = slash cs from rfl] at h hrest ⊢
    revert h hrest
    fun_cases slash cs with
    | case1 rest =>
      intro _ hrest
      obtain ⟨hline, hend⟩ := restOfLine_spec rest
      rw [Nat.add_comm, List.drop_succ_cons] at hrest
      rw [Nat.add_comm, List.take_succ_cons, List.cons_append, List.cons_append]
      exact .lineComment hline (hrest ▸ hend) hgap
    | case2 rest n hfound =>
      intro _ hrest
      obtain ⟨inside, back, rfl, rfl, hfirst⟩ := exists_of_indexOf? (by simp) hfound
      have hcut : inside ++ ['*', '/'] ++ back = inside ++ (['*', '/'] ++ back) :=
        List.append_assoc _ _ _
      have hlength : (inside ++ ['*', '/']).length = inside.length + 2 := List.length_append
      rw [List.drop_succ_cons, ← hcut, ← hlength, List.drop_left] at hrest
      rw [List.take_succ_cons, ← hcut, ← hlength, List.take_left]
      simpa using Gap.blockComment hfirst hgap
    | case3 => exact fun h ↦ by cases h
    | case4 => exact fun h ↦ absurd h (symbol_ne_trivia _ _ _)
  · rw [show scan '#' cs = (.trivia .directive, restOfLine cs) from rfl] at hrest ⊢
    obtain ⟨hline, hend⟩ := restOfLine_spec cs
    exact .directive hline (hrest ▸ hend) hgap

/-! ### Tokens with gaps between them -/

/-- Behind `offset` bytes a text goes on as the tokens, with a gap in front of each of them. -/
inductive Spaced : Nat → List Char → List Token → Prop
  | done {offset : Nat} {gap : List Char} (hgap : Gap [] gap) :
      Spaced offset gap [endAt (offset + Text.byteLength gap)]
  | token {offset start : Nat} {gap text rest : List Char} {k : Kind} {ts : List Token}
      (hgap : Gap (text ++ rest) gap) (hstart : offset + Text.byteLength gap = start)
      (htext : text ≠ []) (hkind : k ≠ .eof)
      (h : Spaced (start + Text.byteLength text) rest ts) :
      Spaced offset (gap ++ (text ++ rest))
        (⟨k, ⟨start, start + Text.byteLength text⟩, String.ofList text⟩ :: ts)

theorem Spaced.cons_trivia {c : Char} {cs : List Char} {t : Trivia}
    (h : (scan c cs).1 = .trivia t) {offset : Nat} {ts : List Token}
    (hrest : Spaced (offset + Text.byteLength (c :: cs.take (scan c cs).2))
      (cs.drop (scan c cs).2) ts) : Spaced offset (c :: cs) ts := by
  have hwhole : c :: cs = c :: cs.take (scan c cs).2 ++ cs.drop (scan c cs).2 := by simp
  have hlonger := @Gap.of_scan c cs t h
  generalize cs.drop (scan c cs).2 = rest at hrest hwhole hlonger
  rw [hwhole]
  cases hrest with
  | done hgap =>
    rw [Nat.add_assoc, ← Text.byteLength_append]
    exact .done (hlonger (List.append_nil _).symm hgap)
  | token hgap hstart htext hkind hts =>
    rw [← List.append_assoc]
    refine .token (hlonger rfl hgap) ?_ htext hkind hts
    rw [Text.byteLength_append, ← Nat.add_assoc, hstart]

theorem spaced_tokensFrom (offset : Nat) (cs : List Char)
    (hsize : offset + Text.byteLength cs ≤ Span.maxOffset) :
    Spaced offset cs (tokensFrom offset cs ++ [endAt (offset + Text.byteLength cs)]) := by
  induction hn : cs.length using Nat.strongRecOn generalizing cs offset with
  | ind n ih =>
    cases cs with
    | nil => exact .done .nil
    | cons c cs =>
      subst hn
      have hwhole : Text.byteLength (c :: cs.take (scan c cs).2) +
          Text.byteLength (cs.drop (scan c cs).2) = Text.byteLength (c :: cs) := by
        rw [← Text.byteLength_append, List.cons_append, List.take_append_drop]
      have hrest := ih _ (by simp only [List.length_drop, List.length_cons]; omega)
        (offset + Text.byteLength (c :: cs.take (scan c cs).2)) (cs.drop (scan c cs).2) (by omega)
        rfl
      rw [Nat.add_assoc, hwhole] at hrest
      rw [tokensFrom_cons]
      cases hform : (scan c cs).1 with
      | trivia t => exact .cons_trivia hform hrest
      | token k =>
        have hkind : k ≠ .eof := fun heof ↦ scan_ne_eof c cs (by rw [hform, heof])
        have hgap : Gap (c :: cs.take (scan c cs).2 ++ cs.drop (scan c cs).2) [] := .nil
        have hspaced := Spaced.token hgap (Nat.add_zero offset) (List.cons_ne_nil c _) hkind hrest
        rw [List.nil_append, List.cons_append, List.take_append_drop] at hspaced
        simp only [locate]
        rwa [Span.ofRange_of_le (Nat.le_add_right offset _) (by omega)]

/-! ### Tiling -/

/-- The text between two places of a text is a gap. -/
def IsGap (cs : List Char) (start stop : Nat) : Prop :=
  ∃ front gap behind, cs = front ++ (gap ++ behind) ∧ Text.byteLength front = start ∧
    start + Text.byteLength gap = stop ∧ Gap behind gap

/-- From a place of a text on, tokens and gaps make up the text. -/
structure Tiles (cs : List Char) (start : Nat) (ts : List Token) : Prop where
  /-- The last token is the end of the file, and no other is. -/
  ended : ∃ front, ts = front ++ [endAt (Text.byteLength cs)] ∧ ∀ t ∈ front, t.kind ≠ .eof
  /-- Each token lies between two characters and has the text that stands there. -/
  fits : ∀ t ∈ ts, t.span.Fits cs ∧ Text.between t.span.start t.span.stop cs = some t.text.toList
  nonempty : ∀ t ∈ ts, t.kind ≠ .eof → t.span.start < t.span.stop
  start_le : ∀ t ∈ ts, start ≤ t.span.start
  ordered : ts.Pairwise fun t u ↦ t.span.start < u.span.start ∧ t.span.stop ≤ u.span.start
  /-- The place where a token ends, or the text starts, and the start of the next one. -/
  gaps : ∀ g ∈ (start :: ts.map (·.span.stop)).zip (ts.map (·.span.start)), IsGap cs g.1 g.2

theorem endAt_of_le {offset : Nat} (h : offset ≤ Span.maxOffset) :
    endAt offset = ⟨.eof, .point offset, ""⟩ := by
  rw [endAt, Span.ofRange_of_le (Nat.le_refl _) h, Span.point]

/-- At the end of a text stands a gap in front of the end of the file. -/
theorem tiles_endAt {front gap : List Char} (hgap : Gap [] gap)
    (hsize : Text.byteLength (front ++ gap) ≤ Span.maxOffset) :
    Tiles (front ++ gap) (Text.byteLength front) [endAt (Text.byteLength (front ++ gap))] := by
  have hlength := Text.byteLength_append front gap
  have hfits : Text.between (Text.byteLength (front ++ gap)) (Text.byteLength (front ++ gap))
      (front ++ gap) = some [] := by
    simpa using Text.between_append (front ++ gap) [] []
  refine ⟨⟨[], rfl, by simp⟩, ?_, ?_, ?_, List.pairwise_singleton _ _, ?_⟩
  all_goals rw [endAt_of_le hsize]
  · refine List.forall_mem_singleton.mpr ⟨.of_cuts (Nat.le_refl _) ?_ ?_, hfits⟩
    · exact Text.isCut_byteLength _
    · exact Text.isCut_byteLength _
  · exact List.forall_mem_singleton.mpr fun hkind ↦ absurd rfl hkind
  · refine List.forall_mem_singleton.mpr ?_
    show Text.byteLength front ≤ Text.byteLength (front ++ gap)
    omega
  · refine List.forall_mem_singleton.mpr ⟨front, gap, [], ?_, rfl, hlength.symm, hgap⟩
    rw [List.append_nil]

/-- One more gap and one more token stand in front of tokens that make up the rest of a text. -/
theorem Tiles.cons {front gap text rest : List Char} {k : Kind} {start : Nat} {ts : List Token}
    (h : Tiles (front ++ (gap ++ (text ++ rest))) (start + Text.byteLength text) ts)
    (hgap : Gap (text ++ rest) gap) (hstart : Text.byteLength front + Text.byteLength gap = start)
    (htext : text ≠ []) (hkind : k ≠ .eof) :
    Tiles (front ++ (gap ++ (text ++ rest))) (Text.byteLength front)
      (⟨k, ⟨start, start + Text.byteLength text⟩, String.ofList text⟩ :: ts) := by
  have hpos : 0 < Text.byteLength text :=
    Nat.lt_of_lt_of_le (List.length_pos_of_ne_nil htext) (Text.length_le_byteLength text)
  have hfront : Text.byteLength (front ++ gap) = start := by rw [Text.byteLength_append, hstart]
  have hwhole : front ++ (gap ++ (text ++ rest)) = front ++ gap ++ (text ++ rest) :=
    (List.append_assoc _ _ _).symm
  obtain ⟨before, rfl, hbefore⟩ := h.ended
  refine ⟨⟨_ :: before, rfl, List.forall_mem_cons.mpr ⟨hkind, hbefore⟩⟩, ?_, ?_, ?_, ?_, ?_⟩
  · refine List.forall_mem_cons.mpr ⟨⟨.of_cuts (Nat.le_add_right _ _) ?_ ?_, ?_⟩, h.fits⟩
    · exact ⟨front ++ gap, text ++ rest, hwhole, hfront⟩
    · exact ⟨front ++ gap ++ text, rest, by rw [hwhole, List.append_assoc _ text],
        by rw [Text.byteLength_append, hfront]⟩
    · rw [hwhole, ← hfront, String.toList_ofList]
      exact Text.between_append _ _ _
  · exact List.forall_mem_cons.mpr ⟨fun _ ↦ Nat.lt_add_of_pos_right hpos, h.nonempty⟩
  · refine List.forall_mem_cons.mpr ⟨hstart ▸ Nat.le_add_right _ _, fun t ht ↦ ?_⟩
    have hle := h.start_le t ht
    omega
  · refine List.pairwise_cons.mpr ⟨fun t ht ↦ ?_, h.ordered⟩
    have hle := h.start_le t ht
    exact ⟨by dsimp only; omega, hle⟩
  · refine List.forall_mem_cons.mpr ⟨?_, h.gaps⟩
    exact ⟨front, gap, text ++ rest, rfl, rfl, hstart, hgap⟩

theorem Spaced.tiles {offset : Nat} {cs : List Char} {ts : List Token} (h : Spaced offset cs ts)
    {front : List Char} (hoffset : Text.byteLength front = offset)
    (hsize : Text.byteLength (front ++ cs) ≤ Span.maxOffset) : Tiles (front ++ cs) offset ts := by
  induction h generalizing front with
  | done hgap =>
    rw [← hoffset, ← Text.byteLength_append]
    exact tiles_endAt hgap hsize
  | @token offset start gap text rest k ts hgap hstart htext hkind _ ih =>
    subst hoffset
    have hbehind : Text.byteLength (front ++ gap ++ text) = start + Text.byteLength text := by
      rw [Text.byteLength_append, Text.byteLength_append, hstart]
    have hwhole : front ++ gap ++ text ++ rest = front ++ (gap ++ (text ++ rest)) := by
      rw [List.append_assoc, List.append_assoc]
    have htiles := ih hbehind (hwhole ▸ hsize)
    rw [hwhole] at htiles
    exact htiles.cons hgap hstart htext hkind

/-- The tokens of a source and the gaps between them make up its text, whatever it is, as long as
offsets reach to its end. -/
theorem tiles_ofSource {source : String}
    (hsize : Text.byteLength source.toList ≤ Span.maxOffset) :
    Tiles source.toList 0 (ofSource source) := by
  have hspaced := spaced_tokensFrom 0 source.toList (by rwa [Nat.zero_add])
  have hfront : Text.byteLength [] = 0 := rfl
  rw [Nat.zero_add] at hspaced
  exact hspaced.tiles hfront hsize

/-- The tokens of a source below four gigabytes tile it, and so do their places as numbers of 32
bits, of which none is clamped. -/
theorem tiles_of_byteLength_le (source : String)
    (hsize : Text.byteLength source.toList ≤ Span.maxOffset) :
    Tiles source.toList 0 (ofSource source) ∧
      ∀ t ∈ ofSource source, Span.ofRange t.span.start t.span.stop = t.span := by
  refine ⟨tiles_ofSource hsize, fun t ht ↦ ?_⟩
  have hfits := ((tiles_ofSource hsize).fits t ht).1
  exact Span.ofRange_of_le hfits.start_le_stop (hfits.stop_le.trans hsize)

/-- A directive, comments that hold each other's marks, a letter of two bytes, a literal that is cut
off by the end of its line, and a comment that is cut off by the end of the text. -/
private def brokenText : String := "#if /*\n/* // */\u00e9=\"//\n\t /*/ x"

theorem tiles_brokenText :
    (ofSource brokenText).map (fun t ↦ (t.kind, t.span.start, t.span.stop)) =
        [(.ident, 15, 17), (.eq, 17, 18), (.error, 18, 21), (.error, 24, 29), (.eof, 29, 29)] ∧
      Tiles brokenText.toList 0 (ofSource brokenText) ∧
      ∀ t ∈ ofSource brokenText, Span.ofRange t.span.start t.span.stop = t.span :=
  ⟨by decide +kernel, tiles_of_byteLength_le brokenText (by decide)⟩

end Companion.Token
