import Companion.Proofs.Syntax.Outline
import Companion.Text.Lines
import Mathlib.Data.List.DropRight

/-!
Lines and columns by scanning. A line table finds the line of an offset among the starts of lines,
and the column by measuring from there. The plain way is to count the line feeds in front of the
offset, and the characters behind the last of them; and lines are the pieces between line feeds.
Both ways agree for every text as far as offsets reach and every offset that does not cut a
character in two, except at the end of a text that is as long as can be and has only line feeds in
it, or none: the number of the last line, or of the last column, is one that does not fit in 32 bits
(`scans_ofSource_iff`).
-/

set_option autoImplicit false
set_option relaxedAutoImplicit false

namespace Companion

namespace Text

/-- What stands up to the last line feed, with that one. -/
def wholeLines (cs : List Char) : List Char := cs.rdropWhile (· ≠ '\n')

/-- What stands behind the last line feed. -/
def lastLine (cs : List Char) : List Char := cs.rtakeWhile (· ≠ '\n')

theorem wholeLines_append_lastLine (cs : List Char) : wholeLines cs ++ lastLine cs = cs :=
  List.rdropWhile_append_rtakeWhile

theorem newline_not_mem_lastLine (cs : List Char) : '\n' ∉ lastLine cs := by
  intro h
  simpa using List.mem_rtakeWhile_imp h

theorem lastLine_append (cs : List Char) {more : List Char} (h : '\n' ∉ more) :
    lastLine (cs ++ more) = lastLine cs ++ more := by
  induction more using List.reverseRecOn with
  | nil => simp
  | append_singleton more c ih =>
    simp only [List.mem_append, List.mem_singleton, not_or] at h
    have hc : decide (c ≠ '\n') = true := decide_eq_true (Ne.symm h.2)
    unfold lastLine at ih ⊢
    rw [← List.append_assoc, List.rtakeWhile_concat_pos _ _ c hc, ih h.1, List.append_assoc]

/-- Text that is empty or ends with a line feed, so that a line starts behind it. -/
def EndsLine (cs : List Char) : Prop := ∀ c ∈ cs.getLast?, c = '\n'

theorem endsLine_concat (cs : List Char) : EndsLine (cs ++ ['\n']) := by
  intro c hc
  rw [List.getLast?_concat] at hc
  exact (Option.some.inj hc).symm

theorem endsLine_wholeLines (cs : List Char) : EndsLine (wholeLines cs) := by
  intro c hc
  obtain ⟨hne, rfl⟩ := List.mem_getLast?_eq_getLast hc
  have hlast := List.rdropWhile_last_not (fun c ↦ decide (c ≠ '\n')) cs hne
  rw [decide_eq_true_eq, not_not] at hlast
  exact hlast

theorem EndsLine.cons {c : Char} {cs : List Char} (h : EndsLine cs) (hne : cs ≠ []) :
    EndsLine (c :: cs) := by
  intro d hd
  rw [List.getLast?_cons_of_ne_nil hne] at hd
  exact h d hd

theorem EndsLine.eq_nil {cs : List Char} (h : EndsLine cs) (hcount : cs.count '\n' = 0) :
    cs = [] := by
  by_contra hne
  have hlast := h _ (List.getLast?_eq_some_getLast hne)
  have hmem := List.getLast_mem hne
  rw [hlast] at hmem
  exact List.count_eq_zero.mp hcount hmem

/-- A piece of a text that stands between two line feeds, or between one and an end of the text. -/
structure IsLine (cs front piece back : List Char) : Prop where
  eq_append : cs = front ++ (piece ++ back)
  starts : EndsLine front
  whole : '\n' ∉ piece
  stops : ∀ c ∈ back.head?, c = '\n'

/-- A character more in front of the line. -/
theorem IsLine.cons {cs front piece back : List Char} {c : Char} (h : IsLine cs front piece back)
    (hstarts : EndsLine (c :: front)) : IsLine (c :: cs) (c :: front) piece back :=
  ⟨by rw [h.eq_append, List.cons_append], hstarts, h.whole, h.stops⟩

/-- A character more at the start of the first line. -/
theorem IsLine.cons_piece {cs piece back : List Char} {c : Char} (h : IsLine cs [] piece back)
    (hc : c ≠ '\n') : IsLine (c :: cs) [] (c :: piece) back :=
  ⟨by rw [h.eq_append]; rfl, h.starts, List.not_mem_cons_of_ne_of_not_mem (Ne.symm hc) h.whole,
    h.stops⟩

/-- The piece of a number stands behind as many line feeds. -/
theorem exists_isLine {cs piece : List Char} {n : Nat} (h : (cs.splitOn '\n')[n]? = some piece) :
    ∃ front back, IsLine cs front piece back ∧ front.count '\n' = n := by
  induction cs generalizing piece n with
  | nil =>
    rw [List.splitOn_nil] at h
    obtain ⟨rfl, rfl⟩ : n = 0 ∧ [] = piece := by
      cases n with
      | zero => exact ⟨rfl, Option.some.inj h⟩
      | succ n => cases h
    exact ⟨[], [], ⟨rfl, nofun, List.not_mem_nil, nofun⟩, rfl⟩
  | cons c cs ih =>
    rw [List.splitOn_cons_eq_if_modifyHead] at h
    by_cases hc : c = '\n'
    · subst hc
      rw [if_pos (beq_self_eq_true _)] at h
      cases n with
      | zero =>
        obtain rfl : [] = piece := Option.some.inj h
        refine ⟨[], '\n' :: cs, ⟨rfl, nofun, List.not_mem_nil, fun d hd ↦ ?_⟩, rfl⟩
        exact (Option.some.inj hd).symm
      | succ n =>
        obtain ⟨front, back, hline, hcount⟩ := ih h
        have hstarts : EndsLine ('\n' :: front) := by
          by_cases hfront : front = []
          · subst hfront
            exact endsLine_concat []
          · exact hline.starts.cons hfront
        exact ⟨'\n' :: front, back, hline.cons hstarts, by rw [List.count_cons_self, hcount]⟩
    · rw [if_neg (by simpa using hc), List.getElem?_modifyHead] at h
      cases n with
      | zero =>
        obtain ⟨rest, hrest, rfl⟩ := Option.map_eq_some_iff.mp h
        obtain ⟨front, back, hline, hcount⟩ := ih hrest
        obtain rfl := hline.starts.eq_nil hcount
        exact ⟨[], back, hline.cons_piece hc, rfl⟩
      | succ n =>
        obtain ⟨front, back, hline, hcount⟩ := ih h
        have hfront : front ≠ [] := by
          rintro rfl
          cases hcount
        exact ⟨c :: front, back, hline.cons (hline.starts.cons hfront),
          by rw [List.count_cons_of_ne hc, hcount]⟩

end Text

open Text

namespace LineTable

/-! ### Starts of lines -/

theorem startsAfter_append (offset : Nat) (a b : List Char) :
    startsAfter offset (a ++ b) =
      startsAfter offset a ++ startsAfter (offset + byteLength a) b := by
  induction a generalizing offset with
  | nil => rfl
  | cons c a ih =>
    simp only [List.cons_append, startsAfter, byteLength_cons, ← Nat.add_assoc, ih]
    split <;> rfl

theorem length_startsAfter (offset : Nat) (cs : List Char) :
    (startsAfter offset cs).length = cs.count '\n' := by
  induction cs generalizing offset with
  | nil => rfl
  | cons c cs ih =>
    by_cases h : c = '\n'
    · simp [startsAfter, h, ih]
    · simp [startsAfter, h, ih]

/-- A line that starts behind a line feed starts in the text or at its end. -/
theorem bounds_of_mem_startsAfter {offset start : Nat} {cs : List Char}
    (hsize : offset + byteLength cs ≤ Span.maxOffset) (h : start ∈ startsAfter offset cs) :
    offset < start ∧ start ≤ offset + byteLength cs := by
  induction cs generalizing offset with
  | nil => exact absurd h List.not_mem_nil
  | cons c cs ih =>
    have hpos := Char.utf8Size_pos c
    rw [byteLength_cons, ← Nat.add_assoc] at hsize ⊢
    have hrest : start ∈ startsAfter (offset + c.utf8Size) cs →
        offset < start ∧ start ≤ offset + c.utf8Size + byteLength cs := by
      intro hstart
      have hle := ih hsize hstart
      omega
    simp only [startsAfter] at h
    split at h
    · rcases List.mem_cons.mp h with rfl | hstart
      · rw [Nat.min_eq_left ((Nat.le_add_right _ _).trans hsize)]
        omega
      · exact hrest hstart
    · exact hrest h

/-- As many lines start behind the first one, up to an offset, as there are line feeds in front of
it. -/
theorem countP_startsAfter {offset : Nat} {front back : List Char}
    (hsize : offset + byteLength (front ++ back) ≤ Span.maxOffset) :
    (startsAfter offset (front ++ back)).countP (· ≤ offset + byteLength front) =
      front.count '\n' := by
  rw [byteLength_append, ← Nat.add_assoc] at hsize
  have hfront : (startsAfter offset front).countP (· ≤ offset + byteLength front) =
      (startsAfter offset front).length := by
    rw [List.countP_eq_length]
    intro start hstart
    have hsize' := (Nat.le_add_right _ _).trans hsize
    exact decide_eq_true (bounds_of_mem_startsAfter hsize' hstart).2
  have hback : (startsAfter (offset + byteLength front) back).countP
      (· ≤ offset + byteLength front) = 0 := by
    rw [List.countP_eq_zero]
    intro start hstart hle
    exact Nat.not_lt.mpr (of_decide_eq_true hle) (bounds_of_mem_startsAfter hsize hstart).1
  rw [startsAfter_append, List.countP_append, hfront, hback, length_startsAfter, Nat.add_zero]

/-! ### Numbers of 32 bits -/

section Numbers

variable {n : Nat}

theorem toNat_numberAfter (h : n ≤ Span.maxOffset) :
    (numberAfter n).toNat = if n = Span.maxOffset then 0 else n + 1 := by
  rw [numberAfter, if_pos h, UInt32.toNat_add, UInt32.toNat_ofNat']
  unfold Span.maxOffset at h ⊢
  split_ifs with hn
  · subst hn
    rfl
  · have hlt : n + 1 < 2 ^ 32 := by omega
    rw [Nat.mod_eq_of_lt (Nat.lt_of_succ_lt hlt), UInt32.toNat_one, Nat.mod_eq_of_lt hlt]

theorem toNat_numberAfter_eq_iff (h : n ≤ Span.maxOffset) :
    (numberAfter n).toNat = n + 1 ↔ n ≠ Span.maxOffset := by
  rw [toNat_numberAfter h]
  split_ifs with hn
  · simp only [hn, ne_eq, not_true]
  · simp only [hn, ne_eq, not_false_iff]

/-- The number that comes before, found by subtraction, is the one that was counted. -/
theorem toNat_numberAfter_sub_one (h : n ≤ Span.maxOffset) : (numberAfter n - 1).toNat = n := by
  rw [numberAfter, if_pos h, UInt32.add_sub_cancel, UInt32.toNat_ofNat']
  unfold Span.maxOffset at h
  exact Nat.mod_eq_of_lt (by omega)

theorem numberAfter_inj {m : Nat} (hm : m ≤ Span.maxOffset) (hn : n ≤ Span.maxOffset)
    (h : (numberAfter m).toNat = (numberAfter n).toNat) : m = n := by
  rw [← toNat_numberAfter_sub_one hm, UInt32.toNat_inj.mp h, toNat_numberAfter_sub_one hn]

end Numbers

variable {source : String} {front back piece : List Char}

theorem count_ofSource (source : String) :
    (ofSource source).count = source.toList.count '\n' + 1 := by
  rw [count, ofSource, List.length_cons, length_startsAfter]

section Reach

variable (hsize : byteLength source.toList ≤ Span.maxOffset)
include hsize

theorem byteLength_front_le (hfront : front <+: source.toList) :
    byteLength front ≤ Span.maxOffset := by
  obtain ⟨back, hsource⟩ := hfront
  rw [← hsource, byteLength_append] at hsize
  exact (Nat.le_add_right _ _).trans hsize

theorem length_front_le (hfront : front <+: source.toList) : front.length ≤ Span.maxOffset :=
  (length_le_byteLength front).trans (byteLength_front_le hsize hfront)

theorem count_front_le (hfront : front <+: source.toList) :
    front.count '\n' ≤ Span.maxOffset :=
  List.count_le_length.trans (length_front_le hsize hfront)

theorem length_lastLine_le (hfront : front <+: source.toList) :
    (lastLine front).length ≤ Span.maxOffset := by
  have hle : (lastLine front).length ≤ front.length := by
    conv_rhs => rw [← wholeLines_append_lastLine front, List.length_append]
    exact Nat.le_add_left _ _
  exact hle.trans (length_front_le hsize hfront)

/-- Behind text that ends with a line feed a line starts, and it is known which one. -/
theorem getElem?_starts (hsource : source.toList = front ++ back) (hfront : EndsLine front) :
    (ofSource source).starts[front.count '\n']? = some (byteLength front) := by
  have hle := byteLength_front_le hsize ⟨back, hsource.symm⟩
  rw [ofSource, hsource]
  rcases List.eq_nil_or_concat front with rfl | ⟨before, c, rfl⟩
  · rfl
  · rw [List.concat_eq_append] at hfront hle ⊢
    obtain rfl : c = '\n' := hfront c (by rw [List.getLast?_concat]; rfl)
    have hcount : (before ++ ['\n']).count '\n' = (startsAfter 0 before).length + 1 := by
      rw [List.count_append, length_startsAfter]
      rfl
    rw [byteLength_append] at hle ⊢
    rw [hcount, List.getElem?_cons_succ, List.append_assoc, startsAfter_append]
    rw [List.getElem?_append_right (Nat.le_refl _), Nat.sub_self, Nat.zero_add]
    exact congrArg some (Nat.min_eq_left hle)

/-! ### Lines and columns -/

theorem lineNumber_front (hfront : front <+: source.toList) :
    (ofSource source).lineNumber (byteLength front) = numberAfter (front.count '\n') := by
  obtain ⟨back, hsource⟩ := hfront
  rw [← hsource, ← Nat.zero_add (byteLength _)] at hsize
  have hcount := countP_startsAfter hsize
  rw [Nat.zero_add] at hcount
  rw [lineNumber, ofSource, ← hsource]
  rw [List.countP_cons_of_pos (by exact decide_eq_true (Nat.zero_le _)), hcount, Nat.add_sub_cancel]

/-- All lines start no later than an offset behind the end. -/
theorem lineNumber_of_le {offset : Nat} (h : byteLength source.toList ≤ offset) :
    (ofSource source).lineNumber offset =
      (ofSource source).lineNumber (byteLength source.toList) := by
  unfold lineNumber
  congr 2
  refine List.countP_congr fun start hstart ↦ ?_
  have hle : start ≤ byteLength source.toList := by
    rcases List.mem_cons.mp hstart with rfl | hstart
    · exact Nat.zero_le _
    · rw [← Nat.zero_add (byteLength _)] at hsize ⊢
      exact (bounds_of_mem_startsAfter hsize hstart).2
  simp only [decide_eq_true_eq]
  exact ⟨fun _ ↦ hle, fun _ ↦ hle.trans h⟩

/-- The position of an offset, from the text in front of it. -/
theorem position_front {offset : Nat} (hfront : front <+: source.toList)
    (hoffset : byteLength front = min offset (byteLength source.toList)) :
    (ofSource source).position source offset =
      ((numberAfter (front.count '\n')).toNat, (numberAfter (lastLine front).length).toNat) := by
  have hline : (ofSource source).lineNumber offset = numberAfter (front.count '\n') := by
    rcases Nat.le_total offset (byteLength source.toList) with hle | hle
    · rw [Nat.min_eq_left hle] at hoffset
      rw [← hoffset, lineNumber_front hsize hfront]
    · rw [Nat.min_eq_right hle] at hoffset
      rw [lineNumber_of_le hsize hle, ← hoffset, lineNumber_front hsize hfront]
  have hnumber : (numberAfter (front.count '\n') - 1).toNat = front.count '\n' :=
    toNat_numberAfter_sub_one (count_front_le hsize hfront)
  obtain ⟨back, hsource⟩ := hfront
  -- the line of the offset starts behind the whole lines in front of it
  have hwhole : source.toList = wholeLines front ++ (lastLine front ++ back) := by
    rw [← List.append_assoc, wholeLines_append_lastLine, hsource]
  have hcount : (wholeLines front).count '\n' = front.count '\n' := by
    conv_rhs => rw [← wholeLines_append_lastLine front, List.count_append,
      List.count_eq_zero.mpr (newline_not_mem_lastLine front), Nat.add_zero]
  have hstart := getElem?_starts hsize hwhole (endsLine_wholeLines front)
  have hlength :
      byteLength front = byteLength (wholeLines front) + byteLength (lastLine front) := by
    rw [← byteLength_append, wholeLines_append_lastLine]
  have hbetween : between (byteLength (wholeLines front)) (byteLength front) source.toList =
      some (lastLine front) := by
    rw [hlength, hwhole, between_append]
  rw [hcount] at hstart
  rw [position, hline, hnumber, hstart, ← hoffset]
  simp only [Option.getD_some, hbetween]

end Reach

/-- Of two beginnings of a text one goes on with the other, so that they are equal if they end on
the same line in the same column. -/
theorem front_unique {front' : List Char} (hfront : front <+: front')
    (hline : front.count '\n' = front'.count '\n')
    (hcolumn : (lastLine front).length = (lastLine front').length) : front = front' := by
  obtain ⟨more, rfl⟩ := hfront
  rw [List.count_append] at hline
  have hmore : '\n' ∉ more := List.count_eq_zero.mp (by omega)
  rw [lastLine_append front hmore, List.length_append] at hcolumn
  obtain rfl : more = [] := List.length_eq_zero_iff.mp (by omega)
  rw [List.append_nil]

/-- No two offsets between characters have the same position. -/
theorem eq_of_position_eq (hsize : byteLength source.toList ≤ Span.maxOffset) {m n : Nat}
    (hm : IsCut source.toList m)
    (hn : IsCut source.toList n)
    (h : (ofSource source).position source m = (ofSource source).position source n) : m = n := by
  have hclamped {k : Nat} (hk : IsCut source.toList k) : k = min k (byteLength source.toList) :=
    (Nat.min_eq_left hk.le_byteLength).symm
  have hmin := hclamped hm
  have hmin' := hclamped hn
  obtain ⟨front, back, hsource, rfl⟩ := hm
  obtain ⟨front', back', hsource', rfl⟩ := hn
  have hfront : front <+: source.toList := ⟨back, hsource.symm⟩
  have hfront' : front' <+: source.toList := ⟨back', hsource'.symm⟩
  rw [position_front hsize hfront hmin, position_front hsize hfront' hmin', Prod.mk.injEq] at h
  have hline := numberAfter_inj (count_front_le hsize hfront) (count_front_le hsize hfront') h.1
  have hcolumn := numberAfter_inj (length_lastLine_le hsize hfront)
    (length_lastLine_le hsize hfront') h.2
  rcases List.prefix_or_prefix_of_prefix hfront hfront' with hle | hle
  · rw [front_unique hle hline hcolumn]
  · rw [front_unique hle hline.symm hcolumn.symm]

/-! ### Texts of lines -/

theorem length_splitOn (cs : List Char) : (cs.splitOn '\n').length = cs.count '\n' + 1 := by
  induction cs with
  | nil => rfl
  | cons c cs ih =>
    rw [List.splitOn_cons_eq_if_modifyHead, List.count_cons]
    split
    · rw [List.length_cons, ih]
    · rw [List.length_modifyHead, ih, Nat.add_zero]

/-- What ends a line is dropped, with all carriage returns in front of it. -/
theorem dropLineEnds_append (hpiece : '\n' ∉ piece) {stop : List Char}
    (hstop : ∀ c ∈ stop, c = '\n') :
    dropLineEnds (piece ++ stop) = piece.rdropWhile (· = '\r') := by
  show (piece ++ stop).rdropWhile (fun c ↦ c = '\n' ∨ c = '\r') = _
  induction stop using List.reverseRecOn with
  | append_singleton stop c ih =>
    obtain ⟨hrest, hc⟩ := List.forall_mem_append.mp hstop
    obtain rfl := List.forall_mem_singleton.mp hc
    rw [← List.append_assoc, List.rdropWhile_concat_pos _ _ _ (by decide), ih hrest]
  | nil =>
    rw [List.append_nil]
    induction piece using List.reverseRecOn with
    | nil => rfl
    | append_singleton piece c ih =>
      rw [List.mem_append, List.mem_singleton, not_or] at hpiece
      rw [List.rdropWhile_concat, List.rdropWhile_concat]
      by_cases hc : c = '\r'
      · subst hc
        exact ih hpiece.1
      · have hne : c ≠ '\n' := Ne.symm hpiece.2
        simp only [hne, hc, or_self, decide_false, Bool.false_eq_true, ↓reduceIte]

/-- The next line starts behind the line feed that ends a line, and the last line ends with the
text. -/
theorem exists_lineEnd (hsize : byteLength source.toList ≤ Span.maxOffset)
    (h : IsLine source.toList front piece back) :
    ∃ stop rest, source.toList = front ++ ((piece ++ stop) ++ rest) ∧ (∀ c ∈ stop, c = '\n') ∧
      (ofSource source).starts[front.count '\n' + 1]?.getD (byteLength source.toList) =
        byteLength front + byteLength (piece ++ stop) := by
  have hpiece : piece.count '\n' = 0 := List.count_eq_zero.mpr h.whole
  cases hback : back with
  | nil =>
    have hsource : source.toList = front ++ piece := by
      rw [h.eq_append, hback, List.append_nil]
    have hlength : (ofSource source).starts.length = front.count '\n' + 1 := by
      have hlines := count_ofSource source
      rw [hsource, List.count_append, hpiece] at hlines
      exact hlines
    refine ⟨[], [], ?_, nofun, ?_⟩
    · rw [hsource, List.append_nil, List.append_nil]
    · rw [List.getElem?_eq_none hlength.le, hsource, byteLength_append, List.append_nil]
      rfl
  | cons c rest =>
    obtain rfl : c = '\n' := h.stops c (by rw [hback]; rfl)
    have hsource : source.toList = front ++ (piece ++ ['\n']) ++ rest := by
      rw [h.eq_append, hback, List.append_assoc, List.append_assoc]
      rfl
    have hends : EndsLine (front ++ (piece ++ ['\n'])) :=
      List.append_assoc front _ _ ▸ endsLine_concat (front ++ piece)
    have hcount : (front ++ (piece ++ ['\n'])).count '\n' = front.count '\n' + 1 := by
      rw [List.count_append, List.count_append, hpiece, Nat.zero_add]
      rfl
    have hnext := getElem?_starts hsize hsource hends
    rw [hcount] at hnext
    refine ⟨['\n'], rest, by rw [hsource, List.append_assoc], by simp, ?_⟩
    rw [hnext, byteLength_append]
    rfl

/-- A line is given without its end. -/
theorem lineText_of_isLine (hsize : byteLength source.toList ≤ Span.maxOffset)
    (h : IsLine source.toList front piece back) :
    (ofSource source).lineText source (front.count '\n' + 1) =
      some (String.ofList (piece.rdropWhile (· = '\r'))) := by
  obtain ⟨stop, rest, hsource, hstop, hnext⟩ := exists_lineEnd hsize h
  have hstart := getElem?_starts hsize h.eq_append h.starts
  have hbetween : between (byteLength front) (byteLength front + byteLength (piece ++ stop))
      source.toList = some (piece ++ stop) := by
    rw [hsource, between_append]
  simp only [lineText, hstart, hnext, hbetween, Option.map_some, dropLineEnds_append h.whole hstop]

/-! ### Agreement with scanning -/

/-- A line table tells what scanning the text tells. -/
structure Scans (source : String) (t : LineTable) : Prop where
  /-- Line and column of an offset are one more than the numbers of line feeds in front of it and of
  characters behind the last of these. An offset past the end counts as the end. -/
  position : ∀ offset front, front <+: source.toList →
    byteLength front = min offset (byteLength source.toList) →
      t.position source offset =
        (front.count '\n' + 1, (front.rtakeWhile (· ≠ '\n')).length + 1)
  /-- Offsets between characters are told apart by line and column. -/
  injective : ∀ m n, IsCut source.toList m → IsCut source.toList n →
    t.position source m = t.position source n → m = n
  count : t.count = source.toList.count '\n' + 1
  /-- The lines are the pieces between line feeds, without carriage returns at their ends. -/
  lineText : ∀ n, t.lineText source n =
    if 1 ≤ n ∧ n ≤ t.count then
      ((source.toList.splitOn '\n')[n - 1]?).map fun piece ↦
        String.ofList (piece.rdropWhile (· = '\r'))
    else none

/-- A text is as long as offsets reach, and all of it is one line, or all of it are line feeds. -/
def IsUnnumbered (cs : List Char) : Prop :=
  cs.length = Span.maxOffset ∧ ('\n' ∉ cs ∨ ∀ c ∈ cs, '\n' = c)

section Reach

variable (hsize : byteLength source.toList ≤ Span.maxOffset)
include hsize

/-- Only the whole text is as long as offsets reach. -/
theorem eq_of_length_front (hfront : front <+: source.toList)
    (hlength : front.length = Span.maxOffset) : front = source.toList := by
  refine hfront.eq_of_length (Nat.le_antisymm hfront.length_le ?_)
  rw [hlength]
  exact (length_le_byteLength _).trans hsize

theorem isUnnumbered_of_count (hfront : front <+: source.toList)
    (hcount : front.count '\n' = Span.maxOffset) : IsUnnumbered source.toList := by
  have hlength : front.length = Span.maxOffset :=
    Nat.le_antisymm (length_front_le hsize hfront) (hcount ▸ List.count_le_length)
  rw [← eq_of_length_front hsize hfront hlength]
  exact ⟨hlength, .inr (List.count_eq_length.mp (hcount.trans hlength.symm))⟩

theorem isUnnumbered_of_length_lastLine (hfront : front <+: source.toList)
    (hlast : (lastLine front).length = Span.maxOffset) : IsUnnumbered source.toList := by
  have hsplit := congrArg List.length (wholeLines_append_lastLine front)
  rw [List.length_append, hlast] at hsplit
  have hle := length_front_le hsize hfront
  have hwhole : wholeLines front = [] := List.length_eq_zero_iff.mp (by omega)
  have hline := wholeLines_append_lastLine front
  rw [hwhole, List.nil_append] at hline
  have hlength : front.length = Span.maxOffset := hline ▸ hlast
  rw [← eq_of_length_front hsize hfront hlength]
  exact ⟨hlength, .inl (hline ▸ newline_not_mem_lastLine front)⟩

/-- At the end of such a text a number does not fit. -/
theorem position_ne_of_isUnnumbered (h : IsUnnumbered source.toList) :
    (ofSource source).position source (byteLength source.toList) ≠
      (source.toList.count '\n' + 1, (lastLine source.toList).length + 1) := by
  obtain ⟨hlength, hline | hline⟩ := h
  · rw [position_front hsize List.prefix_rfl (Nat.min_self _).symm]
    have hlast : lastLine source.toList = source.toList := lastLine_append [] hline
    intro hposition
    refine (toNat_numberAfter_eq_iff (length_lastLine_le hsize List.prefix_rfl)).mp
      (Prod.mk.inj hposition).2 ?_
    rw [hlast, hlength]
  · rw [position_front hsize List.prefix_rfl (Nat.min_self _).symm]
    intro hposition
    refine (toNat_numberAfter_eq_iff (count_front_le hsize List.prefix_rfl)).mp
      (Prod.mk.inj hposition).1 ?_
    rw [List.count_eq_length.mpr hline, hlength]

/-- The table of a text that is not longer than offsets reach tells what scanning the text tells,
unless the text is as long as that and consists of one line or of line feeds. -/
theorem scans_ofSource_iff : (ofSource source).Scans source ↔ ¬ IsUnnumbered source.toList := by
  constructor
  · intro h hlong
    refine position_ne_of_isUnnumbered hsize hlong ?_
    exact h.position _ _ List.prefix_rfl (Nat.min_self _).symm
  intro hshort
  constructor
  case position =>
    intro offset front hfront hoffset
    have hline := (toNat_numberAfter_eq_iff (count_front_le hsize hfront)).mpr fun hcount ↦
      hshort (isUnnumbered_of_count hsize hfront hcount)
    have hcolumn := (toNat_numberAfter_eq_iff (length_lastLine_le hsize hfront)).mpr fun hlast ↦
      hshort (isUnnumbered_of_length_lastLine hsize hfront hlast)
    rw [position_front hsize hfront hoffset, hline, hcolumn]
    rfl
  case injective => exact fun m n hm hn h ↦ eq_of_position_eq hsize hm hn h
  case count => exact count_ofSource source
  case lineText =>
    intro n
    cases n with
    | zero => rfl
    | succ n =>
      rw [Nat.add_sub_cancel, count_ofSource, ← length_splitOn]
      by_cases hn : n < (source.toList.splitOn '\n').length
      · obtain ⟨front, back, hline, rfl⟩ := exists_isLine (List.getElem?_eq_getElem hn)
        rw [if_pos ⟨Nat.le_add_left _ _, hn⟩, List.getElem?_eq_getElem hn,
          lineText_of_isLine hsize hline]
        rfl
      · have hstarts : (ofSource source).starts.length ≤ n := by
          rw [length_splitOn, ← count_ofSource] at hn
          exact Nat.not_lt.mp hn
        rw [if_neg fun h ↦ hn h.2, lineText, List.getElem?_eq_none hstarts]

end Reach

/-- A number of letters on one line. -/
private def letters (n : Nat) : String := String.ofList (List.replicate n 'a')

private theorem isUnnumbered_letters {n : Nat} (hn : n = Span.maxOffset) :
    byteLength (letters n).toList ≤ Span.maxOffset ∧ IsUnnumbered (letters n).toList := by
  have hbytes : ∀ m, byteLength (List.replicate m 'a') = m := by
    intro m
    induction m with
    | zero => rfl
    | succ m ih => rw [List.replicate_succ, byteLength_cons, ih, Nat.add_comm]; rfl
  rw [letters, String.toList_ofList, hbytes]
  refine ⟨hn.le, List.length_replicate.trans hn, .inl fun h ↦ ?_⟩
  exact absurd (List.eq_of_mem_replicate h) (by decide)

theorem not_scans_ofSource_letters :
    ∃ n, n = Span.maxOffset ∧ byteLength (letters n).toList ≤ Span.maxOffset ∧
      IsUnnumbered (letters n).toList ∧ ¬ (ofSource (letters n)).Scans (letters n) := by
  obtain ⟨n, hn⟩ : ∃ n, n = Span.maxOffset := ⟨_, rfl⟩
  obtain ⟨hsize, hlong⟩ := isUnnumbered_letters hn
  exact ⟨n, hn, hsize, hlong, fun h ↦ (scans_ofSource_iff hsize).mp h hlong⟩

/-- Not every text that is not longer than offsets reach is told line by line and column by
column. -/
theorem not_forall_scans_ofSource :
    ¬ ∀ source : String, byteLength source.toList ≤ Span.maxOffset →
      (ofSource source).Scans source := by
  intro hall
  obtain ⟨n, hn⟩ : ∃ n, n = Span.maxOffset := ⟨_, rfl⟩
  obtain ⟨hsize, hlong⟩ := isUnnumbered_letters hn
  refine position_ne_of_isUnnumbered hsize hlong ?_
  exact (hall _ hsize).position _ _ List.prefix_rfl (Nat.min_self _).symm

/-- A letter of two bytes, a line end of two characters, an empty line, and an offset past the
end. -/
example : [4, 6, 99].map ((ofSource "a\u00e9\r\n\nb").position "a\u00e9\r\n\nb") =
      [(1, 4), (3, 1), (3, 2)] ∧
    [0, 1, 2, 4].map ((ofSource "a\u00e9\r\n\nb").lineText "a\u00e9\r\n\nb") =
      [none, some "a\u00e9", some "", none] := by decide

end LineTable
end Companion
