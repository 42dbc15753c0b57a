import Companion.Proofs.Token.Spelling

/-!
Where tokens stand. The tokens of a text move along with the text as far as offsets reach, and those
of texts that are set apart from each other stand one behind the other. A text is set apart from
what comes behind it if it ends at a separator.
-/

set_option autoImplicit false
set_option relaxedAutoImplicit false

namespace Companion

/-- So many spaces. -/
def Text.blanks (n : Nat) : List Char := List.replicate n ' '

theorem Text.byteLength_blanks (n : Nat) : byteLength (blanks n) = n := by
  induction n with
  | zero => rfl
  | succ n ih => exact (congrArg (1 + ·) ih).trans (Nat.add_comm 1 n)

/-- The span that many bytes further on. -/
def Span.moved (n : Nat) (s : Span) : Span := ⟨s.start + n, s.stop + n⟩

/-- The span that many bytes further on, as far as offsets reach. -/
def Span.shifted (n : Nat) (s : Span) : Span := ofRange (s.start + n) (s.stop + n)

/-- A range that ends where offsets still reach is a span as it is. -/
theorem Span.ofRange_of_le {start stop : Nat} (hle : start ≤ stop) (hstop : stop ≤ maxOffset) :
    ofRange start stop = ⟨start, stop⟩ := by
  rw [ofRange, Nat.min_eq_left (hle.trans hstop), Nat.min_eq_left hstop]

theorem Span.shifted_ofRange (n start stop : Nat) :
    (ofRange start stop).shifted n = ofRange (start + n) (stop + n) := by
  simp only [shifted, ofRange, Span.mk.injEq]
  omega

theorem Span.shifted_eq_moved {n : Nat} {s : Span} (hle : s.start ≤ s.stop)
    (hstop : s.stop + n ≤ maxOffset) : s.shifted n = s.moved n :=
  ofRange_of_le (Nat.add_le_add_right hle n) hstop

theorem Span.moved_merge (n : Nat) (a b : Span) :
    (a.merge b).moved n = (a.moved n).merge (b.moved n) := by
  simp only [merge, moved, Nat.add_min_add_right, Nat.add_max_add_right]

theorem Span.moved_injective (n : Nat) : Function.Injective (moved n) := by
  rintro ⟨start, stop⟩ ⟨start', stop'⟩ h
  obtain ⟨hstart, hstop⟩ := Span.mk.inj h
  exact congrArg₂ Span.mk (Nat.add_right_cancel hstart) (Nat.add_right_cancel hstop)

namespace Token

def moved (n : Nat) (t : Token) : Token := ⟨t.kind, t.span.moved n, t.text⟩

/-- The token with its text that many bytes further on, as far as offsets reach. -/
def shifted (n : Nat) (t : Token) : Token := ⟨t.kind, t.span.shifted n, t.text⟩

open Lexeme

/-- The tokens of a text that starts at an offset. -/
def tokensFrom (offset : Nat) (cs : List Char) : List Token := locate offset (all cs)

theorem ofSource_eq (source : String) : ofSource source =
    tokensFrom 0 source.toList ++ [endAt (Text.byteLength source.toList)] := rfl

theorem map_bare_tokensFrom (offset : Nat) (cs : List Char) :
    (tokensFrom offset cs).map bare = spell cs := by
  rw [tokensFrom, map_bare_locate, spell_eq_filterMap_all]

/-! ### Moving along -/

theorem locate_shifted (n : Nat) : ∀ (ls : List Lexeme) (offset : Nat),
    locate (offset + n) ls = (locate offset ls).map (shifted n)
  | [], _ => rfl
  | ⟨.trivia _, text⟩ :: ls, offset => by
    rw [locate, locate, ← locate_shifted n ls, Nat.add_right_comm]
  | ⟨.token k, text⟩ :: ls, offset => by
    simp only [locate, List.map_cons, shifted, Span.shifted_ofRange]
    rw [← locate_shifted n ls, Nat.add_right_comm]

theorem tokensFrom_shifted (offset n : Nat) (cs : List Char) :
    tokensFrom (offset + n) cs = (tokensFrom offset cs).map (shifted n) := locate_shifted n _ offset

/-- Tokens end in the text that they are located in, and where offsets reach. -/
theorem span_le_of_mem_locate {t : Token} : ∀ {ls : List Lexeme} {offset : Nat},
    t ∈ locate offset ls → t.span.start ≤ t.span.stop ∧
      t.span.stop ≤ min (offset + Text.byteLength (ls.flatMap Lexeme.text)) Span.maxOffset
  | ⟨.trivia _, text⟩ :: ls, offset, h => by
    rw [List.flatMap_cons, Text.byteLength_append, ← Nat.add_assoc]
    exact @span_le_of_mem_locate _ ls _ h
  | ⟨.token k, text⟩ :: ls, offset, h => by
    rw [List.flatMap_cons, Text.byteLength_append, ← Nat.add_assoc]
    rcases List.mem_cons.mp h with rfl | h
    · dsimp only [Span.ofRange]
      omega
    · exact @span_le_of_mem_locate _ ls _ h

theorem shifted_endAt (offset n : Nat) : (endAt offset).shifted n = endAt (offset + n) := by
  rw [shifted, endAt, Span.shifted_ofRange]
  rfl

theorem span_le_of_mem_ofSource {t : Token} {source : String} (h : t ∈ ofSource source) :
    t.span.start ≤ t.span.stop ∧
      t.span.stop ≤ min (Text.byteLength source.toList) Span.maxOffset := by
  rcases List.mem_append.mp h with h | h
  · have hspan := span_le_of_mem_locate h
    rwa [flatMap_text_all, Nat.zero_add] at hspan
  · obtain rfl := List.mem_singleton.mp h
    dsimp only [endAt, Span.ofRange]
    omega

/-- As long as offsets reach, the tokens of a text move along with it. -/
theorem tokensFrom_moved {offset n : Nat} {cs : List Char}
    (hsize : offset + n + Text.byteLength cs ≤ Span.maxOffset) :
    tokensFrom (offset + n) cs = (tokensFrom offset cs).map (moved n) := by
  rw [tokensFrom_shifted]
  refine List.map_congr_left fun t ht ↦ ?_
  obtain ⟨hle, hstop⟩ := span_le_of_mem_locate ht
  rw [flatMap_text_all] at hstop
  rw [shifted, moved, Span.shifted_eq_moved hle (by omega)]

theorem tokensFrom_cons (offset : Nat) (c : Char) (cs : List Char) :
    tokensFrom offset (c :: cs) =
      locate offset [⟨(scan c cs).1, c :: cs.take (scan c cs).2⟩] ++
        tokensFrom (offset + Text.byteLength (c :: cs.take (scan c cs).2))
          (cs.drop (scan c cs).2) := by
  rw [tokensFrom, all_cons, locate, locate]
  split <;> rfl

/-- White space can be read character by character. -/
theorem tokensFrom_cons_skipped {c : Char} (h : isSkipped c = true) (offset : Nat)
    (cs : List Char) : tokensFrom offset (c :: cs) = tokensFrom (offset + c.utf8Size) cs := by
  have hspace (offset : Nat) {c : Char} (h : isSkipped c = true) (cs : List Char) :
      tokensFrom offset (c :: cs) = tokensFrom
        (offset + Text.byteLength (c :: cs.take (run isSkipped cs)))
          (cs.drop (run isSkipped cs)) := by
    rw [tokensFrom_cons, scan_of_isSkipped h]
    rfl
  rw [hspace offset h]
  cases cs with
  | nil => rfl
  | cons c' cs =>
    by_cases h' : isSkipped c' = true
    · rw [hspace _ h', run, run, List.takeWhile_cons_of_pos h', List.length_cons,
        List.take_succ_cons, List.drop_succ_cons, Text.byteLength_cons, Nat.add_assoc]
    · rw [run, List.takeWhile_cons_of_neg h']
      rfl

/-- Spaces in front of a text only move it on. -/
theorem tokensFrom_blanks (n offset : Nat) (cs : List Char) :
    tokensFrom offset (Text.blanks n ++ cs) = tokensFrom (offset + n) cs := by
  induction n generalizing offset with
  | zero => rfl
  | succ n ih =>
    rw [Text.blanks, List.replicate_succ, List.cons_append, tokensFrom_cons_skipped (by decide)]
    exact (ih _).trans (by rw [show ' '.utf8Size = 1 from rfl, Nat.add_assoc, Nat.add_comm 1 n])

/-! ### Texts one behind the other -/

/-- A text is read as it is read alone, whatever comes behind it. -/
def Apart (cs : List Char) : Prop :=
  ∀ offset r, tokensFrom offset (cs ++ r) =
    tokensFrom offset cs ++ tokensFrom (offset + Text.byteLength cs) r

theorem apart_nil : Apart [] := fun _ _ ↦ rfl

/-- Blanks behind a text that is set apart only move on what comes behind them. -/
theorem Apart.ofSource_blanks {front : List Char} (h : Apart front) {n : Nat} {source rest : String}
    (hsource : source.toList = front ++ (Text.blanks n ++ rest.toList)) :
    ofSource source =
      tokensFrom 0 front ++ (ofSource rest).map (shifted (Text.byteLength front + n)) := by
  have hbehind : tokensFrom (Text.byteLength front + n) rest.toList =
      (tokensFrom 0 rest.toList).map (shifted (Text.byteLength front + n)) := by
    rw [← tokensFrom_shifted, Nat.zero_add]
  have hlength : Text.byteLength (front ++ (Text.blanks n ++ rest.toList)) =
      Text.byteLength rest.toList + (Text.byteLength front + n) := by
    rw [Text.byteLength_append, Text.byteLength_append, Text.byteLength_blanks, ← Nat.add_assoc,
      Nat.add_comm]
  rw [ofSource_eq, ofSource_eq, hsource, h, Nat.zero_add, tokensFrom_blanks, hbehind, hlength,
    List.map_append, List.map_singleton, shifted_endAt, List.append_assoc]

theorem ofSource_blanks {n : Nat} {source rest : String}
    (hsource : source.toList = Text.blanks n ++ rest.toList) :
    ofSource source = (ofSource rest).map (shifted n) := by
  have hblanks := apart_nil.ofSource_blanks ((List.nil_append _).symm ▸ hsource)
  rwa [show tokensFrom 0 [] = [] from rfl, List.nil_append,
    show Text.byteLength [] + n = n from Nat.zero_add n] at hblanks

theorem Apart.append {a b : List Char} (ha : Apart a) (hb : Apart b) : Apart (a ++ b) := by
  intro offset r
  rw [List.append_assoc, ha, hb, ha, List.append_assoc, Text.byteLength_append, Nat.add_assoc]

/-- In front of a character a text is read as it is read alone, if every lexeme of it is. -/
theorem tokensFrom_append_of {P : Lexeme → Prop} {d : Char}
    (hscan : ∀ {c : Char} {cs : List Char}, isSkipped c = false →
      P ⟨(scan c cs).1, c :: cs.take (scan c cs).2⟩ → ∀ r, scan c (cs ++ d :: r) = scan c cs)
    {cs : List Char} (h : ∀ l ∈ visible cs, P l) (offset : Nat) (r : List Char) :
    tokensFrom offset (cs ++ d :: r) =
      tokensFrom offset cs ++ tokensFrom (offset + Text.byteLength cs) (d :: r) := by
  induction hn : cs.length using Nat.strongRecOn generalizing cs offset with
  | ind n ih =>
    cases cs with
    | nil => rfl
    | cons c cs =>
      subst hn
      by_cases hc : isSkipped c = true
      · rw [visible_cons_skipped hc] at h
        rw [List.cons_append, tokensFrom_cons_skipped hc, tokensFrom_cons_skipped hc,
          ih _ (by simp) h _ rfl, Text.byteLength_cons, Nat.add_assoc]
      · rw [Bool.not_eq_true] at hc
        rw [visible_cons cs (scan_ne_space hc cs)] at h
        obtain ⟨hfirst, hrest⟩ := List.forall_mem_cons.mp h
        have hreach := scan_le c cs
        rw [List.cons_append, tokensFrom_cons, tokensFrom_cons, hscan hc hfirst r,
          List.take_append_of_le_length hreach, List.drop_append_of_le_length hreach,
          ih _ (by simp only [List.length_drop, List.length_cons]; omega) hrest _ rfl,
          List.append_assoc, Nat.add_assoc, ← Text.byteLength_append, List.cons_append,
          List.take_append_drop]

/-- In front of white space at its end a text is read as it is read alone. -/
theorem apart_concat {d : Char} (hd : d ∈ separators) (hskip : isSkipped d = true) {cs : List Char}
    (h : ∀ l ∈ visible cs, l.StopsAt d) : Apart (cs ++ [d]) := by
  -- the space is passed over, whatever comes behind it
  have hspace (offset : Nat) (r : List Char) : tokensFrom offset (cs ++ d :: r) =
      tokensFrom offset cs ++ tokensFrom (offset + Text.byteLength cs) (d :: r) :=
    tokensFrom_append_of (fun hc hstops r ↦ scan_append hd r hc hstops.1 hstops.2) h offset r
  intro offset r
  rw [List.append_assoc, List.singleton_append, hspace, hspace, tokensFrom_cons_skipped hskip,
    tokensFrom_cons_skipped hskip, Text.byteLength_append, List.append_assoc, Nat.add_assoc]
  rfl

end Token
end Companion
