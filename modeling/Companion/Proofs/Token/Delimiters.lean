import Companion.Proofs.Token.Lexing
import Mathlib.Data.List.Infix

/-!
What stands between delimiters. A comment or raw literal ends where its delimiter first occurs, a
verbatim literal at the first quote that is not doubled, and other quoted text at the first quote
that is not escaped. Here is what may stand in front of these ends, said without looking for them,
and that looking finds them.
-/

set_option autoImplicit false
set_option relaxedAutoImplicit false

namespace Companion.Token.Lexeme

/-! ### Runs -/

theorem of_mem_take_run {p : Char → Bool} {cs : List Char} {c : Char}
    (h : c ∈ cs.take (run p cs)) : p c = true := by
  rw [run, ← List.prefix_iff_eq_take.mp (List.takeWhile_prefix p)] at h
  exact List.mem_takeWhile_imp h

theorem of_mem_head_drop_run {p : Char → Bool} {cs : List Char} {c : Char}
    (h : c ∈ (cs.drop (run p cs)).head?) : p c = false := by
  induction cs with
  | nil => simp at h
  | cons d cs ih =>
    by_cases hd : p d = true
    · rw [run, List.takeWhile_cons_of_pos hd] at h
      exact ih h
    · rw [run, List.takeWhile_cons_of_neg hd] at h
      obtain rfl := Option.some.inj h
      exact Bool.eq_false_iff.mpr hd

/-- Equal characters in front of another one. -/
theorem run_replicate_append {p : Char → Bool} {q : Char} (hq : p q = true) (n : Nat)
    {cs : List Char} (hcs : ∀ c ∈ cs.head?, p c = false) :
    run p (List.replicate n q ++ cs) = n := by
  induction n with
  | zero =>
    cases cs with
    | nil => rfl
    | cons c cs => simp [run, hcs c rfl]
  | succ n ih =>
    rw [List.replicate_succ, List.cons_append, run, List.takeWhile_cons_of_pos hq, List.length_cons]
    exact congrArg (· + 1) ih

theorem replicate_run_append (q : Char) (cs : List Char) :
    List.replicate (run (· = q) cs) q ++ cs.drop (run (· = q) cs) = cs := by
  have htake : cs.take (run (· = q) cs) = List.replicate (run (· = q) cs) q := by
    refine List.eq_replicate_iff.mpr ⟨List.length_take_of_le (run_le _ _), fun c hc ↦ ?_⟩
    simpa using of_mem_take_run hc
  rw [← htake, List.take_append_drop]

/-! ### The first occurrence of a delimiter -/

theorem indexOf?_eq_none_iff {pattern cs : List Char} :
    indexOf? pattern cs = none ↔ ¬ pattern <:+: cs := by
  fun_induction indexOf? pattern cs with
  | case1 hempty => simp [List.isEmpty_iff.mp hempty]
  | case2 hempty => simpa using hempty
  | case3 c cs hbegins =>
    have hfound := (List.isPrefixOf_iff_prefix.mp hbegins).isInfix
    simp [hfound]
  | case4 c cs hbegins ih =>
    rw [List.isPrefixOf_iff_prefix] at hbegins
    rw [Option.map_eq_none_iff, ih, List.infix_cons_iff, not_or]
    exact (and_iff_right hbegins).symm

/-- In front of the first occurrence no other one ends. -/
theorem exists_of_indexOf? {pattern cs : List Char} (hne : pattern ≠ []) {n : Nat}
    (h : indexOf? pattern cs = some n) : ∃ inside behind, cs = inside ++ (pattern ++ behind) ∧
      inside.length = n ∧ ¬ pattern <:+: inside ++ pattern.dropLast := by
  fun_induction indexOf? pattern cs generalizing n with
  | case1 hempty => exact absurd (List.isEmpty_iff.mp hempty) hne
  | case2 => cases h
  | case3 c cs hbegins =>
    obtain rfl := Option.some.inj h
    obtain ⟨behind, hbehind⟩ := List.isPrefixOf_iff_prefix.mp hbegins
    refine ⟨[], behind, hbehind.symm, rfl, fun hinfix ↦ ?_⟩
    have hlength := hinfix.length_le
    have hpos := List.length_pos_of_ne_nil hne
    rw [List.nil_append, List.length_dropLast] at hlength
    omega
  | case4 c cs hbegins ih =>
    obtain ⟨m, hm, rfl⟩ := Option.map_eq_some_iff.mp h
    obtain ⟨inside, behind, rfl, hlength, hfirst⟩ := ih hm
    refine ⟨c :: inside, behind, rfl, congrArg (· + 1) hlength, fun hinfix ↦ ?_⟩
    rw [List.cons_append, List.infix_cons_iff] at hinfix
    rcases hinfix with hhead | hlater
    · refine hbegins (List.isPrefixOf_iff_prefix.mpr (hhead.trans ?_))
      rw [List.cons_prefix_cons, ← List.append_assoc]
      refine ⟨rfl, ((List.prefix_append_right_inj inside).mpr ?_).trans
        (List.prefix_append _ behind)⟩
      exact List.dropLast_prefix pattern
    · exact hfirst hlater

theorem indexOf?_of_not_infix {pattern inside : List Char}
    (h : ¬ pattern <:+: inside ++ pattern.dropLast) (behind : List Char) :
    indexOf? pattern (inside ++ (pattern ++ behind)) = some inside.length := by
  have hne : pattern ≠ [] := by
    rintro rfl
    exact h (List.nil_infix)
  induction inside with
  | nil =>
    obtain ⟨p, pattern, rfl⟩ := List.exists_cons_of_ne_nil hne
    have hbegins : (p :: pattern).isPrefixOf (p :: (pattern ++ behind)) = true :=
      List.isPrefixOf_iff_prefix.mpr (List.prefix_append (p :: pattern) behind)
    rw [List.nil_append, List.cons_append, indexOf?, if_pos hbegins]
    rfl
  | cons c inside ih =>
    rw [List.cons_append, List.infix_cons_iff, not_or] at h
    have hbegins : ¬ pattern.isPrefixOf (c :: (inside ++ (pattern ++ behind))) = true := by
      intro hbegins
      refine h.1 (List.prefix_of_prefix_length_le (List.isPrefixOf_iff_prefix.mp hbegins) ?_ ?_)
      · rw [List.cons_prefix_cons]
        refine ⟨rfl, (List.prefix_append_right_inj inside).mpr ?_⟩
        exact (List.dropLast_prefix pattern).trans (List.prefix_append pattern behind)
      · rw [List.length_cons, List.length_append, List.length_dropLast]
        omega
    rw [List.cons_append, indexOf?, if_neg hbegins, ih h.2]
    rfl

/-- A character that the pattern does not have stands in no occurrence. -/
theorem infix_of_infix_append_cons {pattern : List Char} {c : Char} (hc : c ∉ pattern)
    (hne : pattern ≠ []) {front back : List Char} (h : pattern <:+: front ++ c :: back) :
    pattern <:+: front ∨ pattern <:+: back := by
  have hbegins (cs : List Char) (h : pattern <+: cs ++ c :: back) : pattern <+: cs := by
    rwa [← List.isPrefixOf_iff_prefix, isPrefixOf_separated back hc,
      List.isPrefixOf_iff_prefix] at h
  induction front with
  | nil =>
    rcases List.infix_cons_iff.mp h with hhead | hlater
    · exact absurd (List.prefix_nil.mp (hbegins [] hhead)) hne
    · exact .inr hlater
  | cons d front ih =>
    rcases List.infix_cons_iff.mp h with hhead | hlater
    · exact .inl (hbegins (d :: front) hhead).isInfix
    · exact (ih hlater).imp_left List.infix_cons

/-! ### Raw text -/

/-- Three quotes or more, also behind dollar signs, open raw text. -/
theorem scan_of_quotes {dollars quotes : Nat} {rest : List Char} (hquotes : 3 ≤ quotes)
    (hfirst : ∀ c ∈ rest.head?, c ≠ '"') {c : Char} {cs : List Char}
    (htext : c :: cs = List.replicate dollars '$' ++ (List.replicate quotes '"' ++ rest)) :
    ∃ front, cs = front ++ rest ∧ scan c cs = raw front.length quotes cs := by
  have hrun (n : Nat) : run (· = '"') (List.replicate n '"' ++ rest) = n :=
    run_replicate_append (by simp) n (by simpa using hfirst)
  obtain ⟨more, rfl⟩ := Nat.exists_eq_add_of_le' (Nat.le_of_succ_le hquotes)
  cases dollars with
  | zero =>
    obtain ⟨rfl, rfl⟩ := List.cons.inj htext
    refine ⟨List.replicate (more + 1) '"', rfl, ?_⟩
    rw [show scan '"' _ = quotedText _ from rfl, quotedText]
    simp only [List.append_eq, hrun, List.length_replicate]
    rw [if_pos (by omega)]
  | succ dollars =>
    obtain ⟨rfl, rfl⟩ := List.cons.inj htext
    have hmore : run (· = '$') (List.replicate dollars '$' ++
        (List.replicate (more + 2) '"' ++ rest)) = dollars :=
      run_replicate_append (by simp) dollars (by simp [List.replicate_succ])
    refine ⟨List.replicate dollars '$' ++ List.replicate (more + 2) '"',
      (List.append_assoc _ _ _).symm, ?_⟩
    rw [show scan '$' _ = dollar _ from rfl, dollar.eq_def]
    simp only [List.append_eq, hmore]
    rw [List.drop_left' (by simp), hrun, if_pos hquotes]
    simp

/-! ### Verbatim text -/

/-- How verbatim literals begin: plain ones, and interpolated ones in both ways. -/
def verbatimOpenings : List (List Char) := [['@', '"'], ['$', '@', '"'], ['@', '$', '"']]

/-- Quotes stand in pairs only. -/
inductive Doubled : List Char → Prop
  | nil : Doubled []
  | pair {cs : List Char} (h : Doubled cs) : Doubled ('"' :: '"' :: cs)
  | other {c : Char} {cs : List Char} (hquote : c ≠ '"') (h : Doubled cs) : Doubled (c :: cs)

/-- Verbatim text is not closed if it has no quote that is not doubled. -/
theorem verbatim_eq_none_iff {cs : List Char} : verbatim cs = none ↔ Doubled cs := by
  constructor
  · intro h
    fun_induction verbatim cs with
    | case1 => exact .nil
    | case2 cs ih => exact .pair (ih (Option.map_eq_none_iff.mp h))
    | case3 => cases h
    | case4 c cs _ hquote ih => exact .other hquote (ih (Option.map_eq_none_iff.mp h))
  · intro h
    induction h with
    | nil => rfl
    | pair _ ih => rw [verbatim, ih]; rfl
    | other hquote _ ih =>
      rw [verbatim, ih]
      · rfl
      · exact fun _ hc ↦ absurd hc hquote
      · exact hquote

theorem Doubled.concat {cs : List Char} (h : Doubled cs) {c : Char} (hc : c ≠ '"') :
    Doubled (cs ++ [c]) := by
  induction h with
  | nil => exact .other hc .nil
  | pair _ ih => exact .pair ih
  | other hquote _ ih => exact .other hquote ih

theorem verbatim_of_doubled {inside : List Char} (h : Doubled inside) :
    verbatim (inside ++ ['"']) = some (inside.length + 1) := by
  induction h with
  | nil => rfl
  | pair _ ih => rw [List.cons_append, List.cons_append, verbatim, ih]; rfl
  | other hquote _ ih =>
    rw [List.cons_append, verbatim, ih]
    · rfl
    · exact fun _ hc ↦ absurd hc hquote
    · exact hquote

/-! ### Text with escapes -/

/-- Characters other than the quote, a backslash and a line feed, and backslashes together with the
character behind them, which is no line feed. -/
inductive Quoted (quote : Char) : List Char → Prop
  | nil : Quoted quote []
  | plain {c : Char} {cs : List Char} (hquote : c ≠ quote) (hback : c ≠ '\\') (hline : c ≠ '\n')
      (h : Quoted quote cs) : Quoted quote (c :: cs)
  | escape {c : Char} {cs : List Char} (hline : c ≠ '\n') (h : Quoted quote cs) :
      Quoted quote ('\\' :: c :: cs)

theorem content_of_quoted {quote : Char} (hback : quote ≠ '\\') {inside : List Char}
    (h : Quoted quote inside) (behind : List Char) :
    content quote (inside ++ quote :: behind) = inside.length := by
  induction h with
  | nil =>
    rw [List.nil_append, content, if_pos (by simp)]
    · rfl
    · exact fun _ _ hc ↦ absurd hc hback
  | plain hquote hback' hline _ ih =>
    rw [List.cons_append, content, if_neg (by simp [hquote, hback', hline]), ih, Nat.add_comm]
    · rfl
    · exact fun _ _ hc ↦ absurd hc hback'
  | escape hline _ ih =>
    rw [List.cons_append, List.cons_append, content, if_neg hline, ih, Nat.add_comm]
    rfl

theorem closed_of_quoted {quote : Char} (hback : quote ≠ '\\') {inside : List Char}
    (h : Quoted quote inside) (behind : List Char) :
    closed quote (inside ++ quote :: behind) = some (inside.length + 1) := by
  rw [closed, content_of_quoted hback h, if_pos]
  rw [List.getElem?_append_right (Nat.le_refl _), Nat.sub_self]
  rfl

end Companion.Token.Lexeme
