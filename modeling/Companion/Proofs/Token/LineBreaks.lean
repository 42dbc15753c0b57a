import Companion.Proofs.Token.Delimiters
import Companion.Proofs.Token.Located

/-!
Line breaks. Only comments and raw and verbatim literals go on over the end of a line, and of these
only those that are not closed in front of it (`Lexeme.CutOff`). Everything else is in front of a
line feed what it is at the end of the text, also if it is no token (`Lexeme.scan_concat_newline`).
So the tokens of two texts with a line feed between are those of both, if nothing in the first is
cut off by its end (`ofSource_append_newline`). Behind four gigabytes the tokens of the second stand
at one place (`not_forall_ofSource_append_newline`).
-/

set_option autoImplicit false
set_option relaxedAutoImplicit false

namespace Companion.Token

namespace Lexeme

/-! ### What is cut off by the end of a text -/

/-- A block comment, a raw literal or a verbatim literal that is opened but not closed. -/
inductive CutOff : List Char → Prop
  | comment {inside : List Char} (h : ¬ ['*', '/'] <:+: inside) : CutOff ('/' :: '*' :: inside)
  | raw {dollars quotes : Nat} {inside : List Char} (hquotes : 3 ≤ quotes)
      (hfirst : ∀ c ∈ inside.head?, c ≠ '"') (h : ¬ List.replicate quotes '"' <:+: inside) :
      CutOff (List.replicate dollars '$' ++ (List.replicate quotes '"' ++ inside))
  | verbatim {opening inside : List Char} (hopening : opening ∈ verbatimOpenings)
      (h : Doubled inside) : CutOff (opening ++ inside)

/-- The end of a line does not close what is cut off. -/
theorem CutOff.concat {cs : List Char} (h : CutOff cs) : CutOff (cs ++ ['\n']) := by
  have hnone {pattern inside : List Char} (hne : pattern ≠ []) (hline : '\n' ∉ pattern)
      (h : ¬ pattern <:+: inside) : ¬ pattern <:+: inside ++ ['\n'] := by
    intro hinfix
    rcases infix_of_infix_append_cons hline hne hinfix with hinside | hempty
    · exact h hinside
    · exact hne (List.eq_nil_of_infix_nil hempty)
  cases h with
  | comment h => exact .comment (hnone (by simp) (by decide) h)
  | raw hquotes hfirst h =>
    rw [List.append_assoc, List.append_assoc]
    refine .raw hquotes (fun c hc ↦ ?_) (hnone ?_ ?_ h)
    · rename_i inside
      cases inside with
      | nil =>
        obtain rfl := Option.some.inj hc
        decide
      | cons d inside => exact hfirst c hc
    · exact fun hempty ↦ by simp only [List.replicate_eq_nil_iff] at hempty; omega
    · exact fun hmem ↦ absurd (List.eq_of_mem_replicate hmem) (by decide)
  | verbatim hopening h =>
    rw [List.append_assoc]
    exact .verbatim hopening (h.concat (by decide))

/-- How it is opened. -/
theorem CutOff.opened {cs : List Char} (h : CutOff cs) : ['/', '*'] <+: cs ∨
    ['"', '"', '"'] <:+: cs ∨ ∃ opening ∈ verbatimOpenings, opening <+: cs := by
  cases h with
  | @comment inside _ => exact .inl (List.prefix_append ['/', '*'] inside)
  | @raw dollars quotes inside hquotes _ _ =>
    obtain ⟨quotes, rfl⟩ := Nat.exists_eq_add_of_le hquotes
    rw [List.replicate_add, List.append_assoc]
    exact .inr (.inl (List.infix_append' _ _ _))
  | @verbatim opening inside hopening _ =>
    exact .inr (.inr ⟨opening, hopening, List.prefix_append opening inside⟩)

theorem raw_of_not_infix {opening quotes : Nat} {cs : List Char}
    (h : ¬ List.replicate quotes '"' <:+: cs.drop opening) :
    raw opening quotes cs = (.token .error, cs.length) := by
  rw [raw, indexOf?_eq_none_iff.mpr h]

/-- What is cut off is read as an error up to the end of the text. -/
theorem scan_of_cutOff {c : Char} {cs : List Char} (h : CutOff (c :: cs)) :
    scan c cs = (.token .error, cs.length) := by
  generalize htext : c :: cs = text at h
  cases h with
  | @comment inside h =>
    obtain ⟨rfl, rfl⟩ := List.cons.inj htext
    rw [show scan '/' ('*' :: inside) = slash ('*' :: inside) from rfl]
    simp only [slash, indexOf?_eq_none_iff.mpr h]
  | raw hquotes hfirst h =>
    obtain ⟨front, rfl, hscan⟩ := scan_of_quotes hquotes hfirst htext
    rw [hscan]
    refine raw_of_not_infix ?_
    rwa [List.drop_left]
  | verbatim hopening h =>
    have hnone := verbatim_eq_none_iff.mpr h
    simp only [verbatimOpenings, List.mem_cons, List.not_mem_nil, or_false] at hopening
    rcases hopening with rfl | rfl | rfl
    · obtain ⟨rfl, rfl⟩ := List.cons.inj htext
      rw [show scan '@' _ = escaped _ from rfl]
      simp only [List.append_eq, List.cons_append, List.nil_append, escaped, hnone]
    · obtain ⟨rfl, rfl⟩ := List.cons.inj htext
      rw [show scan '$' _ = dollar _ from rfl, dollar.eq_def]
      simp [run, hnone]
      omega
    · obtain ⟨rfl, rfl⟩ := List.cons.inj htext
      rw [show scan '@' _ = escaped _ from rfl]
      simp [escaped, hnone]
      omega

/-! ### In front of a line feed -/

theorem content_newline {quote : Char} (cs r : List Char) :
    content quote (cs ++ '\n' :: r) = content quote cs := by
  fun_induction content quote cs with
  | case1 => simp [content]
  | case2 cs => simp [content]
  | case3 c cs hc ih => rw [List.cons_append, List.cons_append, content, if_neg hc, ih]
  | case4 c cs hback hends =>
    by_cases hslash : c = '\\'
    · subst hslash
      cases cs with
      | nil => simp [content]
      | cons c cs => exact absurd rfl (hback c cs rfl)
    · rw [List.cons_append, content, if_pos hends]
      exact fun _ _ hc ↦ absurd hc hslash
  | case5 c cs hback hgoes ih =>
    have hslash : c ≠ '\\' := by
      rintro rfl
      simp at hgoes
    rw [List.cons_append, content, if_neg hgoes, ih]
    exact fun _ _ hc ↦ absurd hc hslash

/-- Quoted text ends with the line, closed or not. -/
theorem closed_newline {quote : Char} (hquote : quote ≠ '\n') (cs r : List Char) :
    closed quote (cs ++ '\n' :: r) = closed quote cs := by
  have hsame : (cs ++ '\n' :: r)[content quote cs]? = some quote ↔
      cs[content quote cs]? = some quote := by
    rcases Nat.lt_or_ge (content quote cs) cs.length with hlt | hge
    · rw [List.getElem?_append_left hlt]
    · rw [List.getElem?_append_right hge, Nat.le_antisymm (content_le quote cs) hge, Nat.sub_self]
      simp [hquote.symm]
  simp only [closed, content_newline, hsame]

theorem character_newline (cs r : List Char) : character (cs ++ '\n' :: r) = character cs := by
  rw [character, character, content_newline, closed_newline (by decide)]

theorem raw_newline {opening quotes : Nat} {cs : List Char} (hopening : opening ≤ cs.length)
    (r : List Char) : raw opening quotes (cs ++ '\n' :: r) = raw opening quotes cs ∨
      ¬ List.replicate quotes '"' <:+: cs.drop opening := by
  by_cases herror : (raw opening quotes cs).1 = .token .error
  · right
    rw [raw] at herror
    split at herror
    · cases herror
    · rename_i hnone
      exact indexOf?_eq_none_iff.mp hnone
  · exact .inl (raw_append r hopening herror)

/-- Verbatim text is closed or has no quote that is not doubled. -/
theorem verbatim_newline (cs r : List Char) :
    verbatim (cs ++ '\n' :: r) = verbatim cs ∧ (verbatim cs).isSome ∨ Doubled cs := by
  cases h : verbatim cs with
  | none => exact .inr (verbatim_eq_none_iff.mp h)
  | some n => exact .inl ⟨verbatim_append h (by decide) r, rfl⟩

theorem quotedText_newline (cs r : List Char) :
    quotedText (cs ++ '\n' :: r) = quotedText cs ∨ CutOff ('"' :: cs) := by
  have hquotes : run (· = '"') (cs ++ '\n' :: r) = run (· = '"') cs := run_append (by simp) cs r
  rw [quotedText, quotedText, hquotes]
  split
  · rename_i hraw
    refine (raw_newline (run_le _ _) r).imp_right fun hnone ↦ ?_
    have htext : '"' :: cs = List.replicate 0 '$' ++
        (List.replicate (run (· = '"') cs + 1) '"' ++ cs.drop (run (· = '"') cs)) := by
      rw [List.replicate_succ, List.cons_append, replicate_run_append]
      rfl
    rw [htext]
    exact .raw (by omega) (fun c hc ↦ by simpa using of_mem_head_drop_run hc) hnone
  · rw [closed_newline (by decide), content_newline]
    exact .inl rfl

theorem escaped_newline (cs r : List Char) :
    escaped (cs ++ '\n' :: r) = escaped cs ∨ CutOff ('@' :: cs) := by
  by_cases herror : (escaped cs).1 = .token .error
  · revert herror
    fun_cases escaped cs with
    | case1 => exact fun h ↦ by cases h
    | case2 rest h =>
      have hopening : ['@', '"'] ∈ verbatimOpenings := by decide
      exact fun _ ↦ .inr (.verbatim hopening (verbatim_eq_none_iff.mp h))
    | case3 rest =>
      refine fun _ ↦ (verbatim_newline rest r).imp (fun h ↦ ?_) fun h ↦ ?_
      · obtain ⟨n, hn⟩ := Option.isSome_iff_exists.mp h.2
        simp only [List.cons_append, escaped, h.1, hn, Option.getD_some]
      · have hopening : ['@', '$', '"'] ∈ verbatimOpenings := by decide
        exact .verbatim hopening h
    | case4 rest hquote =>
      refine fun _ ↦ .inl ?_
      rw [List.cons_append, escaped]
      exact append_cons_ne (by decide) hquote r
    | case5 => exact fun h ↦ by cases h
    | case6 c rest hquote hdouble hdollar hstart =>
      refine fun _ ↦ .inl ?_
      rw [List.cons_append, escaped, if_neg hstart]
      · exact hquote
      · exact fun _ hc _ ↦ hdollar hc
      · exact hdollar
    | case7 => exact fun _ ↦ .inl rfl
  · exact .inl (escaped_append (by decide) r herror)

/-- A line feed is neither a dollar sign nor a quote. -/
theorem runs_newline (cs r : List Char) :
    run (· = '$') (cs ++ '\n' :: r) = run (· = '$') cs ∧
      run (· = '"') ((cs ++ '\n' :: r).drop (run (· = '$') cs)) =
        run (· = '"') (cs.drop (run (· = '$') cs)) :=
  ⟨run_append (by simp) cs r, run_drop_append (by simp) (run_le _ _) r⟩

/-- Dollar signs in front of three quotes or more. -/
theorem dollar_newline_of_quotes {cs : List Char}
    (hraw : 3 ≤ run (· = '"') (cs.drop (run (· = '$') cs))) (r : List Char) :
    dollar (cs ++ '\n' :: r) = dollar cs ∨ CutOff ('$' :: cs) := by
  obtain ⟨hmore, hquotes⟩ := runs_newline cs r
  simp only [dollar.eq_def, hmore, hquotes, if_pos hraw]
  have hreach : run (· = '"') (cs.drop (run (· = '$') cs)) ≤ cs.length - run (· = '$') cs :=
    run_drop_le _ _ _
  have hinside : run (· = '$') cs ≤ cs.length := run_le _ _
  refine (raw_newline (by omega) r).imp_right fun hnone ↦ ?_
  have htext : '$' :: cs = List.replicate (run (· = '$') cs + 1) '$' ++
      (List.replicate (run (· = '"') (cs.drop (run (· = '$') cs))) '"' ++
        (cs.drop (run (· = '$') cs)).drop (run (· = '"') (cs.drop (run (· = '$') cs)))) := by
    rw [List.replicate_succ, List.cons_append, replicate_run_append, replicate_run_append]
  rw [← List.drop_drop] at hnone
  rw [htext]
  exact .raw hraw (fun c hc ↦ by simpa using of_mem_head_drop_run hc) hnone

theorem dollar_of_at {cs : List Char} (h : ∀ rest, cs ≠ '"' :: rest) :
    dollar ('@' :: cs) = (.token .error, 1) := by
  have hmore : run (· = '$') ('@' :: cs) = 0 := rfl
  have hquotes : run (· = '"') ('@' :: cs) = 0 := rfl
  simp only [dollar.eq_def, hmore, List.drop_zero, hquotes]
  rw [if_neg (by decide)]

theorem dollar_of_ne {cs : List Char} (hfew : ¬ 3 ≤ run (· = '"') (cs.drop (run (· = '$') cs)))
    (hquote : ∀ rest, cs ≠ '"' :: rest) (hat : ∀ rest, cs ≠ '@' :: rest) :
    dollar cs = (.token .error, run (· = '$') cs) := by
  rw [dollar.eq_def]
  dsimp only
  rw [if_neg hfew]
  split
  · exact absurd rfl (hquote _)
  · exact absurd rfl (hat _)
  · exact absurd rfl (hat _)
  · rfl

theorem dollar_newline (cs r : List Char) :
    dollar (cs ++ '\n' :: r) = dollar cs ∨ CutOff ('$' :: cs) := by
  obtain ⟨hmore, hquotes⟩ := runs_newline cs r
  by_cases hraw : 3 ≤ run (· = '"') (cs.drop (run (· = '$') cs))
  · exact dollar_newline_of_quotes hraw r
  by_cases herror : (dollar cs).1 = .token .error
  · revert herror
    fun_cases dollar cs with
    | case1 cs more quotes hquotes => exact absurd hquotes hraw
    | case2 => exact fun h ↦ by cases h
    | case3 rest hnothing hnone more quotes hfew =>
      refine fun _ ↦ .inl ?_
      simp only [dollar.eq_def ('"' :: rest ++ '\n' :: r), hmore, hquotes]
      rw [if_neg hfew]
      simp only [List.cons_append, closed_newline (by decide : '"' ≠ '\n'), hnone, content_newline,
        hnothing]
    | case4 rest hnone more quotes hfew hsome =>
      refine fun _ ↦ .inl ?_
      simp only [dollar.eq_def ('"' :: rest ++ '\n' :: r), hmore, hquotes]
      rw [if_neg hfew]
      simp only [List.cons_append, closed_newline (by decide : '"' ≠ '\n'), hnone, content_newline]
    | case5 rest more quotes hfew =>
      refine fun _ ↦ (verbatim_newline rest r).imp (fun h ↦ ?_) fun h ↦ ?_
      · obtain ⟨n, hn⟩ := Option.isSome_iff_exists.mp h.2
        simp only [dollar.eq_def ('@' :: '"' :: rest ++ '\n' :: r), hmore, hquotes]
        rw [if_neg hfew]
        simp only [List.cons_append, h.1, hn, Option.getD_some]
      · have hopening : ['$', '@', '"'] ∈ verbatimOpenings := by decide
        exact .verbatim hopening h
    | case6 rest hquote =>
      exact fun _ ↦ .inl (dollar_of_at (append_cons_ne (by decide) hquote r))
    | case7 cs more quotes hfew hquote hverbatim hat =>
      refine fun _ ↦ .inl ?_
      rw [dollar_of_ne (by rwa [hmore, hquotes]) (append_cons_ne (by decide) hquote r)
        (append_cons_ne (by decide) hat r), hmore]
  · exact .inl (dollar_append (by decide) r herror)

theorem slash_newline (cs r : List Char) :
    slash (cs ++ '\n' :: r) = slash cs ∨ CutOff ('/' :: cs) := by
  have hline : '\n' ∈ separators := by decide
  by_cases herror : (slash cs).1 = .token .error
  · revert herror
    fun_cases slash cs with
    | case1 => exact fun h ↦ by cases h
    | case2 => exact fun h ↦ by cases h
    | case3 rest hnone => exact fun _ ↦ .inr (.comment (indexOf?_eq_none_iff.mp hnone))
    | case4 cs hslash hstar =>
      refine fun _ ↦ .inl ?_
      rw [slash, symbol_append hline]
      · exact append_cons_ne (by decide) hslash r
      · exact append_cons_ne (by decide) hstar r
  · exact .inl (slash_append hline r herror fun _ ↦ rfl)

/-- In front of a line feed everything but white space is read as it is at the end of the text, if
it is not cut off there. -/
theorem scan_newline {c : Char} (hskip : isSkipped c = false) (cs r : List Char) :
    scan c (cs ++ '\n' :: r) = scan c cs ∨ CutOff (c :: cs) := by
  have hline : '\n' ∈ separators := by decide
  simp only [scan.eq_def, hskip, Bool.false_eq_true, if_false]
  split
  · exact .inl (word_append hline r c cs)
  split
  · exact .inl (number_append hline r c cs)
  split
  · exact slash_newline cs r
  · rw [restOfLine, restOfLine, run_append (by simp)]
    exact .inl rfl
  · exact quotedText_newline cs r
  · exact .inl (character_newline cs r)
  · exact escaped_newline cs r
  · exact dollar_newline cs r
  · exact .inl (point_append hline r cs)
  · exact .inl (symbol_append hline r c cs)

/-! ### Lines without errors -/

/-- What is no token is none at the end of a line. -/
theorem scan_concat_newline {c : Char} {cs : List Char} (hskip : isSkipped c = false)
    (h : (scan c cs).1 = .token .error) : (scan c (cs ++ ['\n'])).1 = .token .error := by
  rcases scan_newline hskip cs [] with hsame | hcut
  · rw [hsame, h]
  · have hlonger : CutOff (c :: (cs ++ ['\n'])) := hcut.concat
    rw [scan_of_cutOff hlonger]

/-- In a line without errors everything stops at its end. -/
theorem stopsAt_newline {cs : List Char}
    (h : ∀ l ∈ visible (cs ++ ['\n']), l.form ≠ .token .error) :
    ∀ l ∈ visible cs, l.StopsAt '\n' := by
  have hline : '\n' ∈ separators := by decide
  induction hn : cs.length using Nat.strongRecOn generalizing cs with
  | ind n ih =>
    subst hn
    cases cs with
    | nil => exact fun l hl ↦ absurd hl List.not_mem_nil
    | cons c cs =>
      by_cases hskip : isSkipped c = true
      · rw [List.cons_append, visible_cons_skipped hskip] at h
        rw [visible_cons_skipped hskip]
        exact ih _ (by simp) h rfl
      · rw [Bool.not_eq_true] at hskip
        rw [List.cons_append, visible_cons _ (scan_ne_space hskip _)] at h
        obtain ⟨hfirst, hrest⟩ := List.forall_mem_cons.mp h
        have hfirst' : (scan c cs).1 ≠ .token .error :=
          fun herror ↦ hfirst (scan_concat_newline hskip herror)
        rw [scan_append hline [] hskip hfirst' fun _ ↦ rfl,
          List.drop_append_of_le_length (scan_le c cs)] at hrest
        rw [visible_cons cs (scan_ne_space hskip cs)]
        exact List.forall_mem_cons.mpr ⟨⟨hfirst', fun _ ↦ rfl⟩,
          ih _ (by simp only [List.length_drop, List.length_cons]; omega) hrest rfl⟩

end Lexeme

open Lexeme

/-- A text without errors that ends at the end of a line is set apart from what comes behind it. -/
theorem apart_of_newline {cs : List Char} (h : ∀ b ∈ spell (cs ++ ['\n']), b.1 ≠ .error) :
    Apart (cs ++ ['\n']) :=
  apart_concat (by decide) (by decide) (stopsAt_newline fun _ ↦ form_ne_error_of_mem_visible h)

/-! ### Texts with a line feed between -/

/-- In front of a line feed a text is read as it is read alone, if nothing is cut off by its end. -/
theorem tokensFrom_append_newline {cs : List Char}
    (h : ∀ b ∈ spell cs, ¬ CutOff b.2.toList) (offset : Nat) (r : List Char) :
    tokensFrom offset (cs ++ '\n' :: r) =
      tokensFrom offset cs ++ tokensFrom (offset + Text.byteLength cs) ('\n' :: r) := by
  have hvisible : ∀ l ∈ visible cs, ∀ k, l.form = .token k → ¬ CutOff l.text := by
    rintro ⟨form, text⟩ hl k rfl
    have hspelt := h _ (List.mem_filterMap.mpr ⟨_, hl, rfl⟩)
    rwa [String.toList_ofList] at hspelt
  refine tokensFrom_append_of (fun {c cs} hskip hwhole r ↦ ?_) hvisible offset r
  rcases scan_newline hskip cs r with hsame | hcut
  · exact hsame
  · rw [scan_of_cutOff hcut, List.take_length] at hwhole
    exact absurd hcut (hwhole _ rfl)

/-- The tokens of two texts with a line feed between are those of the first one, and then those of
the second one where it stands, if the end of the first one cuts nothing off. Places are clamped
where offsets do not reach; as long as they do, the second tokens have moved by the first text and
the line feed. -/
theorem ofSource_append_newline (s t : String) (h : ∀ u ∈ ofSource s, ¬ CutOff u.text.toList) :
    ofSource (s ++ "\n" ++ t) =
        (ofSource s).dropLast ++ (ofSource t).map (shifted (Text.byteLength s.toList + 1)) ∧
      (Text.byteLength (s ++ "\n" ++ t).toList ≤ Span.maxOffset → ofSource (s ++ "\n" ++ t) =
        (ofSource s).dropLast ++ (ofSource t).map (moved (Text.byteLength s.toList + 1))) := by
  have hspell : ∀ b ∈ spell s.toList, ¬ CutOff b.2.toList := by
    rw [← map_bare_tokensFrom 0]
    exact List.forall_mem_map.mpr fun u hu ↦ h u (List.mem_append_left _ hu)
  have htext : (s ++ "\n" ++ t).toList = s.toList ++ '\n' :: t.toList := by simp
  have hlength : Text.byteLength (s.toList ++ '\n' :: t.toList) =
      Text.byteLength t.toList + (Text.byteLength s.toList + 1) := by
    rw [Text.byteLength_append, Text.byteLength_cons, show '\n'.utf8Size = 1 from rfl]
    omega
  have hshifted : ofSource (s ++ "\n" ++ t) =
      (ofSource s).dropLast ++ (ofSource t).map (shifted (Text.byteLength s.toList + 1)) := by
    have hbehind : tokensFrom (Text.byteLength s.toList + 1) t.toList =
        (tokensFrom 0 t.toList).map (shifted (Text.byteLength s.toList + 1)) := by
      rw [← tokensFrom_shifted, Nat.zero_add]
    rw [ofSource_eq, ofSource_eq s, ofSource_eq t, htext, tokensFrom_append_newline hspell,
      Nat.zero_add, tokensFrom_cons_skipped (by decide), show '\n'.utf8Size = 1 from rfl, hbehind,
      hlength, List.dropLast_concat, List.map_append, List.append_assoc, List.map_singleton,
      shifted_endAt]
  refine ⟨hshifted, fun hsize ↦ ?_⟩
  rw [htext, hlength] at hsize
  rw [hshifted]
  congr 1
  refine List.map_congr_left fun u hu ↦ ?_
  obtain ⟨hle, hstop⟩ := span_le_of_mem_ofSource hu
  rw [shifted, moved, Span.shifted_eq_moved hle (by omega)]

/-- A comment that is closed, and a literal that is not and has the mark of a comment. -/
private def brokenLine : String := "/* @\" */ x = \"/*"

private theorem opened_brokenLine : ∀ u ∈ ofSource brokenLine, ¬ ['/', '*'] <+: u.text.toList ∧
    ¬ ['"', '"', '"'] <:+: u.text.toList ∧
      ¬ ∃ opening ∈ verbatimOpenings, opening <+: u.text.toList := by
  decide +kernel

theorem ofSource_brokenLine :
    (∀ u ∈ ofSource brokenLine, ¬ CutOff u.text.toList) ∧
      Text.byteLength (brokenLine ++ "\n" ++ "*/ \"\"\"").toList ≤ Span.maxOffset ∧
      ofSource (brokenLine ++ "\n" ++ "*/ \"\"\"") =
        (ofSource brokenLine).dropLast ++ (ofSource "*/ \"\"\"").map
          (moved (Text.byteLength brokenLine.toList + 1)) := by
  have hwhole : ∀ u ∈ ofSource brokenLine, ¬ CutOff u.text.toList := by
    intro u hu hcut
    obtain ⟨hcomment, hraw, hverbatim⟩ := opened_brokenLine u hu
    rcases hcut.opened with h | h | h
    · exact hcomment h
    · exact hraw h
    · exact hverbatim h
  have hsize : Text.byteLength (brokenLine ++ "\n" ++ "*/ \"\"\"").toList ≤ Span.maxOffset := by
    decide
  exact ⟨hwhole, hsize, (ofSource_append_newline brokenLine _ hwhole).2 hsize⟩

/-- Behind a text that offsets do not reach past, tokens do not move along. -/
theorem not_forall_ofSource_append_newline :
    ¬ ∀ s t : String, (∀ u ∈ ofSource s, ¬ CutOff u.text.toList) → ofSource (s ++ "\n" ++ t) =
      (ofSource s).dropLast ++ (ofSource t).map (moved (Text.byteLength s.toList + 1)) := by
  intro hall
  let far := Span.maxOffset + 1
  have hx : (⟨.ident, ⟨0, 1⟩, "x"⟩ : Token) ∈ ofSource "x" := by decide
  have hspaces := hall (String.ofList (Text.blanks far)) "x"
  have htokens : ofSource (String.ofList (Text.blanks far)) = [endAt far] := by
    have hblanks : (String.ofList (Text.blanks far)).toList = Text.blanks far ++ "".toList := by
      rw [String.toList_ofList, String.toList_empty, List.append_nil]
    rw [ofSource_blanks hblanks, show ofSource "" = [endAt 0] by decide, List.map_singleton,
      shifted_endAt, Nat.zero_add]
  rw [htokens, String.toList_ofList, Text.byteLength_blanks] at hspaces
  have hwhole : ∀ u ∈ [endAt far], ¬ CutOff u.text.toList := by
    refine List.forall_mem_singleton.mpr fun hcut ↦ ?_
    have hopened : ¬ (['/', '*'] <+: ([] : List Char) ∨ ['"', '"', '"'] <:+: ([] : List Char) ∨
        ∃ opening ∈ verbatimOpenings, opening <+: ([] : List Char)) := by decide
    exact hopened hcut.opened
  have hmem : moved (far + 1) ⟨.ident, ⟨0, 1⟩, "x"⟩ ∈
      ofSource (String.ofList (Text.blanks far) ++ "\n" ++ "x") := by
    rw [hspaces hwhole]
    exact List.mem_append_right _ (List.mem_map_of_mem hx)
  have hstop := (span_le_of_mem_ofSource hmem).2
  dsimp only [moved, Span.moved] at hstop
  omega

end Companion.Token
