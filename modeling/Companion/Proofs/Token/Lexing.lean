import Companion.Token.Stream
import Mathlib.Data.List.Find
import Mathlib.Data.List.TakeWhile

/-!
How far a lexeme reaches, and what it looks at. It ends inside the text (`Lexeme.scan_le`); and a
lexeme that is no error looks at nothing behind its own end but whether it could go on there. No
lexeme goes on with a separator, except white space with white space and comments up to the end of
their line. So in front of a separator a lexeme is the one that is read where the text ends there
(`Lexeme.scan_append`).
-/

set_option autoImplicit false
set_option relaxedAutoImplicit false

namespace Companion.Token.Lexeme

/-! ### Reach -/

theorem run_le (p : Char → Bool) (cs : List Char) : run p cs ≤ cs.length :=
  (List.takeWhile_prefix p).length_le

theorem run_drop_le (p : Char → Bool) (cs : List Char) (n : Nat) :
    run p (cs.drop n) ≤ cs.length - n := by
  rw [← List.length_drop]
  exact run_le p _

theorem exponent_le (cs : List Char) : exponent cs ≤ cs.length := by
  fun_cases exponent cs with
  | case1 e cs _ sign digits => exact Nat.zero_le _
  | case2 e cs _ sign digits h =>
    have hdigits : digits ≤ cs.length - sign := run_drop_le Char.isDigit cs sign
    simp only [List.length_cons]
    omega
  | case3 => exact Nat.zero_le _
  | case4 => exact Nat.zero_le _

theorem fraction_le (cs : List Char) : fraction cs ≤ cs.length := by
  fun_cases fraction cs with
  | case1 d cs hdigit =>
    have hle := run_le isDigitOrUnderscore cs
    simp only [List.length_cons]
    omega
  | case2 => exact Nat.zero_le _
  | case3 => exact Nat.zero_le _

theorem based_le (cs : List Char) : based cs ≤ cs.length := by
  fun_cases based cs with
  | case1 => exact Nat.zero_le _
  | case2 b cs digits h =>
    have hdigits : digits ≤ cs.length := by
      simp only [digits]
      split
      · exact run_le _ _
      · split
        · exact run_le _ _
        · exact Nat.zero_le _
    have hle := run_drop_le isIntegerSuffix cs digits
    simp only [List.length_cons]
    omega
  | case3 => exact Nat.zero_le _

theorem decimal_le (cs : List Char) : decimal cs ≤ cs.length := by
  rw [decimal]
  have hwhole := run_le isDigitOrUnderscore cs
  have hfrac := fraction_le (cs.drop (run isDigitOrUnderscore cs))
  have hexp := exponent_le (cs.drop (run isDigitOrUnderscore cs +
    fraction (cs.drop (run isDigitOrUnderscore cs))))
  have hsuffix := run_drop_le (fun c ↦ isIntegerSuffix c || isRealSuffix c) cs
    (run isDigitOrUnderscore cs + fraction (cs.drop (run isDigitOrUnderscore cs)) +
      exponent (cs.drop (run isDigitOrUnderscore cs +
        fraction (cs.drop (run isDigitOrUnderscore cs)))))
  rw [List.length_drop] at hfrac hexp
  omega

theorem content_le (quote : Char) (cs : List Char) : content quote cs ≤ cs.length := by
  fun_induction content quote cs <;> grind

theorem closed_le {quote : Char} {cs : List Char} {n : Nat} (h : closed quote cs = some n) :
    n ≤ cs.length := by
  rw [closed] at h
  split at h
  · rename_i hquote
    obtain rfl := Option.some.inj h
    exact (List.getElem?_eq_some_iff.mp hquote).1
  · cases h

theorem verbatim_le {cs : List Char} {n : Nat} (h : verbatim cs = some n) : n ≤ cs.length := by
  fun_induction verbatim cs generalizing n with
  | case1 => cases h
  | case2 cs ih =>
    obtain ⟨m, hm, rfl⟩ := Option.map_eq_some_iff.mp h
    have hle := ih hm
    simp only [List.length_cons]
    omega
  | case3 cs =>
    obtain rfl := Option.some.inj h
    simp only [List.length_cons]
    omega
  | case4 c cs _ _ ih =>
    obtain ⟨m, hm, rfl⟩ := Option.map_eq_some_iff.mp h
    have hle := ih hm
    simp only [List.length_cons]
    omega

theorem verbatim_getD_le (cs : List Char) : (verbatim cs).getD cs.length ≤ cs.length := by
  cases h : verbatim cs with
  | none => exact Nat.le_refl _
  | some n => exact verbatim_le h

theorem indexOf?_le {pattern cs : List Char} {n : Nat} (h : indexOf? pattern cs = some n) :
    n + pattern.length ≤ cs.length := by
  fun_induction indexOf? pattern cs generalizing n with
  | case1 hempty =>
    obtain rfl := Option.some.inj h
    simp [List.isEmpty_iff.mp hempty]
  | case2 => cases h
  | case3 c cs hprefix =>
    obtain rfl := Option.some.inj h
    have hle := (List.isPrefixOf_iff_prefix.mp hprefix).length_le
    omega
  | case4 c cs _ ih =>
    obtain ⟨m, hm, rfl⟩ := Option.map_eq_some_iff.mp h
    have hle := ih hm
    simp only [List.length_cons]
    omega

theorem raw_le {opening quotes : Nat} {cs : List Char} (h : opening ≤ cs.length) :
    (raw opening quotes cs).2 ≤ cs.length := by
  rw [raw]
  split
  · rename_i n hn
    have hle := indexOf?_le hn
    rw [List.length_replicate, List.length_drop] at hle
    dsimp only
    omega
  · exact Nat.le_refl _

theorem symbol_le (c : Char) (cs : List Char) : (symbol c cs).2 ≤ cs.length := by
  rw [symbol]
  split
  · rename_i spelling k hfound
    have hprefix := List.find?_some hfound
    have hle := (List.isPrefixOf_iff_prefix.mp hprefix).length_le
    simp only [List.length_cons] at hle
    dsimp only
    omega
  · exact Nat.zero_le _

theorem point_le (cs : List Char) : (point cs).2 ≤ cs.length := by
  fun_cases point cs with
  | case1 d rest hdigit whole exp suffix =>
    have hwhole : whole ≤ rest.length := run_le _ _
    have hexp := exponent_le (rest.drop whole)
    have hsuffix : suffix ≤ (rest.drop (whole + exp)).length := by
      simp only [suffix]
      split
      · rename_i s more hmore
        rw [hmore, List.length_cons]
        split <;> omega
      · exact Nat.zero_le _
    rw [List.length_drop] at hexp hsuffix
    simp only [List.length_cons]
    omega
  | case2 => exact Nat.zero_le _
  | case3 => exact Nat.zero_le _

theorem number_le (c : Char) (cs : List Char) : (number c cs).2 ≤ cs.length := by
  have hdecimal := decimal_le cs
  have hbased := based_le cs
  rw [number]
  split <;> split <;> omega

theorem character_le (cs : List Char) : (character cs).2 ≤ cs.length := by
  fun_cases character cs with
  | case1 => exact Nat.zero_le _
  | case2 n hclosed => exact closed_le hclosed
  | case3 => exact content_le _ _

theorem quotedText_le (cs : List Char) : (quotedText cs).2 ≤ cs.length := by
  rw [quotedText]
  split
  · exact raw_le (run_le _ _)
  · split
    · rename_i hclosed
      exact closed_le hclosed
    · exact content_le _ _

theorem escaped_le (cs : List Char) : (escaped cs).2 ≤ cs.length := by
  fun_cases escaped cs with
  | case1 rest n h =>
    have hle := verbatim_le h
    simp only [List.length_cons]
    omega
  | case2 => exact Nat.le_refl _
  | case3 rest =>
    have hle := verbatim_getD_le rest
    simp only [List.length_cons]
    omega
  | case4 => simp
  | case5 c rest =>
    have hle := run_le continuesWord rest
    simp only [List.length_cons]
    omega
  | case6 => exact Nat.zero_le _
  | case7 => exact Nat.zero_le _

theorem dollar_le (cs : List Char) : (dollar cs).2 ≤ cs.length := by
  fun_cases dollar cs with
  | case1 cs more quotes =>
    have hmore : more ≤ cs.length := run_le _ _
    have hquotes : quotes ≤ cs.length - more := run_drop_le _ _ _
    exact raw_le (by omega)
  | case2 rest n hclosed =>
    have hle := closed_le hclosed
    simp only [List.length_cons]
    omega
  | case3 => exact Nat.zero_le _
  | case4 rest =>
    have hle := content_le '"' rest
    simp only [List.length_cons]
    omega
  | case5 rest =>
    have hle := verbatim_getD_le rest
    simp only [List.length_cons]
    omega
  | case6 => simp
  | case7 cs => exact run_le _ _

theorem slash_le (cs : List Char) : (slash cs).2 ≤ cs.length := by
  fun_cases slash cs with
  | case1 rest =>
    have hle : restOfLine rest ≤ rest.length := run_le _ _
    simp only [List.length_cons]
    omega
  | case2 rest n hfound =>
    have hle := indexOf?_le hfound
    simp only [List.length_cons, List.length_nil] at *
    omega
  | case3 => exact Nat.le_refl _
  | case4 => exact symbol_le _ _

/-- A lexeme ends inside the text. -/
theorem scan_le (c : Char) (cs : List Char) : (scan c cs).2 ≤ cs.length := by
  fun_cases scan c cs
  · exact run_le _ _
  · exact run_le _ _
  · exact number_le _ _
  · exact slash_le _
  · exact run_le _ _
  · exact quotedText_le _
  · exact character_le _
  · exact escaped_le _
  · exact dollar_le _
  · exact point_le _
  · exact symbol_le _ _

/-! ### Separators -/

/-- Characters with which no word, number, symbol or quotation goes on. -/
def separators : List Char := ['\n', ' ', ';', ',', '(', ')', '[', ']', '\x7b', '\x7d']

/-- The characters that lexemes look for beside those of words and numbers. -/
def marks : List Char :=
  ['e', 'E', '+', '-', '.', 'x', 'X', 'b', 'B', '0', '1', '_', '"', '\'', '\\', '@', '$', '/', '*']

section Separator

variable {d : Char} (hd : d ∈ separators)

include hd

/-- Words and numbers do not go on with a separator. -/
theorem separator_class : ∀ p ∈ [continuesWord, Text.sharesLeadByte, Char.isDigit,
    isDigitOrUnderscore, isHexDigitOrUnderscore, isIntegerSuffix, isRealSuffix], p d = false := by
  have hclass : ∀ p ∈ [continuesWord, Text.sharesLeadByte, Char.isDigit, isDigitOrUnderscore,
      isHexDigitOrUnderscore, isIntegerSuffix, isRealSuffix], separators.all (!p ·) = true := by
    decide
  intro p hp
  simpa using List.all_eq_true.mp (hclass p hp) d hd

theorem separator_ne : ∀ m ∈ marks, d ≠ m := by
  have hmarks : separators.all (!marks.contains ·) = true := by decide
  rintro m hm rfl
  simpa [hm] using List.all_eq_true.mp hmarks d hd

theorem separator_not_mem_tail : ∀ s ∈ Kind.symbols, d ∉ s.1.tail := by
  have hsymbols : ∀ s ∈ Kind.symbols, separators.all (!s.1.tail.contains ·) = true := by decide
  intro s hs
  simpa using List.all_eq_true.mp (hsymbols s hs) d hd

end Separator

theorem run_append {p : Char → Bool} {d : Char} (hp : p d = false) (cs r : List Char) :
    run p (cs ++ d :: r) = run p cs := by
  rw [run, run, List.takeWhile_append]
  split
  · rename_i h
    rw [List.takeWhile_cons_of_neg (by simp [hp]), List.append_nil, h]
  · rfl

theorem run_drop_append {p : Char → Bool} {d : Char} (hp : p d = false) {cs : List Char} {n : Nat}
    (hn : n ≤ cs.length) (r : List Char) : run p ((cs ++ d :: r).drop n) = run p (cs.drop n) := by
  rw [List.drop_append_of_le_length hn, run_append hp]

theorem isPrefixOf_append {pattern cs : List Char} (h : pattern.length ≤ cs.length)
    (r : List Char) : pattern.isPrefixOf (cs ++ r) = pattern.isPrefixOf cs := by
  rw [Bool.eq_iff_iff, List.isPrefixOf_iff_prefix, List.isPrefixOf_iff_prefix]
  exact ⟨fun hlong ↦ List.prefix_of_prefix_length_le hlong (List.prefix_append cs r) h,
    fun hshort ↦ hshort.trans (List.prefix_append cs r)⟩

theorem indexOf?_append {pattern cs : List Char} {n : Nat} (h : indexOf? pattern cs = some n)
    (r : List Char) : indexOf? pattern (cs ++ r) = some n := by
  fun_induction indexOf? pattern cs generalizing n with
  | case1 hempty =>
    obtain rfl := List.isEmpty_iff.mp hempty
    obtain rfl := Option.some.inj h
    cases r <;> simp [indexOf?]
  | case2 => cases h
  | case3 c cs hprefix =>
    obtain rfl := Option.some.inj h
    have hlength := (List.isPrefixOf_iff_prefix.mp hprefix).length_le
    rw [List.cons_append, indexOf?, ← List.cons_append, isPrefixOf_append hlength, if_pos hprefix]
  | case4 c cs hprefix ih =>
    obtain ⟨m, hm, rfl⟩ := Option.map_eq_some_iff.mp h
    have hlength : pattern.length ≤ (c :: cs).length := by
      have hle := indexOf?_le hm
      simp only [List.length_cons]
      omega
    rw [List.cons_append, indexOf?, ← List.cons_append, isPrefixOf_append hlength, if_neg hprefix,
      ih hm]
    rfl

theorem verbatim_append {cs : List Char} {n : Nat} (h : verbatim cs = some n) {d : Char}
    (hd : d ≠ '"') (r : List Char) : verbatim (cs ++ d :: r) = some n := by
  fun_induction verbatim cs generalizing n with
  | case1 => cases h
  | case2 cs ih =>
    obtain ⟨m, hm, rfl⟩ := Option.map_eq_some_iff.mp h
    simp [verbatim, ih hm]
  | case3 cs hsingle =>
    obtain rfl := Option.some.inj h
    cases cs with
    | nil => simp [verbatim, hd]
    | cons c cs =>
      have hquote : c ≠ '"' := by rintro rfl; exact hsingle cs rfl
      simp [verbatim, hquote]
  | case4 c cs hdouble hquote ih =>
    obtain ⟨m, hm, rfl⟩ := Option.map_eq_some_iff.mp h
    rw [List.cons_append, verbatim, ih hm]
    · rfl
    · exact fun _ hc ↦ absurd hc (by simpa using hquote)
    · exact fun hc ↦ absurd hc (by simpa using hquote)

theorem getElem?_content {quote : Char} {cs : List Char} {n : Nat}
    (h : closed quote cs = some n) : cs[content quote cs]? = some quote ∧
      n = content quote cs + 1 := by
  rw [closed] at h
  split at h
  · rename_i hquote
    exact ⟨hquote, (Option.some.inj h).symm⟩
  · cases h

theorem content_append {quote : Char} (hback : quote ≠ '\\') {cs : List Char}
    (h : cs[content quote cs]? = some quote) (r : List Char) :
    content quote (cs ++ r) = content quote cs := by
  fun_induction content quote cs with
  | case1 => simp at h
  | case2 cs => simp [content]
  | case3 c cs hc ih =>
    rw [List.cons_append, List.cons_append, content, if_neg hc, ih]
    simpa [Nat.add_comm 2] using h
  | case4 c cs _ hends =>
    obtain rfl : c = quote := by simpa using h
    rw [List.cons_append, content]
    · simp
    · exact fun _ _ hc ↦ absurd hc hback
  | case5 c cs _ hgoes ih =>
    simp only [Bool.or_eq_true, decide_eq_true_eq, not_or] at hgoes
    rw [List.cons_append, content, ih (by simpa [Nat.add_comm 1] using h)]
    · simp [hgoes]
    · exact fun _ _ hc ↦ absurd hc hgoes.1.2

theorem closed_append {quote : Char} (hback : quote ≠ '\\') {cs : List Char} {n : Nat}
    (h : closed quote cs = some n) (r : List Char) : closed quote (cs ++ r) = some n := by
  obtain ⟨hquote, rfl⟩ := getElem?_content h
  rw [closed, content_append hback hquote,
    List.getElem?_append_left (List.getElem?_eq_some_iff.mp hquote).1, if_pos hquote]

/-- A text that does not begin with a character does not do so in front of another one. -/
theorem append_cons_ne {c d : Char} (hd : d ≠ c) {cs : List Char} (h : ∀ rest, cs ≠ c :: rest)
    (r rest : List Char) : cs ++ d :: r ≠ c :: rest := by
  cases cs with
  | nil => exact fun heq ↦ hd (List.cons.inj heq).1
  | cons b cs => exact fun heq ↦ h cs (by rw [(List.cons.inj heq).1])

section Separated

variable {d : Char} (hd : d ∈ separators) (r : List Char)

include hd

theorem exponent_append (cs : List Char) : exponent (cs ++ d :: r) = exponent cs := by
  have hdigit : d.isDigit = false := separator_class hd _ (by simp)
  have hmark := separator_ne hd
  simp only [marks, List.forall_mem_cons] at hmark
  cases cs with
  | nil => simp [exponent, hmark.1, hmark.2.1]
  | cons e cs =>
    cases cs with
    | nil => simp [exponent, run, hdigit, hmark]
    | cons s cs =>
      have hdigits (sign : Nat) (hsign : sign ≤ (s :: cs).length) :
          run Char.isDigit ((s :: (cs ++ d :: r)).drop sign) =
            run Char.isDigit ((s :: cs).drop sign) :=
        run_drop_append hdigit hsign r
      simp only [List.cons_append, exponent]
      rw [hdigits _ (by split <;> simp)]

theorem fraction_append (cs : List Char) : fraction (cs ++ d :: r) = fraction cs := by
  have hdigit : d.isDigit = false := separator_class hd _ (by simp)
  have hclass : isDigitOrUnderscore d = false := separator_class hd _ (by simp)
  have hmark := separator_ne hd
  simp only [marks, List.forall_mem_cons] at hmark
  cases cs with
  | nil => cases r <;> simp [fraction, hmark]
  | cons c cs =>
    by_cases hc : c = '.'
    · subst hc
      cases cs with
      | nil => simp [fraction, hdigit]
      | cons e cs => simp only [List.cons_append, fraction, run_append hclass]
    · cases cs <;> simp [fraction, hc]

theorem based_append (cs : List Char) : based (cs ++ d :: r) = based cs := by
  have hhex : isHexDigitOrUnderscore d = false := separator_class hd _ (by simp)
  have hsuffix : isIntegerSuffix d = false := separator_class hd _ (by simp)
  have hmark := separator_ne hd
  simp only [marks, List.forall_mem_cons] at hmark
  cases cs with
  | nil => simp [based, hmark]
  | cons b cs =>
    have hbits : run (fun c ↦ c = '0' || c = '1' || c = '_') (cs ++ d :: r) =
        run (fun c ↦ c = '0' || c = '1' || c = '_') cs :=
      run_append (by simp [hmark]) cs r
    simp only [List.cons_append, based, run_append hhex, hbits]
    rw [run_drop_append hsuffix]
    repeat' split
    all_goals first
      | exact run_le _ _
      | exact Nat.zero_le _

theorem decimal_append (cs : List Char) : decimal (cs ++ d :: r) = decimal cs := by
  have hclass : isDigitOrUnderscore d = false := separator_class hd _ (by simp)
  have hsuffix : (isIntegerSuffix d || isRealSuffix d) = false := by
    rw [separator_class hd isIntegerSuffix (by simp), separator_class hd isRealSuffix (by simp)]
    rfl
  have hwhole := run_le isDigitOrUnderscore cs
  have hfrac := fraction_le (cs.drop (run isDigitOrUnderscore cs))
  have hexp := exponent_le (cs.drop (run isDigitOrUnderscore cs +
    fraction (cs.drop (run isDigitOrUnderscore cs))))
  rw [List.length_drop] at hfrac hexp
  have hdrop (n : Nat) (hn : n ≤ cs.length) : (cs ++ d :: r).drop n = cs.drop n ++ d :: r :=
    List.drop_append_of_le_length hn
  simp only [decimal, run_append hclass]
  rw [hdrop _ hwhole, fraction_append hd, hdrop _ (by omega), exponent_append hd,
    hdrop _ (by omega), run_append hsuffix]

theorem number_append (c : Char) (cs : List Char) : number c (cs ++ d :: r) = number c cs := by
  simp only [number, based_append hd, decimal_append hd]

theorem point_append (cs : List Char) : point (cs ++ d :: r) = point cs := by
  have hdigit : d.isDigit = false := separator_class hd _ (by simp)
  have hclass : isDigitOrUnderscore d = false := separator_class hd _ (by simp)
  have hsuffix : isRealSuffix d = false := separator_class hd _ (by simp)
  cases cs with
  | nil => simp [point, hdigit]
  | cons c cs =>
    have hwhole := run_le isDigitOrUnderscore cs
    have hexp := exponent_le (cs.drop (run isDigitOrUnderscore cs))
    rw [List.length_drop] at hexp
    simp only [List.cons_append, point, run_append hclass]
    rw [List.drop_append_of_le_length hwhole, exponent_append hd,
      List.drop_append_of_le_length (by omega)]
    cases cs.drop
      (run isDigitOrUnderscore cs + exponent (cs.drop (run isDigitOrUnderscore cs))) with
    | nil => simp [hsuffix]
    | cons s rest => rfl

omit hd in
theorem wordKind_append (hlead : Text.sharesLeadByte d = false) (word cs : List Char) :
    wordKind word (cs ++ d :: r) = wordKind word cs := by
  cases hword : Kind.reserved.lookup word <;> cases cs <;> simp [wordKind, hword, hlead]

theorem word_append (c : Char) (cs : List Char) : word c (cs ++ d :: r) = word c cs := by
  have hword : continuesWord d = false := separator_class hd _ (by simp)
  have hlead : Text.sharesLeadByte d = false := separator_class hd _ (by simp)
  have hreach := run_le continuesWord cs
  simp only [word, run_append hword]
  rw [List.take_append_of_le_length hreach, List.drop_append_of_le_length hreach]
  rw [wordKind_append r hlead]

omit hd in
theorem isPrefixOf_separated {pattern : List Char} (h : d ∉ pattern) (cs : List Char) :
    pattern.isPrefixOf (cs ++ d :: r) = pattern.isPrefixOf cs := by
  induction pattern generalizing cs with
  | nil => simp
  | cons p pattern ih =>
    simp only [List.mem_cons, not_or] at h
    cases cs with
    | nil => simp [List.isPrefixOf, Ne.symm h.1]
    | cons c cs => simp [List.isPrefixOf, ih h.2]

theorem symbol_append (c : Char) (cs : List Char) : symbol c (cs ++ d :: r) = symbol c cs := by
  have hsame : ∀ s ∈ Kind.symbols,
      s.1.isPrefixOf (c :: (cs ++ d :: r)) = s.1.isPrefixOf (c :: cs) := by
    intro s hs
    have htail := separator_not_mem_tail hd s hs
    cases hspelling : s.1 with
    | nil => rfl
    | cons p pattern =>
      rw [hspelling, List.tail_cons] at htail
      simp [List.isPrefixOf, isPrefixOf_separated r htail]
  rw [symbol, symbol, List.find?_congr hsame]

omit hd in
theorem raw_append {opening quotes : Nat} {cs : List Char} (hopening : opening ≤ cs.length)
    (h : (raw opening quotes cs).1 ≠ .token .error) :
    raw opening quotes (cs ++ d :: r) = raw opening quotes cs := by
  rw [raw] at h
  split at h
  · rename_i n hn
    rw [raw, raw, List.drop_append_of_le_length hopening, indexOf?_append hn, hn]
  · exact absurd rfl h

theorem quotedText_append {cs : List Char} (h : (quotedText cs).1 ≠ .token .error) :
    quotedText (cs ++ d :: r) = quotedText cs := by
  have hquote : d ≠ '"' := separator_ne hd _ (by simp [marks])
  have hquotes : run (· = '"') (cs ++ d :: r) = run (· = '"') cs := run_append (by simpa) cs r
  revert h
  fun_cases quotedText cs with
  | case1 quotes hraw =>
    intro h
    rw [quotedText, hquotes, if_pos hraw, raw_append r (run_le _ _) h]
  | case2 quotes hplain n hclosed =>
    intro _
    rw [quotedText, hquotes, if_neg hplain, closed_append (by decide) hclosed]
  | case3 => exact fun h ↦ absurd rfl h

omit hd in
theorem character_append {cs : List Char} (h : (character cs).1 ≠ .token .error) :
    character (cs ++ d :: r) = character cs := by
  cases hclosed : closed '\'' cs with
  | none =>
    refine absurd ?_ h
    rw [character, hclosed]
    split
    · rfl
    · contradiction
    · rfl
  | some n =>
    rw [character, character, closed_append (by decide) hclosed,
      content_append (by decide) (getElem?_content hclosed).1, hclosed]

theorem escaped_append {cs : List Char} (h : (escaped cs).1 ≠ .token .error) :
    escaped (cs ++ d :: r) = escaped cs := by
  have hclass : continuesWord d = false := separator_class hd _ (by simp)
  have hquote : d ≠ '"' := separator_ne hd _ (by simp [marks])
  revert h
  fun_cases escaped cs with
  | case1 rest n hverbatim =>
    intro _
    simp only [List.cons_append, escaped, verbatim_append hverbatim hquote]
  | case5 c rest hnotQuote hnotDollar hdollar hstart =>
    intro _
    rw [List.cons_append, escaped, if_pos hstart, run_append hclass]
    · exact hnotQuote
    · exact fun _ hc _ ↦ hdollar hc
    · exact hdollar
  | _ => exact fun h ↦ absurd rfl h

theorem dollar_append {cs : List Char} (h : (dollar cs).1 ≠ .token .error) :
    dollar (cs ++ d :: r) = dollar cs := by
  have hquote : d ≠ '"' := separator_ne hd _ (by simp [marks])
  have hdollar : d ≠ '$' := separator_ne hd _ (by simp [marks])
  have hmore : run (· = '$') (cs ++ d :: r) = run (· = '$') cs := run_append (by simpa) cs r
  have hquotes : run (· = '"') ((cs ++ d :: r).drop (run (· = '$') cs)) =
      run (· = '"') (cs.drop (run (· = '$') cs)) :=
    run_drop_append (by simpa) (run_le _ _) r
  revert h
  fun_cases dollar cs with
  | case1 cs more quotes hraw =>
    intro h
    have hreach : quotes ≤ cs.length - more := run_drop_le _ _ _
    have hinside : more ≤ cs.length := run_le _ _
    simp only [dollar.eq_def (cs ++ d :: r), hmore, hquotes]
    rw [if_pos hraw, raw_append r (by omega) h]
  | case2 rest n hclosed more quotes hfew =>
    intro _
    simp only [dollar.eq_def ('"' :: rest ++ d :: r), hmore, hquotes]
    rw [if_neg hfew]
    simp only [List.cons_append, closed_append (by decide : '"' ≠ '\\') hclosed]
  | _ => exact fun h ↦ absurd rfl h

theorem slash_append {cs : List Char} (h : (slash cs).1 ≠ .token .error)
    (hline : (slash cs).1 = .trivia .lineComment → d = '\n') :
    slash (cs ++ d :: r) = slash cs := by
  have hslash : d ≠ '/' := separator_ne hd _ (by simp [marks])
  have hstar : d ≠ '*' := separator_ne hd _ (by simp [marks])
  revert h hline
  fun_cases slash cs with
  | case1 rest =>
    intro _ hline
    obtain rfl := hline rfl
    simp only [List.cons_append, slash, restOfLine]
    rw [run_append (by simp)]
  | case2 rest n hfound =>
    intro _ _
    simp only [List.cons_append, slash, indexOf?_append hfound]
  | case3 => exact fun h ↦ absurd rfl h
  | case4 cs hnotSlash hnotStar =>
    intro _ _
    rw [slash, symbol_append hd]
    · exact append_cons_ne hslash hnotSlash r
    · exact append_cons_ne hstar hnotStar r

/-- In front of a separator a lexeme other than white space is the one that is read there alone. A
line comment or directive ends at a line feed only. -/
theorem scan_append {c : Char} {cs : List Char} (hskip : isSkipped c = false)
    (h : (scan c cs).1 ≠ .token .error)
    (hline : (scan c cs).1 = .trivia .lineComment ∨ (scan c cs).1 = .trivia .directive →
      d = '\n') :
    scan c (cs ++ d :: r) = scan c cs := by
  revert h hline
  simp only [scan.eq_def, hskip, Bool.false_eq_true, if_false]
  split
  · exact fun _ _ ↦ word_append hd r c cs
  split
  · exact fun _ _ ↦ number_append hd r c cs
  split
  · exact fun h hline ↦ slash_append hd r h fun hcomment ↦ hline (.inl hcomment)
  · intro _ hline
    obtain rfl := hline (.inr rfl)
    rw [restOfLine, restOfLine, run_append (by simp)]
  · exact fun h _ ↦ quotedText_append hd r h
  · exact fun h _ ↦ character_append r h
  · exact fun h _ ↦ escaped_append hd r h
  · exact fun h _ ↦ dollar_append hd r h
  · exact fun _ _ ↦ point_append hd r cs
  · exact fun _ _ ↦ symbol_append hd r c cs

end Separated

end Companion.Token.Lexeme
