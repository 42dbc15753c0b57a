import Companion.Proofs.Token.Lexing
import Companion.Text.Affix
import Mathlib.Data.List.Basic

/-!
What texts spell. Of the lexemes of a text only the tokens matter to a parser, and of these their
kinds and texts (`Token.spell`). A text is settled if it spells the same whatever comes behind it
(`Token.Settled`, `Token.settled_concat`); names and settled texts one behind the other spell what
they spell one by one (`Token.spell_joinWith`). A text that spells one identifier is a word,
possibly escaped (`Token.isNameText_of_spell`).
-/

set_option autoImplicit false
set_option relaxedAutoImplicit false

namespace Companion

namespace Token

/-- A token without its place. -/
abbrev Bare := Kind × String

def bare (t : Token) : Bare := (t.kind, t.text)

namespace Lexeme

/-- The token that a lexeme is, if it is no trivia. -/
def bare? : Lexeme → Option Bare
  | ⟨.trivia _, _⟩ => none
  | ⟨.token k, cs⟩ => some (k, String.ofList cs)

/-! ### Lexemes one by one -/

theorem allWithin_eq_all {budget : Nat} {cs : List Char} (h : cs.length ≤ budget) :
    allWithin budget cs = all cs := by
  suffices hbudgets : ∀ (b b' : Nat) (cs : List Char), cs.length ≤ b → cs.length ≤ b' →
      allWithin b cs = allWithin b' cs from hbudgets _ _ _ h (Nat.le_refl _)
  intro b
  induction b with
  | zero =>
    intro b' cs hb _
    obtain rfl := List.length_eq_zero_iff.mp (Nat.le_zero.mp hb)
    cases b' <;> rfl
  | succ b ih =>
    intro b' cs hb hb'
    cases cs with
    | nil => cases b' <;> rfl
    | cons c cs =>
      simp only [List.length_cons] at hb hb'
      obtain ⟨b', rfl⟩ := Nat.exists_eq_succ_of_ne_zero (by omega : b' ≠ 0)
      simp only [allWithin]
      rw [ih b' _ (by simp only [List.length_drop]; omega) (by simp only [List.length_drop]; omega)]

theorem all_cons (c : Char) (cs : List Char) :
    all (c :: cs) = ⟨(scan c cs).1, c :: cs.take (scan c cs).2⟩ :: all (cs.drop (scan c cs).2) := by
  have hrest : allWithin cs.length (cs.drop (scan c cs).2) = all (cs.drop (scan c cs).2) :=
    allWithin_eq_all (by simp)
  rw [← hrest, all, List.length_cons, allWithin]

/-- The lexemes of a text that are no white space. -/
def visible (cs : List Char) : List Lexeme := (all cs).filter (·.form ≠ .trivia .space)

theorem visible_cons {c : Char} (cs : List Char) (h : (scan c cs).1 ≠ .trivia .space) :
    visible (c :: cs) =
      ⟨(scan c cs).1, c :: cs.take (scan c cs).2⟩ :: visible (cs.drop (scan c cs).2) := by
  rw [visible, all_cons, List.filter_cons_of_pos (by simpa using h), visible]

theorem scan_of_isSkipped {c : Char} (h : isSkipped c = true) (cs : List Char) :
    scan c cs = (.trivia .space, run isSkipped cs) := by
  simp only [scan.eq_def, h, if_true]

/-- White space can be read character by character. -/
theorem visible_cons_skipped {c : Char} (h : isSkipped c = true) (cs : List Char) :
    visible (c :: cs) = visible cs := by
  have hrun : visible (c :: cs) = visible (cs.drop (run isSkipped cs)) := by
    rw [visible, all_cons, scan_of_isSkipped h, List.filter_cons_of_neg (by simp), visible]
  rw [hrun]
  cases cs with
  | nil => rfl
  | cons c' cs =>
    by_cases h' : isSkipped c' = true
    · rw [visible, visible, all_cons c', scan_of_isSkipped h', List.filter_cons_of_neg (by simp),
        run, run, List.takeWhile_cons_of_pos h', List.length_cons, List.drop_succ_cons]
    · rw [run, List.takeWhile_cons_of_neg h', List.length_nil, List.drop_zero]

theorem raw_ne_trivia (opening quotes : Nat) (cs : List Char) (t : Trivia) :
    (raw opening quotes cs).1 ≠ .trivia t := by
  rw [raw]
  split <;> simp

theorem symbol_ne_trivia (c : Char) (cs : List Char) (t : Trivia) :
    (symbol c cs).1 ≠ .trivia t := by
  rw [symbol]
  split <;> simp

theorem scan_ne_space {c : Char} (h : isSkipped c = false) (cs : List Char) :
    (scan c cs).1 ≠ .trivia .space := by
  simp only [scan.eq_def, h, Bool.false_eq_true, if_false]
  repeat' split
  · simp [word]
  · simp [number]
  · fun_cases slash cs
    case case4 => exact symbol_ne_trivia _ _ _
    all_goals simp
  · simp
  · fun_cases quotedText cs
    case case1 => exact raw_ne_trivia _ _ _ _
    all_goals simp
  · fun_cases character cs <;> simp
  · fun_cases escaped cs <;> simp
  · fun_cases dollar cs
    case case1 => exact raw_ne_trivia _ _ _ _
    all_goals simp
  · fun_cases point cs <;> simp
  · exact symbol_ne_trivia _ _ _

theorem raw_ne_eof (opening quotes : Nat) (cs : List Char) :
    (raw opening quotes cs).1 ≠ .token .eof := by
  rw [raw]
  split <;> simp

theorem symbol_ne_eof (c : Char) (cs : List Char) : (symbol c cs).1 ≠ .token .eof := by
  have hsymbols : ∀ s ∈ Kind.symbols, s.2 ≠ .eof := by decide
  rw [symbol]
  split
  · rename_i spelling k hfound
    exact fun heq ↦ hsymbols _ (List.mem_of_find?_eq_some hfound) (Form.token.inj heq)
  · simp

theorem wordKind_ne_eof (word rest : List Char) : wordKind word rest ≠ .eof := by
  have hreserved : ∀ p ∈ Kind.reserved, p.2 ≠ .eof := by decide
  rw [wordKind.eq_def]
  cases hlookup : Kind.reserved.lookup word with
  | none => simp
  | some k =>
    obtain ⟨front, back, heq, -⟩ := List.lookup_eq_some_iff.mp hlookup
    have hk : k ≠ .eof := hreserved (word, k) (by simp [heq])
    cases rest with
    | nil => exact hk
    | cons c cs =>
      dsimp only
      split
      · simp
      · exact hk

/-- The end of the file is no lexeme. -/
theorem scan_ne_eof (c : Char) (cs : List Char) : (scan c cs).1 ≠ .token .eof := by
  rw [scan.eq_def]
  repeat' split
  · simp
  · exact fun heq ↦ wordKind_ne_eof _ _ (Form.token.inj heq)
  · simp [number]
  · fun_cases slash cs
    case case4 => exact symbol_ne_eof _ _
    all_goals simp
  · simp
  · fun_cases quotedText cs
    case case1 => exact raw_ne_eof _ _ _
    all_goals simp
  · fun_cases character cs <;> simp
  · fun_cases escaped cs <;> simp
  · fun_cases dollar cs
    case case1 => exact raw_ne_eof _ _ _
    all_goals simp
  · fun_cases point cs <;> simp
  · exact symbol_ne_eof _ _

theorem form_ne_eof_of_mem_allWithin {budget : Nat} {cs : List Char} {l : Lexeme}
    (h : l ∈ allWithin budget cs) : l.form ≠ .token .eof := by
  induction budget generalizing cs with
  | zero => cases h
  | succ budget ih =>
    cases cs with
    | nil => cases h
    | cons c cs =>
      rcases List.mem_cons.mp h with rfl | h
      · exact scan_ne_eof c cs
      · exact ih h

/-- The lexeme ends in front of a separator. -/
def StopsAt (d : Char) (l : Lexeme) : Prop :=
  l.form ≠ .token .error ∧
    (l.form = .trivia .lineComment ∨ l.form = .trivia .directive → d = '\n')

instance (d : Char) (l : Lexeme) : Decidable (l.StopsAt d) := inferInstanceAs (Decidable (_ ∧ _))

/-- In front of a separator a text is read as it is read alone, if all its lexemes stop there. -/
theorem visible_append {d : Char} (hd : d ∈ separators) {cs : List Char}
    (h : ∀ l ∈ visible cs, l.StopsAt d) (r : List Char) :
    visible (cs ++ d :: r) = visible cs ++ visible (d :: r) := by
  induction hn : cs.length using Nat.strongRecOn generalizing cs with
  | ind n ih =>
    cases cs with
    | nil => rfl
    | cons c cs =>
      subst hn
      by_cases hskip : isSkipped c = true
      · rw [visible_cons_skipped hskip] at h
        rw [List.cons_append, visible_cons_skipped hskip, visible_cons_skipped hskip]
        exact ih _ (by simp) h rfl
      · rw [Bool.not_eq_true] at hskip
        rw [visible_cons cs (scan_ne_space hskip cs)] at h
        obtain ⟨hfirst, hrest⟩ := List.forall_mem_cons.mp h
        have hscan := scan_append hd r hskip hfirst.1 hfirst.2
        have hreach := scan_le c cs
        rw [List.cons_append, visible_cons _ (scan_ne_space hskip _), hscan,
          visible_cons cs (scan_ne_space hskip cs), List.take_append_of_le_length hreach,
          List.drop_append_of_le_length hreach, List.cons_append]
        rw [ih _ (by simp only [List.length_drop, List.length_cons]; omega) hrest rfl]

end Lexeme

open Lexeme

/-! ### Spelling -/

/-- The tokens that a text spells. -/
def spell (cs : List Char) : List Bare := (visible cs).filterMap bare?

theorem spell_eq_filterMap_all (cs : List Char) : spell cs = (all cs).filterMap bare? := by
  rw [spell, visible, List.filterMap_filter]
  refine List.filterMap_congr fun l _ ↦ ?_
  obtain ⟨form, text⟩ := l
  cases form with
  | token k => rfl
  | trivia t => cases t <;> rfl

/-- Where no token is an error, nothing that is read is one. -/
theorem form_ne_error_of_mem_visible {cs : List Char} (h : ∀ b ∈ spell cs, b.1 ≠ .error)
    {l : Lexeme} (hl : l ∈ visible cs) : l.form ≠ .token .error := by
  intro herror
  obtain ⟨form, text⟩ := l
  obtain rfl : form = .token .error := herror
  exact h _ (List.mem_filterMap.mpr ⟨_, hl, rfl⟩) rfl

theorem ne_eof_of_mem_spell {cs : List Char} {b : Bare} (h : b ∈ spell cs) : b.1 ≠ .eof := by
  rw [spell_eq_filterMap_all] at h
  obtain ⟨l, hl, hb⟩ := List.mem_filterMap.mp h
  have hform := form_ne_eof_of_mem_allWithin hl
  obtain ⟨form, text⟩ := l
  cases form with
  | trivia t => cases hb
  | token k =>
    obtain rfl := Option.some.inj hb
    exact fun heq ↦ hform (congrArg Form.token heq)

theorem map_bare_locate (offset : Nat) (ls : List Lexeme) :
    (locate offset ls).map bare = ls.filterMap bare? := by
  induction ls generalizing offset with
  | nil => rfl
  | cons l ls ih =>
    obtain ⟨form, text⟩ := l
    cases form with
    | trivia t => exact ih _
    | token k => simp [locate, bare?, bare, ih]

/-- The tokens of a source are those that it spells, and the end of the file. -/
theorem map_bare_ofSource (source : String) :
    (ofSource source).map bare = spell source.toList ++ [(.eof, "")] := by
  rw [ofSource, List.map_append, map_bare_locate, spell_eq_filterMap_all]
  rfl

theorem spell_cons_skipped {c : Char} (h : isSkipped c = true) (cs : List Char) :
    spell (c :: cs) = spell cs := by
  rw [spell, visible_cons_skipped h, spell]

theorem spell_append_separator {d : Char} (hd : d ∈ separators) {cs : List Char}
    (h : ∀ l ∈ visible cs, l.StopsAt d) (r : List Char) :
    spell (cs ++ d :: r) = spell cs ++ spell (d :: r) := by
  rw [spell, visible_append hd h, List.filterMap_append, spell, spell]

/-- A text that spells the same whatever comes behind it. -/
def Settled (cs : List Char) : Prop := ∀ r, spell (cs ++ r) = spell cs ++ spell r

theorem settled_nil : Settled [] := fun _ ↦ rfl

theorem Settled.append {a b : List Char} (ha : Settled a) (hb : Settled b) :
    Settled (a ++ b) := by
  intro r
  rw [List.append_assoc, ha, hb, ha, List.append_assoc]

theorem settled_separator {d : Char} (hd : d ∈ separators) : Settled [d] := by
  intro r
  simp only [separators, List.mem_cons, List.not_mem_nil, or_false] at hd
  rcases hd with rfl | rfl | hd
  · exact (spell_cons_skipped (by decide) r).trans (by rw [spell_cons_skipped (by decide)]; rfl)
  · exact (spell_cons_skipped (by decide) r).trans (by rw [spell_cons_skipped (by decide)]; rfl)
  · rcases hd with rfl | rfl | rfl | rfl | rfl | rfl | rfl | rfl <;> rfl

/-- A text that ends in a separator is settled, if everything before stops there. -/
theorem settled_concat {d : Char} (hd : d ∈ separators) {cs : List Char}
    (h : ∀ l ∈ visible cs, l.StopsAt d) : Settled (cs ++ [d]) := by
  intro r
  rw [List.append_assoc, List.singleton_append, spell_append_separator hd h,
    spell_append_separator hd h, List.append_assoc]
  exact congrArg _ (settled_separator hd r)

/-- Whether a text shows that it is settled: it ends in a separator at which all before stops. -/
def settles (cs : List Char) : Bool :=
  match cs.getLast? with
  | some d => decide (d ∈ separators) && (visible cs.dropLast).all (StopsAt d)
  | none => true

theorem settled_of_settles {cs : List Char} (h : settles cs = true) : Settled cs := by
  rw [settles] at h
  split at h
  · rename_i d hlast
    simp only [Bool.and_eq_true, decide_eq_true_eq, List.all_eq_true] at h
    rw [← List.dropLast_append_getLast? d hlast]
    exact settled_concat h.1 h.2
  · rename_i hlast
    rw [List.getLast?_eq_none_iff.mp hlast]
    exact settled_nil

/-! ### Names -/

namespace Lexeme

theorem isSkipped_of_startsWord {c : Char} (h : startsWord c = true) : isSkipped c = false := by
  by_contra hskip
  simp only [isSkipped, Bool.not_eq_false, Bool.or_eq_true, decide_eq_true_eq] at hskip
  rcases hskip with ((((rfl | rfl) | rfl) | rfl) | rfl) | rfl <;> revert h <;> decide +kernel

theorem isDigit_of_startsWord {c : Char} (h : startsWord c = true) : c.isDigit = false := by
  by_contra hdigit
  have hall : ∀ n < 58, 48 ≤ n → startsWord (Char.ofNat n) = false := by decide
  have hrange : 48 ≤ c.toNat ∧ c.toNat ≤ 57 := by
    simpa [Char.isDigit, UInt32.le_iff_toNat_le] using hdigit
  have hno := hall c.toNat (by omega) hrange.1
  rw [Char.ofNat_toNat, h] at hno
  cases hno

theorem scan_of_startsWord {c : Char} (h : startsWord c = true) (cs : List Char) :
    scan c cs = word c cs := by
  simp only [scan.eq_def, isSkipped_of_startsWord h, h, Bool.false_eq_true, if_false, if_true]

end Lexeme

/-- Letters, numbers and underlines, of which the first is no number. -/
def isWordText : List Char → Bool
  | [] => false
  | c :: cs => startsWord c && cs.all continuesWord

/-- A word, possibly escaped. -/
def isNameText : List Char → Bool
  | '@' :: cs => isWordText cs
  | cs => isWordText cs

/-- The kind of token that a name is read as. -/
def nameKind (cs : List Char) : Kind := (Kind.reserved.lookup cs).getD .ident

/-- Whether no word goes on with a text. -/
def breaks : List Char → Bool
  | [] => true
  | c :: _ => !continuesWord c && !Text.sharesLeadByte c

theorem run_of_breaks {cs r : List Char} (hcs : cs.all continuesWord = true)
    (hr : breaks r = true) : run continuesWord (cs ++ r) = cs.length := by
  have htake : r.takeWhile continuesWord = [] := by
    cases r with
    | nil => rfl
    | cons c r =>
      simp only [breaks, Bool.and_eq_true, Bool.not_eq_true'] at hr
      rw [List.takeWhile_cons_of_neg (by simp [hr.1])]
  rw [run, List.takeWhile_append_of_pos (by simpa using hcs), htake, List.append_nil]

theorem wordKind_of_breaks {word r : List Char} (hr : breaks r = true) :
    wordKind word r = nameKind word := by
  rw [wordKind.eq_def, nameKind]
  cases Kind.reserved.lookup word <;> cases r with
  | nil => rfl
  | cons c r =>
    simp only [breaks, Bool.and_eq_true, Bool.not_eq_true'] at hr
    simp [hr.2]

theorem nameKind_eq_ident_iff {cs : List Char} :
    nameKind cs = .ident ↔ cs ∉ Kind.reserved.map Prod.fst := by
  have hkinds : ∀ p ∈ Kind.reserved, p.2 ≠ .ident := by decide
  rw [nameKind]
  cases hlookup : Kind.reserved.lookup cs with
  | none =>
    have hnone := List.lookup_eq_none_iff.mp hlookup
    simp only [Option.getD_none, true_iff, List.mem_map, not_exists, not_and]
    rintro p hp rfl
    simpa using hnone p hp
  | some k =>
    obtain ⟨front, back, heq, -⟩ := List.lookup_eq_some_iff.mp hlookup
    have hmem : (cs, k) ∈ Kind.reserved := by simp [heq]
    simp only [Option.getD_some, hkinds _ hmem, false_iff, not_not]
    exact List.mem_map.mpr ⟨_, hmem, rfl⟩

theorem nameKind_escaped (cs : List Char) : nameKind ('@' :: cs) = .ident := rfl

theorem visible_word {cs r : List Char} (h : isWordText cs = true) (hr : breaks r = true) :
    visible (cs ++ r) = ⟨.token (nameKind cs), cs⟩ :: visible r := by
  cases cs with
  | nil => cases h
  | cons c cs =>
    simp only [isWordText, Bool.and_eq_true] at h
    have hscan : scan c (cs ++ r) = (.token (nameKind (c :: cs)), cs.length) := by
      rw [scan_of_startsWord h.1, word, run_of_breaks h.2 hr, List.take_left, List.drop_left,
        wordKind_of_breaks hr]
    rw [List.cons_append, visible_cons _ (by rw [hscan]; simp), hscan]
    simp

/-- In front of what no word goes on with, a name is one lexeme. -/
theorem visible_name {cs r : List Char} (h : isNameText cs = true) (hr : breaks r = true) :
    visible (cs ++ r) = ⟨.token (nameKind cs), cs⟩ :: visible r := by
  rw [isNameText.eq_def] at h
  split at h
  · rename_i cs
    cases cs with
    | nil => cases h
    | cons c cs =>
      simp only [isWordText, Bool.and_eq_true] at h
      have hscan : scan '@' (c :: (cs ++ r)) = (.token .ident, 1 + cs.length) := by
        show escaped (c :: (cs ++ r)) = _
        have hquote : c ≠ '"' := by
          rintro rfl
          exact absurd h.1 (by decide)
        have hdollar : c ≠ '$' := by
          rintro rfl
          exact absurd h.1 (by decide)
        rw [escaped, if_pos h.1, run_of_breaks h.2 hr]
        · exact fun hc ↦ hquote hc
        · exact fun _ hc _ ↦ hdollar hc
        · exact fun hc ↦ hdollar hc
      rw [List.cons_append, List.cons_append, visible_cons _ (by rw [hscan]; simp), hscan]
      simp [nameKind_escaped, Nat.add_comm 1]
  · exact visible_word h hr

theorem spell_name {cs r : List Char} (h : isNameText cs = true) (hr : breaks r = true) :
    spell (cs ++ r) = (nameKind cs, String.ofList cs) :: spell r := by
  rw [spell, visible_name h hr]
  rfl

theorem symbol_ne_ident (c : Char) (cs : List Char) : (symbol c cs).1 ≠ .token .ident := by
  have hsymbols : ∀ s ∈ Kind.symbols, s.2 ≠ .ident := by decide
  rw [symbol]
  split
  · rename_i spelling k hfound
    exact fun heq ↦ hsymbols _ (List.mem_of_find?_eq_some hfound) (Form.token.inj heq)
  · simp

theorem raw_ne_ident (opening quotes : Nat) (cs : List Char) :
    (raw opening quotes cs).1 ≠ .token .ident := by
  rw [raw]
  split <;> simp

/-- An identifier is a word or an escaped word. -/
theorem scan_eq_ident {c : Char} {cs : List Char} (h : (scan c cs).1 = .token .ident) :
    (startsWord c = true ∧ scan c cs = word c cs) ∨ (c = '@' ∧ scan c cs = escaped cs) := by
  rw [scan.eq_def] at h ⊢
  split_ifs at h ⊢ with hskip hword hdigit
  · exact .inl ⟨hword, rfl⟩
  · simp [number] at h
  · split at h
    · exfalso
      revert h
      fun_cases slash cs
      case case4 => exact symbol_ne_ident _ _
      all_goals simp
    · cases h
    · exfalso
      revert h
      fun_cases quotedText cs
      case case1 => exact raw_ne_ident _ _ _
      all_goals simp
    · exfalso
      revert h
      fun_cases character cs <;> simp
    · exact .inr ⟨rfl, rfl⟩
    · exfalso
      revert h
      fun_cases dollar cs
      case case1 => exact raw_ne_ident _ _ _
      all_goals simp
    · exfalso
      revert h
      fun_cases point cs <;> simp
    · exact absurd h (symbol_ne_ident _ _)

theorem length_text_le_of_mem_all {cs : List Char} {l : Lexeme} (h : l ∈ all cs) :
    l.text.length ≤ cs.length := by
  obtain ⟨front, back, hall⟩ := List.append_of_mem h
  have htext := congrArg List.length (flatMap_text_all cs)
  rw [hall, List.flatMap_append, List.flatMap_cons] at htext
  simp only [List.length_append] at htext
  omega

theorem all_of_run {p : Char → Bool} {cs : List Char} (h : cs.length ≤ run p cs) :
    cs.all p = true := by
  have hprefix := List.takeWhile_prefix (l := cs) p
  have hall : cs.takeWhile p = cs := hprefix.eq_of_length (Nat.le_antisymm hprefix.length_le h)
  rw [← hall, List.all_eq_true]
  exact fun _ hc ↦ List.mem_takeWhile_imp hc

theorem bare?_eq_some {l : Lexeme} {b : Bare} (h : bare? l = some b) :
    l.form = .token b.1 ∧ l.text = b.2.toList := by
  obtain ⟨form, text⟩ := l
  cases form with
  | trivia t => cases h
  | token k =>
    obtain rfl := Option.some.inj h
    exact ⟨rfl, String.toList_ofList.symm⟩

/-- A text that is one token is one lexeme. -/
theorem scan_of_spell {c : Char} {cs : List Char} {k : Kind}
    (h : spell (c :: cs) = [(k, String.ofList (c :: cs))]) :
    (scan c cs).1 = .token k ∧ cs.length ≤ (scan c cs).2 := by
  rw [spell_eq_filterMap_all, all_cons, List.filterMap_cons] at h
  split at h
  · -- then the token is among the lexemes of a shorter text
    have hmem : (k, String.ofList (c :: cs)) ∈
        (all (cs.drop (scan c cs).2)).filterMap bare? := h ▸ List.mem_singleton_self _
    obtain ⟨l, hl, hbare⟩ := List.mem_filterMap.mp hmem
    have hlength := length_text_le_of_mem_all hl
    rw [(bare?_eq_some hbare).2, String.toList_ofList] at hlength
    simp only [List.length_cons, List.length_drop] at hlength
    omega
  · rename_i b hbare
    obtain rfl := (List.cons.inj h).1
    obtain ⟨hform, htext⟩ := bare?_eq_some hbare
    rw [String.toList_ofList] at htext
    have hlength := congrArg List.length htext
    simp only [List.length_cons, List.length_take] at hlength
    exact ⟨hform, by omega⟩

/-- A text that is one identifier is a name. -/
theorem isNameText_of_spell {n : String} (h : spell n.toList = [(.ident, n)]) :
    isNameText n.toList = true ∧ nameKind n.toList = .ident := by
  obtain ⟨cs, rfl⟩ : ∃ cs, n = String.ofList cs := ⟨n.toList, String.ofList_toList.symm⟩
  rw [String.toList_ofList] at h ⊢
  cases cs with
  | nil => cases h
  | cons c cs =>
    obtain ⟨hform, hreach⟩ := scan_of_spell h
    rcases scan_eq_ident hform with ⟨hc, hscan⟩ | ⟨rfl, hscan⟩
    · rw [hscan, word] at hform hreach
      dsimp only at hform hreach
      have hword : isWordText (c :: cs) = true := by
        rw [isWordText, hc, all_of_run hreach]
        rfl
      have hat : isNameText (c :: cs) = isWordText (c :: cs) := by
        rw [isNameText]
        intro more heq
        rw [(List.cons.inj heq).1] at hc
        exact absurd hc (by decide)
      have hkind : wordKind (c :: cs) [] = .ident := by
        rw [List.take_of_length_le hreach, List.drop_of_length_le hreach] at hform
        exact Form.token.inj hform
      exact ⟨hat.trans hword, hkind ▸ (wordKind_of_breaks rfl).symm⟩
    · rw [hscan] at hform hreach
      refine ⟨?_, nameKind_escaped cs⟩
      revert hform hreach
      fun_cases escaped cs
      case case5 d rest _ _ _ hd =>
        intro _ hreach
        simp only [List.length_cons] at hreach
        show isWordText (d :: rest) = true
        rw [isWordText, hd, all_of_run (by omega)]
        rfl
      all_goals simp

/-- A name starts with a letter, an underline or the sign of an escape. -/
theorem head_of_isNameText {cs : List Char} (h : isNameText cs = true) :
    ∃ c more, cs = c :: more ∧ (c = '@' ∨ startsWord c = true) := by
  rw [isNameText.eq_def] at h
  split at h
  · exact ⟨_, _, rfl, .inl rfl⟩
  · cases cs with
    | nil => cases h
    | cons c cs =>
      simp only [isWordText, Bool.and_eq_true] at h
      exact ⟨c, cs, rfl, .inr h.1⟩

/-! ### Marks -/

theorem spell_dot {c : Char} (h : c.isDigit = false) (r : List Char) :
    spell ('.' :: c :: r) = (.dot, ".") :: spell (c :: r) := by
  have hscan : scan '.' (c :: r) = (.token .dot, 0) := by
    show point (c :: r) = _
    simp [point, h]
  rw [spell, visible_cons _ (by rw [hscan]; simp), hscan]
  rfl

theorem spell_dot_name {cs : List Char} (h : isNameText cs = true) (r : List Char) :
    spell ('.' :: (cs ++ r)) = (.dot, ".") :: spell (cs ++ r) := by
  obtain ⟨c, more, rfl, rfl | hc⟩ := head_of_isNameText h
  · exact spell_dot (by decide) _
  · exact spell_dot (isDigit_of_startsWord hc) _

theorem spell_gt (r : List Char) : spell ('>' :: r) = (.gt, ">") :: spell r := rfl

theorem spell_lparen (r : List Char) : spell ('(' :: r) = (.lparen, "(") :: spell r := rfl

theorem spell_rparen (r : List Char) : spell (')' :: r) = (.rparen, ")") :: spell r := rfl

theorem spell_lbracket (r : List Char) : spell ('[' :: r) = (.lbracket, "[") :: spell r := rfl

theorem spell_rbracket (r : List Char) : spell (']' :: r) = (.rbracket, "]") :: spell r := rfl

theorem spell_commaMark (r : List Char) : spell (',' :: r) = (.comma, ",") :: spell r := rfl

theorem spell_doubleColon (r : List Char) :
    spell (':' :: ':' :: r) = (.doubleColon, "::") :: spell r := by
  have hscan : scan ':' (':' :: r) = (.token .doubleColon, 1) := rfl
  rw [spell, visible_cons _ (by rw [hscan]; simp), hscan]
  rfl

theorem spell_lt {c : Char} (h : c ≠ '=' ∧ c ≠ '<') (r : List Char) :
    spell ('<' :: c :: r) = (.lt, "<") :: spell (c :: r) := by
  have hscan : scan '<' (c :: r) = (.token .lt, 0) := by
    show symbol '<' (c :: r) = _
    simp [symbol, Kind.symbols, List.isPrefixOf, Ne.symm h.1, Ne.symm h.2]
  rw [spell, visible_cons _ (by rw [hscan]; simp), hscan]
  rfl

theorem spell_lt_name {cs : List Char} (h : isNameText cs = true) (r : List Char) :
    spell ('<' :: (cs ++ r)) = (.lt, "<") :: spell (cs ++ r) := by
  obtain ⟨c, more, rfl, hc⟩ := head_of_isNameText h
  refine spell_lt ⟨?_, ?_⟩ _
  all_goals
    rintro rfl
    exact absurd hc (by decide)

theorem spell_question {r : List Char} (h : ∀ c ∈ r.head?, c ≠ '?' ∧ c ≠ '.') :
    spell ('?' :: r) = (.question, "?") :: spell r := by
  have hscan : scan '?' r = (.token .question, 0) := by
    show symbol '?' r = _
    cases r with
    | nil => rfl
    | cons c r =>
      have hc := h c rfl
      simp [symbol, Kind.symbols, List.isPrefixOf, Ne.symm hc.1, Ne.symm hc.2]
  rw [spell, visible_cons _ (by rw [hscan]; simp), hscan]
  rfl

/-! ### Joined texts -/

/-- Joined texts begin with the first one. -/
theorem toList_joinWith_cons (separator text : String) (texts : List String) :
    ∃ more, (joinWith separator (text :: texts)).toList = text.toList ++ more := by
  cases texts with
  | nil => exact ⟨[], (List.append_nil _).symm⟩
  | cons next texts =>
    refine ⟨separator.toList ++ (joinWith separator (next :: texts)).toList, ?_⟩
    simp [joinWith]

/-- Texts with separators spell their tokens with the token of the separator between. -/
theorem spell_joinWith {α : Type} {text : α → String} {tokens : α → List Bare}
    {separator : String} {mark : Bare} {follows : List Char → Prop} {items : List α}
    (hitems : ∀ a ∈ items, ∀ r, follows r → spell ((text a).toList ++ r) = tokens a ++ spell r)
    (hmark : ∀ a ∈ items, ∀ r, spell (separator.toList ++ ((text a).toList ++ r)) =
      mark :: spell ((text a).toList ++ r))
    (hfollows : ∀ r, follows (separator.toList ++ r)) (hne : items ≠ []) {r : List Char}
    (hr : follows r) :
    spell ((joinWith separator (items.map text)).toList ++ r) =
      [mark].intercalate (items.map tokens) ++ spell r := by
  induction items with
  | nil => exact absurd rfl hne
  | cons a items ih =>
    cases items with
    | nil => simpa [joinWith] using hitems a (by simp) r hr
    | cons b items =>
      simp only [List.map_cons, joinWith, String.toList_append, List.append_assoc,
        List.intercalate_cons_cons]
      obtain ⟨more, hmore⟩ := toList_joinWith_cons separator (text b) (items.map text)
      have hrest := ih (fun x hx ↦ hitems x (List.mem_cons_of_mem _ hx))
        (fun x hx ↦ hmark x (List.mem_cons_of_mem _ hx)) (List.cons_ne_nil _ _)
      rw [List.map_cons, List.map_cons] at hrest
      rw [hitems a (by simp) _ (hfollows _), ← hrest, hmore, List.append_assoc,
        hmark b (by simp), List.singleton_append]

/-! ### Quotations -/

/-- Characters that stand for themselves in quoted text. -/
def isPlain (c : Char) : Bool := c ≠ '"' && c ≠ '\\' && c ≠ '\n'

theorem content_of_isPlain {cs : List Char} (h : cs.all isPlain = true) (r : List Char) :
    content '"' (cs ++ '"' :: r) = cs.length := by
  induction cs with
  | nil =>
    rw [List.nil_append, content.eq_def]
    rfl
  | cons c cs ih =>
    simp only [List.all_cons, Bool.and_eq_true] at h
    have hc := h.1
    simp only [isPlain, Bool.and_eq_true, decide_eq_true_eq] at hc
    rw [List.cons_append, content, ih h.2]
    · simp [hc, Nat.add_comm]
    · exact fun _ _ hback ↦ absurd hback hc.1.2

/-- Quoted text of plain characters is one token, whatever comes behind it. -/
theorem spell_quotation {cs : List Char} (hne : cs ≠ []) (h : cs.all isPlain = true)
    (r : List Char) :
    spell ('"' :: (cs ++ '"' :: r)) =
      (.stringLit, String.ofList ('"' :: (cs ++ ['"']))) :: spell r := by
  have hclosed : closed '"' (cs ++ '"' :: r) = some (cs.length + 1) := by
    rw [closed, content_of_isPlain h]
    simp
  have hquotes : run (· = '"') (cs ++ '"' :: r) = 0 := by
    cases cs with
    | nil => exact absurd rfl hne
    | cons c cs =>
      simp only [List.all_cons, Bool.and_eq_true, isPlain, decide_eq_true_eq] at h
      rw [run, List.cons_append, List.takeWhile_cons_of_neg (by simpa using h.1.1.1)]
      rfl
  have hscan : scan '"' (cs ++ '"' :: r) = (.token .stringLit, cs.length + 1) := by
    show quotedText _ = _
    rw [quotedText, hquotes, if_neg (by decide), hclosed]
  have htake : (cs ++ '"' :: r).take (cs.length + 1) = cs ++ ['"'] := by
    simp [List.take_append, List.take_of_length_le]
  have hdrop : (cs ++ '"' :: r).drop (cs.length + 1) = r := by simp
  rw [spell, visible_cons _ (by rw [hscan]; simp), hscan]
  simp only [htake, hdrop]
  rfl

end Token
end Companion
