import Companion.Proofs.Token.Delimiters
import Companion.Proofs.Token.Located

/-!
Literals that are closed. The forms of literals begin alike and differ in how they end: at a quote
that is not escaped, at one that is not doubled, or at as many quotes as have opened them. A closed
literal of any form is one token, whatever it holds; but both forms of interpolated verbatim
literals are one token that is an error.
-/

set_option autoImplicit false
set_option relaxedAutoImplicit false

namespace Companion.Token

open Lexeme

/-- The forms of literals. -/
inductive LiteralForm where
  | regular
  | interpolated
  | verbatim
  | interpolatedVerbatim
  /-- Interpolated or not. -/
  | raw
  | character
  deriving DecidableEq, Repr

namespace LiteralForm

/-- What a literal of the form is. -/
def kind : LiteralForm → Kind
  | character => .charLit
  | _ => .stringLit

/-- What it is read as. -/
def readKind (form : LiteralForm) : Kind :=
  if form = interpolatedVerbatim then .error else form.kind

end LiteralForm

/-- The text of a complete literal. -/
inductive Literal : LiteralForm → List Char → Prop
  | regular {inside : List Char} (h : Quoted '"' inside) :
      Literal .regular ('"' :: (inside ++ ['"']))
  | interpolated {inside : List Char} (h : Quoted '"' inside) :
      Literal .interpolated ('$' :: '"' :: (inside ++ ['"']))
  | verbatim {inside : List Char} (h : Doubled inside) :
      Literal .verbatim ('@' :: '"' :: (inside ++ ['"']))
  | dollarVerbatim {inside : List Char} (h : Doubled inside) :
      Literal .interpolatedVerbatim ('$' :: '@' :: '"' :: (inside ++ ['"']))
  | verbatimDollar {inside : List Char} (h : Doubled inside) :
      Literal .interpolatedVerbatim ('@' :: '$' :: '"' :: (inside ++ ['"']))
  | raw {dollars quotes : Nat} {inside : List Char} (hquotes : 3 ≤ quotes)
      (hfirst : ∃ c ∈ inside.head?, c ≠ '"') (hlast : ∃ c ∈ inside.getLast?, c ≠ '"')
      (h : ¬ List.replicate quotes '"' <:+: inside) :
      Literal .raw (List.replicate dollars '$' ++
        (List.replicate quotes '"' ++ (inside ++ List.replicate quotes '"')))
  | character {inside : List Char} (hne : inside ≠ []) (h : Quoted '\'' inside) :
      Literal .character ('\'' :: (inside ++ ['\'']))

theorem Literal.ne_nil {form : LiteralForm} {text : List Char} (h : Literal form text) :
    text ≠ [] := by
  cases h with
  | raw hquotes _ _ _ =>
    simp only [Ne, List.append_eq_nil_iff, List.replicate_eq_nil_iff]
    omega
  | _ => exact List.cons_ne_nil _ _

namespace Lexeme

/-! ### One reading for each form -/

/-- Quoted text that is closed does not begin with two quotes. -/
theorem run_quoted_lt {inside : List Char} (h : Quoted '"' inside) :
    run (· = '"') (inside ++ ['"']) < 2 := by
  cases h with
  | nil => decide
  | plain hquote hback hline h => simp [run, hquote]
  | escape hline h => simp [run]

theorem quotedText_of_quoted {inside : List Char} (h : Quoted '"' inside) :
    quotedText (inside ++ ['"']) = (.token .stringLit, (inside ++ ['"']).length) := by
  rw [quotedText, if_neg (Nat.not_le.mpr (run_quoted_lt h)), closed_of_quoted (by decide) h]
  simp

theorem dollar_of_quoted {inside : List Char} (h : Quoted '"' inside) :
    dollar ('"' :: (inside ++ ['"'])) = (.token .stringLit, ('"' :: (inside ++ ['"'])).length) := by
  have hmore : run (· = '$') ('"' :: (inside ++ ['"'])) = 0 := rfl
  have hquotes : run (· = '"') ('"' :: (inside ++ ['"'])) = run (· = '"') (inside ++ ['"']) + 1 :=
    rfl
  have hfew := run_quoted_lt h
  simp only [dollar.eq_def, hmore, List.drop_zero, hquotes]
  rw [if_neg (by omega)]
  simp only [closed_of_quoted (by decide : '"' ≠ '\\') h, List.length_cons, List.length_append,
    List.length_nil, Nat.add_comm]

theorem escaped_of_doubled {inside : List Char} (h : Doubled inside) :
    escaped ('"' :: (inside ++ ['"'])) =
      (.token .stringLit, ('"' :: (inside ++ ['"'])).length) := by
  rw [escaped, verbatim_of_doubled h]
  simp [Nat.add_comm]

theorem escaped_dollar_of_doubled {inside : List Char} (h : Doubled inside) :
    escaped ('$' :: '"' :: (inside ++ ['"'])) =
      (.token .error, ('$' :: '"' :: (inside ++ ['"'])).length) := by
  rw [escaped, verbatim_of_doubled h]
  simp
  omega

theorem dollar_escaped_of_doubled {inside : List Char} (h : Doubled inside) :
    dollar ('@' :: '"' :: (inside ++ ['"'])) =
      (.token .error, ('@' :: '"' :: (inside ++ ['"'])).length) := by
  have hmore : run (· = '$') ('@' :: '"' :: (inside ++ ['"'])) = 0 := rfl
  have hquotes : run (· = '"') ('@' :: '"' :: (inside ++ ['"'])) = 0 := rfl
  simp only [dollar.eq_def, hmore, List.drop_zero, hquotes]
  rw [if_neg (by omega)]
  simp only [verbatim_of_doubled h, Option.getD_some, List.length_cons, List.length_append,
    List.length_nil]
  simp
  omega

theorem character_of_quoted {inside : List Char} (hne : inside ≠ []) (h : Quoted '\'' inside) :
    character (inside ++ ['\'']) = (.token .charLit, (inside ++ ['\'']).length) := by
  obtain ⟨n, hn⟩ := Nat.exists_eq_succ_of_ne_zero (mt List.length_eq_zero_iff.mp hne)
  rw [character, content_of_quoted (by decide) h, closed_of_quoted (by decide) h, hn]
  simp [hn]

/-- In front of the closing quotes of a raw literal no other ones end. -/
theorem not_infix_of_last {quotes : Nat} (hquotes : 3 ≤ quotes) {inside : List Char}
    (hlast : ∃ c ∈ inside.getLast?, c ≠ '"') (h : ¬ List.replicate quotes '"' <:+: inside) :
    ¬ List.replicate quotes '"' <:+: inside ++ (List.replicate quotes '"').dropLast := by
  obtain ⟨c, hc, hquote⟩ := hlast
  obtain ⟨front, rfl⟩ := List.getLast?_eq_some_iff.mp hc
  have hmem : c ∉ List.replicate quotes '"' := fun hmem ↦ hquote (List.eq_of_mem_replicate hmem)
  have hne : List.replicate quotes '"' ≠ [] := by
    rw [Ne, List.replicate_eq_nil_iff]
    omega
  intro hinfix
  rw [List.append_assoc, List.singleton_append] at hinfix
  rcases infix_of_infix_append_cons hmem hne hinfix with hfront | hback
  · exact h (hfront.trans (List.prefix_append front [c]).isInfix)
  · have hlength := hback.length_le
    rw [List.length_dropLast, List.length_replicate] at hlength
    omega

theorem raw_of_closed {quotes : Nat} (hquotes : 3 ≤ quotes) {front inside : List Char}
    (hlast : ∃ c ∈ inside.getLast?, c ≠ '"') (h : ¬ List.replicate quotes '"' <:+: inside) :
    raw front.length quotes (front ++ (inside ++ List.replicate quotes '"')) =
      (.token .stringLit, (front ++ (inside ++ List.replicate quotes '"')).length) := by
  have hfound := indexOf?_of_not_infix (not_infix_of_last hquotes hlast h) []
  rw [List.append_nil] at hfound
  rw [raw, List.drop_left, hfound]
  simp [Nat.add_assoc]

/-- A complete literal is read up to its end. -/
theorem scan_of_literal {form : LiteralForm} {c : Char} {cs : List Char}
    (h : Literal form (c :: cs)) : scan c cs = (.token form.readKind, cs.length) := by
  generalize htext : c :: cs = text at h
  cases h with
  | regular h =>
    obtain ⟨rfl, rfl⟩ := List.cons.inj htext
    exact quotedText_of_quoted h
  | interpolated h =>
    obtain ⟨rfl, rfl⟩ := List.cons.inj htext
    exact dollar_of_quoted h
  | verbatim h =>
    obtain ⟨rfl, rfl⟩ := List.cons.inj htext
    exact escaped_of_doubled h
  | dollarVerbatim h =>
    obtain ⟨rfl, rfl⟩ := List.cons.inj htext
    exact dollar_escaped_of_doubled h
  | verbatimDollar h =>
    obtain ⟨rfl, rfl⟩ := List.cons.inj htext
    exact escaped_dollar_of_doubled h
  | @raw dollars quotes inside hquotes hfirst hlast h =>
    obtain ⟨d, hd, hquote⟩ := hfirst
    obtain ⟨inside, rfl⟩ := List.head?_eq_some_iff.mp hd
    have hhead : ∀ c ∈ (d :: inside ++ List.replicate quotes '"').head?, c ≠ '"' := by
      rintro _ ⟨⟩
      exact hquote
    obtain ⟨front, rfl, hscan⟩ := scan_of_quotes hquotes hhead htext
    rw [hscan]
    exact raw_of_closed hquotes hlast h
  | character hne h =>
    obtain ⟨rfl, rfl⟩ := List.cons.inj htext
    exact character_of_quoted hne h

end Lexeme

/-- A complete literal, whatever it holds, is one token and nothing else; only the interpolated
verbatim ones are read as an error. -/
theorem ofSource_literal {form : LiteralForm} {text : List Char} (h : Literal form text) :
    ofSource (String.ofList text) =
      [⟨form.readKind, .ofRange 0 (Text.byteLength text), String.ofList text⟩,
        endAt (Text.byteLength text)] := by
  obtain ⟨c, cs, rfl⟩ := List.exists_cons_of_ne_nil h.ne_nil
  rw [ofSource_eq, String.toList_ofList, tokensFrom_cons, scan_of_literal h, List.take_length,
    List.drop_length, locate, Nat.zero_add]
  rfl

/-- A raw literal with fewer quotes inside than around it. -/
private theorem literal_raw : Literal .raw "$$\"\"\"a\"\"b\"\"\"".toList :=
  @Literal.raw 2 3 ['a', '"', '"', 'b'] (by decide) ⟨'a', rfl, by decide⟩ ⟨'b', rfl, by decide⟩
    (by decide)

theorem ofSource_literal_raw : Literal .raw "$$\"\"\"a\"\"b\"\"\"".toList ∧
    ofSource "$$\"\"\"a\"\"b\"\"\"" =
      [⟨.stringLit, ⟨0, 12⟩, "$$\"\"\"a\"\"b\"\"\""⟩, endAt 12] :=
  ⟨literal_raw, ofSource_literal literal_raw⟩

/-- The literal that holds one letter and is interpolated and verbatim is an error. -/
theorem not_forall_ofSource_literal :
    ¬ ∀ (form : LiteralForm) (text : List Char), Literal form text →
      ofSource (String.ofList text) =
        [⟨form.kind, .ofRange 0 (Text.byteLength text), String.ofList text⟩,
          endAt (Text.byteLength text)] := by
  intro hall
  have hliteral : Literal .interpolatedVerbatim ['$', '@', '"', 'a', '"'] :=
    .dollarVerbatim (.other (by decide) .nil)
  have hread := hall _ _ hliteral
  revert hread
  decide +kernel

end Companion.Token
