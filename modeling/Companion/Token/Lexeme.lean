import Companion.Text.Classes
import Companion.Token.Kind

/-!
One lexeme at the head of a text: what it is and how far it reaches. Each rule looks at the
characters after the first one and says how many of them belong to the lexeme, so every lexeme has
at least one character. The longest reading wins; text that no rule reads is an error token.
-/

set_option autoImplicit false

namespace Companion.Token

/-- Text between tokens. -/
inductive Trivia where
  | space
  | lineComment
  | blockComment
  /-- A preprocessor line. -/
  | directive
  deriving DecidableEq, Repr

/-- What a lexeme is. -/
inductive Form where
  | trivia (t : Trivia)
  | token (k : Kind)
  deriving DecidableEq, Repr

/-- A classified piece of the source text. -/
structure Lexeme where
  form : Form
  text : List Char
  deriving DecidableEq, Repr

namespace Lexeme

/-- How many characters at the head satisfy `p`. -/
def run (p : Char → Bool) (cs : List Char) : Nat := (cs.takeWhile p).length

/-- Where `pattern` first occurs: the number of characters before it. -/
def indexOf? (pattern : List Char) : List Char → Option Nat
  | [] => if pattern.isEmpty then some 0 else none
  | c :: cs =>
    if pattern.isPrefixOf (c :: cs) then some 0 else (indexOf? pattern cs).map (· + 1)

def isSkipped (c : Char) : Bool :=
  c = ' ' || c = '\t' || c = '\r' || c = '\n' || c = '\x0c' || c = '\ufeff'

def startsWord (c : Char) : Bool := c = '_' || Text.isLetter c

def continuesWord (c : Char) : Bool := c = '_' || Text.isLetter c || Text.isNumber c

/-- How far the line goes on. -/
def restOfLine (cs : List Char) : Nat := run (· ≠ '\n') cs

/-- A word is an identifier unless it is reserved. A reserved word counts as an identifier too
when the text goes on with a character that could be mistaken for a letter or number by its first
byte. -/
def wordKind (word : List Char) (rest : List Char) : Kind :=
  match Kind.reserved.lookup word, rest with
  | none, _ => .ident
  | some k, [] => k
  | some k, c :: _ => if Text.sharesLeadByte c then .ident else k

def word (c : Char) (cs : List Char) : Form × Nat :=
  let n := run continuesWord cs
  (.token (wordKind (c :: cs.take n) (cs.drop n)), n)

/-! Numbers. -/

def isDigitOrUnderscore (c : Char) : Bool := c.isDigit || c = '_'

def isHexDigitOrUnderscore (c : Char) : Bool :=
  c.isDigit || ('a' ≤ c && c ≤ 'f') || ('A' ≤ c && c ≤ 'F') || c = '_'

def isIntegerSuffix (c : Char) : Bool := c = 'u' || c = 'U' || c = 'l' || c = 'L'

def isRealSuffix (c : Char) : Bool :=
  c = 'f' || c = 'F' || c = 'd' || c = 'D' || c = 'm' || c = 'M'

/-- An exponent with at least one digit, or nothing. -/
def exponent : List Char → Nat
  | e :: cs =>
    if e = 'e' || e = 'E' then
      let sign := match cs with
        | s :: _ => if s = '+' || s = '-' then 1 else 0
        | [] => 0
      let digits := run Char.isDigit (cs.drop sign)
      if digits = 0 then 0 else 1 + sign + digits
    else 0
  | [] => 0

/-- A point and the digits after it, or nothing. -/
def fraction : List Char → Nat
  | '.' :: d :: cs => if d.isDigit then 2 + run isDigitOrUnderscore cs else 0
  | _ => 0

/-- A number in base sixteen or two after its leading zero, or nothing. -/
def based : List Char → Nat
  | b :: cs =>
    let digits :=
      if b = 'x' || b = 'X' then run isHexDigitOrUnderscore cs
      else if b = 'b' || b = 'B' then run (fun c => c = '0' || c = '1' || c = '_') cs
      else 0
    if digits = 0 then 0 else 1 + digits + run isIntegerSuffix (cs.drop digits)
  | [] => 0

/-- A decimal number after its first digit. -/
def decimal (cs : List Char) : Nat :=
  let whole := run isDigitOrUnderscore cs
  let frac := fraction (cs.drop whole)
  let exp := exponent (cs.drop (whole + frac))
  let suffix :=
    run (fun c => isIntegerSuffix c || isRealSuffix c) (cs.drop (whole + frac + exp))
  whole + frac + exp + suffix

def number (c : Char) (cs : List Char) : Form × Nat :=
  let n := if c = '0' then based cs else 0
  (.token .numberLit, if n = 0 then decimal cs else n)

/-- A point, or a number that starts with one. -/
def point (cs : List Char) : Form × Nat :=
  match cs with
  | d :: rest =>
    if d.isDigit then
      let whole := run isDigitOrUnderscore rest
      let exp := exponent (rest.drop whole)
      let suffix := match rest.drop (whole + exp) with
        | s :: _ => if isRealSuffix s then 1 else 0
        | [] => 0
      (.token .numberLit, 1 + whole + exp + suffix)
    else (.token .dot, 0)
  | [] => (.token .dot, 0)

/-! Quoted text. -/

/-- How much quoted text follows: characters other than the quote, a backslash and a line feed,
and backslashes together with the character after them. -/
def content (quote : Char) : List Char → Nat
  | [] => 0
  | '\\' :: c :: cs => if c = '\n' then 0 else 2 + content quote cs
  | c :: cs => if c = quote || c = '\\' || c = '\n' then 0 else 1 + content quote cs

/-- Quoted text and its closing quote, if it is closed. -/
def closed (quote : Char) (cs : List Char) : Option Nat :=
  let n := content quote cs
  if cs[n]? = some quote then some (n + 1) else none

/-- Verbatim text up to the quote that closes it, in which two quotes stand for one. -/
def verbatim : List Char → Option Nat
  | [] => none
  | '"' :: '"' :: cs => (verbatim cs).map (· + 2)
  | '"' :: _ => some 1
  | _ :: cs => (verbatim cs).map (· + 1)

/-- A character literal holds at least one character; without its closing quote it is an error. -/
def character (cs : List Char) : Form × Nat :=
  match content '\'' cs, closed '\'' cs with
  | 0, _ => (.token .error, 0)
  | _, some n => (.token .charLit, n)
  | n, none => (.token .error, n)

/-- Raw text after `opening` characters, closed by the first run of `quotes` quotes. -/
def raw (opening quotes : Nat) (cs : List Char) : Form × Nat :=
  match indexOf? (List.replicate quotes '"') (cs.drop opening) with
  | some n => (.token .stringLit, opening + n + quotes)
  | none => (.token .error, cs.length)

/-- A text literal whose first quote has been read. -/
def quotedText (cs : List Char) : Form × Nat :=
  let quotes := run (· = '"') cs
  if 2 ≤ quotes then raw quotes (quotes + 1) cs
  else match closed '"' cs with
    | some n => (.token .stringLit, n)
    | none => (.token .error, content '"' cs)

/-- An escaped identifier or a verbatim literal. Interpolated verbatim literals are not read. -/
def escaped (cs : List Char) : Form × Nat :=
  match cs with
  | '"' :: rest =>
    match verbatim rest with
    | some n => (.token .stringLit, 1 + n)
    | none => (.token .error, cs.length)
  | '$' :: '"' :: rest => (.token .error, 2 + (verbatim rest).getD rest.length)
  | '$' :: _ => (.token .error, 1)
  | c :: rest =>
    if startsWord c then (.token .ident, 1 + run continuesWord rest) else (.token .error, 0)
  | [] => (.token .error, 0)

/-- An interpolated literal: raw, or with one dollar sign and one quote. -/
def dollar (cs : List Char) : Form × Nat :=
  let more := run (· = '$') cs
  let quotes := run (· = '"') (cs.drop more)
  if 3 ≤ quotes then raw (more + quotes) quotes cs
  else match cs with
    | '"' :: rest =>
      match closed '"' rest, content '"' rest with
      | some n, _ => (.token .stringLit, 1 + n)
      | none, 0 => (.token .error, 0)
      | none, n => (.token .error, 1 + n)
    | '@' :: '"' :: rest => (.token .error, 2 + (verbatim rest).getD rest.length)
    | '@' :: _ => (.token .error, 1)
    | _ => (.token .error, more)

/-- The longest symbol; a character that begins none is an error. -/
def symbol (c : Char) (cs : List Char) : Form × Nat :=
  match Kind.symbols.find? fun s => s.1.isPrefixOf (c :: cs) with
  | some (spelling, k) => (.token k, spelling.length - 1)
  | none => (.token .error, 0)

/-- A comment, or an operator that starts with a slash. -/
def slash (cs : List Char) : Form × Nat :=
  match cs with
  | '/' :: rest => (.trivia .lineComment, 1 + restOfLine rest)
  | '*' :: rest =>
    match indexOf? ['*', '/'] rest with
    | some n => (.trivia .blockComment, n + 3)
    | none => (.token .error, cs.length)
  | _ => symbol '/' cs

/-- The lexeme that starts with `c` and goes on in `cs`: its form, and how many characters of `cs`
belong to it. -/
def scan (c : Char) (cs : List Char) : Form × Nat :=
  if isSkipped c then (.trivia .space, run isSkipped cs)
  else if startsWord c then word c cs
  else if c.isDigit then number c cs
  else match c with
    | '/' => slash cs
    | '#' => (.trivia .directive, restOfLine cs)
    | '"' => quotedText cs
    | '\'' => character cs
    | '@' => escaped cs
    | '$' => dollar cs
    | '.' => point cs
    | _ => symbol c cs

/-- The lexemes of a text of at most `budget` characters. -/
def allWithin : Nat → List Char → List Lexeme
  | 0, _ => []
  | _ + 1, [] => []
  | budget + 1, c :: cs =>
    let (form, n) := scan c cs
    ⟨form, c :: cs.take n⟩ :: allWithin budget (cs.drop n)

/-- The lexemes of a text, in order; each takes at least one character. -/
def all (cs : List Char) : List Lexeme := allWithin cs.length cs

theorem flatMap_text_allWithin (budget : Nat) (cs : List Char) (h : cs.length ≤ budget) :
    (allWithin budget cs).flatMap Lexeme.text = cs := by
  induction budget generalizing cs with
  | zero => simp [allWithin, List.length_eq_zero_iff.mp (Nat.le_zero.mp h)]
  | succ budget ih =>
    cases cs with
    | nil => simp [allWithin]
    | cons c cs =>
      simp only [List.length_cons] at h
      simp only [allWithin, List.flatMap_cons]
      rw [ih _ (by simp only [List.length_drop]; omega)]
      simp

/-- The lexemes of a text put together are the text: nothing is lost and nothing is read twice. -/
theorem flatMap_text_all (cs : List Char) : (all cs).flatMap Lexeme.text = cs :=
  flatMap_text_allWithin _ _ (Nat.le_refl _)

end Lexeme
end Companion.Token
