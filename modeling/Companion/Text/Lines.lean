import Companion.Text.Span

/-!
Lines and columns of a source text. A line table holds the byte offset at which each line starts;
the first line starts at zero and each further line after a line feed. Lines and columns count
from one, and columns count characters. All of them are numbers of 32 bits: offsets are clamped to
the largest one, and lines and columns come out of an addition that is not checked.
-/

set_option autoImplicit false

namespace Companion

/-- The byte offsets at which the lines of a text start, in order. -/
structure LineTable where
  starts : List Nat
  deriving DecidableEq, Repr

namespace LineTable

/-- The offsets that follow each line feed of a text that begins at `offset`. -/
def startsAfter (offset : Nat) : List Char → List Nat
  | [] => []
  | c :: cs =>
    let next := offset + c.utf8Size
    if c = '\n' then min next Span.maxOffset :: startsAfter next cs else startsAfter next cs

def ofSource (source : String) : LineTable := ⟨0 :: startsAfter 0 source.toList⟩

/-- The number of lines. -/
def count (t : LineTable) : Nat := t.starts.length

/-- The number that follows `n`. A number that does not fit in 32 bits is taken for the largest but
one; the largest itself fits, and the addition wraps to zero. -/
def numberAfter (n : Nat) : UInt32 :=
  (if n ≤ Span.maxOffset then UInt32.ofNat n else UInt32.ofNat (Span.maxOffset - 1)) + 1

/-- The number of the line that an offset lies on: the last one that starts no later. -/
def lineNumber (t : LineTable) (offset : Nat) : UInt32 :=
  numberAfter (t.starts.countP (· ≤ offset) - 1)

def lineAt (t : LineTable) (offset : Nat) : Nat := (t.lineNumber offset).toNat

/-- Line and column of an offset. An offset past the end counts as the end; one inside a
character has column one. -/
def position (t : LineTable) (source : String) (offset : Nat) : Nat × Nat :=
  let line := t.lineNumber offset
  let lineStart := t.starts[(line - 1).toNat]?.getD 0
  let stop := min offset (Text.byteLength source.toList)
  let before := (Text.between lineStart stop source.toList).getD []
  (line.toNat, (numberAfter before.length).toNat)

/-- The characters with line ends dropped from the right. -/
def dropLineEnds (cs : List Char) : List Char :=
  (cs.reverse.dropWhile fun c => c = '\n' ∨ c = '\r').reverse

/-- The text of a line without its end, if there is such a line. -/
def lineText (t : LineTable) (source : String) : Nat → Option String
  | 0 => none
  | n + 1 =>
    match t.starts[n]? with
    | none => none
    | some start =>
      let stop := t.starts[n + 1]?.getD (Text.byteLength source.toList)
      (Text.between start stop source.toList).map fun cs => String.ofList (dropLineEnds cs)

end LineTable

/-- Line and column at which a span starts. -/
def Span.position (s : Span) (source : String) : Nat × Nat :=
  (LineTable.ofSource source).position source s.start

end Companion
