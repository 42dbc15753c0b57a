import Companion.Text.Bytes

/-!
Spans: half-open ranges of byte offsets into one source file. Offsets are counted in 32 bits by
the formats that store them, so a range read from outside is either refused or clamped.
-/

set_option autoImplicit false

namespace Companion

/-- The bytes from `start` up to, but not including, `stop`. -/
structure Span where
  start : Nat
  stop : Nat
  deriving DecidableEq, Repr, Inhabited

namespace Span

/-- The largest offset a span may hold. -/
def maxOffset : Nat := 4294967295

/-- The empty span at an offset. -/
def point (offset : Nat) : Span := ⟨offset, offset⟩

def length (s : Span) : Nat := s.stop - s.start

def isEmpty (s : Span) : Bool := s.start == s.stop

def contains (s : Span) (offset : Nat) : Bool := decide (s.start ≤ offset ∧ offset < s.stop)

/-- The smallest span that covers both. -/
def merge (a b : Span) : Span := ⟨min a.start b.start, max a.stop b.stop⟩

/-- Spans are ordered by where they start, then by where they end. -/
def compare (a b : Span) : Ordering :=
  (Ord.compare a.start b.start).then (Ord.compare a.stop b.stop)

/-- The text that a span covers; empty when the span does not fit the text. -/
def text (s : Span) (source : String) : String :=
  String.ofList ((Text.between s.start s.stop source.toList).getD [])

/-- A span as `start..stop`. -/
def display (s : Span) : String := toString s.start ++ ".." ++ toString s.stop

/-- Why a range of offsets is not a span. -/
inductive RangeError where
  | startTooLarge (offset : Nat)
  | endTooLarge (offset : Nat)
  deriving DecidableEq, Repr

/-- A number in base sixteen; letters are capital. -/
def hexadecimal (n : Nat) : String :=
  String.ofList ((Nat.toDigits 16 n).map Char.toUpper)

def RangeError.message : RangeError → String
  | .startTooLarge n =>
    "span start " ++ toString n ++ " (0x" ++ hexadecimal n ++ ") exceeds u32::MAX"
  | .endTooLarge n =>
    "span end " ++ toString n ++ " (0x" ++ hexadecimal n ++ ") exceeds u32::MAX"

/-- The span of a range, if both ends are small enough; the start is looked at first. -/
def ofRange? (start stop : Nat) : Except RangeError Span :=
  if maxOffset < start then .error (.startTooLarge start)
  else if maxOffset < stop then .error (.endTooLarge stop)
  else .ok ⟨start, stop⟩

/-- The span of a range with both ends clamped to the largest offset. -/
def ofRange (start stop : Nat) : Span := ⟨min start maxOffset, min stop maxOffset⟩

end Span
end Companion
