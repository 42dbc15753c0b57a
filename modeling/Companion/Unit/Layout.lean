/-!
The layout of generated text: lines, blocks in braces, and indentation by four spaces a level.
Empty lines are never doubled, and none stands next to the brace that opens or closes a block.
-/

set_option autoImplicit false

namespace Companion

/-- Text that is being written. -/
structure Layout where
  /-- What has been written, last character first. -/
  reversed : List Char
  /-- The number of levels to indent by. -/
  depth : Nat
  deriving DecidableEq, Repr

namespace Layout

def empty : Layout := ⟨[], 0⟩

/-- The number of spaces of one level. -/
def indentWidth : Nat := 4

/-- Whether an empty line was written last. -/
def endsBlank (l : Layout) : Bool :=
  match l.reversed with
  | '\n' :: '\n' :: _ => true
  | _ => false

/-- Whether the last line ends in a brace that opens a block. -/
def endsOpen (l : Layout) : Bool :=
  match l.reversed with
  | '\n' :: c :: _ => c = '\x7b'
  | _ => false

/-- A line of its own at the current level; an empty one has no spaces. -/
def line (text : String) (l : Layout) : Layout :=
  let spaces := if text = "" then 0 else l.depth * indentWidth
  { l with reversed :=
      '\n' :: (text.toList.reverse ++ (List.replicate spaces ' ' ++ l.reversed)) }

/-- Lines one after another. -/
def lines (texts : List String) (l : Layout) : Layout := texts.foldl (fun l t => l.line t) l

/-- An empty line, unless there is one already or a block was just opened. -/
def blank (l : Layout) : Layout :=
  if l.reversed.isEmpty || l.endsBlank || l.endsOpen then l
  else { l with reversed := '\n' :: l.reversed }

def deeper (l : Layout) : Layout := { l with depth := l.depth + 1 }

def shallower (l : Layout) : Layout := { l with depth := l.depth - 1 }

/-- A header and an opening brace; what follows is one level deeper. -/
def opened (header : String) (l : Layout) : Layout := ((l.line header).line "\x7b").deeper

/-- A closing brace, without an empty line before it. -/
def closed (l : Layout) : Layout :=
  let trimmed : Layout := if l.endsBlank then { l with reversed := l.reversed.tail } else l
  trimmed.shallower.line "\x7d"

/-- A block with a header. -/
def block (header : String) (body : Layout → Layout) (l : Layout) : Layout :=
  (body (l.opened header)).closed

/-- A line one level deeper. -/
def indented (text : String) (l : Layout) : Layout := (l.deeper.line text).shallower

/-- The written text without empty lines at its end, given last character first. -/
def trimEnd : List Char → List Char
  | '\n' :: '\n' :: cs => trimEnd ('\n' :: cs)
  | cs => cs

/-- All that was written, ending in one line feed. -/
def text (l : Layout) : String :=
  match trimEnd l.reversed with
  | '\n' :: cs => String.ofList ('\n' :: cs).reverse
  | cs => String.ofList ('\n' :: cs).reverse

end Layout
end Companion
