import Companion.Text.Affix

/-!
Paths as text. Two paths are compared piece by piece; a leading `.` is a piece of its own, while
an inner one and repeated slashes do not count.
-/

set_option autoImplicit false

namespace Companion.Command.Path

/-- The pieces of a text between slashes; there is always one. -/
def splitSlashes : List Char → List (List Char)
  | [] => [[]]
  | c :: cs =>
    match splitSlashes cs with
    | [] => [[c]]
    | p :: ps => if c = '/' then [] :: p :: ps else (c :: p) :: ps

/-- The pieces of a path between slashes, empty ones included. -/
def pieces (path : String) : List String := (splitSlashes path.toList).map String.ofList

/-- A piece of a path that counts. -/
inductive Component where
  | root
  | current
  | parent
  | normal (name : String)
  deriving DecidableEq, Repr

namespace Component

def ofPiece? (piece : String) : Option Component :=
  if piece = "" || piece = "." then none
  else if piece = ".." then some parent
  else some (normal piece)

def rank : Component → Nat
  | root => 0
  | current => 1
  | parent => 2
  | normal _ => 3

def name : Component → String
  | normal n => n
  | _ => ""

def compare (a b : Component) : Ordering :=
  (Ord.compare a.rank b.rank).then (Ord.compare a.name b.name)

/-- The component as it is written. -/
def text : Component → String
  | root => ""
  | current => "."
  | parent => ".."
  | normal n => n

end Component

/-- The components of a path. -/
def components (path : String) : List Component :=
  let ps := pieces path
  let first := match ps with
    | "" :: _ :: _ => [Component.root]
    | "." :: _ => [Component.current]
    | _ => []
  first ++ ps.filterMap Component.ofPiece?

def compareComponents : List Component → List Component → Ordering
  | [], [] => .eq
  | [], _ :: _ => .lt
  | _ :: _, [] => .gt
  | a :: as, b :: bs => (a.compare b).then (compareComponents as bs)

def compare (a b : String) : Ordering := compareComponents (components a) (components b)

/-- Paths in order, each once: of equal paths the first one stays. -/
def sortDistinct (paths : List String) : List String :=
  dedup (paths.mergeSort fun a b => compare a b != .gt)
where
  /-- Without paths that equal the one before. -/
  dedup : List String → List String
    | [] => []
    | p :: ps => p :: after p ps
  after (last : String) : List String → List String
    | [] => []
    | p :: ps => if compare last p = .eq then after last ps else p :: after p ps

/-- The path of an entry of a directory. -/
def join (directory name : String) : String :=
  if directory = "" then name
  else if endsWith "/" directory then directory ++ name
  else directory ++ "/" ++ name

/-- The path without its last component, if it has one. -/
def parent? (path : String) : Option String :=
  match (components path).dropLast, (components path).getLast? with
  | _, none => none
  | _, some .root => none
  | [.root], _ => some "/"
  | cs, _ => some (joinWith "/" (cs.map Component.text))

/-- Whether a file name ends in `.cs`, in any case, behind something else. -/
def hasSourceExtension (name : String) : Bool :=
  match name.toList.reverse with
  | s :: c :: '.' :: _ :: _ => s.toLower = 's' && c.toLower = 'c'
  | _ => false

/-- Whether a file name is that of a generated unit. -/
def isGenerated (name : String) : Bool := endsWith "_g.cs" name

def isHidden (name : String) : Bool := beginsWith "." name

end Companion.Command.Path
