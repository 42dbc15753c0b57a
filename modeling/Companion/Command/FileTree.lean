import Companion.Command.Path

/-!
The files that a command can see, below the directory it starts in. A place is the list of names
from there; the directory itself is the empty list. Paths are followed piece by piece, and every
piece but the last must be a directory.
-/

set_option autoImplicit false

namespace Companion.Command

/-- The names that lead to a file or directory. -/
abbrev Place := List String

/-- Why the system refuses an operation. -/
inductive SystemError where
  | missing
  | alreadyThere
  | notDirectory
  | isDirectory
  deriving DecidableEq, Repr

def SystemError.message : SystemError → String
  | missing => "No such file or directory (os error 2)"
  | alreadyThere => "File exists (os error 17)"
  | notDirectory => "Not a directory (os error 20)"
  | isDirectory => "Is a directory (os error 21)"

structure FileTree where
  directories : List Place
  /-- The files with their texts; a file that is not text has none. -/
  files : List (Place × Option String)
  deriving DecidableEq, Repr

namespace FileTree

def empty : FileTree := ⟨[], []⟩

def isDirectory (t : FileTree) (p : Place) : Bool := p.isEmpty || t.directories.contains p

def isFile (t : FileTree) (p : Place) : Bool := t.files.any (·.1 = p)

/-- The tree with a directory and those around it. -/
def addDirectory (t : FileTree) (p : Place) : FileTree :=
  let around := (List.range p.length).map fun n => p.take (n + 1)
  { t with directories := t.directories ++ around.filter fun q => !t.isDirectory q }

/-- The tree with a file, in place of any that was there, and the directories around it. -/
def addFile (t : FileTree) (p : Place) (text : Option String) : FileTree :=
  let t := t.addDirectory p.dropLast
  if t.isFile p then
    { t with files := t.files.map fun f => if f.1 = p then (p, text) else f }
  else { t with files := t.files ++ [(p, text)] }

/-- The files of a tree that are new or changed since an earlier one. -/
def changes (earlier later : FileTree) : List (Place × String) :=
  later.files.filterMap fun (p, text) =>
    match text with
    | some s => if earlier.files.contains (p, some s) then none else some (p, s)
    | none => none

/-- The directories of a tree that an earlier one does not have. -/
def newDirectories (earlier later : FileTree) : List Place :=
  later.directories.filter fun p => !earlier.isDirectory p

/-- The place one piece further. -/
def step (p : Place) (piece : String) : Place :=
  if piece = "" || piece = "." then p
  else if piece = ".." then
    match p.getLast? with
    | none => [".."]
    | some ".." => p ++ [".."]
    | some "/" => p
    | some _ => p.dropLast
  else p ++ [piece]

/-- The place that pieces lead to from a place; the last one need not exist. -/
def follow (t : FileTree) (p : Place) : List String → Except SystemError Place
  | [] => .ok p
  | piece :: rest =>
    if t.isDirectory p then t.follow (step p piece) rest
    else if t.isFile p then .error .notDirectory
    else .error .missing

/-- Where the pieces of a path start, and the pieces. -/
def start (path : String) : Place × List String :=
  match Path.pieces path with
  | "" :: rest => (["/"], rest)
  | ps => ([], ps)

/-- The place that a path leads to. -/
def locate (t : FileTree) (path : String) : Except SystemError Place :=
  if path = "" then .error .missing else t.follow (start path).1 (start path).2

/-- The places that are passed on the way along a path, from where it starts to where it leads. -/
def along (path : String) : List Place :=
  let (root, pieces) := start path
  (List.range (pieces.length + 1)).map fun n => (pieces.take n).foldl step root

/-- A path that leads to a place. -/
def pathTo : Place → String
  | [] => "."
  | "/" :: rest => "/" ++ joinWith "/" rest
  | p => joinWith "/" p

/-- The place of a directory that a path leads to. -/
def directoryAt? (t : FileTree) (path : String) : Option Place :=
  match t.locate path with
  | .ok p => if t.isDirectory p then some p else none
  | .error _ => none

/-- The place of a file that a path leads to. -/
def fileAt? (t : FileTree) (path : String) : Option Place :=
  match t.locate path with
  | .ok p => if t.isFile p then some p else none
  | .error _ => none

/-- The text of a file; nothing if there is no such file, or if it is not text. -/
def read? (t : FileTree) (path : String) : Option String :=
  (t.fileAt? path).bind fun p => (t.files.lookup p).join

/-- The names that lead from a directory to each file below it. -/
def below (t : FileTree) (directory : Place) : List Place :=
  t.files.filterMap fun f =>
    if directory.isPrefixOf f.1 && directory.length < f.1.length then
      some (f.1.drop directory.length)
    else none

/-- A path without slashes at its end. -/
def trimSlashes (path : String) : String :=
  String.ofList (path.toList.reverse.dropWhile (· = '/')).reverse

/-- The tree with one directory more; the one around it has to be there. -/
def makeDirectory (t : FileTree) (path : String) : Except SystemError FileTree :=
  let trimmed := trimSlashes path
  if trimmed = "" then .error (if path = "" then .missing else .alreadyThere)
  else
    match t.locate trimmed with
    | .error e => .error e
    | .ok p =>
      let last := (Path.pieces trimmed).getLast?.getD ""
      if last = "." || last = ".." || t.isDirectory p || t.isFile p then .error .alreadyThere
      else .ok (t.addDirectory p)

/-- The tree with a directory that is made together with at most `budget` directories around it. -/
def makeDirectoriesWithin : Nat → FileTree → String → Except SystemError FileTree
  | 0, t, _ => .ok t
  | budget + 1, t, path =>
    let unlessThere (t : FileTree) (e : SystemError) : Except SystemError FileTree :=
      if (t.directoryAt? path).isSome then .ok t else .error e
    if path = "" then .ok t
    else
      match t.makeDirectory path with
      | .ok t' => .ok t'
      | .error .missing =>
        match Path.parent? path with
        | none => .error .missing
        | some parent =>
          match makeDirectoriesWithin budget t parent with
          | .error e => .error e
          | .ok t' =>
            match t'.makeDirectory path with
            | .ok t'' => .ok t''
            | .error e => unlessThere t' e
      | .error e => unlessThere t e

/-- The tree with a directory and all that are missing around it. -/
def makeDirectories (t : FileTree) (path : String) : Except SystemError FileTree :=
  makeDirectoriesWithin ((Path.components path).length + 1) t path

/-- The tree with a file written at a path. -/
def write (t : FileTree) (path text : String) : Except SystemError FileTree :=
  match t.locate path with
  | .error e => .error e
  | .ok p => if t.isDirectory p then .error .isDirectory else .ok (t.addFile p (some text))

end FileTree
end Companion.Command
