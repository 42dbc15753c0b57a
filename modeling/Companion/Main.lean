import Companion.Command.Program

/-!
The command line. What a run has to see is read from the disk into a file tree, the run is made,
and what it leaves behind is written and printed. All decisions are made by the run.
-/

set_option autoImplicit false

namespace Companion.Command

/-- A file or directory of the disk, which may be missing. -/
def diskEntry (p : Place) : IO.FS.DirEntry := ⟨FileTree.pathTo p, ""⟩

def isDirectoryOnDisk (p : Place) : IO Bool := (diskEntry p).root.isDir

/-- The tree with a file of the disk and its text. -/
def readFile (t : FileTree) (p : Place) : IO FileTree := do
  return t.addFile p (String.fromUTF8? (← IO.FS.readBinFile (FileTree.pathTo p)))

/-- The tree with all that stands on the way along a path. -/
def readAlong (t : FileTree) (path : String) : IO FileTree := do
  let mut t := t
  for p in FileTree.along path do
    if ← isDirectoryOnDisk p then t := t.addDirectory p
    else if ← (diskEntry p).root.pathExists then t ← readFile t p
  return t

/-- The tree with the names in a directory of the disk. Texts that are not known yet are not read:
a run may only write over them. -/
def readNames (t : FileTree) (directory : Place) : IO FileTree := do
  let mut t := t
  for entry in ← (diskEntry directory).root.readDir do
    let p := directory ++ [entry.fileName]
    if ← isDirectoryOnDisk p then t := t.addDirectory p
    else unless t.isFile p do t := t.addFile p none
  return t

/-- The tree with all sources below a directory of the disk. -/
partial def readBelow (t : FileTree) (directory : Place) : IO FileTree := do
  let mut t := t
  for entry in ← (diskEntry directory).root.readDir do
    let p := directory ++ [entry.fileName]
    if ← isDirectoryOnDisk p then
      unless Path.isHidden entry.fileName do t ← readBelow (t.addDirectory p) p
    else if Path.hasSourceExtension entry.fileName then t ← readFile t p
  return t

/-- The tree that a run with some options has to see. -/
def readTree (o : Options) : IO FileTree := do
  let mut t := FileTree.empty
  for path in o.paths do
    t ← readAlong t path
    if let some directory := t.directoryAt? path then t ← readBelow t directory
  if let some path := o.outDir then
    t ← readAlong t path
    if let some directory := t.directoryAt? path then t ← readNames t directory
  return t

/-- Write what a run has changed. -/
def writeChanges (earlier later : FileTree) : IO Unit := do
  for p in FileTree.newDirectories earlier later do
    IO.FS.createDirAll (FileTree.pathTo p)
  for (p, text) in FileTree.changes earlier later do
    IO.FS.writeFile (FileTree.pathTo p) text

/-- Make a run with some arguments, and give its exit code. -/
def execute (args : List String) : IO UInt32 := do
  let stderr ← IO.getStderr
  try
    let tree ← match optionsOf? args with
      | some o => readTree o
      | none => pure FileTree.empty
    let output := run tree (← stderr.isTty) args
    stderr.putStr output.stderr
    writeChanges tree output.tree
    IO.print output.stdout
    return UInt32.ofNat output.exitCode
  catch e =>
    stderr.putStr ("error: " ++ toString e ++ "\n")
    return 2

end Companion.Command

def main (args : List String) : IO UInt32 := Companion.Command.execute args
