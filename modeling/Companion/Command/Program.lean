import Companion.Command.FileTree
import Companion.Command.Json
import Companion.Command.Options

/-!
The program as a function: from the arguments and the files it can see to what it prints, the files
it leaves behind, and its exit code. The code is 1 if errors were reported and 2 if a command could
not be carried out.
-/

set_option autoImplicit false

namespace Companion.Command

/-- What a run of the program leaves behind. -/
structure Output where
  exitCode : Nat
  stdout : String
  stderr : String
  tree : FileTree
  deriving DecidableEq, Repr

def version : String := "0.1.0"

/-- The help text. -/
def usage : String :=
  String.join <| [
    "serin - companion generator for [SerializeInterface] fields",
    "",
    "Usage: serin <command> [options] [paths...]",
    "",
    "Commands:",
    "  gen [paths...]       Generate companion sources",
    "  check [paths...]     Analyze and report, without generating",
    "  analyze [paths...]   Print the analysis as JSON",
    "  explain <code>       Explain an error code (e.g., E2004)",
    "  help                 Show this help message",
    "  version              Show version information",
    "",
    "Paths are .cs files or directories (searched recursively).",
    "The current directory is used when none are given.",
    "",
    "Options:",
    "  -o, --out <dir>      Write generated units into <dir> (gen)",
    "  --no-parallel        Analyze classes sequentially",
    "  --no-helpers         Skip InstantiateInterface helpers",
    "  --no-cast-warnings   Drop failed casts silently at runtime",
    "  --quiet-skips        Do not warn about skipped marker fields",
    "  --marker=<name>      Marker attribute name (default: SerializeInterface)",
    "  --color=<mode>       auto, always or never",
    "",
    "Environment:",
    "  RUST_LOG=serin_gen=debug   Trace the generator",
    "  SERIN_LOG_TREE=1           Hierarchical trace output",
    "",
    "Examples:",
    "  serin gen Assets/Scripts -o Assets/Generated",
    "  serin check Assets --quiet-skips",
    "  serin analyze Player.cs > analysis.json",
    "  serin explain E4001"].map (· ++ "\n")

/-- The source files that a path stands for: a file itself, or those below a directory that are not
hidden and not generated. -/
def sourcesAt (t : FileTree) (path : String) : Except Failure (List String) :=
  match t.directoryAt? path with
  | some directory =>
    let isSource (names : List String) : Bool :=
      !names.dropLast.any Path.isHidden &&
        match names.getLast? with
        | some name => Path.hasSourceExtension name && !Path.isGenerated name
        | none => false
    .ok (((t.below directory).filter isSource).map fun names => names.foldl Path.join path)
  | none => if (t.fileAt? path).isSome then .ok [path] else .error (.notFound path)

/-- The source files that paths stand for, in order and each once. -/
def discover (t : FileTree) (paths : List String) : Except Failure (List String) := do
  let found ← paths.mapM (sourcesAt t)
  let distinct := Path.sortDistinct found.flatten
  if distinct.isEmpty then .error .noSources else .ok distinct

/-- The paths and texts of source files. -/
def load (t : FileTree) (paths : List String) : Except Failure (List (String × String)) :=
  paths.mapM fun path =>
    match t.read? path with
    | some text => .ok (path, text)
    | none => .error (.cannotRead path "stream did not contain valid UTF-8")

/-- An ending that is left out for a single thing. -/
def plural (n : Nat) (ending : String) : String := if n = 1 then "" else ending

/-- One line about a class. -/
def summaryLine (a : ClassAnalysis) : String :=
  a.qualifiedName ++ ": " ++
    if !a.requiresCompanion then "nothing to generate"
    else if !a.isPartial then "not generated, not partial"
    else toString a.ownShapes.length ++ " own, " ++ toString a.inherited.length
      ++ " inherited -> " ++ a.hintName

/-- The lines about all classes and about the run. -/
def checkText (files : Nat) (r : RunResult) : String :=
  String.join (r.classes.map fun a => summaryLine a ++ "\n") ++
    "checked " ++ toString files ++ " file" ++ plural files "s" ++ ": "
    ++ toString r.classes.length ++ " class" ++ plural r.classes.length "es"
    ++ " with marker fields, " ++ toString r.units.length ++ " companion"
    ++ plural r.units.length "s" ++ "\n"

/-- Generated units one after another, each behind a line with its name. -/
def unitsText (units : List GeneratedUnit) : String :=
  String.join (units.map fun u => "// file: " ++ u.hintName ++ "\n" ++ u.text)

/-- Write units into a directory; what was written before a failure stays. -/
def writeUnits (directory : String) : FileTree → List GeneratedUnit → FileTree × Option Failure
  | t, [] => (t, none)
  | t, u :: us =>
    let path := Path.join directory u.hintName
    match t.write path u.text with
    | .ok t' => writeUnits directory t' us
    | .error e => (t, some (.cannotWrite path e.message))

/-- Make a directory and write units into it. -/
def writeInto (t : FileTree) (directory : String) (units : List GeneratedUnit) :
    FileTree × Option Failure :=
  match t.makeDirectories directory with
  | .ok t' => writeUnits directory t' units
  | .error e => (t, some (.cannotWrite directory e.message))

/-- What a command that reads sources does with a run. -/
inductive Action where
  | generate
  | check
  | analyze
  deriving DecidableEq, Repr

def Action.ofCommand? (command : String) : Option Action :=
  if command = "gen" || command = "generate" then some .generate
  else if command = "check" then some .check
  else if command = "analyze" then some .analyze
  else none

/-- The end of a command that could not be carried out. -/
def failed (t : FileTree) (stderr : String) (f : Failure) : Output :=
  ⟨2, "", stderr ++ "error: " ++ f.message ++ "\n", t⟩

/-- A command that reads sources, once its options are known. -/
def runAction (t : FileTree) (isTerminal : Bool) (action : Action) (o : Options) : Output :=
  match discover t o.paths >>= load t with
  | .error f => failed t "" f
  | .ok texts =>
    let sources := Sources.ofTexts texts
    let g := Generation.ofSources sources o.settings
    let stderr :=
      Report.paint (o.color.useColors isTerminal) (Report.all sources.texts g.diagnostics)
    let code := if g.hasErrors then 1 else 0
    match action, o.outDir with
    | .generate, none => ⟨code, unitsText g.result.units, stderr, t⟩
    | .generate, some directory =>
      match writeInto t directory g.result.units with
      | (t', some f) => failed t' stderr f
      | (t', none) =>
        let n := g.result.units.length
        ⟨code, "generated " ++ toString n ++ " file" ++ plural n "s" ++ " in " ++ directory ++ "\n",
          stderr, t'⟩
    | .check, _ => ⟨code, checkText sources.files.length g.result, stderr, t⟩
    | .analyze, _ => ⟨code, (Json.ofResult g.result).print ++ "\n", stderr, t⟩

/-- A command that reads sources. -/
def runWithOptions (t : FileTree) (isTerminal : Bool) (action : Action) (args : List String) :
    Output :=
  match Options.ofArguments args with
  | .error f => failed t "" f
  | .ok o => runAction t isTerminal action o

/-- The explanation of a code; further arguments do not matter. -/
def runExplain (t : FileTree) : List String → Output
  | [] => ⟨1, "", "Usage: serin explain <ERROR_CODE>\nExample: serin explain E2004\n", t⟩
  | code :: _ =>
    match explain code with
    | .ok text => ⟨0, text ++ "\n", "", t⟩
    | .error f => failed t "" f

/-- A command that reads no sources. -/
def runOther (t : FileTree) (command : String) (args : List String) : Output :=
  if command = "explain" || command = "--explain" then runExplain t args
  else if command = "help" || command = "--help" || command = "-h" then ⟨0, usage, "", t⟩
  else if command = "version" || command = "--version" || command = "-V" then
    ⟨0, "serin " ++ version ++ "\n", "", t⟩
  else ⟨1, usage, "Unknown command: " ++ command ++ "\n\n", t⟩

/-- The program: its files, whether errors go to a terminal, and its arguments. -/
def run (t : FileTree) (isTerminal : Bool) : List String → Output
  | [] => ⟨0, usage, "", t⟩
  | command :: args =>
    match Action.ofCommand? command with
    | some action => runWithOptions t isTerminal action args
    | none => runOther t command args

/-- The options of a run that reads sources. They tell which files the run has to be given. -/
def optionsOf? : List String → Option Options
  | [] => none
  | command :: args => (Action.ofCommand? command).bind fun _ => (Options.ofArguments args).toOption

end Companion.Command
