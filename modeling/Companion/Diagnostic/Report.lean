import Companion.Diagnostic.Basic
import Companion.Text.Classes
import Companion.Text.Lines

/-!
Reports for people. A report is a list of chunks of text, some of them in a style; whether styles
are shown is decided when the chunks are put together, so a report reads the same either way.
Labels in a file whose text is known are shown with line, column and the line itself.
-/

set_option autoImplicit false

namespace Companion

inductive ColorMode where
  /-- Colors if the output is a terminal. -/
  | auto
  | always
  | never
  deriving DecidableEq, Repr

namespace ColorMode

def ofFlag? : String → Option ColorMode
  | "auto" => some auto
  | "always" => some always
  | "never" => some never
  | _ => none

def useColors (m : ColorMode) (isTerminal : Bool) : Bool :=
  match m with
  | auto => isTerminal
  | always => true
  | never => false

end ColorMode

namespace Report

/-- How a chunk of a report looks on a terminal. -/
inductive Style where
  | boldRed
  | boldYellow
  | boldCyan
  | boldGreen
  | boldBlue
  | bold
  deriving DecidableEq, Repr

/-- The escape sequence that switches a style on. -/
def Style.escape : Style → String
  | boldRed => "\x1b[1;31m"
  | boldYellow => "\x1b[1;33m"
  | boldCyan => "\x1b[1;36m"
  | boldGreen => "\x1b[1;32m"
  | boldBlue => "\x1b[1;34m"
  | bold => "\x1b[1m"

/-- The escape sequence that switches every style off. -/
def reset : String := "\x1b[0m"

/-- A piece of a report. -/
structure Chunk where
  style : Option Style
  text : String
  deriving DecidableEq, Repr

def plain (text : String) : Chunk := ⟨none, text⟩

def styled (style : Style) (text : String) : Chunk := ⟨some style, text⟩

/-- A chunk as it is written. -/
def Chunk.paint (colors : Bool) (c : Chunk) : String :=
  match c.style with
  | some s => if colors then s.escape ++ c.text ++ reset else c.text
  | none => c.text

/-- A report as it is written. -/
def paint (colors : Bool) (chunks : List Chunk) : String :=
  String.join (chunks.map (Chunk.paint colors))

def severityStyle : Severity → Style
  | .error => .boldRed
  | .warning => .boldYellow
  | .note => .boldCyan

/-- The known source texts by path; the first entry of a path counts. -/
abbrev Sources := List (String × String)

/-- Where a label points, and the line to show below it. -/
def locate (sources : Sources) (file : Option String) (l : Label) : String × Option String :=
  match file with
  | none => (l.span.display ++ ": ", none)
  | some path =>
    match sources.lookup path with
    | none => (path ++ " " ++ l.span.display ++ ": ", none)
    | some text =>
      let table := LineTable.ofSource text
      let (line, column) := table.position text l.span.start
      (path ++ ":" ++ toString line ++ ":" ++ toString column ++ ": ", table.lineText text line)

def label (sources : Sources) (file : Option String) (l : Label) : List Chunk :=
  let (location, snippet) := locate sources file l
  [plain ("  " ++ Diagnostic.marker l ++ " "), plain location,
    styled (if l.isPrimary then .boldRed else .boldBlue) l.message, plain "\n"] ++
  match snippet with
  | some text => [plain ("   | " ++ Text.trimRight text ++ "\n")]
  | none => []

/-- The report of one diagnostic, with an empty line after it. -/
def diagnostic (sources : Sources) (d : Diagnostic) : List Chunk :=
  [styled (severityStyle d.severity) d.severity.text, styled .bold ("[" ++ d.code.text ++ "]"),
    plain (": " ++ d.message ++ "\n")] ++
  d.labels.flatMap (label sources d.file) ++
  (match d.labels, d.file with
    | [], some path => [plain ("  --> " ++ path ++ "\n")]
    | _, _ => []) ++
  d.notes.flatMap (fun n => [plain "  = ", styled .bold "note", plain (": " ++ n ++ "\n")]) ++
  d.suggestions.flatMap
    (fun s => [plain "  = ", styled .boldGreen "help", plain (": " ++ s ++ "\n")]) ++
  [plain "\n"]

/-- How many warnings there were. -/
def warningsEmitted (n : Nat) : String :=
  toString n ++ " warning" ++ (if n = 1 then "" else "s") ++ " emitted"

/-- The closing line with the number of errors and warnings; nothing when there are none. -/
def summary (errors warnings : Nat) : List Chunk :=
  if errors = 0 then
    if warnings = 0 then []
    else [styled .boldYellow "warning", plain (": " ++ warningsEmitted warnings ++ "\n")]
  else
    let previous := if errors = 1 then "previous error" else toString errors ++ " previous errors"
    let emitted := if warnings = 0 then "" else "; " ++ warningsEmitted warnings
    [styled .boldRed "error", plain (": aborting due to " ++ previous ++ emitted ++ "\n")]

/-- The reports of some diagnostics with a closing summary. -/
def all (sources : Sources) (ds : List Diagnostic) : List Chunk :=
  ds.flatMap (diagnostic sources) ++
    summary (Diagnostic.errorCount ds) (Diagnostic.warningCount ds)

end Report
end Companion
