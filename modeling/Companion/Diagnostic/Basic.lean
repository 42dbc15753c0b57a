import Companion.Diagnostic.Code
import Companion.Text.Span

/-!
Diagnostics: what is wrong, how badly, and where. Diagnostics are sorted by file, then by the
place they point at, then by code and message; a diagnostic without a file or place comes before
those that have one. Sorting is stable.
-/

set_option autoImplicit false

namespace Companion

inductive Severity where
  | error
  | warning
  | note
  deriving DecidableEq, Repr

def Severity.text : Severity → String
  | error => "error"
  | warning => "warning"
  | note => "note"

/-- A place in the source with a remark. -/
structure Label where
  span : Span
  message : String
  /-- Whether this is the main place, rather than context. -/
  isPrimary : Bool
  deriving DecidableEq, Repr

structure Diagnostic where
  code : Diagnostic.Code
  severity : Severity
  message : String
  /-- The file that the labels point into. -/
  file : Option String
  labels : List Label
  notes : List String
  suggestions : List String
  deriving DecidableEq, Repr

namespace Diagnostic

/-- An error with one primary label. -/
def error (code : Code) (message : String) (place : Span) (label : String) : Diagnostic :=
  ⟨code, .error, message, none, [⟨place, label, true⟩], [], []⟩

/-- A warning with one primary label. -/
def warning (code : Code) (message : String) (place : Span) (label : String) : Diagnostic :=
  ⟨code, .warning, message, none, [⟨place, label, true⟩], [], []⟩

def inFile (d : Diagnostic) (path : String) : Diagnostic := { d with file := some path }

/-- The diagnostic with a further label for context. -/
def withContext (d : Diagnostic) (place : Span) (label : String) : Diagnostic :=
  { d with labels := d.labels ++ [⟨place, label, false⟩] }

def withNote (d : Diagnostic) (note : String) : Diagnostic :=
  { d with notes := d.notes ++ [note] }

def withSuggestion (d : Diagnostic) (suggestion : String) : Diagnostic :=
  { d with suggestions := d.suggestions ++ [suggestion] }

/-- Where the first primary label points. -/
def primarySpan (d : Diagnostic) : Option Span := (d.labels.find? (·.isPrimary)).map (·.span)

def isError (d : Diagnostic) : Bool := d.severity = .error

def isWarning (d : Diagnostic) : Bool := d.severity = .warning

/-- What stands in front of a label. -/
def marker (l : Label) : String := if l.isPrimary then "-->" else "   "

/-- A diagnostic as plain text, with places as byte offsets. -/
def display (d : Diagnostic) : String :=
  let file := match d.file with
    | some path => path ++ " "
    | none => ""
  let label (l : Label) : String :=
    "\n  " ++ marker l ++ " " ++ file ++ l.span.display ++ ": " ++ l.message
  d.severity.text ++ " [" ++ d.code.text ++ "]: " ++ d.message
    ++ String.join (d.labels.map label)
    ++ String.join (d.notes.map ("\n  = note: " ++ ·))
    ++ String.join (d.suggestions.map ("\n  = help: " ++ ·))

/-- Nothing comes before everything else. -/
def compareOptional {α : Type} (cmp : α → α → Ordering) : Option α → Option α → Ordering
  | none, none => .eq
  | none, some _ => .lt
  | some _, none => .gt
  | some a, some b => cmp a b

/-- The order of reports: by file, place, code and message. -/
def compare (a b : Diagnostic) : Ordering :=
  (compareOptional Ord.compare a.file b.file).then <|
    (compareOptional Span.compare a.primarySpan b.primarySpan).then <|
      (Ord.compare a.code.number b.code.number).then (Ord.compare a.message b.message)

/-- Diagnostics in the order of reports. -/
def sort (ds : List Diagnostic) : List Diagnostic :=
  ds.mergeSort fun a b => a.compare b != .gt

/-- Diagnostics of one file in the order of the places they point at. -/
def sortByPlace (ds : List Diagnostic) : List Diagnostic :=
  ds.mergeSort fun a b => compareOptional Span.compare a.primarySpan b.primarySpan != .gt

def errorCount (ds : List Diagnostic) : Nat := ds.countP isError

def warningCount (ds : List Diagnostic) : Nat := ds.countP isWarning

def hasErrors (ds : List Diagnostic) : Bool := ds.any isError

end Diagnostic
end Companion
