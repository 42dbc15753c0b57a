import Companion.Command.Failure
import Companion.Diagnostic.Report
import Companion.Settings

/-!
The options of the commands that read sources. Options and paths may be mixed; the last of several
settings of one thing counts.
-/

set_option autoImplicit false

namespace Companion.Command

structure Options where
  /-- Files and directories, as given. -/
  paths : List String := []
  /-- Where generated units are written; they are printed when there is none. -/
  outDir : Option String := none
  color : ColorMode := .auto
  settings : Settings := {}
  deriving DecidableEq, Repr

namespace Options

/-- An option or path that stands alone. -/
def withArgument (o : Options) (arg : String) : Except Failure Options :=
  if arg = "--no-parallel" then .ok { o with settings := { o.settings with isParallel := false } }
  else if arg = "--no-helpers" then
    .ok { o with settings := { o.settings with instantiateHelpers := false } }
  else if arg = "--no-cast-warnings" then
    .ok { o with settings := { o.settings with emitCastWarnings := false } }
  else if arg = "--quiet-skips" then
    .ok { o with settings := { o.settings with reportSkippedFields := false } }
  else match withoutBeginning? "--color=" arg, withoutBeginning? "--marker=" arg with
    | some mode, _ =>
      match ColorMode.ofFlag? mode with
      | some m => .ok { o with color := m }
      | none => .error (.invalidColor mode)
    | none, some marker =>
      if marker = "" then .error (.missingValue "--marker")
      else .ok { o with settings := { o.settings with markerAttribute := marker } }
    | none, none =>
      if beginsWith "-" arg then .error (.unknownOption arg)
      else .ok { o with paths := o.paths ++ [arg] }

def withArguments (o : Options) : List String → Except Failure Options
  | [] => .ok o
  | [arg] =>
    if arg = "-o" || arg = "--out" then .error (.missingValue arg) else o.withArgument arg
  | arg :: value :: rest =>
    if arg = "-o" || arg = "--out" then { o with outDir := some value }.withArguments rest
    else match o.withArgument arg with
      | .ok o' => o'.withArguments (value :: rest)
      | .error f => .error f

/-- The options that arguments ask for; without paths, the current directory. -/
def ofArguments (args : List String) : Except Failure Options :=
  match ({} : Options).withArguments args with
  | .ok o => .ok (if o.paths.isEmpty then { o with paths := ["."] } else o)
  | .error f => .error f

end Options

/-- The explanation of a code. -/
def explain (code : String) : Except Failure String :=
  match Diagnostic.Code.ofText? code with
  | some c => .ok c.explain
  | none => .error (.unknownCode code)

end Companion.Command
