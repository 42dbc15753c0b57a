/-!
What stops a command before it has a result. Problems in the sources that a command reads are
diagnostics and no failures.
-/

set_option autoImplicit false

namespace Companion.Command

inductive Failure where
  | cannotRead (path reason : String)
  | cannotWrite (path reason : String)
  | notFound (path : String)
  | noSources
  | missingValue (option : String)
  | unknownOption (option : String)
  | invalidColor (value : String)
  | unknownCode (code : String)
  deriving DecidableEq, Repr

def Failure.message : Failure → String
  | cannotRead path reason => "cannot read `" ++ path ++ "`: " ++ reason
  | cannotWrite path reason => "cannot write `" ++ path ++ "`: " ++ reason
  | notFound path => "no such file or directory: `" ++ path ++ "`"
  | noSources => "no `.cs` files found"
  | missingValue option => "missing value for `" ++ option ++ "`"
  | unknownOption option => "unknown option `" ++ option ++ "`"
  | invalidColor value =>
    "invalid color mode `" ++ value ++ "` (expected auto, always or never)"
  | unknownCode code => "unknown error code `" ++ code ++ "`"

end Companion.Command
