import Companion.Syntax.Tree

/-!
What a run can be told: how fields are marked, how backing fields are named, what is reported and
emitted, and the names that generated code uses for the engine it runs in.
-/

set_option autoImplicit false

namespace Companion

/-- The engine's names that generated code refers to, fully qualified so that generated code does
not depend on using directives. -/
structure HostNames where
  /-- The base class of every object the engine manages. -/
  engineObject : String := "UnityEngine.Object"
  /-- The interface whose hooks the engine calls around serialization. -/
  callbackInterface : String := "UnityEngine.ISerializationCallbackReceiver"
  serializeFieldAttribute : String := "UnityEngine.SerializeField"
  /-- The class with the logging methods. -/
  debugLog : String := "UnityEngine.Debug"
  /-- The attribute of backing fields, which takes a type. -/
  validateAttribute : String := "SerializeInterface.ValidateInterface"
  beforeSerializeHook : String := "OnBeforeSerialize"
  afterDeserializeHook : String := "OnAfterDeserialize"
  deriving DecidableEq, Repr

/-- Whether a base, as it is written, names the callback interface, in full or by its last part. -/
def HostNames.isCallback (host : HostNames) (base : String) : Bool :=
  let name := (withoutBeginning? "global::" base).getD base
  name = host.callbackInterface || name = afterLast (· = '.') host.callbackInterface

structure Settings where
  /-- The attribute that marks fields, with or without its ending. -/
  markerAttribute : String := "SerializeInterface"
  /-- What is put behind the name of a field to name its backing field. -/
  backingSuffix : String := "Serialized"
  /-- Whether classes may be analyzed side by side, so that the reports of one may arrive between
  those of another. -/
  isParallel : Bool := true
  /-- Whether marked fields that are skipped are reported. -/
  reportSkippedFields : Bool := true
  /-- Whether generated code logs a warning when a stored reference has the wrong type. -/
  emitCastWarnings : Bool := true
  /-- Whether helpers for creating instances are generated. -/
  instantiateHelpers : Bool := true
  host : HostNames := {}
  deriving DecidableEq, Repr

namespace Settings

def isMarker (s : Settings) (a : Attribute) : Bool := a.isNamed s.markerAttribute

def backingName (s : Settings) (field : String) : String := field ++ s.backingSuffix

end Settings
end Companion
