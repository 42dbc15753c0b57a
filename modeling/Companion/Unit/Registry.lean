/-!
Generated units by name. A second unit of a name is refused, and the first one stays.
-/

set_option autoImplicit false

namespace Companion

structure GeneratedUnit where
  /-- The name of the file to write. -/
  hintName : String
  /-- The class that the unit completes. -/
  className : String
  text : String
  deriving DecidableEq, Repr

/-- The units in the order in which they were registered. -/
structure Registry where
  units : List GeneratedUnit
  deriving DecidableEq, Repr

namespace Registry

/-- A unit was refused because its name is taken. -/
inductive RegisterError where
  | duplicate (hintName : String)
  deriving DecidableEq, Repr

def RegisterError.message : RegisterError → String
  | .duplicate hintName => "a generated source named `" ++ hintName ++ "` is already registered"

def empty : Registry := ⟨[]⟩

def contains (r : Registry) (hintName : String) : Bool := r.units.any (·.hintName = hintName)

def size (r : Registry) : Nat := r.units.length

def isEmpty (r : Registry) : Bool := r.units.isEmpty

def register (r : Registry) (u : GeneratedUnit) : Except RegisterError Registry :=
  if r.contains u.hintName then .error (.duplicate u.hintName) else .ok ⟨r.units ++ [u]⟩

/-- The units in the order of their names. -/
def sorted (r : Registry) : List GeneratedUnit :=
  r.units.mergeSort fun a b => compare a.hintName b.hintName != .gt

end Registry
end Companion
