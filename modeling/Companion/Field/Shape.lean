import Companion.Diagnostic.Basic
import Companion.Syntax.Tree

/-!
What becomes of a marked field: a shape, from which a backing field is generated, or the reason
why there is none. A field whose type depends on a type parameter is left to the classes that give
the parameter a value, and so is not reported.
-/

set_option autoImplicit false

namespace Companion

/-- How a field holds its references. -/
inductive Container where
  | single
  | list
  deriving DecidableEq, Repr

structure FieldShape where
  fieldName : String
  backingName : String
  /-- The full name of the interface. -/
  elementName : String
  container : Container
  isReadOnly : Bool
  isInitializedInline : Bool
  /-- The texts of the attributes other than the marker, in source order. -/
  carriedAttributes : List String
  /-- The name of the variable in the file that declares it. -/
  span : Span
  deriving DecidableEq, Repr

def FieldShape.isList (s : FieldShape) : Bool := s.container = .list

/-- Why a marked field gets no backing field. -/
inductive SkipReason where
  | notInterface
  | static
  | const
  | readonlyScalar
  | readonlyListWithoutInitializer
  /-- The type depends on a type parameter. -/
  | openGeneric
  | unresolved
  | backingNameTaken
  deriving DecidableEq, Repr

namespace SkipReason

/-- The code to report, unless the skip is expected. -/
def code : SkipReason → Option Diagnostic.Code
  | notInterface => some .notInterface
  | static | const => some .staticOrConst
  | readonlyScalar => some .readonlyNotList
  | readonlyListWithoutInitializer => some .readonlyWithoutInitializer
  | unresolved => some .unresolvedType
  | backingNameTaken => some .backingNameTaken
  | openGeneric => none

/-- The message about a field, and the remark at its name. -/
def wording (reason : SkipReason) (field type backing : String) : String × String :=
  match reason with
  | notInterface =>
    ("`" ++ field ++ "` is not an interface or a list of interfaces",
      "declared as `" ++ type ++ "`")
  | static => ("static field `" ++ field ++ "` cannot be serialized", "static field")
  | const => ("const field `" ++ field ++ "` cannot be serialized", "const field")
  | readonlyScalar =>
    ("readonly field `" ++ field ++ "` cannot be assigned after deserialization",
      "readonly interface field")
  | readonlyListWithoutInitializer =>
    ("readonly list `" ++ field ++ "` has no initializer", "never initialized")
  | unresolved => ("cannot resolve type `" ++ type ++ "` of `" ++ field ++ "`", "unknown type")
  | backingNameTaken =>
    ("backing field `" ++ backing ++ "` for `" ++ field ++ "` clashes with an existing field",
      "marker field")
  | openGeneric => ("", "")

/-- What the user may do about it. -/
def suggestion (reason : SkipReason) (type : String) : Option String :=
  match reason with
  | readonlyScalar => some "remove `readonly`"
  | readonlyListWithoutInitializer =>
    some "initialize it where it is declared, e.g. `= new();`"
  | unresolved =>
    if beginsWith "List<" type then some "add `using System.Collections.Generic;`"
    else none
  | _ => none

/-- The warning about a skipped field, at its name. -/
def diagnostic (reason : SkipReason) (file : String) (d : Declarator) (type backing : String) :
    Option Diagnostic :=
  reason.code.map fun code =>
    let (message, remark) := reason.wording d.name type backing
    let base := ((Diagnostic.warning code message d.nameSpan remark).inFile file).withNote
      "no backing field is generated for this field"
    match reason.suggestion type with
    | some s => base.withSuggestion s
    | none => base

end SkipReason
end Companion
