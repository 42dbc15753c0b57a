/-!
The types that have a keyword of their own, such as `int` and `string`, with the names they have
in the `System` namespace.
-/

set_option autoImplicit false

namespace Companion

inductive Predefined where
  | bool
  | byte
  | sbyte
  | char
  | decimal
  | double
  | float
  | int
  | uint
  | long
  | ulong
  | short
  | ushort
  | nint
  | nuint
  | object
  | string
  | void
  deriving DecidableEq, Repr

namespace Predefined

def all : List Predefined :=
  [bool, byte, sbyte, char, decimal, double, float, int, uint, long, ulong, short, ushort, nint,
   nuint, object, string, void]

def keyword : Predefined → String
  | bool => "bool"
  | byte => "byte"
  | sbyte => "sbyte"
  | char => "char"
  | decimal => "decimal"
  | double => "double"
  | float => "float"
  | int => "int"
  | uint => "uint"
  | long => "long"
  | ulong => "ulong"
  | short => "short"
  | ushort => "ushort"
  | nint => "nint"
  | nuint => "nuint"
  | object => "object"
  | string => "string"
  | void => "void"

/-- The name of the type inside the `System` namespace. -/
def systemName : Predefined → String
  | bool => "Boolean"
  | byte => "Byte"
  | sbyte => "SByte"
  | char => "Char"
  | decimal => "Decimal"
  | double => "Double"
  | float => "Single"
  | int => "Int32"
  | uint => "UInt32"
  | long => "Int64"
  | ulong => "UInt64"
  | short => "Int16"
  | ushort => "UInt16"
  | nint => "IntPtr"
  | nuint => "UIntPtr"
  | object => "Object"
  | string => "String"
  | void => "Void"

/-- The place of the type in `all`. -/
def index (p : Predefined) : Nat := all.idxOf p

def isValueType : Predefined → Bool
  | object | string => false
  | _ => true

def ofKeyword? (word : String) : Option Predefined := all.find? (·.keyword = word)

end Predefined
end Companion
