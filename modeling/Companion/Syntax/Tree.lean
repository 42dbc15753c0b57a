import Companion.Syntax.Modifier
import Companion.Syntax.TypeRef

/-!
Declaration trees. Of a source file only namespaces, using directives, type declarations and fields
are kept; every other member is the span it covers. Verbatim text is recovered from the source
through spans.
-/

set_option autoImplicit false

namespace Companion

/-- An attribute such as `Range(0, 1)`. -/
structure Attribute where
  /-- The name as written, possibly dotted. -/
  name : String
  nameSpan : Span
  /-- What stands between the parentheses. -/
  arguments : Option Span
  span : Span
  deriving DecidableEq, Repr

namespace Attribute

/-- The last piece of the name, without an `Attribute` ending unless that is all of it. -/
def simpleName (a : Attribute) : String :=
  let last := afterLast (fun c => c = '.' || c = ':') a.name
  match withoutEnding? "Attribute" last with
  | some short => if short = "" then last else short
  | none => last

/-- Whether the attribute goes by a simple name, given with or without its ending. -/
def isNamed (a : Attribute) (name : String) : Bool :=
  a.simpleName = (withoutEnding? "Attribute" name).getD name

end Attribute

/-- A bracketed list of attributes. -/
structure AttributeList where
  /-- `field`, `return`, `assembly` and the like, when one is given. -/
  target : Option String
  attributes : List Attribute
  span : Span
  deriving DecidableEq, Repr

/-- One variable of a field declaration. -/
structure Declarator where
  name : String
  nameSpan : Span
  /-- What is written after the `=`. -/
  initializer : Option Span
  deriving DecidableEq, Repr

structure Field where
  attributes : List AttributeList
  modifiers : List Modifier
  type : TypeRef
  declarators : List Declarator
  span : Span

namespace Field

/-- The attributes of all lists, in source order. -/
def allAttributes (f : Field) : List Attribute := f.attributes.flatMap (·.attributes)

end Field

/-- A type parameter of a generic type. -/
structure TypeParam where
  name : String
  span : Span
  deriving DecidableEq, Repr

inductive TypeKind where
  | classType
  | structType
  | interfaceType
  | enumType
  | recordType
  | recordStruct
  deriving DecidableEq, Repr

def TypeKind.keyword : TypeKind → String
  | classType => "class"
  | structType => "struct"
  | interfaceType => "interface"
  | enumType => "enum"
  | recordType => "record"
  | recordStruct => "record struct"

/-- A type declaration without its members. -/
structure TypeHeader where
  kind : TypeKind
  attributes : List AttributeList
  modifiers : List Modifier
  name : String
  nameSpan : Span
  typeParams : List TypeParam
  /-- Base class and interfaces, in source order. -/
  bases : List TypeRef
  span : Span

namespace TypeHeader

def isPartial (h : TypeHeader) : Bool := h.modifiers.contains .partialDecl

/-- The number of type parameters. -/
def arity (h : TypeHeader) : Nat := h.typeParams.length

end TypeHeader

mutual

/-- A class, struct, interface, enum or record declaration. -/
inductive TypeDecl where
  | mk (header : TypeHeader) (members : List Member)

/-- A member of a type body. -/
inductive Member where
  | field (f : Field)
  | type (d : TypeDecl)
  /-- A method, property, constructor and so on, which nothing looks into. -/
  | other (span : Span)

end

namespace TypeDecl

def header : TypeDecl → TypeHeader
  | mk h _ => h

def members : TypeDecl → List Member
  | mk _ ms => ms

/-- The field declarations, in source order. -/
def fields (d : TypeDecl) : List Field :=
  d.members.filterMap fun
    | .field f => some f
    | _ => none

end TypeDecl

/-- A `using` directive. -/
structure Using where
  aliasName : Option String
  isStatic : Bool
  isGlobal : Bool
  target : TypeRef
  /-- The whole directive with its `;`. -/
  span : Span

/-- The namespace that a plain directive opens, as the pieces of its name. -/
def Using.opened (u : Using) : Option (List String) :=
  if u.aliasName.isSome || u.isStatic then none else u.target.name?.map Name.parts

/-- The namespace that a plain directive opens. -/
def Using.namespaceName (u : Using) : Option String := u.opened.map (joinWith ".")

/-- A namespace declaration without its members. -/
structure NamespaceHeader where
  /-- The pieces of the name as declared, without outer namespaces. -/
  parts : List String
  nameSpan : Span
  /-- Written `namespace N;`, to hold for the rest of the file. -/
  fileScoped : Bool
  usings : List Using
  span : Span

/-- The dotted name as declared. -/
def NamespaceHeader.name (h : NamespaceHeader) : String := joinWith "." h.parts

/-- What stands directly in a file or a namespace. -/
inductive Item where
  | namespaceDecl (header : NamespaceHeader) (items : List Item)
  | typeDecl (d : TypeDecl)

/-- A parsed source file. -/
structure SourceFile where
  path : String
  source : String
  usings : List Using
  items : List Item

namespace SourceFile

/-- The text that a span of the file covers. -/
def text (f : SourceFile) (s : Span) : String := s.text f.source

end SourceFile
end Companion
