import Companion.Symbol.Resolution

/-!
Compilations: source files with the table of everything they declare, in which the bases of every
type are resolved. The first written base is the base class if it can be one; all others are
interfaces. The full name of a type is what generated code refers to it by.
-/

set_option autoImplicit false

namespace Companion

structure Compilation where
  files : List SourceFile
  table : Table

namespace Table

def kindOf (t : Table) (ty : Ty) : Option TypeKind :=
  match ty.stripNullable.id? with
  | some id => (t.symbol? id).map (·.kind)
  | none => none

def isInterface (t : Table) (ty : Ty) : Bool := t.kindOf ty = some .interfaceType

/-- The bases that a type is written with, in order, each with whether it comes first in its
list. -/
def writtenBases (t : Table) (s : Symbol) : List (Ty × Bool) :=
  s.sites.flatMap fun site =>
    site.decl.header.bases.mapIdx fun i r => (t.resolve site.body r, i == 0)

/-- Whether a written base can be the base class of a type. -/
def canBeBase (t : Table) (s : Symbol) (written : Ty × Bool) : Bool :=
  written.2 && s.isClass && !t.isInterface written.1 && written.1 ≠ Ty.ofPredefined .object

/-- One more written base. -/
def takeBase (t : Table) (s : Symbol) (taken : Option Ty × List Ty) (written : Ty × Bool) :
    Option Ty × List Ty :=
  let (base, interfaces) := taken
  if t.canBeBase s written && base.isNone then (some written.1, interfaces)
  else if interfaces.contains written.1 || base = some written.1 then taken
  else (base, interfaces ++ [written.1])

/-- The base class and the interfaces of a type. -/
def basesOf (t : Table) (s : Symbol) : Option Ty × List Ty :=
  (t.writtenBases s).foldl (t.takeBase s) (none, [])

/-- The table with the bases of every symbol. -/
def withBases (t : Table) : Table :=
  { t with symbols := t.symbols.map fun s =>
      let (base, interfaces) := t.basesOf s
      { s with base := base, interfaces := interfaces } }

end Table

namespace Compilation

def ofFiles (files : List SourceFile) : Compilation := ⟨files, (Table.ofFiles files).withBases⟩

def symbol? (c : Compilation) (id : TypeId) : Option Symbol := c.table.symbol? id

/-- The types that the files declare, in order. -/
def declared (c : Compilation) : List (TypeId × Symbol) :=
  (c.table.symbols.mapIdx fun id s => (id, s)).drop TypeId.firstDeclared

def resolve (c : Compilation) (scope : Scope) (r : TypeRef) : Ty := c.table.resolve scope r

def kindOf (c : Compilation) (t : Ty) : Option TypeKind := c.table.kindOf t

def isInterface (c : Compilation) (t : Ty) : Bool := c.table.isInterface t

/-- The element type of a list. -/
def listElement (_ : Compilation) (t : Ty) : Option Ty :=
  match t.stripNullable with
  | .named id [element] => if id = TypeId.list then some element else none
  | _ => none

/-- The base class of a type. -/
def base? (c : Compilation) (id : TypeId) : Option Ty := (c.symbol? id).bind (·.base)

/-- The types around a type, outermost first. -/
def enclosing (c : Compilation) (id : TypeId) : List TypeId :=
  ((c.symbol? id).map (·.enclosing)).getD []

def nameOf (c : Compilation) (id : TypeId) : String := ((c.symbol? id).map (·.name)).getD ""

def spaceOf (c : Compilation) (id : TypeId) : Space := ((c.symbol? id).map (·.space)).getD []

/-- Namespace, types around and name of a type, joined by points. -/
def qualifiedName (c : Compilation) (id : TypeId) : String :=
  joinWith "." (c.spaceOf id ++ (c.enclosing id).map c.nameOf ++ [c.nameOf id])

mutual

/-- The text that denotes a type in generated code. Type arguments are joined by commas. -/
def fullName (c : Compilation) : Ty → String
  | .named id args => c.qualifiedName id ++ fullArgs c args
  | .param name _ => name
  | .array e rank => fullName c e ++ "[" ++ String.ofList (List.replicate (rank - 1) ',') ++ "]"
  | .nullable i => fullName c i ++ "?"
  | .tuple es => "System.ValueTuple" ++ fullArgs c es
  | .unresolved text => text

/-- Type arguments in angle brackets; nothing if there are none. -/
def fullArgs (c : Compilation) : List Ty → String
  | [] => ""
  | t :: ts => "<" ++ fullName c t ++ fullTail c ts ++ ">"

def fullTail (c : Compilation) : List Ty → String
  | [] => ""
  | t :: ts => "," ++ fullName c t ++ fullTail c ts

end

/-- A type of the body of a base, seen from a class that gives the base its arguments. -/
def substituteBase (c : Compilation) (base t : Ty) : Ty :=
  match base with
  | .named id args => t.substitute id (((c.symbol? id).map (·.typeParams)).getD []) args
  | _ => t

/-- The text up to the last point, and the text behind it. -/
def splitLast (fullName : String) : String × String :=
  let last := fullName.toList.reverse.takeWhile (· ≠ '.')
  let before := fullName.toList.reverse.drop (last.length + 1)
  (String.ofList before.reverse, String.ofList last.reverse)

/-- The type in a namespace that has a full name. -/
def lookup (c : Compilation) (fullName : String) (arity : Nat) : Option TypeId :=
  let (space, name) := splitLast fullName
  (c.table.spaces.find? fun s => joinWith "." s = space).bind fun s => c.table.findIn s name arity

/-- The type that a declaration of a file belongs to. Of declarations at one place the last one
counts. -/
def idOf (c : Compilation) (file : Nat) (place : Span) : Option TypeId :=
  c.table.places.reverse.lookup (file, place)

end Compilation
end Companion
