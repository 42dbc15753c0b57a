import Companion.Symbol.Table

/-!
What references to types stand for. A name is looked up from the innermost level of its scope
outwards: type parameters and nested types, the types of the namespace, aliases, and the types that
using directives open. The target of a using directive is resolved outside the level that holds it,
so that resolution ends even if aliases name each other. A name that nothing declares is kept as it
is written.
-/

set_option autoImplicit false

namespace Companion

/-- What the beginning of a dotted name stands for. -/
inductive Prefixed where
  | space (s : Space)
  | type (t : Ty)

/-- How the first piece of a name is understood at some place. -/
structure Lookup where
  /-- The type of a name with arguments. -/
  type : String → List Ty → Option Ty
  /-- The namespaces that a name may stand for, the nearest first. -/
  spaces : String → List Space

namespace Table

/-- The member of a namespace or type that a piece of a name selects. -/
def member (t : Table) (outer : Prefixed) (ident : String) (args : List Ty) : Option Prefixed :=
  match outer with
  | .space s =>
    match t.findIn s ident args.length with
    | some id => some (.type (.named id args))
    | none =>
      if args.isEmpty && t.hasSpace (s ++ [ident]) then some (.space (s ++ [ident])) else none
  | .type ty =>
    match ty.id? with
    | some id => (t.findNested id ident args.length).map fun n => .type (.named n args)
    | none => none

/-- The type at the end of a path of pieces with their arguments. -/
def walk (t : Table) (start : Prefixed) : List (String × List Ty) → Option Ty
  | [] =>
    match start with
    | .type ty => some ty
    | .space _ => none
  | (ident, args) :: rest =>
    match t.member start ident args with
    | some next => t.walk next rest
    | none => none

/-- The type of a path of pieces: from the type of its first piece, or else from the namespaces
that the first piece stands for. -/
def resolvePath (t : Table) (l : Lookup) : List (String × List Ty) → Option Ty
  | [] => none
  | (ident, args) :: rest =>
    let fromType :=
      match l.type ident args with
      | some ty => t.walk (.type ty) rest
      | none => none
    match fromType with
    | some ty => some ty
    | none =>
      if rest.isEmpty || !args.isEmpty then none
      else (l.spaces ident).findSome? fun s => t.walk (.space s) rest

mutual

/-- The type of a reference, given how the first piece of a name is understood. -/
def resolveWith (t : Table) (l : Lookup) : TypeRef → Ty
  | .predefined p _ => Ty.ofPredefined p
  | .named fromGlobal segs span =>
    let path := resolveSegments t l segs
    let found := if fromGlobal then t.walk (.space []) path else t.resolvePath l path
    found.getD (.unresolved (TypeRef.named fromGlobal segs span).render)
  | .array e rank _ => .array (resolveWith t l e) rank
  | .nullable i _ => .nullable (resolveWith t l i)
  | .tuple es _ => .tuple (resolveAll t l es)

def resolveAll (t : Table) (l : Lookup) : List TypeRef → List Ty
  | [] => []
  | r :: rs => resolveWith t l r :: resolveAll t l rs

def resolveSegment (t : Table) (l : Lookup) : Segment → String × List Ty
  | .mk ident args _ => (ident, resolveAll t l args)

def resolveSegments (t : Table) (l : Lookup) : List Segment → List (String × List Ty)
  | [] => []
  | s :: ss => resolveSegment t l s :: resolveSegments t l ss

end

/-- Whether the target of a using directive is a namespace. -/
def namesSpace (t : Table) (u : Using) : Bool :=
  match u.target.name? with
  | some n => t.hasSpace n.parts
  | none => false

/-- The namespaces for which an identifier is an alias. -/
def aliasedSpaces (t : Table) (us : List Using) (ident : String) : List Space :=
  us.filterMap fun u =>
    if u.aliasName = some ident && t.namesSpace u then u.target.name?.map Name.parts else none

/-- The type that a using directive without alias brings in for an identifier. -/
def opens (t : Table) (outside : Lookup) (u : Using) (ident : String) (arity : Nat) :
    Option TypeId :=
  if u.aliasName.isSome then none
  else if u.isStatic then
    match (t.resolveWith outside u.target).id? with
    | some id => t.findNested id ident arity
    | none => none
  else
    match u.opened with
    | some s => t.findIn s ident arity
    | none => none

/-- The type that the using directives of one level give to an identifier: first the aliases, and
then the first type that a directive opens. -/
def throughUsings (t : Table) (outside : Lookup) (us : List Using) (ident : String)
    (args : List Ty) : Option Ty :=
  let aliased :=
    if args.isEmpty then us.find? fun u => u.aliasName = some ident && !t.namesSpace u else none
  match aliased with
  | some u => some (t.resolveWith outside u.target)
  | none => (us.findSome? fun u => t.opens outside u ident args.length).map (.named · args)

/-- Outside every file only the global namespace is visible. -/
def globalLookup (t : Table) : Lookup where
  type ident args := (t.findIn [] ident args.length).map (.named · args)
  spaces ident := if t.hasSpace [ident] then [[ident]] else []

/-- What a level gives to an identifier, before the levels outside it are asked. -/
def atLevel (t : Table) (outside : Lookup) (level : Level) (ident : String) (args : List Ty) :
    Option Ty :=
  match level with
  | .type id =>
    let params := ((t.symbol? id).map (·.typeParams)).getD []
    if args.isEmpty && params.contains ident then some (.param ident id)
    else (t.findNested id ident args.length).map (.named · args)
  | .space s us =>
    match t.findIn s ident args.length with
    | some id => some (.named id args)
    | none => t.throughUsings outside us ident args
  | .unit us =>
    match t.findIn [] ident args.length with
    | some id => some (.named id args)
    | none => t.throughUsings outside (us ++ t.globalUsings) ident args

/-- The namespaces that an identifier stands for at a level. -/
def spacesAtLevel (t : Table) (level : Level) (ident : String) : List Space :=
  match level with
  | .type _ => []
  | .space s us =>
    t.aliasedSpaces us ident ++ (if t.hasSpace (s ++ [ident]) then [s ++ [ident]] else [])
  | .unit us => t.aliasedSpaces us ident

/-- How the first piece of a name is understood in a scope. -/
def lookup (t : Table) : Scope → Lookup
  | [] => t.globalLookup
  | level :: outer =>
    let outside := t.lookup outer
    { type := fun ident args =>
        match t.atLevel outside level ident args with
        | some ty => some ty
        | none => outside.type ident args
      spaces := fun ident => t.spacesAtLevel level ident ++ outside.spaces ident }

/-- The type that a reference stands for in a scope. -/
def resolve (t : Table) (scope : Scope) (r : TypeRef) : Ty := t.resolveWith (t.lookup scope) r

end Table
end Companion
