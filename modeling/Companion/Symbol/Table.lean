import Companion.Symbol.Ty
import Companion.Syntax.Tree

/-!
The table of symbols. A symbol is a type; declarations of the same name and number of type
parameters in the same namespace or type are sites of one symbol. A table starts with the types
known before any source is read, and a source that declares a type of such a name gets a symbol of
its own, which hides the known one.
-/

set_option autoImplicit false

namespace Companion

/-- A namespace, as the pieces of its name; the global namespace has none. -/
abbrev Space := List String

/-- One level of a lexical scope. -/
inductive Level where
  /-- The body of a type: its parameters and nested types are visible. -/
  | type (id : TypeId)
  /-- A namespace, one level for each piece of its name. -/
  | space (name : Space) (usings : List Using)
  /-- A file: the global namespace and the usings of the file. -/
  | unit (usings : List Using)

/-- The levels around a place, innermost first. -/
abbrev Scope := List Level

/-- The using directives that are written at a level. -/
def Level.usings : Level → List Using
  | type _ => []
  | space _ us => us
  | unit us => us

/-- The using directives around a place, outermost first, without global ones. -/
def Scope.usings (s : Scope) : List Using :=
  (s.reverse.flatMap Level.usings).filter fun u => !u.isGlobal

/-- A declaration of a type in a file. -/
structure Site where
  /-- The place of the file among the files. -/
  file : Nat
  decl : TypeDecl
  /-- The scope of the body. -/
  body : Scope

/-- What a declared type is looked up by. -/
structure Key where
  space : Space
  /-- The type directly around it. -/
  container : Option TypeId
  name : String
  arity : Nat
  deriving DecidableEq, Repr

structure Symbol where
  name : String
  kind : TypeKind
  space : Space
  /-- The types around it, outermost first. -/
  enclosing : List TypeId
  typeParams : List String
  /-- The declarations, in the order of files and places; known types have none. -/
  sites : List Site
  base : Option Ty
  interfaces : List Ty

namespace Symbol

def arity (s : Symbol) : Nat := s.typeParams.length

/-- The type directly around it. -/
def container (s : Symbol) : Option TypeId := s.enclosing.getLast?

/-- The namespace of a nested type does not matter to look-ups. -/
def key (s : Symbol) : Key :=
  match s.container with
  | some outer => ⟨[], some outer, s.name, s.arity⟩
  | none => ⟨s.space, none, s.name, s.arity⟩

/-- Whether the type can be a base class. -/
def isClass (s : Symbol) : Bool := s.kind = .classType || s.kind = .recordType

/-- Whether every declaration is partial. -/
def isPartial (s : Symbol) : Bool := !s.sites.isEmpty && s.sites.all (·.decl.header.isPartial)

/-- The names of the fields of all declarations. -/
def fieldNames (s : Symbol) : List String :=
  s.sites.flatMap fun site => site.decl.fields.flatMap fun f => f.declarators.map (·.name)

end Symbol

structure Table where
  /-- The place of a symbol is its identity. -/
  symbols : List Symbol
  /-- The namespaces that exist. -/
  spaces : List Space
  /-- The global using directives of all files. -/
  globalUsings : List Using
  /-- The declarations by file and place, in order, each with its symbol. -/
  places : List ((Nat × Span) × TypeId)

namespace Table

/-- A type that is known before any source is read. -/
def knownSymbol (name : String) (kind : TypeKind) (space : Space)
    (typeParams : List String) : Symbol :=
  ⟨name, kind, space, [], typeParams, [], none, []⟩

/-- The namespace of lists. -/
def listSpace : Space := ["System", "Collections", "Generic"]

/-- The table before any source is read. -/
def initial : Table where
  symbols :=
    (Predefined.all.map fun p =>
      knownSymbol p.systemName (if p.isValueType then .structType else .classType) ["System"] []) ++
    [knownSymbol "List" .classType listSpace ["T"]]
  spaces := [[], ["System"], ["System", "Collections"], listSpace]
  globalUsings := []
  places := []

/-- The last symbol with a key, counted from `first`. -/
def lastWithKey (key : Key) (first : TypeId) : List Symbol → Option TypeId
  | [] => none
  | s :: ss =>
    match lastWithKey key (first + 1) ss with
    | some id => some id
    | none => if s.key = key then some first else none

/-- The symbol that a key stands for: the latest, so that declared types hide known ones. -/
def find? (t : Table) (key : Key) : Option TypeId := lastWithKey key 0 t.symbols

/-- A type in a namespace. -/
def findIn (t : Table) (space : Space) (name : String) (arity : Nat) : Option TypeId :=
  t.find? ⟨space, none, name, arity⟩

/-- A type nested in a type. -/
def findNested (t : Table) (outer : TypeId) (name : String) (arity : Nat) : Option TypeId :=
  t.find? ⟨[], some outer, name, arity⟩

def hasSpace (t : Table) (space : Space) : Bool := t.spaces.contains space

def symbol? (t : Table) (id : TypeId) : Option Symbol := t.symbols[id]?

/-- The symbol that a declaration belongs to, and the table with that symbol in it. -/
def intern (t : Table) (h : TypeHeader) (space : Space) (enclosing : List TypeId) :
    TypeId × Table :=
  let fresh : Symbol :=
    ⟨h.name, h.kind, space, enclosing, h.typeParams.map (·.name), [], none, []⟩
  match t.find? fresh.key with
  | some id =>
    if id.isWellKnown then (t.symbols.length, { t with symbols := t.symbols ++ [fresh] })
    else (id, t)
  | none => (t.symbols.length, { t with symbols := t.symbols ++ [fresh] })

def addSite (t : Table) (id : TypeId) (site : Site) : Table :=
  { t with
    symbols := t.symbols.modify id fun s => { s with sites := s.sites ++ [site] }
    places := t.places ++ [((site.file, site.decl.header.span), id)] }

mutual

/-- The table with a declaration and everything nested in it. -/
def addType (t : Table) (file : Nat) (scope : Scope) (space : Space) (enclosing : List TypeId) :
    TypeDecl → Table
  | .mk h ms =>
    let (id, t) := t.intern h space enclosing
    let body := .type id :: scope
    addMembers (t.addSite id ⟨file, .mk h ms, body⟩) file body space (enclosing ++ [id]) ms

def addMembers (t : Table) (file : Nat) (scope : Scope) (space : Space)
    (enclosing : List TypeId) : List Member → Table
  | [] => t
  | .type d :: ms =>
    addMembers (addType t file scope space enclosing d) file scope space enclosing ms
  | .field _ :: ms | .other _ :: ms => addMembers t file scope space enclosing ms

end

/-- The namespaces that a dotted declaration opens, outermost first, and the scope inside: one
level for each piece, of which the last one holds the usings. -/
def openSpace (scope : Scope) (outer : Space) (usings : List Using) :
    List String → List Space × Scope × Space
  | [] => ([], scope, outer)
  | [part] =>
    let space := outer ++ [part]
    ([space], .space space usings :: scope, space)
  | part :: rest =>
    let space := outer ++ [part]
    let (spaces, scope, inner) := openSpace (.space space [] :: scope) space usings rest
    (space :: spaces, scope, inner)

mutual

/-- The table with an item of a namespace and everything in it. -/
def addItem (t : Table) (file : Nat) (scope : Scope) (space : Space) : Item → Table
  | .namespaceDecl h items =>
    let (spaces, scope, inner) := openSpace scope space h.usings h.parts
    addItems { t with spaces := t.spaces ++ spaces } file scope inner items
  | .typeDecl d => addType t file scope space [] d

def addItems (t : Table) (file : Nat) (scope : Scope) (space : Space) : List Item → Table
  | [] => t
  | i :: is => addItems (addItem t file scope space i) file scope space is

end

/-- The table with the declarations of a file. -/
def addFile (t : Table) (file : Nat) (f : SourceFile) : Table :=
  let t := { t with globalUsings := t.globalUsings ++ f.usings.filter (·.isGlobal) }
  addItems t file [.unit f.usings] [] f.items

/-- The tables with the declarations of files that are counted from `first`. -/
def addFiles (t : Table) (first : Nat) : List SourceFile → Table
  | [] => t
  | f :: fs => addFiles (addFile t first f) (first + 1) fs

/-- The table of some files, in which no bases are known yet. -/
def ofFiles (files : List SourceFile) : Table := initial.addFiles 0 files

end Table
end Companion
