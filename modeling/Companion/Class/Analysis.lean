import Companion.Field.Inherited

/-!
What is known about a class before anything is generated for it: the shapes of its own marked
fields and of those it inherits, whether a companion is needed and possible, and the part that the
companion plays among the companions of base and derived classes.

The engine calls the callback interface of the most derived class only. So the companions along a
chain of classes share one implementation: the topmost implements the interface, and the others
extend what it does.
-/

set_option autoImplicit false

namespace Companion

/-- A type around a class. -/
structure ContainingType where
  name : String
  kind : TypeKind
  typeParams : List String
  deriving DecidableEq, Repr

/-- The part of a companion among the companions of base and derived classes. -/
inductive HookRole where
  /-- It implements the interface, and no derived class has a companion. -/
  | standalone
  /-- It implements the interface, and derived companions extend it. -/
  | root
  /-- It extends the companion of a base class. -/
  | override
  deriving DecidableEq, Repr

structure ClassAnalysis where
  className : String
  namespaceName : Option String
  typeParams : List String
  /-- The types around the class, outermost first. -/
  containingTypes : List ContainingType
  ownShapes : List FieldShape
  inherited : List InheritedField
  /-- Whether there is a shape at all. -/
  requiresCompanion : Bool
  /-- Whether the class and all types around it are partial. -/
  isPartial : Bool
  /-- Whether the class itself lists the callback interface. -/
  implementsCallback : Bool
  hookRole : HookRole
  /-- The using directives around the declarations, as they are written. -/
  usings : List String
  /-- The file of the first declaration. -/
  file : String
  /-- The name of the class in its first declaration. -/
  span : Span
  deriving DecidableEq, Repr

/-- A name with the number of type parameters, if there are any. -/
def withArity (name : String) (arity : Nat) : String :=
  if arity = 0 then name else name ++ "_" ++ toString arity

namespace ClassAnalysis

/-- Namespace, types around and name of the class. -/
def qualifiedName (a : ClassAnalysis) : String :=
  joinWith "." (a.namespaceName.toList ++ a.containingTypes.map (·.name) ++ [a.className])

/-- The name of the generated unit. -/
def hintName (a : ClassAnalysis) : String :=
  joinWith "." (a.namespaceName.toList
    ++ a.containingTypes.map (fun t => withArity t.name t.typeParams.length)
    ++ [withArity a.className a.typeParams.length]) ++ "_g.cs"

def shouldEmit (a : ClassAnalysis) : Bool := a.requiresCompanion && a.isPartial

/-- The shapes of the class itself, then the inherited ones. -/
def shapes (a : ClassAnalysis) : List FieldShape := a.ownShapes ++ a.inherited.map (·.shape)

def hasList (a : ClassAnalysis) : Bool := a.shapes.any (·.isList)

def hasCarriedAttributes (a : ClassAnalysis) : Bool :=
  a.shapes.any fun s => !s.carriedAttributes.isEmpty

end ClassAnalysis

namespace Symbol

/-- A shape whose backing field would have the name of a declared field counts as a skip. -/
def withoutClash (declared : List String) :
    Except SkipReason FieldShape → Except SkipReason FieldShape
  | .ok shape =>
    if declared.contains shape.backingName then .error .backingNameTaken else .ok shape
  | .error reason => .error reason

/-- The variables of the marked fields of a type with what becomes of them. -/
def ownOutcomes (symbol : Symbol) (c : Compilation) (s : Settings) :
    List (Site × Field × Declarator × Except SkipReason FieldShape) :=
  symbol.sites.flatMap fun site =>
    (site.markedFields s).flatMap fun f =>
      (site.classify c s f).map fun (d, outcome) =>
        (site, f, d, withoutClash symbol.fieldNames outcome)

/-- The shapes of the marked fields of a type. -/
def ownShapes (symbol : Symbol) (c : Compilation) (s : Settings) : List FieldShape :=
  (symbol.ownOutcomes c s).filterMap fun (_, _, _, outcome) => outcome.toOption

/-- What is reported about the marked fields of a type. -/
def ownReports (symbol : Symbol) (c : Compilation) (s : Settings) : List Diagnostic :=
  if s.reportSkippedFields then
    (symbol.ownOutcomes c s).filterMap fun (site, f, d, outcome) =>
      match outcome with
      | .ok _ => none
      | .error reason =>
        reason.diagnostic (c.path site.file) d f.type.render (s.backingName d.name)
  else []

/-- Whether the base list of a type names the callback interface. -/
def listsCallback (symbol : Symbol) (c : Compilation) (s : Settings) : Bool :=
  (symbol.base.toList ++ symbol.interfaces).any fun t => s.host.isCallback (c.fullName t)

/-- The texts of the using directives around the declarations, each once. -/
def usingTexts (symbol : Symbol) (c : Compilation) : List String :=
  distinct (symbol.sites.flatMap fun site =>
    site.body.usings.map fun u => c.text site.file u.span)

end Symbol

namespace Compilation

/-- Whether a type is declared and partial. -/
def isPartialType (c : Compilation) (id : TypeId) : Bool :=
  ((c.symbol? id).map (·.isPartial)).getD false

/-- Whether a type and all types around it are partial. -/
def isPartialChain (c : Compilation) (id : TypeId) : Bool :=
  c.isPartialType id && (c.enclosing id).all c.isPartialType

/-- Whether a class has a companion: it is partial, and some marked field has a shape. -/
def hasCompanion (c : Compilation) (s : Settings) (id : TypeId) : Bool :=
  match c.symbol? id with
  | none => false
  | some symbol =>
    symbol.isClass && c.isPartialChain id &&
      (!(symbol.ownShapes c s).isEmpty || !(c.inheritedFields s id).isEmpty)

/-- The base classes from `current` on, nearest first, up to one that is among `seen`. -/
def ancestorsWithin (c : Compilation) : Nat → TypeId → List TypeId → List TypeId
  | 0, _, _ => []
  | budget + 1, current, seen =>
    match (c.base? current).bind Ty.id? with
    | none => []
    | some base =>
      if seen.contains base then [] else base :: c.ancestorsWithin budget base (base :: seen)

/-- The base classes of a class, nearest first; a cycle is followed once. No class comes twice, so
the number of symbols bounds them. -/
def ancestors (c : Compilation) (id : TypeId) : List TypeId :=
  c.ancestorsWithin c.table.symbols.length id [id]

/-- What stands above a class, so far as its hooks are concerned. -/
inductive Above where
  /-- A base class has a companion. -/
  | companion
  /-- A base class implements the callback interface by hand. -/
  | handWritten (id : TypeId)
  | nothing
  deriving DecidableEq, Repr

/-- The nearest base class that has a companion or lists the callback interface. -/
def above (c : Compilation) (s : Settings) : List TypeId → Above
  | [] => .nothing
  | a :: rest =>
    if c.hasCompanion s a then .companion
    else if ((c.symbol? a).map (·.listsCallback c s)).getD false then .handWritten a
    else c.above s rest

/-- Whether a class derived from this one has a companion. -/
def isExtended (c : Compilation) (s : Settings) (id : TypeId) : Bool :=
  c.declared.any fun (other, symbol) =>
    other != id && symbol.isClass && (c.ancestors other).contains id && c.hasCompanion s other

/-- The part of the companion of a class. -/
def hookRole (c : Compilation) (s : Settings) (id : TypeId) : HookRole :=
  match c.above s (c.ancestors id) with
  | .companion => .override
  | _ => if c.isExtended s id then .root else .standalone

/-- The report that generated hooks replace those of a base class. -/
def handWrittenReport (c : Compilation) (s : Settings) (id : TypeId) : Option Diagnostic :=
  match c.above s (c.ancestors id), ((c.symbol? id).map (·.sites)).getD [] with
  | .handWritten base, site :: _ =>
    some (((Diagnostic.warning .handWrittenHooks
      ("companion of `" ++ c.qualifiedName id ++ "` re-implements the serialization callback of `"
        ++ c.qualifiedName base ++ "`")
      site.decl.header.nameSpan "generated hooks replace the base's").inFile
        (c.path site.file)).withNote
          ("`" ++ c.qualifiedName base ++ "`'s own hooks will not run for instances of this class"))
  | _, _ => none

/-- The report that a class needs a companion, but it or a type around it is not partial: at the
first declaration that lacks it, looking outwards. -/
def notPartialReport (c : Compilation) (id : TypeId) : Option Diagnostic := do
  let offender ← (id :: (c.enclosing id).reverse).find? fun i => !c.isPartialType i
  let symbol ← c.symbol? offender
  let site ← (symbol.sites.find? fun site => !site.decl.header.isPartial).or symbol.sites.head?
  let className := c.qualifiedName id
  let message :=
    if offender = id then
      "`" ++ className ++ "` needs a generated companion but is not declared `partial`"
    else
      "containing type `" ++ symbol.name ++ "` of `" ++ className ++ "` is not declared `partial`"
  some (((Diagnostic.error .notPartial message site.decl.header.nameSpan
    "missing `partial`").inFile (c.path site.file)).withSuggestion
      ("declare it as `partial " ++ symbol.kind.keyword ++ " " ++ symbol.name ++ "`"))

/-- A type around a class, as the companion has to repeat it. -/
def containingType (c : Compilation) (id : TypeId) : Option ContainingType :=
  (c.symbol? id).map fun s => ⟨s.name, s.kind, s.typeParams⟩

/-- What is known about a type, across all its declarations. -/
def analysisOf (c : Compilation) (s : Settings) (id : TypeId) (symbol : Symbol) : ClassAnalysis :=
  let ownShapes := symbol.ownShapes c s
  let inherited := c.inheritedFields s id
  let requiresCompanion := !ownShapes.isEmpty || !inherited.isEmpty
  let isPartial := c.isPartialChain id
  { className := symbol.name
    namespaceName := if symbol.space.isEmpty then none else some (joinWith "." symbol.space)
    typeParams := symbol.typeParams
    containingTypes := (c.enclosing id).filterMap c.containingType
    ownShapes := ownShapes
    inherited := inherited
    requiresCompanion := requiresCompanion
    isPartial := isPartial
    implementsCallback := symbol.listsCallback c s
    hookRole := if requiresCompanion && isPartial then c.hookRole s id else .standalone
    usings := symbol.usingTexts c
    file := ((symbol.sites.head?).map fun site => c.path site.file).getD ""
    span := ((symbol.sites.head?).map (·.decl.header.nameSpan)).getD (Span.point 0) }

/-- What is known about a type, and what is reported about it, in order. -/
def analyze (c : Compilation) (s : Settings) (id : TypeId) :
    Option (ClassAnalysis × List Diagnostic) :=
  (c.symbol? id).map fun symbol =>
    let a := c.analysisOf s id symbol
    let partiality := if a.requiresCompanion && !a.isPartial then c.notPartialReport id else none
    let hooks := if a.shouldEmit then c.handWrittenReport s id else none
    (a, symbol.ownReports c s ++ c.inheritedReports s id ++ partiality.toList ++ hooks.toList)

end Compilation
end Companion
