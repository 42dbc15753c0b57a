import Companion.Field.Classification

/-!
Marked fields that a class inherits from a generic base. A field of the base whose type mentions
the base's type parameters has no interface type of its own; a class that gives all parameters a
value generates the backing field instead. Only the direct base is looked at: fields that would
have to be followed through two generic levels are reported.
-/

set_option autoImplicit false

namespace Companion

/-- An inherited field, seen from the class that settles its type. -/
structure InheritedField where
  /-- The interface as it is written in the base. -/
  openIdentifier : String
  /-- The full name of the settled base. -/
  baseName : String
  shape : FieldShape
  deriving DecidableEq, Repr

/-- What becomes of one variable of an inherited marked field. -/
inductive Inheritance where
  | kept (field : InheritedField)
  /-- The class cannot assign the field. -/
  | hidden (d : Declarator)
  | skipped (reason : SkipReason) (d : Declarator) (type : Ty)

/-- The interface in a field type as it is written: the element of a list, or else the type. -/
def Field.openIdentifier (f : Field) : String :=
  match f.type.name? with
  | some n =>
    match n.segments.getLast? with
    | some (.mk "List" [element] _) => element.render
    | _ => f.type.render
  | none => f.type.render

namespace Compilation

/-- The base of a class, if it is a generic type of which every argument is settled. -/
def closedBase? (c : Compilation) (id : TypeId) : Option (TypeId × Ty) :=
  match c.base? id with
  | some base =>
    match base.id? with
    | some baseId => if base.isClosedGeneric then some (baseId, base) else none
    | none => none
  | none => none

/-- What becomes of one variable of a field of a base. -/
def inherit (c : Compilation) (s : Settings) (base : Ty) (site : Site) (f : Field)
    (d : Declarator) : Inheritance :=
  if !Modifier.visibleToDerived f.modifiers then .hidden d
  else
    let closed := c.substituteBase base (site.fieldType c f)
    match f.classify c s site.file d closed with
    | .ok shape => .kept ⟨f.openIdentifier, c.fullName base, shape⟩
    | .error reason => .skipped reason d closed

/-- The marked fields of a generic type whose types mention its parameters, with the sites that
declare them. -/
def openFields (c : Compilation) (s : Settings) (id : TypeId) : List (Site × Field) :=
  match c.symbol? id with
  | none => []
  | some symbol =>
    symbol.sites.flatMap fun site =>
      ((site.markedFields s).filter fun f => (site.fieldType c f).mentionsParamsOf id).map
        fun f => (site, f)

/-- What becomes of the marked fields that a class inherits from its direct base, with the sites
that declare them. -/
def inheritances (c : Compilation) (s : Settings) (id : TypeId) : List (Site × Inheritance) :=
  match c.closedBase? id with
  | none => []
  | some (baseId, base) =>
    (c.openFields s baseId).flatMap fun (site, f) =>
      f.declarators.map fun d => (site, c.inherit s base site f d)

/-- The inherited fields of a class that have a shape. -/
def inheritedFields (c : Compilation) (s : Settings) (id : TypeId) : List InheritedField :=
  (c.inheritances s id).filterMap fun
    | (_, .kept field) => some field
    | _ => none

/-- The report about an inherited field that gets no backing field. -/
def inheritanceReport (c : Compilation) (s : Settings) (id : TypeId) (site : Site) :
    Inheritance → Option Diagnostic
  | .kept _ => none
  | .hidden d =>
    let base := ((c.closedBase? id).map fun b => c.fullName b.2).getD ""
    some ((((Diagnostic.warning .inheritedNotVisible
      ("`" ++ c.qualifiedName id ++ "` cannot assign private field `" ++ d.name
        ++ "` inherited from `" ++ base ++ "`")
      d.nameSpan "private in the generic base").inFile (c.path site.file))).withSuggestion
        "make the field `protected`")
  | .skipped reason d type =>
    reason.diagnostic (c.path site.file) d (c.fullName type) (s.backingName d.name)

/-- The report that the base of a class inherits marked fields whose types stay open. -/
def tooDeepReport (c : Compilation) (s : Settings) (id : TypeId) : Option Diagnostic := do
  let (baseId, base) ← c.closedBase? id
  let grand ← c.base? baseId
  let grandId ← grand.id?
  let symbol ← c.symbol? id
  let site ← symbol.sites.head?
  if grand.mentionsParamsOf baseId && !(c.openFields s grandId).isEmpty then
    some <| (((Diagnostic.warning .inheritedTooDeep
      ("`" ++ c.qualifiedName id ++ "` inherits generic marker fields from `" ++ c.fullName grand
        ++ "` through `" ++ c.fullName base ++ "`")
      site.decl.header.nameSpan "closes only its direct base").inFile
        (c.path site.file)).withNote "multi-level generic inheritance is not supported").withNote
          "those fields get no backing field in this class"
  else none

/-- What is reported about the inherited fields of a class. -/
def inheritedReports (c : Compilation) (s : Settings) (id : TypeId) : List Diagnostic :=
  let skips := (c.inheritances s id).filterMap fun (site, i) => c.inheritanceReport s id site i
  (if s.reportSkippedFields then skips else []) ++ (c.tooDeepReport s id).toList

end Compilation
end Companion
