import Companion.Class.Analysis
import Companion.Unit.Layout

/-!
The text of a companion: a partial declaration of a class that holds a backing field for every
shape and the hooks that restore the fields after deserialization. The text depends on nothing but
the analysis of the class and the settings.
-/

set_option autoImplicit false

namespace Companion

/-- The method that companions along a chain of classes extend. -/
def chainedHook : String := "OnAfterDeserializeInterfaceFields"

/-- The text of a type name as part of an identifier, character by character. -/
def identifierPart : List Char → List Char
  | [] => []
  | '[' :: ']' :: cs => "Array".toList ++ identifierPart cs
  | c :: cs =>
    if c = '.' then '_' :: identifierPart cs
    else if c = '<' then 'O' :: 'f' :: identifierPart cs
    else if c = ',' then 'A' :: 'n' :: 'd' :: identifierPart cs
    else if c = '>' || c = '?' || c = '[' || c = ']' || c = ' ' then identifierPart cs
    else c :: identifierPart cs

/-- The method that fills a readonly list of some element type. -/
def repopulateName (element : String) : String :=
  "Repopulate" ++ String.ofList (identifierPart element.toList)

/-- Type parameters in angle brackets; nothing if there are none. -/
def typeParamList (params : List String) : String :=
  if params.isEmpty then "" else "<" ++ joinWith ", " params ++ ">"

namespace ClassAnalysis

/-- The namespace of lists if one is needed, and the directives around the class if attributes are
repeated that may depend on them. -/
def unitUsings (a : ClassAnalysis) : List String :=
  distinct ((if a.hasList then ["using System.Collections.Generic;"] else []) ++
    (if a.hasCarriedAttributes then a.usings else []))

/-- The full names of the element types of some shapes, each once. -/
def elementNames (shapes : List FieldShape) : List String := distinct (shapes.map (·.elementName))

end ClassAnalysis

namespace Settings

/-- The statement that logs a wrong type. The subject is an expression or part of a text. -/
def logMismatch (s : Settings) (subject element : String) : List String :=
  if s.emitCastWarnings then
    [s.host.debugLog ++ ".LogWarning(" ++ subject ++ ": assigned object does not implement "
      ++ element ++ ".\");"]
  else []

/-- The backing field of a shape, with the attributes that are repeated on it. -/
def backingField (s : Settings) (shape : FieldShape) (l : Layout) : Layout :=
  let validated := shape.elementName ++ (if shape.isList then "[]" else "")
  let object := s.host.engineObject
  let field := match shape.container with
    | .single => "private " ++ object ++ " " ++ shape.backingName ++ ";"
    | .list =>
      "private List<" ++ object ++ "> " ++ shape.backingName ++ " = new List<" ++ object ++ ">();"
  l.lines (shape.carriedAttributes.map (fun a => "[" ++ a ++ "]") ++
    ["[" ++ s.host.serializeFieldAttribute ++ ", " ++ s.host.validateAttribute ++ "(typeof("
      ++ validated ++ "))]", field])

/-- One step of a loop over stored objects: an object of the right type is added. -/
def addIfCast (target element : String) (mismatch : List String) (l : Layout) : Layout :=
  let l := l.line ("var element = obj as " ++ element ++ ";")
  let l := l.line "if (element != null)"
  let l := l.indented (target ++ ".Add(element);")
  match mismatch with
  | [] => l
  | warning :: _ => (l.line "else if (obj != null)").indented warning

/-- The statements that restore one field. -/
def restore (s : Settings) (className : String) (shape : FieldShape) (l : Layout) : Layout :=
  let field := shape.fieldName
  let backing := shape.backingName
  let element := shape.elementName
  let mismatch := s.logMismatch ("\"" ++ className ++ "." ++ field) element
  match shape.container with
  | .single =>
    let l := l.line (field ++ " = " ++ backing ++ " as " ++ element ++ ";")
    match mismatch with
    | [] => l
    | warning :: _ =>
      (l.line ("if (" ++ field ++ " == null && " ++ backing ++ " != null)")).indented warning
  | .list =>
    if shape.isReadOnly then
      l.line (repopulateName element ++ "(" ++ field ++ ", " ++ backing ++ ", \"" ++ className
        ++ "." ++ field ++ "\");")
    else
      let l := l.line ("if (" ++ field ++ " == null)")
      let l := l.indented (field ++ " = new List<" ++ element ++ ">();")
      let l := l.line (field ++ ".Clear();")
      l.block ("foreach (var obj in " ++ backing ++ ")") (addIfCast field element mismatch)

/-- The statements that restore all fields. -/
def restoreAll (s : Settings) (a : ClassAnalysis) (l : Layout) : Layout :=
  a.shapes.foldl (fun l shape => s.restore a.className shape l) l

/-- The implementation of the callback interface, given what happens after deserialization. -/
def interfaceHooks (s : Settings) (after : Layout → Layout) (l : Layout) : Layout :=
  let method (name : String) : String := "void " ++ s.host.callbackInterface ++ "." ++ name ++ "()"
  let l := (l.block (method s.host.beforeSerializeHook) id).blank
  (l.block (method s.host.afterDeserializeHook) after).blank

/-- The hooks of a class, by the part it plays. -/
def hooks (s : Settings) (a : ClassAnalysis) (l : Layout) : Layout :=
  match a.hookRole with
  | .standalone => s.interfaceHooks (s.restoreAll a) l
  | .root =>
    let l := s.interfaceHooks (Layout.line (chainedHook ++ "();")) l
    (l.block ("protected virtual void " ++ chainedHook ++ "()") (s.restoreAll a)).blank
  | .override =>
    (l.block ("protected override void " ++ chainedHook ++ "()") fun l =>
      s.restoreAll a (l.line ("base." ++ chainedHook ++ "();"))).blank

/-- The method that fills a readonly list. -/
def repopulateHelper (s : Settings) (element : String) (l : Layout) : Layout :=
  let header := "private static void " ++ repopulateName element ++ "(List<" ++ element
    ++ "> target, List<" ++ s.host.engineObject ++ "> source, string fieldName)"
  l.block header fun l =>
    let l := l.block "if (target == null)" fun l =>
      (l.line (s.host.debugLog
        ++ ".LogWarning(fieldName + \": readonly list is null, nothing to repopulate.\");")).line
          "return;"
    let l := (l.line "target.Clear();").line "if (source == null)"
    let l := l.indented "return;"
    l.block "foreach (var obj in source)"
      (addIfCast "target" element (s.logMismatch "fieldName + \"" element))

/-- The method that clones an object through the engine. -/
def instantiateHelper (s : Settings) (element : String) (l : Layout) : Layout :=
  let object := s.host.engineObject
  l.block ("public " ++ element ++ " InstantiateInterface(" ++ element ++ " instance)") fun l =>
    l.block "switch (instance)" fun l =>
      let l := l.line ("case " ++ object ++ " engineObject:")
      let l := l.indented
        ("return " ++ object ++ ".Instantiate(engineObject) as " ++ element ++ ";")
      let l := l.line "default:"
      let l := l.indented (s.host.debugLog ++ ".LogError(\"Cannot instantiate " ++ element
        ++ ": the instance is not a " ++ object ++ ".\");")
      l.indented "return null;"

/-- The header of the companion class; the interface is added unless it is there already. -/
def classHeader (s : Settings) (a : ClassAnalysis) : String :=
  let bases :=
    if !a.implementsCallback && a.hookRole ≠ .override then " : " ++ s.host.callbackInterface
    else ""
  "partial class " ++ a.className ++ typeParamList a.typeParams ++ bases

/-- The body of the companion class. -/
def classBody (s : Settings) (a : ClassAnalysis) (l : Layout) : Layout :=
  let l := a.shapes.foldl (fun l shape => (s.backingField shape l).blank) l
  let l := s.hooks a l
  let readonlyLists := a.shapes.filter fun shape => shape.isList && shape.isReadOnly
  let l := (ClassAnalysis.elementNames readonlyLists).foldl
    (fun l element => (s.repopulateHelper element l).blank) l
  if s.instantiateHelpers then
    (ClassAnalysis.elementNames a.shapes).foldl
      (fun l element => (s.instantiateHelper element l).blank) l
  else l

/-- The headers of the blocks around the companion class, outermost first. -/
def enclosingHeaders (a : ClassAnalysis) : List String :=
  (a.namespaceName.toList.map ("namespace " ++ ·)) ++
    a.containingTypes.map fun t =>
      "partial " ++ t.kind.keyword ++ " " ++ t.name ++ typeParamList t.typeParams

/-- A body inside blocks, of which the headers are given outermost first. -/
def nested (headers : List String) (body : Layout → Layout) : Layout → Layout :=
  headers.foldr (fun header inner => Layout.block header inner) body

/-- The text of the companion of a class. -/
def companionText (s : Settings) (a : ClassAnalysis) : String :=
  let l := (Layout.empty.line "// <auto-generated/>").lines a.unitUsings
  (nested (enclosingHeaders a ++ [s.classHeader a]) (s.classBody a) l.blank).text

end Settings
end Companion
