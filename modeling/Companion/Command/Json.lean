import Companion.Run

/-!
The analysis of a run as JSON. Values are printed over several lines with two spaces a level, and
members keep the order in which they are given. Characters above ASCII are printed as they are.
-/

set_option autoImplicit false

namespace Companion.Command

inductive Json where
  | null
  | bool (b : Bool)
  | number (n : Nat)
  | text (s : String)
  | array (elements : List Json)
  | object (members : List (String × Json))

namespace Json

/-- A digit in base sixteen; letters are small. -/
def hexDigit (n : Nat) : Char := if n < 10 then Char.ofNat (48 + n) else Char.ofNat (87 + n)

/-- A character inside a quoted text. -/
def escapeChar (c : Char) : List Char :=
  if c = '"' then ['\\', '"']
  else if c = '\\' then ['\\', '\\']
  else if c = '\n' then ['\\', 'n']
  else if c = '\r' then ['\\', 'r']
  else if c = '\t' then ['\\', 't']
  else if c = '\x08' then ['\\', 'b']
  else if c = '\x0c' then ['\\', 'f']
  else if c.toNat < 32 then
    ['\\', 'u', '0', '0', hexDigit (c.toNat / 16), hexDigit (c.toNat % 16)]
  else [c]

def quote (s : String) : String :=
  "\"" ++ String.ofList (s.toList.flatMap escapeChar) ++ "\""

/-- The start of a line at a level. -/
def newLine (level : Nat) : String := "\n" ++ String.ofList (List.replicate (2 * level) ' ')

mutual

/-- A value whose lines after the first stand at a level. -/
def printAt (level : Nat) : Json → String
  | null => "null"
  | bool b => if b then "true" else "false"
  | number n => toString n
  | text s => quote s
  | array [] => "[]"
  | array (e :: es) =>
    "[" ++ newLine (level + 1) ++ printAt (level + 1) e ++ printElements (level + 1) es
      ++ newLine level ++ "]"
  | object [] => "\x7b\x7d"
  | object ((k, v) :: ms) =>
    "\x7b" ++ newLine (level + 1) ++ quote k ++ ": " ++ printAt (level + 1) v
      ++ printMembers (level + 1) ms ++ newLine level ++ "\x7d"

def printElements (level : Nat) : List Json → String
  | [] => ""
  | e :: es => "," ++ newLine level ++ printAt level e ++ printElements level es

def printMembers (level : Nat) : List (String × Json) → String
  | [] => ""
  | (k, v) :: ms =>
    "," ++ newLine level ++ quote k ++ ": " ++ printAt level v ++ printMembers level ms

end

def print (j : Json) : String := printAt 0 j

def texts (ss : List String) : Json := array (ss.map text)

def ofOption : Option String → Json
  | some s => text s
  | none => null

def ofSpan (s : Span) : Json := object [("start", number s.start), ("end", number s.stop)]

def ofKind (k : TypeKind) : Json :=
  text <| match k with
    | .classType => "Class"
    | .structType => "Struct"
    | .interfaceType => "Interface"
    | .enumType => "Enum"
    | .recordType => "Record"
    | .recordStruct => "RecordStruct"

def ofContainer (c : Container) : Json :=
  text <| match c with
    | .single => "Single"
    | .list => "List"

def ofRole (r : HookRole) : Json :=
  text <| match r with
    | .standalone => "Standalone"
    | .root => "Root"
    | .override => "Override"

def ofShape (s : FieldShape) : Json :=
  object [("field_name", text s.fieldName), ("backing_field_name", text s.backingName),
    ("element_type_full_name", text s.elementName), ("container", ofContainer s.container),
    ("is_read_only", bool s.isReadOnly), ("is_initialized_inline", bool s.isInitializedInline),
    ("carried_attributes", texts s.carriedAttributes), ("span", ofSpan s.span)]

def ofInherited (i : InheritedField) : Json :=
  object [("open_generic_identifier", text i.openIdentifier),
    ("base_type_full_name", text i.baseName), ("shape", ofShape i.shape)]

def ofContainingType (t : ContainingType) : Json :=
  object [("name", text t.name), ("kind", ofKind t.kind), ("type_params", texts t.typeParams)]

def ofAnalysis (a : ClassAnalysis) : Json :=
  object [("class_name", text a.className), ("namespace_name", ofOption a.namespaceName),
    ("type_params", texts a.typeParams),
    ("containing_types", array (a.containingTypes.map ofContainingType)),
    ("own_field_shapes", array (a.ownShapes.map ofShape)),
    ("inherited_generic_entries", array (a.inherited.map ofInherited)),
    ("requires_companion", bool a.requiresCompanion), ("is_partial", bool a.isPartial),
    ("implements_callback", bool a.implementsCallback), ("hook_chain", ofRole a.hookRole),
    ("usings", texts a.usings), ("file", text a.file), ("span", ofSpan a.span)]

def ofUnit (u : GeneratedUnit) : Json :=
  object [("hint_name", text u.hintName), ("class_name", text u.className), ("text", text u.text)]

def ofResult (r : RunResult) : Json :=
  object [("sources", array (r.units.map ofUnit)), ("classes", array (r.classes.map ofAnalysis))]

end Json
end Companion.Command
