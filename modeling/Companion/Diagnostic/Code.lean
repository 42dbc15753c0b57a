/-!
Codes of diagnostics. The first digit of a code tells the phase: 0 reading tokens, 1 reading
declarations, 2 classifying fields, 3 following generic bases, 4 generating units.
-/

set_option autoImplicit false

namespace Companion.Diagnostic

inductive Code where
  | unrecognizedInput
  | unexpectedToken
  | expectedIdentifier
  | expectedType
  | unclosedDelimiter
  | notInterface
  | staticOrConst
  | readonlyNotList
  | readonlyWithoutInitializer
  | unresolvedType
  | backingNameTaken
  | inheritedNotVisible
  | inheritedTooDeep
  | notPartial
  | duplicateUnit
  | handWrittenHooks
  deriving DecidableEq, Repr

namespace Code

/-- Every code, in rising order. -/
def all : List Code :=
  [unrecognizedInput, unexpectedToken, expectedIdentifier, expectedType, unclosedDelimiter,
   notInterface, staticOrConst, readonlyNotList, readonlyWithoutInitializer, unresolvedType,
   backingNameTaken, inheritedNotVisible, inheritedTooDeep, notPartial, duplicateUnit,
   handWrittenHooks]

def number : Code → Nat
  | unrecognizedInput => 1
  | unexpectedToken => 1001
  | expectedIdentifier => 1002
  | expectedType => 1003
  | unclosedDelimiter => 1004
  | notInterface => 2001
  | staticOrConst => 2002
  | readonlyNotList => 2003
  | readonlyWithoutInitializer => 2004
  | unresolvedType => 2005
  | backingNameTaken => 2006
  | inheritedNotVisible => 3001
  | inheritedTooDeep => 3002
  | notPartial => 4001
  | duplicateUnit => 4002
  | handWrittenHooks => 4003

/-- The last decimal digit of a number. -/
def lastDigit (n : Nat) : Char := Char.ofNat (48 + n % 10)

/-- An `E` and four digits. -/
def text (c : Code) : String :=
  let n := c.number
  String.ofList
    ['E', lastDigit (n / 1000), lastDigit (n / 100), lastDigit (n / 10), lastDigit n]

/-- The code with a given text; the letter may be small. -/
def ofText? (s : String) : Option Code :=
  let upper := String.ofList (s.toList.map Char.toUpper)
  all.find? (·.text = upper)

/-- A long explanation. -/
def description : Code → String
  | unrecognizedInput =>
    "The lexer found a character sequence it does not recognize. " ++
    "Lexing continues after the offending text."
  | unexpectedToken =>
    "The parser found a token that cannot start or continue the current " ++
    "declaration. It skips to the next `;` or `\x7d` and carries on."
  | expectedIdentifier =>
    "An identifier was expected, e.g. after `class` or `namespace`."
  | expectedType => "A type was expected, e.g. in a field declaration or base list."
  | unclosedDelimiter => "A `\x7b`, `(`, `[` or `<` was never closed before end of file."
  | notInterface =>
    "`[SerializeInterface]` only applies to fields whose type is an interface, " ++
    "or a `List<T>` whose element type is an interface. The field is skipped."
  | staticOrConst =>
    "Static and const fields are not serialized by the engine, so no backing " ++
    "field is generated for them."
  | readonlyNotList =>
    "A readonly interface field cannot be assigned during deserialization. " ++
    "Remove `readonly`, or make the field a list initialized inline."
  | readonlyWithoutInitializer =>
    "A readonly list is repopulated in place after deserialization, so it must be " ++
    "initialized where it is declared, e.g. `= new();`."
  | unresolvedType =>
    "The field's type could not be found in the compilation. Only interfaces " ++
    "declared in the analyzed sources can be validated."
  | backingNameTaken =>
    "The generated backing field `<name>Serialized` would clash with a member the " ++
    "class already declares. Rename one of them."
  | inheritedNotVisible =>
    "A field inherited from a generic base class is private, so the derived class's " ++
    "generated code cannot assign it. Make it protected."
  | inheritedTooDeep =>
    "The inherited generic field is declared more than one generic level up. Only a " ++
    "class that directly closes the declaring generic base is supported."
  | notPartial =>
    "The generated companion is merged through partial-class composition, so the " ++
    "class and every containing type must be declared `partial`."
  | duplicateUnit =>
    "Two classes produced generated sources with the same name. The second one is " ++
    "rejected rather than overwriting the first."
  | handWrittenHooks =>
    "A base class implements the serialization callback interface by hand. The " ++
    "derived class's generated hooks re-implement the interface, so the base's " ++
    "hooks no longer run for derived instances. Call them from the derived class, " ++
    "or move the base's interface fields to `[SerializeInterface]`."

/-- Text that is no token. -/
def isLexical (c : Code) : Bool := c.number / 1000 = 0

/-- Tokens that form no declaration. -/
def isSyntactic (c : Code) : Bool := c.number / 1000 = 1

/-- A marked field that gets no backing field because of how it is declared. -/
def isFieldSkip (c : Code) : Bool := c.number / 1000 = 2

/-- The code followed by its explanation. -/
def explain (c : Code) : String := c.text ++ ": " ++ c.description

end Code
end Companion.Diagnostic
