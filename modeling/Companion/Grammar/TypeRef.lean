import Companion.Grammar.Group
import Companion.Syntax.Tree

/-!
Reading type references, names, attributes and type parameters. The parsers of names and tuples
take the parser for the types inside them, so that one level of nesting is one step of
`typeRefWithin`; its budget bounds both the nesting and the length of every list.
-/

set_option autoImplicit false

namespace Companion.Parser

/-- Type arguments in angle brackets; there may be none. -/
def typeArgsWith (type : Parser TypeRef) (budget : Nat) : Parser (List TypeRef) := do
  let _ ← expect .lt
  let args ← do
    if ← check .gt then pure []
    else commaSeparated type budget
  let _ ← expect .gt
  pure args

/-- An identifier with the type arguments behind it. -/
def segmentWith (type : Parser TypeRef) (budget : Nat) : Parser Segment := do
  let (ident, place) ← identifier
  let args ← do
    if ← check .lt then typeArgsWith type budget
    else pure []
  let span ← spanFrom place
  pure (.mk ident args span)

/-- Segments with points between; a point counts only if an identifier follows. -/
def segmentsWith (segment : Parser Segment) : Nat → Parser (List Segment)
  | 0 => do
    let s ← segment
    pure [s]
  | budget + 1 => do
    let s ← segment
    let more ← look fun c => c.kind == .dot && c.kindAhead 1 == .ident
    if more then
      let _ ← advance
      let rest ← segmentsWith segment budget
      pure (s :: rest)
    else pure [s]

/-- The qualifier before a `::`: `global`, or an alias, which becomes the first segment. -/
def qualifier : Parser (Bool × List Segment) := do
  let qualified ← look fun c => c.kind == .ident && c.kindAhead 1 == .doubleColon
  if qualified then
    let (word, place) ← identifier
    let _ ← advance
    if word = "global" then pure (true, [])
    else pure (false, [.mk word [] place])
  else pure (false, [])

def nameWith (type : Parser TypeRef) (budget : Nat) : Parser Name := do
  let start ← look (·.current.span)
  let (fromGlobal, leading) ← qualifier
  let segments ← segmentsWith (segmentWith type budget) budget
  let span ← spanFrom start
  pure ⟨fromGlobal, leading ++ segments, span⟩

/-- A tuple element: its type, and a name that is forgotten. -/
def tupleElementWith (type : Parser TypeRef) : Parser TypeRef := do
  let t ← type
  let _ ← eat .ident
  pure t

def tupleWith (type : Parser TypeRef) (budget : Nat) : Parser TypeRef := do
  let opened ← expect .lparen
  let elements ← commaSeparated (tupleElementWith type) budget
  let closed ← expect .rparen
  pure (.tuple elements (opened.span.merge closed.span))

/-- The predefined type that a token names; an escaped word names none. -/
def predefined? (t : Token) : Option Predefined := Predefined.ofKeyword? t.text

/-- A type without array brackets and question marks behind it. -/
def simpleTypeWith (type : Parser TypeRef) (budget : Nat) : Parser TypeRef := do
  let t ← look Cursor.current
  match t.kind with
  | .lparen => tupleWith type budget
  | .ident =>
    match predefined? t with
    | some p =>
      let _ ← advance
      pure (.predefined p t.span)
    | none => TypeRef.ofName <$> nameWith type budget
  | _ => failExpected .expectedType "type"

/-- How many commas follow; they are read. -/
def commas : Nat → Parser Nat
  | 0 => pure 0
  | budget + 1 => do
    if ← eat .comma then
      let n ← commas budget
      pure (n + 1)
    else pure 0

/-- The largest rank that an array may have. -/
def maxRank : Nat := 255

/-- The array brackets and question marks behind a type. -/
def suffixesWithin : Nat → TypeRef → Parser TypeRef
  | 0, t => pure t
  | budget + 1, t => do
    let brackets ← look fun c =>
      c.kind == .lbracket && (c.kindAhead 1 == .rbracket || c.kindAhead 1 == .comma)
    if ← check .question then
      let mark ← advance
      suffixesWithin budget (.nullable t (t.span.merge mark.span))
    else if brackets then
      let _ ← advance
      let n ← commas budget
      let closed ← expect .rbracket
      suffixesWithin budget (.array t (min (n + 1) maxRank) (t.span.merge closed.span))
    else pure t

def typeRefWith (type : Parser TypeRef) (budget : Nat) : Parser TypeRef := do
  let t ← simpleTypeWith type budget
  suffixesWithin budget t

/-- A type that is nested at most `depth` deep, with lists no longer than the budget. -/
def typeRefWithin (budget : Nat) : Nat → Parser TypeRef
  | 0 => failExpected .expectedType "type"
  | depth + 1 => typeRefWith (typeRefWithin budget depth) budget

/-- A type. As every nested type and every list element takes a token, the number of tokens left
bounds both. -/
def typeRef : Parser TypeRef := fun c => typeRefWithin (c.rest.length + 1) (c.rest.length + 1) c

/-- A qualified name. -/
def name : Parser Name := fun c =>
  nameWith (typeRefWithin (c.rest.length + 1) (c.rest.length + 1)) (c.rest.length + 1) c

/-- An attribute with its argument list. -/
def attributeUse : Parser Attribute := do
  let n ← name
  let args ← do
    if ← check .lparen then
      let opened ← look (·.current.span)
      let closed ← group
      pure (some ⟨opened.stop, closed.start⟩)
    else pure none
  let span ← spanFrom n.span
  pure ⟨n.render, n.span, args, span⟩

/-- Attributes up to the closing bracket; a comma may stand behind the last one. -/
def attributesWithin : Nat → Parser (List Attribute)
  | 0 => pure []
  | budget + 1 => do
    if ← check .rbracket then pure []
    else
      let a ← attributeUse
      if ← eat .comma then
        let rest ← attributesWithin budget
        pure (a :: rest)
      else pure [a]

/-- The target in front of a list of attributes. -/
def attributeTarget : Parser (Option String) := do
  let targeted ← look fun c => c.kind == .ident && c.kindAhead 1 == .colon
  if targeted then
    let t ← advance
    let _ ← advance
    pure (some t.name)
  else pure none

def attributeList : Parser AttributeList := do
  let opened ← expect .lbracket
  let target ← attributeTarget
  let budget ← look (·.rest.length)
  let attributes ← attributesWithin budget
  let closed ← expect .rbracket
  pure ⟨target, attributes, opened.span.merge closed.span⟩

/-- The attribute lists in front of a declaration. -/
def attributeLists : Parser (List AttributeList) := fun c =>
  manyAt .lbracket attributeList (c.rest.length + 1) c

/-- A type parameter with its attributes and variance, which are forgotten. -/
def typeParam : Parser TypeParam := do
  let _ ← attributeLists
  let variance ← look fun c =>
    (c.current.isWord "in" || c.current.isWord "out") && c.kindAhead 1 == .ident
  if variance then
    let _ ← advance
  let (ident, place) ← identifier
  pure ⟨ident, place⟩

def typeParams : Parser (List TypeParam) := do
  let _ ← expect .lt
  let budget ← look (·.rest.length)
  let params ← commaSeparated typeParam budget
  let _ ← expect .gt
  pure params

/-- A base with the arguments that a record passes to it, which are not looked into. -/
def baseType : Parser TypeRef := do
  let t ← typeRef
  if ← check .lparen then
    let _ ← group
  pure t

/-- Base class and interfaces. -/
def baseList : Parser (List TypeRef) := fun c => commaSeparated baseType c.rest.length c

end Companion.Parser
