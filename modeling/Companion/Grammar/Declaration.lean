import Companion.Grammar.TypeRef

/-!
Reading type declarations and their members. Only fields and nested types are looked into. A
member that cannot be read is reported and passed over, so that the members behind it are kept.
-/

set_option autoImplicit false

namespace Companion.Parser

/-- Whether a declaration may go on with a kind of token behind a modifier. -/
def followsModifier : Token.Kind → Bool
  | .ident | .classWord | .structWord | .interfaceWord | .enumWord | .delegateWord | .lparen => true
  | _ => false

/-- The modifiers at the head of a list of tokens. A word is one only if a declaration goes on
behind it. -/
def modifiersAt (previous : Span) : List Token → List Modifier × Cursor
  | [] => ([], ⟨previous, []⟩)
  | t :: ts =>
    match Modifier.ofKeyword? t.text with
    | some m =>
      if t.kind = .ident && (ts.head?.map fun next => followsModifier next.kind).getD false then
        let (ms, c) := modifiersAt t.span ts
        (m :: ms, c)
      else ([], ⟨previous, t :: ts⟩)
    | none => ([], ⟨previous, t :: ts⟩)

def modifiers : Parser (List Modifier) := fun c =>
  let (ms, c') := modifiersAt c.previous c.rest
  ⟨.ok ms, c', []⟩

/-- The kind of type declaration that starts at a cursor. -/
def declaredKind (c : Cursor) : Option TypeKind :=
  match c.kind with
  | .classWord => some .classType
  | .structWord => some .structType
  | .interfaceWord => some .interfaceType
  | .enumWord => some .enumType
  | .ident =>
    if c.current.isWord "record" then
      match c.kindAhead 1 with
      | .structWord => some .recordStruct
      | .classWord | .ident => some .recordType
      | _ => none
    else none
  | _ => none

/-- Read constraint clauses up to the body of the type. -/
def constraintsWithin : Nat → Parser Unit
  | 0 => pure ()
  | budget + 1 => do
    match ← look Cursor.kind with
    | .lbrace | .semicolon | .eof => pure ()
    | .lparen =>
      let _ ← group
      constraintsWithin budget
    | _ =>
      let _ ← advance
      constraintsWithin budget

def constraints : Parser Unit := do
  if ← checkWord "where" then
    let budget ← look (·.rest.length)
    constraintsWithin (budget + 1)

/-- What introduces a type declaration: one keyword, or `record` with another behind it. -/
def kindWords (kind : TypeKind) : Parser Unit := do
  let _ ← advance
  let second ← look fun c => c.kind == .classWord || c.kind == .structWord
  if (kind = .recordType || kind = .recordStruct) && second then
    let _ ← advance

/-- The body of a type declaration. That of an enum is not looked into. -/
def typeBodyWith (members : Parser (List Member)) (kind : TypeKind) : Parser (List Member) := do
  if ← eat .semicolon then pure []
  else if kind = .enumType then
    if ← check .lbrace then
      let _ ← group
    else
      let _ ← expect .lbrace
    pure []
  else
    let opened ← expect .lbrace
    let ms ← members
    closingBrace opened.span "type body"
    pure ms

/-- A type declaration behind its attributes and modifiers. -/
def typeDeclWith (members : Parser (List Member)) (kind : TypeKind)
    (attributes : List AttributeList) (modifiers : List Modifier) (start : Span) :
    Parser TypeDecl := do
  kindWords kind
  let (ident, place) ← identifier
  let params ← do
    if ← check .lt then typeParams
    else pure []
  if ← check .lparen then
    let _ ← group
  let bases ← do
    if ← eat .colon then baseList
    else pure []
  constraints
  let ms ← typeBodyWith members kind
  let _ ← eat .semicolon
  let span ← spanFrom start
  pure (.mk ⟨kind, attributes, modifiers, ident, place, params, bases, span⟩ ms)

/-- One variable of a field. -/
def declarator : Parser Declarator := do
  let (ident, place) ← identifier
  let init ← do
    if ← eat .eq then some <$> initializer
    else pure none
  pure ⟨ident, place, init⟩

/-- The variables of a field and the `;` behind them. -/
def declarators : Parser (List Declarator) := do
  let budget ← look (·.rest.length)
  let ds ← commaSeparated declarator budget
  let _ ← expect .semicolon
  pure ds

/-- A member that is not looked into. -/
def otherMember (start : Span) : Parser (Option Member) := do
  memberRest
  let span ← spanFrom start
  pure (some (.other span))

/-- Whether a member that is not looked into starts at a cursor: a delegate, a destructor, a
constructor or an event. -/
def startsOther (c : Cursor) : Bool :=
  match c.kind with
  | .delegateWord => true
  | .operator => c.current.text = "~"
  | .ident => c.kindAhead 1 == .lparen || c.current.isWord "event"
  | _ => false

/-- Whether a kind of token behind the name shows that a member is not a field. -/
def showsOther : Token.Kind → Bool
  | .lparen | .lt | .lbrace | .fatArrow | .dot | .lbracket => true
  | _ => false

/-- Whether a kind of token behind the name shows that a member is a field. -/
def showsField : Token.Kind → Bool
  | .eq | .comma | .semicolon => true
  | _ => false

/-- A member that starts with a type. -/
def typedMember (attributes : List AttributeList) (modifiers : List Modifier) (start : Span) :
    Parser (Option Member) := do
  let type ← typeRef
  let c ← look id
  if c.kind ≠ .ident then failExpected .expectedIdentifier "member name"
  else if c.current.isWord "operator" || c.current.isWord "this" then otherMember start
  else if showsField (c.kindAhead 1) then
    let ds ← declarators
    let span ← spanFrom start
    pure (some (.field ⟨attributes, modifiers, type, ds, span⟩))
  else if showsOther (c.kindAhead 1) then otherMember start
  else failExpected .unexpectedToken "`;`, `=` or member body"

/-- A member of a type body; a lone `;` is none. -/
def memberWith (members : Parser (List Member)) : Parser (Option Member) := do
  let start ← look (·.current.span)
  let attributes ← attributeLists
  let mods ← modifiers
  let c ← look id
  match declaredKind c with
  | some kind =>
    let d ← typeDeclWith members kind attributes mods start
    pure (some (.type d))
  | none =>
    if c.kind = .semicolon then
      let _ ← advance
      pure none
    else if c.kind = .rbrace then pure none
    else if startsOther c then otherMember start
    else typedMember attributes mods start

/-- Members up to the end of the body. Each step reads at least one token. -/
def membersWith (member : Parser (Option Member)) : Nat → Parser (List Member)
  | 0 => pure []
  | budget + 1 => do
    let c ← look id
    if c.kind = .rbrace || c.kind = .eof then pure []
    else
      let read ← attempt member
      match read with
      | .ok _ => pure ()
      | .error d =>
        report d
        recoverInBody
      let stuck ← look fun c' => c'.rest.length == c.rest.length
      if stuck then
        let _ ← advance
      let rest ← membersWith member budget
      match read with
      | .ok (some m) => pure (m :: rest)
      | _ => pure rest

/-- The members of a body in which types are nested at most `depth` deep. -/
def membersWithin (budget : Nat) : Nat → Parser (List Member)
  | 0 => pure []
  | depth + 1 => membersWith (memberWith (membersWithin budget depth)) budget

/-- The members of a type body, up to the brace that ends it. -/
def members : Parser (List Member) := fun c =>
  membersWithin (c.rest.length + 1) (c.rest.length + 1) c

/-- A type declaration behind its attributes and modifiers. -/
def typeDecl (kind : TypeKind) (attributes : List AttributeList) (modifiers : List Modifier)
    (start : Span) : Parser TypeDecl :=
  typeDeclWith members kind attributes modifiers start

end Companion.Parser
