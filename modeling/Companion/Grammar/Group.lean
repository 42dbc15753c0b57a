import Companion.Grammar.Parser

/-!
Passing over tokens that nothing looks into: groups in brackets, the rest of a member, an
initializer, and whatever stands before a place where reading can go on after a failure. A group
ends where as many brackets have been closed as were opened, whatever their shapes.

The loops take a budget of steps. Every step reads a token, so the number of tokens left is enough.
-/

set_option autoImplicit false

namespace Companion

namespace Cursor

/-- The token that closes a group in which `depth` more groups are open, and what follows it. -/
def closing (depth : Nat) : List Token → Option (Token × List Token)
  | [] => none
  | t :: ts =>
    if t.kind = .eof then none
    else if t.kind.isOpener then closing (depth + 1) ts
    else if t.kind.isCloser then
      match depth with
      | 0 => some (t, ts)
      | outer + 1 => closing outer ts
    else closing depth ts

/-- Whether a kind of token may follow a generic argument list in an expression. -/
def followsTypeArgs : Token.Kind → Bool
  | .lparen | .lbrace | .lbracket | .dot | .semicolon | .rparen => true
  | _ => false

/-- Whether a kind of token may stand in a generic argument list in an expression. -/
def withinTypeArgs : Token.Kind → Bool
  | .ident | .comma | .dot | .doubleColon | .question | .lbracket | .rbracket => true
  | _ => false

/-- Whether the tokens go on as generic arguments that are closed and followed by something that
makes them so, when `depth` lists are open. -/
def typeArgsAhead (depth : Nat) : List Token → Bool
  | [] => false
  | t :: ts =>
    if t.kind = .lt then typeArgsAhead (depth + 1) ts
    else if t.kind = .gt then
      if depth ≤ 1 then (ts.head?.map fun next => followsTypeArgs next.kind).getD false
      else typeArgsAhead (depth - 1) ts
    else withinTypeArgs t.kind && typeArgsAhead depth ts

/-- The span of the token that closes `depth` generic argument lists, and the cursor behind it. -/
def pastTypeArgs (depth : Nat) (previous : Span) : List Token → Span × Cursor
  | [] => ((Token.endAt 0).span, ⟨previous, []⟩)
  | t :: ts =>
    if t.kind = .eof then (t.span, ⟨previous, t :: ts⟩)
    else if t.kind = .lt then pastTypeArgs (depth + 1) t.span ts
    else if t.kind = .gt then
      if depth ≤ 1 then (t.span, ⟨t.span, ts⟩) else pastTypeArgs (depth - 1) t.span ts
    else pastTypeArgs depth t.span ts

end Cursor

namespace Parser

/-- The diagnostic that a group is not closed. -/
def unclosed (opened : Token) (stop : Span) : Diagnostic :=
  (Diagnostic.error .unclosedDelimiter ("unclosed " ++ opened.kind.display) opened.span
    "opened here").withContext stop "file ends here"

/-- Read a group from its opening bracket to the bracket that closes it, and give the span of that
one. A group that is not closed reaches to the end of the file. A token that opens no group is
read alone. -/
def group : Parser Span := fun c =>
  let opened := c.current
  let inside := c.next
  if opened.kind.isOpener then
    match Cursor.closing 0 inside.rest with
    | some (t, ts) => ⟨.ok t.span, ⟨t.span, ts⟩, []⟩
    | none =>
      let stopped := Cursor.toEnd inside.previous inside.rest
      ⟨.error (unclosed opened stopped.current.span), stopped, []⟩
  else ⟨.ok opened.span, inside, []⟩

/-- Read the rest of a member that is not looked into: up to a `;`, or past a block unless an
expression goes on behind it. It stops before a closing brace. -/
def memberRestWithin : Nat → Bool → Parser Unit
  | 0, _ => pure ()
  | budget + 1, inExpression => do
    match ← look Cursor.kind with
    | .semicolon => discard advance
    | .rbrace | .eof => pure ()
    | .lbrace =>
      let _ ← group
      let assigned ← check .eq
      if inExpression || assigned then memberRestWithin budget true
      else discard (eat .semicolon)
    | .lparen | .lbracket =>
      let _ ← group
      memberRestWithin budget inExpression
    | .eq | .fatArrow =>
      let _ ← advance
      memberRestWithin budget true
    | _ =>
      let _ ← advance
      memberRestWithin budget inExpression

def memberRest : Parser Unit := fun c => memberRestWithin (c.rest.length + 1) false c

/-- Read generic arguments from their opening `<`, and give the span of the closing `>`. -/
def typeArgs : Parser Span := fun c =>
  let (stop, after) := Cursor.pastTypeArgs 0 c.previous c.rest
  ⟨.ok stop, after, []⟩

/-- Whether a token ends an initializer. -/
def endsInitializer : Token.Kind → Bool
  | .comma | .semicolon | .rbrace | .eof => true
  | _ => false

/-- Read on to the end of an initializer, and give the span of its last token. Commas inside groups
and inside generic arguments do not end it. -/
def initializerWithin : Nat → Span → Parser Span
  | 0, last => pure last
  | budget + 1, last => do
    let k ← look Cursor.kind
    if endsInitializer k then pure last
    else if k.isOpener then
      let stop ← group
      initializerWithin budget stop
    else
      let generic ← look fun c => k == .lt && Cursor.typeArgsAhead 0 c.rest
      if generic then
        let stop ← typeArgs
        initializerWithin budget stop
      else
        let t ← advance
        initializerWithin budget t.span

/-- Read an initializer, which is not empty, and give its span. -/
def initializer : Parser Span := fun c =>
  if endsInitializer c.kind then
    failExpected .unexpectedToken "initializer expression" c
  else
    let first := c.current.span
    (first.merge <$> initializerWithin (c.rest.length + 1) first) c

/-- After a failure in a type body: read past the next `;` or block, but not past the end of the
body. -/
def recoverInBodyWithin : Nat → Parser Unit
  | 0 => pure ()
  | budget + 1 => do
    let k ← look Cursor.kind
    match k with
    | .semicolon => discard advance
    | .rbrace | .eof => pure ()
    | .lbrace => discard (attempt group)
    | _ =>
      if k.isOpener then
        match ← attempt group with
        | .ok _ => recoverInBodyWithin budget
        | .error _ => pure ()
      else
        let _ ← advance
        recoverInBodyWithin budget

def recoverInBody : Parser Unit := fun c => recoverInBodyWithin (c.rest.length + 1) c

/-- Whether a token starts an item of a namespace. -/
def startsItem : Token.Kind → Bool
  | .namespaceWord | .usingWord | .classWord | .structWord | .interfaceWord | .enumWord => true
  | _ => false

/-- After a failure in a namespace: read past the next `;`, or up to the next token that starts an
item, but not past the end of the namespace. -/
def recoverToItemWithin : Nat → Parser Unit
  | 0 => pure ()
  | budget + 1 => do
    let k ← look Cursor.kind
    if k = .semicolon then discard advance
    else if k = .rbrace || k = .eof || startsItem k then pure ()
    else if k.isOpener then
      match ← attempt group with
      | .ok _ => recoverToItemWithin budget
      | .error _ => pure ()
    else
      let _ ← advance
      recoverToItemWithin budget

/-- Go on at the next item; a token at which an item could start but reading failed is passed. -/
def recoverToItem : Parser Unit := fun c =>
  if startsItem c.kind then (discard advance : Parser Unit) c
  else recoverToItemWithin (c.rest.length + 1) c

end Parser
end Companion
