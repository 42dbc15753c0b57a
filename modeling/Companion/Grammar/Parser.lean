import Companion.Diagnostic.Basic
import Companion.Token.Stream

/-!
Parsers over tokens. A parser starts at a cursor, which is the list of tokens still to read, and
either gives a value or fails with a diagnostic; in both cases it says where it stopped and what it
reported on the way. The end-of-file token is never read past, and no parser looks at tokens behind
the cursor: of those only the span of the last one is kept.
-/

set_option autoImplicit false

namespace Companion

/-- A place between tokens. -/
structure Cursor where
  /-- The span of the last token that was read. -/
  previous : Span
  /-- The tokens still to read. -/
  rest : List Token
  deriving DecidableEq, Repr

namespace Cursor

def ofTokens (ts : List Token) : Cursor := ⟨Span.point 0, ts⟩

def current (c : Cursor) : Token := c.rest.headD (Token.endAt 0)

def kind (c : Cursor) : Token.Kind := c.current.kind

/-- The kind of the token `n` places ahead. -/
def kindAhead (c : Cursor) (n : Nat) : Token.Kind := (c.rest[n]?.map (·.kind)).getD .eof

/-- Whether the token `n` places ahead is the unescaped identifier `w`. -/
def isWordAhead (c : Cursor) (n : Nat) (w : String) : Bool :=
  (c.rest[n]?.map (·.isWord w)).getD false

/-- The cursor behind the next token; the end of the file is not passed. -/
def next (c : Cursor) : Cursor :=
  match c.rest with
  | [] => c
  | t :: ts => if t.kind = .eof then c else ⟨t.span, ts⟩

/-- The cursor at the end of the file. -/
def toEnd (previous : Span) : List Token → Cursor
  | [] => ⟨previous, []⟩
  | t :: ts => if t.kind = .eof then ⟨previous, t :: ts⟩ else toEnd t.span ts

end Cursor

/-- What a parser answers. -/
structure Outcome (α : Type) where
  result : Except Diagnostic α
  cursor : Cursor
  /-- The diagnostics reported on the way, beside the one that a failure carries. -/
  reported : List Diagnostic

def Parser (α : Type) : Type := Cursor → Outcome α

namespace Parser

variable {α β : Type}

protected def pure (a : α) : Parser α := fun c => ⟨.ok a, c, []⟩

/-- One parser after another; the second runs only if the first does not fail. -/
protected def bind (p : Parser α) (f : α → Parser β) : Parser β := fun c =>
  match p c with
  | ⟨.ok a, c', ds⟩ =>
    let o := f a c'
    ⟨o.result, o.cursor, ds ++ o.reported⟩
  | ⟨.error d, c', ds⟩ => ⟨.error d, c', ds⟩

instance : Monad Parser where
  pure := Parser.pure
  bind := Parser.bind

/-- Record a diagnostic and go on. -/
def report (d : Diagnostic) : Parser Unit := fun c => ⟨.ok (), c, [d]⟩

/-- The failure of `p` as a value. -/
def attempt (p : Parser α) : Parser (Except Diagnostic α) := fun c =>
  let o := p c
  ⟨.ok o.result, o.cursor, o.reported⟩

/-- Something that can be read off the cursor. -/
def look (f : Cursor → α) : Parser α := fun c => ⟨.ok (f c), c, []⟩

/-- Read the next token, whatever it is. -/
def advance : Parser Token := fun c => ⟨.ok c.current, c.next, []⟩

def check (k : Token.Kind) : Parser Bool := look (·.kind == k)

def checkWord (w : String) : Parser Bool := look (·.current.isWord w)

/-- Read the next token if it is of a kind, and say whether it was. -/
def eat (k : Token.Kind) : Parser Bool := fun c =>
  if c.kind = k then ⟨.ok true, c.next, []⟩ else ⟨.ok false, c, []⟩

/-- The diagnostic that something else was expected at the cursor. -/
def expectedAt (code : Diagnostic.Code) (what : String) (c : Cursor) : Diagnostic :=
  Diagnostic.error code ("expected " ++ what ++ ", found " ++ c.kind.display) c.current.span
    ("expected " ++ what)

def failExpected (code : Diagnostic.Code) (what : String) : Parser α := fun c =>
  ⟨.error (expectedAt code what c), c, []⟩

/-- The code for a missing token: at the end of the file something was left open. -/
def missingCode (c : Cursor) : Diagnostic.Code :=
  if c.kind = .eof then .unclosedDelimiter else .unexpectedToken

/-- Read a token of a kind, or fail. -/
def expect (k : Token.Kind) : Parser Token := fun c =>
  if c.kind = k then ⟨.ok c.current, c.next, []⟩
  else ⟨.error (expectedAt (missingCode c) k.display c), c, []⟩

/-- Read an identifier: the name it stands for, and where it is. -/
def identifier : Parser (String × Span) := fun c =>
  if c.kind = .ident then ⟨.ok (c.current.name, c.current.span), c.next, []⟩
  else ⟨.error (expectedAt .expectedIdentifier "identifier" c), c, []⟩

/-- Read the brace that closes what was opened at `opened`, or report that it is missing. -/
def closingBrace (opened : Span) (what : String) : Parser Unit := fun c =>
  if c.kind = .rbrace then ⟨.ok (), c.next, []⟩
  else
    let d := (expectedAt (missingCode c) "`\x7d`" c).withContext opened (what ++ " opened here")
    ⟨.ok (), c, [d]⟩

/-- The span from `start` to the last token that was read. -/
def spanFrom (start : Span) : Parser Span := look fun c => start.merge c.previous

/-- One or more of something with commas between, at most `budget` more than one. -/
def commaSeparated (item : Parser α) : Nat → Parser (List α)
  | 0 => do
    let a ← item
    pure [a]
  | budget + 1 => do
    let a ← item
    if ← eat .comma then
      let rest ← commaSeparated item budget
      pure (a :: rest)
    else pure [a]

/-- As many of something as start with a token of kind `k`, at most `budget`. -/
def manyAt (k : Token.Kind) (item : Parser α) : Nat → Parser (List α)
  | 0 => pure []
  | budget + 1 => do
    if ← check k then
      let a ← item
      let rest ← manyAt k item budget
      pure (a :: rest)
    else pure []

end Parser
end Companion
