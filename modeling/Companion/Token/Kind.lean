/-!
The kinds of token that declarations are made of. Words that are reserved only in some places
(`record`, `partial`, `where`, `global`, the modifiers) are plain identifiers here: what stands
around them decides what they mean.
-/

set_option autoImplicit false

namespace Companion.Token

inductive Kind where
  | ident
  | namespaceWord
  | usingWord
  | classWord
  | structWord
  | interfaceWord
  | enumWord
  | delegateWord
  | stringLit
  | charLit
  | numberLit
  | lbrace
  | rbrace
  | lparen
  | rparen
  | lbracket
  | rbracket
  | lt
  | gt
  | semicolon
  | comma
  | dot
  | colon
  | doubleColon
  | question
  | eq
  | fatArrow
  /-- An operator that no declaration depends on. -/
  | operator
  /-- Text that is no token. -/
  | error
  | eof
  deriving DecidableEq, Repr, Inhabited

namespace Kind

/-- How a message names a kind of token. -/
def display : Kind → String
  | ident => "identifier"
  | namespaceWord => "`namespace`"
  | usingWord => "`using`"
  | classWord => "`class`"
  | structWord => "`struct`"
  | interfaceWord => "`interface`"
  | enumWord => "`enum`"
  | delegateWord => "`delegate`"
  | stringLit => "string literal"
  | charLit => "character literal"
  | numberLit => "number"
  | lbrace => "`\x7b`"
  | rbrace => "`\x7d`"
  | lparen => "`(`"
  | rparen => "`)`"
  | lbracket => "`[`"
  | rbracket => "`]`"
  | lt => "`<`"
  | gt => "`>`"
  | semicolon => "`;`"
  | comma => "`,`"
  | dot => "`.`"
  | colon => "`:`"
  | doubleColon => "`::`"
  | question => "`?`"
  | eq => "`=`"
  | fatArrow => "`=>`"
  | operator => "operator"
  | error => "invalid token"
  | eof => "end of file"

/-- Whether a token of this kind opens a type declaration. -/
def isTypeKeyword : Kind → Bool
  | classWord | structWord | interfaceWord | enumWord => true
  | _ => false

/-- Whether a token of this kind opens a group. -/
def isOpener : Kind → Bool
  | lparen | lbracket | lbrace => true
  | _ => false

/-- Whether a token of this kind closes a group. -/
def isCloser : Kind → Bool
  | rparen | rbracket | rbrace => true
  | _ => false

/-- The words that are reserved everywhere. -/
def reserved : List (List Char × Kind) :=
  [("namespace".toList, namespaceWord), ("using".toList, usingWord), ("class".toList, classWord),
   ("struct".toList, structWord), ("interface".toList, interfaceWord), ("enum".toList, enumWord),
   ("delegate".toList, delegateWord)]

/-- The punctuation and operators, a spelling before every shorter one that begins it. -/
def symbols : List (List Char × Kind) :=
  [(['?', '?', '='], operator),
   (['=', '='], operator), (['!', '='], operator), (['<', '='], operator), (['<', '<'], operator),
   (['&', '&'], operator), (['|', '|'], operator), (['?', '?'], operator), (['?', '.'], operator),
   (['+', '+'], operator), (['-', '-'], operator), (['+', '='], operator), (['-', '='], operator),
   (['*', '='], operator), (['/', '='], operator), (['%', '='], operator), (['&', '='], operator),
   (['|', '='], operator), (['^', '='], operator), (['-', '>'], operator),
   (['=', '>'], fatArrow), ([':', ':'], doubleColon),
   ([Char.ofNat 0x7B], lbrace), ([Char.ofNat 0x7D], rbrace), (['('], lparen), ([')'], rparen),
   (['['], lbracket), ([']'], rbracket), (['<'], lt), (['>'], gt), ([';'], semicolon),
   ([','], comma), (['.'], dot), ([':'], colon), (['?'], question), (['='], eq),
   (['+'], operator), (['-'], operator), (['*'], operator), (['/'], operator), (['%'], operator),
   (['&'], operator), (['|'], operator), (['^'], operator), (['!'], operator), (['~'], operator)]

end Kind
end Companion.Token
