import Companion.Grammar.Declaration

/-!
Reading a whole source file: namespaces, using directives and the types between them. Reading never
fails: what cannot be read is reported and passed over.
-/

set_option autoImplicit false

namespace Companion

namespace Parser

/-- Where the body of a namespace ends. -/
inductive BodyEnd where
  | endOfFile
  | closingBrace
  deriving DecidableEq, Repr

/-- What one step through the body of a namespace yields. -/
inductive Entry where
  | using (u : Using)
  | item (i : Item)
  /-- Something that is not kept. -/
  | nothing

/-- A using directive from its keyword on. -/
def usingDirective (isGlobal : Bool) : Parser Using := do
  let start ← expect .usingWord
  let isStatic ← checkWord "static"
  if isStatic then
    let _ ← advance
  let aliased ← look fun c => c.kind == .ident && c.kindAhead 1 == .eq
  let aliasName ← do
    if aliased then
      let (ident, _) ← identifier
      let _ ← advance
      pure (some ident)
    else pure none
  let target ← typeRef
  let stop ← expect .semicolon
  pure ⟨aliasName, isStatic, isGlobal, target, start.span.merge stop.span⟩

/-- A namespace from its keyword on, given the parser of its body. -/
def namespaceWith (body : BodyEnd → Parser (List Using × List Item)) : Parser Item := do
  let start ← expect .namespaceWord
  let n ← name
  if ← eat .semicolon then
    let (usings, items) ← body .endOfFile
    let span ← spanFrom start.span
    pure (.namespaceDecl ⟨n.parts, n.span, true, usings, span⟩ items)
  else
    let opened ← expect .lbrace
    let (usings, items) ← body .closingBrace
    closingBrace opened.span "namespace"
    let _ ← eat .semicolon
    let span ← spanFrom start.span
    pure (.namespaceDecl ⟨n.parts, n.span, false, usings, span⟩ items)

/-- Whether an attribute list belongs to the assembly or module rather than to a declaration. -/
def isAssemblyWide (l : AttributeList) : Bool :=
  l.target = some "assembly" || l.target = some "module"

/-- A type declaration in a namespace. Attributes of the assembly and delegates are passed over. -/
def declarationEntry : Parser Entry := do
  let start ← look (·.current.span)
  let attributes ← attributeLists
  let mods ← modifiers
  let c ← look id
  match declaredKind c with
  | some kind =>
    let d ← typeDecl kind attributes mods start
    pure (.item (.typeDecl d))
  | none =>
    if c.kind = .delegateWord then
      memberRest
      pure .nothing
    else if !attributes.isEmpty && attributes.all isAssemblyWide && mods.isEmpty then pure .nothing
    else failExpected .unexpectedToken "type declaration"

/-- What starts at a token that does not end the body. -/
def entryWith (body : BodyEnd → Parser (List Using × List Item)) : Parser Entry := do
  let c ← look id
  if c.kind = .usingWord then .using <$> usingDirective false
  else if c.current.isWord "global" && c.kindAhead 1 = .usingWord then
    let _ ← advance
    .using <$> usingDirective true
  else if c.current.isWord "extern" && c.isWordAhead 1 "alias" then
    recoverToItem
    pure .nothing
  else if c.kind = .namespaceWord then .item <$> namespaceWith body
  else declarationEntry

/-- The entry at the cursor, or what is passed over in its place. -/
def stepWith (body : BodyEnd → Parser (List Using × List Item)) : Parser Entry := do
  let c ← look id
  if c.kind = .rbrace then
    report (expectedAt .unexpectedToken "declaration" c)
    let _ ← advance
    pure .nothing
  else if c.kind = .semicolon then
    let _ ← advance
    pure .nothing
  else
    match ← attempt (entryWith body) with
    | .ok e => pure e
    | .error d =>
      report d
      recoverToItem
      pure .nothing

/-- The entries up to the end of a body, usings and items apart. -/
def entriesWith (body : BodyEnd → Parser (List Using × List Item)) (bodyEnd : BodyEnd) :
    Nat → Parser (List Using × List Item)
  | 0 => pure ([], [])
  | budget + 1 => do
    let k ← look Cursor.kind
    if k = .eof || (k = .rbrace && bodyEnd = .closingBrace) then pure ([], [])
    else
      let e ← stepWith body
      let (usings, items) ← entriesWith body bodyEnd budget
      match e with
      | .using u => pure (u :: usings, items)
      | .item i => pure (usings, i :: items)
      | .nothing => pure (usings, items)

/-- The body of a namespace in which namespaces are nested at most `depth` deep. -/
def namespaceBodyWithin (budget : Nat) : Nat → BodyEnd → Parser (List Using × List Item)
  | 0, _ => pure ([], [])
  | depth + 1, bodyEnd => entriesWith (namespaceBodyWithin budget depth) bodyEnd budget

def namespaceBody (bodyEnd : BodyEnd) : Parser (List Using × List Item) := fun c =>
  namespaceBodyWithin (c.rest.length + 1) (c.rest.length + 1) bodyEnd c

end Parser

/-- A source file that has been read, with what was found wrong in it. -/
structure Parsed where
  file : SourceFile
  /-- In the order of the places they point at. -/
  diagnostics : List Diagnostic

namespace Parsed

/-- The diagnostic for text that is no token. -/
def unrecognized (t : Token) : Diagnostic :=
  Diagnostic.error .unrecognizedInput ("unrecognized input `" ++ t.text ++ "`") t.span
    "not valid here"

/-- The declarations of a list of tokens without errors among them. -/
def ofTokens (tokens : List Token) : Outcome (List Using × List Item) :=
  Parser.namespaceBody .endOfFile (Cursor.ofTokens tokens)

/-- Read a source file of which the tokens are known. -/
def ofLexed (path source : String) (tokens : List Token) : Parsed :=
  let lexical := (tokens.filter (·.kind = .error)).map unrecognized
  let outcome := ofTokens (tokens.filter (·.kind ≠ .error))
  let body := outcome.result.toOption.getD ([], [])
  ⟨⟨path, source, body.1, body.2⟩,
    Diagnostic.sortByPlace ((lexical ++ outcome.reported).map (·.inFile path))⟩

/-- Read a source file. -/
def ofSource (path source : String) : Parsed := ofLexed path source (Token.ofSource source)

def hasErrors (p : Parsed) : Bool := Diagnostic.hasErrors p.diagnostics

end Parsed
end Companion
