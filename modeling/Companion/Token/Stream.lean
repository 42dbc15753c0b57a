import Companion.Text.Span
import Companion.Token.Lexeme

/-!
The tokens of a source text: its lexemes without the text between tokens, each with the span it
covers, and an end-of-file token behind them. Places past the largest offset of a span are clamped
to it.
-/

set_option autoImplicit false

namespace Companion

/-- A token with the place and the text it was read from. The text is whole where the place is
clamped. -/
structure Token where
  kind : Token.Kind
  span : Span
  text : String
  deriving DecidableEq, Repr, Inhabited

namespace Token

/-- The end of a text of `offset` bytes. -/
def endAt (offset : Nat) : Token := ⟨.eof, Span.ofRange offset offset, ""⟩

/-- The tokens among lexemes that start at a byte offset. -/
def locate (offset : Nat) : List Lexeme → List Token
  | [] => []
  | l :: ls =>
    let stop := offset + Text.byteLength l.text
    match l.form with
    | .trivia _ => locate stop ls
    | .token k => ⟨k, Span.ofRange offset stop, String.ofList l.text⟩ :: locate stop ls

/-- All tokens of a source text; the last one, and no other, is the end of the file. -/
def ofSource (source : String) : List Token :=
  locate 0 (Lexeme.all source.toList) ++ [endAt (Text.byteLength source.toList)]

/-- A text without one leading `@`. -/
def unescape (text : String) : String :=
  match text.toList with
  | '@' :: cs => String.ofList cs
  | _ => text

/-- The name that an identifier stands for: its text without the escape. -/
def name (t : Token) : String := unescape t.text

/-- Whether the token is the unescaped identifier `w`. -/
def isWord (t : Token) (w : String) : Bool := t.kind = .ident && t.text = w

end Token
end Companion
