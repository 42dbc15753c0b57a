/-!
Texts put together and taken apart: joined with a separator, and cut at a beginning, at an ending or
behind the last of some characters.
-/

set_option autoImplicit false

namespace Companion

/-- Texts with a separator between neighbours. -/
def joinWith (separator : String) : List String → String
  | [] => ""
  | [x] => x
  | x :: y :: rest => x ++ separator ++ joinWith separator (y :: rest)

/-- A text without a beginning, if it has it. -/
def withoutBeginning? (beginning text : String) : Option String :=
  if beginning.toList.isPrefixOf text.toList then
    some (String.ofList (text.toList.drop beginning.toList.length))
  else none

/-- The text without an ending, if it has it. -/
def withoutEnding? (ending text : String) : Option String :=
  if ending.toList.isSuffixOf text.toList then
    some (String.ofList (text.toList.take (text.toList.length - ending.toList.length)))
  else none

/-- The part of a text after its last character that satisfies `p`. -/
def afterLast (p : Char → Bool) (text : String) : String :=
  String.ofList (text.toList.reverse.takeWhile fun c => !p c).reverse

/-- Whether a text begins with another one. -/
def beginsWith (beginning text : String) : Bool := beginning.toList.isPrefixOf text.toList

/-- Whether a text ends with another one. -/
def endsWith (ending text : String) : Bool := ending.toList.isSuffixOf text.toList

/-- Texts without repetitions, each where it comes first. -/
def distinct (texts : List String) : List String :=
  texts.foldl (fun seen text => if seen.contains text then seen else seen ++ [text]) []

end Companion
