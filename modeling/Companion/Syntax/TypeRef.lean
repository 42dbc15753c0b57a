import Companion.Syntax.Predefined
import Companion.Text.Affix
import Companion.Text.Span

/-!
References to types as they are written: predefined types, names with type arguments, arrays,
nullable types and tuples. Printing a reference forgets spaces and the names of tuple elements.
-/

set_option autoImplicit false

namespace Companion

mutual

/-- A written reference to a type. -/
inductive TypeRef where
  | predefined (type : Predefined) (span : Span)
  | named (fromGlobal : Bool) (segments : List Segment) (span : Span)
  | array (element : TypeRef) (rank : Nat) (span : Span)
  | nullable (inner : TypeRef) (span : Span)
  | tuple (elements : List TypeRef) (span : Span)

/-- One piece of a dotted name with its type arguments. -/
inductive Segment where
  | mk (ident : String) (args : List TypeRef) (span : Span)

end

namespace Segment

def ident : Segment → String
  | mk i _ _ => i

def args : Segment → List TypeRef
  | mk _ a _ => a

def span : Segment → Span
  | mk _ _ s => s

end Segment

instance : Inhabited TypeRef := ⟨.predefined .object ⟨0, 0⟩⟩

/-- A possibly qualified, possibly generic name. -/
structure Name where
  /-- Written with `global::` in front. -/
  fromGlobal : Bool
  segments : List Segment
  span : Span

namespace TypeRef

def ofName (n : Name) : TypeRef := .named n.fromGlobal n.segments n.span

def span : TypeRef → Span
  | predefined _ s | named _ _ s | array _ _ s | nullable _ s | tuple _ s => s

/-- The name, if the reference is a named type. -/
def name? : TypeRef → Option Name
  | named g segs s => some ⟨g, segs, s⟩
  | _ => none

mutual

/-- The canonical text of a reference. -/
def render : TypeRef → String
  | predefined p _ => p.keyword
  | named fromGlobal segs _ =>
    (if fromGlobal then "global::" else "") ++ joinWith "." (renderSegments segs)
  | array e rank _ => render e ++ "[" ++ String.ofList (List.replicate (rank - 1) ',') ++ "]"
  | nullable i _ => render i ++ "?"
  | tuple es _ => "(" ++ joinWith ", " (renderAll es) ++ ")"

def renderAll : List TypeRef → List String
  | [] => []
  | t :: ts => render t :: renderAll ts

def renderSegment : Segment → String
  | .mk ident args _ =>
    match args with
    | [] => ident
    | a :: rest => ident ++ "<" ++ joinWith ", " (render a :: renderAll rest) ++ ">"

def renderSegments : List Segment → List String
  | [] => []
  | s :: ss => renderSegment s :: renderSegments ss

end

end TypeRef

namespace Name

/-- The identifiers of a name, without type arguments. -/
def parts (n : Name) : List String := n.segments.map Segment.ident

/-- The identifiers of a name joined by points. -/
def dotted (n : Name) : String := joinWith "." n.parts

def render (n : Name) : String := (TypeRef.ofName n).render

end Name
end Companion
