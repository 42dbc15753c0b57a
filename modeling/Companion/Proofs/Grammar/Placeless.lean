import Companion.Proofs.Grammar.TypeReading

/-!
Declaration trees without places. Two texts that declare the same are read to trees that differ in
places alone, so what a text declares is its tree with one place for everything.
-/

set_option autoImplicit false
set_option relaxedAutoImplicit false

namespace Companion

/-- The place of what has none. -/
def nowhere : Span := Span.point 0

def TypeRef.placeless (t : TypeRef) : TypeRef := t.renamed id

/-- An attribute keeps whether it has arguments, but not what they are. -/
def Attribute.placeless (a : Attribute) : Attribute where
  name := a.name
  nameSpan := nowhere
  arguments := a.arguments.map fun _ ↦ nowhere
  span := nowhere

def AttributeList.placeless (l : AttributeList) : AttributeList :=
  ⟨l.target, l.attributes.map Attribute.placeless, nowhere⟩

def Declarator.placeless (d : Declarator) : Declarator :=
  ⟨d.name, nowhere, d.initializer.map fun _ ↦ nowhere⟩

def Field.placeless (f : Field) : Field where
  attributes := f.attributes.map AttributeList.placeless
  modifiers := f.modifiers
  type := f.type.placeless
  declarators := f.declarators.map Declarator.placeless
  span := nowhere

def TypeParam.placeless (p : TypeParam) : TypeParam := ⟨p.name, nowhere⟩

def TypeHeader.placeless (h : TypeHeader) : TypeHeader where
  kind := h.kind
  attributes := h.attributes.map AttributeList.placeless
  modifiers := h.modifiers
  name := h.name
  nameSpan := nowhere
  typeParams := h.typeParams.map TypeParam.placeless
  bases := h.bases.map TypeRef.placeless
  span := nowhere

mutual

def TypeDecl.placeless : TypeDecl → TypeDecl
  | .mk h ms => .mk h.placeless (Member.allPlaceless ms)

def Member.placeless : Member → Member
  | .field f => .field f.placeless
  | .type d => .type d.placeless
  | .other _ => .other nowhere

def Member.allPlaceless : List Member → List Member
  | [] => []
  | m :: ms => m.placeless :: Member.allPlaceless ms

end

def Using.placeless (u : Using) : Using :=
  ⟨u.aliasName, u.isStatic, u.isGlobal, u.target.placeless, nowhere⟩

def NamespaceHeader.placeless (h : NamespaceHeader) : NamespaceHeader :=
  ⟨h.parts, nowhere, h.fileScoped, h.usings.map Using.placeless, nowhere⟩

mutual

def Item.placeless : Item → Item
  | .namespaceDecl h is => .namespaceDecl h.placeless (Item.allPlaceless is)
  | .typeDecl d => .typeDecl d.placeless

def Item.allPlaceless : List Item → List Item
  | [] => []
  | i :: is => i.placeless :: Item.allPlaceless is

end

theorem Member.allPlaceless_eq_map (ms : List Member) :
    Member.allPlaceless ms = ms.map Member.placeless := by
  induction ms with
  | nil => rfl
  | cons m ms ih => rw [allPlaceless, ih, List.map_cons]

theorem Item.allPlaceless_eq_map (is : List Item) :
    Item.allPlaceless is = is.map Item.placeless := by
  induction is with
  | nil => rfl
  | cons i is ih => rw [allPlaceless, ih, List.map_cons]

/-! ### Texts of references -/

namespace TypeRef

mutual

/-- The text of a reference does not depend on places. -/
theorem render_placeless : ∀ t : TypeRef, render (renamed id t) = render t
  | predefined p _ => by rw [renamed, render, render]
  | named fromGlobal segs _ => by
    rw [renamed, render, render, renderSegments_placeless segs]
  | array e rank _ => by rw [renamed, render, render, render_placeless e]
  | nullable i _ => by rw [renamed, render, render, render_placeless i]
  | tuple es _ => by rw [renamed, render, render, renderAll_placeless es]

theorem renderAll_placeless : ∀ ts : List TypeRef, renderAll (renamedAll id ts) = renderAll ts
  | [] => rfl
  | t :: ts => by
    rw [renamedAll, renderAll, renderAll, render_placeless t, renderAll_placeless ts]

theorem renderSegment_placeless :
    ∀ s : Segment, renderSegment (renamedSegment id s) = renderSegment s
  | .mk ident [] _ => rfl
  | .mk ident (a :: as) _ => by
    rw [renamedSegment, renamedAll, renderSegment, renderSegment, render_placeless a,
      renderAll_placeless as]
    rfl

theorem renderSegments_placeless :
    ∀ ss : List Segment, renderSegments (renamedSegments id ss) = renderSegments ss
  | [] => rfl
  | s :: ss => by
    rw [renamedSegments, renderSegments, renderSegments, renderSegment_placeless s,
      renderSegments_placeless ss]

end

end TypeRef

theorem Name.render_eq_of_placeless {n n' : Name}
    (h : (TypeRef.ofName n).placeless = (TypeRef.ofName n').placeless) : n.render = n'.render := by
  rw [render, render, ← TypeRef.render_placeless (.ofName n),
    ← TypeRef.render_placeless (.ofName n')]
  exact congrArg TypeRef.render h

end Companion
