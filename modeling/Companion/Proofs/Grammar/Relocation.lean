import Companion.Proofs.Grammar.Placeless

/-!
Declaration trees at other places. A text that stands elsewhere is read to a tree with every place
changed in one way; to take all places away is one such change.
-/

set_option autoImplicit false
set_option relaxedAutoImplicit false

namespace Companion

variable (g : Span → Span)

/-! ### Trees with their places changed -/

namespace TypeRef

mutual

/-- A reference with every place changed. -/
def relocated : TypeRef → TypeRef
  | predefined p span => predefined p (g span)
  | named fromGlobal segs span => named fromGlobal (relocatedSegments segs) (g span)
  | array e rank span => array (relocated e) rank (g span)
  | nullable i span => nullable (relocated i) (g span)
  | tuple es span => tuple (relocatedAll es) (g span)

def relocatedAll : List TypeRef → List TypeRef
  | [] => []
  | r :: rs => relocated r :: relocatedAll rs

def relocatedSegments : List Segment → List Segment
  | [] => []
  | .mk ident args span :: ss => .mk ident (relocatedAll args) (g span) :: relocatedSegments ss

end

end TypeRef

def Attribute.relocated (a : Attribute) : Attribute :=
  ⟨a.name, g a.nameSpan, a.arguments.map g, g a.span⟩

def AttributeList.relocated (l : AttributeList) : AttributeList :=
  ⟨l.target, l.attributes.map (Attribute.relocated g), g l.span⟩

def Declarator.relocated (d : Declarator) : Declarator :=
  ⟨d.name, g d.nameSpan, d.initializer.map g⟩

def Field.relocated (f : Field) : Field where
  attributes := f.attributes.map (AttributeList.relocated g)
  modifiers := f.modifiers
  type := f.type.relocated g
  declarators := f.declarators.map (Declarator.relocated g)
  span := g f.span

def TypeParam.relocated (p : TypeParam) : TypeParam := ⟨p.name, g p.span⟩

def TypeHeader.relocated (h : TypeHeader) : TypeHeader where
  kind := h.kind
  attributes := h.attributes.map (AttributeList.relocated g)
  modifiers := h.modifiers
  name := h.name
  nameSpan := g h.nameSpan
  typeParams := h.typeParams.map (TypeParam.relocated g)
  bases := h.bases.map (TypeRef.relocated g)
  span := g h.span

mutual

def TypeDecl.relocated : TypeDecl → TypeDecl
  | .mk h ms => .mk (h.relocated g) (Member.allRelocated ms)

def Member.relocated : Member → Member
  | .field f => .field (f.relocated g)
  | .type d => .type d.relocated
  | .other span => .other (g span)

def Member.allRelocated : List Member → List Member
  | [] => []
  | m :: ms => m.relocated :: Member.allRelocated ms

end

def Using.relocated (u : Using) : Using :=
  ⟨u.aliasName, u.isStatic, u.isGlobal, u.target.relocated g, g u.span⟩

def NamespaceHeader.relocated (h : NamespaceHeader) : NamespaceHeader :=
  ⟨h.parts, g h.nameSpan, h.fileScoped, h.usings.map (Using.relocated g), g h.span⟩

mutual

def Item.relocated : Item → Item
  | .namespaceDecl h is => .namespaceDecl (h.relocated g) (Item.allRelocated is)
  | .typeDecl d => .typeDecl (d.relocated g)

def Item.allRelocated : List Item → List Item
  | [] => []
  | i :: is => i.relocated :: Item.allRelocated is

end

/-! ### Taking places away -/

namespace TypeRef

mutual

theorem relocated_nowhere : ∀ r : TypeRef, relocated (fun _ ↦ nowhere) r = r.placeless
  | predefined _ _ => rfl
  | named fromGlobal segs _ => by
    rw [relocated, placeless, renamed, relocatedSegments_nowhere segs]
    rfl
  | array e rank _ => by
    rw [relocated, placeless, renamed, relocated_nowhere e]
    rfl
  | nullable i _ => by
    rw [relocated, placeless, renamed, relocated_nowhere i]
    rfl
  | tuple es _ => by
    rw [relocated, placeless, renamed, relocatedAll_nowhere es]
    rfl

theorem relocatedAll_nowhere :
    ∀ rs : List TypeRef, relocatedAll (fun _ ↦ nowhere) rs = renamedAll id rs
  | [] => rfl
  | r :: rs => by
    rw [relocatedAll, renamedAll, relocated_nowhere r, relocatedAll_nowhere rs]
    rfl

theorem relocatedSegments_nowhere :
    ∀ ss : List Segment, relocatedSegments (fun _ ↦ nowhere) ss = renamedSegments id ss
  | [] => rfl
  | .mk ident args span :: ss => by
    rw [relocatedSegments, renamedSegments, renamedSegment, relocatedAll_nowhere args,
      relocatedSegments_nowhere ss]
    rfl

end

end TypeRef

theorem Using.relocated_nowhere (u : Using) : u.relocated (fun _ ↦ nowhere) = u.placeless := by
  rw [relocated, placeless, TypeRef.relocated_nowhere]

theorem TypeHeader.relocated_nowhere (h : TypeHeader) :
    h.relocated (fun _ ↦ nowhere) = h.placeless := by
  have hrefs : TypeRef.relocated (fun _ ↦ nowhere) = TypeRef.placeless :=
    funext TypeRef.relocated_nowhere
  rw [relocated, placeless, hrefs]
  rfl

theorem Field.relocated_nowhere (f : Field) : f.relocated (fun _ ↦ nowhere) = f.placeless := by
  rw [relocated, placeless, TypeRef.relocated_nowhere]
  rfl

mutual

theorem TypeDecl.relocated_nowhere : ∀ d : TypeDecl, d.relocated (fun _ ↦ nowhere) = d.placeless
  | .mk h ms => by
    rw [TypeDecl.relocated, TypeDecl.placeless, h.relocated_nowhere, Member.allRelocated_nowhere ms]

theorem Member.relocated_nowhere : ∀ m : Member, m.relocated (fun _ ↦ nowhere) = m.placeless
  | .field f => by rw [Member.relocated, Member.placeless, f.relocated_nowhere]
  | .type d => by rw [Member.relocated, Member.placeless, TypeDecl.relocated_nowhere d]
  | .other _ => rfl

theorem Member.allRelocated_nowhere :
    ∀ ms : List Member, Member.allRelocated (fun _ ↦ nowhere) ms = Member.allPlaceless ms
  | [] => rfl
  | m :: ms => by
    rw [Member.allRelocated, Member.allPlaceless, Member.relocated_nowhere m,
      Member.allRelocated_nowhere ms]

end

theorem NamespaceHeader.relocated_nowhere (h : NamespaceHeader) :
    h.relocated (fun _ ↦ nowhere) = h.placeless := by
  have husings : Using.relocated (fun _ ↦ nowhere) = Using.placeless :=
    funext Using.relocated_nowhere
  rw [relocated, placeless, husings]

mutual

theorem Item.relocated_nowhere : ∀ i : Item, i.relocated (fun _ ↦ nowhere) = i.placeless
  | .namespaceDecl h is => by
    rw [Item.relocated, Item.placeless, h.relocated_nowhere, Item.allRelocated_nowhere is]
  | .typeDecl d => by rw [Item.relocated, Item.placeless, d.relocated_nowhere]

theorem Item.allRelocated_nowhere :
    ∀ is : List Item, Item.allRelocated (fun _ ↦ nowhere) is = Item.allPlaceless is
  | [] => rfl
  | i :: is => by
    rw [Item.allRelocated, Item.allPlaceless, Item.relocated_nowhere i,
      Item.allRelocated_nowhere is]

end

/-! ### Leaving places as they are -/

namespace TypeRef

mutual

theorem relocated_id : ∀ r : TypeRef, relocated id r = r
  | predefined _ _ => rfl
  | named fromGlobal segs _ => by rw [relocated, relocatedSegments_id segs, id]
  | array e _ _ => by rw [relocated, relocated_id e, id]
  | nullable i _ => by rw [relocated, relocated_id i, id]
  | tuple es _ => by rw [relocated, relocatedAll_id es, id]

theorem relocatedAll_id : ∀ rs : List TypeRef, relocatedAll id rs = rs
  | [] => rfl
  | r :: rs => by rw [relocatedAll, relocated_id r, relocatedAll_id rs]

theorem relocatedSegments_id : ∀ ss : List Segment, relocatedSegments id ss = ss
  | [] => rfl
  | .mk _ args _ :: ss => by
    rw [relocatedSegments, relocatedAll_id args, relocatedSegments_id ss, id]

end

end TypeRef

theorem AttributeList.relocated_id (l : AttributeList) : l.relocated id = l := by
  have hattribute : Attribute.relocated id = id := by
    funext a
    rw [Attribute.relocated, Option.map_id]
    rfl
  rw [relocated, hattribute, List.map_id]
  rfl

theorem Field.relocated_id (f : Field) : f.relocated id = f := by
  have hlist : AttributeList.relocated id = id := funext AttributeList.relocated_id
  have hdeclarator : Declarator.relocated id = id := by
    funext d
    rw [Declarator.relocated, Option.map_id]
    rfl
  rw [relocated, hlist, hdeclarator, List.map_id, List.map_id, TypeRef.relocated_id]
  rfl

theorem TypeHeader.relocated_id (h : TypeHeader) : h.relocated id = h := by
  have hlist : AttributeList.relocated id = id := funext AttributeList.relocated_id
  have hparam : TypeParam.relocated id = id := rfl
  have href : TypeRef.relocated id = id := funext TypeRef.relocated_id
  rw [relocated, hlist, hparam, href, List.map_id, List.map_id, List.map_id]
  rfl

mutual

theorem TypeDecl.relocated_id : ∀ d : TypeDecl, d.relocated id = d
  | .mk h ms => by rw [TypeDecl.relocated, h.relocated_id, Member.allRelocated_id ms]

theorem Member.relocated_id : ∀ m : Member, m.relocated id = m
  | .field f => by rw [Member.relocated, f.relocated_id]
  | .type d => by rw [Member.relocated, TypeDecl.relocated_id d]
  | .other _ => rfl

theorem Member.allRelocated_id : ∀ ms : List Member, Member.allRelocated id ms = ms
  | [] => rfl
  | m :: ms => by rw [Member.allRelocated, Member.relocated_id m, Member.allRelocated_id ms]

end

theorem Using.relocated_id (u : Using) : u.relocated id = u := by
  rw [relocated, TypeRef.relocated_id]
  rfl

/-! ### Changing places twice -/

def Segment.relocated : Segment → Segment
  | mk ident args span => mk ident (TypeRef.relocatedAll g args) (g span)

def Name.relocated (n : Name) : Name :=
  ⟨n.fromGlobal, TypeRef.relocatedSegments g n.segments, g n.span⟩

namespace TypeRef

theorem relocatedAll_eq_map (rs : List TypeRef) : relocatedAll g rs = rs.map (relocated g) := by
  induction rs with
  | nil => rfl
  | cons r rs ih => rw [relocatedAll, ih, List.map_cons]

theorem relocatedSegments_eq_map (ss : List Segment) :
    relocatedSegments g ss = ss.map (Segment.relocated g) := by
  induction ss with
  | nil => rfl
  | cons s ss ih =>
    cases s
    rw [relocatedSegments, ih, List.map_cons, Segment.relocated]

variable {g} {f : Span → Span}

mutual

theorem relocated_relocated : ∀ r : TypeRef, relocated f (relocated g r) = relocated (f ∘ g) r
  | predefined _ _ => rfl
  | named fromGlobal segs _ => by
    rw [relocated, relocated, relocated, relocatedSegments_relocatedSegments segs]
    rfl
  | array e rank _ => by
    rw [relocated, relocated, relocated, relocated_relocated e]
    rfl
  | nullable i _ => by
    rw [relocated, relocated, relocated, relocated_relocated i]
    rfl
  | tuple es _ => by
    rw [relocated, relocated, relocated, relocatedAll_relocatedAll es]
    rfl

theorem relocatedAll_relocatedAll :
    ∀ rs : List TypeRef, relocatedAll f (relocatedAll g rs) = relocatedAll (f ∘ g) rs
  | [] => rfl
  | r :: rs => by
    rw [relocatedAll, relocatedAll, relocatedAll, relocated_relocated r,
      relocatedAll_relocatedAll rs]

theorem relocatedSegments_relocatedSegments : ∀ ss : List Segment,
    relocatedSegments f (relocatedSegments g ss) = relocatedSegments (f ∘ g) ss
  | [] => rfl
  | .mk ident args span :: ss => by
    rw [relocatedSegments, relocatedSegments, relocatedSegments, relocatedAll_relocatedAll args,
      relocatedSegments_relocatedSegments ss]
    rfl

end

theorem placeless_relocated (r : TypeRef) : (r.relocated g).placeless = r.placeless := by
  rw [← relocated_nowhere, relocated_relocated, ← relocated_nowhere]
  rfl

end TypeRef

variable {g}

theorem Using.placeless_relocated (u : Using) : (u.relocated g).placeless = u.placeless := by
  rw [placeless, relocated, TypeRef.placeless_relocated, placeless]

theorem Name.parts_relocated (n : Name) : (n.relocated g).parts = n.parts := by
  rw [parts, relocated, TypeRef.relocatedSegments_eq_map, List.map_map]
  refine List.map_congr_left fun s _ ↦ ?_
  cases s
  rfl

/-- The text of a name does not depend on places. -/
theorem Name.render_relocated (n : Name) : (n.relocated g).render = n.render :=
  render_eq_of_placeless (TypeRef.placeless_relocated (.ofName n))

end Companion
