import Companion.Syntax.Tree

/-!
The spans of a syntax tree. An outline keeps of a tree only the span of each node and what stands
inside it, in the order in which it is written. It is sound for a text if every span is in order and
has both ends between two characters, if what a node holds lies within the span of the node, and if
the things that a node holds in one row do not overlap and come in the order of the text.
-/

set_option autoImplicit false
set_option relaxedAutoImplicit false

namespace Companion

/-! ### Spans that fit a text -/

/-- A number of bytes after which a text can be cut: that of some of its first characters. -/
def Text.IsCut (cs : List Char) (n : Nat) : Prop :=
  ∃ front back, cs = front ++ back ∧ byteLength front = n

theorem Text.IsCut.le_byteLength {cs : List Char} {n : Nat} (h : IsCut cs n) :
    n ≤ byteLength cs := by
  obtain ⟨front, back, rfl, rfl⟩ := h
  rw [byteLength_append]
  exact Nat.le_add_right _ _

theorem Text.isCut_zero (cs : List Char) : IsCut cs 0 := ⟨[], cs, rfl, rfl⟩

theorem Text.isCut_byteLength (cs : List Char) : IsCut cs (byteLength cs) :=
  ⟨cs, [], (List.append_nil cs).symm, rfl⟩

namespace Span

/-- A span is in order, lies within a text and has both ends between characters. -/
structure Fits (cs : List Char) (s : Span) : Prop where
  start_le_stop : s.start ≤ s.stop
  stop_le : s.stop ≤ Text.byteLength cs
  start_cut : Text.IsCut cs s.start
  stop_cut : Text.IsCut cs s.stop

variable {cs : List Char} {a b : Span}

theorem Fits.of_cuts {start stop : Nat} (hle : start ≤ stop) (hstart : Text.IsCut cs start)
    (hstop : Text.IsCut cs stop) : Fits cs ⟨start, stop⟩ :=
  ⟨hle, hstop.le_byteLength, hstart, hstop⟩

theorem Fits.merge (ha : a.Fits cs) (hb : b.Fits cs) : (a.merge b).Fits cs := by
  have hle := ha.start_le_stop
  refine .of_cuts (by omega) ?_ ?_
  · rcases Nat.le_total a.start b.start with h | h
    · exact (Nat.min_eq_left h).symm ▸ ha.start_cut
    · exact (Nat.min_eq_right h).symm ▸ hb.start_cut
  · rcases Nat.le_total a.stop b.stop with h | h
    · exact (Nat.max_eq_right h).symm ▸ hb.stop_cut
    · exact (Nat.max_eq_left h).symm ▸ ha.stop_cut

end Span

/-! ### Outlines -/

/-- The span of a node with what stands inside it. What stands side by side is in one row. -/
inductive Outline where
  | node (span : Span) (rows : List (List Outline))

namespace Outline

def span : Outline → Span
  | node s _ => s

/-- Something that holds nothing. -/
def leaf (s : Span) : Outline := node s []

/-- Every span fits the text, and whatever a node holds lies within its span; in each row one thing
ends before the next one starts. -/
inductive Sound (cs : List Char) : Outline → Prop
  | node {s : Span} {rows : List (List Outline)} (hspan : s.Fits cs)
      (hwithin : ∀ row ∈ rows, ∀ o ∈ row, s.start ≤ o.span.start ∧ o.span.stop ≤ s.stop)
      (hordered : ∀ row ∈ rows, row.Pairwise fun a b ↦ a.span.stop ≤ b.span.start)
      (hsound : ∀ row ∈ rows, ∀ o ∈ row, Sound cs o) : Sound cs (node s rows)

/-- Sound outlines between two offsets, one behind the other. -/
structure Row (cs : List Char) (lower upper : Nat) (os : List Outline) : Prop where
  sound : ∀ o ∈ os, o.Sound cs
  within : ∀ o ∈ os, lower ≤ o.span.start ∧ o.span.stop ≤ upper
  ordered : os.Pairwise fun a b ↦ a.span.stop ≤ b.span.start

variable {cs : List Char} {lower upper : Nat} {o : Outline} {os os' : List Outline}

theorem Sound.fits (h : o.Sound cs) : o.span.Fits cs := by
  cases h with
  | node hspan _ _ _ => exact hspan

theorem sound_leaf {s : Span} (h : s.Fits cs) : (leaf s).Sound cs :=
  .node h (fun _ h ↦ absurd h List.not_mem_nil) (fun _ h ↦ absurd h List.not_mem_nil)
    fun _ h ↦ absurd h List.not_mem_nil

theorem sound_node {s : Span} {rows : List (List Outline)} (h : s.Fits cs)
    (hrows : ∀ row ∈ rows, Row cs s.start s.stop row) : (node s rows).Sound cs :=
  .node h (fun row hrow ↦ (hrows row hrow).within) (fun row hrow ↦ (hrows row hrow).ordered)
    fun row hrow ↦ (hrows row hrow).sound

namespace Row

theorem nil : Row cs lower upper [] :=
  ⟨fun _ h ↦ absurd h List.not_mem_nil, fun _ h ↦ absurd h List.not_mem_nil, .nil⟩

theorem singleton (h : o.Sound cs) (hlower : lower ≤ o.span.start) (hupper : o.span.stop ≤ upper) :
    Row cs lower upper [o] :=
  ⟨fun _ ho ↦ List.mem_singleton.mp ho ▸ h, fun _ ho ↦ List.mem_singleton.mp ho ▸ ⟨hlower, hupper⟩,
    List.pairwise_singleton _ _⟩

theorem mono {lower' upper' : Nat} (h : Row cs lower upper os) (hlower : lower' ≤ lower)
    (hupper : upper ≤ upper') : Row cs lower' upper' os :=
  ⟨h.sound, fun o ho ↦ ⟨Nat.le_trans hlower (h.within o ho).1,
    Nat.le_trans (h.within o ho).2 hupper⟩, h.ordered⟩

/-- Two rows of which the second starts behind the first. -/
theorem append {middle middle' : Nat} (h : Row cs lower middle os) (h' : Row cs middle' upper os')
    (hmiddle : middle ≤ middle') (hlower : lower ≤ middle') (hupper : middle ≤ upper) :
    Row cs lower upper (os ++ os') where
  sound o ho := (List.mem_append.mp ho).elim (h.sound o) (h'.sound o)
  within o ho := (List.mem_append.mp ho).elim ((h.mono (Nat.le_refl _) hupper).within o)
    ((h'.mono hlower (Nat.le_refl _)).within o)
  ordered := List.pairwise_append.mpr ⟨h.ordered, h'.ordered, fun a ha b hb ↦
    Nat.le_trans (h.within a ha).2 (Nat.le_trans hmiddle (h'.within b hb).1)⟩

end Row
end Outline

/-! ### The outlines of trees -/

mutual

/-- A type with its element types, or with its name pieces. -/
def TypeRef.outline : TypeRef → Outline
  | .predefined _ s => .leaf s
  | .named _ segments s => .node s [Segment.outlines segments]
  | .array element _ s => .node s [[element.outline]]
  | .nullable inner s => .node s [[inner.outline]]
  | .tuple elements s => .node s [TypeRef.outlines elements]

def TypeRef.outlines : List TypeRef → List Outline
  | [] => []
  | t :: ts => t.outline :: TypeRef.outlines ts

/-- A name piece with its type arguments. -/
def Segment.outline : Segment → Outline
  | .mk _ args s => .node s [TypeRef.outlines args]

def Segment.outlines : List Segment → List Outline
  | [] => []
  | s :: ss => s.outline :: Segment.outlines ss

end

/-- An attribute with its name and its arguments. -/
def Attribute.outline (a : Attribute) : Outline :=
  .node a.span [.leaf a.nameSpan :: a.arguments.toList.map .leaf]

def AttributeList.outline (l : AttributeList) : Outline :=
  .node l.span [l.attributes.map Attribute.outline]

/-- The name of a variable and its initializer. -/
def Declarator.outlines (d : Declarator) : List Outline :=
  .leaf d.nameSpan :: d.initializer.toList.map .leaf

/-- A field with its attributes, its type and its variables. -/
def Field.outline (f : Field) : Outline :=
  .node f.span [f.attributes.map AttributeList.outline ++
    f.type.outline :: f.declarators.flatMap Declarator.outlines]

def TypeParam.outline (p : TypeParam) : Outline := .leaf p.span

/-- What stands in front of the body of a type declaration behind its attributes. -/
def TypeHeader.outlines (h : TypeHeader) : List Outline :=
  .leaf h.nameSpan :: (h.typeParams.map TypeParam.outline ++ h.bases.map TypeRef.outline)

mutual

/-- A type declaration with its attributes, its head and its members. -/
def TypeDecl.outline : TypeDecl → Outline
  | .mk h ms =>
    .node h.span [h.attributes.map AttributeList.outline ++ (h.outlines ++ Member.outlines ms)]

def Member.outline : Member → Outline
  | .field f => f.outline
  | .type d => d.outline
  | .other s => .leaf s

def Member.outlines : List Member → List Outline
  | [] => []
  | m :: ms => m.outline :: Member.outlines ms

end

/-- A using directive with the type it names. -/
def Using.outline (u : Using) : Outline := .node u.span [[u.target.outline]]

mutual

/-- A namespace with its name and what stands in it: its using directives, and among them its
items. -/
def Item.outline : Item → Outline
  | .namespaceDecl h items =>
    .node h.span [.leaf h.nameSpan :: h.usings.map Using.outline,
      .leaf h.nameSpan :: Item.outlines items]
  | .typeDecl d => d.outline

def Item.outlines : List Item → List Outline
  | [] => []
  | i :: is => i.outline :: Item.outlines is

end

@[simp] theorem TypeRef.span_outline (t : TypeRef) : t.outline.span = t.span := by
  cases t <;> rfl

theorem TypeRef.outlines_eq_map (ts : List TypeRef) : outlines ts = ts.map outline := by
  induction ts with
  | nil => rfl
  | cons t ts ih => rw [outlines, ih, List.map_cons]

theorem Segment.outlines_append (ss ss' : List Segment) :
    outlines (ss ++ ss') = outlines ss ++ outlines ss' := by
  induction ss with
  | nil => rfl
  | cons s ss ih => rw [List.cons_append, outlines, outlines, ih, List.cons_append]

end Companion
