import Companion.Proofs.Grammar.NamespaceForms
import Companion.Proofs.Grammar.Spans
import Companion.Proofs.Symbol.Displacement

/-!
Declarations of a text that stands in namespaces. Whether there is one namespace with a dotted name
or several with one name each, one in the other, the text declares what it declares in one namespace
with the whole name, at other places.
-/

set_option autoImplicit false
set_option relaxedAutoImplicit false

namespace Companion

/-! ### Texts at other places -/

/-- A text in three pieces, of which the middle one is what a span covers. -/
theorem Span.Fits.exists_pieces {cs : List Char} {s : Span} (h : s.Fits cs) :
    ∃ a b c, cs = a ++ (b ++ c) ∧ Text.byteLength a = s.start ∧
      Text.byteLength a + Text.byteLength b = s.stop := by
  obtain ⟨front, back, hcs, hstart⟩ := h.start_cut
  obtain ⟨front', back', hcs', hstop⟩ := h.stop_cut
  rcases List.append_eq_append_iff.1 (hcs.symm.trans hcs') with ⟨b, rfl, rfl⟩ | ⟨b, rfl, rfl⟩
  · exact ⟨front, b, back', hcs, hstart, by rw [← Text.byteLength_append, hstop]⟩
  · have hle := h.start_le_stop
    rw [Text.byteLength_append] at hstart
    have hnone : b = [] := by
      have hlength := Text.length_le_byteLength b
      exact List.length_eq_zero_iff.1 (by omega)
    subst hnone
    rw [List.append_nil] at hcs
    exact ⟨front', [], back, hcs, by rw [Text.byteLength_nil] at hstart; omega,
      by rw [Text.byteLength_nil, Nat.add_zero, hstop]⟩

/-- The text that a span covers is the same where more stands around. -/
theorem Span.text_moved {source text : String} {front back : List Char}
    (hsource : source.toList = front ++ (text.toList ++ back)) {s : Span}
    (hs : s.Fits text.toList) :
    (s.moved (Text.byteLength front)).text source = s.text text := by
  obtain ⟨a, b, c, htext, hstart, hstop⟩ := hs.exists_pieces
  have hmoved : source.toList = (front ++ a) ++ (b ++ (c ++ back)) := by
    rw [hsource, htext]
    simp only [List.append_assoc]
  have hfirst : s.start + Text.byteLength front = Text.byteLength (front ++ a) := by
    rw [Text.byteLength_append, hstart, Nat.add_comm]
  have hlast :
      s.stop + Text.byteLength front = Text.byteLength (front ++ a) + Text.byteLength b := by
    rw [Text.byteLength_append, ← hstop]
    omega
  rw [Span.text, Span.text, moved, hfirst, hlast, hmoved, Text.between_append, htext, ← hstart,
    ← hstop, Text.between_append]

/-! ### Spans in a tree fit its text -/

section Fits

variable {cs : List Char}

theorem Outline.Sound.of_mem {s : Span} {rows : List (List Outline)}
    (h : (Outline.node s rows).Sound cs)
    {row : List Outline} (hrow : row ∈ rows) {o : Outline} (ho : o ∈ row) : o.Sound cs := by
  cases h with
  | node _ _ _ hsound => exact hsound row hrow o ho

theorem Field.fits_of_mem_allAttributes {f : Field} (h : f.outline.Sound cs) {a : Attribute}
    (ha : a ∈ f.allAttributes) : a.span.Fits cs := by
  obtain ⟨l, hl, ha⟩ := List.mem_flatMap.1 ha
  have hlist : l.outline.Sound cs :=
    h.of_mem List.mem_cons_self (List.mem_append_left _ (List.mem_map_of_mem hl))
  have hattribute : a.outline.Sound cs := hlist.of_mem List.mem_cons_self (List.mem_map_of_mem ha)
  exact hattribute.fits

theorem Member.outline_mem_outlines {m : Member} {ms : List Member} (h : m ∈ ms) :
    m.outline ∈ Member.outlines ms := by
  induction ms with
  | nil => cases h
  | cons first ms ih =>
    rcases List.mem_cons.1 h with rfl | h
    · exact List.mem_cons_self
    · exact List.mem_cons_of_mem _ (ih h)

theorem TypeDecl.sound_of_mem_fields {d : TypeDecl} (h : d.outline.Sound cs) {f : Field}
    (hf : f ∈ d.fields) : f.outline.Sound cs := by
  obtain ⟨header, ms⟩ := d
  obtain ⟨m, hm, hfield⟩ := List.mem_filterMap.1 hf
  cases m with
  | field g =>
    obtain rfl := Option.some.inj hfield
    exact h.of_mem List.mem_cons_self (List.mem_append_right _ (List.mem_append_right _
      (Member.outline_mem_outlines hm)))
  | type _ => cases hfield
  | other _ => cases hfield

mutual

theorem TypeDecl.sound_of_mem_all {e : TypeDecl} :
    ∀ d : TypeDecl, d.outline.Sound cs → e ∈ d.all → e.outline.Sound cs
  | .mk h ms, hd, he => by
    rw [TypeDecl.all] at he
    rcases List.mem_cons.1 he with rfl | he
    · exact hd
    · exact Member.sound_of_mem_allTypes ms (fun o ho ↦ hd.of_mem List.mem_cons_self
        (List.mem_append_right _ (List.mem_append_right _ ho))) he

theorem Member.sound_of_mem_allTypes {e : TypeDecl} :
    ∀ ms : List Member, (∀ o ∈ Member.outlines ms, o.Sound cs) → e ∈ Member.allTypes ms →
      e.outline.Sound cs
  | [], _, he => by cases he
  | .type d :: ms, hms, he => by
    obtain ⟨hd, hms⟩ := List.forall_mem_cons.1 hms
    rw [Member.allTypes] at he
    rcases List.mem_append.1 he with he | he
    · exact TypeDecl.sound_of_mem_all d hd he
    · exact Member.sound_of_mem_allTypes ms hms he
  | .field _ :: ms, hms, he =>
    Member.sound_of_mem_allTypes ms (List.forall_mem_cons.1 hms).2 he
  | .other _ :: ms, hms, he =>
    Member.sound_of_mem_allTypes ms (List.forall_mem_cons.1 hms).2 he

end

mutual

theorem Item.sound_of_mem_types {d : TypeDecl} :
    ∀ i : Item, i.outline.Sound cs → d ∈ i.types → d.outline.Sound cs
  | .namespaceDecl _ items, hi, hd =>
    Item.sound_of_mem_allTypes items (fun _ ho ↦ hi.of_mem
      (List.mem_cons_of_mem _ List.mem_cons_self) (List.mem_cons_of_mem _ ho)) hd
  | .typeDecl t, hi, hd => TypeDecl.sound_of_mem_all t hi hd

theorem Item.sound_of_mem_allTypes {d : TypeDecl} :
    ∀ is : List Item, (∀ o ∈ Item.outlines is, o.Sound cs) → d ∈ Item.allTypes is →
      d.outline.Sound cs
  | [], _, hd => by cases hd
  | i :: is, his, hd => by
    obtain ⟨hi, his⟩ := List.forall_mem_cons.1 his
    rw [Item.allTypes] at hd
    rcases List.mem_append.1 hd with hd | hd
    · exact Item.sound_of_mem_types i hi hd
    · exact Item.sound_of_mem_allTypes is his hd

end

mutual

theorem Item.sound_of_mem_usings {u : Using} :
    ∀ i : Item, i.outline.Sound cs → u ∈ i.usings → u.outline.Sound cs
  | .namespaceDecl h items, hi, hu => by
    rw [Item.usings] at hu
    rcases List.mem_append.1 hu with hu | hu
    · exact hi.of_mem List.mem_cons_self (List.mem_cons_of_mem _ (List.mem_map_of_mem hu))
    · exact Item.sound_of_mem_allUsings items (fun o ho ↦ hi.of_mem
        (List.mem_cons_of_mem _ List.mem_cons_self) (List.mem_cons_of_mem _ ho)) hu
  | .typeDecl _, _, hu => by cases hu

theorem Item.sound_of_mem_allUsings {u : Using} :
    ∀ is : List Item, (∀ o ∈ Item.outlines is, o.Sound cs) → u ∈ Item.allUsings is →
      u.outline.Sound cs
  | [], _, hu => by cases hu
  | i :: is, his, hu => by
    obtain ⟨hi, his⟩ := List.forall_mem_cons.1 his
    rw [Item.allUsings] at hu
    rcases List.mem_append.1 hu with hu | hu
    · exact Item.sound_of_mem_usings i hi hu
    · exact Item.sound_of_mem_allUsings is his hu

end

end Fits

section Fits

variable {path text : String} (hsize : Text.byteLength text.toList ≤ Span.maxOffset)
include hsize

/-- A directive covers a piece of the text. -/
theorem Parsed.fits_of_mem_allUsings {u : Using}
    (hu : u ∈ (ofSource path text).file.allUsings) : u.span.Fits text.toList := by
  obtain ⟨husings, hitems⟩ := row_outlines path hsize
  have hsound : u.outline.Sound text.toList := by
    rcases List.mem_append.1 hu with hu | hu
    · exact husings.sound _ (List.mem_map_of_mem hu)
    · exact Item.sound_of_mem_allUsings _ hitems.sound hu
  exact hsound.fits

/-- An attribute of a field covers a piece of the text. -/
theorem Parsed.fits_of_mem_allAttributes {d : TypeDecl}
    (hd : d ∈ Item.allTypes (ofSource path text).file.items) {f : Field} (hf : f ∈ d.fields)
    {a : Attribute} (ha : a ∈ f.allAttributes) : a.span.Fits text.toList :=
  Field.fits_of_mem_allAttributes (TypeDecl.sound_of_mem_fields
    (Item.sound_of_mem_allTypes _ (row_outlines path hsize).2.sound hd) hf) ha

end Fits

/-! ### Namespaces, one in the other -/

/-- A namespace with what has been read of its body. -/
def Item.inSpace (parts : List String) (read : List Using × List Item) : Item :=
  .namespaceDecl ⟨parts, nowhere, false, read.1, nowhere⟩ read.2

namespace Item

section Layer

variable {parts : List String} {h : NamespaceHeader} {inner : List Using × List Item}
  (hparts : h.parts ≠ []) (husings : h.usings = inner.1) (scope : Scope) (outer : Space)
include hparts husings

theorem declarations_inSpace_layer (file : Nat) :
    (inSpace parts ([], [.namespaceDecl h inner.2])).declarations file scope outer =
      (inSpace (parts ++ h.parts) inner).declarations file scope outer := by
  rw [inSpace, inSpace, declarations, declarations, allDeclarations, allDeclarations, declarations,
    List.append_nil, husings, Table.openSpace_space, Table.openSpace_append inner.1 (.inl hparts)]

theorem spaces_inSpace_layer :
    (inSpace parts ([], [.namespaceDecl h inner.2])).spaces scope outer =
      (inSpace (parts ++ h.parts) inner).spaces scope outer := by
  rw [inSpace, inSpace, spaces, spaces, allSpaces, allSpaces, spaces, List.append_nil, husings,
    Table.openSpace_space, Table.openSpace_append inner.1 (.inl hparts), List.append_assoc]

end Layer

namespace Layered

variable {read read' : List Using × List Item} {layers : List (List String)}
  (h : Layered read layers read') (hlayers : ∀ ns ∈ layers, ns ≠ [])
include h hlayers

/-- Namespaces, one in the other, declare what one with the whole name does, and open the same
namespaces. -/
theorem declarations_inSpace (scope : Scope) (outer : Space) (parts : List String) :
    (∀ file, (inSpace parts read').declarations file scope outer =
      (inSpace (parts ++ layers.flatten.map Token.unescape) read).declarations file scope outer) ∧
    (inSpace parts read').spaces scope outer =
      (inSpace (parts ++ layers.flatten.map Token.unescape) read).spaces scope outer := by
  induction h generalizing parts with
  | body =>
    rw [List.flatten_nil, List.map_nil, List.append_nil]
    exact ⟨fun _ ↦ rfl, rfl⟩
  | @layer ns layers inner h hparts husings hinner ih =>
    obtain ⟨hns, hlayers⟩ := List.forall_mem_cons.1 hlayers
    have hne : h.parts ≠ [] := by
      rw [hparts]
      exact fun hnil ↦ hns (List.map_eq_nil_iff.1 hnil)
    obtain ⟨hdeclarations, hspaces⟩ := ih hlayers (parts ++ h.parts)
    have hwhole : parts ++ (ns :: layers).flatten.map Token.unescape =
        parts ++ h.parts ++ layers.flatten.map Token.unescape := by
      rw [List.flatten_cons, List.map_append, hparts, List.append_assoc]
    rw [hwhole]
    exact ⟨fun file ↦ (declarations_inSpace_layer hne husings scope outer file).trans
      (hdeclarations file), (spaces_inSpace_layer hne husings scope outer).trans hspaces⟩

end Layered
end Item

namespace Parsed

/-- A text in one namespace, without the places where that is written. -/
def inSpace (path text : String) (name : Space) : SourceFile :=
  ⟨path, text, [],
    [Item.inSpace name ((ofSource path text).file.usings, (ofSource path text).file.items)]⟩

variable {path text source : String} {layers : List (List String)}

theorem mem_allUsings_inSpace {name : Space} {u : Using} :
    u ∈ (inSpace path text name).allUsings ↔ u ∈ (ofSource path text).file.allUsings := by
  rw [SourceFile.allUsings, SourceFile.allUsings, inSpace, Item.allUsings, Item.allUsings,
    Item.inSpace, Item.usings, List.nil_append, List.append_nil]

theorem allTypes_inSpace (name : Space) : Item.allTypes (inSpace path text name).items =
    Item.allTypes (ofSource path text).file.items := by
  rw [inSpace, Item.allTypes, Item.allTypes, Item.inSpace, Item.types, List.append_nil]

/-- A file in which a text stands in namespaces declares what the text declares in one namespace
with the whole name. -/
theorem Wraps.relocates (h : Wraps path text layers source) (hne : layers ≠ [])
    (hlayers : ∀ ns ∈ layers, ns ≠ [])
    (hsize : Text.byteLength source.toList ≤ Span.maxOffset) :
    ∃ n, SourceFile.Relocates (.moved n) (inSpace path text (layers.flatten.map Token.unescape))
      (ofSource path source).file := by
  obtain ⟨front, back, read, hsource, hnested, hfile⟩ := h.exists_read
  obtain ⟨items, rfl⟩ : ∃ items, read = ([], items) := by
    cases hnested with
    | body => exact absurd rfl hne
    | layer _ _ _ => exact ⟨_, rfl⟩
  obtain ⟨hdeclarations, hspaces⟩ := hnested.declarations_inSpace hlayers [.unit []] [] []
  have hinner : Text.byteLength text.toList ≤ Span.maxOffset := by
    rw [hsource, Text.byteLength_append, Text.byteLength_append] at hsize
    omega
  rw [hfile]
  refine ⟨Text.byteLength front, rfl, fun file ↦ ?declarations, ?spaces, rfl,
    Span.moved_injective _, fun file d hd level hlevel u hu ↦ ?usings,
    fun d hd f hf a ha ↦ ?attributes⟩
  case declarations =>
    have hmoved := Item.declarations_relocated (g := .moved (Text.byteLength front)) file
      (Item.inSpace (layers.flatten.map Token.unescape)
        ((ofSource path text).file.usings, (ofSource path text).file.items)) [.unit []] []
    rw [inSpace, SourceFile.typeDeclarations, SourceFile.typeDeclarations, Item.allDeclarations,
      Item.allDeclarations, List.append_nil, ← hmoved]
    exact hdeclarations file
  case spaces =>
    have hmoved := Item.spaces_relocated (g := .moved (Text.byteLength front))
      (Item.inSpace (layers.flatten.map Token.unescape)
        ((ofSource path text).file.usings, (ofSource path text).file.items)) [.unit []] []
    rw [inSpace, SourceFile.spaces, SourceFile.spaces, Item.allSpaces, Item.allSpaces,
      List.append_nil, ← hmoved]
    exact hspaces
  case usings =>
    exact Span.text_moved hsource (fits_of_mem_allUsings hinner
      (mem_allUsings_inSpace.1 (SourceFile.allUsings_outside hd level hlevel u hu)))
  case attributes =>
    rw [allTypes_inSpace] at hd
    exact Span.text_moved hsource (fits_of_mem_allAttributes hinner hd hf ha)

end Parsed
end Companion
