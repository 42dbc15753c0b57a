import Companion.Proofs.Field.ElementNames
import Companion.Proofs.Symbol.Nesting

/-!
What every shape of a class is made from. The variable of a shape holds an interface, or a list of
one, once question marks are dropped (`Compilation.HoldsInterface`); the interface mentions no type
parameter, the field can be assigned or, if it is readonly, is a list that is there already, and the
attributes that the shape carries are cut out of the source (`Field.Carries`). The shapes that a
class has through its base are made from the types of the base with the arguments of the base put
in, and so they are held to the same (`Compilation.serializable_of_analyze`).
-/

set_option autoImplicit false
set_option relaxedAutoImplicit false

namespace Companion

/-! ### Attributes and their texts -/

/-- A text stands in a source where a span says. -/
def Span.Covers (source : String) (s : Span) (text : String) : Prop :=
  ∃ front back, source.toList = front ++ (text.toList ++ back) ∧
    Text.byteLength front = s.start ∧
    Text.byteLength front + Text.byteLength text.toList = s.stop

section Attributes

variable {cs : List Char}

theorem Outline.Sound.row {s : Span} {rows : List (List Outline)}
    (h : (Outline.node s rows).Sound cs) {row : List Outline} (hrow : row ∈ rows) :
    Outline.Row cs s.start s.stop row := by
  cases h with
  | node _ hwithin hordered hsound =>
    constructor
    · exact hsound row hrow
    · exact hwithin row hrow
    · exact hordered row hrow

end Attributes

/-- Texts are those of the attributes of a field other than the marker, in order. As far as offsets
reach, each of them stands in the source where its attribute does, one behind the other. -/
structure Field.Carries (f : Field) (s : Settings) (source : String) (texts : List String) :
    Prop where
  each : texts = (f.allAttributes.filter fun a ↦ !s.isMarker a).map (·.span.text source)
  placed (hsize : Text.byteLength source.toList ≤ Span.maxOffset) :
    List.Forall₂ (fun a text ↦ a.span.Covers source text)
      (f.allAttributes.filter fun a ↦ !s.isMarker a) texts
  ordered (hsize : Text.byteLength source.toList ≤ Span.maxOffset) :
    f.allAttributes.Pairwise fun a b ↦ a.span.stop ≤ b.span.start

theorem Sources.getElem?_files {texts : List (String × String)} {file : Nat} {f : SourceFile}
    (h : (ofTexts texts).files[file]? = some f) :
    ∃ path source, texts[file]? = some (path, source) ∧ f = (Parsed.ofSource path source).file := by
  simp only [ofTexts, List.map_map, List.getElem?_map, Option.map_eq_some_iff] at h
  obtain ⟨⟨path, source⟩, htext, rfl⟩ := h
  exact ⟨path, source, htext, rfl⟩

namespace Compilation

/-! ### Parameters in a type -/

/-- Nothing in a type is a type parameter. -/
def Settled (t : Ty) : Prop := ∀ name owner, Ty.param name owner ∉ namesIn t

theorem settled_iff {t : Ty} : Settled t ↔ t.hasParam = false := by
  unfold Settled Ty.hasParam
  rw [← Bool.not_eq_true, anyParam_iff]
  constructor
  · rintro h ⟨name, owner, hmem, -⟩
    exact h name owner hmem
  · intro h name owner hmem
    exact h ⟨name, owner, hmem, rfl⟩

/-! ### Interfaces that a type holds -/

variable {c : Compilation}

/-- A type is that of an interface. -/
structure IsInterfaceType (c : Compilation) (t : Ty) (id : TypeId) : Prop where
  named : ∃ args, t = .named id args
  kind : (c.symbol? id).map (·.kind) = some .interfaceType

/-- Question marks apart, a type is an interface or a list of one. -/
inductive HoldsInterface (c : Compilation) (t : Ty) : Container → Ty → Prop
  | single {id : TypeId} (h : c.IsInterfaceType t.stripNullable id) :
      HoldsInterface c t .single t.stripNullable
  | list {element : Ty} {id : TypeId} (hlist : t.stripNullable = .named TypeId.list [element])
      (h : c.IsInterfaceType element.stripNullable id) :
      HoldsInterface c t .list element.stripNullable

theorem isInterfaceType_of_isInterface {id : TypeId} {args : List Ty}
    (h : c.isInterface (.named id args) = true) : c.IsInterfaceType (.named id args) id := by
  constructor
  · exact ⟨args, rfl⟩
  · exact of_decide_eq_true h

/-- In what is compiled, lists are no interfaces. -/
theorem not_isInterfaceType_list {files : List SourceFile} {t : Ty} :
    ¬ (ofFiles files).IsInterfaceType t TypeId.list := by
  rintro ⟨-, hkind⟩
  have hinitial : Table.initial.symbols[TypeId.list]?.map (·.kind) = some .classType := by decide
  rw [← (Table.isInvariant_sound.ofFiles files).known, List.getElem?_take_of_lt (by decide)]
    at hinitial
  rw [symbol?_ofFiles, Option.map_map] at hkind
  cases Option.some.inj (hkind.symm.trans hinitial)

/-- A type holds one interface, and in one way. -/
theorem HoldsInterface.unique {files : List SourceFile} {t i i' : Ty} {k k' : Container}
    (h : (ofFiles files).HoldsInterface t k i) (h' : (ofFiles files).HoldsInterface t k' i') :
    k = k' ∧ i = i' := by
  cases h with
  | single h =>
    cases h' with
    | single _ => exact ⟨rfl, rfl⟩
    | list hlist' _ =>
      obtain ⟨⟨args, hnamed⟩, -⟩ := id h
      obtain ⟨rfl, -⟩ := Ty.named.inj (hnamed.symm.trans hlist')
      exact absurd h not_isInterfaceType_list
  | list hlist h =>
    cases h' with
    | single h' =>
      obtain ⟨⟨args, hnamed⟩, -⟩ := id h'
      obtain ⟨rfl, -⟩ := Ty.named.inj (hnamed.symm.trans hlist)
      exact absurd h' not_isInterfaceType_list
    | list hlist' _ =>
      obtain ⟨-, hargs⟩ := Ty.named.inj (hlist.symm.trans hlist')
      obtain ⟨rfl, -⟩ := List.cons.inj hargs
      exact ⟨rfl, rfl⟩

/-- A type whose element is taken holds that element as an interface in which no parameter
occurs. -/
theorem holdsInterface_of_elementOf {t element : Ty} {container : Container}
    (h : c.elementOf t = .ok (container, element)) :
    c.HoldsInterface t container element ∧ Settled element := by
  have hsettled := hasParam_of_elementOf h
  unfold elementOf at h
  split at h
  rename_i container' element' heq
  have hparam := hasParam_of_element heq
  rw [hsettled] at hparam
  cases element' with
  | named id args =>
    dsimp only at h
    split_ifs at h with hinterface _
    obtain ⟨rfl, rfl⟩ := Prod.mk.inj (Except.ok.inj h)
    rw [Bool.not_eq_true', Bool.not_eq_false] at hinterface
    refine ⟨?_, settled_iff.mpr hparam⟩
    have htype := isInterfaceType_of_isInterface hinterface
    cases hlist : c.listElement t with
    | some e =>
      rw [hlist] at heq
      obtain ⟨rfl, he⟩ := Prod.mk.inj heq
      rw [← he] at htype ⊢
      refine .list ?_ htype
      unfold listElement at hlist
      split at hlist
      · rename_i listId arg hstrip
        split_ifs at hlist with hid
        rw [hstrip, hid, Option.some.inj hlist]
      · cases hlist
    | none =>
      rw [hlist] at heq
      obtain ⟨rfl, ht⟩ := Prod.mk.inj heq
      rw [← ht] at htype ⊢
      exact .single htype
  | _ => cases h

/-! ### What a shape is made from -/

variable {texts : List (String × String)} {s : Settings} {id : TypeId} {v : MarkedVariable}
  {shape : FieldShape}

/-- What is inherited from a base: a variable of the base that derived types see, with a type that
mentions a parameter of the base. -/
structure Inherits (c : Compilation) (s : Settings) (id : TypeId) (base : Ty) (owner : TypeId)
    (v : MarkedVariable) : Prop where
  extended : c.base? id = some base
  /-- The base is generic and has all its arguments. -/
  closed : (∃ args, args ≠ [] ∧ base = .named owner args) ∧ Settled base
  declared : v ∈ c.markedVariables s owner
  visible : .publicAccess ∈ v.field.modifiers ∨ .protectedAccess ∈ v.field.modifiers ∨
    .internalAccess ∈ v.field.modifiers
  mentions : ∃ name, Ty.param name owner ∈ namesIn (v.site.fieldType c v.field)

theorem visible_iff {ms : List Modifier} : Modifier.visibleToDerived ms = true ↔
    .publicAccess ∈ ms ∨ .protectedAccess ∈ ms ∨ .internalAccess ∈ ms := by
  unfold Modifier.visibleToDerived
  rw [List.any_eq_true]
  constructor
  · rintro ⟨m, hm, h⟩
    simp only [Bool.or_eq_true, decide_eq_true_eq] at h
    rcases h with (rfl | rfl) | rfl
    · exact .inl hm
    · exact .inr (.inl hm)
    · exact .inr (.inr hm)
  · rintro (hm | hm | hm)
    · exact ⟨_, hm, rfl⟩
    · exact ⟨_, hm, rfl⟩
    · exact ⟨_, hm, rfl⟩

theorem closed_of_isClosedGeneric {base : Ty} {owner : TypeId} (hid : base.id? = some owner)
    (h : base.isClosedGeneric = true) :
    (∃ args, args ≠ [] ∧ base = .named owner args) ∧ Settled base := by
  cases base with
  | named other args =>
    obtain rfl := Option.some.inj hid
    simp only [Ty.isClosedGeneric, Bool.and_eq_true, Bool.not_eq_true', List.isEmpty_eq_false_iff]
      at h
    exact ⟨⟨args, h.1, rfl⟩, settled_iff.mpr h.2⟩
  | _ => cases hid

/-- The variables of inherited shapes are those of the base that a class inherits. -/
theorem inherits_of_mem_inheritedBackings {c : Compilation} {base : Ty} {owner : TypeId}
    (hclosed : c.closedBase? id = some (owner, base)) (h : (v, shape) ∈ c.inheritedBackings s id) :
    c.Inherits s id base owner v := by
  obtain ⟨hbase, hid, hgeneric⟩ := closedBase?_eq_some_iff.mp hclosed
  obtain ⟨⟨owner', hderives, hv, hmentions⟩, -⟩ := of_mem_inheritedBackings h
  obtain rfl : owner' = owner := hderives.unique (derivesFrom_of_base? hbase hid)
  obtain ⟨name, o, hmem, ho⟩ := (anyParam_iff _).mp hmentions
  obtain rfl : o = owner' := beq_iff_eq.mp ho
  refine ⟨hbase, closed_of_isClosedGeneric hid hgeneric, hv, ?_, name, hmem⟩
  obtain ⟨-, -, hkept⟩ := (mem_inheritedBackings_iff hclosed).mp h
  rw [← visible_iff]
  by_contra hhidden
  unfold inherit at hkept
  rw [Bool.not_eq_true] at hhidden
  rw [hhidden] at hkept
  cases hkept

end Compilation
end Companion
