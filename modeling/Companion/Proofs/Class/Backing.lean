import Companion.Proofs.Class.Ancestry
import Companion.Proofs.Field.Outcome
import Mathlib.Data.List.Flatten
import Mathlib.Data.List.Nodup

/-!
Which class makes the backing field of a variable. A class makes those of its own variables whose
types are settled, and those of the variables of its direct base whose types mention parameters of
that base. The two tests exclude each other for every type, and the classes of a chain have
different direct bases; so along a chain a variable of a marked field is backed once at most
(`Compilation.backedOnce_ancestors`). A variable is known by the type that declares it and by its
number among the variables there; as far as offsets reach, it is also told apart from all others by
its file and its place there (`Compilation.eq_of_place`).
-/

set_option autoImplicit false
set_option relaxedAutoImplicit false

namespace Companion

/-- A variable of a marked field, where it is declared. -/
structure MarkedVariable where
  site : Site
  field : Field
  declarator : Declarator

/-- The file of a variable, and where its name starts there. -/
def MarkedVariable.place (v : MarkedVariable) : Nat × Nat :=
  (v.site.file, v.declarator.nameSpan.start)

/-- The shape of an inherited variable, if it gets a backing field. -/
def Inheritance.shape? : Inheritance → Option FieldShape
  | kept field => some field.shape
  | _ => none

/-- What is left of a list after a choice, with what is chosen forgotten, is a part of it. -/
private theorem map_fst_filterMap_sublist {α β γ : Type} (v : α → β) (choice : α → Option γ) :
    ∀ l : List α,
      ((l.filterMap fun a ↦ (choice a).map (Prod.mk (v a))).map Prod.fst).Sublist (l.map v)
  | [] => .slnil
  | a :: l => by
    have ih := map_fst_filterMap_sublist v choice l
    cases hchoice : choice a with
    | none => simpa [hchoice] using ih.cons (v a)
    | some b => simpa [hchoice] using ih

namespace Compilation

variable {c : Compilation} {s : Settings} {id owner : TypeId} {v : MarkedVariable}

/-! ### Shapes and their variables -/

/-- The variables of the marked fields of a type. -/
def markedVariables (c : Compilation) (s : Settings) (id : TypeId) : List MarkedVariable :=
  match c.symbol? id with
  | none => []
  | some symbol =>
    symbol.sites.flatMap fun site ↦
      (site.markedFields s).flatMap fun f ↦ f.declarators.map fun d ↦ ⟨site, f, d⟩

/-- The shapes of the marked fields of a type, with the variables that they are made for. -/
def ownBackings (c : Compilation) (s : Settings) (id : TypeId) :
    List (MarkedVariable × FieldShape) :=
  match c.symbol? id with
  | none => []
  | some symbol =>
    (symbol.ownOutcomes c s).filterMap fun (site, f, d, outcome) ↦
      outcome.toOption.map (Prod.mk ⟨site, f, d⟩)

/-- The shapes of inherited fields of a type, with the variables that they are made for. -/
def inheritedBackings (c : Compilation) (s : Settings) (id : TypeId) :
    List (MarkedVariable × FieldShape) :=
  match c.closedBase? id with
  | none => []
  | some (baseId, base) =>
    (c.openFields s baseId).flatMap fun (site, f) ↦
      f.declarators.filterMap fun d ↦
        (c.inherit s base site f d).shape?.map (Prod.mk ⟨site, f, d⟩)

/-- The variables of the marked fields of a type whose types mention its parameters. -/
def openVariables (c : Compilation) (s : Settings) (id : TypeId) : List MarkedVariable :=
  (c.markedVariables s id).filter fun v ↦ (v.site.fieldType c v.field).mentionsParamsOf id

/-- What becomes of a variable of a marked field of a type, its name compared with those of the
type's fields. -/
def outcomeOf (c : Compilation) (s : Settings) (symbol : Symbol) (v : MarkedVariable) :
    Except SkipReason FieldShape :=
  Symbol.withoutClash symbol.fieldNames (v.field.classify c s v.site.file v.declarator
    (v.site.fieldType c v.field))

/-- What becomes of a variable of a marked field of the direct base of a type. -/
def inheritedShape? (c : Compilation) (s : Settings) (owner : TypeId) (base : Ty)
    (v : MarkedVariable) : Option FieldShape :=
  if (v.site.fieldType c v.field).mentionsParamsOf owner then
    (c.inherit s base v.site v.field v.declarator).shape?
  else none

theorem mem_markedVariables_iff {symbol : Symbol} (hsymbol : c.symbol? id = some symbol) :
    v ∈ c.markedVariables s id ↔ v.site ∈ symbol.sites ∧ v.field ∈ v.site.markedFields s ∧
      v.declarator ∈ v.field.declarators := by
  simp only [markedVariables, hsymbol, List.mem_flatMap, List.mem_map]
  constructor
  · rintro ⟨site, hsite, f, hf, d, hd, rfl⟩
    exact ⟨hsite, hf, hd⟩
  · rintro ⟨hsite, hf, hd⟩
    exact ⟨v.site, hsite, v.field, hf, v.declarator, hd, rfl⟩

theorem exists_symbol_of_mem_markedVariables (h : v ∈ c.markedVariables s id) :
    ∃ symbol, c.symbol? id = some symbol := by
  cases hsymbol : c.symbol? id with
  | none => simp [markedVariables, hsymbol] at h
  | some symbol => exact ⟨symbol, rfl⟩

/-- Outcomes are those of the variables of marked fields, in order. -/
theorem ownOutcomes_eq {symbol : Symbol} (hsymbol : c.symbol? id = some symbol) (s : Settings) :
    symbol.ownOutcomes c s = (c.markedVariables s id).map fun v ↦
      (v.site, v.field, v.declarator, c.outcomeOf s symbol v) := by
  simp only [Symbol.ownOutcomes, markedVariables, hsymbol, Site.classify, List.map_flatMap,
    List.map_map]
  rfl

theorem ownBackings_eq {symbol : Symbol} (hsymbol : c.symbol? id = some symbol) (s : Settings) :
    c.ownBackings s id = (c.markedVariables s id).filterMap fun v ↦
      (c.outcomeOf s symbol v).toOption.map (Prod.mk v) := by
  simp only [ownBackings, hsymbol]
  rw [ownOutcomes_eq hsymbol, List.filterMap_map]
  rfl

variable {base : Ty}

theorem openVariables_eq (c : Compilation) (s : Settings) (id : TypeId) :
    c.openVariables s id = (c.openFields s id).flatMap fun (site, f) ↦
      f.declarators.map fun d ↦ ⟨site, f, d⟩ := by
  cases hsymbol : c.symbol? id with
  | none => simp [openFields, openVariables, markedVariables, hsymbol]
  | some symbol =>
    simp only [openFields, openVariables, markedVariables, hsymbol, List.flatMap_assoc,
      List.flatMap_map, List.filter_flatMap]
    refine List.flatMap_congr fun site _ ↦ ?_
    induction site.markedFields s with
    | nil => rfl
    | cons f fs ih =>
      rw [List.flatMap_cons, ih, List.filter_cons]
      by_cases hopen : (site.fieldType c f).mentionsParamsOf id = true <;>
        simp [hopen, List.filter_map, Function.comp_def]

theorem inheritances_eq (hclosed : c.closedBase? id = some (owner, base)) :
    c.inheritances s id = (c.openVariables s owner).map fun v ↦
      (v.site, c.inherit s base v.site v.field v.declarator) := by
  simp only [inheritances, hclosed, openVariables_eq, List.map_flatMap, List.map_map,
    Function.comp_def]

theorem inheritedBackings_eq (hclosed : c.closedBase? id = some (owner, base)) :
    c.inheritedBackings s id = (c.openVariables s owner).filterMap fun v ↦
      (c.inherit s base v.site v.field v.declarator).shape?.map (Prod.mk v) := by
  simp only [inheritedBackings, hclosed, openVariables_eq, List.filterMap_flatMap,
    List.filterMap_map, Function.comp_def]

/-- The shapes that analysis finds are those of the variables. -/
theorem map_backings_of_analyze {a : ClassAnalysis} {reports : List Diagnostic}
    (h : c.analyze s id = some (a, reports)) :
    (c.ownBackings s id).map Prod.snd = a.ownShapes ∧
      (c.inheritedBackings s id).map Prod.snd = a.inherited.map (·.shape) := by
  obtain ⟨symbol, hsymbol, hanalysis⟩ := Option.map_eq_some_iff.mp h
  obtain ⟨rfl, -⟩ := Prod.mk.inj hanalysis
  constructor
  · show _ = symbol.ownShapes c s
    simp only [ownBackings, hsymbol, Symbol.ownShapes, List.map_filterMap, Option.map_map]
    congr 1
    funext p
    obtain ⟨site, f, d, outcome⟩ := p
    cases outcome <;> rfl
  · show _ = (c.inheritedFields s id).map (·.shape)
    rw [inheritedFields]
    cases hclosed : c.closedBase? id with
    | none => simp [inheritedBackings, inheritances, hclosed]
    | some closed =>
      rw [inheritedBackings_eq hclosed, inheritances_eq hclosed, List.filterMap_map,
        List.map_filterMap, List.map_filterMap]
      refine List.filterMap_congr fun v _ ↦ ?_
      simp only [Function.comp_apply, Option.map_map]
      cases c.inherit s closed.2 v.site v.field v.declarator <;> rfl

variable {shape : FieldShape}

/-- An own shape is what an own variable is classified as. -/
theorem classify_of_mem_ownBackings (h : (v, shape) ∈ c.ownBackings s id) :
    v ∈ c.markedVariables s id ∧
      v.field.classify c s v.site.file v.declarator (v.site.fieldType c v.field) = .ok shape := by
  cases hsymbol : c.symbol? id with
  | none => simp [ownBackings, hsymbol] at h
  | some symbol =>
    simp only [ownBackings, hsymbol, List.mem_filterMap, Option.map_eq_some_iff] at h
    obtain ⟨⟨site, f, d, outcome⟩, hmem, shape', houtcome, heq⟩ := h
    obtain ⟨rfl, rfl⟩ := Prod.mk.inj heq
    obtain ⟨hsite, hf, hd, rfl⟩ := mem_ownOutcomes_iff.mp hmem
    exact ⟨(mem_markedVariables_iff hsymbol).mpr ⟨hsite, hf, hd⟩, ok_of_withoutClash houtcome⟩

/-- An own shape is that of an own variable, whose type is settled. -/
theorem of_mem_ownBackings {b : MarkedVariable × FieldShape} (h : b ∈ c.ownBackings s id) :
    b.1 ∈ c.markedVariables s id ∧ (b.1.site.fieldType c b.1.field).hasParam = false ∧
      b.2.fieldName = b.1.declarator.name ∧ b.2.span = b.1.declarator.nameSpan := by
  obtain ⟨hv, hshape⟩ := classify_of_mem_ownBackings h
  exact ⟨hv, hasParam_of_classify hshape, shape_of_classify hshape⟩

/-- An inherited shape is that of a variable of an open field of the base. -/
theorem mem_inheritedBackings_iff (hclosed : c.closedBase? id = some (owner, base)) :
    (v, shape) ∈ c.inheritedBackings s id ↔ (v.site, v.field) ∈ c.openFields s owner ∧
      v.declarator ∈ v.field.declarators ∧
      (c.inherit s base v.site v.field v.declarator).shape? = some shape := by
  simp only [inheritedBackings, hclosed, List.mem_flatMap, List.mem_filterMap,
    Option.map_eq_some_iff]
  constructor
  · rintro ⟨⟨site, f⟩, hf, d, hd, shape', hkept, heq⟩
    obtain ⟨rfl, rfl⟩ := Prod.mk.inj heq
    exact ⟨hf, hd, hkept⟩
  · rintro ⟨hf, hd, hkept⟩
    exact ⟨(v.site, v.field), hf, v.declarator, hd, shape, hkept, rfl⟩

/-- An inherited shape is what a variable is classified as with the arguments of the base. -/
theorem classify_of_mem_inheritedBackings (hclosed : c.closedBase? id = some (owner, base))
    (h : (v, shape) ∈ c.inheritedBackings s id) :
    v.field.classify c s v.site.file v.declarator
      (c.substituteBase base (v.site.fieldType c v.field)) = .ok shape := by
  obtain ⟨-, -, hkept⟩ := (mem_inheritedBackings_iff hclosed).mp h
  rcases inherit_cases c s base v.site v.field v.declarator with hhidden |
    ⟨field, hfield, hclassify⟩ | ⟨reason, hskipped, -⟩
  · rw [hhidden] at hkept
    cases hkept
  · rw [hfield] at hkept
    obtain rfl := Option.some.inj hkept
    exact hclassify
  · rw [hskipped] at hkept
    cases hkept

/-- An inherited shape is that of a variable of the direct base, whose type mentions parameters of
that base. -/
theorem of_mem_inheritedBackings {b : MarkedVariable × FieldShape}
    (h : b ∈ c.inheritedBackings s id) :
    (∃ owner, c.DerivesFrom id owner ∧ b.1 ∈ c.markedVariables s owner ∧
      (b.1.site.fieldType c b.1.field).mentionsParamsOf owner = true) ∧
    b.2.fieldName = b.1.declarator.name ∧ b.2.span = b.1.declarator.nameSpan := by
  cases hclosed : c.closedBase? id with
  | none => simp [inheritedBackings, hclosed] at h
  | some closed =>
    obtain ⟨owner, base⟩ := closed
    obtain ⟨hf, hd, -⟩ := (mem_inheritedBackings_iff hclosed).mp h
    obtain ⟨symbol, hsymbol⟩ : ∃ symbol, c.symbol? owner = some symbol := by
      cases hsymbol : c.symbol? owner with
      | none => simp [openFields, hsymbol] at hf
      | some symbol => exact ⟨symbol, rfl⟩
    obtain ⟨hsite, hmarked, hopen⟩ := (mem_openFields_iff hsymbol).mp hf
    have hv : b.1 ∈ c.markedVariables s owner :=
      (mem_markedVariables_iff hsymbol).mpr ⟨hsite, hmarked, hd⟩
    exact ⟨⟨owner, derivesFrom_of_closedBase? hclosed, hv, hopen⟩,
      shape_of_classify (classify_of_mem_inheritedBackings hclosed h)⟩

/-! ### Every variable once -/

/-- Own shapes are made for own variables, in order. -/
theorem ownBackings_sublist (c : Compilation) (s : Settings) (id : TypeId) :
    ((c.ownBackings s id).map Prod.fst).Sublist (c.markedVariables s id) := by
  cases hsymbol : c.symbol? id with
  | none => simp [ownBackings, hsymbol]
  | some symbol =>
    rw [ownBackings_eq hsymbol]
    simpa using map_fst_filterMap_sublist (fun v ↦ v) (fun v ↦ (c.outcomeOf s symbol v).toOption)
      (c.markedVariables s id)

/-- Inherited shapes are made for variables of the direct base, in order. -/
theorem inheritedBackings_sublist (s : Settings) (hclosed : c.closedBase? id = some (owner, base)) :
    ((c.inheritedBackings s id).map Prod.fst).Sublist (c.markedVariables s owner) := by
  have hopen : (c.openVariables s owner).Sublist (c.markedVariables s owner) := List.filter_sublist
  rw [inheritedBackings_eq hclosed]
  refine .trans ?_ hopen
  simpa using map_fst_filterMap_sublist (fun v ↦ v)
    (fun v ↦ (c.inherit s base v.site v.field v.declarator).shape?) (c.openVariables s owner)

section Files

variable {files : List SourceFile}
  (hplaces : ∀ f ∈ files, ((Item.allTypes f.items).flatMap TypeDecl.fieldStarts).Nodup)
include hplaces

/-- No two variables of a type share a place. -/
theorem nodup_places_markedVariables (s : Settings) (id : TypeId) :
    (((ofFiles files).markedVariables s id).map MarkedVariable.place).Nodup := by
  cases hsymbol : (ofFiles files).symbol? id with
  | none => simp [markedVariables, hsymbol]
  | some symbol =>
    have hmem : symbol ∈ (ofFiles files).table.symbols := List.mem_of_getElem? hsymbol
    have hnodup := (List.nodup_flatMap.mp (nodup_sites TypeDecl.fieldStarts hplaces)).1 symbol hmem
    refine hnodup.sublist ?_
    simp only [markedVariables, hsymbol, List.map_flatMap, List.map_map, TypeDecl.fieldStarts,
      Field.starts]
    refine List.Sublist.flatMap_right _ fun site _ ↦ ?_
    exact List.filter_sublist.flatMap _

/-- Variables of marked fields that share a place are one variable of one type. -/
theorem eq_of_place {id' : TypeId} {v' : MarkedVariable}
    (hv : v ∈ (ofFiles files).markedVariables s id)
    (hv' : v' ∈ (ofFiles files).markedVariables s id') (h : v.place = v'.place) :
    id = id' ∧ v = v' := by
  obtain ⟨symbol, hsymbol⟩ := exists_symbol_of_mem_markedVariables hv
  obtain ⟨symbol', hsymbol'⟩ := exists_symbol_of_mem_markedVariables hv'
  obtain ⟨hsite, hf, hd⟩ := (mem_markedVariables_iff hsymbol).mp hv
  obtain ⟨hsite', hf', hd'⟩ := (mem_markedVariables_iff hsymbol').mp hv'
  obtain ⟨hfile, hstart⟩ := Prod.mk.inj h
  have hmem' := mem_fieldStarts hf' hd'
  rw [← hstart] at hmem'
  obtain rfl := eq_of_mem_sites hplaces hsymbol hsymbol' hsite hsite' hfile
    (mem_fieldStarts hf hd) hmem'
  exact ⟨rfl, List.inj_on_of_nodup_map (nodup_places_markedVariables hplaces s id) hv hv' h⟩

/-- Variables at one place have one number. -/
theorem number_eq_of_place {owner' : TypeId} {n n' : Nat} {v' : MarkedVariable}
    (hv : ((ofFiles files).markedVariables s owner)[n]? = some v)
    (hv' : ((ofFiles files).markedVariables s owner')[n']? = some v') (h : v'.place = v.place) :
    (owner', n') = (owner, n) := by
  obtain ⟨rfl, rfl⟩ := eq_of_place hplaces (List.mem_of_getElem? hv') (List.mem_of_getElem? hv) h
  have hnodup := (nodup_places_markedVariables hplaces s owner').of_map
  obtain ⟨hlt, -⟩ := List.getElem?_eq_some_iff.mp hv'
  exact Prod.ext rfl ((List.getElem?_inj hlt hnodup).mp (hv'.trans hv.symm))

end Files

/-! ### Numbers of variables -/

/-- What is chosen for the elements of a list, each with its number. -/
def numbered {α β : Type} (owner : TypeId) (choice : α → Option β) (l : List α) :
    List ((TypeId × Nat) × β) :=
  l.zipIdx.filterMap fun (a, n) ↦ (choice a).map (Prod.mk (owner, n))

section Numbered

variable {α β : Type} {choice : α → Option β} {l : List α}

theorem map_snd_numbered : (numbered owner choice l).map Prod.snd = l.filterMap choice := by
  have hsnd (p : α × Nat) :
      ((choice p.1).map (Prod.mk (owner, p.2))).map Prod.snd = choice p.1 := by
    cases choice p.1 <;> rfl
  simp only [numbered, List.map_filterMap, hsnd]
  rw [show (fun p : α × Nat ↦ choice p.1) = choice ∘ Prod.fst from rfl, ← List.filterMap_map,
    List.zipIdx_map_fst]

theorem nodup_numbered : ((numbered owner choice l).map Prod.fst).Nodup := by
  refine List.Nodup.sublist (map_fst_filterMap_sublist (fun p ↦ (owner, p.2)) (fun p ↦ choice p.1)
    l.zipIdx) ?_
  refine List.Nodup.of_map Prod.snd ?_
  rw [List.map_map, show Prod.snd ∘ (fun p : α × Nat ↦ (owner, p.2)) = Prod.snd from rfl,
    List.zipIdx_map_snd]
  exact List.nodup_range'

theorem mem_numbered_iff {owner' : TypeId} {n : Nat} {b : β} :
    ((owner', n), b) ∈ numbered owner choice l ↔
      owner' = owner ∧ ∃ a, l[n]? = some a ∧ choice a = some b := by
  simp only [numbered, List.mem_filterMap, Option.map_eq_some_iff, Prod.mk.injEq, Prod.exists,
    List.mk_mem_zipIdx_iff_getElem?]
  constructor
  · rintro ⟨a, n', ha, b', hb, ⟨rfl, rfl⟩, rfl⟩
    exact ⟨rfl, a, ha, hb⟩
  · rintro ⟨rfl, a, ha, hb⟩
    exact ⟨a, n, ha, b, hb, ⟨rfl, rfl⟩, rfl⟩

end Numbered

/-- The own shapes of a type, each with the variable it is made for: the type that declares the
variable, and the number of the variable there. -/
def ownNumbered (c : Compilation) (s : Settings) (id : TypeId) :
    List ((TypeId × Nat) × FieldShape) :=
  match c.symbol? id with
  | none => []
  | some symbol =>
    numbered id (fun v ↦ (c.outcomeOf s symbol v).toOption) (c.markedVariables s id)

/-- The inherited shapes of a type, each with the variable it is made for. -/
def inheritedNumbered (c : Compilation) (s : Settings) (id : TypeId) :
    List ((TypeId × Nat) × FieldShape) :=
  match c.closedBase? id with
  | none => []
  | some (owner, base) => numbered owner (c.inheritedShape? s owner base)
    (c.markedVariables s owner)

/-- All shapes of a type, each with the variable it is made for. -/
def allNumbered (c : Compilation) (s : Settings) (id : TypeId) :
    List ((TypeId × Nat) × FieldShape) :=
  c.ownNumbered s id ++ c.inheritedNumbered s id

/-- The variables that types make backing fields for. -/
def backed (c : Compilation) (s : Settings) (ids : List TypeId) : List (TypeId × Nat) :=
  ids.flatMap fun id ↦ (c.allNumbered s id).map Prod.fst

theorem map_ownNumbered (c : Compilation) (s : Settings) (id : TypeId) :
    (c.ownNumbered s id).map Prod.snd = (c.ownBackings s id).map Prod.snd := by
  cases hsymbol : c.symbol? id with
  | none => simp [ownNumbered, ownBackings, hsymbol]
  | some symbol =>
    simp only [ownNumbered, hsymbol, map_snd_numbered, ownBackings_eq hsymbol, List.map_filterMap,
      Option.map_map, Function.comp_def, Option.map_id']

theorem map_inheritedNumbered (c : Compilation) (s : Settings) (id : TypeId) :
    (c.inheritedNumbered s id).map Prod.snd = (c.inheritedBackings s id).map Prod.snd := by
  cases hclosed : c.closedBase? id with
  | none => simp [inheritedNumbered, inheritedBackings, hclosed]
  | some closed =>
    obtain ⟨owner, base⟩ := closed
    simp only [inheritedNumbered, hclosed, map_snd_numbered, inheritedBackings_eq hclosed,
      List.map_filterMap, openVariables, List.filterMap_filter]
    refine List.filterMap_congr fun v _ ↦ ?_
    rw [inheritedShape?]
    split
    · cases (c.inherit s base v.site v.field v.declarator).shape? <;> rfl
    · rfl

variable {n : Nat}

/-- A type backs a variable as its own only if it declares it, with a settled type. -/
theorem of_mem_ownNumbered (h : ((owner, n), shape) ∈ c.ownNumbered s id) :
    owner = id ∧ ∃ v, (c.markedVariables s id)[n]? = some v ∧ (v, shape) ∈ c.ownBackings s id := by
  cases hsymbol : c.symbol? id with
  | none => simp [ownNumbered, hsymbol] at h
  | some symbol =>
    simp only [ownNumbered, hsymbol, mem_numbered_iff] at h
    obtain ⟨rfl, v, hv, hshape⟩ := h
    refine ⟨rfl, v, hv, ?_⟩
    rw [ownBackings_eq hsymbol]
    exact List.mem_filterMap.mpr ⟨v, List.mem_of_getElem? hv, by rw [hshape]; rfl⟩

/-- A type backs a variable as inherited only if its direct base declares it. -/
theorem of_mem_inheritedNumbered (h : ((owner, n), shape) ∈ c.inheritedNumbered s id) :
    c.DerivesFrom id owner ∧ ∃ v, (c.markedVariables s owner)[n]? = some v ∧
      (v, shape) ∈ c.inheritedBackings s id := by
  cases hclosed : c.closedBase? id with
  | none => simp [inheritedNumbered, hclosed] at h
  | some closed =>
    simp only [inheritedNumbered, hclosed, mem_numbered_iff] at h
    obtain ⟨rfl, v, hv, hshape⟩ := h
    refine ⟨derivesFrom_of_closedBase? hclosed, v, hv, ?_⟩
    rw [inheritedShape?] at hshape
    split at hshape
    · rename_i hopen
      rw [inheritedBackings_eq hclosed]
      exact List.mem_filterMap.mpr ⟨v, List.mem_filter.mpr ⟨List.mem_of_getElem? hv, hopen⟩,
        by rw [hshape]; rfl⟩
    · cases hshape

/-! ### Every variable once -/

/-- Among some classes, the variable of a marked field that `owner` declares with the number `n` is
backed once at most: by `owner` itself, or by a class that is derived from `owner` directly. -/
structure BackedOnce (c : Compilation) (s : Settings) (ids : List TypeId) (owner : TypeId) (n : Nat)
    (v : MarkedVariable) : Prop where
  once : (c.backed s ids).count (owner, n) ≤ 1
  own : ∀ id ∈ ids, ∀ b ∈ c.ownNumbered s id, b.1 = (owner, n) → id = owner
  inherited : ∀ id ∈ ids, ∀ b ∈ c.inheritedNumbered s id, b.1 = (owner, n) → c.DerivesFrom id owner
  /-- What is counted are the shapes that analysis finds. -/
  shapes : ∀ id ∈ ids, ∀ a reports, c.analyze s id = some (a, reports) →
    (c.ownNumbered s id).map Prod.snd = a.ownShapes ∧
      (c.inheritedNumbered s id).map Prod.snd = a.inherited.map (·.shape)
  /-- Each shape is that of the variable it is counted for. -/
  named : ∀ id ∈ ids, ∀ b ∈ c.allNumbered s id, b.1 = (owner, n) →
    b.2.fieldName = v.declarator.name ∧ b.2.span = v.declarator.nameSpan
  /-- As far as offsets reach, its place tells the variable apart from all others. -/
  placed : (∀ f ∈ c.files, Text.byteLength f.source.toList ≤ Span.maxOffset) →
    ∀ owner' n' v', (c.markedVariables s owner')[n']? = some v' → v'.place = v.place →
      (owner', n') = (owner, n)

/-- No class backs a variable as its own that a class of the same chain backs as inherited: its type
would be settled, and mention parameters. -/
theorem not_mem_inheritedNumbered {below : TypeId} {shape' : FieldShape}
    (h : ((owner, n), shape) ∈ c.ownNumbered s id) :
    ((owner, n), shape') ∉ c.inheritedNumbered s below := by
  intro hinherited
  obtain ⟨rfl, v, hv, hown⟩ := of_mem_ownNumbered h
  obtain ⟨hderives, v', hv', hmade⟩ := of_mem_inheritedNumbered hinherited
  obtain rfl := Option.some.inj (hv.symm.trans hv')
  obtain ⟨⟨owner', hderives', -, hmentions⟩, -⟩ := of_mem_inheritedBackings hmade
  obtain rfl := hderives.unique hderives'
  have hsettled := (of_mem_ownBackings hown).2.1
  rw [Ty.hasParam_of_mentionsParamsOf hmentions] at hsettled
  cases hsettled

/-- One class makes at most one backing field for a variable. -/
theorem nodup_allNumbered (c : Compilation) (s : Settings) (id : TypeId) :
    ((c.allNumbered s id).map Prod.fst).Nodup := by
  rw [allNumbered, List.map_append]
  refine List.nodup_append.mpr ⟨?own, ?inherited, ?apart⟩
  case own =>
    rw [ownNumbered]
    split
    · exact List.nodup_nil
    · exact nodup_numbered
  case inherited =>
    rw [inheritedNumbered]
    split
    · exact List.nodup_nil
    · exact nodup_numbered
  case apart =>
    intro x hown x' hinherited heq
    obtain ⟨⟨y, shape⟩, hb, rfl⟩ := List.mem_map.mp hown
    obtain ⟨⟨y', shape'⟩, hb', rfl⟩ := List.mem_map.mp hinherited
    obtain rfl : y = y' := heq
    exact not_mem_inheritedNumbered hb hb'

/-- A class and one that it is derived from make backing fields for different variables. -/
theorem disjoint_allNumbered (hacyclic : c.AcyclicBases) {above : TypeId}
    (hbelow : c.IsBelow id above) :
    List.Disjoint ((c.allNumbered s id).map Prod.fst) ((c.allNumbered s above).map Prod.fst) := by
  intro x hx hx'
  obtain ⟨⟨⟨owner, n⟩, shape⟩, hb, rfl⟩ := List.mem_map.mp hx
  obtain ⟨⟨⟨owner', n'⟩, shape'⟩, hb', heq⟩ := List.mem_map.mp hx'
  obtain ⟨rfl, rfl⟩ := Prod.mk.inj heq
  rcases List.mem_append.mp hb with hown | hinherited
  · rcases List.mem_append.mp hb' with hown' | hinherited'
    · have hsame := (of_mem_ownNumbered hown).1.symm.trans (of_mem_ownNumbered hown').1
      exact hacyclic above (hsame ▸ hbelow)
    · exact not_mem_inheritedNumbered hown hinherited'
  · rcases List.mem_append.mp hb' with hown' | hinherited'
    · exact not_mem_inheritedNumbered hown' hinherited
    · exact hbelow.not_derivesFrom hacyclic (of_mem_inheritedNumbered hinherited).1
        (of_mem_inheritedNumbered hinherited').1

/-- Along a chain of classes, no variable is backed twice. -/
theorem nodup_backed (hacyclic : c.AcyclicBases) (s : Settings) (id : TypeId) :
    (c.backed s (id :: c.ancestors id)).Nodup := by
  rw [backed, List.nodup_flatMap]
  exact ⟨fun x _ ↦ nodup_allNumbered c s x, (baseChain_ancestors hacyclic id).pairwise.imp
    fun hbelow ↦ disjoint_allNumbered hacyclic hbelow⟩

/-- Where no type is its own base, a class and those above it back a variable of a marked field once
at most, whichever type declares it. -/
theorem backedOnce_ancestors {texts : List (String × String)} {n : Nat}
    (hacyclic : (ofFiles (Sources.ofTexts texts).files).AcyclicBases)
    (hv : ((ofFiles (Sources.ofTexts texts).files).markedVariables s owner)[n]? = some v) :
    (ofFiles (Sources.ofTexts texts).files).BackedOnce s
      (id :: (ofFiles (Sources.ofTexts texts).files).ancestors id) owner n v where
  once := List.nodup_iff_count_le_one.mp (nodup_backed hacyclic s id) (owner, n)
  own := by
    rintro x - ⟨-, shape⟩ hb rfl
    exact (of_mem_ownNumbered hb).1.symm
  inherited := by
    rintro x - ⟨-, shape⟩ hb rfl
    exact (of_mem_inheritedNumbered hb).1
  shapes _ _ _ _ h := by
    rw [map_ownNumbered, map_inheritedNumbered]
    exact map_backings_of_analyze h
  named := by
    rintro x - ⟨-, shape⟩ hb rfl
    rcases List.mem_append.mp hb with hown | hinherited
    · obtain ⟨rfl, v', hv', hmade⟩ := of_mem_ownNumbered hown
      obtain rfl := Option.some.inj (hv'.symm.trans hv)
      exact (of_mem_ownBackings hmade).2.2
    · obtain ⟨-, v', hv', hmade⟩ := of_mem_inheritedNumbered hinherited
      obtain rfl := Option.some.inj (hv'.symm.trans hv)
      exact (of_mem_inheritedBackings hmade).2
  placed hsizes owner' n' v' hv' h :=
    number_eq_of_place (Sources.nodup_fieldStarts (Sources.inReach_of_files hsizes)) hv hv' h

/-- A generic class with an open field and a settled one, a class that settles it, and one below. -/
private def backedSource : String :=
  "interface I<T>{}" ++
  "class P<T>{[SerializeInterface]protected I<T> f;[SerializeInterface]I<int> g;}" ++
  "class C:P<int>{}" ++
  "class D:C{}"

private def backedTexts : List (String × String) := [("Backed.cs", backedSource)]

private abbrev backedFiles : List SourceFile := (Sources.ofTexts backedTexts).files

private theorem backed_facts :
    (∀ id < (ofFiles backedFiles).table.symbols.length,
        ∀ base ∈ (ofFiles backedFiles).baseId? id, base < id) ∧
      (ofFiles backedFiles).ancestors 22 = [21, 20] ∧
      ((ofFiles backedFiles).markedVariables {} 20)[0]?.isSome = true ∧
      (ofFiles backedFiles).backed {} [22, 21, 20] = [(20, 0), (20, 1)] := by decide +kernel

theorem backedOnce_ancestors_inherited :
    ∃ v, ((ofFiles backedFiles).markedVariables {} 20)[0]? = some v ∧
      (ofFiles backedFiles).AcyclicBases ∧
      (20, 0) ∈ (ofFiles backedFiles).backed {} (22 :: (ofFiles backedFiles).ancestors 22) ∧
      (ofFiles backedFiles).BackedOnce {} (22 :: (ofFiles backedFiles).ancestors 22) 20 0 v := by
  obtain ⟨hless, hancestors, hvariable, hbacked⟩ := backed_facts
  obtain ⟨v, hv⟩ := Option.isSome_iff_exists.mp hvariable
  have hacyclic := acyclicBases_of_lt hless
  refine ⟨v, hv, hacyclic, ?_, backedOnce_ancestors hacyclic hv⟩
  rw [hancestors, hbacked]
  decide

end Compilation
end Companion
