import Companion.Proofs.Class.Backing

/-!
The names of backing fields. A class takes the names of its own backing fields from its own fields,
and those of inherited ones from the fields of its base, with one ending behind all of them. Among
fields of different names, backing fields of one origin never share a name, and those of own fields
never take a declared name. Nothing compares inherited backing fields with what the class declares:
that no names clash says exactly that none of them takes a declared name, and that no field comes
with a shape from both sides.
-/

set_option autoImplicit false
set_option relaxedAutoImplicit false

namespace Companion

theorem Settings.backingName_inj (s : Settings) {field other : String} :
    s.backingName field = s.backingName other ↔ field = other := by
  rw [backingName, backingName, ← String.toList_inj, ← String.toList_inj]
  simp

/-- Backing fields of fields with different names have different names. -/
theorem Settings.nodup_backingName (s : Settings) {shapes : List FieldShape}
    (hnames : ∀ shape ∈ shapes, shape.backingName = s.backingName shape.fieldName)
    (hnodup : (shapes.map (·.fieldName)).Nodup) : (shapes.map (·.backingName)).Nodup := by
  rw [List.map_congr_left hnames, ← Function.comp_def, ← List.map_map]
  exact hnodup.map fun _ _ h ↦ s.backingName_inj.mp h

/-- The backing fields of a class have different names, none of which is that of a field that some
declaration of the class holds. -/
structure ClassAnalysis.BackingNamesClear (a : ClassAnalysis) (symbol : Symbol) : Prop where
  distinct : (a.shapes.map (·.backingName)).Nodup
  undeclared : ∀ shape ∈ a.shapes, shape.backingName ∉ symbol.fieldNames

namespace Compilation

variable {c : Compilation} {s : Settings} {id owner : TypeId} {symbol : Symbol}

theorem backingName_of_classify {f : Field} {file : Nat} {d : Declarator} {t : Ty}
    {shape : FieldShape} (h : f.classify c s file d t = .ok shape) :
    shape.backingName = s.backingName shape.fieldName := by
  rw [Field.classify] at h
  split at h
  · cases h
  · split at h
    · cases h
    · obtain rfl := Except.ok.inj h
      rfl

/-- Marked variables are among the variables that a type declares. -/
theorem map_name_markedVariables_sublist (hsymbol : c.symbol? id = some symbol) :
    ((c.markedVariables s id).map (·.declarator.name)).Sublist symbol.fieldNames := by
  simp only [markedVariables, hsymbol, List.map_flatMap, List.map_map, Symbol.fieldNames]
  refine List.Sublist.flatMap_right _ fun site _ ↦ ?_
  exact List.filter_sublist.flatMap _

/-! ### Own backing fields -/

/-- A clash of names takes exactly those own shapes away whose backing fields would have declared
names. -/
theorem backingName_of_mem_ownShapes {shape : FieldShape} (h : shape ∈ symbol.ownShapes c s) :
    shape.backingName = s.backingName shape.fieldName ∧
      shape.backingName ∉ symbol.fieldNames := by
  obtain ⟨⟨site, f, d, outcome⟩, hmem, hshape⟩ := List.mem_filterMap.mp h
  obtain ⟨-, -, -, rfl⟩ := mem_ownOutcomes_iff.mp hmem
  have hshape : (Symbol.withoutClash symbol.fieldNames
      (f.classify c s site.file d (site.fieldType c f))).toOption = some shape := hshape
  have hclassify := ok_of_withoutClash hshape
  refine ⟨backingName_of_classify hclassify, fun hdeclared ↦ ?_⟩
  rw [hclassify, Symbol.withoutClash, if_pos (List.contains_iff_mem.mpr hdeclared)] at hshape
  cases hshape

/-- Own shapes are those of different fields, if the type declares fields of different names. -/
theorem nodup_fieldName_ownBackings (hsymbol : c.symbol? id = some symbol)
    (hnames : symbol.fieldNames.Nodup) :
    (((c.ownBackings s id).map Prod.snd).map (·.fieldName)).Nodup := by
  have hname : ((c.ownBackings s id).map Prod.snd).map (·.fieldName) =
      ((c.ownBackings s id).map Prod.fst).map (·.declarator.name) := by
    rw [List.map_map, List.map_map]
    exact List.map_congr_left fun b hb ↦ (of_mem_ownBackings hb).2.2.1
  rw [hname]
  exact hnames.sublist
    (((ownBackings_sublist c s id).map _).trans (map_name_markedVariables_sublist hsymbol))

/-! ### Inherited backing fields -/

theorem backingName_of_mem_inheritedFields {field : InheritedField}
    (h : field ∈ c.inheritedFields s id) :
    field.shape.backingName = s.backingName field.shape.fieldName := by
  obtain ⟨⟨site, i⟩, hmem, hkept⟩ := List.mem_filterMap.mp h
  cases hclosed : c.closedBase? id with
  | none => simp [inheritances, hclosed] at hmem
  | some closed =>
    obtain ⟨f, -, d, -, rfl⟩ := (mem_inheritances_iff hclosed).mp hmem
    rcases inherit_cases c s closed.2 site f d with hhidden | ⟨kept, hfield, hclassify⟩ |
      ⟨reason, hskipped, -⟩
    · simp [hhidden] at hkept
    · obtain rfl : kept = field := by simpa [hfield] using hkept
      exact backingName_of_classify hclassify
    · simp [hskipped] at hkept

/-- Inherited shapes are those of different fields, if the base declares fields of different
names. -/
theorem nodup_fieldName_inheritedBackings
    (hnames : ∀ base ty, c.closedBase? id = some (base, ty) →
      ∀ baseSymbol, c.symbol? base = some baseSymbol → baseSymbol.fieldNames.Nodup) :
    (((c.inheritedBackings s id).map Prod.snd).map (·.fieldName)).Nodup := by
  cases hclosed : c.closedBase? id with
  | none => simp [inheritedBackings, hclosed]
  | some closed =>
    obtain ⟨base, ty⟩ := closed
    have hname : ((c.inheritedBackings s id).map Prod.snd).map (·.fieldName) =
        ((c.inheritedBackings s id).map Prod.fst).map (·.declarator.name) := by
      rw [List.map_map, List.map_map]
      exact List.map_congr_left fun b hb ↦ (of_mem_inheritedBackings hb).2.1
    rw [hname]
    refine List.Nodup.sublist ((inheritedBackings_sublist s hclosed).map _) ?_
    cases hbase : c.symbol? base with
    | none => simp [markedVariables, hbase]
    | some baseSymbol =>
      exact (hnames base ty hclosed baseSymbol hbase).sublist
        (map_name_markedVariables_sublist hbase)

/-! ### Both together -/

/-- When no names clash, in a class that declares fields of different names and whose generic base
does: exactly when no inherited backing field takes a name that the class declares, and no own
field with a shape hides an inherited one. -/
theorem backingNamesClear_iff {a : ClassAnalysis} {reports : List Diagnostic}
    (hsymbol : c.symbol? id = some symbol) (hnames : symbol.fieldNames.Nodup)
    (hbaseNames : ∀ base ty, c.closedBase? id = some (base, ty) →
      ∀ baseSymbol, c.symbol? base = some baseSymbol → baseSymbol.fieldNames.Nodup)
    (ha : c.analyze s id = some (a, reports)) :
    a.BackingNamesClear symbol ↔
      ∀ field ∈ a.inherited, field.shape.backingName ∉ symbol.fieldNames ∧
        field.shape.fieldName ∉ a.ownShapes.map (·.fieldName) := by
  obtain ⟨hown, hinherited⟩ := map_backings_of_analyze ha
  have hownNodup := nodup_fieldName_ownBackings (s := s) hsymbol hnames
  have hinheritedNodup := nodup_fieldName_inheritedBackings (s := s) hbaseNames
  rw [hown] at hownNodup
  rw [hinherited] at hinheritedNodup
  rw [analyze, hsymbol] at ha
  obtain ⟨rfl, -⟩ := Prod.mk.inj (Option.some.inj ha)
  have hownName := fun shape (h : shape ∈ symbol.ownShapes c s) ↦ backingName_of_mem_ownShapes h
  have hinheritedName : ∀ shape ∈ (c.inheritedFields s id).map (·.shape),
      shape.backingName = s.backingName shape.fieldName := by
    intro shape hshape
    obtain ⟨field, hfield, rfl⟩ := List.mem_map.mp hshape
    exact backingName_of_mem_inheritedFields hfield
  constructor
  · rintro ⟨hdistinct, hundeclared⟩ field hfield
    have hshape : field.shape ∈ (c.inheritedFields s id).map (·.shape) :=
      List.mem_map.mpr ⟨field, hfield, rfl⟩
    refine ⟨hundeclared _ (List.mem_append_right _ hshape), fun hboth ↦ ?_⟩
    obtain ⟨own, hownMem, hsame⟩ := List.mem_map.mp hboth
    rw [ClassAnalysis.shapes, List.map_append] at hdistinct
    refine List.disjoint_of_nodup_append hdistinct
      (List.mem_map.mpr ⟨own, hownMem, rfl⟩) (List.mem_map.mpr ⟨field.shape, hshape, ?_⟩)
    rw [(hownName own hownMem).1, hinheritedName _ hshape, hsame]
  · intro hclear
    constructor
    · rw [ClassAnalysis.shapes, List.map_append]
      refine List.nodup_append.mpr ⟨s.nodup_backingName (fun shape h ↦ (hownName shape h).1)
        hownNodup, s.nodup_backingName hinheritedName hinheritedNodup, ?_⟩
      intro name hownMem other hinheritedMem heq
      obtain ⟨own, hown, rfl⟩ := List.mem_map.mp hownMem
      obtain ⟨shape, hshape, rfl⟩ := List.mem_map.mp hinheritedMem
      obtain ⟨field, hfield, rfl⟩ := List.mem_map.mp hshape
      rw [(hownName own hown).1, hinheritedName _ hshape, s.backingName_inj] at heq
      exact (hclear field hfield).2 (List.mem_map.mpr ⟨own, hown, heq⟩)
    · intro shape hshape
      rcases List.mem_append.mp hshape with hown | hinherited
      · exact (hownName shape hown).2
      · obtain ⟨field, hfield, rfl⟩ := List.mem_map.mp hinherited
        exact (hclear field hfield).1

/-- A class that declares a field of the name that the backing field of an inherited one takes. -/
private def clashSource : String :=
  "interface I<T>{}" ++
  "class Base<T>{[SerializeInterface]protected I<T> f;}" ++
  "partial class C:Base<int>{int fSerialized;}"

private def clashTexts : List (String × String) := [("Clash.cs", clashSource)]

private abbrev clashFiles : List SourceFile := (Sources.ofTexts clashTexts).files

private theorem clash_facts :
    ((ofFiles clashFiles).symbol? 21).map (·.fieldNames) = some ["fSerialized"] ∧
      ((ofFiles clashFiles).closedBase? 21).map Prod.fst = some 20 ∧
      ((ofFiles clashFiles).symbol? 20).map (·.fieldNames) = some ["f"] ∧
      (((ofFiles clashFiles).analyze {} 21).map fun r ↦
        r.1.inherited.map fun field ↦ field.shape.backingName) = some ["fSerialized"] := by
  decide +kernel

private theorem clash_setting :
    ∃ symbol a reports, (ofFiles clashFiles).symbol? 21 = some symbol ∧
      symbol.fieldNames.Nodup ∧
      (∀ base ty, (ofFiles clashFiles).closedBase? 21 = some (base, ty) →
        ∀ baseSymbol, (ofFiles clashFiles).symbol? base = some baseSymbol →
          baseSymbol.fieldNames.Nodup) ∧
      (ofFiles clashFiles).analyze {} 21 = some (a, reports) ∧
      ∃ field ∈ a.inherited, field.shape.backingName ∈ symbol.fieldNames := by
  obtain ⟨hnames, hclosed, hbaseNames, hinherited⟩ := clash_facts
  obtain ⟨symbol, hsymbol, hfields⟩ := Option.map_eq_some_iff.mp hnames
  obtain ⟨⟨a, reports⟩, ha, hbacking⟩ := Option.map_eq_some_iff.mp hinherited
  obtain ⟨field, hfield, hname⟩ := List.mem_map.mp
    (hbacking ▸ List.mem_singleton_self "fSerialized" : "fSerialized" ∈
      a.inherited.map fun field ↦ field.shape.backingName)
  refine ⟨symbol, a, reports, hsymbol, ?_, ?_, ha, field, hfield, ?_⟩
  · rw [hfields]
    decide
  · intro base ty hbase baseSymbol hbaseSymbol
    obtain rfl : base = 20 := by simpa [hbase] using hclosed
    have hbaseFields : baseSymbol.fieldNames = ["f"] := by simpa [hbaseSymbol] using hbaseNames
    rw [hbaseFields]
    decide
  · rw [hfields, hname]
    decide

theorem not_backingNamesClear_of_declared :
    ∃ symbol a reports, (ofFiles clashFiles).symbol? 21 = some symbol ∧
      symbol.fieldNames.Nodup ∧
      (∀ base ty, (ofFiles clashFiles).closedBase? 21 = some (base, ty) →
        ∀ baseSymbol, (ofFiles clashFiles).symbol? base = some baseSymbol →
          baseSymbol.fieldNames.Nodup) ∧
      (ofFiles clashFiles).analyze {} 21 = some (a, reports) ∧ ¬ a.BackingNamesClear symbol := by
  obtain ⟨symbol, a, reports, hsymbol, hnames, hbase, ha, field, hfield, hclash⟩ := clash_setting
  exact ⟨symbol, a, reports, hsymbol, hnames, hbase, ha, fun hclear ↦
    ((backingNamesClear_iff hsymbol hnames hbase ha).mp hclear field hfield).1 hclash⟩

/-- Fields of different names do not suffice for backing fields of different names. -/
theorem not_forall_backingNamesClear :
    ¬ ∀ (texts : List (String × String)) (s : Settings) (id : TypeId) (symbol : Symbol)
      (a : ClassAnalysis) (reports : List Diagnostic),
      (ofFiles (Sources.ofTexts texts).files).symbol? id = some symbol →
      symbol.fieldNames.Nodup →
      (∀ base ty, (ofFiles (Sources.ofTexts texts).files).closedBase? id = some (base, ty) →
        ∀ baseSymbol, (ofFiles (Sources.ofTexts texts).files).symbol? base = some baseSymbol →
          baseSymbol.fieldNames.Nodup) →
      (ofFiles (Sources.ofTexts texts).files).analyze s id = some (a, reports) →
      a.BackingNamesClear symbol := by
  intro hall
  obtain ⟨symbol, a, reports, hsymbol, hnames, hbase, ha, field, hfield, hclash⟩ := clash_setting
  refine (hall clashTexts {} 21 symbol a reports hsymbol hnames hbase ha).undeclared field.shape
    ?_ hclash
  exact List.mem_append_right _ (List.mem_map.mpr ⟨field, hfield, rfl⟩)

end Compilation
end Companion
