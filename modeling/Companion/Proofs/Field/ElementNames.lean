import Companion.Proofs.Class.Backing
import Companion.Proofs.Symbol.FullNames

/-!
What the element names of shapes denote. A shape names the interface of its variable by the full
name; seen from the class, the variable of a generic base has the type that the arguments of the
base give it. Where the companion of the class uses the name, it denotes the interface exactly if
every type in the interface is reached there by its path. A path leads through the types around
without their arguments, so an interface inside a generic type may be out of reach.
-/

set_option autoImplicit false
set_option relaxedAutoImplicit false

namespace Companion
namespace Compilation

variable {c : Compilation} {s : Settings} {id : TypeId} {v : MarkedVariable} {shape : FieldShape}

mutual

/-- No tuple occurs in a type. -/
def tupleFree : Ty → Bool
  | .named _ args => tupleFreeAll args
  | .array e _ => tupleFree e
  | .nullable i => tupleFree i
  | .tuple _ => false
  | .param _ _ | .unresolved _ => true

def tupleFreeAll : List Ty → Bool
  | [] => true
  | t :: ts => tupleFree t && tupleFreeAll ts

end

/-- The interface that a shape of a class names. -/
inductive Holds (c : Compilation) (s : Settings) (id : TypeId) (shape : FieldShape) : Ty → Prop
  | own {v : MarkedVariable} {container : Container} {element : Ty}
      (hmade : (v, shape) ∈ c.ownBackings s id)
      (helement : c.elementOf (v.site.fieldType c v.field) = .ok (container, element)) :
      Holds c s id shape element
  | inherited {v : MarkedVariable} {owner : TypeId} {base : Ty} {container : Container}
      {element : Ty} (hclosed : c.closedBase? id = some (owner, base))
      (hmade : (v, shape) ∈ c.inheritedBackings s id)
      (helement : c.elementOf (c.substituteBase base (v.site.fieldType c v.field)) =
        .ok (container, element)) :
      Holds c s id shape element

theorem element_of_classify {f : Field} {file : Nat} {d : Declarator} {t : Ty}
    (h : f.classify c s file d t = .ok shape) :
    ∃ container element, c.elementOf t = .ok (container, element) ∧
      shape.elementName = c.fullName element := by
  rw [Field.classify] at h
  split at h
  · cases h
  · rename_i container element helement
    split at h
    · cases h
    · obtain rfl := Except.ok.inj h
      exact ⟨container, element, helement, rfl⟩

/-- Every shape of a class names an interface. -/
theorem exists_holds_of_analyze {a : ClassAnalysis} {reports : List Diagnostic}
    (ha : c.analyze s id = some (a, reports)) (hshape : shape ∈ a.shapes) :
    ∃ element, c.Holds s id shape element := by
  obtain ⟨hown, hinherited⟩ := map_backings_of_analyze ha
  rw [ClassAnalysis.shapes, ← hown, ← hinherited] at hshape
  rcases List.mem_append.mp hshape with hmem | hmem
  · obtain ⟨⟨v, shape⟩, hmade, rfl⟩ := List.mem_map.mp hmem
    obtain ⟨container, element, helement, -⟩ :=
      element_of_classify (classify_of_mem_ownBackings hmade).2
    exact ⟨element, .own hmade helement⟩
  · obtain ⟨⟨v, shape⟩, hmade, rfl⟩ := List.mem_map.mp hmem
    cases hclosed : c.closedBase? id with
    | none => simp [inheritedBackings, hclosed] at hmade
    | some closed =>
      obtain ⟨container, element, helement, -⟩ :=
        element_of_classify (classify_of_mem_inheritedBackings hclosed hmade)
      exact ⟨element, .inherited hclosed hmade helement⟩

theorem Holds.elementName_eq {element : Ty} (h : c.Holds s id shape element) :
    shape.elementName = c.fullName element := by
  cases h with
  | own hmade helement =>
    obtain ⟨container, element', helement', hname⟩ :=
      element_of_classify (classify_of_mem_ownBackings hmade).2
    rw [helement] at helement'
    cases helement'
    exact hname
  | inherited hclosed hmade helement =>
    obtain ⟨container, element', helement', hname⟩ :=
      element_of_classify (classify_of_mem_inheritedBackings hclosed hmade)
    rw [helement] at helement'
    cases helement'
    exact hname

/-- The scope in the body of the first declaration of a type. -/
def bodyScope (c : Compilation) (id : TypeId) : Scope :=
  (((c.symbol? id).bind (·.sites.head?)).map (·.body)).getD []

/-- In the body of the first declaration of a class, the element name of a shape denotes the
interface that it names exactly if every type in the interface is reached from there. -/
theorem denotes_elementName_iff {a : ClassAnalysis} {reports : List Diagnostic}
    (ha : c.analyze s id = some (a, reports)) (hshape : shape ∈ a.shapes) :
    (∃ element, c.Holds s id shape element) ∧
      ∀ element, c.Holds s id shape element → c.Speakable element →
        (c.Denotes (c.bodyScope id) shape.elementName element ↔
          ∀ t ∈ namesIn element, c.Reached (c.bodyScope id) t) := by
  refine ⟨exists_holds_of_analyze ha hshape, fun element hholds hspeak ↦ ?_⟩
  rw [hholds.elementName_eq]
  exact hspeak.denotes_fullName_iff _

/-- A class that holds an interface which is declared inside a generic type. -/
private def outerSource : String :=
  "class Outer<T>{public interface I{}}" ++
  "partial class C{[SerializeInterface]Outer<int>.I f;}"

private def outerTexts : List (String × String) := [("Outer.cs", outerSource)]

private abbrev outerFiles : List SourceFile := (Sources.ofTexts outerTexts).files

private theorem outer_facts :
    ((ofFiles outerFiles).analyze {} 21).map (fun r ↦ r.1.shapes.map (·.elementName)) =
        some ["Outer.I"] ∧
      ((ofFiles outerFiles).ownBackings {} 21).map (fun b ↦
        (ofFiles outerFiles).elementOf (b.1.site.fieldType (ofFiles outerFiles) b.1.field)) =
          [.ok (.single, .named 20 [])] ∧
      (ofFiles outerFiles).closedBase? 21 = none ∧
      (ofFiles outerFiles).namesAround 20 = ["Outer"] ∧
      (ofFiles outerFiles).nameOf 20 = "I" ∧
      (ofFiles outerFiles).table.resolvePath
        ((ofFiles outerFiles).table.lookup ((ofFiles outerFiles).bodyScope 21))
        ((ofFiles outerFiles).pathTo (.named 20 [])) = none := by
  decide +kernel

private theorem outer_setting :
    ∃ a reports shape, (ofFiles outerFiles).analyze {} 21 = some (a, reports) ∧ shape ∈ a.shapes ∧
      (ofFiles outerFiles).Holds {} 21 shape (.named 20 []) ∧
      (ofFiles outerFiles).Speakable (.named 20 []) ∧
      ¬ (ofFiles outerFiles).Reached ((ofFiles outerFiles).bodyScope 21) (.named 20 []) := by
  obtain ⟨hnames, helement, hclosed, haround, hname, hpath⟩ := outer_facts
  obtain ⟨⟨a, reports⟩, ha, hshapes⟩ := Option.map_eq_some_iff.mp hnames
  obtain ⟨shape, hshape, -⟩ := List.mem_map.mp
    (hshapes ▸ List.mem_singleton_self "Outer.I" : "Outer.I" ∈ a.shapes.map (·.elementName))
  refine ⟨a, reports, shape, ha, hshape, ?_, ?_, ?_⟩
  · obtain ⟨element, hholds⟩ := exists_holds_of_analyze ha hshape
    cases hholds with
    | @own v container element hmade h =>
      have hmem := List.mem_map_of_mem (f := fun b ↦
        (ofFiles outerFiles).elementOf (b.1.site.fieldType (ofFiles outerFiles) b.1.field)) hmade
      rw [helement, List.mem_singleton, h] at hmem
      exact .own hmade (h.trans hmem)
    | inherited hbase hmade h =>
      rw [hclosed] at hbase
      cases hbase
  · refine .named ?_ ?_ (by simp)
    · rw [haround]
      intro name hmem
      obtain rfl := List.mem_singleton.mp hmem
      exact ⟨⟨by decide, by decide, by decide⟩, by decide⟩
    · rw [hname]
      exact ⟨⟨by decide, by decide, by decide⟩, by decide⟩
  · rw [Reached, hpath]
    simp

theorem not_denotes_elementName_in_generic :
    ∃ a reports shape, (ofFiles outerFiles).analyze {} 21 = some (a, reports) ∧ shape ∈ a.shapes ∧
      (ofFiles outerFiles).Holds {} 21 shape (.named 20 []) ∧
      (ofFiles outerFiles).Speakable (.named 20 []) ∧
      ¬ (ofFiles outerFiles).Denotes ((ofFiles outerFiles).bodyScope 21) shape.elementName
        (.named 20 []) := by
  obtain ⟨a, reports, shape, ha, hshape, hholds, hspeak, hlost⟩ := outer_setting
  refine ⟨a, reports, shape, ha, hshape, hholds, hspeak, fun hdenotes ↦ hlost ?_⟩
  exact ((denotes_elementName_iff ha hshape).2 _ hholds hspeak).mp hdenotes _
    (List.mem_cons_self ..)

/-- The element name of a shape need not denote the interface that it names. -/
theorem not_forall_denotes_elementName :
    ¬ ∀ (texts : List (String × String)) (s : Settings) (id : TypeId) (a : ClassAnalysis)
      (reports : List Diagnostic) (shape : FieldShape) (element : Ty),
      (ofFiles (Sources.ofTexts texts).files).analyze s id = some (a, reports) →
      shape ∈ a.shapes → (ofFiles (Sources.ofTexts texts).files).Holds s id shape element →
      tupleFree element = true →
      (ofFiles (Sources.ofTexts texts).files).Denotes
        ((ofFiles (Sources.ofTexts texts).files).bodyScope id) shape.elementName element := by
  intro hall
  obtain ⟨a, reports, shape, ha, hshape, hholds, hspeak, hlost⟩ := outer_setting
  have hdenotes := hall outerTexts {} 21 a reports shape (.named 20 []) ha hshape hholds rfl
  rw [hholds.elementName_eq] at hdenotes
  exact hlost ((hspeak.denotes_fullName_iff _).mp hdenotes _ (List.mem_cons_self ..))

end Compilation
end Companion
