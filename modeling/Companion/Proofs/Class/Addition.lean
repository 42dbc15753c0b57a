import Companion.Proofs.Class.Likeness
import Companion.Proofs.Symbol.Addition

/-!
One more file does not disturb the others. If it has nothing to do with the other files, every type
of theirs keeps its number, its base and its interfaces, everything that they write resolves to the
same type, and every class of theirs is analyzed as before, but that a companion which nothing
extended may be extended by a class of the new file.
-/

set_option autoImplicit false
set_option relaxedAutoImplicit false

namespace Companion

namespace SourceFile.Unrelated

variable {files : List SourceFile} {added : SourceFile} (h : Unrelated files added)
include h

/-- References of the other files, or with identifiers of theirs, stand for the same types. -/
theorem resolve {scope : Scope} (hscope : scope.WrittenIn files) {r : TypeRef}
    (hr : ∀ n ∈ r.names, n ∉ added.declaredNames) :
    (Compilation.ofFiles (files ++ [added])).resolve scope r =
      (Compilation.ofFiles files).resolve scope r :=
  (Table.resolve_withBases _ scope r).trans
    ((h.resolve_bare hscope hr).trans (Table.resolve_withBases _ scope r).symm)

/-- Every type of the other files is its own like. -/
theorem like (s : Settings) :
    (Compilation.ofFiles files).Like id s (Compilation.ofFiles (files ++ [added])) := by
  refine ⟨Compilation.contained_ofFiles files, fun id symbol hsymbol ↦
    ⟨symbol, h.symbol?_eq_some hsymbol, rfl, rfl, rfl, rfl, rfl, rfl, rfl,
      List.forall₂_same.2 fun site hsite ↦ ?_⟩⟩
  obtain ⟨hscope, f, hf, hdecl⟩ := Compilation.writtenIn_of_mem_sites hsymbol hsite
  have hkept : (files ++ [added])[site.file]? = files[site.file]? :=
    List.getElem?_append_left (List.getElem?_eq_some_iff.1 hf).1
  have htext (place : Span) : (Compilation.ofFiles (files ++ [added])).text site.file place =
      (Compilation.ofFiles files).text site.file place :=
    congrArg (fun f ↦ (f.map (·.text place)).getD "") hkept
  refine ⟨congrArg (fun f ↦ (f.map SourceFile.path).getD "") hkept, rfl, rfl,
    List.map_congr_left fun u _ ↦ htext u.span, List.forall₂_same.2 fun field hfield ↦ ?_⟩
  refine ⟨rfl, rfl, List.map_congr_left fun a _ ↦ htext a.span, rfl, ?_,
    List.forall₂_same.2 fun d _ ↦ ⟨rfl, rfl, rfl⟩⟩
  exact h.resolve hscope (h.names_of_reference (List.mem_of_getElem? hf)
    (List.mem_append_right _ (List.mem_flatMap.2
      ⟨site.decl, hdecl, List.mem_append_right _ (List.mem_map_of_mem hfield)⟩)))

end SourceFile.Unrelated

namespace Compilation

/-- A file that has no global directives and declares nothing by an identifier of the other files
changes nothing for them: their types keep number, base and interfaces, what they write stands for
the same types in every scope of theirs, and their classes are analyzed as before, except that a
companion without derived ones may come to be the root of some. -/
theorem undisturbed_of_unrelated {files : List SourceFile} {added : SourceFile}
    (h : SourceFile.Unrelated files added) :
    (∀ id symbol, (ofFiles files).symbol? id = some symbol →
      (ofFiles (files ++ [added])).symbol? id = some symbol) ∧
    (∀ file place id, (ofFiles files).idOf file place = some id →
      (ofFiles (files ++ [added])).idOf file place = some id) ∧
    (∀ f ∈ files, ∀ r ∈ f.references, ∀ scope : Scope, scope.WrittenIn files →
      (ofFiles (files ++ [added])).resolve scope r = (ofFiles files).resolve scope r) ∧
    ∀ (s : Settings) (id : TypeId) (a : ClassAnalysis) (reports : List Diagnostic),
      (ofFiles files).analyze s id = some (a, reports) →
        ∃ a' reports', (ofFiles (files ++ [added])).analyze s id = some (a', reports') ∧
          a.hookRole.Grows a'.hookRole ∧ a' = { a with hookRole := a'.hookRole } := by
  refine ⟨fun _ _ ↦ h.symbol?_eq_some, fun _ _ _ ↦ idOf_concat added,
    fun f hf r hr scope hscope ↦ h.resolve hscope (h.names_of_reference hf hr),
    fun s id a reports ha ↦ ?_⟩
  obtain ⟨a', reports', ha', hgrows, hseen⟩ := (h.like s).analyze ha
  rw [ClassAnalysis.seen_id, ClassAnalysis.seen_id] at hseen
  exact ⟨a', reports', ha', hgrows, hseen⟩

private def keptTexts : List (String × String) :=
  [("Kept.cs", "namespace N;interface I{}" ++
    "partial class Kept{[SerializeInterface]protected I kept;}")]

private def addedText : String × String :=
  ("Added.cs", "using N;namespace M;partial class Added<T>:Kept{[SerializeInterface]I more;}")

private abbrev keptFiles : List SourceFile := (Sources.ofTexts keptTexts).files

private abbrev addedFile : SourceFile := (Parsed.ofSource addedText.1 addedText.2).file

private theorem added_facts :
    ((∀ u ∈ addedFile.usings, u.isGlobal = false) ∧
      ∀ n ∈ addedFile.declaredNames, ∀ f ∈ keptFiles, n ∉ f.names) ∧
    ((ofFiles keptFiles).analyze {} 20).map (·.1.hookRole) = some .standalone ∧
    ((ofFiles (keptFiles ++ [addedFile])).analyze {} 20).map (·.1.hookRole) = some .root := by
  decide +kernel

/-- A class in an added file makes a companion the root of its own, and changes nothing else. -/
theorem undisturbed_of_unrelated_added :
    ∃ a reports reports', (ofFiles keptFiles).analyze {} 20 = some (a, reports) ∧
      a.hookRole = .standalone ∧ (ofFiles (keptFiles ++ [addedFile])).analyze {} 20 =
        some ({ a with hookRole := .root }, reports') := by
  obtain ⟨⟨hglobal, hfresh⟩, hbefore, hafter⟩ := added_facts
  obtain ⟨⟨a, reports⟩, ha, hrole⟩ := Option.map_eq_some_iff.mp hbefore
  obtain ⟨a', reports', ha', -, heq⟩ :=
    (undisturbed_of_unrelated ⟨hglobal, hfresh⟩).2.2.2 {} 20 a reports ha
  rw [ha', Option.map_some] at hafter
  have hroot : a'.hookRole = .root := Option.some.inj hafter
  rw [hroot] at heq
  exact ⟨a, reports, reports', ha, hrole, heq ▸ ha'⟩

end Compilation
end Companion
