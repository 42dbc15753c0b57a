import Companion.Proofs.Diagnostic.Order
import Companion.Proofs.Run.Accounts
import Companion.Proofs.Symbol.FileOrder

/-!
Runs over the same files in another order. Types change their numbers with the order, but what is
found out about a type does not; so the same candidates are analyzed with the same results, only in
another order. If no two units want one name, each is registered whatever was registered before it.
-/

set_option autoImplicit false
set_option relaxedAutoImplicit false

namespace Companion

/-! ### Units with different names -/

namespace RunResult

variable {s : Settings} {classes classes' : List ClassAnalysis}

/-- The names that units want are those of the classes that have units. -/
theorem map_hintName_filterMap_unitOf (s : Settings) (classes : List ClassAnalysis) :
    (classes.filterMap (unitOf s)).map (·.hintName) =
      (classes.filter (·.shouldEmit)).map (·.hintName) := by
  induction classes with
  | nil => rfl
  | cons a classes ih =>
    by_cases hemit : a.shouldEmit = true
    · have hunit : unitOf s a = some ⟨a.hintName, a.qualifiedName, s.companionText a⟩ :=
        if_pos hemit
      rw [List.filterMap_cons_some hunit, List.filter_cons_of_pos hemit, List.map_cons,
        List.map_cons, ih]
    · have hunit : unitOf s a = none := if_neg hemit
      rw [List.filterMap_cons_none hunit, List.filter_cons_of_neg hemit, ih]

/-- If no two units want one name, all are registered and none is refused. -/
theorem registerUnits_of_nodup
    (h : ((classes.filter (·.shouldEmit)).map (·.hintName)).Nodup) :
    registerUnits s classes = (⟨classes.filterMap (unitOf s)⟩, []) := by
  induction classes using List.reverseRecOn with
  | nil => rfl
  | append_singleton classes a ih =>
    rw [List.filter_append, List.map_append, List.nodup_append] at h
    obtain ⟨hbefore, -, hnew⟩ := h
    have hstep : registerUnits s (classes ++ [a]) =
        registerUnit s (⟨classes.filterMap (unitOf s)⟩, []) a := by
      rw [← ih hbefore, registerUnits, List.foldl_append]
      rfl
    rw [hstep, List.filterMap_append]
    rcases registerUnit_cases s (⟨classes.filterMap (unitOf s)⟩, []) a with
      ⟨hnone, heq⟩ | ⟨u, hu, -, heq⟩ | ⟨u, e, hu, htaken, -⟩
    · rw [heq, List.filterMap_cons_none hnone, List.filterMap_nil, List.append_nil]
    · rw [heq, List.filterMap_cons_some hu, List.filterMap_nil]
    · have hname : u.hintName ∈ ([a].filter (·.shouldEmit)).map (·.hintName) := by
        rw [← map_hintName_filterMap_unitOf s, List.filterMap_cons_some hu]
        exact List.mem_cons_self
      rw [map_hintName_filterMap_unitOf] at htaken
      exact absurd rfl (hnew _ htaken _ hname)

/-- Units in the order of their names do not depend on the order in which they were registered. -/
theorem sorted_eq_of_perm {r r' : Registry} (hperm : r.units.Perm r'.units)
    (hnodup : (r.units.map (·.hintName)).Nodup) : r.sorted = r'.sorted := by
  have hnodup' : (r'.units.map (·.hintName)).Nodup :=
    (hperm.map (·.hintName)).nodup_iff.mp hnodup
  refine List.Perm.eq_of_pairwise (fun u w _ _ huw hwu ↦ absurd hwu huw.asymm)
    (sorted_strictly hnodup) (sorted_strictly hnodup') ?_
  exact (List.mergeSort_perm _ _).trans (hperm.trans (List.mergeSort_perm _ _).symm)

theorem registerUnits_of_perm (hperm : classes.Perm classes')
    (h : ((classes.filter (·.shouldEmit)).map (·.hintName)).Nodup) :
    (registerUnits s classes).1.sorted = (registerUnits s classes').1.sorted ∧
      (registerUnits s classes).2 = [] ∧ (registerUnits s classes').2 = [] := by
  have h' : ((classes'.filter (·.shouldEmit)).map (·.hintName)).Nodup :=
    ((hperm.filter (·.shouldEmit)).map (·.hintName)).nodup_iff.mp h
  rw [registerUnits_of_nodup h, registerUnits_of_nodup h']
  refine ⟨sorted_eq_of_perm (hperm.filterMap _) ?_, rfl, rfl⟩
  rwa [map_hintName_filterMap_unitOf]

end RunResult

/-! ### Candidates under other numbers -/

namespace Compilation

variable {m : Renaming}

/-- The candidates are the same types, up to their numbers and their order. -/
theorem Renames.candidates {c c' : Compilation} (h : c.Renames m c') :
    (c.candidates.map m.type).Perm c'.candidates := by
  refine (List.perm_ext_iff_of_nodup
    ((nodup_candidates _).map m.bijective.injective) (nodup_candidates _)).mpr fun id' ↦ ?_
  obtain ⟨id, rfl⟩ := m.bijective.surjective id'
  rw [List.mem_map_of_injective m.bijective.injective, mem_candidates_iff_idOf,
    mem_candidates_iff_idOf]
  refine (m.surjective_file.exists.trans (exists_congr fun file ↦ exists_congr fun f ↦
    exists_congr fun d ↦ ?_)).symm
  rw [h.files, h.idOf, Option.map_eq_some_iff]
  simp only [m.bijective.injective.eq_iff, exists_eq_right]

/-- The candidates are analyzed with the same results, up to their order. -/
theorem Renames.analyzed {c c' : Compilation} (h : c.Renames m c') (s : Settings) :
    (c.analyzed s).Perm (c'.analyzed s) := by
  have hsame : c'.analyze s ∘ m.type = c.analyze s := funext fun id ↦ h.analyze s id
  have hperm := h.candidates.filterMap (c'.analyze s)
  rwa [List.filterMap_map, hsame] at hperm

end Compilation

/-! ### Runs -/

namespace Generation

/-- The order of the files does not matter: if no using directive is global, no type is declared in
two files, and no two units want one name, then a run over the files in another order yields the
same units, and up to their order the same analyses and diagnostics. -/
theorem agrees_of_perm {texts texts' : List (String × String)} {s : Settings} {g g' : Generation}
    (hperm : texts.Perm texts')
    (hglobal : ∀ f ∈ (Sources.ofTexts texts).files, ∀ u ∈ f.usings, u.isGlobal = false)
    (hapart : SourceFile.DeclareApart (Sources.ofTexts texts).files)
    (hrun : (Sources.ofTexts texts).Yields s g) (hrun' : (Sources.ofTexts texts').Yields s g')
    (hnames : ((g.result.classes.filter (·.shouldEmit)).map (·.hintName)).Nodup) :
    g'.result.units = g.result.units ∧ g'.result.classes.Perm g.result.classes ∧
      g'.diagnostics.Perm g.diagnostics := by
  obtain ⟨r, hr, rfl⟩ := hrun
  obtain ⟨r', hr', rfl⟩ := hrun'
  have hparsed := hperm.map fun text ↦ Parsed.ofSource text.1 text.2
  have hfiles : (Sources.ofTexts texts).files.Perm (Sources.ofTexts texts').files :=
    hparsed.map Parsed.file
  obtain ⟨m, hrenames⟩ := Compilation.exists_renames hfiles hglobal hapart
  have hanalyzed := hrenames.analyzed s
  have hclasses := hanalyzed.map Prod.fst
  rw [Generation.ofResult, hr.classes_eq] at hnames
  obtain ⟨hunits, hnone, hnone'⟩ := RunResult.registerUnits_of_perm (s := s) hclasses hnames
  have hreports : r.reports.Perm r'.reports := by
    refine hr.reports_perm.trans (.trans ?_ hr'.reports_perm.symm)
    exact (hanalyzed.flatMap_right Prod.snd).append (.of_eq (hnone.trans hnone'.symm))
  refine ⟨hr'.units_eq.trans (hunits.symm.trans hr.units_eq.symm), ?_, ?_⟩
  · exact (List.Perm.of_eq hr'.classes_eq).trans (hclasses.symm.trans (.of_eq hr.classes_eq.symm))
  · have hall := (hparsed.flatMap_right Parsed.diagnostics).append hreports
    exact (Diagnostic.sort_perm _).trans (hall.symm.trans (Diagnostic.sort_perm _).symm)

/-- A generic base is declared in one file, and a class that closes it in another. -/
private def apartTexts : List (String × String) :=
  [("Base.cs", "interface I<T>{}class Base<T>{[SerializeInterface]protected I<T> f;}"),
    ("Closed.cs", "partial class C:Base<int>{}")]

private theorem apart_facts :
    (∀ f ∈ (Sources.ofTexts apartTexts).files, ∀ u ∈ f.usings, u.isGlobal = false) ∧
      SourceFile.DeclareApart (Sources.ofTexts apartTexts).files ∧
      (((ofSources (Sources.ofTexts apartTexts) {}).result.classes.filter (·.shouldEmit)).map
        (·.hintName)).Nodup := by decide +kernel

theorem agrees_of_perm_apart :
    ∃ g g', (Sources.ofTexts apartTexts).Yields {} g ∧
      (Sources.ofTexts apartTexts.reverse).Yields {} g' ∧
      (∀ f ∈ (Sources.ofTexts apartTexts).files, ∀ u ∈ f.usings, u.isGlobal = false) ∧
      SourceFile.DeclareApart (Sources.ofTexts apartTexts).files ∧
      ((g.result.classes.filter (·.shouldEmit)).map (·.hintName)).Nodup ∧
      g'.result.units = g.result.units ∧ g'.result.classes.Perm g.result.classes ∧
      g'.diagnostics.Perm g.diagnostics := by
  obtain ⟨hglobal, hapart, hnames⟩ := apart_facts
  have hrun := Sources.yields_ofSources (Sources.ofTexts apartTexts) {}
  have hrun' := Sources.yields_ofSources (Sources.ofTexts apartTexts.reverse) {}
  exact ⟨_, _, hrun, hrun', hglobal, hapart, hnames,
    agrees_of_perm (List.reverse_perm apartTexts).symm hglobal hapart hrun hrun' hnames⟩

end Generation

end Companion
