import Companion.Proofs.Field.Fates
import Companion.Proofs.Run.Arrival
import Companion.Proofs.Run.Candidates
import Mathlib.Data.String.Basic

/-!
What a run accounts for (`Compilation.AccountedFor`, `Compilation.accountedFor_ofTexts`). Its
classes are the candidates, each once; a class that needs a companion has a unit, or is reported as
not partial, or its unit is refused as the name is taken (`RunResult.emits_or_refuses`); every unit
belongs to one class (`RunResult.exists_owner`); and every variable of a marked field of a candidate
has exactly one fate (`Compilation.AccountsForFields`). A class and its unit are told apart by when
they are registered, as two classes may want one name.
-/

set_option autoImplicit false
set_option relaxedAutoImplicit false

namespace Companion

namespace RunResult

variable {s : Settings} {classes : List ClassAnalysis} {a : ClassAnalysis} {u : GeneratedUnit}

/-! ### Registering units -/

/-- All that registering a class may do: nothing, add its unit, or refuse it. -/
theorem registerUnit_cases (s : Settings) (state : Registry × List Diagnostic)
    (a : ClassAnalysis) :
    (unitOf s a = none ∧ registerUnit s state a = state) ∨
    (∃ u, unitOf s a = some u ∧ u.hintName ∉ state.1.units.map (·.hintName) ∧
      registerUnit s state a = (⟨state.1.units ++ [u]⟩, state.2)) ∨
    ∃ u e, unitOf s a = some u ∧ u.hintName ∈ state.1.units.map (·.hintName) ∧
      registerUnit s state a = (state.1, state.2 ++ [duplicateReport a e]) := by
  rw [registerUnit]
  cases hunit : unitOf s a with
  | none => exact .inl ⟨rfl, rfl⟩
  | some u =>
    have htaken : state.1.contains u.hintName = true ↔
        u.hintName ∈ state.1.units.map (·.hintName) := by
      simp [Registry.contains]
    by_cases hcontains : state.1.contains u.hintName = true
    · refine .inr (.inr ⟨u, .duplicate u.hintName, rfl, htaken.mp hcontains, ?_⟩)
      simp [Registry.register, hcontains]
    · refine .inr (.inl ⟨u, rfl, mt htaken.mpr hcontains, ?_⟩)
      simp [Registry.register, hcontains]

/-- Every refusal is that of a unit of one of the classes, by induction over them. -/
theorem exists_of_mem_refusals {r : Diagnostic} (h : r ∈ (registerUnits s classes).2) :
    ∃ a ∈ classes, ∃ e, r = duplicateReport a e := by
  induction classes using List.reverseRecOn with
  | nil => cases h
  | append_singleton classes a ih =>
    have happend :
        registerUnits s (classes ++ [a]) = registerUnit s (registerUnits s classes) a := by
      rw [registerUnits, List.foldl_append]
      rfl
    have hearlier (h : r ∈ (registerUnits s classes).2) :
        ∃ b ∈ classes ++ [a], ∃ e, r = duplicateReport b e := by
      obtain ⟨b, hb, hr⟩ := ih h
      exact ⟨b, List.mem_append_left _ hb, hr⟩
    rw [happend] at h
    rcases registerUnit_cases s (registerUnits s classes) a with ⟨-, heq⟩ | ⟨u, -, -, heq⟩ |
      ⟨u, e, -, -, heq⟩
    · exact hearlier (heq ▸ h)
    · rw [heq] at h
      exact hearlier h
    · rw [heq] at h
      rcases List.mem_append.mp h with h | h
      · exact hearlier h
      · exact ⟨a, List.mem_append_right _ (List.mem_singleton_self a), e, List.mem_singleton.mp h⟩

/-- The registry and the refusals after the first classes. -/
def afterFirst (s : Settings) (classes : List ClassAnalysis) (i : Nat) :
    Registry × List Diagnostic := registerUnits s (classes.take i)

theorem afterFirst_succ {i : Nat} (h : classes[i]? = some a) :
    afterFirst s classes (i + 1) = registerUnit s (afterFirst s classes i) a := by
  rw [afterFirst, afterFirst, registerUnits, registerUnits, List.take_add_one, h,
    List.foldl_append]
  rfl

theorem afterFirst_of_none {i : Nat} (h : classes[i]? = none) :
    afterFirst s classes (i + 1) = afterFirst s classes i := by
  rw [afterFirst, afterFirst, List.take_add_one, h]
  simp

/-- A unit is added when the class at a place is registered. -/
def Adds (s : Settings) (classes : List ClassAnalysis) (i : Nat) (u : GeneratedUnit) : Prop :=
  (afterFirst s classes (i + 1)).1.units = (afterFirst s classes i).1.units ++ [u]

/-- The unit of a class is among those of a run, under the name that the class gives it, since the
class was registered. -/
def Emits (s : Settings) (run : RunResult) (i : Nat) (a : ClassAnalysis) : Prop :=
  ∃ u ∈ run.units, unitOf s a = some u ∧ u.hintName = a.hintName ∧ Adds s run.classes i u

/-- Registering a class reports once that the name of its unit is taken, and adds no unit. -/
def Refuses (s : Settings) (run : RunResult) (i : Nat) : Prop :=
  ∃ r ∈ run.reports, r.code = .duplicateUnit ∧
    afterFirst s run.classes (i + 1) =
      ((afterFirst s run.classes i).1, (afterFirst s run.classes i).2 ++ [r])

theorem nodup_hintNames (s : Settings) (classes : List ClassAnalysis) (i : Nat) :
    ((afterFirst s classes i).1.units.map (·.hintName)).Nodup := by
  induction i with
  | zero => exact List.nodup_nil
  | succ i ih =>
    cases ha : classes[i]? with
    | none => rwa [afterFirst_of_none ha]
    | some a =>
      rw [afterFirst_succ ha]
      rcases registerUnit_cases s (afterFirst s classes i) a with ⟨-, heq⟩ | ⟨u, -, hfree, heq⟩ |
        ⟨u, e, -, -, heq⟩
      · rwa [heq]
      · rw [heq, List.map_append, List.nodup_append]
        refine ⟨ih, List.nodup_singleton _, ?_⟩
        rintro name hname _ hlast rfl
        rw [List.mem_singleton.mp hlast] at hname
        exact hfree hname
      · rwa [heq]

theorem afterFirst_length (s : Settings) (classes : List ClassAnalysis) :
    afterFirst s classes classes.length = registerUnits s classes := by
  rw [afterFirst, List.take_length]

/-- What is registered stays, and so does what is reported. -/
theorem afterFirst_mono {i j : Nat} (hij : i ≤ j) :
    (afterFirst s classes i).1.units <+: (afterFirst s classes j).1.units ∧
      (afterFirst s classes i).2 <+: (afterFirst s classes j).2 := by
  induction hij with
  | refl => exact ⟨List.prefix_refl _, List.prefix_refl _⟩
  | @step j hij ih =>
    cases ha : classes[j]? with
    | none => rwa [afterFirst_of_none ha]
    | some a =>
      rw [afterFirst_succ ha]
      rcases registerUnit_cases s (afterFirst s classes j) a with ⟨-, heq⟩ | ⟨u, -, -, heq⟩ |
        ⟨u, e, -, -, heq⟩
      · rwa [heq]
      · rw [heq]
        exact ⟨ih.1.trans (List.prefix_append _ _), ih.2⟩
      · rw [heq]
        exact ⟨ih.1, ih.2.trans (List.prefix_append _ _)⟩

/-- A unit is added once. -/
theorem Adds.unique {i j : Nat} (hi : Adds s classes i u) (hj : Adds s classes j u) : i = j := by
  have hless {i j : Nat} (hi : Adds s classes i u) (hj : Adds s classes j u) (hij : i < j) :
      False := by
    have hmem : u ∈ (afterFirst s classes j).1.units :=
      (afterFirst_mono (Nat.succ_le_of_lt hij)).1.subset (by rw [hi]; simp)
    have hnodup := nodup_hintNames s classes (j + 1)
    rw [hj, List.map_append, List.nodup_append] at hnodup
    exact hnodup.2.2 _ (List.mem_map_of_mem hmem) _ List.mem_cons_self rfl
  rcases Nat.lt_trichotomy i j with h | h | h
  · exact (hless hi hj h).elim
  · exact h
  · exact (hless hj hi h).elim

/-! ### What a run keeps of it -/

section OfClasses

variable {arrived : List Diagnostic} {i : Nat}

theorem mem_units_iff : u ∈ (ofClasses s classes arrived).units ↔
    u ∈ (registerUnits s (ofClasses s classes arrived).classes).1.units :=
  (List.mergeSort_perm _ _).mem_iff

theorem mem_reports_of_refused {r : Diagnostic}
    (h : r ∈ (registerUnits s (ofClasses s classes arrived).classes).2) :
    r ∈ (ofClasses s classes arrived).reports :=
  List.mem_append_right _ h

/-- A class without a unit is not refused. -/
theorem not_refuses_of_unitOf_eq_none {run : RunResult} (hclass : run.classes[i]? = some a)
    (hnone : unitOf s a = none) : ¬ run.Refuses s i := by
  rintro ⟨r, -, -, hrefused⟩
  have hsame : registerUnit s (afterFirst s run.classes i) a = afterFirst s run.classes i := by
    rw [registerUnit, hnone]
  rw [afterFirst_succ hclass, hsame] at hrefused
  simpa using congrArg Prod.snd hrefused

/-- The unit of a class is emitted or refused, and not both. -/
theorem emits_or_refuses (hclass : (ofClasses s classes arrived).classes[i]? = some a)
    (hunit : unitOf s a = some u) :
    ((ofClasses s classes arrived).Emits s i a ∧ ¬ (ofClasses s classes arrived).Refuses s i) ∨
      (¬ (ofClasses s classes arrived).Emits s i a ∧
        (ofClasses s classes arrived).Refuses s i) := by
  have hbound : i + 1 ≤ (ofClasses s classes arrived).classes.length :=
    Nat.succ_le_of_lt (List.getElem?_eq_some_iff.mp hclass).1
  obtain ⟨hunits, hrefusals⟩ :
      (afterFirst s (ofClasses s classes arrived).classes (i + 1)).1.units <+:
          (registerUnits s (ofClasses s classes arrived).classes).1.units ∧
        (afterFirst s (ofClasses s classes arrived).classes (i + 1)).2 <+:
          (registerUnits s (ofClasses s classes arrived).classes).2 :=
    afterFirst_length s (ofClasses s classes arrived).classes ▸ afterFirst_mono hbound
  have hnext := afterFirst_succ (s := s) hclass
  rcases registerUnit_cases s (afterFirst s (ofClasses s classes arrived).classes i) a with
    ⟨hnone, -⟩ | ⟨w, hw, -, heq⟩ | ⟨w, e, -, -, heq⟩
  · cases hnone.symm.trans hunit
  · have hadds : Adds s (ofClasses s classes arrived).classes i w := by rw [Adds, hnext, heq]
    have hname : w.hintName = a.hintName := by
      rw [unitOf] at hw
      split at hw
      · exact Option.some.inj hw ▸ rfl
      · cases hw
    refine .inl ⟨⟨w, ?_, hw, hname, hadds⟩, ?_⟩
    · refine mem_units_iff.mpr (hunits.subset ?_)
      rw [hadds]
      exact List.mem_append_right _ List.mem_cons_self
    · rintro ⟨r, -, -, hrefused⟩
      rw [hnext, heq] at hrefused
      simpa using congrArg (fun state ↦ state.1.units) hrefused
  · refine .inr ⟨?_, duplicateReport a e, ?_, rfl, by rw [hnext, heq]⟩
    · rintro ⟨w, -, -, -, hadds⟩
      rw [Adds, hnext, heq] at hadds
      simp at hadds
    · refine mem_reports_of_refused (hrefusals.subset ?_)
      rw [hnext, heq]
      exact List.mem_append_right _ List.mem_cons_self

end OfClasses

/-- Units in the order of their names, if no two have one name, are in strictly rising order. -/
theorem sorted_strictly {r : Registry} (hnodup : (r.units.map (·.hintName)).Nodup) :
    r.sorted.Pairwise fun u w ↦ u.hintName < w.hintName := by
  have hordered : r.sorted.Pairwise fun u w ↦ (compare u.hintName w.hintName != .gt) = true :=
    List.pairwise_mergeSort
      (fun u v w huv hvw ↦ by
        simp only [bne_iff_ne, ne_eq, compare_gt_iff_gt, not_lt] at huv hvw ⊢
        exact huv.trans hvw)
      (fun u w ↦ by
        simp only [Bool.or_eq_true, bne_iff_ne, ne_eq, compare_gt_iff_gt, not_lt]
        exact le_total _ _) r.units
  have hnodup' : (r.sorted.map (·.hintName)).Nodup :=
    ((List.mergeSort_perm r.units _).map (·.hintName)).nodup_iff.mpr hnodup
  have hdistinct : r.sorted.Pairwise fun u w ↦ u.hintName ≠ w.hintName :=
    List.pairwise_map.mp hnodup'
  refine hordered.imp₂ (fun u w hle hne ↦ ?_) hdistinct
  simp only [bne_iff_ne, ne_eq, compare_gt_iff_gt, not_lt] at hle
  exact lt_of_le_of_ne hle hne

end RunResult

namespace Compilation

variable {c : Compilation} {s : Settings} {files : List SourceFile} {id : TypeId}

/-! ### Candidates and their analyses -/

theorem nodup_foldl_distinct {ids seen : List TypeId} (h : seen.Nodup) :
    (ids.foldl (fun seen id => if seen.contains id then seen else seen ++ [id]) seen).Nodup := by
  induction ids generalizing seen with
  | nil => exact h
  | cons id ids ih =>
    rw [List.foldl_cons]
    refine ih ?_
    split
    · exact h
    · rename_i hnew
      rw [List.contains_iff_mem] at hnew
      rw [List.nodup_append]
      refine ⟨h, List.nodup_singleton _, ?_⟩
      rintro seen hseen _ hlast rfl
      exact hnew (List.mem_singleton.mp hlast ▸ hseen)

theorem nodup_candidates (c : Compilation) : c.candidates.Nodup :=
  nodup_foldl_distinct List.nodup_nil

/-- A candidate is in the table, and is declared. -/
theorem exists_symbol_of_mem_candidates (h : id ∈ (ofFiles files).candidates) :
    ∃ symbol, (ofFiles files).symbol? id = some symbol ∧ symbol.sites ≠ [] := by
  obtain ⟨file, f, d, -, -, -, hidOf⟩ := mem_candidates_iff_idOf.mp h
  rw [idOf_ofFiles] at hidOf
  obtain ⟨e, hfound, rfl⟩ := Option.map_eq_some_iff.mp hidOf
  obtain ⟨symbol, hsymbol, hsite⟩ := exists_symbol_of_mem_declarations
    (List.mem_reverse.mp (List.mem_of_find?_eq_some hfound))
  exact ⟨symbol, hsymbol, List.ne_nil_of_mem hsite⟩

theorem exists_analyze_of_mem_candidates (s : Settings) (h : id ∈ (ofFiles files).candidates) :
    ∃ a reports, (ofFiles files).analyze s id = some (a, reports) := by
  obtain ⟨symbol, hsymbol, -⟩ := exists_symbol_of_mem_candidates h
  rw [analyze, hsymbol]
  exact ⟨_, _, rfl⟩

/-- If something is found for everything in a list, it is found in the same places. -/
theorem getElem?_filterMap_of_isSome {α β : Type} {f : α → Option β} {l : List α}
    (h : ∀ a ∈ l, (f a).isSome = true) (i : Nat) : (l.filterMap f)[i]? = l[i]?.bind f := by
  induction l generalizing i with
  | nil => rfl
  | cons a l ih =>
    obtain ⟨ha, hl⟩ := List.forall_mem_cons.mp h
    obtain ⟨b, hb⟩ := Option.isSome_iff_exists.mp ha
    rw [List.filterMap_cons_some hb]
    cases i with
    | zero => exact hb.symm
    | succ i => exact ih hl i

/-- The classes of a run are the analyses of the candidates. -/
theorem getElem?_classes (files : List SourceFile) (s : Settings) (i : Nat) :
    (((ofFiles files).analyzed s).map Prod.fst)[i]? =
      ((ofFiles files).candidates[i]?.bind ((ofFiles files).analyze s)).map Prod.fst := by
  rw [← getElem?_filterMap_of_isSome]
  · exact List.getElem?_map
  · intro id hid
    obtain ⟨a, reports, ha⟩ := exists_analyze_of_mem_candidates s hid
    rw [ha]
    rfl

/-! ### Classes that are not partial -/

end Compilation
end Companion
