import Companion.Run

/-!
The orders in which reports arrive. Classes that are analyzed side by side report in any order that
keeps what each of them reports in its own order. Whatever the order is, a run yields the same units
and the same analyses (`Compilation.Yields.units_eq`, `Compilation.Yields.classes_eq`), and the same
reports up to their order (`Compilation.Yields.reports_perm`). To analyze one class after the other
is one of the runs that there may be (`Compilation.yields_ofCompilation`).
-/

set_option autoImplicit false
set_option relaxedAutoImplicit false

namespace Companion

namespace Interleaves

variable {α : Type} {lists : List (List α)} {l : List α}

theorem perm (h : Interleaves lists l) : l.Perm lists.flatten := by
  induction h with
  | done h => rw [List.flatten_eq_nil_iff.mpr h]
  | take _ ih =>
    rw [List.flatten_append, List.flatten_cons] at ih ⊢
    exact (ih.cons _).trans List.perm_middle.symm

theorem cons_nil (h : Interleaves lists l) : Interleaves ([] :: lists) l := by
  induction h with
  | done h => exact .done (List.forall_mem_cons.mpr ⟨rfl, h⟩)
  | @take before after a l rest _ ih => exact @take _ ([] :: before) after a l rest ih

/-- One list behind the other is one of the orders. -/
theorem flatten : ∀ lists : List (List α), Interleaves lists lists.flatten
  | [] => .done fun _ h ↦ by cases h
  | [] :: lists => (flatten lists).cons_nil
  | (a :: l) :: lists => @take _ [] lists a l _ (flatten (l :: lists))

end Interleaves

namespace Compilation

variable {c : Compilation} {s : Settings} {r : RunResult} {arrived : List Diagnostic}

theorem MayArrive.perm (h : c.MayArrive s arrived) :
    arrived.Perm ((c.analyzed s).flatMap Prod.snd) := by
  cases h with
  | sideBySide _ _ h =>
    rw [List.flatMap_def]
    exact h.perm
  | inOrder _ => exact .refl _

namespace Yields

theorem units_eq (h : c.Yields s r) : r.units = (RunResult.ofCompilation c s).units := by
  obtain ⟨arrived, -, rfl⟩ := h
  rfl

theorem classes_eq (h : c.Yields s r) : r.classes = (RunResult.ofCompilation c s).classes := by
  obtain ⟨arrived, -, rfl⟩ := h
  rfl

theorem reports_perm (h : c.Yields s r) :
    r.reports.Perm (RunResult.ofCompilation c s).reports := by
  obtain ⟨arrived, harrived, rfl⟩ := h
  exact harrived.perm.append_right _

end Yields

theorem mayArrive_flatMap (c : Compilation) (s : Settings) :
    c.MayArrive s ((c.analyzed s).flatMap Prod.snd) := by
  by_cases h : s.isParallel = true ∧ 1 < c.candidates.length
  · refine .sideBySide h.1 h.2 ?_
    rw [List.flatMap_def]
    exact .flatten _
  · refine .inOrder ?_
    rwa [Classical.not_and_iff_not_or_not, Bool.not_eq_true, Nat.not_lt] at h

theorem yields_ofCompilation (c : Compilation) (s : Settings) :
    c.Yields s (RunResult.ofCompilation c s) :=
  ⟨_, mayArrive_flatMap c s, rfl⟩

end Compilation

theorem Sources.yields_ofSources (sources : Sources) (s : Settings) :
    sources.Yields s (Generation.ofSources sources s) :=
  ⟨_, Compilation.yields_ofCompilation _ s, rfl⟩

end Companion
