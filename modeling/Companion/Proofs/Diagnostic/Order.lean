import Companion.Diagnostic.Basic
import Mathlib.Data.List.Perm.Lattice
import Mathlib.Data.String.Basic

/-!
The order of reports. Two diagnostics tie if they agree in file, place, code and message; labels,
notes and suggestions do not count. Sorting is stable: it leaves diagnostics that tie in the order
in which they come, and so two orders of the same diagnostics are sorted alike if and only if
diagnostics that tie come in one order in both.
-/

set_option autoImplicit false
set_option relaxedAutoImplicit false

namespace Companion

open Std

instance : TransCmp Span.compare :=
  inferInstanceAs (TransCmp (compareLex (compareOn Span.start) (compareOn Span.stop)))

instance : LawfulEqCmp Span.compare where
  eq_of_compare {a b} h := by
    rw [Span.compare, Ordering.then_eq_eq, LawfulEqCmp.compare_eq_iff_eq,
      LawfulEqCmp.compare_eq_iff_eq] at h
    obtain ⟨start, stop⟩ := a
    obtain ⟨hstart, hstop⟩ := h
    simp_all

namespace Diagnostic

variable {d e e' : Diagnostic} {l l' : List Diagnostic}

section Optional

variable {α : Type} {cmp : α → α → Ordering}

instance [TransCmp cmp] : TransCmp (compareOptional cmp) where
  eq_swap {a b} := by
    cases a <;> cases b <;> try rfl
    rename_i a b
    show cmp a b = (cmp b a).swap
    exact OrientedCmp.eq_swap
  isLE_trans {a b c} hab hbc := by
    cases a <;> cases b <;> cases c <;> simp only [compareOptional] at hab hbc ⊢ <;> try trivial
    exact TransCmp.isLE_trans hab hbc

theorem compareOptional_eq_iff [LawfulEqCmp cmp] {a b : Option α} :
    compareOptional cmp a b = .eq ↔ a = b := by
  cases a <;> cases b <;> simp [compareOptional]

end Optional

theorem transCmp_comparing {α β : Type} (f : α → β) (cmp : β → β → Ordering) [TransCmp cmp] :
    TransCmp fun a b ↦ cmp (f a) (f b) where
  eq_swap {a b} := by
    show cmp (f a) (f b) = (cmp (f b) (f a)).swap
    exact OrientedCmp.eq_swap
  isLE_trans hab hbc := TransCmp.isLE_trans hab hbc

instance : TransCmp compare :=
  have := transCmp_comparing Diagnostic.file (compareOptional Ord.compare)
  have := transCmp_comparing Diagnostic.primarySpan (compareOptional Span.compare)
  inferInstanceAs (TransCmp (compareLex
    (fun a b : Diagnostic ↦ compareOptional Ord.compare a.file b.file)
    (compareLex (fun a b : Diagnostic ↦ compareOptional Span.compare a.primarySpan b.primarySpan)
      (compareLex (compareOn fun d : Diagnostic ↦ d.code.number) (compareOn Diagnostic.message)))))

theorem Code.number_inj {a b : Code} (h : a.number = b.number) : a = b := by
  cases a <;> cases b <;> first | rfl | cases h

/-- Two diagnostics tie if they agree in file, place, code and message. -/
theorem compare_eq_iff : d.compare e = .eq ↔ d.file = e.file ∧ d.primarySpan = e.primarySpan ∧
    d.code = e.code ∧ d.message = e.message := by
  simp only [compare, Ordering.then_eq_eq, compareOptional_eq_iff, LawfulEqCmp.compare_eq_iff_eq]
  exact and_congr_right' (and_congr_right' (and_congr_left' ⟨Code.number_inj, congrArg _⟩))

/-- The diagnostics of a list that tie with one, in order. -/
def tying (d : Diagnostic) (l : List Diagnostic) : List Diagnostic :=
  l.filter fun e ↦ e.compare d = .eq

theorem mem_tying_iff : e ∈ d.tying l ↔ e ∈ l ∧ e.compare d = .eq := by
  simp [tying]

theorem tying_flatMap {α : Type} (d : Diagnostic) (as : List α) (f : α → List Diagnostic) :
    d.tying (as.flatMap f) = as.flatMap fun a ↦ d.tying (f a) := by
  simp [tying, List.filter_flatMap]

/-! ### Stable sorting -/

theorem sort_trans (d e e' : Diagnostic) (h : (d.compare e != .gt) = true)
    (h' : (e.compare e' != .gt) = true) : (d.compare e' != .gt) = true := by
  simp only [bne_iff_ne, ne_eq, ← Ordering.isLE_iff_ne_gt] at h h' ⊢
  exact TransCmp.isLE_trans h h'

theorem sort_total (d e : Diagnostic) :
    ((d.compare e != .gt) || (e.compare d != .gt)) = true := by
  have hswap : d.compare e = (e.compare d).swap := OrientedCmp.eq_swap
  rw [hswap]
  cases e.compare d <;> rfl

theorem sort_perm (l : List Diagnostic) : (sort l).Perm l := List.mergeSort_perm l _

/-- Sorting leaves diagnostics that tie in their order. -/
theorem tying_sort (d : Diagnostic) (l : List Diagnostic) : d.tying (sort l) = d.tying l := by
  have hties : (d.tying l).Pairwise fun e e' ↦ (e.compare e' != .gt) = true := by
    refine List.pairwise_of_forall_mem_list fun e he e' he' ↦ ?_
    have heq : e.compare e' = .eq :=
      TransCmp.eq_trans (mem_tying_iff.mp he).2 (OrientedCmp.eq_symm (mem_tying_iff.mp he').2)
    rw [heq]
    rfl
  have hsublist : (d.tying l).Sublist (sort l) :=
    List.sublist_mergeSort sort_trans sort_total hties List.filter_sublist
  have hfiltered := hsublist.filter fun e ↦ decide (e.compare d = .eq)
  rw [tying, List.filter_filter] at hfiltered
  simp only [Bool.and_self] at hfiltered
  exact (hfiltered.eq_of_length_le ((sort_perm l).filter _).length_eq.le).symm

/-- Two sorted lists of the same diagnostics in which those that tie are in one order are equal. -/
theorem eq_of_tying_eq (hsorted : l.Pairwise fun e e' ↦ (e.compare e' != .gt) = true)
    (hsorted' : l'.Pairwise fun e e' ↦ (e.compare e' != .gt) = true) (hperm : l.Perm l')
    (h : ∀ d : Diagnostic, d.tying l = d.tying l') : l = l' := by
  induction l generalizing l' with
  | nil => exact hperm.nil_eq
  | cons a l ih =>
    cases l' with
    | nil => exact absurd hperm.length_eq (Nat.succ_ne_zero _)
    | cons b l' =>
      obtain ⟨hfirst, hrest⟩ := List.pairwise_cons.mp hsorted
      obtain ⟨hfirst', hrest'⟩ := List.pairwise_cons.mp hsorted'
      have hties : b.compare a = .eq := by
        have hab : (a.compare b).isLE := by
          rcases List.mem_cons.mp (hperm.mem_iff.mpr List.mem_cons_self) with rfl | hb
          · exact ReflCmp.isLE_rfl
          · exact Ordering.isLE_iff_ne_gt.mpr (by simpa using hfirst b hb)
        have hba : (b.compare a).isLE := by
          rcases List.mem_cons.mp (hperm.mem_iff.mp List.mem_cons_self) with rfl | ha
          · exact ReflCmp.isLE_rfl
          · exact Ordering.isLE_iff_ne_gt.mpr (by simpa using hfirst' a ha)
        exact OrientedCmp.isLE_antisymm hba hab
      have hself : a.compare a = .eq := ReflCmp.compare_self
      have hhead := h a
      simp only [tying, List.filter_cons, hties, hself, decide_true, ↓reduceIte,
        List.cons.injEq] at hhead
      obtain rfl := hhead.1
      refine congrArg (List.cons a) (ih hrest hrest' hperm.cons_inv fun d ↦ ?_)
      have hd := h d
      simp only [tying, List.filter_cons] at hd
      split at hd
      · exact (List.cons.inj hd).2
      · exact hd

/-- Two orders of the same diagnostics are sorted alike if and only if diagnostics that tie come in
one order in both. -/
theorem sort_eq_sort_iff (hperm : l.Perm l') :
    sort l = sort l' ↔ ∀ d : Diagnostic, d.tying l = d.tying l' := by
  constructor
  · intro h d
    rw [← tying_sort d l, h, tying_sort]
  · intro h
    refine eq_of_tying_eq (List.pairwise_mergeSort sort_trans sort_total l)
      (List.pairwise_mergeSort sort_trans sort_total l')
      ((sort_perm l).trans (hperm.trans (sort_perm l').symm)) fun d ↦ ?_
    rw [tying_sort, tying_sort, h d]

/-- A part may be put into another order if diagnostics that tie stay in theirs. -/
theorem sort_append_congr (front back : List Diagnostic) (hperm : l.Perm l')
    (h : ∀ d : Diagnostic, d.tying l = d.tying l') :
    sort (front ++ (l ++ back)) = sort (front ++ (l' ++ back)) := by
  refine (sort_eq_sort_iff ((hperm.append_right back).append_left front)).mpr fun d ↦ ?_
  have hl := h d
  simp only [tying, List.filter_append] at hl ⊢
  rw [hl]

/-- What is left of a sorted list is sorted as if the rest had never been there. -/
theorem filter_sort (p : Diagnostic → Bool) (l : List Diagnostic) :
    (sort l).filter p = sort (l.filter p) := by
  refine eq_of_tying_eq ((List.pairwise_mergeSort sort_trans sort_total l).filter p)
    (List.pairwise_mergeSort sort_trans sort_total (l.filter p))
    (((sort_perm l).filter p).trans (sort_perm (l.filter p)).symm) fun d ↦ ?_
  have hcomm (l : List Diagnostic) : d.tying (l.filter p) = (d.tying l).filter p :=
    List.filter_comm _ _ _
  rw [hcomm, tying_sort, tying_sort, hcomm]

end Diagnostic
end Companion
