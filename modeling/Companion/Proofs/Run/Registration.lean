import Companion.Proofs.Run.FileOrder
import Mathlib.Data.Finset.Card

/-!
Registries after any calls. The first unit of a name is kept and every later one is refused, so that
a registry holds, for each name that was asked for, the unit that asked for it first. The order in
which units are stored plays no part in what a registry gives out.
-/

set_option autoImplicit false
set_option relaxedAutoImplicit false

namespace Companion

namespace Registry

/-- One call of `register`: what it answers, and the registry behind it. -/
def call (r : Registry) (u : GeneratedUnit) : Except RegisterError Unit × Registry :=
  match r.register u with
  | .ok r' => (.ok (), r')
  | .error e => (.error e, r)

/-- The registry after some calls. -/
def after (calls : List GeneratedUnit) : Registry := calls.foldl (fun r u ↦ (r.call u).2) empty

/-- What a call answers that comes behind others. -/
def answer (earlier : List GeneratedUnit) (u : GeneratedUnit) : Except RegisterError Unit :=
  ((after earlier).call u).1

/-- How calls are answered one after the other, and what they leave. -/
structure FirstWins (calls : List GeneratedUnit) : Prop where
  /-- A call fails if and only if one before it has succeeded with the name. -/
  fails_iff : ∀ earlier u later, calls = earlier ++ u :: later →
    ((∃ e, answer earlier u = .error e) ↔
      ∃ before v between, earlier = before ++ v :: between ∧ answer before v = .ok () ∧
        v.hintName = u.hintName)
  /-- A call that fails says which name is taken, and changes nothing. -/
  failure : ∀ earlier u later e, calls = earlier ++ u :: later → answer earlier u = .error e →
    e = .duplicate u.hintName ∧ after (earlier ++ [u]) = after earlier
  /-- At every point there are as many units as names that were asked for. -/
  size_eq : ∀ earlier, earlier <+: calls →
    (after earlier).size = (earlier.map (·.hintName)).toFinset.card
  contains_iff : ∀ earlier, earlier <+: calls → ∀ name,
    (after earlier).contains name = true ↔ name ∈ earlier.map (·.hintName)
  sorted_lt : (after calls).sorted.Pairwise fun u w ↦ u.hintName < w.hintName
  /-- What is given out under a name is the first unit of that name. -/
  mem_sorted_iff : ∀ u, u ∈ (after calls).sorted ↔ calls.find? (·.hintName = u.hintName) = some u
  /-- The same units in any other order of storage are given out in the same order. -/
  sorted_eq : ∀ units : List GeneratedUnit, units.Perm (after calls).units →
    (⟨units⟩ : Registry).sorted = (after calls).sorted

variable {r : Registry} {calls : List GeneratedUnit} {u : GeneratedUnit}

/-! ### One call -/

/-- All that a call may do: refuse the unit, or add it. -/
theorem call_cases (r : Registry) (u : GeneratedUnit) :
    (u.hintName ∈ r.units.map (·.hintName) ∧ r.call u = (.error (.duplicate u.hintName), r)) ∨
      (u.hintName ∉ r.units.map (·.hintName) ∧ r.call u = (.ok (), ⟨r.units ++ [u]⟩)) := by
  have htaken : r.contains u.hintName = true ↔ u.hintName ∈ r.units.map (·.hintName) := by
    simp [contains]
  by_cases hcontains : r.contains u.hintName = true
  · exact .inl ⟨htaken.mp hcontains, by rw [call, register, if_pos hcontains]⟩
  · exact .inr ⟨mt htaken.mpr hcontains, by rw [call, register, if_neg hcontains]⟩

/-- A registry holds the first unit of each name among some units, and nothing else. -/
structure KeepsFirst (r : Registry) (calls : List GeneratedUnit) : Prop where
  nodup : (r.units.map (·.hintName)).Nodup
  mem_iff : ∀ u, u ∈ r.units ↔ calls.find? (·.hintName = u.hintName) = some u

theorem exists_find? {name : String} (h : name ∈ calls.map (·.hintName)) :
    ∃ v, calls.find? (·.hintName = name) = some v ∧ v.hintName = name := by
  obtain ⟨w, hw, rfl⟩ := List.mem_map.mp h
  obtain ⟨v, hv⟩ := Option.isSome_iff_exists.mp
    (List.find?_isSome (p := fun u ↦ decide (u.hintName = w.hintName)).mpr
      ⟨w, hw, decide_eq_true rfl⟩)
  refine ⟨v, hv, ?_⟩
  simpa using List.find?_some hv

/-- A unit that comes last is the first of its name if no other has the name. -/
theorem find?_concat_eq_some_iff (w : GeneratedUnit) :
    (calls ++ [u]).find? (·.hintName = w.hintName) = some w ↔
      calls.find? (·.hintName = w.hintName) = some w ∨
        (w = u ∧ u.hintName ∉ calls.map (·.hintName)) := by
  rw [List.find?_append]
  by_cases htaken : w.hintName ∈ calls.map (·.hintName)
  · obtain ⟨v, hv, -⟩ := exists_find? htaken
    rw [hv, Option.some_or]
    refine ⟨Or.inl, fun h ↦ h.resolve_right ?_⟩
    rintro ⟨rfl, hfree⟩
    exact hfree htaken
  · have hnone : calls.find? (·.hintName = w.hintName) = none := by simpa using htaken
    rw [hnone, Option.none_or, List.find?_singleton]
    constructor
    · intro h
      split at h
      · obtain rfl := Option.some.inj h
        exact .inr ⟨rfl, htaken⟩
      · cases h
    · rintro (h | ⟨rfl, -⟩)
      · cases h
      · rw [if_pos (decide_eq_true rfl)]

/-- The names of what is held are the names that were asked for. -/
theorem KeepsFirst.mem_names_iff (h : r.KeepsFirst calls) (name : String) :
    name ∈ r.units.map (·.hintName) ↔ name ∈ calls.map (·.hintName) := by
  constructor
  · intro hname
    obtain ⟨u, hu, rfl⟩ := List.mem_map.mp hname
    exact List.mem_map_of_mem (List.mem_of_find?_eq_some ((h.mem_iff u).mp hu))
  · intro hname
    obtain ⟨u, hu, rfl⟩ := exists_find? hname
    exact List.mem_map_of_mem ((h.mem_iff u).mpr hu)

theorem keepsFirst_empty : empty.KeepsFirst [] := ⟨List.nodup_nil, fun _ ↦ by simp [empty]⟩

/-- One more call. -/
theorem KeepsFirst.call (h : r.KeepsFirst calls) (u : GeneratedUnit) :
    (r.call u).2.KeepsFirst (calls ++ [u]) := by
  rcases call_cases r u with ⟨htaken, heq⟩ | ⟨hfree, heq⟩
  · rw [heq]
    refine ⟨h.nodup, fun w ↦ ?_⟩
    rw [find?_concat_eq_some_iff, h.mem_iff]
    refine ⟨Or.inl, fun hw ↦ hw.resolve_right fun hnew ↦ ?_⟩
    exact hnew.2 ((h.mem_names_iff _).mp htaken)
  · rw [heq]
    constructor
    · rw [List.map_append, List.nodup_append]
      refine ⟨h.nodup, List.nodup_singleton _, ?_⟩
      rintro name hname _ hlast rfl
      rw [List.mem_singleton.mp hlast] at hname
      exact hfree hname
    · intro w
      rw [find?_concat_eq_some_iff, List.mem_append, List.mem_singleton, h.mem_iff]
      exact or_congr_right ⟨fun hw ↦ ⟨hw, mt (h.mem_names_iff _).mpr hfree⟩, And.left⟩

/-! ### Calls one after the other -/

theorem after_concat (calls : List GeneratedUnit) (u : GeneratedUnit) :
    after (calls ++ [u]) = ((after calls).call u).2 := by
  rw [after, List.foldl_append]
  rfl

/-- What a registry holds after any calls, by induction over them. -/
theorem keepsFirst_after (calls : List GeneratedUnit) : (after calls).KeepsFirst calls := by
  induction calls using List.reverseRecOn with
  | nil => exact keepsFirst_empty
  | append_singleton calls u ih => exact after_concat calls u ▸ ih.call u

/-- A call is refused if its name was asked for before, and only then. -/
theorem answer_cases (earlier : List GeneratedUnit) (u : GeneratedUnit) :
    (u.hintName ∈ earlier.map (·.hintName) ∧ answer earlier u = .error (.duplicate u.hintName) ∧
        after (earlier ++ [u]) = after earlier) ∨
      (u.hintName ∉ earlier.map (·.hintName) ∧ answer earlier u = .ok ()) := by
  rw [after_concat, answer, ← (keepsFirst_after earlier).mem_names_iff]
  rcases call_cases (after earlier) u with ⟨htaken, heq⟩ | ⟨hfree, heq⟩
  · exact .inl ⟨htaken, by rw [heq], by rw [heq]⟩
  · exact .inr ⟨hfree, by rw [heq]⟩

/-- A name that was asked for was first asked for with success. -/
theorem exists_accepted {earlier : List GeneratedUnit} {name : String}
    (h : name ∈ earlier.map (·.hintName)) :
    ∃ before v between, earlier = before ++ v :: between ∧ answer before v = .ok () ∧
      v.hintName = name := by
  obtain ⟨v, hv, hname⟩ := exists_find? h
  obtain ⟨-, before, between, hsplit, hbefore⟩ := List.find?_eq_some_iff_append.mp hv
  refine ⟨before, v, between, hsplit, ?_, hname⟩
  rcases answer_cases before v with ⟨htaken, -, -⟩ | ⟨-, hok⟩
  · obtain ⟨x, hx, hxname⟩ := List.mem_map.mp htaken
    simpa [hxname, hname] using hbefore x hx
  · exact hok

/-- Whatever is registered in whatever order, the first unit of a name wins. -/
theorem firstWins (calls : List GeneratedUnit) : FirstWins calls := by
  have hkeeps := keepsFirst_after calls
  constructor
  case fails_iff =>
    rintro earlier u - -
    constructor
    · rintro ⟨e, herror⟩
      rcases answer_cases earlier u with ⟨htaken, -, -⟩ | ⟨-, hok⟩
      · exact exists_accepted htaken
      · cases hok.symm.trans herror
    · rintro ⟨before, v, between, rfl, -, hname⟩
      rcases answer_cases (before ++ v :: between) u with ⟨-, herror, -⟩ | ⟨hfree, -⟩
      · exact ⟨_, herror⟩
      · exact absurd (List.mem_map.mpr ⟨v, by simp, hname⟩) hfree
  case failure =>
    rintro earlier u - e - herror
    rcases answer_cases earlier u with ⟨-, herror', hsame⟩ | ⟨-, hok⟩
    · exact ⟨Except.error.inj (herror.symm.trans herror'), hsame⟩
    · cases hok.symm.trans herror
  case size_eq =>
    rintro earlier -
    have hearlier := keepsFirst_after earlier
    have hnames : (earlier.map (·.hintName)).toFinset =
        ((after earlier).units.map (·.hintName)).toFinset := by
      ext name
      rw [List.mem_toFinset, List.mem_toFinset, hearlier.mem_names_iff]
    rw [hnames, List.toFinset_card_of_nodup hearlier.nodup, List.length_map, size]
  case contains_iff =>
    rintro earlier - name
    rw [← (keepsFirst_after earlier).mem_names_iff]
    simp [contains]
  case sorted_lt => exact RunResult.sorted_strictly hkeeps.nodup
  case mem_sorted_iff =>
    intro u
    rw [sorted, (List.mergeSort_perm _ _).mem_iff, hkeeps.mem_iff]
  case sorted_eq =>
    intro units hperm
    exact RunResult.sorted_eq_of_perm hperm ((hperm.map _).nodup_iff.mpr hkeeps.nodup)

end Registry

/-! ### Runs -/

namespace RunResult

variable {s : Settings} {u : GeneratedUnit}

/-- Registering classes is calling `register` with the units of those that have one. -/
theorem fst_registerUnits_eq_after (s : Settings) (classes : List ClassAnalysis) :
    (registerUnits s classes).1 = Registry.after (classes.filterMap (unitOf s)) := by
  induction classes using List.reverseRecOn with
  | nil => rfl
  | append_singleton classes a ih =>
    have hstep : registerUnits s (classes ++ [a]) = registerUnit s (registerUnits s classes) a := by
      rw [registerUnits, List.foldl_append]
      rfl
    rw [hstep, List.filterMap_append]
    cases hunit : unitOf s a with
    | none =>
      rw [registerUnit, hunit, List.filterMap_cons_none hunit, List.filterMap_nil, List.append_nil,
        ih]
    | some u =>
      rw [List.filterMap_cons_some hunit, List.filterMap_nil, Registry.after_concat, ← ih]
      cases hregister : (registerUnits s classes).1.register u <;>
        simp [registerUnit, Registry.call, hunit, hregister]

/-- The unit that a run gives out under a name is that of the first class that asks for it. -/
theorem mem_units_iff_find? {c : Compilation} {r : RunResult} (h : c.Yields s r) : u ∈ r.units ↔
    (r.classes.filterMap (unitOf s)).find? (·.hintName = u.hintName) = some u := by
  obtain ⟨arrived, -, rfl⟩ := h
  rw [mem_units_iff, fst_registerUnits_eq_after]
  exact (Registry.keepsFirst_after _).mem_iff u

end RunResult
end Companion
