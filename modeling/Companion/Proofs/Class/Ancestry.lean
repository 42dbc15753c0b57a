import Companion.Class.Analysis
import Mathlib.Data.List.Perm.Subperm
import Mathlib.Logic.Relation

/-!
The classes above a class. Every type has at most one declared base class, so the types above one
form a chain. When no type is its own base, directly or through others, the walk upwards that
analysis makes reaches the end of that chain: its budget and its memory of what it has seen never
stop it. Ancestors are then exactly the types that a class is derived from, and the ancestors of an
ancestor are what is left of the chain behind it.
-/

set_option autoImplicit false
set_option relaxedAutoImplicit false

namespace Companion.Compilation

variable {c : Compilation}

/-- The type that the declared base of a type is an instance of. -/
def baseId? (c : Compilation) (id : TypeId) : Option TypeId := (c.base? id).bind Ty.id?

/-- The declared base of the first type is an instance of the second. -/
def DerivesFrom (c : Compilation) (id base : TypeId) : Prop := c.baseId? id = some base

/-- The first type is derived from the second, through one link or more. -/
abbrev IsBelow (c : Compilation) : TypeId → TypeId → Prop := Relation.TransGen c.DerivesFrom

/-- No type is its own base, directly or through others. -/
def AcyclicBases (c : Compilation) : Prop := ∀ id, ¬ c.IsBelow id id

theorem DerivesFrom.unique {id base base' : TypeId} (h : c.DerivesFrom id base)
    (h' : c.DerivesFrom id base') : base = base' := Option.some.inj (h.symm.trans h')

/-- A type with a base is in the table. -/
theorem DerivesFrom.lt_length {id base : TypeId} (h : c.DerivesFrom id base) :
    id < c.table.symbols.length := by
  by_contra hlen
  have hnone : c.symbol? id = none := List.getElem?_eq_none (Nat.le_of_not_lt hlen)
  simp [DerivesFrom, baseId?, base?, hnone] at h

/-- Of two types of a chain, only one is derived from a given type directly. -/
theorem IsBelow.not_derivesFrom (hacyclic : c.AcyclicBases) {id above base : TypeId}
    (hbelow : c.IsBelow id above) (h : c.DerivesFrom id base) : ¬ c.DerivesFrom above base := by
  intro habove
  obtain ⟨next, hstep, hrest⟩ := Relation.TransGen.head'_iff.mp hbelow
  obtain rfl := h.unique hstep
  rcases Relation.reflTransGen_iff_eq_or_transGen.mp hrest with rfl | hrest
  · exact hacyclic _ (.single habove)
  · exact hacyclic _ (.head habove hrest)

/-- If bases come before what is derived from them, no type is its own base. -/
theorem acyclicBases_of_lt
    (h : ∀ id < c.table.symbols.length, ∀ base ∈ c.baseId? id, base < id) : c.AcyclicBases := by
  intro id hcycle
  have hlt : ∀ {a b : TypeId}, c.IsBelow a b → b < a := by
    intro a b hab
    induction hab with
    | single hstep => exact h _ hstep.lt_length _ hstep
    | tail _ hstep ih => exact Nat.lt_trans (h _ hstep.lt_length _ hstep) ih
  exact Nat.lt_irrefl id (hlt hcycle)

/-! ### Chains of bases -/

/-- The types above a type, nearest first, up to one that has no base. -/
inductive BaseChain (c : Compilation) : TypeId → List TypeId → Prop
  | top {id : TypeId} (h : c.baseId? id = none) : BaseChain c id []
  | link {id base : TypeId} {above : List TypeId} (h : c.DerivesFrom id base)
      (habove : BaseChain c base above) : BaseChain c id (base :: above)

namespace BaseChain

theorem unique {id : TypeId} {above above' : List TypeId} (h : c.BaseChain id above)
    (h' : c.BaseChain id above') : above = above' := by
  induction h generalizing above' with
  | top hnone =>
    cases h' with
    | top => rfl
    | link hsome => simp [DerivesFrom, hnone] at hsome
  | link hsome _ ih =>
    cases h' with
    | top hnone => simp [DerivesFrom, hnone] at hsome
    | link hsome' habove =>
      obtain rfl := hsome.unique hsome'
      rw [ih habove]

theorem isBelow {id : TypeId} {above : List TypeId} (h : c.BaseChain id above) :
    ∀ base ∈ above, c.IsBelow id base := by
  induction h with
  | top => simp
  | link hsome _ ih =>
    intro base hbase
    rcases List.mem_cons.mp hbase with rfl | hmem
    · exact .single hsome
    · exact .head hsome (ih base hmem)

theorem mem_of_isBelow {id base : TypeId} (hbelow : c.IsBelow id base) {above : List TypeId}
    (h : c.BaseChain id above) : base ∈ above := by
  induction hbelow using Relation.TransGen.head_induction_on generalizing above with
  | single hstep =>
    cases h with
    | top hnone => simp [DerivesFrom, hnone] at hstep
    | link hsome _ =>
      rw [hstep.unique hsome]
      exact List.mem_cons_self
  | head hstep _ ih =>
    cases h with
    | top hnone => simp [DerivesFrom, hnone] at hstep
    | link hsome habove =>
      obtain rfl := hstep.unique hsome
      exact List.mem_cons_of_mem _ (ih habove)

/-- Behind an ancestor stands what is above it. -/
theorem behind {id base : TypeId} {near far : List TypeId}
    (h : c.BaseChain id (near ++ base :: far)) : c.BaseChain base far := by
  induction near generalizing id with
  | nil =>
    cases h with
    | link _ habove => exact habove
  | cons _ _ ih =>
    cases h with
    | link _ habove => exact ih habove

/-- Each type of a chain is derived from all that come behind it. -/
theorem pairwise {id : TypeId} {above : List TypeId} (h : c.BaseChain id above) :
    (id :: above).Pairwise c.IsBelow := by
  induction h with
  | top => simp
  | link hsome habove ih => exact List.pairwise_cons.mpr ⟨(link hsome habove).isBelow, ih⟩

end BaseChain

/-! ### The walk upwards -/

private theorem length_le_of_nodup {ids : List TypeId} {bound : Nat} (hnodup : ids.Nodup)
    (hlt : ∀ id ∈ ids, id < bound) : ids.length ≤ bound := by
  have hsubset : ids ⊆ List.range bound := fun id hid ↦ List.mem_range.mpr (hlt id hid)
  simpa using (List.subperm_of_subset hnodup hsubset).length_le

/-- A walk that has seen the types below `current` goes on to the end of the chain: each step leads
to a type that was not seen, and there are no more steps than types. -/
theorem baseChain_ancestorsWithin (hacyclic : c.AcyclicBases) :
    ∀ (budget : Nat) (current : TypeId) (below : List TypeId),
      (current :: below).Nodup → (∀ id ∈ below, c.IsBelow id current) →
      (∀ id ∈ below, id < c.table.symbols.length) →
      budget + below.length = c.table.symbols.length →
      c.BaseChain current (c.ancestorsWithin budget current (current :: below)) := by
  intro budget
  induction budget with
  | zero =>
    intro current below hnodup _ hvalid hbudget
    refine .top ?_
    by_contra hbase
    obtain ⟨base, hbase⟩ := Option.ne_none_iff_exists'.mp hbase
    have hcurrent : current < c.table.symbols.length := DerivesFrom.lt_length hbase
    have hlen := length_le_of_nodup hnodup (List.forall_mem_cons.mpr ⟨hcurrent, hvalid⟩)
    simp only [List.length_cons] at hlen
    omega
  | succ budget ih =>
    intro current below hnodup hbelow hvalid hbudget
    rw [ancestorsWithin]
    cases hbase : (c.base? current).bind Ty.id? with
    | none => exact .top hbase
    | some base =>
      have hstep : c.DerivesFrom current base := hbase
      have hbelow' : ∀ id ∈ current :: below, c.IsBelow id base :=
        List.forall_mem_cons.mpr ⟨.single hstep, fun id hid ↦ (hbelow id hid).tail hstep⟩
      have hfresh : base ∉ current :: below := fun hmem ↦ hacyclic base (hbelow' base hmem)
      have hseen : (current :: below).contains base = false := by
        simpa [List.contains_iff_mem] using hfresh
      simp only [hseen, Bool.false_eq_true, ↓reduceIte]
      refine .link hstep (ih base (current :: below) (List.nodup_cons.mpr ⟨hfresh, hnodup⟩)
        hbelow' (List.forall_mem_cons.mpr ⟨hstep.lt_length, hvalid⟩) ?_)
      simp only [List.length_cons]
      omega

/-- The ancestors that analysis finds are the whole chain above a type. -/
theorem baseChain_ancestors (hacyclic : c.AcyclicBases) (id : TypeId) :
    c.BaseChain id (c.ancestors id) :=
  baseChain_ancestorsWithin hacyclic _ id [] (by simp) (by simp) (by simp) (by simp)

theorem mem_ancestors_iff (hacyclic : c.AcyclicBases) {id base : TypeId} :
    base ∈ c.ancestors id ↔ c.IsBelow id base :=
  ⟨(baseChain_ancestors hacyclic id).isBelow base,
    fun h ↦ BaseChain.mem_of_isBelow h (baseChain_ancestors hacyclic id)⟩

/-- The ancestors of an ancestor are those behind it. -/
theorem ancestors_eq_of_split (hacyclic : c.AcyclicBases) {id base : TypeId}
    {near far : List TypeId} (h : c.ancestors id = near ++ base :: far) :
    c.ancestors base = far :=
  (baseChain_ancestors hacyclic base).unique (h ▸ baseChain_ancestors hacyclic id).behind

end Companion.Compilation
