import Companion.Proofs.Class.Ancestry
import Companion.Proofs.Symbol.Sites
import Companion.Proofs.Unit.HookText

/-!
The companions along a chain of classes agree about their hooks (`hook_parts_agree`), though each
class settles its part alone, by a walk upwards and a look at everything that is declared. The link
between two classes is that the ancestors of an ancestor are what is left of the chain behind it. So
the calls that overriding companions make lead to one root, which declares the hook (`exists_root`),
and no companion stands below one that takes itself to be alone.
-/

set_option autoImplicit false
set_option relaxedAutoImplicit false

namespace Companion.Compilation

variable {c : Compilation} {s : Settings}

/-- A type has a unit of its own in a run that looks at it. -/
def emits (c : Compilation) (s : Settings) (id : TypeId) : Bool :=
  ((c.analyze s id).map fun r ↦ r.1.shouldEmit).getD false

/-- The part that a type finds for itself among the companions of base and derived classes. -/
def partOf (c : Compilation) (s : Settings) (id : TypeId) : Option HookRole :=
  (c.analyze s id).map fun r ↦ r.1.hookRole

/-- The text of the unit that a type would get. -/
def unitText (c : Compilation) (s : Settings) (id : TypeId) : Option String :=
  (c.analyze s id).map fun r ↦ s.companionText r.1

/-- A type names the callback interface among its own bases. -/
def listsCallback (c : Compilation) (s : Settings) (id : TypeId) : Bool :=
  ((c.symbol? id).map (·.listsCallback c s)).getD false

/-- The nearest of the types above a class that has a unit. -/
def nearestCompanion (c : Compilation) (s : Settings) (id : TypeId) : Option TypeId :=
  (c.ancestors id).find? (c.emits s)

/-- The companion of the first type overrides the hook, and calls that of the second. -/
def CallsBase (c : Compilation) (s : Settings) (id base : TypeId) : Prop :=
  c.partOf s id = some .override ∧ c.nearestCompanion s id = some base

def isClassType (c : Compilation) (id : TypeId) : Bool := (c.symbol? id).any (·.isClass)

/-- Only classes and records are derived, and only from classes and records. -/
def BasesAreClasses (c : Compilation) : Prop :=
  ∀ id base, c.DerivesFrom id base → c.isClassType id = true ∧ c.isClassType base = true

theorem basesAreClasses_of_lt (h : ∀ id < c.table.symbols.length, ∀ base ∈ c.baseId? id,
    c.isClassType id = true ∧ c.isClassType base = true) : c.BasesAreClasses :=
  fun id base hstep ↦ h id hstep.lt_length base hstep

/-! ### What a type finds out about itself -/

theorem emits_eq {id : TypeId} {symbol : Symbol} (h : c.symbol? id = some symbol) :
    c.emits s id = (c.isPartialChain id &&
      (!(symbol.ownShapes c s).isEmpty || !(c.inheritedFields s id).isEmpty)) := by
  simp [emits, analyze, h, analysisOf, ClassAnalysis.shouldEmit, Bool.and_comm]

/-- Other types take a class to have a companion if and only if its own analysis says so. -/
theorem hasCompanion_eq_emits {id : TypeId} (h : c.isClassType id = true) :
    c.hasCompanion s id = c.emits s id := by
  obtain ⟨symbol, hsymbol, hclass⟩ := (Option.any_eq_true _ _).mp h
  rw [emits_eq hsymbol, hasCompanion, hsymbol]
  simp [hclass]

theorem exists_symbol_of_emits {id : TypeId} (h : c.emits s id = true) :
    ∃ symbol, c.symbol? id = some symbol ∧ c.isPartialType id = true := by
  cases hsymbol : c.symbol? id with
  | none => simp [emits, analyze, hsymbol] at h
  | some symbol =>
    rw [emits_eq hsymbol, isPartialChain] at h
    simp only [Bool.and_eq_true] at h
    exact ⟨symbol, rfl, h.1.1⟩

/-- Only a type that has a unit looks for the companions above and below it. -/
theorem partOf_of_emits {id : TypeId} (h : c.emits s id = true) :
    c.partOf s id = some (c.hookRole s id) := by
  obtain ⟨symbol, hsymbol, -⟩ := exists_symbol_of_emits h
  rw [emits_eq hsymbol, Bool.and_eq_true] at h
  simp only [partOf, analyze, hsymbol, Option.map_some, analysisOf, h.1, h.2, Bool.and_self,
    ↓reduceIte]

/-- A type that has a unit is declared: types known beforehand are partial nowhere. -/
theorem mem_declared_of_emits {files : List SourceFile} {id : TypeId} {symbol : Symbol}
    (hsymbol : (ofFiles files).symbol? id = some symbol) (h : (ofFiles files).emits s id = true) :
    (id, symbol) ∈ (ofFiles files).declared := by
  refine mem_declared_iff.mpr ⟨?_, hsymbol⟩
  by_contra hknown
  have hsites := sites_eq_nil_of_lt hsymbol (Nat.lt_of_not_le hknown)
  obtain ⟨_, hsymbol', hpartial⟩ := exists_symbol_of_emits h
  obtain rfl := Option.some.inj (hsymbol.symm.trans hsymbol')
  simp [isPartialType, hsymbol, Symbol.isPartial, hsites] at hpartial

/-! ### What a type finds above it -/

/-- The walk upwards stops at a companion: it is the first, and no class in front of it implements
the callback interface. -/
theorem above_eq_companion_iff {ids : List TypeId}
    (hclasses : ∀ id ∈ ids, c.hasCompanion s id = c.emits s id) :
    c.above s ids = .companion ↔
      ∃ near base far, ids = near ++ base :: far ∧ c.emits s base = true ∧
        ∀ id ∈ near, ¬ c.emits s id = true → ¬ c.listsCallback s id = true := by
  induction ids with
  | nil => simp [above]
  | cons id rest ih =>
    obtain ⟨hid, hrest⟩ := List.forall_mem_cons.mp hclasses
    rw [above, hid]
    by_cases hemit : c.emits s id = true
    · simp only [hemit, ↓reduceIte, true_iff]
      exact ⟨[], id, rest, rfl, hemit, by simp⟩
    · by_cases hlists : c.listsCallback s id = true
      · have hlists' := hlists
        rw [listsCallback] at hlists'
        simp only [hemit, Bool.false_eq_true, ↓reduceIte, hlists', reduceCtorEq, false_iff]
        rintro ⟨near, base, far, heq, hbase, hnear⟩
        cases near with
        | nil =>
          obtain ⟨rfl, -⟩ := List.cons.inj heq
          exact hemit hbase
        | cons _ _ =>
          obtain ⟨rfl, -⟩ := List.cons.inj heq
          exact hnear id List.mem_cons_self hemit hlists
      · have hlists' := hlists
        rw [listsCallback] at hlists'
        simp only [hemit, Bool.false_eq_true, ↓reduceIte, hlists', ih hrest]
        constructor
        · rintro ⟨near, base, far, rfl, hbase, hnear⟩
          refine ⟨id :: near, base, far, rfl, hbase, ?_⟩
          exact List.forall_mem_cons.mpr ⟨fun _ ↦ hlists, hnear⟩
        · rintro ⟨near, base, far, heq, hbase, hnear⟩
          cases near with
          | nil =>
            obtain ⟨rfl, -⟩ := List.cons.inj heq
            exact absurd hbase hemit
          | cons _ near =>
            obtain ⟨rfl, rfl⟩ := List.cons.inj heq
            exact ⟨near, base, far, rfl, hbase, (List.forall_mem_cons.mp hnear).2⟩

/-- What stands in front of the nearest companion decides whether a class overrides its hook. -/
theorem hookRole_eq_override_iff {id : TypeId}
    (hclasses : ∀ base ∈ c.ancestors id, c.hasCompanion s base = c.emits s base) :
    c.hookRole s id = .override ↔
      ∃ near base far, c.ancestors id = near ++ base :: far ∧ c.emits s base = true ∧
        ∀ n ∈ near, ¬ c.emits s n = true → ¬ c.listsCallback s n = true := by
  rw [← above_eq_companion_iff hclasses, hookRole]
  split
  · rename_i habove
    simp [habove]
  · rename_i habove
    constructor
    · intro hrole
      split at hrole <;> cases hrole
    · intro heq
      exact absurd heq habove

/-! ### Agreement along a chain -/

section Chain

variable {files : List SourceFile}

theorem isClassType_of_isBelow (hclasses : c.BasesAreClasses) {id base : TypeId}
    (h : c.IsBelow id base) : c.isClassType id = true ∧ c.isClassType base = true := by
  obtain ⟨next, hfirst, -⟩ := Relation.TransGen.head'_iff.mp h
  obtain ⟨previous, -, hlast⟩ := Relation.TransGen.tail'_iff.mp h
  exact ⟨(hclasses _ _ hfirst).1, (hclasses _ _ hlast).2⟩

/-- A class sees the companions below it, and no others. -/
theorem isExtended_iff (hacyclic : (ofFiles files).AcyclicBases)
    (hclasses : (ofFiles files).BasesAreClasses) {id : TypeId} :
    (ofFiles files).isExtended s id = true ↔
      ∃ below, (ofFiles files).IsBelow below id ∧ (ofFiles files).emits s below = true := by
  simp only [isExtended, List.any_eq_true, Prod.exists, Bool.and_eq_true, List.contains_iff_mem,
    mem_ancestors_iff hacyclic]
  constructor
  · rintro ⟨below, symbol, -, ⟨-, hbelow⟩, hcompanion⟩
    rw [hasCompanion_eq_emits (isClassType_of_isBelow hclasses hbelow).1] at hcompanion
    exact ⟨below, hbelow, hcompanion⟩
  · rintro ⟨below, hbelow, hemit⟩
    have hclassType := (isClassType_of_isBelow hclasses hbelow).1
    obtain ⟨symbol, hsymbol, hclass⟩ := (Option.any_eq_true _ _).mp hclassType
    refine ⟨below, symbol, mem_declared_of_emits hsymbol hemit, ⟨⟨?_, hclass⟩, hbelow⟩, ?_⟩
    · refine bne_iff_ne.mpr fun hself ↦ hacyclic id ?_
      rwa [hself] at hbelow
    · rw [hasCompanion_eq_emits hclassType, hemit]

/-- A class that overrides a hook has a nearest companion above it, which takes itself to be the
root or overrides a hook in turn. -/
theorem exists_nearestCompanion (hacyclic : (ofFiles files).AcyclicBases)
    (hclasses : (ofFiles files).BasesAreClasses) {id : TypeId}
    (hemit : (ofFiles files).emits s id = true)
    (hrole : (ofFiles files).hookRole s id = .override) :
    ∃ base, (ofFiles files).nearestCompanion s id = some base ∧
      (ofFiles files).emits s base = true ∧
      ((ofFiles files).ancestors base).length < ((ofFiles files).ancestors id).length ∧
      ((ofFiles files).hookRole s base = .root ∨ (ofFiles files).hookRole s base = .override) := by
  have hequal : ∀ base ∈ (ofFiles files).ancestors id,
      (ofFiles files).hasCompanion s base = (ofFiles files).emits s base := fun base hbase ↦
    hasCompanion_eq_emits
      (isClassType_of_isBelow hclasses ((mem_ancestors_iff hacyclic).mp hbase)).2
  obtain ⟨near, other, far, hsplit, hother, -⟩ := (hookRole_eq_override_iff hequal).mp hrole
  have hsome : ((ofFiles files).nearestCompanion s id).isSome = true := by
    rw [nearestCompanion, List.find?_isSome]
    exact ⟨other, by simp [hsplit], hother⟩
  obtain ⟨base, hbase⟩ := Option.isSome_iff_exists.mp hsome
  obtain ⟨hbaseEmits, nearer, behind, hat, -⟩ := List.find?_eq_some_iff_append.mp hbase
  have hbelow : (ofFiles files).IsBelow id base :=
    (mem_ancestors_iff hacyclic).mp (by simp [hat])
  have hextended := (isExtended_iff hacyclic hclasses).mpr ⟨id, hbelow, hemit⟩
  refine ⟨base, hbase, hbaseEmits, ?_, ?_⟩
  · rw [ancestors_eq_of_split hacyclic hat, hat]
    simp only [List.length_append, List.length_cons]
    omega
  · rw [hookRole]
    split
    · exact .inr rfl
    · exact .inl (if_pos hextended)

end Chain

/-! ### The hook that a chain shares -/

/-- The calls of base hooks that start in the companion of a class end in a root, which declares the
hook; every companion before it extends the hook. -/
structure EndsInRoot (c : Compilation) (s : Settings) (id root : TypeId) : Prop where
  reaches : Relation.ReflTransGen (c.CallsBase s) id root
  isRoot : c.partOf s root = some .root
  emitted : c.emits s root = true
  declares : ∃ text, c.unitText s root = some text ∧ DeclaresRootHook text
  overrides : ∀ mid, Relation.ReflTransGen (c.CallsBase s) id mid → mid ≠ root →
    c.emits s mid = true ∧ c.partOf s mid = some .override ∧
      ∃ text, c.unitText s mid = some text ∧ ExtendsBaseHook text

theorem CallsBase.unique {id base base' : TypeId} (h : c.CallsBase s id base)
    (h' : c.CallsBase s id base') : base = base' := Option.some.inj (h.2.symm.trans h'.2)

theorem declaresRootHook_unitText {id : TypeId} (h : c.partOf s id = some .root) :
    ∃ text, c.unitText s id = some text ∧ DeclaresRootHook text := by
  obtain ⟨r, hr, hrole⟩ := Option.map_eq_some_iff.mp h
  exact ⟨s.companionText r.1, by rw [unitText, hr]; rfl, s.declaresRootHook_companionText hrole⟩

theorem extendsBaseHook_unitText {id : TypeId} (h : c.partOf s id = some .override) :
    ∃ text, c.unitText s id = some text ∧ ExtendsBaseHook text := by
  obtain ⟨r, hr, hrole⟩ := Option.map_eq_some_iff.mp h
  exact ⟨s.companionText r.1, by rw [unitText, hr]; rfl, s.extendsBaseHook_companionText hrole⟩

/-- A root calls no hook of a base. -/
theorem eq_of_reaches_of_root {root other : TypeId} (hroot : c.partOf s root = some .root)
    (h : Relation.ReflTransGen (c.CallsBase s) root other) : other = root := by
  rcases Relation.ReflTransGen.cases_head h with heq | ⟨next, hstep, -⟩
  · exact heq.symm
  · exact absurd (hroot.symm.trans hstep.1) (by simp)

/-- There is at most one root that the calls lead to, and only overriding companions before it. -/
theorem reaches_or_eq_root {id root mid : TypeId} (hroot : c.partOf s root = some .root)
    (hreaches : Relation.ReflTransGen (c.CallsBase s) id root)
    (hmid : Relation.ReflTransGen (c.CallsBase s) id mid) :
    mid = root ∨ c.partOf s mid = some .override := by
  have hunique : Relator.RightUnique (c.CallsBase s) := fun _ _ _ h h' ↦ h.unique h'
  rcases Relation.ReflTransGen.total_of_right_unique hunique hmid hreaches with hup | hdown
  · rcases Relation.ReflTransGen.cases_head hup with heq | ⟨next, hstep, -⟩
    · exact .inl heq
    · exact .inr hstep.1
  · exact .inl (eq_of_reaches_of_root hroot hdown)

/-- Whatever a companion calls has a unit. -/
theorem emits_of_reaches {id mid : TypeId} (hemit : c.emits s id = true)
    (h : Relation.ReflTransGen (c.CallsBase s) id mid) : c.emits s mid = true := by
  rcases Relation.ReflTransGen.cases_tail h with rfl | ⟨previous, -, hstep⟩
  · exact hemit
  · exact List.find?_some hstep.2

/-- The calls from an overriding companion lead to a root: each call goes to a class with fewer
ancestors. -/
theorem exists_root {files : List SourceFile} (hacyclic : (ofFiles files).AcyclicBases)
    (hclasses : (ofFiles files).BasesAreClasses) :
    ∀ (n : Nat) (id : TypeId), ((ofFiles files).ancestors id).length < n →
      (ofFiles files).emits s id = true → (ofFiles files).hookRole s id = .override →
      ∃ root, (ofFiles files).partOf s root = some .root ∧
        Relation.ReflTransGen ((ofFiles files).CallsBase s) id root := by
  intro n
  induction n with
  | zero => exact fun id hlength ↦ absurd hlength (Nat.not_lt_zero _)
  | succ n ih =>
    intro id hlength hemit hrole
    obtain ⟨base, hnearest, hbase, hshorter, hpart⟩ :=
      exists_nearestCompanion hacyclic hclasses hemit hrole
    have hcalls : (ofFiles files).CallsBase s id base :=
      ⟨by rw [partOf_of_emits hemit, hrole], hnearest⟩
    rcases hpart with hroot | hoverride
    · exact ⟨base, by rw [partOf_of_emits hbase, hroot], .single hcalls⟩
    · obtain ⟨root, hroot, hreaches⟩ := ih base (by omega) hbase hoverride
      exact ⟨root, hroot, .head hcalls hreaches⟩

/-- The parts that classes find for themselves agree along every chain. A class overrides a hook if
and only if an ancestor has a companion and no hand-written implementation stands in between; then
the calls of base hooks lead through overriding companions to exactly one root, and the unit of the
root declares the hook. A class that takes itself to be alone has no companion below it. -/
theorem hook_parts_agree {files : List SourceFile} {s : Settings} {id : TypeId}
    {a : ClassAnalysis} {reports : List Diagnostic} (hacyclic : (ofFiles files).AcyclicBases)
    (hclasses : (ofFiles files).BasesAreClasses)
    (ha : (ofFiles files).analyze s id = some (a, reports)) (hemit : a.shouldEmit = true) :
    (a.hookRole = .override ↔
      ∃ near base far, (ofFiles files).ancestors id = near ++ base :: far ∧
        (ofFiles files).emits s base = true ∧
        ∀ n ∈ near, ¬ (ofFiles files).emits s n = true →
          ¬ (ofFiles files).listsCallback s n = true) ∧
    (a.hookRole = .override →
      (∃ base, (ofFiles files).nearestCompanion s id = some base ∧
        ((ofFiles files).partOf s base = some .root ∨
          (ofFiles files).partOf s base = some .override)) ∧
      ∃! root, (ofFiles files).EndsInRoot s id root) ∧
    (a.hookRole = .standalone →
      ∀ below, (ofFiles files).IsBelow below id → ¬ (ofFiles files).emits s below = true) := by
  have hemits : (ofFiles files).emits s id = true := by rw [emits, ha]; exact hemit
  have hpart : (ofFiles files).hookRole s id = a.hookRole := by
    have hself := partOf_of_emits hemits
    rw [partOf, ha] at hself
    exact (Option.some.inj hself).symm
  rw [← hpart]
  refine ⟨hookRole_eq_override_iff fun base hbase ↦ ?_, fun hrole ↦ ⟨?_, ?_⟩, fun hrole ↦ ?_⟩
  · exact hasCompanion_eq_emits
      (isClassType_of_isBelow hclasses ((mem_ancestors_iff hacyclic).mp hbase)).2
  · obtain ⟨base, hnearest, hbase, -, hparts⟩ :=
      exists_nearestCompanion hacyclic hclasses hemits hrole
    refine ⟨base, hnearest, ?_⟩
    rw [partOf_of_emits hbase]
    exact hparts.imp (congrArg some) (congrArg some)
  · obtain ⟨root, hroot, hreaches⟩ :=
      exists_root hacyclic hclasses _ id (Nat.lt_succ_self _) hemits hrole
    refine ⟨root, ⟨hreaches, hroot, emits_of_reaches hemits hreaches,
      declaresRootHook_unitText hroot, fun mid hmid hne ↦ ?_⟩, ?_⟩
    · have hoverride := (reaches_or_eq_root hroot hreaches hmid).resolve_left hne
      exact ⟨emits_of_reaches hemits hmid, hoverride, extendsBaseHook_unitText hoverride⟩
    · intro other hother
      rcases reaches_or_eq_root hroot hreaches hother.reaches with heq | hoverride
      · exact heq
      · exact absurd (hother.isRoot.symm.trans hoverride) (by simp)
  · intro below hbelow hbelowEmits
    have hextended := (isExtended_iff hacyclic hclasses).mpr ⟨below, hbelow, hbelowEmits⟩
    rw [hookRole, hextended] at hrole
    split at hrole <;> cases hrole

/-- A chain of three classes of which the second has no companion. -/
private def chainSource : String :=
  "interface I{}" ++
  "partial class A{[SerializeInterface]I a;}" ++
  "class B:A{}" ++
  "partial class C:B{[SerializeInterface]I c;}"

private def chainFiles : List SourceFile := (Sources.ofTexts [("Chain.cs", chainSource)]).files

theorem hook_parts_agree_chain :
    ∃ a reports, (ofFiles chainFiles).AcyclicBases ∧ (ofFiles chainFiles).BasesAreClasses ∧
      (ofFiles chainFiles).analyze {} 22 = some (a, reports) ∧ a.shouldEmit = true ∧
      a.hookRole = .override ∧ ∃! root, (ofFiles chainFiles).EndsInRoot {} 22 root := by
  have hfacts :
      (∀ id < (ofFiles chainFiles).table.symbols.length, ∀ base ∈ (ofFiles chainFiles).baseId? id,
        base < id ∧ (ofFiles chainFiles).isClassType id = true ∧
          (ofFiles chainFiles).isClassType base = true) ∧
      ((ofFiles chainFiles).analyze {} 22).map (fun r ↦ (r.1.shouldEmit, r.1.hookRole)) =
        some (true, .override) := by decide +kernel
  have hacyclic : (ofFiles chainFiles).AcyclicBases :=
    acyclicBases_of_lt fun id hid base hbase ↦ (hfacts.1 id hid base hbase).1
  have hclasses : (ofFiles chainFiles).BasesAreClasses :=
    basesAreClasses_of_lt fun id hid base hbase ↦ (hfacts.1 id hid base hbase).2
  obtain ⟨⟨a, reports⟩, ha, hresult⟩ := Option.map_eq_some_iff.mp hfacts.2
  obtain ⟨hemit, hrole⟩ := Prod.mk.inj hresult
  exact ⟨a, reports, hacyclic, hclasses, ha, hemit, hrole,
    ((hook_parts_agree hacyclic hclasses ha hemit).2.1 hrole).2⟩

end Companion.Compilation
