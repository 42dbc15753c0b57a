import Companion.Proofs.Class.Ancestry
import Companion.Proofs.Symbol.Sites

/-!
What becomes of a marked field, by the type that it has. Without type parameters a field has a shape
or is skipped for a reason that is reported; with one it never has a shape. A type whose field has a
shape of its own is thus never among those that are left to derived classes, and each variable that
a class inherits with a settled type is a variable of the direct base.
-/

set_option autoImplicit false
set_option relaxedAutoImplicit false

namespace Companion

/-- The codes of what is reported about a field that gets no backing field in a derived class. -/
def Diagnostic.Code.aboutInherited : List Diagnostic.Code :=
  [.notInterface, .staticOrConst, .readonlyNotList, .readonlyWithoutInitializer, .unresolvedType,
    .inheritedNotVisible]

/-! ### Types without parameters -/

namespace Ty

mutual

theorem anyParam_mono {p q : String → TypeId → Bool}
    (h : ∀ name owner, p name owner = true → q name owner = true) :
    ∀ t : Ty, t.anyParam p = true → t.anyParam q = true
  | named _ args, ht => anyParamAll_mono h args ht
  | param name owner, ht => h name owner ht
  | array e _, ht => anyParam_mono h e ht
  | nullable i, ht => anyParam_mono h i ht
  | tuple es, ht => anyParamAll_mono h es ht
  | unresolved _, ht => ht

theorem anyParamAll_mono {p q : String → TypeId → Bool}
    (h : ∀ name owner, p name owner = true → q name owner = true) :
    ∀ ts : List Ty, anyParamAll p ts = true → anyParamAll q ts = true
  | [], ht => ht
  | t :: ts, ht => by
    simp only [anyParamAll, Bool.or_eq_true] at ht ⊢
    exact ht.imp (anyParam_mono h t) (anyParamAll_mono h ts)

end

/-- A parameter of one owner is a parameter. -/
theorem hasParam_of_mentionsParamsOf {owner : TypeId} {t : Ty}
    (h : t.mentionsParamsOf owner = true) : t.hasParam = true :=
  anyParam_mono (fun _ _ _ ↦ rfl) t h

theorem hasParam_stripNullable (t : Ty) : t.stripNullable.hasParam = t.hasParam := by
  fun_induction Ty.stripNullable t with
  | case1 inner ih => rw [ih]; rfl
  | case2 => rfl

end Ty

namespace Compilation

variable {c : Compilation} {s : Settings} {id owner below : TypeId}

/-- The element of a list has the parameters of the list. -/
theorem hasParam_of_listElement {t element : Ty} (h : c.listElement t = some element) :
    element.hasParam = t.hasParam := by
  rw [listElement] at h
  split at h
  · rename_i id arg heq
    split at h
    · obtain rfl := Option.some.inj h
      rw [← Ty.hasParam_stripNullable t, heq]
      simp [Ty.hasParam, Ty.anyParam, Ty.anyParamAll]
    · cases h
  · cases h

/-- What counts of a type, with the question marks and the list around it gone, has the parameters
of the type. -/
theorem hasParam_of_element {t element : Ty} {container : Container}
    (h : (match c.listElement t with
      | some e => (Container.list, e.stripNullable)
      | none => (Container.single, t.stripNullable)) = (container, element)) :
    element.hasParam = t.hasParam := by
  split at h
  · rename_i e he
    obtain ⟨-, rfl⟩ := Prod.mk.inj h
    rw [Ty.hasParam_stripNullable, hasParam_of_listElement he]
  · obtain ⟨-, rfl⟩ := Prod.mk.inj h
    exact Ty.hasParam_stripNullable t

/-- A settled type is never skipped as one that is left to derived classes. -/
theorem elementOf_ne_openGeneric {t : Ty} (h : t.hasParam = false) :
    c.elementOf t ≠ .error .openGeneric := by
  rw [elementOf]
  split
  rename_i container element heq
  have helement : element.hasParam = false := (hasParam_of_element heq).trans h
  cases element with
  | param name o => simp [Ty.hasParam, Ty.anyParam] at helement
  | named i args =>
    dsimp only
    split
    · simp
    · rw [helement]; simp
  | _ => simp

/-- Only a settled type has an element. -/
theorem hasParam_of_elementOf {t : Ty} {p : Container × Ty} (h : c.elementOf t = .ok p) :
    t.hasParam = false := by
  rw [elementOf] at h
  split at h
  rename_i container element heq
  rw [← hasParam_of_element heq]
  cases element with
  | named i args =>
    dsimp only at h
    split at h
    · cases h
    · split at h
      · cases h
      · rename_i hparam
        exact Bool.eq_false_iff.mpr hparam
  | _ => cases h

theorem reason_of_elementOf {t : Ty} {reason : SkipReason}
    (h : c.elementOf t = .error reason) :
    reason = .openGeneric ∨ reason = .unresolved ∨ reason = .notInterface := by
  rw [elementOf] at h
  split at h
  rename_i container element _
  cases element with
  | named i args =>
    dsimp only at h
    split at h
    · exact .inr (.inr (Except.error.inj h).symm)
    · split at h
      · exact .inl (Except.error.inj h).symm
      · cases h
  | param name o => exact .inl (Except.error.inj h).symm
  | unresolved text => exact .inr (.inl (Except.error.inj h).symm)
  | _ => exact .inr (.inr (Except.error.inj h).symm)

theorem code_of_restriction {f : Field} {d : Declarator} {container : Container}
    {reason : SkipReason} (h : f.restriction d container = some reason) :
    ∃ code ∈ Diagnostic.Code.aboutInherited, reason.code = some code := by
  unfold Field.restriction at h
  split at h
  · obtain rfl := Option.some.inj h
    exact ⟨.staticOrConst, by decide, rfl⟩
  split at h
  · obtain rfl := Option.some.inj h
    exact ⟨.staticOrConst, by decide, rfl⟩
  split at h
  · cases container with
    | single =>
      obtain rfl := Option.some.inj h
      exact ⟨.readonlyNotList, by decide, rfl⟩
    | list =>
      dsimp only at h
      split at h
      · obtain rfl := Option.some.inj h
        exact ⟨.readonlyWithoutInitializer, by decide, rfl⟩
      · cases h
  · cases h

/-- A settled field has a shape or is skipped for a reason that is reported. -/
theorem code_of_classify {f : Field} {file : Nat} {d : Declarator} {t : Ty} {reason : SkipReason}
    (ht : t.hasParam = false) (h : f.classify c s file d t = .error reason) :
    ∃ code ∈ Diagnostic.Code.aboutInherited, reason.code = some code := by
  rw [Field.classify] at h
  split at h
  · rename_i reason' helement
    obtain rfl := Except.error.inj h
    rcases reason_of_elementOf helement with rfl | rfl | rfl
    · exact absurd helement (elementOf_ne_openGeneric ht)
    · exact ⟨.unresolvedType, by decide, rfl⟩
    · exact ⟨.notInterface, by decide, rfl⟩
  · split at h
    · rename_i reason' hrestriction
      obtain rfl := Except.error.inj h
      exact code_of_restriction hrestriction
    · cases h

/-- Only a settled field has a shape. -/
theorem hasParam_of_classify {f : Field} {file : Nat} {d : Declarator} {t : Ty}
    {shape : FieldShape} (h : f.classify c s file d t = .ok shape) : t.hasParam = false := by
  rw [Field.classify] at h
  split at h
  · cases h
  · rename_i helement
    exact hasParam_of_elementOf helement

theorem shape_of_classify {f : Field} {file : Nat} {d : Declarator} {t : Ty} {shape : FieldShape}
    (h : f.classify c s file d t = .ok shape) :
    shape.fieldName = d.name ∧ shape.span = d.nameSpan := by
  rw [Field.classify] at h
  split at h
  · cases h
  · split at h
    · cases h
    · obtain rfl := Except.ok.inj h
      exact ⟨rfl, rfl⟩

/-! ### Own fields -/

theorem mem_ownOutcomes_iff {symbol : Symbol} {site : Site} {f : Field} {d : Declarator}
    {outcome : Except SkipReason FieldShape} :
    (site, f, d, outcome) ∈ symbol.ownOutcomes c s ↔ site ∈ symbol.sites ∧
      f ∈ site.markedFields s ∧ d ∈ f.declarators ∧
      Symbol.withoutClash symbol.fieldNames
        (f.classify c s site.file d (site.fieldType c f)) = outcome := by
  simp only [Symbol.ownOutcomes, Site.classify, List.map_map, List.mem_flatMap, List.mem_map,
    Function.comp_apply, Prod.mk.injEq]
  constructor
  · rintro ⟨site', hsite, f', hf, d', hd, rfl, rfl, rfl, rfl⟩
    exact ⟨hsite, hf, hd, rfl⟩
  · rintro ⟨hsite, hf, hd, rfl⟩
    exact ⟨site, hsite, f, hf, d, hd, rfl, rfl, rfl, rfl⟩

/-- A clash of names takes shapes away, and changes none. -/
theorem ok_of_withoutClash {names : List String} {outcome : Except SkipReason FieldShape}
    {shape : FieldShape} (h : (Symbol.withoutClash names outcome).toOption = some shape) :
    outcome = .ok shape := by
  cases outcome with
  | error reason => cases h
  | ok found =>
    rw [Symbol.withoutClash] at h
    split at h
    · cases h
    · rw [Option.some.inj h]

/-! ### Fields that are left to derived classes -/

theorem derivesFrom_of_base? {base : Ty} {above : TypeId} (hbase : c.base? id = some base)
    (hid : base.id? = some above) : c.DerivesFrom id above := by
  rw [DerivesFrom, baseId?, hbase]
  exact hid

/-- A closed base is the base that is written, if it is a generic type with every argument
settled. -/
theorem closedBase?_eq_some_iff {base : Ty} : c.closedBase? id = some (below, base) ↔
    c.base? id = some base ∧ base.id? = some below ∧ base.isClosedGeneric = true := by
  rw [closedBase?]
  cases hbase : c.base? id with
  | none => simp
  | some written =>
    cases hid : written.id? with
    | none =>
      constructor
      · intro h
        simp [hid] at h
      · rintro ⟨h, hbelow, -⟩
        obtain rfl := Option.some.inj h
        rw [hid] at hbelow
        cases hbelow
    | some writtenId =>
      by_cases hgeneric : written.isClosedGeneric = true
      · simp only [hid, hgeneric, ↓reduceIte, Option.some.injEq, Prod.mk.injEq]
        constructor
        · rintro ⟨rfl, rfl⟩
          exact ⟨rfl, hid, hgeneric⟩
        · rintro ⟨rfl, hbelow, -⟩
          exact ⟨Option.some.inj (hid.symm.trans hbelow), rfl⟩
      · simp only [hid, hgeneric, Bool.false_eq_true, ↓reduceIte, reduceCtorEq, false_iff]
        rintro ⟨h, -, hclosed⟩
        obtain rfl := Option.some.inj h
        exact hgeneric hclosed

theorem derivesFrom_of_closedBase? {base : Ty} (h : c.closedBase? id = some (below, base)) :
    c.DerivesFrom id below := by
  obtain ⟨hbase, hid, -⟩ := closedBase?_eq_some_iff.mp h
  exact derivesFrom_of_base? hbase hid

theorem mem_openFields_iff {symbol : Symbol} (hsymbol : c.symbol? owner = some symbol)
    {site : Site} {f : Field} :
    (site, f) ∈ c.openFields s owner ↔ site ∈ symbol.sites ∧ f ∈ site.markedFields s ∧
      (site.fieldType c f).mentionsParamsOf owner = true := by
  simp only [openFields, hsymbol, List.mem_flatMap, List.mem_map, List.mem_filter, Prod.mk.injEq]
  constructor
  · rintro ⟨site', hsite, f', ⟨hf, hopen⟩, rfl, rfl⟩
    exact ⟨hsite, hf, hopen⟩
  · rintro ⟨hsite, hf, hopen⟩
    exact ⟨site, hsite, f, ⟨hf, hopen⟩, rfl, rfl⟩

/-- What becomes of inherited variables concerns variables of the direct base. -/
theorem mem_inheritances_iff {base : Ty} (hclosed : c.closedBase? id = some (below, base))
    {site : Site} {i : Inheritance} :
    (site, i) ∈ c.inheritances s id ↔
      ∃ f, (site, f) ∈ c.openFields s below ∧
        ∃ d ∈ f.declarators, c.inherit s base site f d = i := by
  simp only [inheritances, hclosed, List.mem_flatMap, List.mem_map, Prod.exists, Prod.mk.injEq]
  constructor
  · rintro ⟨site', f, hf, d, hd, rfl, rfl⟩
    exact ⟨f, hf, d, hd, rfl⟩
  · rintro ⟨f, hf, d, hd, rfl⟩
    exact ⟨site, f, hf, d, hd, rfl, rfl⟩

/-- Everything that may become of an inherited variable. -/
theorem inherit_cases (c : Compilation) (s : Settings) (base : Ty) (site : Site) (f : Field)
    (d : Declarator) :
    c.inherit s base site f d = .hidden d ∨
    (∃ field, c.inherit s base site f d = .kept field ∧
      f.classify c s site.file d (c.substituteBase base (site.fieldType c f)) = .ok field.shape) ∨
    ∃ reason, c.inherit s base site f d =
        .skipped reason d (c.substituteBase base (site.fieldType c f)) ∧
      f.classify c s site.file d (c.substituteBase base (site.fieldType c f)) = .error reason := by
  rw [inherit]
  by_cases hvisible : Modifier.visibleToDerived f.modifiers = true
  · simp only [hvisible, Bool.not_true, Bool.false_eq_true, ↓reduceIte]
    cases f.classify c s site.file d (c.substituteBase base (site.fieldType c f)) with
    | ok shape => exact .inr (.inl ⟨_, rfl, rfl⟩)
    | error reason => exact .inr (.inr ⟨reason, rfl, rfl⟩)
  · simp only [hvisible, Bool.not_false, ↓reduceIte]
    exact .inl trivial

theorem mem_fieldStarts {site : Site} {f : Field} {d : Declarator} (hf : f ∈ site.markedFields s)
    (hd : d ∈ f.declarators) : d.nameSpan.start ∈ site.decl.fieldStarts :=
  List.mem_flatMap.mpr ⟨f, (List.mem_filter.mp hf).1, List.mem_map.mpr ⟨d, hd, rfl⟩⟩

end Compilation
end Companion
