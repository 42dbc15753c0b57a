import Companion.Proofs.Field.Outcome
import Companion.Proofs.Symbol.Arguments
import Companion.Proofs.Symbol.Declarations

/-!
Which classes a run looks at. Candidates are found by what is written at a declaration: attributes
on a field, or a first base with type arguments at its end. Every class that needs a companion shows
one of the two at some declaration, with one exception: its base is a plain identifier, which a
using directive makes an alias of a closed generic type. Such a class is left out.
-/

set_option autoImplicit false
set_option relaxedAutoImplicit false

namespace Companion

/-! ### The written base -/

namespace Table

variable {t : Table} {symbol : Symbol}

theorem takeBase_fst {taken : Option Ty × List Ty} {written : Ty × Bool} {base : Ty}
    (h : (t.takeBase symbol taken written).1 = some base) :
    taken.1 = some base ∨ written.1 = base ∧ written.2 = true := by
  obtain ⟨before, interfaces⟩ := taken
  rw [takeBase] at h
  split at h
  · rename_i hcan
    simp only [canBeBase, Bool.and_eq_true] at hcan
    exact .inr ⟨Option.some.inj h, hcan.1.1.1.1⟩
  · split at h
    · exact .inl h
    · exact .inl h

/-- The base class of a type stands first in the base list of one of its declarations. -/
theorem exists_head_of_basesOf {base : Ty} (h : (t.basesOf symbol).1 = some base) :
    ∃ site ∈ symbol.sites, ∃ r, site.decl.header.bases.head? = some r ∧
      t.resolve site.body r = base := by
  have hfold : ∀ (written : List (Ty × Bool)) (taken : Option Ty × List Ty),
      (written.foldl (t.takeBase symbol) taken).1 = some base →
      taken.1 = some base ∨ (base, true) ∈ written := by
    intro written
    induction written with
    | nil => exact fun _ htaken ↦ .inl htaken
    | cons w ws ih =>
      intro taken htaken
      rcases ih _ htaken with hhere | hlater
      · refine (takeBase_fst hhere).imp_right ?_
        rintro ⟨hbase, hfirst⟩
        rw [← hbase, ← hfirst]
        exact List.mem_cons_self
      · exact .inr (List.mem_cons_of_mem _ hlater)
  rcases hfold _ _ h with hnone | hmem
  · cases hnone
  obtain ⟨site, hsite, hwritten⟩ := List.mem_flatMap.mp hmem
  obtain ⟨i, hi, heq⟩ := List.mem_mapIdx.mp hwritten
  obtain ⟨hbase, hfirst⟩ := Prod.mk.inj heq
  obtain rfl : i = 0 := by simpa using hfirst
  exact ⟨site, hsite, _, List.head?_eq_getElem? ▸ List.getElem?_eq_getElem hi, hbase⟩

end Table

/-! ### Declarations and candidates -/

namespace Compilation

variable {files : List SourceFile} {id : TypeId} {symbol : Symbol}

theorem mem_foldl_distinct {ids seen : List TypeId} {id : TypeId} :
    id ∈ ids.foldl (fun seen id => if seen.contains id then seen else seen ++ [id]) seen ↔
      id ∈ seen ∨ id ∈ ids := by
  induction ids generalizing seen with
  | nil => simp
  | cons other rest ih =>
    rw [List.foldl_cons, ih]
    split
    · rename_i hseen
      rw [List.contains_iff_mem] at hseen
      simp only [List.mem_cons]
      refine ⟨fun h ↦ h.imp_right .inr, ?_⟩
      rintro (h | rfl | h)
      · exact .inl h
      · exact .inl hseen
      · exact .inr h
    · simp only [List.mem_append, List.mem_cons, List.not_mem_nil, or_false, or_assoc]

/-- The candidates are what stands for the places of declarations that are worth looking at. -/
theorem mem_candidates_iff_idOf {c : Compilation} {id : TypeId} :
    id ∈ c.candidates ↔ ∃ (file : Nat) (f : SourceFile) (d : TypeDecl), c.files[file]? = some f ∧
      d ∈ Item.allTypes f.items ∧ d.isCandidate = true ∧
        c.idOf file d.header.span = some id := by
  rw [candidates, mem_foldl_distinct]
  simp only [List.not_mem_nil, false_or, List.mem_flatten, List.mem_mapIdx]
  constructor
  · rintro ⟨_, ⟨file, hfile, rfl⟩, hid⟩
    obtain ⟨d, hd, hidOf⟩ := List.mem_filterMap.mp hid
    obtain ⟨hmem, hcandidate⟩ := List.mem_filter.mp hd
    exact ⟨file, _, d, List.getElem?_eq_getElem hfile, hmem, hcandidate, hidOf⟩
  · rintro ⟨file, f, d, hf, hmem, hcandidate, hidOf⟩
    obtain ⟨hfile, rfl⟩ := List.getElem?_eq_some_iff.mp hf
    exact ⟨_, ⟨file, hfile, rfl⟩,
      List.mem_filterMap.mpr ⟨d, List.mem_filter.mpr ⟨hmem, hcandidate⟩, hidOf⟩⟩

/-- A symbol is a candidate if and only if one of its declarations is worth looking at. -/
theorem mem_candidates_iff
    (hspans : ∀ f ∈ files, ((Item.allTypes f.items).flatMap fun d ↦ [d.header.span]).Nodup)
    (hsymbol : (ofFiles files).symbol? id = some symbol) :
    id ∈ (ofFiles files).candidates ↔ ∃ site ∈ symbol.sites, site.decl.isCandidate = true := by
  rw [mem_candidates_iff_idOf]
  constructor
  · rintro ⟨file, f, d, hf, hmem, hcandidate, hidOf⟩
    obtain ⟨id', symbol', hsymbol', site, hsite, rfl, rfl⟩ := exists_site_iff.mp ⟨f, hf, hmem⟩
    rw [idOf_of_mem_sites hspans hsymbol' hsite] at hidOf
    obtain rfl := Option.some.inj hidOf
    obtain rfl := Option.some.inj (hsymbol'.symm.trans hsymbol)
    exact ⟨site, hsite, hcandidate⟩
  · rintro ⟨site, hsite, hcandidate⟩
    obtain ⟨f, hf, hmem⟩ := exists_site_iff.mpr ⟨id, symbol, hsymbol, site, hsite, rfl, rfl⟩
    exact ⟨site.file, f, site.decl, hf, hmem, hcandidate, idOf_of_mem_sites hspans hsymbol hsite⟩

end Compilation

/-! ### What a declaration shows -/

namespace Symbol

/-- No declaration shows that the type may need a companion: no field has attributes, and no first
base is written with arguments at its end. -/
def ShowsNothing (symbol : Symbol) : Prop :=
  ∀ site ∈ symbol.sites, (∀ f ∈ site.decl.fields, f.attributes = []) ∧
    site.decl.header.hasGenericBase = false

/-- The base is a closed generic type, and one declaration writes it as a plain identifier which is
an alias of that type. -/
def HasAliasedBase (symbol : Symbol) (t : Table) : Prop :=
  ∃ base, symbol.base = some base ∧ base.isClosedGeneric = true ∧
    ∃ site ∈ symbol.sites, ∃ ident place span,
      site.decl.header.bases.head? = some (.named false [.mk ident [] place] span) ∧
        t.AliasFor site.body ident base

/-- Among classes, those that show nothing have no declaration worth looking at. -/
theorem showsNothing_iff {symbol : Symbol}
    (hclass : ∀ site ∈ symbol.sites, site.decl.header.kind = .classType) :
    symbol.ShowsNothing ↔ ∀ site ∈ symbol.sites, ¬ site.decl.isCandidate = true := by
  refine forall₂_congr fun site hsite ↦ ?_
  rw [TypeDecl.isCandidate, hclass site hsite]
  simp

/-- A type with shapes of its own has a field with attributes. -/
theorem not_showsNothing_of_ownShapes {symbol : Symbol} {c : Compilation} {s : Settings}
    (h : symbol.ownShapes c s ≠ []) : ¬ symbol.ShowsNothing := by
  intro hnothing
  obtain ⟨shape, hshape⟩ := List.exists_mem_of_ne_nil _ h
  obtain ⟨⟨site, f, d, outcome⟩, houtcome, -⟩ := List.mem_filterMap.mp hshape
  obtain ⟨hsite, hmarked, -, -⟩ := Compilation.mem_ownOutcomes_iff.mp houtcome
  obtain ⟨hfield, hmarker⟩ := List.mem_filter.mp hmarked
  have hnone := (hnothing site hsite).1 f hfield
  simp [Field.isMarked, Field.allAttributes, hnone] at hmarker

end Symbol

namespace Compilation

variable {files : List SourceFile} {id : TypeId} {symbol : Symbol}

/-- A class inherits backing fields only through a closed generic base. -/
theorem exists_base_of_inheritedFields {c : Compilation} {s : Settings}
    (hsymbol : c.symbol? id = some symbol) (h : c.inheritedFields s id ≠ []) :
    ∃ base, symbol.base = some base ∧ base.isClosedGeneric = true := by
  have hclosed : c.closedBase? id ≠ none := by
    intro hnone
    simp [inheritedFields, inheritances, hnone] at h
  obtain ⟨⟨below, base⟩, hbase⟩ := Option.ne_none_iff_exists'.mp hclosed
  obtain ⟨hwritten, -, hgeneric⟩ := closedBase?_eq_some_iff.mp hbase
  rw [base?, hsymbol] at hwritten
  exact ⟨base, hwritten, hgeneric⟩

/-- A closed generic base that no declaration writes with arguments is written as an alias. -/
theorem hasAliasedBase_of_showsNothing (hsymbol : (ofFiles files).symbol? id = some symbol)
    (hnothing : symbol.ShowsNothing) {base : Ty} (hbase : symbol.base = some base)
    (hgeneric : base.isClosedGeneric = true) :
    symbol.HasAliasedBase (Table.ofFiles files) := by
  obtain ⟨s, -, hsites, hs⟩ := eq_withBases_of_symbol? hsymbol
  obtain ⟨site, hsite, r, hr, hresolve⟩ := Table.exists_head_of_basesOf (hs.symm.trans hbase)
  rw [← hsites] at hsite
  refine ⟨base, hbase, hgeneric, site, hsite, ?_⟩
  cases base with
  | named baseId args =>
    have hargs : args ≠ [] := by
      rintro rfl
      simp [Ty.isClosedGeneric] at hgeneric
    rcases Table.written_of_resolve hresolve hargs with hwritten | ⟨ident, place, span, rfl, halias⟩
    · have hno := (hnothing site hsite).2
      rw [TypeHeader.hasGenericBase_eq, hr] at hno
      exact absurd (hno.symm.trans hwritten) (by simp)
    · exact ⟨ident, place, span, hr, halias⟩
  | _ => simp [Ty.isClosedGeneric] at hgeneric

/-- Which classes that need a companion a run leaves out: exactly those whose declarations show
neither attributes on a field nor type arguments behind a base, because the base is an alias. -/
theorem not_mem_candidates_iff {texts : List (String × String)} {s : Settings}
    {a : ClassAnalysis} {reports : List Diagnostic} (hreach : Sources.InReach texts)
    (hsymbol : (ofFiles (Sources.ofTexts texts).files).symbol? id = some symbol)
    (hclass : ∀ site ∈ symbol.sites, site.decl.header.kind = .classType)
    (ha : (ofFiles (Sources.ofTexts texts).files).analyze s id = some (a, reports))
    (hneeds : a.requiresCompanion = true) :
    id ∉ (ofFiles (Sources.ofTexts texts).files).candidates ↔
      symbol.ShowsNothing ∧
        symbol.HasAliasedBase (Table.ofFiles (Sources.ofTexts texts).files) := by
  rw [mem_candidates_iff (Sources.nodup_spans hreach) hsymbol]
  simp only [not_exists, not_and]
  rw [← Symbol.showsNothing_iff hclass]
  refine ⟨fun hnothing ↦ ⟨hnothing, ?_⟩, fun h ↦ h.1⟩
  rw [analyze, hsymbol] at ha
  obtain ⟨rfl, -⟩ := Prod.mk.inj (Option.some.inj ha)
  simp only [analysisOf, Bool.or_eq_true, Bool.not_eq_true', List.isEmpty_eq_false_iff] at hneeds
  rcases hneeds with hown | hinherited
  · exact absurd hnothing (Symbol.not_showsNothing_of_ownShapes hown)
  · obtain ⟨base, hbase, hgeneric⟩ := exists_base_of_inheritedFields hsymbol hinherited
    exact hasAliasedBase_of_showsNothing hsymbol hnothing hbase hgeneric

/-- A class whose base is an alias of a closed generic type. -/
private def aliasSource : String :=
  "using P=Base<int>;" ++
  "interface I<T>{}" ++
  "class Base<T>{[SerializeInterface]protected I<T> f;}" ++
  "partial class C:P{}"

private def aliasTexts : List (String × String) := [("Alias.cs", aliasSource)]

private abbrev aliasFiles : List SourceFile := (Sources.ofTexts aliasTexts).files

private theorem alias_inReach : Sources.InReach aliasTexts := by decide +kernel

private theorem alias_facts :
    (∀ site ∈ (((ofFiles aliasFiles).symbol? 21).map (·.sites)).getD [],
        site.decl.header.kind = .classType) ∧
      ((ofFiles aliasFiles).symbol? 21).isSome = true ∧
      ((ofFiles aliasFiles).analyze {} 21).map (fun r ↦ r.1.requiresCompanion) = some true ∧
      21 ∉ (ofFiles aliasFiles).candidates := by decide +kernel

theorem not_mem_candidates_of_alias :
    ∃ symbol a reports, (ofFiles aliasFiles).symbol? 21 = some symbol ∧
      (∀ site ∈ symbol.sites, site.decl.header.kind = .classType) ∧
      (ofFiles aliasFiles).analyze {} 21 = some (a, reports) ∧ a.requiresCompanion = true ∧
      symbol.ShowsNothing ∧ symbol.HasAliasedBase (Table.ofFiles aliasFiles) := by
  obtain ⟨hclass, hsome, hneeds, hmissed⟩ := alias_facts
  obtain ⟨symbol, hsymbol⟩ := Option.isSome_iff_exists.mp hsome
  obtain ⟨⟨a, reports⟩, ha, hrequires⟩ := Option.map_eq_some_iff.mp hneeds
  rw [hsymbol] at hclass
  exact ⟨symbol, a, reports, hsymbol, hclass, ha, hrequires,
    (not_mem_candidates_iff alias_inReach hsymbol hclass ha hrequires).mp hmissed⟩

/-- Not every class that needs a companion is looked at. -/
theorem not_forall_mem_candidates :
    ¬ ∀ (texts : List (String × String)) (s : Settings) (id : TypeId) (symbol : Symbol)
      (a : ClassAnalysis) (reports : List Diagnostic),
      (ofFiles (Sources.ofTexts texts).files).symbol? id = some symbol →
      (∀ site ∈ symbol.sites, site.decl.header.kind = .classType) →
      (ofFiles (Sources.ofTexts texts).files).analyze s id = some (a, reports) →
      a.requiresCompanion = true → id ∈ (ofFiles (Sources.ofTexts texts).files).candidates := by
  intro hall
  obtain ⟨hclass, hsome, hneeds, hmissed⟩ := alias_facts
  obtain ⟨symbol, hsymbol⟩ := Option.isSome_iff_exists.mp hsome
  obtain ⟨⟨a, reports⟩, ha, hrequires⟩ := Option.map_eq_some_iff.mp hneeds
  rw [hsymbol] at hclass
  exact hmissed (hall aliasTexts {} 21 symbol a reports hsymbol hclass ha hrequires)

end Compilation
end Companion
