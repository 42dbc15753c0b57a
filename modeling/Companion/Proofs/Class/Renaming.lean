import Companion.Proofs.Class.Ancestry
import Companion.Proofs.Symbol.Renaming
import Companion.Proofs.Symbol.Sites

/-!
Analyses do not depend on numbers. If two compilations have the same files and the same symbols
under different numbers (`Compilation.Renames`), each function of the analysis gives the same for a
type and its counterpart; and as neither the analysis of a class nor a report tells a number, these
are equal (`Compilation.Renames.analyze`).
-/

set_option autoImplicit false
set_option relaxedAutoImplicit false

namespace Companion

variable {m : Renaming}

theorem Renaming.firstDeclared_le_iff (m : Renaming) (id : TypeId) :
    TypeId.firstDeclared ≤ m.type id ↔ TypeId.firstDeclared ≤ id := by
  constructor
  · intro h
    by_contra hid
    rw [m.known id (Nat.not_le.mp hid)] at h
    exact hid h
  · intro h
    by_contra hid
    have hfixed := m.bijective.injective (m.known _ (Nat.not_le.mp hid))
    rw [hfixed] at hid
    exact hid h

/-! ### Sites and symbols -/

@[simp] theorem Level.usings_renamed (l : Level) : (l.renamed m).usings = l.usings := by
  cases l <;> rfl

@[simp] theorem Scope.usings_renamed (s : Scope) :
    Scope.usings (s.map (Level.renamed m)) = Scope.usings s := by
  simp only [Scope.usings, ← List.map_reverse, List.flatMap_map, Level.usings_renamed]

@[simp] theorem Site.markedFields_renamed (site : Site) (s : Settings) :
    (site.renamed m).markedFields s = site.markedFields s := rfl

@[simp] theorem Symbol.isPartial_renamed (symbol : Symbol) :
    (symbol.renamed m).isPartial = symbol.isPartial := by
  simp only [isPartial, renamed, List.isEmpty_map, List.all_map]
  rfl

@[simp] theorem Symbol.fieldNames_renamed (symbol : Symbol) :
    (symbol.renamed m).fieldNames = symbol.fieldNames := by
  simp only [fieldNames, renamed, List.flatMap_map, Site.renamed]

/-- What becomes of an inherited variable, with the numbers in its type changed. -/
def Inheritance.renamed (m : Renaming) : Inheritance → Inheritance
  | kept field => kept field
  | hidden d => hidden d
  | skipped reason d type => skipped reason d (type.renamed m)

namespace Compilation

/-- What is found out about a field whose element, without question marks, stands in a container. -/
def elementWithin (c : Compilation) (container : Container) (element : Ty) :
    Except SkipReason (Container × Ty) :=
  match element with
  | .param _ _ => .error .openGeneric
  | .unresolved _ => .error .unresolved
  | .named _ _ =>
    if !c.isInterface element then .error .notInterface
    else if element.hasParam then .error .openGeneric
    else .ok (container, element)
  | _ => .error .notInterface

theorem elementOf_eq (c : Compilation) (t : Ty) : c.elementOf t =
    match c.listElement t with
    | some e => c.elementWithin .list e.stripNullable
    | none => c.elementWithin .single t.stripNullable := by
  rw [elementOf]
  cases c.listElement t <;> rfl

/-- A report about deep inheritance, by the names it tells. -/
def tooDeep (name grand base : String) (place : Span) (path : String) : Diagnostic :=
  (((Diagnostic.warning .inheritedTooDeep
    ("`" ++ name ++ "` inherits generic marker fields from `" ++ grand ++ "` through `" ++ base ++
      "`")
    place "closes only its direct base").inFile path).withNote
      "multi-level generic inheritance is not supported").withNote
        "those fields get no backing field in this class"

theorem tooDeepReport_eq (c : Compilation) (s : Settings) (id : TypeId) : c.tooDeepReport s id =
    (c.closedBase? id).bind fun closed ↦ (c.base? closed.1).bind fun grand ↦
      grand.id?.bind fun grandId ↦ (c.symbol? id).bind fun symbol ↦
        symbol.sites.head?.bind fun site ↦
          if grand.mentionsParamsOf closed.1 && !(c.openFields s grandId).isEmpty then
            some (tooDeep (c.qualifiedName id) (c.fullName grand) (c.fullName closed.2)
              site.decl.header.nameSpan (c.path site.file))
          else none := by
  rw [tooDeepReport]
  rfl

/-- What stands above a class, with its number changed. -/
def Above.renamed (m : Renaming) : Above → Above
  | companion => companion
  | handWritten id => handWritten (m.type id)
  | nothing => nothing

/-- Two compilations have the same files and the same symbols, up to their numbers. -/
structure Renames (m : Renaming) (c c' : Compilation) : Prop where
  table : c.table.Renames m c'.table
  files : ∀ file, c'.files[m.file file]? = c.files[file]?
  idOf : ∀ file place, c'.idOf (m.file file) place = (c.idOf file place).map m.type

namespace Renames

variable {c c' : Compilation} {s : Settings} (h : c.Renames m c')
include h

/-! ### Symbols and names -/

theorem symbol? (id : TypeId) :
    c'.symbol? (m.type id) = (c.symbol? id).map (Symbol.renamed m) := h.table.symbol? id

/-- What a symbol tells without numbers is told by its counterpart. -/
theorem map_symbol? {α : Type} {f : Symbol → α} (hf : ∀ s : Symbol, f (s.renamed m) = f s)
    (id : TypeId) : (c'.symbol? (m.type id)).map f = (c.symbol? id).map f := by
  rw [h.symbol?, Option.map_map]
  exact congrArg (Option.map · _) (funext hf)

theorem base? (id : TypeId) : c'.base? (m.type id) = (c.base? id).map (Ty.renamed m) := by
  rw [Compilation.base?, Compilation.base?, h.symbol?]
  cases c.symbol? id <;> rfl

theorem enclosing (id : TypeId) : c'.enclosing (m.type id) = (c.enclosing id).map m.type := by
  rw [Compilation.enclosing, Compilation.enclosing, h.symbol?]
  cases c.symbol? id <;> rfl

theorem nameOf (id : TypeId) : c'.nameOf (m.type id) = c.nameOf id := by
  rw [Compilation.nameOf, Compilation.nameOf, h.map_symbol? fun _ ↦ rfl]

theorem spaceOf (id : TypeId) : c'.spaceOf (m.type id) = c.spaceOf id := by
  rw [Compilation.spaceOf, Compilation.spaceOf, h.map_symbol? fun _ ↦ rfl]

theorem qualifiedName (id : TypeId) : c'.qualifiedName (m.type id) = c.qualifiedName id := by
  rw [Compilation.qualifiedName, Compilation.qualifiedName, h.spaceOf, h.nameOf, h.enclosing,
    List.map_map, show c'.nameOf ∘ m.type = c.nameOf from funext h.nameOf]

omit h in
mutual

theorem fullName (h : c.Renames m c') : ∀ t : Ty, c'.fullName (t.renamed m) = c.fullName t
  | .named id args => by
    show c'.qualifiedName (m.type id) ++ c'.fullArgs (Ty.renamedAll m args) = _
    rw [h.qualifiedName, fullArgs h args, fullName_named]
  | .param _ _ => rfl
  | .array e rank => by rw [Ty.renamed_array, fullName_array, fullName_array, fullName h e]
  | .nullable i => by
    rw [Ty.renamed_nullable, fullName_nullable, fullName_nullable, fullName h i]
  | .tuple es => congrArg ("System.ValueTuple" ++ ·) (fullArgs h es)
  | .unresolved _ => rfl

theorem fullArgs (h : c.Renames m c') :
    ∀ ts : List Ty, c'.fullArgs (Ty.renamedAll m ts) = c.fullArgs ts
  | [] => rfl
  | t :: ts => by rw [Ty.renamedAll, fullArgs_cons, fullArgs_cons, fullName h t, fullTail h ts]

theorem fullTail (h : c.Renames m c') :
    ∀ ts : List Ty, c'.fullTail (Ty.renamedAll m ts) = c.fullTail ts
  | [] => rfl
  | t :: ts => by rw [Ty.renamedAll, fullTail_cons, fullTail_cons, fullName h t, fullTail h ts]

end

theorem isInterface (t : Ty) : c'.isInterface (t.renamed m) = c.isInterface t :=
  h.table.isInterface t

theorem substituteBase (base t : Ty) : c'.substituteBase (base.renamed m) (t.renamed m) =
    (c.substituteBase base t).renamed m := by
  cases base with
  | named id args =>
    rw [Ty.renamed_named, Compilation.substituteBase, Compilation.substituteBase,
      h.map_symbol? fun _ ↦ rfl, Ty.substitute_renamed]
  | _ => rfl

omit h in
theorem listElement (t : Ty) :
    c'.listElement (t.renamed m) = (c.listElement t).map (Ty.renamed m) := by
  have hlist (id : TypeId) : m.type id = TypeId.list ↔ id = TypeId.list := by
    have hknown : m.type TypeId.list = TypeId.list := m.known _ (Nat.lt_succ_self _)
    exact ⟨fun hid ↦ m.bijective.injective (hid.trans hknown.symm), fun hid ↦ hid ▸ hknown⟩
  rw [Compilation.listElement, Compilation.listElement, Ty.stripNullable_renamed]
  cases t.stripNullable with
  | named id args =>
    rw [Ty.renamed_named]
    rcases args with _ | ⟨element, _ | ⟨other, rest⟩⟩
    · rfl
    · simp only [List.map_cons, List.map_nil, hlist]
      split <;> rfl
    · rfl
  | _ => simp

theorem path (file : Nat) : c'.path (m.file file) = c.path file := by
  rw [Compilation.path, Compilation.path, h.files]

theorem text (file : Nat) (place : Span) : c'.text (m.file file) place = c.text file place := by
  rw [Compilation.text, Compilation.text, h.files]

/-! ### Fields -/

theorem elementWithin (container : Container) (element : Ty) :
    c'.elementWithin container (element.renamed m) =
      (c.elementWithin container element).map (Prod.map id (Ty.renamed m)) := by
  cases element with
  | named i args =>
    have hinterface := h.isInterface (.named i args)
    have hparam := Ty.hasParam_renamed (m := m) (.named i args)
    rw [Ty.renamed_named] at hinterface hparam ⊢
    simp only [Compilation.elementWithin, hinterface, hparam]
    split
    · rfl
    split
    · rfl
    · rw [Except.map, Prod.map_apply, Ty.renamed_named]
      rfl
  | _ => simp [Compilation.elementWithin, Except.map]

theorem elementOf (t : Ty) : c'.elementOf (t.renamed m) =
    (c.elementOf t).map (Prod.map id (Ty.renamed m)) := by
  rw [elementOf_eq, elementOf_eq, listElement]
  cases c.listElement t with
  | none =>
    simp only [Option.map_none, Ty.stripNullable_renamed]
    exact h.elementWithin .single t.stripNullable
  | some e =>
    simp only [Option.map_some, Ty.stripNullable_renamed]
    exact h.elementWithin .list e.stripNullable

theorem carriedAttributes (f : Field) (s : Settings) (file : Nat) :
    f.carriedAttributes c' s (m.file file) = f.carriedAttributes c s file := by
  simp only [Field.carriedAttributes, h.text]

theorem classify (f : Field) (s : Settings) (file : Nat) (d : Declarator) (t : Ty) :
    f.classify c' s (m.file file) d (t.renamed m) = f.classify c s file d t := by
  rw [Field.classify, Field.classify, h.elementOf]
  cases c.elementOf t with
  | error reason => rfl
  | ok found =>
    obtain ⟨container, element⟩ := found
    simp only [Except.map, Prod.map_apply, id, h.fullName, h.carriedAttributes]

theorem fieldType (site : Site) (f : Field) :
    (site.renamed m).fieldType c' f = (site.fieldType c f).renamed m :=
  h.table.resolve site.body f.type

theorem site_classify (site : Site) (s : Settings) (f : Field) :
    (site.renamed m).classify c' s f = site.classify c s f := by
  simp only [Site.classify, h.fieldType]
  exact List.map_congr_left fun d _ ↦ congrArg (Prod.mk d) (h.classify f s site.file d _)

theorem ownOutcomes (symbol : Symbol) (s : Settings) :
    (symbol.renamed m).ownOutcomes c' s =
      (symbol.ownOutcomes c s).map (Prod.map (Site.renamed m) id) := by
  simp only [Symbol.ownOutcomes, Symbol.fieldNames_renamed, List.map_flatMap, List.map_map]
  rw [Symbol.renamed, List.flatMap_map]
  simp only [Site.markedFields_renamed, h.site_classify]
  rfl

theorem ownShapes (symbol : Symbol) (s : Settings) :
    (symbol.renamed m).ownShapes c' s = symbol.ownShapes c s := by
  rw [Symbol.ownShapes, Symbol.ownShapes, h.ownOutcomes, List.filterMap_map]
  rfl

theorem ownReports (symbol : Symbol) (s : Settings) :
    (symbol.renamed m).ownReports c' s = symbol.ownReports c s := by
  rw [Symbol.ownReports, Symbol.ownReports, h.ownOutcomes, List.filterMap_map]
  split
  · refine congrArg (List.filterMap · _) (funext fun p ↦ ?_)
    obtain ⟨site, f, d, outcome⟩ := p
    cases outcome with
    | ok shape => rfl
    | error reason =>
      show reason.diagnostic (c'.path (m.file site.file)) d _ _ = _
      rw [h.path]
  · rfl

/-! ### Inherited fields -/

theorem closedBase? (id : TypeId) :
    c'.closedBase? (m.type id) = (c.closedBase? id).map (Prod.map m.type (Ty.renamed m)) := by
  rw [Compilation.closedBase?, Compilation.closedBase?, h.base?]
  cases c.base? id with
  | none => rfl
  | some base =>
    simp only [Option.map_some, Ty.id?_renamed, Ty.isClosedGeneric_renamed]
    cases base.id? with
    | none => rfl
    | some baseId =>
      simp only [Option.map_some]
      split <;> rfl

theorem openFields (s : Settings) (owner : TypeId) :
    c'.openFields s (m.type owner) =
      (c.openFields s owner).map (Prod.map (Site.renamed m) id) := by
  rw [Compilation.openFields, Compilation.openFields, h.symbol?]
  cases c.symbol? owner with
  | none => rfl
  | some symbol =>
    simp only [Option.map_some, Symbol.renamed, List.flatMap_map, Site.markedFields_renamed,
      h.fieldType, Ty.mentionsParamsOf_renamed, List.map_flatMap, List.map_map]
    rfl

theorem inherit (s : Settings) (base : Ty) (site : Site) (f : Field) (d : Declarator) :
    c'.inherit s (base.renamed m) (site.renamed m) f d =
      (c.inherit s base site f d).renamed m := by
  have hclassify := h.classify f s site.file d (c.substituteBase base (site.fieldType c f))
  rw [Compilation.inherit, Compilation.inherit, h.fieldType, h.substituteBase, h.fullName]
  simp only [Site.renamed, hclassify]
  split
  · rfl
  · cases f.classify c s site.file d (c.substituteBase base (site.fieldType c f)) <;> rfl

theorem inheritances (s : Settings) (below : TypeId) :
    c'.inheritances s (m.type below) =
      (c.inheritances s below).map (Prod.map (Site.renamed m) (Inheritance.renamed m)) := by
  rw [Compilation.inheritances, Compilation.inheritances, h.closedBase?]
  cases c.closedBase? below with
  | none => rfl
  | some closed =>
    obtain ⟨baseId, base⟩ := closed
    simp only [Option.map_some, Prod.map_apply, h.openFields, List.flatMap_map, List.map_flatMap,
      List.map_map, Prod.map_fst, Prod.map_snd, id, h.inherit]
    rfl

theorem inheritedFields (s : Settings) (below : TypeId) :
    c'.inheritedFields s (m.type below) = c.inheritedFields s below := by
  rw [Compilation.inheritedFields, Compilation.inheritedFields, h.inheritances, List.filterMap_map]
  refine congrArg (List.filterMap · _) (funext fun p ↦ ?_)
  obtain ⟨site, i⟩ := p
  cases i <;> rfl

theorem inheritanceReport (s : Settings) (below : TypeId) (site : Site) (i : Inheritance) :
    c'.inheritanceReport s (m.type below) (site.renamed m) (i.renamed m) =
      c.inheritanceReport s below site i := by
  have hbase : ((c'.closedBase? (m.type below)).map fun b ↦ c'.fullName b.2) =
      (c.closedBase? below).map fun b ↦ c.fullName b.2 := by
    rw [h.closedBase?, Option.map_map]
    exact congrArg (Option.map · _) (funext fun b ↦ h.fullName b.2)
  cases i with
  | kept field => rfl
  | hidden d =>
    simp only [Inheritance.renamed, Compilation.inheritanceReport, h.qualifiedName, hbase,
      Site.renamed, h.path]
  | skipped reason d type =>
    simp only [Inheritance.renamed, Compilation.inheritanceReport, h.fullName, Site.renamed, h.path]

theorem tooDeepReport (s : Settings) (below : TypeId) :
    c'.tooDeepReport s (m.type below) = c.tooDeepReport s below := by
  rw [tooDeepReport_eq, tooDeepReport_eq, h.closedBase?, Option.bind_map]
  refine congrArg (Option.bind _) (funext fun closed ↦ ?_)
  rw [Function.comp_apply, Prod.map_fst, Prod.map_snd, h.base?, Option.bind_map]
  refine congrArg (Option.bind _) (funext fun grand ↦ ?_)
  rw [Function.comp_apply, Ty.id?_renamed, Option.bind_map]
  refine congrArg (Option.bind _) (funext fun grandId ↦ ?_)
  rw [Function.comp_apply, h.symbol?, Option.bind_map]
  refine congrArg (Option.bind _) (funext fun symbol ↦ ?_)
  rw [Function.comp_apply, Symbol.renamed, List.head?_map, Option.bind_map]
  refine congrArg (Option.bind _) (funext fun site ↦ ?_)
  rw [Function.comp_apply, Ty.mentionsParamsOf_renamed, h.openFields, List.isEmpty_map,
    h.qualifiedName, h.fullName, h.fullName, Site.renamed, h.path]

theorem inheritedReports (s : Settings) (below : TypeId) :
    c'.inheritedReports s (m.type below) = c.inheritedReports s below := by
  rw [Compilation.inheritedReports, Compilation.inheritedReports, h.tooDeepReport, h.inheritances,
    List.filterMap_map]
  have hreports : (fun p : Site × Inheritance ↦
        c'.inheritanceReport s (m.type below) (p.1.renamed m) (p.2.renamed m)) =
      fun p ↦ c.inheritanceReport s below p.1 p.2 :=
    funext fun p ↦ h.inheritanceReport s below p.1 p.2
  exact congrArg (fun f ↦ (if s.reportSkippedFields then (c.inheritances s below).filterMap f
    else []) ++ (c.tooDeepReport s below).toList) hreports

/-! ### Classes -/

theorem listsCallback (symbol : Symbol) (s : Settings) :
    (symbol.renamed m).listsCallback c' s = symbol.listsCallback c s := by
  have hlisted : (symbol.renamed m).base.toList ++ (symbol.renamed m).interfaces =
      (symbol.base.toList ++ symbol.interfaces).map (Ty.renamed m) := by
    rw [List.map_append]
    cases hbase : symbol.base <;> simp [Symbol.renamed, hbase]
  rw [Symbol.listsCallback, Symbol.listsCallback, hlisted, List.any_map]
  exact congrArg (List.any _) (funext fun t ↦ congrArg s.host.isCallback (h.fullName t))

theorem usingTexts (symbol : Symbol) :
    (symbol.renamed m).usingTexts c' = symbol.usingTexts c := by
  rw [Symbol.usingTexts, Symbol.usingTexts, Symbol.renamed, List.flatMap_map]
  simp only [Site.renamed, Scope.usings_renamed, h.text]

theorem isPartialType (i : TypeId) : c'.isPartialType (m.type i) = c.isPartialType i := by
  rw [Compilation.isPartialType, Compilation.isPartialType,
    h.map_symbol? fun s ↦ s.isPartial_renamed]

theorem isPartialChain (i : TypeId) : c'.isPartialChain (m.type i) = c.isPartialChain i := by
  rw [Compilation.isPartialChain, Compilation.isPartialChain, h.isPartialType, h.enclosing,
    List.all_map, show c'.isPartialType ∘ m.type = c.isPartialType from funext h.isPartialType]

theorem hasCompanion (s : Settings) (i : TypeId) :
    c'.hasCompanion s (m.type i) = c.hasCompanion s i := by
  rw [Compilation.hasCompanion, Compilation.hasCompanion, h.symbol?]
  cases c.symbol? i with
  | none => rfl
  | some symbol =>
    simp only [Option.map_some, h.isPartialChain, h.ownShapes, h.inheritedFields]
    rfl

theorem ancestorsWithin (budget : Nat) (current : TypeId) (seen : List TypeId) :
    c'.ancestorsWithin budget (m.type current) (seen.map m.type) =
      (c.ancestorsWithin budget current seen).map m.type := by
  induction budget generalizing current seen with
  | zero => rfl
  | succ budget ih =>
    have hbase : (c'.base? (m.type current)).bind Ty.id? =
        ((c.base? current).bind Ty.id?).map m.type := by
      rw [h.base?]
      cases c.base? current with
      | none => rfl
      | some base => exact Ty.id?_renamed base
    rw [Compilation.ancestorsWithin, Compilation.ancestorsWithin, hbase]
    cases (c.base? current).bind Ty.id? with
    | none => rfl
    | some base =>
      have hseen : (seen.map m.type).contains (m.type base) = seen.contains base := by
        rw [Bool.eq_iff_iff, List.contains_iff_mem, List.contains_iff_mem,
          List.mem_map_of_injective m.bijective.injective]
      have ih := ih base (base :: seen)
      rw [List.map_cons] at ih
      simp only [Option.map_some, hseen, ih]
      split <;> rfl

theorem ancestors (i : TypeId) : c'.ancestors (m.type i) = (c.ancestors i).map m.type := by
  rw [Compilation.ancestors, Compilation.ancestors, h.table.length]
  exact h.ancestorsWithin _ i [i]

theorem above (s : Settings) (is : List TypeId) :
    c'.above s (is.map m.type) = (c.above s is).renamed m := by
  induction is with
  | nil => rfl
  | cons i is ih =>
    have hlists : (c'.symbol? (m.type i)).map (·.listsCallback c' s) =
        (c.symbol? i).map (·.listsCallback c s) := by
      rw [h.symbol?, Option.map_map]
      exact congrArg (Option.map · _) (funext fun symbol ↦ h.listsCallback symbol s)
    rw [List.map_cons, Compilation.above, Compilation.above, h.hasCompanion, ih, hlists]
    split
    · rfl
    · split <;> rfl

theorem isExtended (s : Settings) (i : TypeId) :
    c'.isExtended s (m.type i) = c.isExtended s i := by
  -- A counterpart of a declared type is declared, and every declared type is one.
  have hextends (other : TypeId) (symbol : Symbol) :
      (m.type other != m.type i && (symbol.renamed m).isClass &&
          (c'.ancestors (m.type other)).contains (m.type i) && c'.hasCompanion s (m.type other)) =
        (other != i && symbol.isClass && (c.ancestors other).contains i &&
          c.hasCompanion s other) := by
    have hother : (m.type other != m.type i) = (other != i) := by
      rw [Bool.eq_iff_iff, bne_iff_ne, bne_iff_ne, m.bijective.injective.ne_iff]
    have hcontains : (c'.ancestors (m.type other)).contains (m.type i) =
        (c.ancestors other).contains i := by
      rw [h.ancestors, Bool.eq_iff_iff, List.contains_iff_mem, List.contains_iff_mem,
        List.mem_map_of_injective m.bijective.injective]
    rw [hother, hcontains, h.hasCompanion]
    rfl
  rw [Compilation.isExtended, Compilation.isExtended, Bool.eq_iff_iff, List.any_eq_true,
    List.any_eq_true]
  constructor
  · rintro ⟨⟨other', symbol'⟩, hdeclared, hextended⟩
    obtain ⟨other, rfl⟩ := m.bijective.surjective other'
    obtain ⟨hid, hsymbol'⟩ := mem_declared_iff.mp hdeclared
    rw [h.symbol?] at hsymbol'
    obtain ⟨symbol, hsymbol, rfl⟩ := Option.map_eq_some_iff.mp hsymbol'
    exact ⟨(other, symbol), mem_declared_iff.mpr ⟨(m.firstDeclared_le_iff other).mp hid, hsymbol⟩,
      (hextends other symbol).symm.trans hextended⟩
  · rintro ⟨⟨other, symbol⟩, hdeclared, hextended⟩
    obtain ⟨hid, hsymbol⟩ := mem_declared_iff.mp hdeclared
    refine ⟨(m.type other, symbol.renamed m), mem_declared_iff.mpr
      ⟨(m.firstDeclared_le_iff other).mpr hid, ?_⟩, (hextends other symbol).trans hextended⟩
    rw [h.symbol?, hsymbol]
    rfl

theorem hookRole (s : Settings) (i : TypeId) : c'.hookRole s (m.type i) = c.hookRole s i := by
  rw [Compilation.hookRole, Compilation.hookRole, h.ancestors, h.above, h.isExtended]
  cases c.above s (c.ancestors i) <;> rfl

theorem handWrittenReport (s : Settings) (i : TypeId) :
    c'.handWrittenReport s (m.type i) = c.handWrittenReport s i := by
  have hsites : ((c'.symbol? (m.type i)).map (·.sites)).getD [] =
      (((c.symbol? i).map (·.sites)).getD []).map (Site.renamed m) := by
    rw [h.symbol?]
    cases c.symbol? i <;> rfl
  rw [Compilation.handWrittenReport, Compilation.handWrittenReport, h.ancestors, h.above, hsites]
  cases c.above s (c.ancestors i) with
  | handWritten base =>
    cases ((c.symbol? i).map (·.sites)).getD [] with
    | nil => rfl
    | cons site sites =>
      simp only [Above.renamed, List.map_cons, h.qualifiedName, Site.renamed, h.path]
  | _ => rfl

theorem notPartialReport (i : TypeId) :
    c'.notPartialReport (m.type i) = c.notPartialReport i := by
  have hoffender : ((m.type i :: (c'.enclosing (m.type i)).reverse).find? fun j ↦
        !c'.isPartialType j) =
      ((i :: (c.enclosing i).reverse).find? fun j ↦ !c.isPartialType j).map m.type := by
    rw [h.enclosing, ← List.map_reverse, ← List.map_cons, List.find?_map]
    exact congrArg (fun p ↦ Option.map m.type (List.find? p _))
      (funext fun j ↦ congrArg not (h.isPartialType j))
  rw [Compilation.notPartialReport, Compilation.notPartialReport, hoffender]
  simp only [Option.bind_eq_bind, Option.bind_map]
  refine congrArg (Option.bind _) (funext fun offender ↦ ?_)
  rw [Function.comp_apply, h.symbol?, Option.bind_map]
  refine congrArg (Option.bind _) (funext fun symbol ↦ ?_)
  have hsite : (((symbol.renamed m).sites.find? fun site ↦ !site.decl.header.isPartial).or
        (symbol.renamed m).sites.head?) =
      ((symbol.sites.find? fun site ↦ !site.decl.header.isPartial).or
        symbol.sites.head?).map (Site.renamed m) := by
    rw [Symbol.renamed, List.find?_map, List.head?_map, Option.map_or]
    rfl
  rw [Function.comp_apply, hsite, Option.bind_map]
  refine congrArg (Option.bind _) (funext fun site ↦ ?_)
  simp only [Function.comp_apply, h.qualifiedName, Site.renamed, h.path,
    m.bijective.injective.eq_iff]
  rfl

theorem containingType (i : TypeId) : c'.containingType (m.type i) = c.containingType i :=
  h.map_symbol? (fun _ ↦ rfl) i

theorem analysisOf (s : Settings) (i : TypeId) (symbol : Symbol) :
    c'.analysisOf s (m.type i) (symbol.renamed m) = c.analysisOf s i symbol := by
  have hcontaining : (c'.enclosing (m.type i)).filterMap c'.containingType =
      (c.enclosing i).filterMap c.containingType := by
    rw [h.enclosing, List.filterMap_map,
      show c'.containingType ∘ m.type = c.containingType from funext h.containingType]
  have hfile : ((symbol.renamed m).sites.head?.map fun site ↦ c'.path site.file) =
      symbol.sites.head?.map fun site ↦ c.path site.file := by
    rw [Symbol.renamed, List.head?_map, Option.map_map]
    exact congrArg (Option.map · _) (funext fun site ↦ h.path site.file)
  have hspan : (symbol.renamed m).sites.head?.map (·.decl.header.nameSpan) =
      symbol.sites.head?.map (·.decl.header.nameSpan) := by
    rw [Symbol.renamed, List.head?_map, Option.map_map]
    rfl
  rw [Compilation.analysisOf, Compilation.analysisOf, h.ownShapes, h.inheritedFields,
    h.isPartialChain, hcontaining, h.listsCallback, h.hookRole, h.usingTexts, hfile, hspan]
  rfl

/-- A type and its counterpart have one analysis and one list of reports. -/
theorem analyze (s : Settings) (i : TypeId) : c'.analyze s (m.type i) = c.analyze s i := by
  rw [Compilation.analyze, Compilation.analyze, h.symbol?]
  cases c.symbol? i with
  | none => rfl
  | some symbol =>
    simp only [Option.map_some, h.analysisOf, h.ownReports, h.inheritedReports, h.notPartialReport,
      h.handWrittenReport]

end Renames
end Compilation
end Companion
