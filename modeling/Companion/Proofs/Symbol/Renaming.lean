import Companion.Proofs.Symbol.Substitution
import Mathlib.Logic.Function.Basic

/-!
Types by other numbers. A type is told apart by its place in the table, and a site by the place of
its file; both are mere numbers (`Renaming`). If two tables have the same symbols under different
numbers (`Table.Renames`), names are looked up alike in them (`Table.Renames.lookup`): what a
reference stands for in the one is what it stands for in the other, with the numbers changed
(`Table.Renames.resolve`).
-/

set_option autoImplicit false
set_option relaxedAutoImplicit false

namespace Companion

/-- Other numbers for types and files. The types that are known beforehand keep theirs. -/
structure Renaming where
  type : TypeId → TypeId
  file : Nat → Nat
  bijective : type.Bijective
  surjective_file : file.Surjective
  known : ∀ id < TypeId.firstDeclared, type id = id

variable {m : Renaming}

/-! ### Renamed types -/

namespace Ty

mutual

/-- A type with the numbers of types changed. -/
def renamed (m : Renaming) : Ty → Ty
  | named id args => named (m.type id) (renamedAll m args)
  | param name owner => param name (m.type owner)
  | array e rank => array (renamed m e) rank
  | nullable i => nullable (renamed m i)
  | tuple es => tuple (renamedAll m es)
  | unresolved text => unresolved text

def renamedAll (m : Renaming) : List Ty → List Ty
  | [] => []
  | t :: ts => renamed m t :: renamedAll m ts

end

theorem renamedAll_eq_map (ts : List Ty) : renamedAll m ts = ts.map (renamed m) := by
  induction ts with
  | nil => rfl
  | cons t ts ih => rw [renamedAll, ih, List.map_cons]

@[simp] theorem renamed_named (id : TypeId) (args : List Ty) :
    (named id args).renamed m = named (m.type id) (args.map (renamed m)) := by
  rw [renamed, renamedAll_eq_map]

@[simp] theorem renamed_param (name : String) (owner : TypeId) :
    (param name owner).renamed m = param name (m.type owner) := rfl

@[simp] theorem renamed_array (e : Ty) (rank : Nat) :
    (array e rank).renamed m = array (e.renamed m) rank := rfl

@[simp] theorem renamed_nullable (i : Ty) : (nullable i).renamed m = nullable (i.renamed m) := rfl

@[simp] theorem renamed_tuple (es : List Ty) :
    (tuple es).renamed m = tuple (es.map (renamed m)) := by
  rw [renamed, renamedAll_eq_map]

@[simp] theorem renamed_unresolved (text : String) :
    (unresolved text).renamed m = unresolved text := rfl

mutual

theorem renamed_inj : ∀ t t' : Ty, t.renamed m = t'.renamed m → t = t'
  | named id args, t', h => by
    cases t' <;> simp only [renamed, reduceCtorEq, named.injEq] at h
    rw [m.bijective.injective h.1, renamedAll_inj args _ h.2]
  | param name owner, t', h => by
    cases t' <;> simp only [renamed, reduceCtorEq, param.injEq] at h
    rw [h.1, m.bijective.injective h.2]
  | array e rank, t', h => by
    cases t' <;> simp only [renamed, reduceCtorEq, array.injEq] at h
    rw [renamed_inj e _ h.1, h.2]
  | nullable i, t', h => by
    cases t' <;> simp only [renamed, reduceCtorEq, nullable.injEq] at h
    rw [renamed_inj i _ h]
  | tuple es, t', h => by
    cases t' <;> simp only [renamed, reduceCtorEq, tuple.injEq] at h
    rw [renamedAll_inj es _ h]
  | unresolved text, t', h => by
    cases t' <;> simp only [renamed, reduceCtorEq, unresolved.injEq] at h
    rw [h]

theorem renamedAll_inj : ∀ ts ts' : List Ty, renamedAll m ts = renamedAll m ts' → ts = ts'
  | [], ts', h => by
    cases ts' <;> simp only [renamedAll, reduceCtorEq] at h
    rfl
  | t :: ts, ts', h => by
    cases ts' <;> simp only [renamedAll, reduceCtorEq, List.cons.injEq] at h
    rw [renamed_inj t _ h.1, renamedAll_inj ts _ h.2]

end

theorem renamed_injective : Function.Injective (renamed m) := fun t t' ↦ renamed_inj t t'

@[simp] theorem renamed_ofPredefined (p : Predefined) :
    (ofPredefined p).renamed m = ofPredefined p := by
  have hknown : p.index < TypeId.firstDeclared := by cases p <;> decide
  rw [ofPredefined, renamed_named, m.known _ hknown, List.map_nil]

@[simp] theorem id?_renamed (t : Ty) : (t.renamed m).id? = t.id?.map m.type := by
  cases t <;> simp [id?]

@[simp] theorem stripNullable_renamed : ∀ t : Ty,
    (t.renamed m).stripNullable = t.stripNullable.renamed m
  | nullable i => stripNullable_renamed i
  | named _ _ | param _ _ | array _ _ | tuple _ | unresolved _ => rfl

mutual

theorem anyParam_renamed {p p' : String → TypeId → Bool}
    (hp : ∀ name owner, p' name (m.type owner) = p name owner) :
    ∀ t : Ty, (t.renamed m).anyParam p' = t.anyParam p
  | named _ args => anyParamAll_renamed hp args
  | param name owner => hp name owner
  | array e _ => anyParam_renamed hp e
  | nullable i => anyParam_renamed hp i
  | tuple es => anyParamAll_renamed hp es
  | unresolved _ => rfl

theorem anyParamAll_renamed {p p' : String → TypeId → Bool}
    (hp : ∀ name owner, p' name (m.type owner) = p name owner) :
    ∀ ts : List Ty, anyParamAll p' (renamedAll m ts) = anyParamAll p ts
  | [] => rfl
  | t :: ts => by
    rw [renamedAll, anyParamAll, anyParamAll, anyParam_renamed hp t, anyParamAll_renamed hp ts]

end

@[simp] theorem hasParam_renamed (t : Ty) : (t.renamed m).hasParam = t.hasParam :=
  anyParam_renamed (fun _ _ ↦ rfl) t

@[simp] theorem mentionsParamsOf_renamed (owner : TypeId) (t : Ty) :
    (t.renamed m).mentionsParamsOf (m.type owner) = t.mentionsParamsOf owner :=
  anyParam_renamed (fun _ other ↦ by
    rw [Bool.eq_iff_iff, beq_iff_eq, beq_iff_eq, m.bijective.injective.eq_iff]) t

@[simp] theorem isClosedGeneric_renamed (t : Ty) :
    (t.renamed m).isClosedGeneric = t.isClosedGeneric := by
  cases t with
  | named id args =>
    rw [renamed_named, isClosedGeneric, isClosedGeneric, ← renamed_named, hasParam_renamed,
      List.isEmpty_map]
  | _ => rfl

mutual

theorem replaceParams_renamed {f f' : String → TypeId → Option Ty}
    (hf : ∀ name owner, f' name (m.type owner) = (f name owner).map (renamed m)) :
    ∀ t : Ty, (t.renamed m).replaceParams f' = (t.replaceParams f).renamed m
  | named id args => by
    rw [renamed, replaceParams, replaceParams, renamed, replaceParamsAll_renamed hf args]
  | param name owner => by
    rw [renamed, replaceParams, replaceParams, hf]
    cases f name owner <;> rfl
  | array e rank => by
    rw [renamed, replaceParams, replaceParams, renamed, replaceParams_renamed hf e]
  | nullable i => by
    rw [renamed, replaceParams, replaceParams, renamed, replaceParams_renamed hf i]
  | tuple es => by
    rw [renamed, replaceParams, replaceParams, renamed, replaceParamsAll_renamed hf es]
  | unresolved _ => rfl

theorem replaceParamsAll_renamed {f f' : String → TypeId → Option Ty}
    (hf : ∀ name owner, f' name (m.type owner) = (f name owner).map (renamed m)) :
    ∀ ts : List Ty, replaceParamsAll f' (renamedAll m ts) = renamedAll m (replaceParamsAll f ts)
  | [] => rfl
  | t :: ts => by
    rw [renamedAll, replaceParamsAll, replaceParamsAll, renamedAll, replaceParams_renamed hf t,
      replaceParamsAll_renamed hf ts]

end

theorem substitute_renamed (owner : TypeId) (params : List String) (args : List Ty) (t : Ty) :
    (t.renamed m).substitute (m.type owner) params (args.map (renamed m)) =
      (t.substitute owner params args).renamed m := by
  refine replaceParams_renamed (fun name other ↦ ?_) t
  by_cases hother : other = owner
  · simp [hother, argumentFor_map]
  · simp [hother, m.bijective.injective.eq_iff]

end Ty

/-! ### Renamed tables -/

def Level.renamed (m : Renaming) : Level → Level
  | type id => type (m.type id)
  | space name usings => space name usings
  | unit usings => unit usings

def Site.renamed (m : Renaming) (s : Site) : Site :=
  ⟨m.file s.file, s.decl, s.body.map (Level.renamed m)⟩

def Key.renamed (m : Renaming) (k : Key) : Key := { k with container := k.container.map m.type }

def Symbol.renamed (m : Renaming) (s : Symbol) : Symbol :=
  { s with
    enclosing := s.enclosing.map m.type
    sites := s.sites.map (Site.renamed m)
    base := s.base.map (Ty.renamed m)
    interfaces := s.interfaces.map (Ty.renamed m) }

theorem Key.renamed_injective : Function.Injective (Key.renamed m) := by
  rintro ⟨space, container, name, arity⟩ ⟨space', container', name', arity'⟩ h
  obtain ⟨hspace, hcontainer, hname, harity⟩ := Key.mk.inj h
  exact Key.mk.injEq .. ▸
    ⟨hspace, Option.map_injective m.bijective.injective hcontainer, hname, harity⟩

theorem Symbol.key_renamed (s : Symbol) : (s.renamed m).key = s.key.renamed m := by
  have hcontainer : (s.renamed m).container = s.container.map m.type := List.getLast?_map
  rw [key, key, hcontainer]
  cases s.container <;> rfl

def Prefixed.renamed (m : Renaming) : Prefixed → Prefixed
  | space s => space s
  | type t => type (t.renamed m)

/-- The first piece of a name is understood alike, up to the numbers of types. -/
structure Lookup.Renames (m : Renaming) (l l' : Lookup) : Prop where
  type : ∀ ident args,
    l'.type ident (args.map (Ty.renamed m)) = (l.type ident args).map (Ty.renamed m)
  spaces : ∀ ident, l'.spaces ident = l.spaces ident

namespace Table

theorem resolvePath_cons (t : Table) (l : Lookup) (ident : String) (args : List Ty)
    (rest : List (String × List Ty)) : t.resolvePath l ((ident, args) :: rest) =
      ((l.type ident args).bind fun ty ↦ t.walk (.type ty) rest).or
        (if rest.isEmpty || !args.isEmpty then none
          else (l.spaces ident).findSome? fun s ↦ t.walk (.space s) rest) := by
  rw [resolvePath]
  cases l.type ident args with
  | none => rfl
  | some ty =>
    dsimp only [Option.bind_some]
    cases t.walk (.type ty) rest <;> rfl

/-- Bases do not matter to look-ups. -/
theorem find?_withBases (t : Table) (key : Key) : t.withBases.find? key = t.find? key := by
  suffices hlast : ∀ (symbols : List Symbol) (first : TypeId),
      lastWithKey key first (symbols.map fun s ↦
        { s with base := (t.basesOf s).1, interfaces := (t.basesOf s).2 }) =
          lastWithKey key first symbols from hlast t.symbols 0
  intro symbols
  induction symbols with
  | nil => exact fun _ ↦ rfl
  | cons s symbols ih =>
    intro first
    rw [List.map_cons, lastWithKey, lastWithKey, ih]
    rfl

/-- Two tables have the same symbols, up to their numbers. -/
structure Renames (m : Renaming) (t t' : Table) : Prop where
  symbol? : ∀ id, t'.symbol? (m.type id) = (t.symbol? id).map (Symbol.renamed m)
  find? : ∀ key : Key, t'.find? (key.renamed m) = (t.find? key).map m.type
  hasSpace : ∀ space, t'.hasSpace space = t.hasSpace space
  globalUsings : t'.globalUsings = t.globalUsings
  length : t'.symbols.length = t.symbols.length

namespace Renames

variable {t t' : Table}

section Names

variable (h : t.Renames m t')
include h

theorem findIn (space : Space) (name : String) (arity : Nat) :
    t'.findIn space name arity = (t.findIn space name arity).map m.type :=
  h.find? ⟨space, none, name, arity⟩

theorem findNested (outer : TypeId) (name : String) (arity : Nat) :
    t'.findNested (m.type outer) name arity = (t.findNested outer name arity).map m.type :=
  h.find? ⟨[], some outer, name, arity⟩

/-- A declared type that is found by name, given arguments. -/
theorem findIn_named (space : Space) (name : String) (args : List Ty) :
    (t'.findIn space name (args.map (Ty.renamed m)).length).map
      (.named · (args.map (Ty.renamed m))) =
      ((t.findIn space name args.length).map (.named · args)).map (Ty.renamed m) := by
  rw [List.length_map, h.findIn]
  cases t.findIn space name args.length <;> simp

theorem findNested_named (outer : TypeId) (name : String) (args : List Ty) :
    (t'.findNested (m.type outer) name (args.map (Ty.renamed m)).length).map
        (.named · (args.map (Ty.renamed m))) =
      ((t.findNested outer name args.length).map (.named · args)).map (Ty.renamed m) := by
  rw [List.length_map, h.findNested]
  cases t.findNested outer name args.length <;> simp

theorem member (outer : Prefixed) (ident : String) (args : List Ty) :
    t'.member (outer.renamed m) ident (args.map (Ty.renamed m)) =
      (t.member outer ident args).map (Prefixed.renamed m) := by
  cases outer with
  | space s =>
    simp only [Table.member, Prefixed.renamed, h.findIn, List.length_map, h.hasSpace,
      List.isEmpty_map]
    cases t.findIn s ident args.length with
    | some id => simp [Prefixed.renamed]
    | none => cases args.isEmpty && t.hasSpace (s ++ [ident]) <;> rfl
  | type ty =>
    simp only [Table.member, Prefixed.renamed, Ty.id?_renamed]
    cases ty.id? with
    | none => rfl
    | some id =>
      simp only [Option.map_some, List.length_map, h.findNested]
      cases t.findNested id ident args.length <;> simp [Prefixed.renamed]

/-- A piece of a path with its arguments. -/
theorem walk (path : List (String × List Ty)) (start : Prefixed) :
    t'.walk (start.renamed m) (path.map (Prod.map id (List.map (Ty.renamed m)))) =
      (t.walk start path).map (Ty.renamed m) := by
  induction path generalizing start with
  | nil => cases start <;> rfl
  | cons piece rest ih =>
    obtain ⟨ident, args⟩ := piece
    rw [List.map_cons, Prod.map_apply, id, Table.walk, Table.walk, h.member]
    cases t.member start ident args with
    | none => rfl
    | some next => exact ih next

theorem namesSpace (u : Using) : t'.namesSpace u = t.namesSpace u := by
  rw [Table.namesSpace, Table.namesSpace]
  split
  · exact h.hasSpace _
  · rfl

theorem aliasedSpaces (us : List Using) (ident : String) :
    t'.aliasedSpaces us ident = t.aliasedSpaces us ident := by
  simp only [Table.aliasedSpaces, h.namesSpace]

section Lookups

variable {l l' : Lookup} (hl : l.Renames m l')
include hl

theorem resolvePath (path : List (String × List Ty)) :
    t'.resolvePath l' (path.map (Prod.map id (List.map (Ty.renamed m)))) =
      (t.resolvePath l path).map (Ty.renamed m) := by
  cases path with
  | nil => rfl
  | cons piece rest =>
    obtain ⟨ident, args⟩ := piece
    have hfromType : ((l'.type ident (args.map (Ty.renamed m))).bind fun ty ↦
          t'.walk (.type ty) (rest.map (Prod.map id (List.map (Ty.renamed m))))) =
        ((l.type ident args).bind fun ty ↦ t.walk (.type ty) rest).map (Ty.renamed m) := by
      rw [hl.type]
      cases l.type ident args with
      | none => rfl
      | some ty => exact h.walk rest (.type ty)
    have hfromSpaces : ((l'.spaces ident).findSome? fun s ↦
          t'.walk (.space s) (rest.map (Prod.map id (List.map (Ty.renamed m))))) =
        ((l.spaces ident).findSome? fun s ↦ t.walk (.space s) rest).map (Ty.renamed m) := by
      rw [hl.spaces, List.map_findSome?]
      exact congrArg (List.findSome? · _) (funext fun s ↦ h.walk rest (.space s))
    rw [List.map_cons, Prod.map_apply, id, resolvePath_cons, resolvePath_cons, hfromType,
      hfromSpaces, List.isEmpty_map, List.isEmpty_map]
    split <;> simp [Option.map_or]

end Lookups

end Names

mutual

theorem resolveWith {l l' : Lookup} (h : t.Renames m t') (hl : l.Renames m l') : ∀ r : TypeRef,
    t'.resolveWith l' r = (t.resolveWith l r).renamed m
  | .predefined p _ => (Ty.renamed_ofPredefined p).symm
  | .named fromGlobal segs span => by
    have hfound : (if fromGlobal then t'.walk (.space []) (t'.resolveSegments l' segs)
          else t'.resolvePath l' (t'.resolveSegments l' segs)) =
        (if fromGlobal then t.walk (.space []) (t.resolveSegments l segs)
          else t.resolvePath l (t.resolveSegments l segs)).map (Ty.renamed m) := by
      rw [resolveSegments h hl segs, h.resolvePath hl]
      split
      · exact h.walk _ (.space [])
      · rfl
    rw [Table.resolveWith, Table.resolveWith, hfound]
    cases (if fromGlobal then t.walk (.space []) (t.resolveSegments l segs)
      else t.resolvePath l (t.resolveSegments l segs)) <;> rfl
  | .array e rank _ => by
    rw [Table.resolveWith, Table.resolveWith, resolveWith h hl e, Ty.renamed_array]
  | .nullable i _ => by
    rw [Table.resolveWith, Table.resolveWith, resolveWith h hl i, Ty.renamed_nullable]
  | .tuple es _ => by
    rw [Table.resolveWith, Table.resolveWith, resolveAll h hl es, Ty.renamed_tuple]

theorem resolveAll {l l' : Lookup} (h : t.Renames m t') (hl : l.Renames m l') : ∀ rs : List TypeRef,
    t'.resolveAll l' rs = (t.resolveAll l rs).map (Ty.renamed m)
  | [] => rfl
  | r :: rs => by
    rw [Table.resolveAll, Table.resolveAll, resolveWith h hl r, resolveAll h hl rs, List.map_cons]

theorem resolveSegments {l l' : Lookup} (h : t.Renames m t') (hl : l.Renames m l') :
    ∀ segs : List Segment, t'.resolveSegments l' segs =
    (t.resolveSegments l segs).map (Prod.map id (List.map (Ty.renamed m)))
  | [] => rfl
  | .mk ident args _ :: segs => by
    rw [Table.resolveSegments, Table.resolveSegments, resolveSegments h hl segs,
      Table.resolveSegment,
      Table.resolveSegment, resolveAll h hl args, List.map_cons, Prod.map_apply, id]

end

section Levels

variable (h : t.Renames m t')
include h

section Lookups

variable {l l' : Lookup} (hl : l.Renames m l')
include hl

theorem opens (u : Using) (ident : String) (arity : Nat) :
    t'.opens l' u ident arity = (t.opens l u ident arity).map m.type := by
  rw [Table.opens, Table.opens, h.resolveWith hl, Ty.id?_renamed]
  split
  · rfl
  split
  · cases (t.resolveWith l u.target).id? with
    | none => rfl
    | some id => exact h.findNested id ident arity
  · cases u.opened with
    | none => rfl
    | some s => exact h.findIn s ident arity

theorem throughUsings (us : List Using) (ident : String) (args : List Ty) :
    t'.throughUsings l' us ident (args.map (Ty.renamed m)) =
      (t.throughUsings l us ident args).map (Ty.renamed m) := by
  have hopened : (us.findSome? fun u ↦ t'.opens l' u ident args.length) =
      (us.findSome? fun u ↦ t.opens l u ident args.length).map m.type := by
    rw [List.map_findSome?]
    exact congrArg (List.findSome? · us) (funext fun u ↦ h.opens hl u ident args.length)
  rw [Table.throughUsings, Table.throughUsings, List.isEmpty_map, List.length_map, hopened]
  simp only [h.namesSpace]
  split
  · rw [h.resolveWith hl]
    rfl
  · cases us.findSome? fun u ↦ t.opens l u ident args.length <;> simp

theorem atLevel (level : Level) (ident : String) (args : List Ty) :
    t'.atLevel l' (level.renamed m) ident (args.map (Ty.renamed m)) =
      (t.atLevel l level ident args).map (Ty.renamed m) := by
  cases level with
  | type id =>
    have hparams : ((t'.symbol? (m.type id)).map (·.typeParams)).getD [] =
        ((t.symbol? id).map (·.typeParams)).getD [] := by
      rw [h.symbol?]
      cases t.symbol? id <;> rfl
    rw [Level.renamed, Table.atLevel, Table.atLevel, hparams, List.isEmpty_map, h.findNested_named]
    split <;> rfl
  | space s us =>
    rw [Level.renamed, Table.atLevel, Table.atLevel, List.length_map, h.findIn]
    cases t.findIn s ident args.length with
    | none => exact h.throughUsings hl us ident args
    | some id => simp
  | unit us =>
    rw [Level.renamed, Table.atLevel, Table.atLevel, List.length_map, h.findIn, h.globalUsings]
    cases t.findIn [] ident args.length with
    | none => exact h.throughUsings hl _ ident args
    | some id => simp

end Lookups

theorem spacesAtLevel (level : Level) (ident : String) :
    t'.spacesAtLevel (level.renamed m) ident = t.spacesAtLevel level ident := by
  cases level with
  | type id => rfl
  | space s us => simp only [Level.renamed, Table.spacesAtLevel, h.aliasedSpaces, h.hasSpace]
  | unit us => simp only [Level.renamed, Table.spacesAtLevel, h.aliasedSpaces]

/-- Names are understood alike in every scope. -/
theorem lookup (scope : Scope) :
    (t.lookup scope).Renames m (t'.lookup (scope.map (Level.renamed m))) := by
  induction scope with
  | nil =>
    constructor
    · intro ident args
      exact h.findIn_named [] ident args
    · intro ident
      show (if t'.hasSpace [ident] then _ else _) = _
      rw [h.hasSpace]
      rfl
  | cons level outer ih =>
    constructor
    · intro ident args
      rw [List.map_cons, Table.lookup, Table.lookup]
      dsimp only
      rw [h.atLevel ih, ih.type]
      cases t.atLevel (t.lookup outer) level ident args <;> rfl
    · intro ident
      rw [List.map_cons, Table.lookup, Table.lookup]
      dsimp only
      rw [h.spacesAtLevel, ih.spaces]

/-- References stand for the same types, up to their numbers. -/
theorem resolve (scope : Scope) (r : TypeRef) :
    t'.resolve (scope.map (Level.renamed m)) r = (t.resolve scope r).renamed m :=
  h.resolveWith (h.lookup scope) r

/-! Bases. -/

theorem kindOf (ty : Ty) : t'.kindOf (ty.renamed m) = t.kindOf ty := by
  rw [Table.kindOf, Table.kindOf, Ty.stripNullable_renamed, Ty.id?_renamed]
  cases ty.stripNullable.id? with
  | none => rfl
  | some id =>
    simp only [Option.map_some, h.symbol?]
    cases t.symbol? id <;> rfl

theorem isInterface (ty : Ty) : t'.isInterface (ty.renamed m) = t.isInterface ty := by
  rw [Table.isInterface, Table.isInterface, h.kindOf]

theorem writtenBases (s : Symbol) : t'.writtenBases (s.renamed m) =
    (t.writtenBases s).map (Prod.map (Ty.renamed m) id) := by
  simp only [Table.writtenBases, Symbol.renamed, List.flatMap_map, List.map_flatMap,
    List.mapIdx_eq_zipIdx_map, List.map_map, Site.renamed, h.resolve]
  rfl

theorem canBeBase (s : Symbol) (written : Ty × Bool) :
    t'.canBeBase (s.renamed m) (written.map (Ty.renamed m) id) = t.canBeBase s written := by
  have hobject : (written.1.renamed m ≠ Ty.ofPredefined .object) =
      (written.1 ≠ Ty.ofPredefined .object) := by
    conv_lhs => rw [← Ty.renamed_ofPredefined (m := m) .object]
    rw [Ty.renamed_injective.ne_iff]
  simp only [Table.canBeBase, Prod.map_fst, Prod.map_snd, h.isInterface, hobject, id]
  rfl

theorem takeBase (s : Symbol) (taken : Option Ty × List Ty) (written : Ty × Bool) :
    t'.takeBase (s.renamed m) (taken.map (Option.map (Ty.renamed m)) (List.map (Ty.renamed m)))
        (written.map (Ty.renamed m) id) =
      (t.takeBase s taken written).map (Option.map (Ty.renamed m)) (List.map (Ty.renamed m)) := by
  obtain ⟨base, interfaces⟩ := taken
  have hcontains : (interfaces.map (Ty.renamed m)).contains (written.1.renamed m) =
      interfaces.contains written.1 := by
    rw [Bool.eq_iff_iff, List.contains_iff_mem, List.contains_iff_mem,
      List.mem_map_of_injective Ty.renamed_injective]
  have hbase :
      (base.map (Ty.renamed m) = some (written.1.renamed m)) = (base = some written.1) := by
    rw [← Option.map_some, (Option.map_injective Ty.renamed_injective).eq_iff]
  rw [Table.takeBase, Table.takeBase, h.canBeBase]
  simp only [Prod.map_apply, Prod.map_fst, Option.isNone_map, hcontains, hbase]
  split
  · rfl
  · split
    · rfl
    · rw [Prod.map_apply, List.map_append, List.map_singleton]

theorem basesOf (s : Symbol) : t'.basesOf (s.renamed m) =
    (t.basesOf s).map (Option.map (Ty.renamed m)) (List.map (Ty.renamed m)) := by
  rw [Table.basesOf, Table.basesOf, h.writtenBases]
  suffices hfold : ∀ (written : List (Ty × Bool)) (taken : Option Ty × List Ty),
      (written.map (Prod.map (Ty.renamed m) id)).foldl (t'.takeBase (s.renamed m))
          (taken.map (Option.map (Ty.renamed m)) (List.map (Ty.renamed m))) =
        (written.foldl (t.takeBase s) taken).map (Option.map (Ty.renamed m))
          (List.map (Ty.renamed m)) from hfold _ (none, [])
  intro written
  induction written with
  | nil => exact fun _ ↦ rfl
  | cons first rest ih =>
    intro taken
    rw [List.map_cons, List.foldl_cons, List.foldl_cons, h.takeBase, ih]

/-- The tables are the same up to numbers with the bases of their symbols, too. -/
theorem withBases : t.withBases.Renames m t'.withBases where
  symbol? id := by
    have hsymbol := h.symbol? id
    simp only [Table.symbol?, Table.withBases, List.getElem?_map] at hsymbol ⊢
    rw [hsymbol]
    cases t.symbols[id]? with
    | none => rfl
    | some s =>
      simp only [Option.map_some, h.basesOf]
      rfl
  find? key := by rw [find?_withBases, find?_withBases, h.find?]
  hasSpace := h.hasSpace
  globalUsings := h.globalUsings
  length := by
    rw [Table.withBases, Table.withBases, List.length_map, List.length_map, h.length]

end Levels

end Renames

end Table

end Companion
