import Companion.Proofs.Field.Outcome
import Companion.Proofs.Run.Candidates
import Companion.Proofs.Symbol.Substitution

/-!
Types that references can stand for. In a well-formed type every name is a symbol of the table with
as many arguments as it has parameters, and every parameter is a parameter of a type around the
place where the reference is written (`Ty.WellFormed`). Whatever a reference stands for is well
formed, on whichever of the ways through a scope its name is found (`Table.wellFormed_lookup`). So
the arguments of a base that is a closed generic type leave none of the parameters of the base
behind (`Compilation.wellFormed_resolve_and_not_mentions_substituteBase`).
-/

set_option autoImplicit false
set_option relaxedAutoImplicit false

namespace Companion

/-! ### Well-formed types -/

/-- The types whose bodies are around a place, innermost first. -/
def Scope.types (s : Scope) : List TypeId :=
  s.filterMap fun level ↦
    match level with
    | .type id => some id
    | .space _ _ => none
    | .unit _ => none

namespace Ty

mutual

/-- Every name in a type is a symbol with an argument for each parameter, and every parameter is one
of a type among those `around`. -/
def WellFormed (t : Table) (around : List TypeId) : Ty → Prop
  | named id args =>
    (∃ s, t.symbol? id = some s ∧ args.length = s.arity) ∧ AllWellFormed t around args
  | param name owner => owner ∈ around ∧ ∃ s, t.symbol? owner = some s ∧ name ∈ s.typeParams
  | array e _ => WellFormed t around e
  | nullable i => WellFormed t around i
  | tuple es => AllWellFormed t around es
  | unresolved _ => True

def AllWellFormed (t : Table) (around : List TypeId) : List Ty → Prop
  | [] => True
  | ty :: tys => WellFormed t around ty ∧ AllWellFormed t around tys

end

end Ty

namespace Table

variable {t : Table} {around : List TypeId}

/-! ### Names that the table knows -/

theorem symbol_of_lastWithKey {key : Key} {first id : TypeId} {symbols : List Symbol}
    (h : lastWithKey key first symbols = some id) :
    ∃ i s, id = first + i ∧ symbols[i]? = some s ∧ s.key = key := by
  induction symbols generalizing first with
  | nil => cases h
  | cons s ss ih =>
    rw [lastWithKey] at h
    split at h
    · rename_i later hlater
      obtain rfl := Option.some.inj h
      obtain ⟨i, s', rfl, hs', hkey⟩ := ih hlater
      exact ⟨i + 1, s', Nat.add_right_comm _ _ _, hs', hkey⟩
    · split at h
      · rename_i hkey
        obtain rfl := Option.some.inj h
        exact ⟨0, s, rfl, rfl, hkey⟩
      · cases h

/-- A key leads to a symbol with as many parameters as it asks for. -/
theorem arity_of_find? {key : Key} {id : TypeId} (h : t.find? key = some id) :
    ∃ s, t.symbol? id = some s ∧ s.arity = key.arity := by
  obtain ⟨i, s, rfl, hs, rfl⟩ := symbol_of_lastWithKey h
  refine ⟨s, by rwa [symbol?, Nat.zero_add], ?_⟩
  rw [Symbol.key]
  split <;> rfl

theorem wellFormed_named_of_find? {key : Key} {id : TypeId} {args : List Ty}
    (h : t.find? key = some id) (harity : key.arity = args.length)
    (hargs : Ty.AllWellFormed t around args) : (Ty.named id args).WellFormed t around := by
  obtain ⟨s, hs, hkey⟩ := arity_of_find? h
  exact ⟨⟨s, hs, harity.symm.trans hkey.symm⟩, hargs⟩

theorem wellFormed_of_findIn {space : Space} {name : String} {args : List Ty} {ty : Ty}
    (hargs : Ty.AllWellFormed t around args)
    (h : (t.findIn space name args.length).map (.named · args) = some ty) :
    ty.WellFormed t around := by
  obtain ⟨id, hid, rfl⟩ := Option.map_eq_some_iff.mp h
  exact wellFormed_named_of_find? hid rfl hargs

theorem wellFormed_of_findNested {outer : TypeId} {name : String} {args : List Ty} {ty : Ty}
    (hargs : Ty.AllWellFormed t around args)
    (h : (t.findNested outer name args.length).map (.named · args) = some ty) :
    ty.WellFormed t around := by
  obtain ⟨id, hid, rfl⟩ := Option.map_eq_some_iff.mp h
  exact wellFormed_named_of_find? hid rfl hargs

/-! ### Paths -/

theorem wellFormed_of_member {outer : Prefixed} {ident : String} {args : List Ty} {ty : Ty}
    (hargs : Ty.AllWellFormed t around args)
    (h : t.member outer ident args = some (.type ty)) : ty.WellFormed t around := by
  cases outer with
  | space s =>
    rw [member] at h
    split at h
    · rename_i id hid
      obtain rfl := Prefixed.type.inj (Option.some.inj h)
      exact wellFormed_named_of_find? hid rfl hargs
    · split at h <;> cases h
  | type outerTy =>
    rw [member] at h
    split at h
    · obtain ⟨id, hid, hn⟩ := Option.map_eq_some_iff.mp h
      obtain rfl := Prefixed.type.inj hn
      exact wellFormed_named_of_find? hid rfl hargs
    · cases h

/-- The type at the end of a path is well formed if the arguments on the way are, and the type that
the path starts from. -/
theorem wellFormed_of_walk {path : List (String × List Ty)} {start : Prefixed} {ty : Ty}
    (hstart : ∀ first, start = .type first → first.WellFormed t around)
    (hpath : ∀ piece ∈ path, Ty.AllWellFormed t around piece.2)
    (h : t.walk start path = some ty) : ty.WellFormed t around := by
  induction path generalizing start with
  | nil =>
    cases start with
    | type first =>
      obtain rfl := Option.some.inj h
      exact hstart first rfl
    | space s => cases h
  | cons piece rest ih =>
    obtain ⟨ident, args⟩ := piece
    obtain ⟨hargs, hrest⟩ := List.forall_mem_cons.mp hpath
    rw [walk] at h
    split at h
    · rename_i next hnext
      refine ih (fun first hfirst ↦ ?_) hrest h
      subst hfirst
      exact wellFormed_of_member hargs hnext
    · cases h

/-- Whatever a scope gives to an identifier with well-formed arguments is well formed. -/
def Lookup.WellFormed (t : Table) (around : List TypeId) (l : Lookup) : Prop :=
  ∀ ident args ty, Ty.AllWellFormed t around args → l.type ident args = some ty →
    ty.WellFormed t around

theorem wellFormed_of_resolvePath {l : Lookup} (hl : Lookup.WellFormed t around l)
    {path : List (String × List Ty)} (hpath : ∀ piece ∈ path, Ty.AllWellFormed t around piece.2)
    {ty : Ty} (h : t.resolvePath l path = some ty) : ty.WellFormed t around := by
  obtain _ | ⟨⟨ident, args⟩, rest⟩ := path
  · cases h
  obtain ⟨hargs, hrest⟩ := List.forall_mem_cons.mp hpath
  rw [resolvePath] at h
  split at h
  · rename_i ty' hfirst
    obtain rfl : ty' = ty := Option.some.inj h
    split at hfirst
    · rename_i first htype
      refine wellFormed_of_walk (fun first' heq ↦ ?_) hrest hfirst
      obtain rfl := Prefixed.type.inj heq
      exact hl ident args first hargs htype
    · cases hfirst
  · split at h
    · cases h
    · obtain ⟨space, -, hspace⟩ := List.exists_of_findSome?_eq_some h
      exact wellFormed_of_walk (fun first heq ↦ by cases heq) hrest hspace

/-! ### References -/

/-- The types with keywords are symbols without parameters. -/
def KnowsPredefined (t : Table) : Prop :=
  ∀ p : Predefined, ∃ s, t.symbol? p.index = some s ∧ s.arity = 0

mutual

theorem wellFormed_resolveWith {l : Lookup} (hknown : t.KnowsPredefined)
    (hl : Lookup.WellFormed t around l) : ∀ r : TypeRef, (t.resolveWith l r).WellFormed t around
  | .predefined p _ => by
    obtain ⟨s, hs, harity⟩ := hknown p
    exact ⟨⟨s, hs, harity.symm⟩, trivial⟩
  | .named fromGlobal segs span => by
    have hsegs := wellFormed_resolveSegments hknown hl segs
    have hfound : ∀ ty, (if fromGlobal then t.walk (.space []) (t.resolveSegments l segs)
        else t.resolvePath l (t.resolveSegments l segs)) = some ty → ty.WellFormed t around := by
      intro ty hty
      cases fromGlobal with
      | true => exact wellFormed_of_walk (fun first heq ↦ by cases heq) hsegs hty
      | false => exact wellFormed_of_resolvePath hl hsegs hty
    rw [resolveWith]
    cases heq : (if fromGlobal then t.walk (.space []) (t.resolveSegments l segs)
      else t.resolvePath l (t.resolveSegments l segs)) with
    | none => trivial
    | some ty => exact hfound ty heq
  | .array e _ _ => wellFormed_resolveWith hknown hl e
  | .nullable i _ => wellFormed_resolveWith hknown hl i
  | .tuple es _ => wellFormed_resolveAll hknown hl es

theorem wellFormed_resolveAll {l : Lookup} (hknown : t.KnowsPredefined)
    (hl : Lookup.WellFormed t around l) :
    ∀ rs : List TypeRef, Ty.AllWellFormed t around (t.resolveAll l rs)
  | [] => trivial
  | r :: rs => ⟨wellFormed_resolveWith hknown hl r, wellFormed_resolveAll hknown hl rs⟩

theorem wellFormed_resolveSegments {l : Lookup} (hknown : t.KnowsPredefined)
    (hl : Lookup.WellFormed t around l) : ∀ segs : List Segment,
    ∀ piece ∈ t.resolveSegments l segs, Ty.AllWellFormed t around piece.2
  | [] => fun _ h ↦ by cases h
  | .mk _ args _ :: segs => List.forall_mem_cons.mpr
    ⟨wellFormed_resolveAll hknown hl args, wellFormed_resolveSegments hknown hl segs⟩

end

/-! ### Scopes -/

section Scopes

variable (hknown : t.KnowsPredefined)
include hknown

/-- What the directives of a level bring in is well formed: the target of an alias is resolved
outside the level, among fewer types. -/
theorem wellFormed_of_throughUsings {outside : Lookup} (hl : Lookup.WellFormed t around outside)
    {us : List Using} {ident : String} {args : List Ty} {ty : Ty}
    (hargs : Ty.AllWellFormed t around args)
    (h : t.throughUsings outside us ident args = some ty) : ty.WellFormed t around := by
  rw [throughUsings] at h
  split at h
  · rename_i u _
    obtain rfl := Option.some.inj h
    exact wellFormed_resolveWith hknown hl u.target
  · obtain ⟨id, hid, rfl⟩ := Option.map_eq_some_iff.mp h
    obtain ⟨u, -, hopens⟩ := List.exists_of_findSome?_eq_some hid
    rw [opens] at hopens
    split at hopens
    · cases hopens
    · split at hopens
      · split at hopens
        · exact wellFormed_named_of_find? hopens rfl hargs
        · cases hopens
      · split at hopens
        · exact wellFormed_named_of_find? hopens rfl hargs
        · cases hopens

theorem wellFormed_of_atLevel {outside : Lookup} (hl : Lookup.WellFormed t around outside)
    {level : Level} (hlevel : Scope.types [level] ⊆ around) {ident : String} {args : List Ty}
    {ty : Ty} (hargs : Ty.AllWellFormed t around args)
    (h : t.atLevel outside level ident args = some ty) : ty.WellFormed t around := by
  cases level with
  | type id =>
    rw [atLevel] at h
    split at h
    · rename_i hparam
      obtain rfl := Option.some.inj h
      simp only [Bool.and_eq_true, List.contains_iff_mem] at hparam
      refine ⟨hlevel (List.mem_singleton_self id), ?_⟩
      cases hs : t.symbol? id with
      | none => simp [hs] at hparam
      | some s => exact ⟨s, rfl, by simpa [hs] using hparam.2⟩
    · exact wellFormed_of_findNested hargs h
  | space s us =>
    rw [atLevel] at h
    split at h
    · rename_i id hid
      obtain rfl := Option.some.inj h
      exact wellFormed_named_of_find? hid rfl hargs
    · exact wellFormed_of_throughUsings hknown hl hargs h
  | unit us =>
    rw [atLevel] at h
    split at h
    · rename_i id hid
      obtain rfl := Option.some.inj h
      exact wellFormed_named_of_find? hid rfl hargs
    · exact wellFormed_of_throughUsings hknown hl hargs h

end Scopes

/-- What a scope gives to an identifier is well formed among the types of the scope. -/
theorem wellFormed_lookup (hknown : t.KnowsPredefined) :
    ∀ {scope : Scope}, scope.types ⊆ around → Lookup.WellFormed t around (t.lookup scope)
  | [], _ => fun _ _ _ hargs h ↦ wellFormed_of_findIn hargs h
  | level :: outer, hscope => by
    have hsplit : Scope.types (level :: outer) = Scope.types [level] ++ Scope.types outer :=
      List.filterMap_append (l := [level])
    obtain ⟨hlevel, houter⟩ := List.append_subset.mp (hsplit ▸ hscope)
    have hl := wellFormed_lookup hknown houter
    intro ident args ty hargs h
    rw [lookup] at h
    dsimp only at h
    split at h
    · rename_i ty' hat
      obtain rfl := Option.some.inj h
      exact wellFormed_of_atLevel hknown hl hlevel hargs hat
    · exact hl ident args ty hargs h

theorem wellFormed_resolve (hknown : t.KnowsPredefined) (scope : Scope) (r : TypeRef) :
    (t.resolve scope r).WellFormed t scope.types :=
  wellFormed_resolveWith hknown (wellFormed_lookup hknown (List.Subset.refl _)) r

end Table

/-! ### Substitution -/

namespace Ty

theorem anyParamAll_eq_any (p : String → TypeId → Bool) (ts : List Ty) :
    anyParamAll p ts = ts.any (anyParam p) := by
  induction ts with
  | nil => rfl
  | cons t ts ih => rw [anyParamAll, ih, List.any_cons]

/-- Exactly the parameters of `owner` are replaced, each by something in which none of them
occurs. -/
structure Settles (f : String → TypeId → Option Ty) (owner : TypeId) (params : List String) :
    Prop where
  other : ∀ name o, o ≠ owner → f name o = none
  own : ∀ name ∈ params, ∃ a, f name owner = some a ∧ a.mentionsParamsOf owner = false

variable {t : Table} {around : List TypeId} {owner : TypeId} {symbol : Symbol}
  {f : String → TypeId → Option Ty}

mutual

theorem Settles.not_mentions (hf : Settles f owner symbol.typeParams)
    (howner : t.symbol? owner = some symbol) : ∀ ty : Ty, ty.WellFormed t around →
    (ty.replaceParams f).mentionsParamsOf owner = false
  | named _ args, h => hf.not_mentionsAll howner args h.2
  | param name o, h => by
    rw [replaceParams]
    by_cases ho : o = owner
    · subst ho
      obtain ⟨-, s, hs, hname⟩ := h
      obtain rfl := Option.some.inj (hs.symm.trans howner)
      obtain ⟨a, ha, hmentions⟩ := hf.own name hname
      rwa [ha]
    · rw [hf.other name o ho]
      simpa [mentionsParamsOf, anyParam] using ho
  | array e _, h => hf.not_mentions howner e h
  | nullable i, h => hf.not_mentions howner i h
  | tuple es, h => hf.not_mentionsAll howner es h
  | unresolved _, _ => rfl

theorem Settles.not_mentionsAll (hf : Settles f owner symbol.typeParams)
    (howner : t.symbol? owner = some symbol) : ∀ tys : List Ty, AllWellFormed t around tys →
    anyParamAll (fun _ o ↦ o == owner) (replaceParamsAll f tys) = false
  | [], _ => rfl
  | ty :: tys, ⟨hty, htys⟩ => by
    rw [replaceParamsAll, anyParamAll, Bool.or_eq_false_iff]
    exact ⟨hf.not_mentions howner ty hty, hf.not_mentionsAll howner tys htys⟩

end

/-- With an argument for each parameter of the owner, none of which has a parameter itself, no
parameter of the owner is left in a well-formed type. -/
theorem not_mentions_substitute (howner : t.symbol? owner = some symbol) {args : List Ty}
    (hlength : args.length = symbol.arity) (hargs : ∀ a ∈ args, a.hasParam = false) {ty : Ty}
    (hty : ty.WellFormed t around) :
    (ty.substitute owner symbol.typeParams args).mentionsParamsOf owner = false := by
  refine Settles.not_mentions ⟨fun name o ho ↦ if_neg ho, fun name hname ↦ ?_⟩ howner ty hty
  have htake : symbol.typeParams.take args.length = symbol.typeParams :=
    List.take_of_length_le hlength.ge
  obtain ⟨a, ha, heq⟩ := exists_argumentFor_of_mem_take (htake.symm ▸ hname)
  refine ⟨a, (if_pos rfl).trans heq, ?_⟩
  by_contra hmentions
  exact absurd (hasParam_of_mentionsParamsOf (by simpa using hmentions)) (by simp [hargs a ha])

end Ty

/-! ### Compilations -/

namespace Compilation

variable {files : List SourceFile}

theorem knowsPredefined_ofFiles (files : List SourceFile) :
    (Table.ofFiles files).KnowsPredefined := by
  intro p
  have hinitial : ∃ s, Table.initial.symbols[p.index]? = some s ∧ s.arity = 0 := by
    cases p <;> exact ⟨_, rfl, rfl⟩
  have hindex : p.index < TypeId.firstDeclared := by cases p <;> decide
  rw [← (Table.isInvariant_sound.ofFiles files).known, List.getElem?_take_of_lt hindex] at hinitial
  exact hinitial

theorem exists_symbol?_of_ofFiles {id : TypeId} {s : Symbol}
    (h : (Table.ofFiles files).symbol? id = some s) :
    ∃ symbol, (ofFiles files).symbol? id = some symbol ∧ symbol.typeParams = s.typeParams := by
  rw [symbol?_ofFiles, show (Table.ofFiles files).symbols[id]? = some s from h]
  exact ⟨_, rfl, rfl⟩

theorem knowsPredefined : (ofFiles files).table.KnowsPredefined := by
  intro p
  obtain ⟨s, hs, harity⟩ := knowsPredefined_ofFiles files p
  obtain ⟨symbol, hsymbol, hparams⟩ := exists_symbol?_of_ofFiles hs
  exact ⟨symbol, hsymbol, by rw [Symbol.arity, hparams]; exact harity⟩

/-- The base of a type is a symbol with an argument for each of its parameters. -/
theorem length_of_base? {id below : TypeId} {args : List Ty}
    (h : (ofFiles files).base? id = some (.named below args)) :
    ∃ symbol, (ofFiles files).symbol? below = some symbol ∧ args.length = symbol.arity := by
  obtain ⟨derived, hderived, hbase⟩ := Option.bind_eq_some_iff.mp h
  obtain ⟨s, -, -, hbases⟩ := eq_withBases_of_symbol? hderived
  -- bases are resolved before the table has any
  obtain ⟨site, -, r, -, hresolve⟩ := Table.exists_head_of_basesOf (hbases.symm.trans hbase)
  have hty := Table.wellFormed_resolve (knowsPredefined_ofFiles files) site.body r
  rw [hresolve] at hty
  obtain ⟨⟨s', hs', hlength⟩, -⟩ := hty
  obtain ⟨symbol, hsymbol, hparams⟩ := exists_symbol?_of_ofFiles hs'
  exact ⟨symbol, hsymbol, by rw [Symbol.arity, hparams]; exact hlength⟩

theorem hasParam_of_isClosedGeneric {id : TypeId} {args : List Ty}
    (h : (Ty.named id args).isClosedGeneric = true) : ∀ a ∈ args, a.hasParam = false := by
  intro a ha
  have hnone : (Ty.named id args).hasParam = false := by
    simp only [Ty.isClosedGeneric, Bool.and_eq_true, Bool.not_eq_true'] at h
    exact h.2
  rw [Ty.hasParam, Ty.anyParam, Ty.anyParamAll_eq_any, List.any_eq_false] at hnone
  exact Bool.eq_false_iff.mpr (hnone a ha)

/-- Whatever a reference stands for is well formed, in every scope. So in a type that is resolved
anywhere, in the body of a base too, no parameter of the base is left once the base is given the
arguments of a closed generic type. -/
theorem wellFormed_resolve_and_not_mentions_substituteBase (files : List SourceFile) :
    (∀ (scope : Scope) (r : TypeRef),
      ((ofFiles files).resolve scope r).WellFormed (ofFiles files).table scope.types) ∧
    ∀ (id below : TypeId) (base : Ty), (ofFiles files).base? id = some base →
      base.isClosedGeneric = true → base.id? = some below → ∀ (scope : Scope) (r : TypeRef),
        ((ofFiles files).substituteBase base
          ((ofFiles files).resolve scope r)).mentionsParamsOf below = false := by
  have hresolve : ∀ (scope : Scope) (r : TypeRef),
      ((ofFiles files).resolve scope r).WellFormed (ofFiles files).table scope.types :=
    Table.wellFormed_resolve knowsPredefined
  refine ⟨hresolve, fun id below base hbase hclosed hbelow scope r ↦ ?_⟩
  cases base with
  | named owner args =>
    obtain rfl : owner = below := Option.some.inj hbelow
    obtain ⟨symbol, hsymbol, hlength⟩ := length_of_base? hbase
    rw [substituteBase, hsymbol]
    exact Ty.not_mentions_substitute hsymbol hlength (hasParam_of_isClosedGeneric hclosed)
      (hresolve scope r)
  | _ => cases hbelow

private def boxedSource : String :=
  "interface I<T> { } class Box<T> { I<T[]> f; } class C : Box<int> { }"

private abbrev boxedFiles : List SourceFile := (Sources.ofTexts [("Boxed.cs", boxedSource)]).files

private theorem boxed_facts :
    (ofFiles boxedFiles).base? 21 = some (.named 20 [Ty.ofPredefined .int]) ∧
      (((ofFiles boxedFiles).symbol? 20).map fun symbol ↦ symbol.sites.map fun site ↦
        site.decl.fields.map fun f ↦ site.fieldType (ofFiles boxedFiles) f) =
          some [[.named 19 [.array (.param "T" 20) 1]]] := by
  decide +kernel

/-- The type of the field of `Box` has its parameter, and loses it in `C`. -/
theorem not_mentions_substituteBase_box :
    ∃ symbol site f, (ofFiles boxedFiles).symbol? 20 = some symbol ∧ site ∈ symbol.sites ∧
      f ∈ site.decl.fields ∧
      (site.fieldType (ofFiles boxedFiles) f).mentionsParamsOf 20 = true ∧
      ((ofFiles boxedFiles).substituteBase (.named 20 [Ty.ofPredefined .int])
        (site.fieldType (ofFiles boxedFiles) f)).mentionsParamsOf 20 = false := by
  obtain ⟨hbase, htypes⟩ := boxed_facts
  obtain ⟨symbol, hsymbol, hsites⟩ := Option.map_eq_some_iff.mp htypes
  obtain ⟨site, hsite, hfields⟩ := List.map_eq_singleton_iff.mp hsites
  obtain ⟨f, hf, htype⟩ := List.map_eq_singleton_iff.mp hfields
  refine ⟨symbol, site, f, hsymbol, hsite ▸ List.mem_singleton_self _,
    hf ▸ List.mem_singleton_self _, htype ▸ rfl, ?_⟩
  exact (wellFormed_resolve_and_not_mentions_substituteBase boxedFiles).2 21 20 _ hbase rfl rfl
    site.body f.type

end Compilation
end Companion
