import Companion.Proofs.Symbol.Renaming
import Companion.Proofs.Symbol.WellFormed

/-!
What resolution asks a table. A reference is resolved by looking up its identifiers, and those of
the targets of the directives around it, as last pieces of names. So two tables that answer alike
for these identifiers resolve the reference alike, whatever else they hold.
-/

set_option autoImplicit false
set_option relaxedAutoImplicit false

namespace Companion

/-! ### Identifiers of references -/

namespace TypeRef

mutual

/-- The identifiers that are written in a reference. -/
def names : TypeRef → List String
  | predefined _ _ => []
  | named _ segs _ => namesOfSegments segs
  | array e _ _ => names e
  | nullable i _ => names i
  | tuple es _ => namesOfAll es

def namesOfAll : List TypeRef → List String
  | [] => []
  | r :: rs => names r ++ namesOfAll rs

def namesOfSegments : List Segment → List String
  | [] => []
  | .mk ident args _ :: ss => ident :: namesOfAll args ++ namesOfSegments ss

end

theorem ident_mem_names {fromGlobal : Bool} {segs : List Segment} {span : Span} {s : Segment}
    (h : s ∈ segs) : s.ident ∈ (named fromGlobal segs span).names := by
  change s.ident ∈ namesOfSegments segs
  induction h with
  | head =>
    cases s
    exact List.mem_cons_self
  | tail other _ ih =>
    cases other
    exact List.mem_append_right _ ih

end TypeRef

/-- The identifiers of the pieces of a target. -/
theorem Using.mem_names_of_mem_parts {u : Using} {n : Name} (hn : u.target.name? = some n)
    {part : String} (h : part ∈ n.parts) : part ∈ u.target.names := by
  obtain ⟨s, hs, rfl⟩ := List.mem_map.1 h
  cases htarget : u.target with
  | named fromGlobal segs span =>
    rw [htarget, TypeRef.name?, Option.some.injEq] at hn
    subst hn
    exact TypeRef.ident_mem_names hs
  | _ => rw [htarget] at hn; cases hn

/-- Every directive around a place is written with identifiers of a kind. -/
def Scope.Names (p : String → Prop) (scope : Scope) : Prop :=
  ∀ level ∈ scope, ∀ u ∈ level.usings, ∀ n ∈ u.target.names, p n

/-- The first piece of a name is understood alike if it is an identifier of a kind. -/
structure Lookup.Agrees (p : String → Prop) (l l' : Lookup) : Prop where
  type : ∀ ident args, p ident → l'.type ident args = l.type ident args
  spaces : ∀ ident, p ident → l'.spaces ident = l.spaces ident

namespace Table

/-- Two tables answer alike for the identifiers of a kind. -/
structure Agrees (p : String → Prop) (t t' : Table) : Prop where
  find? : ∀ key : Key, p key.name → t'.find? key = t.find? key
  hasSpace : ∀ space ident, p ident → t'.hasSpace (space ++ [ident]) = t.hasSpace (space ++ [ident])
  hasRoot : t'.hasSpace [] = t.hasSpace []
  globalUsings : t'.globalUsings = t.globalUsings
  globalNames : ∀ u ∈ t.globalUsings, ∀ n ∈ u.target.names, p n

/-- The type parameters of the types around a place are the same in two tables. -/
def SameParams (t t' : Table) (scope : Scope) : Prop :=
  ∀ id ∈ scope.types, (t'.symbol? id).map (·.typeParams) = (t.symbol? id).map (·.typeParams)

namespace Agrees

variable {p : String → Prop} {t t' : Table}

section Pieces

variable (h : t.Agrees p t')
include h

theorem findIn {ident : String} (hp : p ident) (space : Space) (arity : Nat) :
    t'.findIn space ident arity = t.findIn space ident arity :=
      h.find? ⟨space, none, ident, arity⟩ hp

theorem findNested {ident : String} (hp : p ident) (outer : TypeId) (arity : Nat) :
    t'.findNested outer ident arity = t.findNested outer ident arity :=
  h.find? ⟨[], some outer, ident, arity⟩ hp

theorem member {ident : String} (hp : p ident) (outer : Prefixed) (args : List Ty) :
    t'.member outer ident args = t.member outer ident args := by
  cases outer with
  | space s => rw [Table.member, Table.member, h.findIn hp, h.hasSpace s ident hp]
  | type ty =>
    rw [Table.member, Table.member]
    cases ty.id? with
    | none => rfl
    | some id => exact congrArg (Option.map _) (h.findNested hp id args.length)

theorem walk {path : List (String × List Ty)} (hpath : ∀ piece ∈ path, p piece.1)
    (start : Prefixed) : t'.walk start path = t.walk start path := by
  induction path generalizing start with
  | nil => rfl
  | cons piece rest ih =>
    obtain ⟨ident, args⟩ := piece
    rw [Table.walk, Table.walk, h.member (hpath _ List.mem_cons_self)]
    cases t.member start ident args with
    | none => rfl
    | some next => exact ih (fun piece hpiece ↦ hpath piece (List.mem_cons_of_mem _ hpiece)) next

theorem resolvePath {l l' : Lookup} (hl : l.Agrees p l') {path : List (String × List Ty)}
    (hpath : ∀ piece ∈ path, p piece.1) : t'.resolvePath l' path = t.resolvePath l path := by
  cases path with
  | nil => rfl
  | cons piece rest =>
    obtain ⟨ident, args⟩ := piece
    have hrest : ∀ start, t'.walk start rest = t.walk start rest :=
      h.walk fun piece hpiece ↦ hpath piece (List.mem_cons_of_mem _ hpiece)
    have hfirst : p ident := hpath _ List.mem_cons_self
    simp only [resolvePath_cons, hrest, hl.type ident args hfirst, hl.spaces ident hfirst]

theorem namesSpace {u : Using} (hu : ∀ n ∈ u.target.names, p n) :
    t'.namesSpace u = t.namesSpace u := by
  rw [Table.namesSpace, Table.namesSpace]
  cases hname : u.target.name? with
  | none => rfl
  | some n =>
    rcases List.eq_nil_or_concat n.parts with hparts | ⟨space, last, hparts⟩
    · dsimp only
      rw [hparts, h.hasRoot]
    · rw [List.concat_eq_append] at hparts
      have hlast : last ∈ n.parts := hparts ▸ List.mem_append_right _ List.mem_cons_self
      dsimp only
      rw [hparts, h.hasSpace space last (hu last (Using.mem_names_of_mem_parts hname hlast))]

theorem aliasedSpaces {us : List Using} (hus : ∀ u ∈ us, ∀ n ∈ u.target.names, p n)
    (ident : String) : t'.aliasedSpaces us ident = t.aliasedSpaces us ident := by
  refine List.filterMap_congr fun u hu ↦ ?_
  rw [h.namesSpace (hus u hu)]

end Pieces

mutual

theorem resolveWith {l l' : Lookup} (h : t.Agrees p t') (hl : l.Agrees p l') :
    ∀ r : TypeRef, (∀ n ∈ r.names, p n) → t'.resolveWith l' r = t.resolveWith l r
  | .predefined _ _, _ => rfl
  | .named fromGlobal segs span, hr => by
    have hpath : ∀ piece ∈ t.resolveSegments l segs, p piece.1 := by
      intro piece hpiece
      rw [resolveSegments_eq_map] at hpiece
      obtain ⟨s, hs, rfl⟩ := List.mem_map.1 hpiece
      cases s
      exact hr _ (TypeRef.ident_mem_names hs)
    rw [Table.resolveWith, Table.resolveWith, resolveSegments h hl segs hr, h.walk hpath,
      h.resolvePath hl hpath]
  | .array e rank _, hr => by
    rw [Table.resolveWith, Table.resolveWith, resolveWith h hl e hr]
  | .nullable i _, hr => by
    rw [Table.resolveWith, Table.resolveWith, resolveWith h hl i hr]
  | .tuple es _, hr => by
    rw [Table.resolveWith, Table.resolveWith, resolveAll h hl es hr]

theorem resolveAll {l l' : Lookup} (h : t.Agrees p t') (hl : l.Agrees p l') :
    ∀ rs : List TypeRef, (∀ n ∈ TypeRef.namesOfAll rs, p n) →
      t'.resolveAll l' rs = t.resolveAll l rs
  | [], _ => rfl
  | r :: rs, hr => by
    rw [Table.resolveAll, Table.resolveAll,
      resolveWith h hl r fun n hn ↦ hr n (List.mem_append_left _ hn),
      resolveAll h hl rs fun n hn ↦ hr n (List.mem_append_right _ hn)]

theorem resolveSegments {l l' : Lookup} (h : t.Agrees p t') (hl : l.Agrees p l') :
    ∀ segs : List Segment, (∀ n ∈ TypeRef.namesOfSegments segs, p n) →
      t'.resolveSegments l' segs = t.resolveSegments l segs
  | [], _ => rfl
  | .mk ident args _ :: segs, hr => by
    rw [Table.resolveSegments, Table.resolveSegments, Table.resolveSegment, Table.resolveSegment,
      resolveAll h hl args fun n hn ↦
        hr n (List.mem_append_left _ (List.mem_cons_of_mem _ hn)),
      resolveSegments h hl segs fun n hn ↦ hr n (List.mem_append_right _ hn)]

end

section Levels

variable (h : t.Agrees p t')
include h

section Lookups

variable {l l' : Lookup} (hl : l.Agrees p l') {us : List Using}
  (hus : ∀ u ∈ us, ∀ n ∈ u.target.names, p n) {ident : String} (hp : p ident)
include hl hus hp

theorem opens {u : Using} (hu : u ∈ us) (arity : Nat) :
    t'.opens l' u ident arity = t.opens l u ident arity := by
  simp only [Table.opens, h.resolveWith hl u.target (hus u hu), h.findNested hp, h.findIn hp]

theorem throughUsings (args : List Ty) :
    t'.throughUsings l' us ident args = t.throughUsings l us ident args := by
  have haliased : (us.find? fun u ↦ u.aliasName = some ident && !t'.namesSpace u) =
      us.find? fun u ↦ u.aliasName = some ident && !t.namesSpace u :=
    List.find?_congr fun u hu ↦ by rw [h.namesSpace (hus u hu)]
  have hopened : (us.findSome? fun u ↦ t'.opens l' u ident args.length) =
      us.findSome? fun u ↦ t.opens l u ident args.length := by
    rw [← List.head?_filterMap, ← List.head?_filterMap]
    exact congrArg List.head?
      (List.filterMap_congr fun u hu ↦ h.opens hl hus hp hu args.length)
  rw [Table.throughUsings, Table.throughUsings, haliased, hopened]
  cases hfound : (if args.isEmpty then us.find? fun u ↦ u.aliasName = some ident && !t.namesSpace u
    else none) with
  | none => rfl
  | some u =>
    have hu : u ∈ us := by
      split at hfound
      · exact List.mem_of_find?_eq_some hfound
      · cases hfound
    exact congrArg some (h.resolveWith hl u.target (hus u hu))

end Lookups

theorem lookup {scope : Scope} (hnames : scope.Names p) (hparams : t.SameParams t' scope) :
    (t.lookup scope).Agrees p (t'.lookup scope) := by
  induction scope with
  | nil =>
    refine ⟨fun ident args hp ↦ ?_, fun ident hp ↦ ?_⟩
    · exact congrArg (Option.map _) (h.findIn hp [] args.length)
    · change (if t'.hasSpace ([] ++ [ident]) then _ else _) = _
      rw [h.hasSpace [] ident hp]
      rfl
  | cons level outer ih =>
    have houter := ih (fun l hl ↦ hnames l (List.mem_cons_of_mem _ hl))
      fun id hid ↦
        hparams id (by cases level <;> first | exact hid | exact List.mem_cons_of_mem _ hid)
    have hus : ∀ u ∈ level.usings, ∀ n ∈ u.target.names, p n := hnames level List.mem_cons_self
    refine ⟨fun ident args hp ↦ ?_, fun ident hp ↦ ?_⟩
    · have hat : t'.atLevel (t'.lookup outer) level ident args =
          t.atLevel (t.lookup outer) level ident args := by
        cases level with
        | type id =>
          rw [atLevel, atLevel, hparams id List.mem_cons_self, h.findNested hp]
        | space s us =>
          have hspace : ∀ u ∈ us, ∀ n ∈ u.target.names, p n := hus
          rw [atLevel, atLevel, h.findIn hp, h.throughUsings houter hspace hp]
        | unit us =>
          have hall : ∀ u ∈ us ++ t.globalUsings, ∀ n ∈ u.target.names, p n :=
            fun u hu ↦ (List.mem_append.1 hu).elim (hus u) (h.globalNames u)
          rw [atLevel, atLevel, h.findIn hp, h.globalUsings, h.throughUsings houter hall hp]
      simp only [Table.lookup, hat, houter.type ident args hp]
    · have hat : t'.spacesAtLevel level ident = t.spacesAtLevel level ident := by
        cases level with
        | type id => rfl
        | space s us =>
          have hspace : ∀ u ∈ us, ∀ n ∈ u.target.names, p n := hus
          rw [spacesAtLevel, spacesAtLevel, h.aliasedSpaces hspace, h.hasSpace s ident hp]
        | unit us => exact h.aliasedSpaces hus ident
      simp only [Table.lookup, hat, houter.spaces ident hp]

/-- References resolve alike in tables that answer alike for all identifiers that come up. -/
theorem resolve {scope : Scope} (hnames : scope.Names p) (hparams : t.SameParams t' scope)
    {r : TypeRef} (hr : ∀ n ∈ r.names, p n) : t'.resolve scope r = t.resolve scope r :=
  h.resolveWith (h.lookup hnames hparams) r hr

end Levels

end Agrees

/-- Bases do not matter to resolution. -/
theorem resolve_withBases (t : Table) (scope : Scope) (r : TypeRef) :
    t.withBases.resolve scope r = t.resolve scope r := by
  have hagrees : t.Agrees (fun _ ↦ True) t.withBases :=
    ⟨fun key _ ↦ t.find?_withBases key, fun _ _ _ ↦ rfl, rfl, rfl, fun _ _ _ _ ↦ trivial⟩
  refine hagrees.resolve (fun _ _ _ _ _ _ ↦ trivial) (fun id _ ↦ ?_) fun _ _ ↦ trivial
  rw [symbol?, symbol?, getElem?_withBases, Option.map_map]
  rfl

/-- The bases of a type depend on what it is written with and on which of it is an interface. -/
theorem basesOf_congr {t t' : Table} {s s' : Symbol} (hclass : s'.isClass = s.isClass)
    (hwritten : t'.writtenBases s' = t.writtenBases s)
    (hinterface : ∀ w ∈ t.writtenBases s, t'.isInterface w.1 = t.isInterface w.1) :
    t'.basesOf s' = t.basesOf s := by
  rw [basesOf, basesOf, hwritten]
  refine List.foldl_ext _ _ _ fun taken w hw ↦ ?_
  rw [takeBase, takeBase, canBeBase, canBeBase, hclass, hinterface w hw]

end Table
end Companion
