import Companion.Proofs.Grammar.Placeless
import Companion.Proofs.Symbol.FullNames

/-!
Resolution does not depend on places. References and directives that differ in places alone stand
for the same, so a scope may be read from another text that declares the same.
-/

set_option autoImplicit false
set_option relaxedAutoImplicit false

namespace Companion

/-- A level without the places of its directives. -/
def Level.placeless : Level → Level
  | type id => type id
  | space name usings => space name (usings.map Using.placeless)
  | unit usings => unit (usings.map Using.placeless)

namespace TypeRef

variable {f g : String → String}

mutual

theorem renamed_renamed : ∀ r : TypeRef, renamed f (renamed g r) = renamed (f ∘ g) r
  | predefined _ _ => rfl
  | named fromGlobal segs _ => by
    rw [renamed, renamed, renamed, renamedSegments_renamedSegments segs]
  | array e rank _ => by rw [renamed, renamed, renamed, renamed_renamed e]
  | nullable i _ => by rw [renamed, renamed, renamed, renamed_renamed i]
  | tuple es _ => by rw [renamed, renamed, renamed, renamedAll_renamedAll es]

theorem renamedAll_renamedAll : ∀ rs : List TypeRef,
    renamedAll f (renamedAll g rs) = renamedAll (f ∘ g) rs
  | [] => rfl
  | r :: rs => by
    rw [renamedAll, renamedAll, renamedAll, renamed_renamed r, renamedAll_renamedAll rs]

theorem renamedSegments_renamedSegments : ∀ ss : List Segment,
    renamedSegments f (renamedSegments g ss) = renamedSegments (f ∘ g) ss
  | [] => rfl
  | .mk ident args span :: ss => by
    rw [renamedSegments, renamedSegments, renamedSegments, renamedSegment, renamedSegment,
      renamedSegment, renamedAll_renamedAll args, renamedSegments_renamedSegments ss,
      Function.comp_apply]

end

theorem placeless_placeless (r : TypeRef) : r.placeless.placeless = r.placeless :=
  renamed_renamed r

theorem ident_renamedSegment (f : String → String) (s : Segment) :
    (renamedSegment f s).ident = f s.ident := by
  cases s
  rw [renamedSegment, Segment.ident, Segment.ident]

theorem parts_placeless (r : TypeRef) :
    r.placeless.name?.map Name.parts = r.name?.map Name.parts := by
  cases r with
  | named fromGlobal segs span =>
    rw [placeless, renamed, name?, name?, Option.map_some, Option.map_some, Name.parts, Name.parts,
      renamedSegments_eq_map, List.map_map]
    exact congrArg some (List.map_congr_left fun s _ ↦ ident_renamedSegment id s)
  | _ => rfl

end TypeRef

theorem Using.placeless_placeless (u : Using) : u.placeless.placeless = u.placeless := by
  rw [placeless, placeless, TypeRef.placeless_placeless]

theorem Level.placeless_placeless (l : Level) : l.placeless.placeless = l.placeless := by
  cases l <;> simp [placeless, Using.placeless_placeless]

theorem Using.opened_placeless (u : Using) : u.placeless.opened = u.opened := by
  rw [opened, opened, placeless, TypeRef.parts_placeless]

namespace Table

variable (t : Table)

theorem namesSpace_placeless (u : Using) : t.namesSpace u.placeless = t.namesSpace u := by
  have hparts (u : Using) :
      t.namesSpace u = ((u.target.name?.map Name.parts).map t.hasSpace).getD false := by
    rw [namesSpace]
    cases u.target.name? <;> rfl
  rw [hparts, hparts, Using.placeless, TypeRef.parts_placeless]

theorem aliasedSpaces_placeless (us : List Using) (ident : String) :
    t.aliasedSpaces (us.map Using.placeless) ident = t.aliasedSpaces us ident := by
  rw [aliasedSpaces, aliasedSpaces, List.filterMap_map]
  refine List.filterMap_congr fun u _ ↦ ?_
  rw [Function.comp_apply, t.namesSpace_placeless, Using.placeless, TypeRef.parts_placeless]

theorem opens_placeless (outside : Lookup) (u : Using) (ident : String) (arity : Nat) :
    t.opens outside u.placeless ident arity = t.opens outside u ident arity := by
  have htarget : t.resolveWith outside u.placeless.target = t.resolveWith outside u.target :=
    resolveWith_renamed_id u.target
  rw [opens, opens, htarget, u.opened_placeless]
  rfl

theorem throughUsings_placeless (outside : Lookup) (us : List Using) (ident : String)
    (args : List Ty) : t.throughUsings outside (us.map Using.placeless) ident args =
      t.throughUsings outside us ident args := by
  have haliased : ((us.map Using.placeless).find? fun u ↦
        u.aliasName = some ident && !t.namesSpace u) =
      (us.find? fun u ↦ u.aliasName = some ident && !t.namesSpace u).map Using.placeless := by
    rw [List.find?_map]
    refine congrArg (Option.map _) (List.find?_congr fun u _ ↦ ?_)
    rw [Function.comp_apply, t.namesSpace_placeless]
    rfl
  have hopened : ((us.map Using.placeless).findSome? fun u ↦
        t.opens outside u ident args.length) =
      us.findSome? fun u ↦ t.opens outside u ident args.length := by
    rw [List.findSome?_map]
    exact congrArg (List.findSome? · us)
      (funext fun u ↦ t.opens_placeless outside u ident args.length)
  rw [throughUsings, throughUsings, haliased, hopened]
  cases args.isEmpty with
  | false => rfl
  | true =>
    simp only [if_true]
    cases us.find? fun u ↦ u.aliasName = some ident && !t.namesSpace u with
    | none => rfl
    | some u => exact congrArg some (resolveWith_renamed_id u.target)

theorem atLevel_placeless (outside : Lookup) (level : Level) (ident : String) (args : List Ty) :
    t.atLevel outside level.placeless ident args = t.atLevel outside level ident args := by
  cases level with
  | type id => rfl
  | space s us => rw [Level.placeless, atLevel, atLevel, t.throughUsings_placeless]
  | unit us =>
    -- global directives are not touched, so places are taken from both lists
    have hglobals : (us.map Using.placeless ++ t.globalUsings).map Using.placeless =
        (us ++ t.globalUsings).map Using.placeless := by
      rw [List.map_append, List.map_append, List.map_map,
        show Using.placeless ∘ Using.placeless = Using.placeless from
          funext Using.placeless_placeless]
    rw [Level.placeless, atLevel, atLevel, ← t.throughUsings_placeless, hglobals,
      t.throughUsings_placeless]

theorem spacesAtLevel_placeless (level : Level) (ident : String) :
    t.spacesAtLevel level.placeless ident = t.spacesAtLevel level ident := by
  cases level with
  | type id => rfl
  | space s us => rw [Level.placeless, spacesAtLevel, spacesAtLevel, t.aliasedSpaces_placeless]
  | unit us => exact t.aliasedSpaces_placeless us ident

/-- Places of directives do not matter to what names stand for. -/
theorem lookup_placeless (scope : Scope) :
    t.lookup (scope.map Level.placeless) = t.lookup scope := by
  induction scope with
  | nil => rfl
  | cons level outer ih =>
    rw [List.map_cons, lookup, lookup, ih]
    simp only [t.atLevel_placeless, t.spacesAtLevel_placeless]

theorem resolve_placeless (scope : Scope) (r : TypeRef) :
    t.resolve (scope.map Level.placeless) r.placeless = t.resolve scope r := by
  rw [resolve, resolve, t.lookup_placeless]
  exact resolveWith_renamed_id r

/-- What differs in places alone stands for the same. -/
theorem resolve_eq_of_placeless {scope scope' : Scope} {r r' : TypeRef}
    (hscope : scope'.map Level.placeless = scope.map Level.placeless)
    (hr : r'.placeless = r.placeless) : t.resolve scope' r' = t.resolve scope r := by
  rw [← t.resolve_placeless scope', hscope, hr, t.resolve_placeless]

end Table
end Companion
