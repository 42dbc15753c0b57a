import Companion.Proofs.Symbol.Arguments

/-!
Resolution by calls. Resolving a name may ask for the type of another reference that stands
elsewhere and may be larger: the target of an alias or of a static directive. Here every reference
that comes up on the way costs a call of its own, and the calls may nest only so deep. A target is
resolved outside the level that holds it, so the calls nest at most as deep as the reference is
written and, on each level around it, the largest target that a directive has there; with that
budget resolution ends, whatever aliases name each other, and finds what `resolve` says.
-/

set_option autoImplicit false
set_option relaxedAutoImplicit false

namespace Companion

/-! ### How deep references are nested -/

namespace TypeRef

mutual

/-- How deep a reference is nested; a reference without another one inside has depth one. -/
def depth : TypeRef → Nat
  | predefined _ _ => 1
  | named _ segs _ => depthOfSegments segs + 1
  | array e _ _ => depth e + 1
  | nullable i _ => depth i + 1
  | tuple es _ => depthOfAll es + 1

def depthOfAll : List TypeRef → Nat
  | [] => 0
  | r :: rs => max (depth r) (depthOfAll rs)

def depthOfSegment : Segment → Nat
  | .mk _ args _ => depthOfAll args

def depthOfSegments : List Segment → Nat
  | [] => 0
  | s :: ss => max (depthOfSegment s) (depthOfSegments ss)

end

theorem depth_le_depthOfAll {r : TypeRef} {rs : List TypeRef} (h : r ∈ rs) :
    r.depth ≤ depthOfAll rs := by
  induction h with
  | head => exact Nat.le_max_left _ _
  | tail _ _ ih => exact Nat.le_trans ih (Nat.le_max_right _ _)

theorem depthOfSegment_le_depthOfSegments {s : Segment} {ss : List Segment} (h : s ∈ ss) :
    depthOfSegment s ≤ depthOfSegments ss := by
  induction h with
  | head => exact Nat.le_max_left _ _
  | tail _ _ ih => exact Nat.le_trans ih (Nat.le_max_right _ _)

end TypeRef

namespace Table

variable {t : Table}

/-- The nesting of the deepest target among some directives. -/
def targetDepth (us : List Using) : Nat := TypeRef.depthOfAll (us.map (·.target))

/-- How much deeper calls may nest through the directives around a place. -/
def reach (t : Table) : Scope → Nat
  | [] => 0
  | level :: outer => targetDepth (t.usingsAt level) + t.reach outer

/-- How deep the calls may nest when a reference is resolved in a scope. -/
def callDepth (t : Table) (scope : Scope) (r : TypeRef) : Nat := r.depth + t.reach scope

theorem reach_le_of_suffix {scope outer : Scope} (h : outer <:+ scope) :
    t.reach outer ≤ t.reach scope := by
  obtain ⟨inner, rfl⟩ := h
  induction inner with
  | nil => exact Nat.le_refl _
  | cons level inner ih => exact Nat.le_trans ih (Nat.le_add_left _ _)

/-- A target costs less than its level, as it is resolved outside. -/
theorem callDepth_target_le {level : Level} {outer scope : Scope} {u : Using}
    (hsuffix : level :: outer <:+ scope) (hu : u ∈ t.usingsAt level) :
    t.callDepth outer u.target ≤ t.reach scope := by
  have htarget : u.target.depth ≤ targetDepth (t.usingsAt level) :=
    TypeRef.depth_le_depthOfAll (List.mem_map_of_mem hu)
  have hreach := reach_le_of_suffix (t := t) hsuffix
  rw [reach] at hreach
  rw [callDepth]
  omega

/-! ### Resolution by calls -/

section Calls

variable (t : Table) (call : Scope → TypeRef → Option Ty)

/-- Follow the members that segments select, each with its arguments. -/
def walkBy (scope : Scope) (start : Prefixed) : List Segment → Option (Option Ty)
  | [] => some (t.walk start [])
  | s :: rest => do
    let args ← s.args.mapM (call scope)
    match t.member start s.ident args with
    | some next => walkBy scope next rest
    | none => some none

/-- The type that one directive without alias brings in. -/
def openedBy (outer : Scope) (ident : String) (arity : Nat) (u : Using) : Option (Option TypeId) :=
  if u.aliasName.isSome then some none
  else if u.isStatic then do
    let target ← call outer u.target
    some (target.id?.bind fun id ↦ t.findNested id ident arity)
  else some (u.opened.bind fun space ↦ t.findIn space ident arity)

/-- The first type that directives without alias bring in. All of them are tried. -/
def firstOpenedBy (outer : Scope) (ident : String) (arity : Nat) :
    List Using → Option (Option TypeId)
  | [] => some none
  | u :: us => do
    let hit ← openedBy t call outer ident arity u
    let later ← firstOpenedBy outer ident arity us
    some (hit.or later)

/-- The type that the directives of one level give to an identifier. -/
def throughUsingsBy (outer : Scope) (us : List Using) (ident : String) (args : List Ty) :
    Option (Option Ty) :=
  let aliased :=
    if args.isEmpty then us.find? fun u ↦ u.aliasName = some ident && !t.namesSpace u else none
  match aliased with
  | some u => (call outer u.target).map some
  | none => (firstOpenedBy t call outer ident args.length us).map (·.map (.named · args))

/-- What a level gives to an identifier. -/
def atLevelBy (outer : Scope) (level : Level) (ident : String) (args : List Ty) :
    Option (Option Ty) :=
  match level with
  | .type id =>
    let params := ((t.symbol? id).map (·.typeParams)).getD []
    if args.isEmpty && params.contains ident then some (some (.param ident id))
    else some ((t.findNested id ident args.length).map (.named · args))
  | .space s _ =>
    match t.findIn s ident args.length with
    | some id => some (some (.named id args))
    | none => throughUsingsBy t call outer (t.usingsAt level) ident args
  | .unit _ =>
    match t.findIn [] ident args.length with
    | some id => some (some (.named id args))
    | none => throughUsingsBy t call outer (t.usingsAt level) ident args

/-- The type of an identifier with its arguments, from the innermost level outwards. -/
def lookupBy (ident : String) (args : List Ty) : Scope → Option (Option Ty)
  | [] => some (t.globalLookup.type ident args)
  | level :: outer => do
    match ← atLevelBy t call outer level ident args with
    | some ty => some (some ty)
    | none => lookupBy ident args outer

/-- The first type that a path has in some namespaces. -/
def inSpacesBy (scope : Scope) (rest : List Segment) : List Space → Option (Option Ty)
  | [] => some none
  | s :: ss => do
    match ← walkBy t call scope (.space s) rest with
    | some ty => some (some ty)
    | none => inSpacesBy scope rest ss

/-- The type of a name, from the type of its first segment, or else from the namespaces that the
segment stands for. -/
def nameBy (scope : Scope) : List Segment → Option (Option Ty)
  | [] => some none
  | first :: rest => do
    let args ← first.args.mapM (call scope)
    let fromType ←
      match ← lookupBy t call first.ident args scope with
      | some ty => walkBy t call scope (.type ty) rest
      | none => some none
    match fromType with
    | some ty => some (some ty)
    | none =>
      if rest.isEmpty || !first.args.isEmpty then some none
      else inSpacesBy t call scope rest ((t.lookup scope).spaces first.ident)

/-- One call: the references inside and the targets on the way are left to further calls. -/
def resolveBy (scope : Scope) : TypeRef → Option Ty
  | .predefined p _ => some (Ty.ofPredefined p)
  | .named fromGlobal segs span => do
    let found ←
      if fromGlobal then walkBy t call scope (.space []) segs else nameBy t call scope segs
    some (found.getD (.unresolved (TypeRef.named fromGlobal segs span).render))
  | .array e rank _ => (call scope e).map (.array · rank)
  | .nullable i _ => (call scope i).map .nullable
  | .tuple es _ => (es.mapM (call scope)).map .tuple

end Calls

/-- Resolution in which calls nest at most as deep as the budget; otherwise there is no answer. -/
def resolveWithin (t : Table) : Nat → Scope → TypeRef → Option Ty
  | 0 => fun _ _ ↦ none
  | budget + 1 => resolveBy t (t.resolveWithin budget)

/-! ### What calls that are answered find -/

section Answered

variable {call : Scope → TypeRef → Option Ty} {scope : Scope}

theorem mapM_call {rs : List TypeRef} (h : ∀ r ∈ rs, call scope r = some (t.resolve scope r)) :
    rs.mapM (call scope) = some (t.resolveAll (t.lookup scope) rs) := by
  induction rs with
  | nil => rfl
  | cons r rs ih =>
    rw [List.mapM_cons, h r List.mem_cons_self, ih fun r hr ↦ h r (List.mem_cons_of_mem _ hr)]
    rfl

theorem resolveSegment_eq (s : Segment) :
    t.resolveSegment (t.lookup scope) s = (s.ident, t.resolveAll (t.lookup scope) s.args) := by
  cases s
  rfl

theorem walkBy_eq {segs : List Segment}
    (h : ∀ s ∈ segs, ∀ r ∈ s.args, call scope r = some (t.resolve scope r)) (start : Prefixed) :
    walkBy t call scope start segs =
      some (t.walk start (t.resolveSegments (t.lookup scope) segs)) := by
  induction segs generalizing start with
  | nil => rfl
  | cons s segs ih =>
    rw [walkBy, mapM_call (h s List.mem_cons_self), resolveSegments, resolveSegment_eq, walk]
    simp only [Option.bind_eq_bind, Option.bind_some]
    cases t.member start s.ident (t.resolveAll (t.lookup scope) s.args) with
    | none => rfl
    | some next => exact ih (fun s hs ↦ h s (List.mem_cons_of_mem _ hs)) next

theorem openedBy_eq {outer : Scope} {u : Using}
    (h : call outer u.target = some (t.resolve outer u.target)) (ident : String) (arity : Nat) :
    openedBy t call outer ident arity u = some (t.opens (t.lookup outer) u ident arity) := by
  rw [openedBy, opens, h]
  split
  · rfl
  · split
    · rw [resolve, Option.bind_eq_bind, Option.bind_some]
      cases (t.resolveWith (t.lookup outer) u.target).id? <;> rfl
    · cases u.opened <;> rfl

theorem firstOpenedBy_eq {outer : Scope} {us : List Using}
    (h : ∀ u ∈ us, call outer u.target = some (t.resolve outer u.target)) (ident : String)
    (arity : Nat) : firstOpenedBy t call outer ident arity us =
      some (us.findSome? fun u ↦ t.opens (t.lookup outer) u ident arity) := by
  induction us with
  | nil => rfl
  | cons u us ih =>
    rw [firstOpenedBy, openedBy_eq (h u List.mem_cons_self),
      ih fun u hu ↦ h u (List.mem_cons_of_mem _ hu), List.findSome?_cons]
    simp only [Option.bind_eq_bind, Option.bind_some]
    cases t.opens (t.lookup outer) u ident arity <;> rfl

theorem throughUsingsBy_eq {outer : Scope} {us : List Using}
    (h : ∀ u ∈ us, call outer u.target = some (t.resolve outer u.target)) (ident : String)
    (args : List Ty) : throughUsingsBy t call outer us ident args =
      some (t.throughUsings (t.lookup outer) us ident args) := by
  rw [throughUsingsBy, throughUsings, firstOpenedBy_eq h]
  generalize haliased : (if args.isEmpty then us.find? fun u ↦
    u.aliasName = some ident && !t.namesSpace u else none) = aliased
  cases aliased with
  | none => rfl
  | some u =>
    have hmem : u ∈ us := by
      split at haliased
      · exact List.mem_of_find?_eq_some haliased
      · cases haliased
    simp only [h u hmem]
    rfl

theorem atLevelBy_eq {outer : Scope} {level : Level}
    (h : ∀ u ∈ t.usingsAt level, call outer u.target = some (t.resolve outer u.target))
    (ident : String) (args : List Ty) : atLevelBy t call outer level ident args =
      some (t.atLevel (t.lookup outer) level ident args) := by
  have husings := throughUsingsBy_eq h ident args
  cases level with
  | type id =>
    rw [atLevelBy, atLevel]
    split <;> rfl
  | space s us =>
    rw [atLevelBy, atLevel, husings]
    cases t.findIn s ident args.length <;> rfl
  | unit us =>
    rw [atLevelBy, atLevel, husings]
    cases t.findIn [] ident args.length <;> rfl

theorem lookupBy_eq {scope : Scope}
    (h : ∀ level outer, level :: outer <:+ scope → ∀ u ∈ t.usingsAt level,
      call outer u.target = some (t.resolve outer u.target)) (ident : String) (args : List Ty) :
    lookupBy t call ident args scope = some ((t.lookup scope).type ident args) := by
  induction scope with
  | nil => rfl
  | cons level outer ih =>
    have hhere := atLevelBy_eq (h level outer List.suffix_rfl) ident args
    have houtside := ih fun level' outer' hsuffix ↦
      h level' outer' (hsuffix.trans (List.suffix_cons _ _))
    rw [lookupBy, hhere, houtside, lookup]
    simp only [Option.bind_eq_bind, Option.bind_some]
    cases t.atLevel (t.lookup outer) level ident args <;> rfl

theorem inSpacesBy_eq {rest : List Segment}
    (h : ∀ s ∈ rest, ∀ r ∈ s.args, call scope r = some (t.resolve scope r)) (spaces : List Space) :
    inSpacesBy t call scope rest spaces = some (spaces.findSome? fun s ↦
      t.walk (.space s) (t.resolveSegments (t.lookup scope) rest)) := by
  induction spaces with
  | nil => rfl
  | cons s spaces ih =>
    rw [inSpacesBy, walkBy_eq h, ih, List.findSome?_cons]
    simp only [Option.bind_eq_bind, Option.bind_some]
    cases t.walk (.space s) (t.resolveSegments (t.lookup scope) rest) <;> rfl

theorem nameBy_eq {segs : List Segment}
    (htargets : ∀ level outer, level :: outer <:+ scope → ∀ u ∈ t.usingsAt level,
      call outer u.target = some (t.resolve outer u.target))
    (h : ∀ s ∈ segs, ∀ r ∈ s.args, call scope r = some (t.resolve scope r)) :
    nameBy t call scope segs =
      some (t.resolvePath (t.lookup scope) (t.resolveSegments (t.lookup scope) segs)) := by
  cases segs with
  | nil => rfl
  | cons first rest =>
    have hrest : ∀ s ∈ rest, ∀ r ∈ s.args, call scope r = some (t.resolve scope r) :=
      fun s hs ↦ h s (List.mem_cons_of_mem _ hs)
    have hlength : (t.resolveSegments (t.lookup scope) rest).isEmpty = rest.isEmpty := by
      rw [resolveSegments_eq_map, List.isEmpty_map]
    have hargs : (t.resolveAll (t.lookup scope) first.args).isEmpty = first.args.isEmpty := by
      cases first.args <;> rfl
    rw [nameBy, mapM_call (h first List.mem_cons_self), resolveSegments, resolveSegment_eq,
      resolvePath, hlength, hargs]
    simp only [Option.bind_eq_bind, Option.bind_some, lookupBy_eq htargets, inSpacesBy_eq hrest]
    cases (t.lookup scope).type first.ident (t.resolveAll (t.lookup scope) first.args) with
    | none =>
      simp only
      split <;> rfl
    | some ty =>
      simp only [walkBy_eq hrest, Option.bind_some]
      cases t.walk (.type ty) (t.resolveSegments (t.lookup scope) rest) with
      | some found => rfl
      | none =>
        simp only
        split <;> rfl

/-- If all calls are answered that nest less deep, one more call is answered too. -/
theorem resolveBy_eq {r : TypeRef}
    (hcall : ∀ scope' r', t.callDepth scope' r' < t.callDepth scope r →
      call scope' r' = some (t.resolve scope' r')) :
    resolveBy t call scope r = some (t.resolve scope r) := by
  have hinside : ∀ r' : TypeRef, r'.depth < r.depth → call scope r' = some (t.resolve scope r') :=
    fun r' hdepth ↦ hcall scope r' (Nat.add_lt_add_right hdepth _)
  have htargets : ∀ level outer, level :: outer <:+ scope → ∀ u ∈ t.usingsAt level,
      call outer u.target = some (t.resolve outer u.target) := by
    intro level outer hsuffix u hu
    have htarget := callDepth_target_le hsuffix hu
    have hpos : 0 < r.depth := by cases r <;> exact Nat.succ_pos _
    refine hcall outer u.target (Nat.lt_of_le_of_lt htarget ?_)
    rw [callDepth]
    omega
  cases r with
  | predefined p span => rfl
  | named fromGlobal segs span =>
    have hsegs : ∀ s ∈ segs, ∀ r ∈ s.args, call scope r = some (t.resolve scope r) := by
      intro s hs r hr
      have hr' : r.depth ≤ TypeRef.depthOfSegment s := by
        cases s
        exact TypeRef.depth_le_depthOfAll hr
      exact hinside r (Nat.lt_succ_of_le
        (Nat.le_trans hr' (TypeRef.depthOfSegment_le_depthOfSegments hs)))
    rw [resolveBy, walkBy_eq hsegs, nameBy_eq htargets hsegs, resolve, resolveWith]
    cases fromGlobal <;> rfl
  | array e rank span =>
    rw [resolveBy, hinside e (Nat.lt_succ_self _)]
    rfl
  | nullable i span =>
    rw [resolveBy, hinside i (Nat.lt_succ_self _)]
    rfl
  | tuple es span =>
    rw [resolveBy, mapM_call fun r hr ↦
      hinside r (Nat.lt_succ_of_le (TypeRef.depth_le_depthOfAll hr))]
    rfl

end Answered

theorem resolveWithin_eq {budget : Nat} {scope : Scope} {r : TypeRef}
    (h : t.callDepth scope r ≤ budget) :
    t.resolveWithin budget scope r = some (t.resolve scope r) := by
  induction budget generalizing scope r with
  | zero =>
    have hpos : 0 < r.depth := by cases r <;> exact Nat.succ_pos _
    rw [callDepth] at h
    omega
  | succ budget ih =>
    exact resolveBy_eq fun scope' r' hless ↦ ih (Nat.le_of_lt_succ (Nat.lt_of_lt_of_le hless h))

end Table

namespace Compilation

/-- Resolution ends in every scope, whatever the directives around it name: with calls that nest as
deep as the reference and the largest targets around it, or with any more, it finds the type that
`resolve` gives. -/
theorem resolveWithin_callDepth (files : List SourceFile) (scope : Scope) (r : TypeRef)
    (more : Nat) :
    (ofFiles files).table.resolveWithin ((ofFiles files).table.callDepth scope r + more) scope r =
      some ((ofFiles files).resolve scope r) :=
  Table.resolveWithin_eq (Nat.le_add_right _ _)

end Compilation

end Companion
