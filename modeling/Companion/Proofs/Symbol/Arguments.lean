import Companion.Run

/-!
Where the type arguments of a resolved name come from. They are those of the last piece of the name
as it is written; the only other way to a generic type is a name of one plain piece that a using
directive makes an alias of it. So a base that is generic shows its arguments where it is written,
or stands behind an alias.
-/

set_option autoImplicit false
set_option relaxedAutoImplicit false

namespace Companion

/-- A reference is a name that is written with type arguments at its end. -/
def TypeRef.endsInArguments (r : TypeRef) : Bool :=
  match r.name? with
  | some n => (n.segments.getLast?.map fun s ↦ !s.args.isEmpty).getD false
  | none => false

theorem TypeHeader.hasGenericBase_eq (h : TypeHeader) :
    h.hasGenericBase = (h.bases.head?.map TypeRef.endsInArguments).getD false := by
  rw [hasGenericBase]
  cases h.bases.head? with
  | none => rfl
  | some r => rfl

namespace Table

variable {t : Table}

/-- The using directives that are looked through at a level. -/
def usingsAt (t : Table) : Level → List Using
  | .type _ => []
  | .space _ us => us
  | .unit us => us ++ t.globalUsings

/-- In a scope an identifier is an alias of a type: a directive at some level says so, whose target
is resolved outside of that level. -/
def AliasFor (t : Table) (scope : Scope) (ident : String) (ty : Ty) : Prop :=
  ∃ level outer, level :: outer <:+ scope ∧
    ∃ u ∈ t.usingsAt level, u.aliasName = some ident ∧ t.resolve outer u.target = ty

theorem AliasFor.mono {scope outer : Scope} {ident : String} {ty : Ty}
    (h : t.AliasFor outer ident ty) (hsuffix : outer <:+ scope) : t.AliasFor scope ident ty := by
  obtain ⟨level, rest, hrest, halias⟩ := h
  exact ⟨level, rest, hrest.trans hsuffix, halias⟩

/-! ### Paths -/

theorem resolveSegments_eq_map (l : Lookup) (segs : List Segment) :
    t.resolveSegments l segs = segs.map (t.resolveSegment l) := by
  induction segs with
  | nil => rfl
  | cons s ss ih => rw [resolveSegments, ih, List.map_cons]

theorem resolveAll_eq_nil_iff {l : Lookup} {rs : List TypeRef} :
    t.resolveAll l rs = [] ↔ rs = [] := by
  cases rs <;> simp [resolveAll]

theorem args_of_member {outer : Prefixed} {ident : String} {args : List Ty} {ty : Ty}
    (h : t.member outer ident args = some (.type ty)) : ty.args = args := by
  cases outer with
  | space s =>
    rw [member] at h
    split at h
    · obtain rfl := Prefixed.type.inj (Option.some.inj h)
      rfl
    · split at h <;> cases h
  | type outerTy =>
    rw [member] at h
    split at h
    · obtain ⟨n, -, hn⟩ := Option.map_eq_some_iff.mp h
      obtain rfl := Prefixed.type.inj hn
      rfl
    · cases h

/-- The type at the end of a path has the arguments of the last piece. -/
theorem args_of_walk {path : List (String × List Ty)} {start : Prefixed} {ty : Ty}
    {last : String × List Ty} (h : t.walk start path = some ty)
    (hlast : path.getLast? = some last) : ty.args = last.2 := by
  induction path generalizing start with
  | nil => cases hlast
  | cons piece rest ih =>
    obtain ⟨ident, args⟩ := piece
    rw [walk] at h
    cases hnext : t.member start ident args with
    | none => rw [hnext] at h; cases h
    | some next =>
      rw [hnext] at h
      cases rest with
      | nil =>
        obtain rfl : (ident, args) = last := by simpa using hlast
        cases next with
        | space s => cases h
        | type nextTy =>
          obtain rfl : nextTy = ty := Option.some.inj h
          exact args_of_member hnext
      | cons piece' rest' =>
        rw [List.getLast?_cons_cons] at hlast
        exact ih h hlast

/-! ### First pieces -/

theorem args_of_throughUsings {scope : Scope} {us : List Using} {ident : String}
    {args : List Ty} {ty : Ty} (h : t.throughUsings (t.lookup scope) us ident args = some ty) :
    ty.args = args ∨
      args = [] ∧ ∃ u ∈ us, u.aliasName = some ident ∧ t.resolve scope u.target = ty := by
  rw [throughUsings] at h
  split at h
  · rename_i u hfound
    split at hfound
    · rename_i hempty
      have hu := List.find?_some hfound
      simp only [Bool.and_eq_true, decide_eq_true_eq] at hu
      exact .inr ⟨List.isEmpty_iff.mp hempty, u, List.mem_of_find?_eq_some hfound, hu.1,
        Option.some.inj h⟩
    · cases hfound
  · obtain ⟨id, -, rfl⟩ := Option.map_eq_some_iff.mp h
    exact .inl rfl

/-- The type of the first piece of a name has the arguments that are written, or is an alias. -/
theorem args_of_lookup {ident : String} {args : List Ty} {ty : Ty} :
    ∀ {scope : Scope}, (t.lookup scope).type ident args = some ty →
      ty.args = args ∨ args = [] ∧ t.AliasFor scope ident ty
  | [], h => by
    obtain ⟨id, -, rfl⟩ := Option.map_eq_some_iff.mp h
    exact .inl rfl
  | level :: outer, h => by
    have hlevel : ∀ us, us = t.usingsAt level →
        t.throughUsings (t.lookup outer) us ident args = some ty →
        ty.args = args ∨ args = [] ∧ t.AliasFor (level :: outer) ident ty := by
      rintro us rfl hus
      refine (args_of_throughUsings hus).imp_right ?_
      rintro ⟨hempty, u, hu, halias⟩
      exact ⟨hempty, level, outer, List.suffix_rfl, u, hu, halias⟩
    rw [lookup] at h
    dsimp only at h
    split at h
    · rename_i ty' hat
      obtain rfl := Option.some.inj h
      cases level with
      | type id =>
        rw [atLevel] at hat
        split at hat
        · rename_i hparam
          simp only [Bool.and_eq_true, List.isEmpty_iff] at hparam
          obtain rfl := Option.some.inj hat
          exact .inl hparam.1.symm
        · obtain ⟨n, -, rfl⟩ := Option.map_eq_some_iff.mp hat
          exact .inl rfl
      | space s us =>
        rw [atLevel] at hat
        split at hat
        · obtain rfl := Option.some.inj hat
          exact .inl rfl
        · exact hlevel us rfl hat
      | unit us =>
        rw [atLevel] at hat
        split at hat
        · obtain rfl := Option.some.inj hat
          exact .inl rfl
        · exact hlevel _ rfl hat
    · refine (args_of_lookup h).imp_right ?_
      rintro ⟨hempty, halias⟩
      exact ⟨hempty, halias.mono (List.suffix_cons _ _)⟩

/-- A path that leads to a type has the arguments of its last piece, or it is one plain identifier
that is an alias of the type. -/
theorem args_of_resolvePath {scope : Scope} {path : List (String × List Ty)} {ty : Ty}
    {last : String × List Ty} (h : t.resolvePath (t.lookup scope) path = some ty)
    (hlast : path.getLast? = some last) :
    ty.args = last.2 ∨ path = [(last.1, [])] ∧ t.AliasFor scope last.1 ty := by
  obtain _ | ⟨⟨ident, args⟩, rest⟩ := path
  · cases hlast
  have hbehind : ∀ piece more, rest = piece :: more → rest.getLast? = some last := by
    rintro piece more rfl
    rwa [List.getLast?_cons_cons] at hlast
  rw [resolvePath] at h
  split at h
  · rename_i ty' hfirst
    obtain rfl : ty' = ty := Option.some.inj h
    split at hfirst
    · rename_i first htype
      cases rest with
      | nil =>
        obtain rfl : (ident, args) = last := by simpa using hlast
        obtain rfl : first = ty' := Option.some.inj hfirst
        refine (args_of_lookup htype).imp_right ?_
        rintro ⟨hempty, halias⟩
        exact ⟨by rw [show args = [] from hempty], halias⟩
      | cons piece more => exact .inl (args_of_walk hfirst (hbehind piece more rfl))
    · cases hfirst
  · split at h
    · cases h
    · rename_i hspaces
      obtain ⟨space, -, hspace⟩ := List.exists_of_findSome?_eq_some h
      cases rest with
      | nil => simp at hspaces
      | cons piece more => exact .inl (args_of_walk hspace (hbehind piece more rfl))

/-! ### References -/

/-- A reference that stands for a generic type is written with arguments at its end, or is a plain
identifier that is an alias of the type. -/
theorem written_of_resolve {scope : Scope} {r : TypeRef} {id : TypeId} {args : List Ty}
    (h : t.resolve scope r = .named id args) (hargs : args ≠ []) :
    r.endsInArguments = true ∨
      ∃ ident place span, r = .named false [.mk ident [] place] span ∧
        t.AliasFor scope ident (.named id args) := by
  cases r with
  | predefined p span =>
    rw [resolve, resolveWith, Ty.ofPredefined] at h
    exact absurd (Ty.named.inj h).2.symm hargs
  | array e rank span => simp [resolve, resolveWith] at h
  | nullable i span => simp [resolve, resolveWith] at h
  | tuple es span => simp [resolve, resolveWith] at h
  | named fromGlobal segs span =>
    have hfound : (if fromGlobal then
          t.walk (.space []) (segs.map (t.resolveSegment (t.lookup scope)))
        else t.resolvePath (t.lookup scope) (segs.map (t.resolveSegment (t.lookup scope)))) =
          some (.named id args) := by
      rw [resolve, resolveWith, resolveSegments_eq_map] at h
      rcases Option.getD_eq_iff.mp h with hsome | ⟨-, hunresolved⟩
      · exact hsome
      · cases hunresolved
    rcases List.eq_nil_or_concat segs with rfl | ⟨front, ⟨ident, written, place⟩, hsegs⟩
    · cases fromGlobal <;> cases hfound
    rw [List.concat_eq_append] at hsegs
    subst hsegs
    have hlast : ((front ++ [Segment.mk ident written place]).map
        (t.resolveSegment (t.lookup scope))).getLast? =
          some (ident, t.resolveAll (t.lookup scope) written) := by
      simp [resolveSegment]
    have hwritten (heq : args = t.resolveAll (t.lookup scope) written) :
        (TypeRef.named fromGlobal (front ++ [.mk ident written place]) span).endsInArguments =
          true := by
      have hne : written ≠ [] := fun hnil ↦ hargs (heq.trans (resolveAll_eq_nil_iff.mpr hnil))
      simpa [TypeRef.endsInArguments, TypeRef.name?, Segment.args] using hne
    cases fromGlobal with
    | true => exact .inl (hwritten (args_of_walk hfound hlast))
    | false =>
      rcases args_of_resolvePath hfound hlast with heq | ⟨hpath, halias⟩
      · exact .inl (hwritten heq)
      · have hfront : front = [] := by
          have hlength := congrArg List.length hpath
          simpa using hlength
        subst hfront
        simp only [List.nil_append, List.map_cons, List.map_nil, resolveSegment, List.cons.injEq,
          Prod.mk.injEq, true_and, and_true, resolveAll_eq_nil_iff] at hpath
        subst hpath
        exact .inr ⟨ident, place, span, rfl, halias⟩

end Table
end Companion
