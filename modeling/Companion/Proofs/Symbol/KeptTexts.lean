import Companion.Proofs.Grammar.Identifiers
import Companion.Proofs.Symbol.Paths

/-!
The texts that types keep (`Ty.keptTexts`). A reference that leads to nothing is kept as it is
written, and so every text in a type that a reference stands for is a reference of the source,
written out: a part of the reference itself, of the target of an alias on the way, or of an argument
of a base (`Compilation.keptFrom_resolve_site`, `Compilation.keptFrom_base?`). Apart from these
texts a type is made of symbols, whose names are words (`Compilation.named_symbol`).
-/

set_option autoImplicit false
set_option relaxedAutoImplicit false

namespace Companion

namespace Ty

mutual

/-- The texts in a type that nothing declares. -/
def keptTexts : Ty → List String
  | named _ args => keptTextsAll args
  | param _ _ => []
  | array e _ => keptTexts e
  | nullable i => keptTexts i
  | tuple es => keptTextsAll es
  | unresolved text => [text]

def keptTextsAll : List Ty → List String
  | [] => []
  | t :: ts => keptTexts t ++ keptTextsAll ts

end

theorem mem_keptTextsAll {text : String} {ts : List Ty} :
    text ∈ keptTextsAll ts ↔ ∃ t ∈ ts, text ∈ t.keptTexts := by
  induction ts with
  | nil => simp [keptTextsAll]
  | cons t ts ih => simp [keptTextsAll, ih]

/-- Every text in a type is a reference with names of a kind, written out. -/
def KeptFrom (p : String → Prop) (t : Ty) : Prop :=
  ∀ text ∈ t.keptTexts, ∃ r : TypeRef, r.Named p ∧ text = r.render

variable {p : String → Prop}

theorem keptFrom_named_iff {id : TypeId} {args : List Ty} :
    (named id args).KeptFrom p ↔ ∀ a ∈ args, a.KeptFrom p := by
  unfold KeptFrom
  rw [keptTexts]
  constructor
  · exact fun h a ha text htext ↦ h text (mem_keptTextsAll.mpr ⟨a, ha, htext⟩)
  · intro h text htext
    obtain ⟨a, ha, htext⟩ := mem_keptTextsAll.mp htext
    exact h a ha text htext

theorem keptFrom_param (name : String) (owner : TypeId) : (param name owner).KeptFrom p :=
  fun _ h ↦ absurd h List.not_mem_nil

theorem KeptFrom.stripNullable {t : Ty} (h : t.KeptFrom p) : t.stripNullable.KeptFrom p := by
  fun_induction Ty.stripNullable t with
  | case1 inner ih => exact ih h
  | case2 => exact h

mutual

theorem KeptFrom.replaceParams {f : String → TypeId → Option Ty}
    (hf : ∀ name owner t, f name owner = some t → t.KeptFrom p) :
    ∀ t : Ty, t.KeptFrom p → (t.replaceParams f).KeptFrom p
  | named _ args, h => KeptFrom.replaceParamsAll hf args h
  | param name owner, h => by
    rw [Ty.replaceParams]
    cases hfound : f name owner with
    | none => exact h
    | some t => exact hf name owner t hfound
  | array e _, h => KeptFrom.replaceParams hf e h
  | nullable i, h => KeptFrom.replaceParams hf i h
  | tuple es, h => KeptFrom.replaceParamsAll hf es h
  | unresolved _, h => h

theorem KeptFrom.replaceParamsAll {f : String → TypeId → Option Ty}
    (hf : ∀ name owner t, f name owner = some t → t.KeptFrom p) :
    ∀ ts : List Ty, (∀ text ∈ keptTextsAll ts, ∃ r : TypeRef, r.Named p ∧ text = r.render) →
      ∀ text ∈ keptTextsAll (Ty.replaceParamsAll f ts), ∃ r : TypeRef, r.Named p ∧ text = r.render
  | [], h => h
  | t :: ts, h => by
    obtain ⟨ht, hts⟩ := List.forall_mem_append.mp h
    exact List.forall_mem_append.mpr
      ⟨KeptFrom.replaceParams hf t ht, KeptFrom.replaceParamsAll hf ts hts⟩

end

/-- The arguments that replace parameters bring their texts, and the type keeps its own. -/
theorem KeptFrom.substitute {owner : TypeId} {params : List String} {args : List Ty} {t : Ty}
    (hargs : ∀ a ∈ args, a.KeptFrom p) (h : t.KeptFrom p) :
    (t.substitute owner params args).KeptFrom p := by
  refine KeptFrom.replaceParams (fun name other a ha ↦ ?_) t h
  by_cases hother : other = owner
  · rw [if_pos hother] at ha
    exact hargs a (mem_of_argumentFor ha)
  · rw [if_neg hother] at ha
    cases ha

end Ty

/-! ### References -/

namespace Table

open Ty

variable {t : Table} {p : String → Prop}

theorem keptFrom_of_map {found : Option TypeId} {args : List Ty} {ty : Ty}
    (hargs : ∀ a ∈ args, a.KeptFrom p) (h : found.map (.named · args) = some ty) :
    ty.KeptFrom p := by
  obtain ⟨id, -, rfl⟩ := Option.map_eq_some_iff.mp h
  exact keptFrom_named_iff.mpr hargs

theorem keptFrom_of_member {outer : Prefixed} {ident : String} {args : List Ty} {ty : Ty}
    (hargs : ∀ a ∈ args, a.KeptFrom p) (h : t.member outer ident args = some (.type ty)) :
    ty.KeptFrom p := by
  unfold member at h
  cases outer with
  | space s =>
    dsimp only at h
    split at h
    · obtain rfl := Prefixed.type.inj (Option.some.inj h)
      exact keptFrom_named_iff.mpr hargs
    · split at h <;> cases h
  | type outerTy =>
    dsimp only at h
    split at h
    · obtain ⟨id, -, hn⟩ := Option.map_eq_some_iff.mp h
      obtain rfl := Prefixed.type.inj hn
      exact keptFrom_named_iff.mpr hargs
    · cases h

theorem keptFrom_of_walk {path : List (String × List Ty)} {start : Prefixed} {ty : Ty}
    (hstart : ∀ first, start = .type first → first.KeptFrom p)
    (hpath : ∀ piece ∈ path, ∀ a ∈ piece.2, a.KeptFrom p) (h : t.walk start path = some ty) :
    ty.KeptFrom p := by
  induction path generalizing start with
  | nil =>
    cases start with
    | type first =>
      obtain rfl := Option.some.inj h
      exact hstart first rfl
    | space s => cases h
  | cons piece rest ih =>
    obtain ⟨ident, args⟩ := piece
    obtain ⟨hargs, hrest⟩ := List.forall_mem_cons.mp hpath
    rw [walk] at h
    split at h
    · rename_i next hnext
      refine ih (fun first hfirst ↦ ?_) hrest h
      subst hfirst
      exact keptFrom_of_member hargs hnext
    · cases h

/-- What a scope gives to an identifier keeps references with names of a kind, besides what the
arguments keep. -/
def Lookup.KeptFrom (p : String → Prop) (l : Lookup) : Prop :=
  ∀ ident args ty, (∀ a ∈ args, a.KeptFrom p) → l.type ident args = some ty → ty.KeptFrom p

theorem keptFrom_of_resolvePath {l : Lookup} (hl : Lookup.KeptFrom p l)
    {path : List (String × List Ty)} (hpath : ∀ piece ∈ path, ∀ a ∈ piece.2, a.KeptFrom p) {ty : Ty}
    (h : t.resolvePath l path = some ty) : ty.KeptFrom p := by
  obtain _ | ⟨⟨ident, args⟩, rest⟩ := path
  · cases h
  obtain ⟨hargs, hrest⟩ := List.forall_mem_cons.mp hpath
  rw [resolvePath] at h
  split at h
  · rename_i ty' hfirst
    obtain rfl : ty' = ty := Option.some.inj h
    split at hfirst
    · rename_i first htype
      refine keptFrom_of_walk (fun first' heq ↦ ?_) hrest hfirst
      obtain rfl := Prefixed.type.inj heq
      exact hl ident args first hargs htype
    · cases hfirst
  · split at h
    · cases h
    · obtain ⟨space, -, hspace⟩ := List.exists_of_findSome?_eq_some h
      exact keptFrom_of_walk (fun first heq ↦ by cases heq) hrest hspace

mutual

theorem keptFrom_resolveWith {l : Lookup} (hl : Lookup.KeptFrom p l) :
    ∀ r : TypeRef, r.Named p → (t.resolveWith l r).KeptFrom p
  | .predefined _ _, _ => fun _ h ↦ absurd h List.not_mem_nil
  | .named fromGlobal segs span, hr => by
    have hsegs := keptFrom_resolveSegments hl segs (TypeRef.named_named_iff.mp hr)
    have hfound : ∀ ty, (if fromGlobal then t.walk (.space []) (t.resolveSegments l segs)
        else t.resolvePath l (t.resolveSegments l segs)) = some ty → ty.KeptFrom p := by
      intro ty hty
      cases fromGlobal with
      | true => exact keptFrom_of_walk (fun first heq ↦ by cases heq) hsegs hty
      | false => exact keptFrom_of_resolvePath hl hsegs hty
    rw [resolveWith]
    cases heq : (if fromGlobal then t.walk (.space []) (t.resolveSegments l segs)
      else t.resolvePath l (t.resolveSegments l segs)) with
    | none =>
      intro text htext
      exact ⟨_, hr, List.mem_singleton.mp htext⟩
    | some ty => exact hfound ty heq
  | .array e _ _, hr => keptFrom_resolveWith hl e hr
  | .nullable i _, hr => keptFrom_resolveWith hl i hr
  | .tuple es _, hr => fun _ htext ↦ by
    obtain ⟨ty, hty, htext⟩ := mem_keptTextsAll.mp htext
    exact keptFrom_resolveAll hl es (TypeRef.named_tuple_iff.mp hr) ty hty _ htext

theorem keptFrom_resolveAll {l : Lookup} (hl : Lookup.KeptFrom p l) :
    ∀ rs : List TypeRef, (∀ r ∈ rs, r.Named p) → ∀ ty ∈ t.resolveAll l rs, ty.KeptFrom p
  | [], _ => fun _ h ↦ absurd h List.not_mem_nil
  | r :: rs, h => by
    obtain ⟨hr, hrs⟩ := List.forall_mem_cons.mp h
    exact List.forall_mem_cons.mpr ⟨keptFrom_resolveWith hl r hr, keptFrom_resolveAll hl rs hrs⟩

theorem keptFrom_resolveSegments {l : Lookup} (hl : Lookup.KeptFrom p l) :
    ∀ segs : List Segment, (∀ s ∈ segs, s.Named p) →
      ∀ piece ∈ t.resolveSegments l segs, ∀ a ∈ piece.2, a.KeptFrom p
  | [], _ => fun _ h ↦ absurd h List.not_mem_nil
  | .mk _ args _ :: segs, h => by
    obtain ⟨hs, hsegs⟩ := List.forall_mem_cons.mp h
    exact List.forall_mem_cons.mpr
      ⟨keptFrom_resolveAll hl args hs.2, keptFrom_resolveSegments hl segs hsegs⟩

end

/-! ### Scopes -/

theorem keptFrom_of_throughUsings {outside : Lookup} (hl : Lookup.KeptFrom p outside)
    {us : List Using} (hus : ∀ u ∈ us, u.target.Named p) {ident : String} {args : List Ty} {ty : Ty}
    (hargs : ∀ a ∈ args, a.KeptFrom p) (h : t.throughUsings outside us ident args = some ty) :
    ty.KeptFrom p := by
  rw [throughUsings] at h
  split at h
  · rename_i u haliased
    obtain rfl := Option.some.inj h
    refine keptFrom_resolveWith hl u.target (hus u ?_)
    split_ifs at haliased
    exact List.mem_of_find?_eq_some haliased
  · exact keptFrom_of_map hargs h

theorem keptFrom_of_atLevel (hglobal : ∀ u ∈ t.globalUsings, u.target.Named p) {outside : Lookup}
    (hl : Lookup.KeptFrom p outside) {level : Level} (hlevel : ∀ u ∈ level.usings, u.target.Named p)
    {ident : String} {args : List Ty} {ty : Ty} (hargs : ∀ a ∈ args, a.KeptFrom p)
    (h : t.atLevel outside level ident args = some ty) : ty.KeptFrom p := by
  cases level with
  | type id =>
    rw [atLevel] at h
    split at h
    · obtain rfl := Option.some.inj h
      exact keptFrom_param ident id
    · exact keptFrom_of_map hargs h
  | space s us =>
    rw [atLevel] at h
    split at h
    · obtain rfl := Option.some.inj h
      exact keptFrom_named_iff.mpr hargs
    · exact keptFrom_of_throughUsings hl hlevel hargs h
  | unit us =>
    rw [atLevel] at h
    split at h
    · obtain rfl := Option.some.inj h
      exact keptFrom_named_iff.mpr hargs
    · exact keptFrom_of_throughUsings hl (List.forall_mem_append.mpr ⟨hlevel, hglobal⟩) hargs h

theorem keptFrom_lookup (hglobal : ∀ u ∈ t.globalUsings, u.target.Named p) :
    ∀ {scope : Scope}, scope.Names p → Lookup.KeptFrom p (t.lookup scope)
  | [], _ => fun _ _ _ hargs h ↦ keptFrom_of_map hargs h
  | level :: outer, hscope => by
    obtain ⟨hlevel, houter⟩ := List.forall_mem_cons.mp hscope
    have hl := keptFrom_lookup hglobal houter
    intro ident args ty hargs h
    rw [lookup] at h
    dsimp only at h
    split at h
    · rename_i ty' hat
      obtain rfl := Option.some.inj h
      exact keptFrom_of_atLevel hglobal hl hlevel hargs hat
    · exact hl ident args ty hargs h

/-- What a reference stands for keeps nothing but references of the same kind of names, if the
directives around are written with such names. -/
theorem keptFrom_resolve (hglobal : ∀ u ∈ t.globalUsings, u.target.Named p) {scope : Scope}
    (hscope : scope.Names p) {r : TypeRef} (hr : r.Named p) : (t.resolve scope r).KeptFrom p :=
  keptFrom_resolveWith (keptFrom_lookup hglobal hscope) r hr

end Table

/-! ### Compilations -/

namespace Compilation

variable {files : List SourceFile} {p : String → Prop} (hnames : ∀ f ∈ files, ∀ n ∈ f.names, p n)

include hnames

theorem named_of_mem_references {f : SourceFile} (hf : f ∈ files) {r : TypeRef}
    (hr : r ∈ f.references) : r.Named p :=
  fun n hn ↦ hnames f hf n (List.mem_append_right _ (List.mem_flatMap.mpr ⟨r, hr, hn⟩))

theorem named_of_mem_allUsings {f : SourceFile} (hf : f ∈ files) {u : Using}
    (hu : u ∈ f.allUsings) : u.target.Named p :=
  named_of_mem_references hnames hf (List.mem_append_left _ (List.mem_map_of_mem hu))

theorem named_of_mem_globalUsings :
    ∀ u ∈ (Table.ofFiles files).globalUsings, u.target.Named p := by
  intro u hu
  rw [Table.ofFiles_eq] at hu
  obtain ⟨f, hf, hu⟩ := List.mem_flatMap.mp hu
  exact named_of_mem_allUsings hnames hf (List.mem_append_left _ (List.mem_filter.mp hu).1)

variable {id : TypeId} {symbol : Symbol}

/-- A type that is written in a declaration keeps references of the files. -/
theorem keptFrom_resolve_site {t : Table} (ht : t.globalUsings = (Table.ofFiles files).globalUsings)
    (hsymbol : (ofFiles files).symbol? id = some symbol) {site : Site} (hsite : site ∈ symbol.sites)
    {r : TypeRef} (hr : r ∈ site.decl.references) : (t.resolve site.body r).KeptFrom p := by
  obtain ⟨hscope, f, hfile, hdecl⟩ := writtenIn_of_mem_sites hsymbol hsite
  have hf := List.mem_of_getElem? hfile
  refine Table.keptFrom_resolve (ht ▸ named_of_mem_globalUsings hnames) ?_ ?_
  · intro level hlevel u hu
    obtain ⟨g, hg, hu⟩ := hscope.usings level hlevel u hu
    exact named_of_mem_allUsings hnames hg hu
  · exact named_of_mem_references hnames hf
      (List.mem_append_right _ (List.mem_flatMap.mpr ⟨_, hdecl, hr⟩))

theorem keptFrom_base? {base : Ty} (h : (ofFiles files).base? id = some base) :
    base.KeptFrom p := by
  obtain ⟨symbol, hsymbol, hbase⟩ := Option.bind_eq_some_iff.mp h
  obtain ⟨s, -, hsites, hbases⟩ := eq_withBases_of_symbol? hsymbol
  obtain ⟨site, hsite, r, hr, rfl⟩ := Table.exists_head_of_basesOf (hbases.symm.trans hbase)
  exact keptFrom_resolve_site hnames rfl hsymbol (hsites ▸ hsite)
    (List.mem_append_left _ (List.mem_of_head? hr))

/-- The names of a symbol and of its namespace are among those of the files, or known
beforehand. -/
theorem named_symbol (hknown : ∀ s ∈ Table.initial.symbols, p s.name ∧ ∀ n ∈ s.space, p n)
    (hsymbol : (ofFiles files).symbol? id = some symbol) :
    p symbol.name ∧ ∀ n ∈ symbol.space, p n := by
  rcases symbol?_cases hsymbol with ⟨-, hinitial⟩ | ⟨d, hd, -, hof⟩
  · exact hknown symbol (List.mem_of_getElem? hinitial)
  · obtain ⟨e, he, -, hspace, -, hlast⟩ :=
      exists_founder hsymbol (List.ne_nil_of_mem (hof.siteAmong_mem hd))
    obtain ⟨hpieces, hchain⟩ := SourceFile.named_path hnames he
    exact ⟨hchain _ (List.mem_of_getLast? hlast), hspace ▸ hpieces⟩

end Compilation
end Companion
