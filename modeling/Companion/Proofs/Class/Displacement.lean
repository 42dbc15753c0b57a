import Companion.Proofs.Class.Likeness
import Companion.Proofs.Symbol.Displacement

/-!
Classes of files of which everything stands at other places. Every type has its like, in both
directions, so that every class has the same analysis but for the places in it.
-/

set_option autoImplicit false
set_option relaxedAutoImplicit false

namespace Companion

/-! ### Likeness in both directions -/

section Symmetry

variable {view : Span → Span} {s : Settings} {c c' : Compilation}

theorem forall₂_symm {α β : Type} {R : α → β → Prop} {S : β → α → Prop} {as : List α} {bs : List β}
    (h : List.Forall₂ R as bs) (hrs : ∀ a b, R a b → S b a) : List.Forall₂ S bs as :=
  (h.imp hrs).flip

theorem Declarator.Like.symm {d d' : Declarator} (h : d.Like view d') : d'.Like view d :=
  ⟨h.name.symm, h.initializer.symm, h.nameSpan.symm⟩

theorem Field.Like.symm {site site' : Site} {f f' : Field} (h : f.Like view s c c' site site' f') :
    f'.Like view s c' c site' site f :=
  ⟨h.isMarked.symm, h.modifiers.symm, h.carried.symm, h.openIdentifier.symm, h.type.symm,
    forall₂_symm h.declarators fun _ _ hd ↦ hd.symm⟩

theorem Site.Like.symm {site site' : Site} (h : site.Like view s c c' site') :
    site'.Like view s c' c site :=
  ⟨h.path.symm, h.isPartial.symm, h.nameSpan.symm, h.usings.symm,
    forall₂_symm h.fields fun _ _ hf ↦ hf.symm⟩

theorem Symbol.Like.symm {symbol symbol' : Symbol} (h : symbol.Like view s c c' symbol') :
    symbol'.Like view s c' c symbol :=
  ⟨h.name.symm, h.kind.symm, h.space.symm, h.enclosing.symm, h.typeParams.symm, h.base.symm,
    h.interfaces.symm, forall₂_symm h.sites fun _ _ hsite ↦ hsite.symm⟩

theorem HookRole.Grows.antisymm {role role' : HookRole} (h : role.Grows role')
    (h' : role'.Grows role) : role' = role := by
  cases h with
  | same => rfl
  | extended => cases h'

namespace Compilation.Like

/-- If there are no more types in the one than in the other, then each has its like. -/
theorem symm (h : c.Like view s c') (hc' : c'.Contained)
    (hlength : c'.table.symbols.length = c.table.symbols.length) : c'.Like view s c := by
  refine ⟨hc', fun id symbol' hsymbol' ↦ ?_⟩
  obtain ⟨symbol, found, hsymbol, hfound, hlike⟩ :=
    h.exists_like (hlength ▸ lt_length_of_symbol? hsymbol')
  obtain rfl := Option.some.inj (hfound.symm.trans hsymbol')
  exact ⟨symbol, hsymbol, hlike.symm⟩

/-- Compilations of which each has the likes of the other have the same analyses but for places. -/
theorem map_analyze (h : c.Like view s c') (h' : c'.Like view s c) (id : TypeId) :
    (c'.analyze s id).map (fun p ↦ p.1.seen view) =
      (c.analyze s id).map (fun p ↦ p.1.seen view) := by
  cases ha : c.analyze s id with
  | none =>
    cases ha' : c'.analyze s id with
    | none => rfl
    | some found =>
      obtain ⟨a', reports'⟩ := found
      obtain ⟨a, reports, hsome, -⟩ := h'.analyze ha'
      rw [ha] at hsome
      cases hsome
  | some found =>
    obtain ⟨a, reports⟩ := found
    obtain ⟨a', reports', ha', hgrows, hseen⟩ := h.analyze ha
    obtain ⟨back, reports'', hback, hshrinks, -⟩ := h'.analyze ha'
    rw [ha] at hback
    obtain ⟨rfl, -⟩ := Prod.mk.inj (Option.some.inj hback)
    rw [hgrows.antisymm hshrinks] at hseen
    rw [ha', Option.map_some, Option.map_some, hseen]
    rfl

end Compilation.Like

end Symmetry

/-! ### Fields at other places -/

theorem Field.allAttributes_relocated (g : Span → Span) (f : Field) :
    (f.relocated g).allAttributes = f.allAttributes.map (Attribute.relocated g) := by
  rw [allAttributes, allAttributes, relocated, List.flatMap_map, List.map_flatMap]
  rfl

theorem Settings.isMarker_relocated (s : Settings) (g : Span → Span) (a : Attribute) :
    s.isMarker (a.relocated g) = s.isMarker a := by
  have hname : (a.relocated g).simpleName = a.simpleName := by
    rw [Attribute.simpleName, Attribute.simpleName, Attribute.relocated]
  rw [isMarker, isMarker, Attribute.isNamed, Attribute.isNamed, hname]

theorem Field.isMarked_relocated (s : Settings) (g : Span → Span) (f : Field) :
    (f.relocated g).isMarked s = f.isMarked s := by
  simp only [isMarked, allAttributes_relocated, List.any_map, Function.comp_def,
    s.isMarker_relocated g]

theorem TypeRef.render_relocated (g : Span → Span) (r : TypeRef) :
    (r.relocated g).render = r.render := by
  rw [← render_placeless (r.relocated g), ← render_placeless r]
  exact congrArg render r.placeless_relocated

theorem Field.openIdentifier_relocated (g : Span → Span) (f : Field) :
    (f.relocated g).openIdentifier = f.openIdentifier := by
  rw [openIdentifier, openIdentifier, show (f.relocated g).type = f.type.relocated g from rfl,
    TypeRef.render_relocated]
  cases f.type with
  | named fromGlobal segs span =>
    simp only [TypeRef.relocated, TypeRef.name?, TypeRef.relocatedSegments_eq_map,
      List.getLast?_map]
    cases segs.getLast? with
    | none => rfl
    | some last =>
      obtain ⟨ident, args, place⟩ := last
      rw [Option.map_some, Segment.relocated]
      by_cases hlist : ident = "List"
      · subst hlist
        cases args with
        | nil => rfl
        | cons element more =>
          cases more with
          | nil => exact TypeRef.render_relocated g element
          | cons next more => rfl
      · simp [hlist]
  | _ => rfl

namespace SourceFile.Displaces

variable {move : Nat → Span → Span} {files files' : List SourceFile}
  (h : Displaces move files files')
include h

theorem path_eq (file : Nat) :
    (Compilation.ofFiles files').path file = (Compilation.ofFiles files).path file := by
  change (files'[file]?.map SourceFile.path).getD "" = (files[file]?.map SourceFile.path).getD ""
  rw [← List.getElem?_map, ← List.getElem?_map, h.paths]

theorem carriedAttributes_eq (s : Settings) {d : Declaration}
    (hd : d ∈ allDeclarations 0 files) {f : Field} (hf : f ∈ d.decl.fields) :
    (f.relocated (move d.file)).carriedAttributes (Compilation.ofFiles files') s d.file =
      f.carriedAttributes (Compilation.ofFiles files) s d.file := by
  simp only [Field.carriedAttributes, Field.allAttributes_relocated, List.filter_map, List.map_map,
    Function.comp_def, s.isMarker_relocated]
  exact List.map_congr_left fun a ha ↦ h.attributeTexts d hd f hf a (List.mem_filter.1 ha).1

theorem usingTexts_eq {d : Declaration} (hd : d ∈ allDeclarations 0 files) {scope : Scope}
    (hscope : ∀ level ∈ scope, level ∈ d.outside ∨ level.usings = []) :
    ((Scope.usings (scope.map (Level.relocated (move d.file)))).map fun u ↦
        (Compilation.ofFiles files').text d.file u.span) =
      (Scope.usings scope).map fun u ↦ (Compilation.ofFiles files).text d.file u.span := by
  rw [Scope.usings_relocated, List.map_map]
  refine List.map_congr_left fun u hu ↦ ?_
  obtain ⟨level, hlevel, hmem⟩ := List.mem_flatMap.1 (List.mem_filter.1 hu).1
  rcases hscope level (List.mem_reverse.1 hlevel) with houtside | hnone
  · exact h.usingTexts d hd level houtside u hmem
  · rw [hnone] at hmem
    cases hmem

/-- A declaration tells the same at other places. -/
theorem siteLike (s : Settings) {d : Declaration} (hd : d ∈ allDeclarations 0 files) {site : Site}
    (hsite : site = Declaration.siteAmong (Declaration.founders (allDeclarations 0 files)) d) :
    site.Like (fun _ ↦ nowhere) s (Compilation.ofFiles files) (Compilation.ofFiles files')
      (site.displaced move) := by
  have hfile : site.file = d.file := by rw [hsite]; rfl
  have hdecl : site.decl = d.decl := by rw [hsite]; rfl
  have hbody : ∀ level ∈ site.body, level ∈ d.outside ∨ level.usings = [] := by
    intro level hlevel
    rw [hsite] at hlevel
    rcases List.mem_append.1 hlevel with htype | houtside
    · obtain ⟨id, -, rfl⟩ := List.mem_map.1 htype
      exact .inr rfl
    · exact .inl houtside
  refine ⟨h.path_eq _, ?isPartial, rfl, ?usings, ?fields⟩
  case isPartial =>
    rw [Site.displaced, TypeDecl.header_relocated]
    rfl
  case usings =>
    rw [Site.displaced, hfile]
    exact h.usingTexts_eq hd hbody
  case fields =>
    rw [Site.displaced, TypeDecl.fields_relocated]
    refine List.forall₂_map_right_iff.2 (List.forall₂_same.2 fun f hf ↦ ?_)
    refine ⟨f.isMarked_relocated s _, rfl, ?_, f.openIdentifier_relocated _, h.resolve _ _ _, ?_⟩
    · rw [hfile]
      exact h.carriedAttributes_eq s hd (hdecl ▸ hf)
    · refine List.forall₂_map_right_iff.2 (List.forall₂_same.2 fun v _ ↦ ⟨rfl, ?_, rfl⟩)
      exact Option.isSome_map

theorem like (s : Settings) :
    (Compilation.ofFiles files).Like (fun _ ↦ nowhere) s (Compilation.ofFiles files') := by
  refine ⟨Compilation.contained_ofFiles files, fun id symbol hsymbol ↦
    ⟨symbol.displaced move, ?_, rfl, rfl, rfl, rfl, rfl, rfl, rfl, ?_⟩⟩
  · rw [h.symbol?_eq, hsymbol, Option.map_some]
  · refine List.forall₂_map_right_iff.2 (List.forall₂_same.2 fun site hsite ↦ ?_)
    rcases Compilation.symbol?_cases hsymbol with ⟨-, hinitial⟩ | ⟨d, -, -, -, hsites⟩
    · rw [(Compilation.enclosing_eq_nil_of_lt hinitial).2] at hsite
      cases hsite
    · rw [hsites] at hsite
      obtain ⟨d, hd, rfl⟩ := List.mem_map.1 hsite
      exact h.siteLike s (List.mem_filter.1 hd).1 rfl

/-- Every class has the same analysis but for places. -/
theorem map_analyze (s : Settings) (id : TypeId) :
    ((Compilation.ofFiles files').analyze s id).map (fun p ↦ p.1.seen fun _ ↦ nowhere) =
      ((Compilation.ofFiles files).analyze s id).map (fun p ↦ p.1.seen fun _ ↦ nowhere) := by
  refine (h.like s).map_analyze ((h.like s).symm (Compilation.contained_ofFiles files') ?_) id
  rw [h.symbols_eq, List.length_map]

end SourceFile.Displaces
end Companion
