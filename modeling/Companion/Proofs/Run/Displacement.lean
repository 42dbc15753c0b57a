import Companion.Proofs.Class.Displacement

/-!
Runs over files of which everything stands at other places. The same classes are found in the same
order, and the units are the same, because no text and no name of a unit depends on places.
-/

set_option autoImplicit false
set_option relaxedAutoImplicit false

namespace Companion

/-! ### Units do not depend on places -/

section Seen

variable (view : Span → Span) (s : Settings) (a : ClassAnalysis)

theorem ClassAnalysis.shapes_seen : (a.seen view).shapes = a.shapes.map (FieldShape.seen view) := by
  rw [shapes, shapes, seen, List.map_append, List.map_map, List.map_map]
  rfl

theorem ClassAnalysis.elementNames_seen (shapes : List FieldShape) :
    elementNames (shapes.map (FieldShape.seen view)) = elementNames shapes := by
  rw [elementNames, elementNames, List.map_map]
  rfl

theorem ClassAnalysis.unitUsings_seen : (a.seen view).unitUsings = a.unitUsings := by
  have hlist : (a.seen view).hasList = a.hasList := by
    rw [hasList, hasList, shapes_seen, List.any_map]
    rfl
  have hcarried : (a.seen view).hasCarriedAttributes = a.hasCarriedAttributes := by
    rw [hasCarriedAttributes, hasCarriedAttributes, shapes_seen, List.any_map]
    rfl
  rw [unitUsings, unitUsings, hlist, hcarried]
  rfl

theorem Settings.restoreAll_seen : s.restoreAll (a.seen view) = s.restoreAll a := by
  funext l
  rw [restoreAll, restoreAll, ClassAnalysis.shapes_seen, List.foldl_map]
  rfl

theorem Settings.hooks_seen : s.hooks (a.seen view) = s.hooks a := by
  funext l
  rw [hooks, hooks, restoreAll_seen]
  rfl

theorem Settings.classBody_seen : s.classBody (a.seen view) = s.classBody a := by
  funext l
  have hreadonly : (a.seen view).shapes.filter (fun shape ↦ shape.isList && shape.isReadOnly) =
      (a.shapes.filter fun shape ↦ shape.isList && shape.isReadOnly).map
        (FieldShape.seen view) := by
    rw [ClassAnalysis.shapes_seen, List.filter_map]
    rfl
  rw [classBody, classBody, hreadonly, ClassAnalysis.shapes_seen, ClassAnalysis.elementNames_seen,
    ClassAnalysis.elementNames_seen, List.foldl_map, hooks_seen]
  rfl

theorem Settings.companionText_seen : s.companionText (a.seen view) = s.companionText a := by
  rw [companionText, companionText, ClassAnalysis.unitUsings_seen, classBody_seen]
  rfl

theorem RunResult.unitOf_seen : unitOf s (a.seen view) = unitOf s a := by
  rw [unitOf, unitOf, Settings.companionText_seen]
  rfl

end Seen

namespace RunResult

/-- A registry with a unit, if there is one and its name is not taken. -/
def added (r : Registry) : Option GeneratedUnit → Registry
  | none => r
  | some u => (r.register u).toOption.getD r

theorem fst_registerUnits (s : Settings) (as : List ClassAnalysis) :
    (registerUnits s as).1 = (as.map (unitOf s)).foldl added Registry.empty := by
  have hstep (state : Registry × List Diagnostic) (a : ClassAnalysis) :
      added state.1 (unitOf s a) = (registerUnit s state a).1 := by
    rw [registerUnit]
    cases unitOf s a with
    | none => rfl
    | some u =>
      simp only [added]
      cases state.1.register u <;> rfl
  rw [registerUnits, List.foldl_map]
  exact (List.foldl_hom Prod.fst hstep).symm

end RunResult

/-! ### Candidates -/

theorem TypeHeader.hasGenericBase_relocated (g : Span → Span) (h : TypeHeader) :
    (h.relocated g).hasGenericBase = h.hasGenericBase := by
  rw [hasGenericBase, hasGenericBase, relocated, List.head?_map]
  cases h.bases.head? with
  | none => rfl
  | some base =>
    rw [Option.map_some, Option.bind_some, Option.bind_some]
    cases base with
    | named fromGlobal segs span =>
      simp only [TypeRef.relocated, TypeRef.name?, TypeRef.relocatedSegments_eq_map,
        List.getLast?_map, Option.map_map]
      refine congrArg (Option.getD · false) (congrArg (Option.map · _) (funext fun last ↦ ?_))
      obtain ⟨ident, args, place⟩ := last
      simp only [Function.comp_apply, Segment.relocated, TypeRef.relocatedAll_eq_map]
      exact congrArg (!·) List.isEmpty_map
    | _ => rfl

theorem TypeDecl.isCandidate_relocated (g : Span → Span) (d : TypeDecl) :
    (d.relocated g).isCandidate = d.isCandidate := by
  have hfields : (d.fields.map (Field.relocated g)).any (fun f ↦ !f.attributes.isEmpty) =
      d.fields.any fun f ↦ !f.attributes.isEmpty := by
    rw [List.any_map]
    refine congrArg d.fields.any (funext fun f ↦ ?_)
    exact congrArg (!·) List.isEmpty_map
  rw [isCandidate, isCandidate, fields_relocated, hfields, header_relocated,
    TypeHeader.hasGenericBase_relocated]
  rfl

theorem SourceFile.flatten_mapIdx_types {β : Type} (p : TypeDecl → Bool)
    (q : Nat → TypeDecl → Option β) :
    ∀ (files : List SourceFile) (first : Nat),
      (files.mapIdx fun i f ↦
        ((Item.allTypes f.items).filter p).filterMap (q (first + i))).flatten =
        ((declarations first files).filter fun d ↦ p d.2).filterMap fun d ↦ q d.1 d.2
  | [], _ => rfl
  | f :: fs, first => by
    rw [List.mapIdx_cons, List.flatten_cons, declarations, List.filter_append,
      List.filterMap_append, List.filter_map, List.filterMap_map,
      ← flatten_mapIdx_types p q fs (first + 1)]
    refine congrArg (fun g ↦ _ ++ List.flatten (fs.mapIdx g)) (funext fun i ↦ ?_)
    rw [Nat.add_right_comm first 1 i, Nat.add_assoc]

namespace SourceFile.Displaces

variable {move : Nat → Span → Span} {files files' : List SourceFile}
  (h : Displaces move files files')
include h

theorem declarations_eq : SourceFile.declarations 0 files' =
    (SourceFile.declarations 0 files).map fun d ↦ (d.1, d.2.relocated (move d.1)) := by
  rw [← map_allDeclarations, ← map_allDeclarations, h.declarations, List.map_map, List.map_map]
  rfl

/-- The same classes are found in the same order. -/
theorem candidates_eq : (Compilation.ofFiles files').candidates =
    (Compilation.ofFiles files).candidates := by
  have hfound (files : List SourceFile) := flatten_mapIdx_types TypeDecl.isCandidate
    (fun file d ↦ (Compilation.ofFiles files).idOf file d.header.span) files 0
  simp only [Nat.zero_add] at hfound
  rw [Compilation.candidates, Compilation.candidates]
  change List.foldl _ _ (List.flatten (files'.mapIdx _)) =
    List.foldl _ _ (List.flatten (files.mapIdx _))
  rw [hfound, hfound, h.declarations_eq, List.filter_map, List.filterMap_map]
  simp only [Function.comp_def, TypeDecl.isCandidate_relocated, TypeDecl.header_relocated,
    TypeHeader.relocated, h.idOf]

theorem map_classes {β : Type} (s : Settings) (f : ClassAnalysis → β)
    (hf : ∀ a : ClassAnalysis, f (a.seen fun _ ↦ nowhere) = f a) :
    (RunResult.ofCompilation (Compilation.ofFiles files') s).classes.map f =
      (RunResult.ofCompilation (Compilation.ofFiles files) s).classes.map f := by
  change (((Compilation.ofFiles files').candidates.filterMap _).map _).map _ =
    (((Compilation.ofFiles files).candidates.filterMap _).map _).map _
  rw [h.candidates_eq, List.map_map, List.map_map, List.map_filterMap, List.map_filterMap]
  refine List.filterMap_congr fun id _ ↦ ?_
  have hanalyze := congrArg (Option.map f) (h.map_analyze s id)
  simpa only [Option.map_map, Function.comp_def, hf] using hanalyze

/-- The runs have the same units, and the same classes but for places. -/
theorem run_eq (s : Settings) :
    (RunResult.ofCompilation (Compilation.ofFiles files') s).units =
        (RunResult.ofCompilation (Compilation.ofFiles files) s).units ∧
      (RunResult.ofCompilation (Compilation.ofFiles files') s).classes.map
          (ClassAnalysis.seen fun _ ↦ nowhere) =
        (RunResult.ofCompilation (Compilation.ofFiles files) s).classes.map
          (ClassAnalysis.seen fun _ ↦ nowhere) := by
  constructor
  · change (RunResult.registerUnits s (RunResult.ofCompilation _ s).classes).1.sorted =
      (RunResult.registerUnits s (RunResult.ofCompilation _ s).classes).1.sorted
    rw [RunResult.fst_registerUnits, RunResult.fst_registerUnits,
      h.map_classes s _ (RunResult.unitOf_seen _ s)]
  · refine h.map_classes s _ fun a ↦ ?_
    rw [ClassAnalysis.seen, ClassAnalysis.seen, List.map_map, List.map_map]
    rfl

end SourceFile.Displaces
end Companion
