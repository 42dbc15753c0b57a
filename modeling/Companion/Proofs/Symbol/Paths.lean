import Companion.Proofs.Symbol.Addition
import Companion.Class.Analysis

/-!
The paths of symbols. A symbol has its name, its namespace and its parameters by the path of its
declarations, and the types around it are the symbols of the paths around that path. So what is
known about a class says which path it is declared under.
-/

set_option autoImplicit false
set_option relaxedAutoImplicit false

namespace Companion

theorem TypePath.map_getLast?_types (space : Space) (chain : List (String × Nat)) :
    (TypePath.mk space chain).types.map (·.chain.getLast?) = chain.map some := by
  induction chain using List.reverseRecOn with
  | nil => rfl
  | append_singleton chain x ih =>
    rw [types_concat, List.map_append, ih, List.map_append, List.map_singleton,
      List.getLast?_concat]
    rfl

/-- Every piece of a path is the name and the number of parameters of a declaration. -/
theorem Declaration.Closed.exists_of_mem_chain {ds : List Declaration} (h : Closed ds)
    {d : Declaration} (hd : d ∈ ds) {piece : String × Nat} (hpiece : piece ∈ d.path.chain) :
    ∃ e ∈ ds, piece = (e.decl.header.name, e.decl.header.arity) := by
  have hlast : some piece ∈ d.path.types.map (·.chain.getLast?) := by
    rw [show d.path.types = (TypePath.mk d.path.space d.path.chain).types from rfl,
      TypePath.map_getLast?_types]
    exact List.mem_map_of_mem hpiece
  obtain ⟨q, hq, hlast⟩ := List.mem_map.mp hlast
  obtain ⟨e, he, rfl⟩ := List.mem_map.mp (mem_map_path_founders.mp (h.types_subset hd q hq))
  obtain ⟨chain, hpath, -⟩ := h e he
  rw [hpath, List.getLast?_concat] at hlast
  exact ⟨e, he, (Option.some.inj hlast).symm⟩

/-- The names along the path of a declaration are names of the files. -/
theorem SourceFile.named_path {files : List SourceFile} {p : String → Prop}
    (hnames : ∀ f ∈ files, ∀ n ∈ f.names, p n) {d : Declaration}
    (hd : d ∈ allDeclarations 0 files) :
    (∀ n ∈ d.path.space, p n) ∧ ∀ piece ∈ d.path.chain, p piece.1 := by
  constructor
  · intro n hn
    obtain ⟨f, hf, hmem, -⟩ := exists_file_of_mem_allDeclarations hd
    refine hnames f (List.mem_of_getElem? hf) n
      (List.mem_append_left _ (List.mem_append_left _ (List.mem_append_left _ ?_)))
    exact (Item.space_of_mem_allDeclarations f.items _ _ hmem hn).resolve_left List.not_mem_nil
  · intro piece hpiece
    obtain ⟨e, he, rfl⟩ := (closed_allDeclarations files).exists_of_mem_chain hd hpiece
    obtain ⟨f, hf, -, hdecl⟩ := exists_file_of_mem_allDeclarations he
    exact hnames f (List.mem_of_getElem? hf) _ (List.mem_append_left _
      (List.mem_append_left _ (TypeDecl.name_mem_declaredNames hdecl)))

namespace Compilation

/-- The name of a type and the number of its parameters. -/
def pieceOf (c : Compilation) (id : TypeId) : Option (String × Nat) :=
  (c.symbol? id).map fun symbol ↦ (symbol.name, symbol.arity)

/-- The symbol of a declaration is that of the first declaration of its path, but for its bases. -/
theorem founder_of_symbol? {files : List SourceFile} {id : TypeId} {symbol : Symbol}
    (h : (ofFiles files).symbol? id = some symbol) (hsites : symbol.sites ≠ []) :
    ∃ d ∈ Declaration.founders (SourceFile.allDeclarations 0 files), id = idAmong files d ∧
      ∃ base interfaces, symbol =
        { Declaration.symbolAmong (Declaration.founders (SourceFile.allDeclarations 0 files))
            (SourceFile.allDeclarations 0 files) d with
          base := base
          interfaces := interfaces } := by
  have hbare := symbol?_ofFiles files id
  rw [h] at hbare
  obtain ⟨bare, hget, rfl⟩ := Option.map_eq_some_iff.1 hbare.symm
  rw [Table.ofFiles_eq] at hget
  rcases Declaration.getElem?_symbols hget with ⟨-, hinitial⟩ | ⟨d, hd, hid, rfl⟩
  · exact absurd (enclosing_eq_nil_of_lt hinitial).2 hsites
  · exact ⟨d, hd, hid, _, _, rfl⟩

/-- The symbol of a declaration has a name, a namespace and parameters by its path. -/
theorem exists_founder {files : List SourceFile} {id : TypeId} {symbol : Symbol}
    (h : (ofFiles files).symbol? id = some symbol) (hsites : symbol.sites ≠ []) :
    ∃ d ∈ SourceFile.allDeclarations 0 files, id = idAmong files d ∧
      symbol.space = d.path.space ∧
      symbol.enclosing = d.path.around.map
        (Declaration.idAmong (Declaration.founders (SourceFile.allDeclarations 0 files))) ∧
      d.path.chain.getLast? = some (symbol.name, symbol.arity) := by
  obtain ⟨d, hd, hid, base, interfaces, rfl⟩ := founder_of_symbol? h hsites
  obtain ⟨chain, hpath, -⟩ :=
    SourceFile.closed_allDeclarations files d (Declaration.mem_founders hd)
  refine ⟨d, Declaration.mem_founders hd, hid, rfl, rfl, ?_⟩
  rw [hpath, List.getLast?_concat]
  exact congrArg (fun n ↦ some (d.decl.header.name, n)) (List.length_map _).symm

/-- All declarations of a type have its name. -/
theorem name_of_mem_sites {files : List SourceFile} {id : TypeId} {symbol : Symbol}
    (h : (ofFiles files).symbol? id = some symbol) {site : Site} (hsite : site ∈ symbol.sites) :
    site.decl.header.name = symbol.name := by
  obtain ⟨d, hd, -, base, interfaces, rfl⟩ := founder_of_symbol? h (List.ne_nil_of_mem hsite)
  obtain ⟨e, he, rfl⟩ := List.mem_map.1 hsite
  obtain ⟨hdeclared, hpath⟩ := List.mem_filter.1 he
  have hclosed := SourceFile.closed_allDeclarations files
  obtain ⟨chain, hchain, -⟩ := hclosed d (Declaration.mem_founders hd)
  obtain ⟨chain', hchain', -⟩ := hclosed e hdeclared
  have heq := of_decide_eq_true hpath
  rw [hchain, hchain', TypePath.mk.injEq] at heq
  exact (Prod.mk.inj (List.singleton_inj.1 (List.append_inj' heq.2 rfl).2)).1

theorem pieceOf_idAmong {files : List SourceFile} {p : TypePath}
    (hp : p ∈ (SourceFile.allDeclarations 0 files).map Declaration.path) :
    (ofFiles files).pieceOf (Declaration.idAmong
      (Declaration.founders (SourceFile.allDeclarations 0 files)) p) = p.chain.getLast? := by
  obtain ⟨d, hd, rfl⟩ := List.mem_map.1 hp
  obtain ⟨symbol, hsymbol, hof⟩ := exists_symbol_of_mem hd
  obtain ⟨e, -, hid, -, -, hlast⟩ :=
    exists_founder hsymbol (List.ne_nil_of_mem (hof.siteAmong_mem hd))
  have hsame : d.path = e.path :=
    Declaration.idAmong_injOn (Declaration.mem_map_path_founders.2 (List.mem_map_of_mem hd)) hid
  rw [pieceOf, ← idAmong, hsymbol, hsame, hlast, Option.map_some]

/-- The pieces of types around a class are those of their symbols. -/
theorem map_containingTypes {files : List SourceFile} {ids : List TypeId} :
    (ids.filterMap (ofFiles files).containingType).map (fun t ↦ (t.name, t.typeParams.length)) =
      ids.filterMap (ofFiles files).pieceOf := by
  rw [List.map_filterMap]
  refine List.filterMap_congr fun id _ ↦ ?_
  rw [containingType, pieceOf, Option.map_map]
  rfl

theorem map_pieceOf {files : List SourceFile} {p : TypePath}
    (h : ∀ q ∈ p.around, q ∈ (SourceFile.allDeclarations 0 files).map Declaration.path) :
    (p.around.map (Declaration.idAmong (Declaration.founders
      (SourceFile.allDeclarations 0 files)))).map (ofFiles files).pieceOf =
        p.chain.dropLast.map some := by
  rw [← TypePath.map_getLast?_types p.space, List.map_map]
  exact List.map_congr_left fun q hq ↦ pieceOf_idAmong (h q hq)

theorem filterMap_pieceOf {files : List SourceFile} {p : TypePath}
    (h : ∀ q ∈ p.around, q ∈ (SourceFile.allDeclarations 0 files).map Declaration.path) :
    (p.around.map (Declaration.idAmong (Declaration.founders
      (SourceFile.allDeclarations 0 files)))).filterMap (ofFiles files).pieceOf =
        p.chain.dropLast := by
  have hall := congrArg (List.filterMap id) (map_pieceOf h)
  simp only [List.filterMap_map, Function.id_comp, List.filterMap_some] at hall ⊢
  exact hall

theorem nameOf_eq (c : Compilation) (id : TypeId) :
    c.nameOf id = ((c.pieceOf id).map Prod.fst).getD "" := by
  unfold nameOf pieceOf
  cases c.symbol? id <;> rfl

/-- The full name of a declared type consists of the pieces of its path. -/
theorem qualifiedName_idAmong {files : List SourceFile} {d : Declaration}
    (hd : d ∈ SourceFile.allDeclarations 0 files) :
    (ofFiles files).qualifiedName (idAmong files d) =
      joinWith "." (d.path.space ++ d.path.chain.map Prod.fst) := by
  obtain ⟨symbol, hsymbol, hof⟩ := exists_symbol_of_mem hd
  obtain ⟨e, he, hid, hspace, henclosing, hlast⟩ :=
    exists_founder hsymbol (List.ne_nil_of_mem (hof.siteAmong_mem hd))
  have hsame : d.path = e.path :=
    Declaration.idAmong_injOn (Declaration.mem_map_path_founders.2 (List.mem_map_of_mem hd)) hid
  have haround := map_pieceOf fun q hq ↦ Declaration.mem_map_path_founders.mp
    ((SourceFile.closed_allDeclarations files).around_subset he q hq)
  have hnames : symbol.enclosing.map (ofFiles files).nameOf =
      e.path.chain.dropLast.map Prod.fst := by
    have hmapped := congrArg (List.map fun piece ↦ (piece.map Prod.fst).getD "") haround
    rw [henclosing, funext (nameOf_eq (ofFiles files))]
    simp only [List.map_map] at hmapped ⊢
    exact hmapped
  have hchain :
      e.path.chain.map Prod.fst = e.path.chain.dropLast.map Prod.fst ++ [symbol.name] := by
    rw [← List.dropLast_append_getLast? _ hlast, List.map_append, List.dropLast_concat]
    rfl
  rw [hsame, hchain, ← hspace, ← hnames, ← List.append_assoc]
  unfold qualifiedName spaceOf enclosing nameOf
  rw [hsymbol]
  rfl

variable {files : List SourceFile} {s : Settings} {id : TypeId} {a : ClassAnalysis}
  {reports : List Diagnostic}

theorem isPartial_of_analyze (h : (ofFiles files).analyze s id = some (a, reports)) :
    a.isPartial = (ofFiles files).isPartialChain id := by
  obtain ⟨symbol, -, heq⟩ := Option.map_eq_some_iff.mp h
  have ha : (ofFiles files).analysisOf s id symbol = a := congrArg Prod.fst heq
  rw [← ha]
  rfl

/-- A type without declarations is not partial. -/
theorem sites_ne_nil_of_isPartialType (h : (ofFiles files).isPartialType id = true) :
    ∀ symbol, (ofFiles files).symbol? id = some symbol → symbol.sites ≠ [] := by
  intro symbol hsymbol hnone
  rw [isPartialType, hsymbol, Option.map_some, Option.getD_some, Symbol.isPartial, hnone] at h
  cases h

/-- What is known about a declared class says its path. -/
theorem path_of_analyze (h : (ofFiles files).analyze s id = some (a, reports))
    (hsites : ∀ symbol, (ofFiles files).symbol? id = some symbol → symbol.sites ≠ []) :
    ∃ d ∈ SourceFile.allDeclarations 0 files, id = idAmong files d ∧
      a.namespaceName =
        (if d.path.space.isEmpty then none else some (joinWith "." d.path.space)) ∧
      a.containingTypes.map (fun t ↦ (t.name, t.typeParams.length)) ++
        [(a.className, a.typeParams.length)] = d.path.chain := by
  obtain ⟨symbol, hsymbol, heq⟩ := Option.map_eq_some_iff.mp h
  obtain ⟨d, hd, hid, hspace, henclosing, hlast⟩ := exists_founder hsymbol (hsites symbol hsymbol)
  have ha : (ofFiles files).analysisOf s id symbol = a := congrArg Prod.fst heq
  have haround : a.containingTypes.map (fun t ↦ (t.name, t.typeParams.length)) =
      d.path.chain.dropLast := by
    have henclosed : (ofFiles files).enclosing id = symbol.enclosing := by
      rw [enclosing, hsymbol]
      rfl
    rw [← ha, analysisOf, map_containingTypes, henclosed, henclosing]
    exact filterMap_pieceOf fun q hq ↦ Declaration.mem_map_path_founders.mp
      ((SourceFile.closed_allDeclarations _).around_subset hd q hq)
  have hclass : d.path.chain.getLast? = some (a.className, a.typeParams.length) := by
    rw [hlast, ← ha]
    rfl
  refine ⟨d, hd, hid, ?_, ?_⟩
  · rw [← ha, analysisOf, hspace]
  · rw [haround, List.dropLast_append_getLast? _ hclass]

end Compilation
end Companion
