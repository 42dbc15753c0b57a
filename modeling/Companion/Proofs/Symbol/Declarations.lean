import Companion.Proofs.Symbol.TypePaths

/-!
The table of files in closed form. The declarations of files make up a list that no table is needed
for, and the table of the files has the symbols of that list (`Table.ofFiles_eq`). So a symbol is
one known beforehand or that of a path (`Declaration.getElem?_symbols`), and the last declaration of
a file at a place leads to the symbol of its path (`Compilation.idOf_ofFiles`,
`Compilation.idOf_of_mem_sites`).
-/

set_option autoImplicit false
set_option relaxedAutoImplicit false

namespace Companion

/-! ### All declarations -/

open Declaration

mutual

theorem Table.addType_eq (t : Table) (file : Nat) (outside : Scope) (space : Space) :
    ∀ (d : TypeDecl) (chain : List (String × Nat)) (ds : List Declaration), Closed ds →
      (∀ p ∈ (TypePath.mk space chain).types, p ∈ ds.map path) →
      (tableWith t ds).addType file (scopeAmong (founders ds) ⟨space, chain⟩ outside) space
          ((TypePath.mk space chain).types.map (idAmong (founders ds))) d =
        tableWith t (ds ++ d.declarations file outside space chain) ∧
      Closed (ds ++ d.declarations file outside space chain)
  | .mk h ms, chain, ds, hclosed, haround => by
    obtain ⟨d, hd⟩ : ∃ d : Declaration,
        d = ⟨file, .mk h ms, ⟨space, chain ++ [(h.name, h.arity)]⟩, outside⟩ := ⟨_, rfl⟩
    have hpath : d.path = ⟨space, chain ++ [(h.name, h.arity)]⟩ := by rw [hd]
    have hend : d.path =
        ⟨d.path.space, chain ++ [(d.decl.header.name, d.decl.header.arity)]⟩ := by rw [hd]; rfl
    have hdeclare := hclosed.declare_eq t hend
      (by rw [hd]; exact fun p hp ↦ mem_map_path_founders.mpr (haround p hp))
    have hclosed' := hclosed.concat hend (by rw [hd]; exact haround)
    have hmore : ∀ p ∈ (TypePath.mk space (chain ++ [(h.name, h.arity)])).types,
        p ∈ (ds ++ [d]).map path := by
      intro p hp
      rw [TypePath.types_concat, ← hpath] at hp
      rw [List.map_append]
      exact (List.mem_append.mp hp).elim (fun hp ↦ List.mem_append_left _ (haround p hp))
        (List.mem_append_right _)
    obtain ⟨heq, hclosed''⟩ := Table.addMembers_eq t file outside space ms
      (chain ++ [(h.name, h.arity)]) _ hclosed' hmore
    have hstay := map_idAmong_append [d] haround
    rw [scopeAmong, TypePath.types_concat, List.map_append, hstay, List.map_singleton,
      List.reverse_concat, ← hpath] at heq
    have hall : ds ++ TypeDecl.declarations file outside space chain (.mk h ms) =
        ds ++ [d] ++ Member.declarations file outside space (chain ++ [(h.name, h.arity)]) ms := by
      rw [TypeDecl.declarations, ← hd, List.append_cons]
    rw [hd] at hdeclare
    rw [Table.addType_mk, hdeclare, hall, ← hd]
    exact ⟨heq, hclosed''⟩

theorem Table.addMembers_eq (t : Table) (file : Nat) (outside : Scope) (space : Space) :
    ∀ (ms : List Member) (chain : List (String × Nat)) (ds : List Declaration), Closed ds →
      (∀ p ∈ (TypePath.mk space chain).types, p ∈ ds.map path) →
      (tableWith t ds).addMembers file (scopeAmong (founders ds) ⟨space, chain⟩ outside) space
          ((TypePath.mk space chain).types.map (idAmong (founders ds))) ms =
        tableWith t (ds ++ Member.declarations file outside space chain ms) ∧
      Closed (ds ++ Member.declarations file outside space chain ms)
  | [], chain, ds, hclosed, _ => by
    rw [Member.declarations, List.append_nil]
    exact ⟨rfl, hclosed⟩
  | .type d :: ms, chain, ds, hclosed, haround => by
    obtain ⟨heq, hclosed'⟩ := Table.addType_eq t file outside space d chain ds hclosed haround
    have hstay := map_idAmong_append (d.declarations file outside space chain) haround
    have hmore : ∀ p ∈ (TypePath.mk space chain).types,
        p ∈ (ds ++ d.declarations file outside space chain).map path := fun p hp ↦ by
      rw [List.map_append]
      exact List.mem_append_left _ (haround p hp)
    obtain ⟨heq', hclosed''⟩ := Table.addMembers_eq t file outside space ms chain _ hclosed' hmore
    rw [scopeAmong, hstay] at heq'
    rw [Table.addMembers, heq, Member.declarations, ← List.append_assoc]
    exact ⟨heq', hclosed''⟩
  | .field _ :: ms, chain, ds, hclosed, haround => by
    rw [Table.addMembers, Member.declarations]
    exact Table.addMembers_eq t file outside space ms chain ds hclosed haround
  | .other _ :: ms, chain, ds, hclosed, haround => by
    rw [Table.addMembers, Member.declarations]
    exact Table.addMembers_eq t file outside space ms chain ds hclosed haround

end

mutual

theorem Table.addItem_eq (file : Nat) :
    ∀ (i : Item) (scope : Scope) (space : Space) (t : Table) (ds : List Declaration), Closed ds →
      (tableWith t ds).addItem file scope space i =
        tableWith { t with spaces := t.spaces ++ i.spaces scope space }
          (ds ++ i.declarations file scope space) ∧
      Closed (ds ++ i.declarations file scope space)
  | .namespaceDecl h items, scope, space, t, ds, hclosed => by
    obtain ⟨heq, hclosed'⟩ := Table.addItems_eq file items
      (Table.openSpace scope space h.usings h.parts).2.1
      (Table.openSpace scope space h.usings h.parts).2.2
      { t with spaces := t.spaces ++ (Table.openSpace scope space h.usings h.parts).1 } ds hclosed
    rw [List.append_assoc] at heq
    exact ⟨heq, hclosed'⟩
  | .typeDecl d, scope, space, t, ds, hclosed => by
    obtain ⟨heq, hclosed'⟩ :=
      Table.addType_eq t file scope space d [] ds hclosed (by simp [TypePath.types])
    rw [Item.spaces, List.append_nil]
    exact ⟨heq, hclosed'⟩

theorem Table.addItems_eq (file : Nat) :
    ∀ (is : List Item) (scope : Scope) (space : Space) (t : Table) (ds : List Declaration),
      Closed ds →
      (tableWith t ds).addItems file scope space is =
        tableWith { t with spaces := t.spaces ++ Item.allSpaces scope space is }
          (ds ++ Item.allDeclarations file scope space is) ∧
      Closed (ds ++ Item.allDeclarations file scope space is)
  | [], scope, space, t, ds, hclosed => by
    rw [Item.allDeclarations, Item.allSpaces, List.append_nil, List.append_nil]
    exact ⟨rfl, hclosed⟩
  | i :: is, scope, space, t, ds, hclosed => by
    obtain ⟨heq, hclosed'⟩ := Table.addItem_eq file i scope space t ds hclosed
    obtain ⟨heq', hclosed''⟩ := Table.addItems_eq file is scope space
      { t with spaces := t.spaces ++ i.spaces scope space } _ hclosed'
    rw [Table.addItems, heq, Item.allDeclarations, Item.allSpaces, ← List.append_assoc,
      ← List.append_assoc]
    exact ⟨heq', hclosed''⟩

end

theorem Table.addFiles_eq :
    ∀ (files : List SourceFile) (first : Nat) (t : Table) (ds : List Declaration), Closed ds →
      (tableWith t ds).addFiles first files =
        tableWith { t with
          spaces := t.spaces ++ files.flatMap SourceFile.spaces
          globalUsings := t.globalUsings ++ files.flatMap fun f ↦ f.usings.filter (·.isGlobal) }
          (ds ++ SourceFile.allDeclarations first files) ∧
      Closed (ds ++ SourceFile.allDeclarations first files)
  | [], first, t, ds, hclosed => by
    simp only [SourceFile.allDeclarations, List.append_nil, List.flatMap_nil]
    exact ⟨rfl, hclosed⟩
  | f :: fs, first, t, ds, hclosed => by
    obtain ⟨heq, hclosed'⟩ := Table.addItems_eq first f.items [.unit f.usings] []
      { t with globalUsings := t.globalUsings ++ f.usings.filter (·.isGlobal) } ds hclosed
    obtain ⟨heq', hclosed''⟩ := Table.addFiles_eq fs (first + 1) _ _ hclosed'
    have hfile : (tableWith t ds).addFile first f = _ := heq
    rw [SourceFile.allDeclarations, ← List.append_assoc]
    refine ⟨?_, hclosed''⟩
    rw [Table.addFiles, hfile]
    simp only [List.flatMap_cons, ← List.append_assoc]
    exact heq'

theorem Declaration.closed_nil : Closed [] := fun _ h ↦ by cases h

/-- The table of files is the table with their declarations. -/
theorem Table.ofFiles_eq (files : List SourceFile) :
    Table.ofFiles files =
      ⟨Declaration.symbols (SourceFile.allDeclarations 0 files),
        Table.initial.spaces ++ files.flatMap SourceFile.spaces,
        files.flatMap fun f ↦ f.usings.filter (·.isGlobal),
        Declaration.places (SourceFile.allDeclarations 0 files)⟩ :=
  (Table.addFiles_eq files 0 Table.initial [] closed_nil).1

theorem SourceFile.closed_allDeclarations (files : List SourceFile) :
    Closed (SourceFile.allDeclarations 0 files) :=
  (Table.addFiles_eq files 0 Table.initial [] closed_nil).2

/-! ### Looking up symbols -/

namespace Declaration

variable {ds : List Declaration} {d : Declaration} {id : TypeId} {symbol : Symbol}

/-- The symbol of a path is that of its founder. -/
theorem getElem?_idAmong (hd : d ∈ founders ds) :
    (symbols ds)[idAmong (founders ds) d.path]? = some (symbolAmong (founders ds) ds d) := by
  obtain ⟨i, hi, rfl⟩ := List.getElem_of_mem hd
  rw [idAmong, idxOf_path_founders hi, symbols, ← length_initial,
    List.getElem?_append_right (Nat.le_add_right _ _), Nat.add_sub_cancel_left, List.getElem?_map,
    List.getElem?_eq_getElem hi]
  rfl

/-- A symbol is one known beforehand or that of a founder. -/
theorem getElem?_symbols (h : (symbols ds)[id]? = some symbol) :
    (id < TypeId.firstDeclared ∧ Table.initial.symbols[id]? = some symbol) ∨
      ∃ d ∈ founders ds, id = idAmong (founders ds) d.path ∧
        symbol = symbolAmong (founders ds) ds d := by
  rw [symbols, List.getElem?_append, length_initial] at h
  split at h
  · rename_i hid
    exact .inl ⟨hid, h⟩
  · rename_i hid
    obtain ⟨k, rfl⟩ := Nat.exists_eq_add_of_le (Nat.not_lt.mp hid)
    rw [Nat.add_sub_cancel_left, List.getElem?_map, Option.map_eq_some_iff] at h
    obtain ⟨d, hd, rfl⟩ := h
    obtain ⟨hlt, rfl⟩ := List.getElem?_eq_some_iff.mp hd
    refine .inr ⟨_, List.getElem_mem hlt, ?_, rfl⟩
    rw [idAmong, idxOf_path_founders hlt]

end Declaration

namespace Compilation

variable {files : List SourceFile} {id : TypeId} {symbol : Symbol}

/-- The declaration that stands for a place is the last one of the file there. -/
theorem idOf_ofFiles (files : List SourceFile) (file : Nat) (place : Span) :
    (ofFiles files).idOf file place =
      ((SourceFile.allDeclarations 0 files).reverse.find? fun d ↦
        (file, place) == (d.file, d.decl.header.span)).map
          fun d ↦ idAmong (founders (SourceFile.allDeclarations 0 files)) d.path := by
  have hplaces : (ofFiles files).table.places = places (SourceFile.allDeclarations 0 files) :=
    congrArg Table.places (Table.ofFiles_eq files)
  rw [idOf, hplaces, places, ← List.map_reverse]
  induction (SourceFile.allDeclarations 0 files).reverse with
  | nil => rfl
  | cons d ds ih =>
    rw [List.map_cons, List.lookup_cons, List.find?_cons, ih]
    split <;> simp [*]

/-- The symbol of a founder lies in the types around it, and all declarations of its path are its
sites. -/
theorem exists_symbol_of_mem_founders {e : Declaration}
    (he : e ∈ founders (SourceFile.allDeclarations 0 files)) :
    ∃ symbol, (ofFiles files).symbol?
        (idAmong (founders (SourceFile.allDeclarations 0 files)) e.path) = some symbol ∧
      symbol.enclosing =
        e.path.around.map (idAmong (founders (SourceFile.allDeclarations 0 files))) ∧
      symbol.sites = ((SourceFile.allDeclarations 0 files).filter (·.path = e.path)).map
        (siteAmong (founders (SourceFile.allDeclarations 0 files))) := by
  rw [symbol?_ofFiles, Table.ofFiles_eq, getElem?_idAmong he, Option.map_some]
  exact ⟨_, rfl, rfl, rfl⟩

/-- The site of a declaration belongs to the symbol of its path. -/
theorem exists_symbol_of_mem_declarations {d : Declaration}
    (hd : d ∈ SourceFile.allDeclarations 0 files) :
    ∃ symbol, (ofFiles files).symbol?
        (idAmong (founders (SourceFile.allDeclarations 0 files)) d.path) = some symbol ∧
      siteAmong (founders (SourceFile.allDeclarations 0 files)) d ∈ symbol.sites := by
  obtain ⟨e, he, hpath⟩ := List.mem_map.mp (mem_map_path_founders.mpr (List.mem_map_of_mem hd))
  obtain ⟨symbol, hsymbol, -, hsites⟩ := exists_symbol_of_mem_founders he
  refine ⟨symbol, hpath ▸ hsymbol, ?_⟩
  rw [hsites]
  exact List.mem_map_of_mem (List.mem_filter.mpr ⟨hd, decide_eq_true hpath.symm⟩)

/-- The declarations of a symbol lead back to it, if no two declarations of a file share a span. -/
theorem idOf_of_mem_sites
    (hspans : ∀ f ∈ files, ((Item.allTypes f.items).flatMap fun d ↦ [d.header.span]).Nodup)
    (hsymbol : (ofFiles files).symbol? id = some symbol) {site : Site}
    (hsite : site ∈ symbol.sites) :
    (ofFiles files).idOf site.file site.decl.header.span = some id := by
  obtain ⟨s, hs, hsites, -⟩ := eq_withBases_of_symbol? hsymbol
  rw [Table.ofFiles_eq] at hs
  rcases getElem?_symbols hs with ⟨hknown, -⟩ | ⟨founder, -, -, rfl⟩
  · rw [sites_eq_nil_of_lt hsymbol hknown] at hsite
    cases hsite
  have hmade := hsites ▸ hsite
  obtain ⟨d, hd, rfl⟩ := List.mem_map.mp hmade
  have hhere : ∃ e ∈ (SourceFile.allDeclarations 0 files).reverse,
      (d.file, d.decl.header.span) == (e.file, e.decl.header.span) :=
    ⟨d, List.mem_reverse.mpr (List.mem_of_mem_filter hd), beq_self_eq_true _⟩
  obtain ⟨e, hfound⟩ := Option.isSome_iff_exists.mp (List.find?_isSome.mpr hhere)
  have hsame := List.find?_some hfound
  obtain ⟨hfile, hspan⟩ := Prod.mk.inj (eq_of_beq hsame)
  obtain ⟨symbol', hsymbol', hsite'⟩ := exists_symbol_of_mem_declarations
    (List.mem_reverse.mp (List.mem_of_find?_eq_some hfound))
  rw [idOf_ofFiles]
  refine (congrArg _ hfound).trans (congrArg some ?_)
  exact eq_of_mem_sites hspans hsymbol' hsymbol hsite' hsite hfile.symm
    (List.mem_singleton_self _) (List.mem_singleton.mpr hspan.symm)

end Compilation

end Companion
