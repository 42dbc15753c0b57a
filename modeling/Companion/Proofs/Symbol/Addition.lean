import Companion.Proofs.Symbol.FileOrder
import Companion.Proofs.Symbol.Known
import Companion.Proofs.Symbol.Sight

/-!
One more file behind the others. If no type, type parameter or namespace piece that it declares goes
by an identifier of the other files, and if it has no global directives (`SourceFile.Unrelated`),
then the table grows at its end only, and it answers as before whatever the other files can ask. So
their references stand for the same types (`SourceFile.Unrelated.resolve_bare`), and their types
have the same bases (`SourceFile.Unrelated.basesOf_eq`).
-/

set_option autoImplicit false
set_option relaxedAutoImplicit false

namespace Companion

/-! ### Identifiers of files -/

mutual

/-- The directives in an item. -/
def Item.usings : Item → List Using
  | .namespaceDecl h items => h.usings ++ Item.allUsings items
  | .typeDecl _ => []

def Item.allUsings : List Item → List Using
  | [] => []
  | i :: is => i.usings ++ Item.allUsings is

end

namespace TypeDecl

/-- The identifiers that a declaration gives to itself and its parameters. -/
def declaredNames (d : TypeDecl) : List String :=
  d.header.name :: d.header.typeParams.map (·.name)

/-- The types that are written in a declaration, apart from those nested in it. -/
def references (d : TypeDecl) : List TypeRef := d.header.bases ++ d.fields.map (·.type)

end TypeDecl

namespace SourceFile

/-- The directives of a file, those in its namespaces included. -/
def allUsings (f : SourceFile) : List Using := f.usings ++ Item.allUsings f.items

/-- The identifiers of declared types, type parameters and pieces of namespaces. -/
def declaredNames (f : SourceFile) : List String :=
  Item.allPieces f.items ++ (Item.allTypes f.items).flatMap TypeDecl.declaredNames

/-- The types that are written in a file: targets of directives, bases and types of fields. -/
def references (f : SourceFile) : List TypeRef :=
  f.allUsings.map (·.target) ++ (Item.allTypes f.items).flatMap TypeDecl.references

/-- The identifiers of a file. -/
def names (f : SourceFile) : List String :=
  f.declaredNames ++ f.allUsings.filterMap (·.aliasName) ++ f.references.flatMap TypeRef.names

/-- A file declares nothing by an identifier of other files, and has no global directives. -/
structure Unrelated (files : List SourceFile) (added : SourceFile) : Prop where
  notGlobal : ∀ u ∈ added.usings, u.isGlobal = false
  fresh : ∀ n ∈ added.declaredNames, ∀ f ∈ files, n ∉ f.names

end SourceFile

/-- A scope in some files: with their directives and their types around it. -/
structure Scope.WrittenIn (files : List SourceFile) (scope : Scope) : Prop where
  usings : ∀ level ∈ scope, ∀ u ∈ level.usings, ∃ f ∈ files, u ∈ f.allUsings
  types : ∀ id ∈ scope.types, id < (Table.ofFiles files).symbols.length

/-! ### Scopes of declarations -/

/-- A property of all directives around a place. -/
def Scope.AllUsings (p : Using → Prop) (scope : Scope) : Prop :=
  ∀ level ∈ scope, ∀ u ∈ level.usings, p u

theorem Scope.AllUsings.openSpace {p : Using → Prop} {usings : List Using}
    (husings : ∀ u ∈ usings, p u) : ∀ (parts : List String) {scope : Scope} (outer : Space),
      scope.AllUsings p → Scope.AllUsings p (Table.openSpace scope outer usings parts).2.1
  | [], _, _, h => h
  | [_], _, _, h => List.forall_mem_cons.2 ⟨husings, h⟩
  | _ :: part :: rest, _, _, h =>
    Scope.AllUsings.openSpace husings (part :: rest) _
      (List.forall_mem_cons.2 ⟨fun _ hu ↦ absurd hu List.not_mem_nil, h⟩)

mutual

theorem Item.allUsings_outside {p : Using → Prop} {file : Nat} {d : Declaration} :
    ∀ (i : Item) (scope : Scope) (space : Space), scope.AllUsings p → (∀ u ∈ i.usings, p u) →
      d ∈ i.declarations file scope space → d.outside.AllUsings p
  | .namespaceDecl h items, _, space, hscope, husings, hd =>
    Item.allUsings_outside_all items _ _
      (hscope.openSpace (fun u hu ↦ husings u (List.mem_append_left _ hu)) h.parts space)
      (fun u hu ↦ husings u (List.mem_append_right _ hu)) hd
  | .typeDecl t, _, _, hscope, _, hd => TypeDecl.outside_of_mem_declarations t [] hd ▸ hscope

theorem Item.allUsings_outside_all {p : Using → Prop} {file : Nat} {d : Declaration} :
    ∀ (is : List Item) (scope : Scope) (space : Space), scope.AllUsings p →
      (∀ u ∈ Item.allUsings is, p u) → d ∈ Item.allDeclarations file scope space is →
        d.outside.AllUsings p
  | [], _, _, _, _, hd => by cases hd
  | i :: is, scope, space, hscope, husings, hd => by
    rw [Item.allDeclarations] at hd
    rcases List.mem_append.mp hd with hd | hd
    · exact Item.allUsings_outside i scope space hscope
        (fun u hu ↦ husings u (List.mem_append_left _ hu)) hd
    · exact Item.allUsings_outside_all is scope space hscope
        (fun u hu ↦ husings u (List.mem_append_right _ hu)) hd

end

theorem Scope.NoType.types {scope : Scope} (h : scope.NoType) : scope.types = [] := by
  refine List.filterMap_eq_nil_iff.2 fun level hlevel ↦ ?_
  cases level with
  | type id => exact absurd hlevel (h id)
  | _ => rfl

namespace Declaration

variable {ds es : List Declaration} {d : Declaration}

/-! ### Declarations of new paths -/

/-- More declarations found more symbols, behind those that exist. -/
theorem founders_append (ds es : List Declaration) :
    ∃ more, founders (ds ++ es) = founders ds ++ more ∧ ∀ e ∈ more, e ∈ es := by
  obtain ⟨more, hmore⟩ := exists_founders_append ds es
  refine ⟨more, hmore, fun e he ↦ ?_⟩
  have hmem : e ∈ founders (ds ++ es) := hmore ▸ List.mem_append_right _ he
  refine (List.mem_append.1 (mem_founders hmem)).resolve_left fun hold ↦ ?_
  have hnodup := nodup_founders (ds ++ es)
  rw [hmore, List.map_append] at hnodup
  exact List.disjoint_of_nodup_append hnodup
    (mem_map_path_founders.2 (List.mem_map_of_mem hold)) (List.mem_map_of_mem he)

/-- The symbols that exist stay as they are. -/
theorem symbols_append (hclosed : Closed ds) (hfresh : ∀ e ∈ es, e.path ∉ ds.map path) :
    ∃ new, symbols (ds ++ es) = symbols ds ++ new ∧
      ∀ symbol ∈ new, ∃ e ∈ es, symbol.name = e.decl.header.name := by
  obtain ⟨more, hmore, hmem⟩ := founders_append ds es
  have hids {ps : List TypePath} (hps : ∀ p ∈ ps, p ∈ (founders ds).map path) :
      ps.map (idAmong (founders ds ++ more)) = ps.map (idAmong (founders ds)) := by
    rw [← hmore]
    exact map_idAmong_append es fun p hp ↦ mem_map_path_founders.1 (hps p hp)
  have hold : ∀ d ∈ founders ds, symbolAmong (founders ds ++ more) (ds ++ es) d =
      symbolAmong (founders ds) ds d := by
    intro d hd
    have hd := mem_founders hd
    have hnone : es.filter (·.path = d.path) = [] := by
      refine List.filter_eq_nil_iff.2 fun e he hpath ↦ hfresh e he ?_
      exact of_decide_eq_true hpath ▸ List.mem_map_of_mem hd
    have hsites : (ds.filter (·.path = d.path)).map (siteAmong (founders ds ++ more)) =
        (ds.filter (·.path = d.path)).map (siteAmong (founders ds)) := by
      refine List.map_congr_left fun e he ↦ ?_
      rw [siteAmong, siteAmong, hids (hclosed.types_subset (List.mem_filter.1 he).1)]
    rw [symbolAmong, symbolAmong, hids (hclosed.around_subset hd), List.filter_append, hnone,
      List.append_nil, hsites]
  refine ⟨more.map (symbolAmong (founders ds ++ more) (ds ++ es)), ?_, fun symbol hsymbol ↦ ?_⟩
  · rw [symbols, symbols, hmore, List.map_append, List.map_congr_left hold, List.append_assoc]
  · obtain ⟨e, he, rfl⟩ := List.mem_map.1 hsymbol
    exact ⟨e, hmem e he, rfl⟩

end Declaration
/-! ### Namespaces -/

/-- Every namespace that a dotted declaration opens ends with one of its pieces. -/
theorem Table.exists_last_of_mem_openSpace {usings : List Using} {space : Space} :
    ∀ (parts : List String) {scope : Scope} {outer : Space},
      space ∈ (openSpace scope outer usings parts).1 →
        ∃ front, ∃ last ∈ parts, space = front ++ [last]
  | [], _, _, h => by cases h
  | [part], _, outer, h => ⟨outer, part, List.mem_cons_self, List.mem_singleton.1 h⟩
  | part :: next :: rest, _, outer, h => by
    rcases List.mem_cons.1 h with rfl | h
    · exact ⟨outer, part, List.mem_cons_self, rfl⟩
    · obtain ⟨front, last, hlast, heq⟩ := exists_last_of_mem_openSpace (next :: rest) h
      exact ⟨front, last, List.mem_cons_of_mem _ hlast, heq⟩

mutual

theorem Item.exists_last_of_mem_spaces {s : Space} :
    ∀ (i : Item) {scope : Scope} {space : Space}, s ∈ i.spaces scope space →
      ∃ front, ∃ last ∈ i.pieces, s = front ++ [last]
  | .namespaceDecl h items, scope, space, hs => by
    rcases List.mem_append.1 hs with hs | hs
    · obtain ⟨front, last, hlast, heq⟩ := Table.exists_last_of_mem_openSpace h.parts hs
      exact ⟨front, last, List.mem_append_left _ hlast, heq⟩
    · obtain ⟨front, last, hlast, heq⟩ := Item.exists_last_of_mem_allSpaces items hs
      exact ⟨front, last, List.mem_append_right _ hlast, heq⟩
  | .typeDecl _, _, _, hs => by cases hs

theorem Item.exists_last_of_mem_allSpaces {s : Space} :
    ∀ (is : List Item) {scope : Scope} {space : Space}, s ∈ Item.allSpaces scope space is →
      ∃ front, ∃ last ∈ Item.allPieces is, s = front ++ [last]
  | [], _, _, hs => by cases hs
  | i :: is, _, _, hs => by
    rcases List.mem_append.1 hs with hs | hs
    · obtain ⟨front, last, hlast, heq⟩ := Item.exists_last_of_mem_spaces i hs
      exact ⟨front, last, List.mem_append_left _ hlast, heq⟩
    · obtain ⟨front, last, hlast, heq⟩ := Item.exists_last_of_mem_allSpaces is hs
      exact ⟨front, last, List.mem_append_right _ hlast, heq⟩

end

theorem SourceFile.allDeclarations_append (files' : List SourceFile) :
    ∀ (files : List SourceFile) (first : Nat), allDeclarations first (files ++ files') =
      allDeclarations first files ++ allDeclarations (first + files.length) files'
  | [], _ => rfl
  | f :: fs, first => by
    rw [List.cons_append, allDeclarations, allDeclarations, allDeclarations_append files' fs,
      List.append_assoc, List.length_cons, Nat.add_assoc, Nat.add_comm 1]

theorem SourceFile.allDeclarations_concat (added : SourceFile) (files : List SourceFile)
    (first : Nat) : allDeclarations first (files ++ [added]) =
      allDeclarations first files ++ added.typeDeclarations (first + files.length) := by
  rw [allDeclarations_append, allDeclarations, allDeclarations, List.append_nil]

/-- A declaration of some files is written in one of them. -/
theorem SourceFile.exists_file_of_mem_allDeclarations {files : List SourceFile} {d : Declaration}
    (hd : d ∈ allDeclarations 0 files) :
    ∃ f, files[d.file]? = some f ∧ d ∈ f.typeDeclarations d.file ∧
      d.decl ∈ Item.allTypes f.items := by
  obtain ⟨i, f, hf, hmem⟩ := mem_allDeclarations_iff.1 hd
  obtain ⟨hfile, hdecl⟩ := mem_of_mem_typeDeclarations hmem
  rw [Nat.zero_add] at hfile hmem
  exact ⟨f, hfile ▸ hf, hfile ▸ hmem, hdecl⟩

/-- A declaration is found again as before, whatever file is added. -/
theorem Compilation.idOf_concat {files : List SourceFile} (added : SourceFile) {file : Nat}
    {place : Span} {id : TypeId} (hid : (ofFiles files).idOf file place = some id) :
    (ofFiles (files ++ [added])).idOf file place = some id := by
  rw [idOf_ofFiles] at hid ⊢
  obtain ⟨d, hd, rfl⟩ := Option.map_eq_some_iff.1 hid
  have hmem := List.mem_reverse.1 (List.mem_of_find?_eq_some hd)
  have hplace := List.find?_some hd
  obtain ⟨f, hf, -, -⟩ := SourceFile.exists_file_of_mem_allDeclarations hmem
  -- the added declarations stand in a file of their own
  have hnone : (added.typeDeclarations files.length).reverse.find? (fun e ↦
      (file, place) == (e.file, e.decl.header.span)) = none := by
    refine List.find?_eq_none.2 fun e he hsame ↦ ?_
    have hfile := (SourceFile.mem_of_mem_typeDeclarations (List.mem_reverse.1 he)).1
    have hother := (Prod.mk.inj (eq_of_beq hsame)).1.symm.trans (Prod.mk.inj (eq_of_beq hplace)).1
    have hlt := (List.getElem?_eq_some_iff.1 hf).1
    exact absurd hlt (by rw [← hother, hfile]; exact Nat.lt_irrefl _)
  have hpath : ∀ p ∈ [d.path], p ∈ (SourceFile.allDeclarations 0 files).map Declaration.path :=
    List.forall_mem_singleton.2 (List.mem_map_of_mem hmem)
  have hkept := Declaration.map_idAmong_append (added.typeDeclarations files.length) hpath
  rw [SourceFile.allDeclarations_concat, Nat.zero_add, List.reverse_append, List.find?_append,
    hnone, Option.none_or, hd, Option.map_some]
  exact congrArg some (List.singleton_inj.1 hkept)

/-- The directives around a declaration are those of its file. -/
theorem SourceFile.allUsings_outside {f : SourceFile} {file : Nat} {d : Declaration}
    (hd : d ∈ f.typeDeclarations file) : d.outside.AllUsings (· ∈ f.allUsings) := by
  have hunit : Scope.AllUsings (· ∈ f.allUsings) [.unit f.usings] := by
    intro level hlevel u hu
    rw [List.mem_singleton.1 hlevel] at hu
    exact List.mem_append_left _ hu
  exact Item.allUsings_outside_all f.items _ _ hunit (fun u hu ↦ List.mem_append_right _ hu) hd

theorem SourceFile.hasSpace_nil (files : List SourceFile) :
    (Table.ofFiles files).hasSpace [] = true := by
  rw [Table.ofFiles_eq]
  exact List.contains_iff_mem.2 (List.mem_append_left _ List.mem_cons_self)

theorem TypeDecl.name_mem_declaredNames {f : SourceFile} {d : TypeDecl}
    (hd : d ∈ Item.allTypes f.items) : d.header.name ∈ f.declaredNames :=
  List.mem_append_right _ (List.mem_flatMap.2 ⟨d, hd, List.mem_cons_self⟩)

/-! ### Sites -/

theorem Declaration.writtenIn_body {files : List SourceFile} {d : Declaration}
    (hd : d ∈ SourceFile.allDeclarations 0 files) :
    (siteAmong (founders (SourceFile.allDeclarations 0 files)) d).body.WrittenIn files := by
  have houtside : d.outside.NoType := SourceFile.noType_of_mem_allDeclarations hd
  constructor
  · intro level hlevel u hu
    rcases List.mem_append.1 hlevel with hlevel | hlevel
    · obtain ⟨id, -, rfl⟩ := List.mem_map.1 hlevel
      cases hu
    · obtain ⟨f, hf, hmem, -⟩ := SourceFile.exists_file_of_mem_allDeclarations hd
      exact ⟨f, List.mem_of_getElem? hf, SourceFile.allUsings_outside hmem level hlevel u hu⟩
  · intro id hid
    have htypes : id ∈ d.path.types.map
        (idAmong (founders (SourceFile.allDeclarations 0 files))) := by
      rw [siteAmong, Scope.types, List.filterMap_append, List.filterMap_map] at hid
      rcases List.mem_append.1 hid with hid | hid
      · obtain ⟨i, hi, heq⟩ := List.mem_filterMap.1 hid
        exact Option.some.inj heq ▸ List.mem_reverse.1 hi
      · have hnone : id ∈ Scope.types d.outside := hid
        rw [houtside.types] at hnone
        cases hnone
    obtain ⟨p, hp, rfl⟩ := List.mem_map.1 htypes
    have hfounder := (SourceFile.closed_allDeclarations files).types_subset hd p hp
    rw [Table.ofFiles_eq]
    change _ < (symbols _).length
    rw [symbols, List.length_append, length_initial, List.length_map, idAmong]
    exact Nat.add_lt_add_left (List.length_map path ▸ List.idxOf_lt_length_of_mem hfounder) _

/-- A site stands in one of the files, in a scope of theirs. -/
theorem Compilation.writtenIn_of_mem_sites {files : List SourceFile} {id : TypeId}
    {symbol : Symbol} (h : (ofFiles files).symbol? id = some symbol) {site : Site}
    (hsite : site ∈ symbol.sites) : site.body.WrittenIn files ∧
      ∃ f, files[site.file]? = some f ∧ site.decl ∈ Item.allTypes f.items := by
  rcases symbol?_cases h with ⟨-, hinitial⟩ | ⟨d, -, -, -, hsites⟩
  · rw [(enclosing_eq_nil_of_lt hinitial).2] at hsite
    cases hsite
  · rw [hsites] at hsite
    obtain ⟨e, he, rfl⟩ := List.mem_map.1 hsite
    have he := (List.mem_filter.1 he).1
    obtain ⟨f, hf, -, hdecl⟩ := SourceFile.exists_file_of_mem_allDeclarations he
    exact ⟨Declaration.writtenIn_body he, f, hf, hdecl⟩

namespace SourceFile.Unrelated

variable {files : List SourceFile} {added : SourceFile} (h : Unrelated files added)
include h

/-! ### The table -/

theorem names_of_reference {f : SourceFile} (hf : f ∈ files) {r : TypeRef}
    (hr : r ∈ f.references) : ∀ n ∈ r.names, n ∉ added.declaredNames :=
  fun n hn hdeclared ↦ h.fresh n hdeclared f hf
    (List.mem_append_right _ (List.mem_flatMap.2 ⟨r, hr, hn⟩))

theorem names_of_using {f : SourceFile} (hf : f ∈ files) {u : Using} (hu : u ∈ f.allUsings) :
    ∀ n ∈ u.target.names, n ∉ added.declaredNames :=
  h.names_of_reference hf (List.mem_append_left _ (List.mem_map_of_mem hu))

/-- The table with the added file is the table without it, and more behind. -/
theorem ofFiles_append : ∃ new spaces places,
    Table.ofFiles (files ++ [added]) = ⟨(Table.ofFiles files).symbols ++ new,
      (Table.ofFiles files).spaces ++ spaces, (Table.ofFiles files).globalUsings, places⟩ ∧
    (∀ symbol ∈ new, symbol.name ∈ added.declaredNames) ∧
    ∀ space ∈ spaces, ∃ front, ∃ last ∈ added.declaredNames, space = front ++ [last] := by
  have hfresh : ∀ e ∈ added.typeDeclarations files.length,
      e.path ∉ (allDeclarations 0 files).map Declaration.path := by
    intro e he hpath
    obtain ⟨d, hd, heq⟩ := List.mem_map.1 hpath
    obtain ⟨f, hf, -, hdecl⟩ := exists_file_of_mem_allDeclarations hd
    have hclosed := closed_allDeclarations (files ++ [added])
    rw [allDeclarations_concat, Nat.zero_add] at hclosed
    obtain ⟨chain, hchain, -⟩ := hclosed d (List.mem_append_left _ hd)
    obtain ⟨chain', hchain', -⟩ := hclosed e (List.mem_append_right _ he)
    rw [hchain, hchain', TypePath.mk.injEq] at heq
    have hname : d.decl.header.name = e.decl.header.name :=
      (Prod.mk.inj (List.singleton_inj.1 (List.append_inj' heq.2 rfl).2)).1
    refine h.fresh _ (TypeDecl.name_mem_declaredNames (mem_of_mem_typeDeclarations he).2) f
      (List.mem_of_getElem? hf) ?_
    exact hname ▸ List.mem_append_left _
      (List.mem_append_left _ (TypeDecl.name_mem_declaredNames hdecl))
  obtain ⟨new, hsymbols, hnames⟩ :=
    Declaration.symbols_append (closed_allDeclarations files) hfresh
  refine ⟨new, added.spaces, (Table.ofFiles (files ++ [added])).places, ?_,
    fun symbol hsymbol ↦ ?_, fun space hspace ↦ ?_⟩
  · have hglobals : (added.usings.filter fun u ↦ u.isGlobal) = [] :=
      List.filter_eq_nil_iff.2 fun u hu ↦ by rw [h.notGlobal u hu]; exact Bool.false_ne_true
    rw [Table.ofFiles_eq, Table.ofFiles_eq, allDeclarations_concat, Nat.zero_add, hsymbols]
    simp only [List.flatMap_append, List.flatMap_singleton, hglobals, List.append_nil,
      List.append_assoc]
  · obtain ⟨e, he, hname⟩ := hnames symbol hsymbol
    rw [hname]
    exact TypeDecl.name_mem_declaredNames (mem_of_mem_typeDeclarations he).2
  · obtain ⟨front, last, hlast, heq⟩ := Item.exists_last_of_mem_allSpaces added.items hspace
    exact ⟨front, last, List.mem_append_left _ hlast, heq⟩

/-- Nothing that the other files can ask is answered otherwise. -/
theorem agrees : (Table.ofFiles files).Agrees (· ∉ added.declaredNames)
    (Table.ofFiles (files ++ [added])) := by
  obtain ⟨new, spaces, _, heq, hnames, hspaces⟩ := h.ofFiles_append
  refine ⟨fun key hkey ↦ ?find?, fun space ident hident ↦ ?hasSpace, ?hasRoot, ?globalUsings,
    fun u hu ↦ ?globalNames⟩
  case find? =>
    have hother : ∀ symbol ∈ new, symbol.key ≠ key := by
      rintro symbol hsymbol rfl
      refine hkey ?_
      have hname : symbol.key.name = symbol.name := by
        rw [Symbol.key]
        cases symbol.container <;> rfl
      exact hname ▸ hnames symbol hsymbol
    rw [heq, Table.find?, Table.lastWithKey_append, Table.lastWithKey_of_forall_ne hother]
    rfl
  case hasSpace =>
    have hother : space ++ [ident] ∉ spaces := by
      intro hmem
      obtain ⟨front, last, hlast, hsame⟩ := hspaces _ hmem
      exact hident (List.singleton_inj.1 (List.append_inj' hsame rfl).2 ▸ hlast)
    rw [heq, Bool.eq_iff_iff, Table.hasSpace, Table.hasSpace, List.contains_iff_mem,
      List.contains_iff_mem, List.mem_append, or_iff_left hother]
  case hasRoot => rw [hasSpace_nil, hasSpace_nil]
  case globalUsings => rw [heq]
  case globalNames =>
    rw [Table.ofFiles_eq] at hu
    obtain ⟨f, hf, hu⟩ := List.mem_flatMap.1 hu
    exact h.names_of_using hf (List.mem_append_left _ (List.mem_filter.1 hu).1)

theorem symbol?_eq {id : TypeId} (hid : id < (Table.ofFiles files).symbols.length) :
    (Table.ofFiles (files ++ [added])).symbol? id = (Table.ofFiles files).symbol? id := by
  obtain ⟨new, spaces, _, heq, -, -⟩ := h.ofFiles_append
  rw [heq]
  exact List.getElem?_append_left hid

theorem resolve_bare {scope : Scope} (hscope : scope.WrittenIn files) {r : TypeRef}
    (hr : ∀ n ∈ r.names, n ∉ added.declaredNames) :
    (Table.ofFiles (files ++ [added])).resolve scope r = (Table.ofFiles files).resolve scope r := by
  refine h.agrees.resolve (fun level hlevel u hu ↦ ?_) (fun id hid ↦ ?_) hr
  · obtain ⟨f, hf, hmem⟩ := hscope.usings level hlevel u hu
    exact h.names_of_using hf hmem
  · rw [h.symbol?_eq (hscope.types id hid)]

/-- The bases of a type are resolved as before. -/
theorem basesOf_eq {id : TypeId} {bare : Symbol}
    (hbare : (Table.ofFiles files).symbols[id]? = some bare) :
    (Table.ofFiles (files ++ [added])).basesOf bare = (Table.ofFiles files).basesOf bare := by
  have hsymbol := Compilation.symbol?_ofFiles files id
  rw [hbare, Option.map_some] at hsymbol
  refine Table.basesOf_congr rfl ?written fun w hw ↦ ?interface
  case written =>
    refine List.flatMap_congr fun site hsite ↦ ?_
    obtain ⟨hscope, f, hf, hdecl⟩ := Compilation.writtenIn_of_mem_sites hsymbol hsite
    refine List.ext_getElem (by simp) fun i hi hi' ↦ ?_
    rw [List.length_mapIdx] at hi
    rw [List.getElem_mapIdx, List.getElem_mapIdx, h.resolve_bare hscope (h.names_of_reference
      (List.mem_of_getElem? hf)
      (List.mem_append_right _ (List.mem_flatMap.2
        ⟨site.decl, hdecl, List.mem_append_left _ (List.getElem_mem hi)⟩)))]
  case interface =>
    obtain ⟨site, -, hwritten⟩ := List.mem_flatMap.1 hw
    obtain ⟨i, hi, rfl⟩ := List.mem_mapIdx.1 hwritten
    exact Table.isInterface_congr (Ty.WellFormed.below _
      (Table.wellFormed_resolve (Compilation.knowsPredefined_ofFiles files) site.body _))
      fun _ hid ↦ by rw [h.symbol?_eq hid]

/-- A type of the other files keeps its number, its declarations and its bases. -/
theorem symbol?_eq_some {id : TypeId} {symbol : Symbol}
    (hsymbol : (Compilation.ofFiles files).symbol? id = some symbol) :
    (Compilation.ofFiles (files ++ [added])).symbol? id = some symbol := by
  rw [Compilation.symbol?_ofFiles] at hsymbol ⊢
  obtain ⟨bare, hbare, rfl⟩ := Option.map_eq_some_iff.1 hsymbol
  have hkept : (Table.ofFiles (files ++ [added])).symbols[id]? = some bare :=
    (h.symbol?_eq (List.getElem?_eq_some_iff.1 hbare).1).trans hbare
  rw [hkept, Option.map_some, h.basesOf_eq hbare]

end SourceFile.Unrelated
end Companion
