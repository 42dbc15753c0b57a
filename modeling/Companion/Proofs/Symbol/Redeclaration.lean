import Companion.Proofs.Symbol.Addition
import Companion.Proofs.Symbol.Relocation

/-!
One more file that declares nothing new. If all its types and namespaces exist already, and if it
has no global directives, then the only trace of it is that its declarations are further sites of
the symbols they belong to. Every reference stands for what it stood for. A declaration stands in
the namespace of its path. So all declarations of one path have the same scope up to directives: if
these are hoisted to the top of their files, the scopes are the same.
-/

set_option autoImplicit false
set_option relaxedAutoImplicit false

namespace Companion

/-! ### Namespaces that are opened piece by piece -/

namespace Table

theorem openSpace_nil_cons (scope : Scope) (outer : Space) (part : String) (rest : List String) :
    openSpace scope outer [] (part :: rest) =
      ((outer ++ [part]) :: (openSpace (.space (outer ++ [part]) [] :: scope) (outer ++ [part]) []
          rest).1,
        (openSpace (.space (outer ++ [part]) [] :: scope) (outer ++ [part]) [] rest).2) := by
  cases rest with
  | nil => rfl
  | cons next rest => rfl

/-- A namespace may be opened in two steps, of which the second has the directives. -/
theorem openSpace_append (usings : List Using) {last : List String}
    (hlast : last ≠ [] ∨ usings = []) :
    ∀ (first : List String) (scope : Scope) (outer : Space),
      openSpace scope outer usings (first ++ last) =
        ((openSpace scope outer [] first).1 ++
            (openSpace (openSpace scope outer [] first).2.1 (outer ++ first) usings last).1,
          (openSpace (openSpace scope outer [] first).2.1 (outer ++ first) usings last).2)
  | [], scope, outer => by rw [List.append_nil]; rfl
  | part :: rest, scope, outer => by
    have hcons : openSpace scope outer usings (part :: rest ++ last) =
        ((outer ++ [part]) :: (openSpace (.space (outer ++ [part]) [] :: scope) (outer ++ [part])
            usings (rest ++ last)).1,
          (openSpace (.space (outer ++ [part]) [] :: scope) (outer ++ [part]) usings
            (rest ++ last)).2) := by
      rcases hlast with hlast | rfl
      · obtain ⟨next, more, hmore⟩ :=
          List.exists_cons_of_ne_nil (List.append_ne_nil_of_right_ne_nil rest hlast)
        rw [List.cons_append, hmore, openSpace_cons_cons]
      · exact openSpace_nil_cons ..
    rw [hcons, openSpace_append usings hlast rest, openSpace_nil_cons, List.append_assoc]
    rfl

/-- The namespaces that are opened have names that begin the whole name. -/
theorem mem_openSpace_iff {usings : List Using} {space : Space} :
    ∀ {parts : List String} {scope : Scope} {outer : Space},
      space ∈ (openSpace scope outer usings parts).1 ↔
        ∃ front, front ≠ [] ∧ front <+: parts ∧ space = outer ++ front
  | [], _, _ => by
    refine ⟨fun h ↦ absurd h List.not_mem_nil, ?_⟩
    rintro ⟨front, hne, hfront, -⟩
    exact absurd (List.prefix_nil.1 hfront) hne
  | [part], _, outer => by
    rw [openSpace, List.mem_singleton]
    constructor
    · rintro rfl
      exact ⟨[part], List.cons_ne_nil _ _, List.prefix_rfl, rfl⟩
    · rintro ⟨front, hne, hfront, rfl⟩
      obtain ⟨first, more, rfl⟩ := List.exists_cons_of_ne_nil hne
      obtain ⟨rfl, hmore⟩ := List.cons_prefix_cons.1 hfront
      rw [List.prefix_nil.1 hmore]
  | part :: next :: rest, _, outer => by
    rw [openSpace_cons_cons, List.mem_cons, mem_openSpace_iff]
    constructor
    · rintro (rfl | ⟨front, -, hfront, rfl⟩)
      · exact ⟨[part], List.cons_ne_nil _ _, ⟨_, rfl⟩, rfl⟩
      · exact ⟨part :: front, List.cons_ne_nil _ _, List.cons_prefix_cons.2 ⟨rfl, hfront⟩,
          List.append_assoc ..⟩
    · rintro ⟨front, hne, hfront, rfl⟩
      obtain ⟨first, more, rfl⟩ := List.exists_cons_of_ne_nil hne
      obtain ⟨rfl, hmore⟩ := List.cons_prefix_cons.1 hfront
      by_cases hnil : more = []
      · exact .inl (by rw [hnil])
      · exact .inr ⟨more, hnil, hmore, (List.append_assoc outer [first] more).symm⟩

end Table

/-! ### Scopes with hoisted directives -/

/-- A level without the directives of a namespace, or with other directives of the file. -/
def Level.hoisted (usings : List Using) : Level → Level
  | type id => type id
  | space name _ => space name []
  | unit _ => unit usings

/-- A scope with all its directives in front of the file: they are replaced by others there. -/
def Scope.hoisted (usings : List Using) (scope : Scope) : Scope := scope.map (Level.hoisted usings)

/-- A level without directives of its own, or with some in front of the file. -/
def Level.InFront (usings : List Using) : Level → Prop
  | type _ => True
  | space _ inner => inner = []
  | unit outer => outer.map Using.placeless = usings

/-- Directives that stand in front already can be hoisted. -/
theorem Table.resolve_hoisted (t : Table) {usings : List Using} {scope : Scope}
    (h : ∀ level ∈ scope, level.InFront usings) (r : TypeRef) :
    t.resolve (scope.hoisted usings) r = t.resolve scope r := by
  refine resolve_eq_of_placeless t ?_ rfl
  rw [Scope.hoisted, List.map_map]
  refine List.map_congr_left fun level hlevel ↦ ?_
  have hfront := h level hlevel
  cases level with
  | type id => rfl
  | space name inner =>
    obtain rfl : inner = [] := hfront
    rfl
  | unit outer =>
    obtain rfl : outer.map Using.placeless = usings := hfront
    exact (Level.unit outer).placeless_placeless

/-- The scope of a namespace in a file with directives in front only. -/
def Scope.plain (usings : List Using) (space : Space) : Scope :=
  (Table.openSpace [.unit usings] [] [] space).2.1

theorem Scope.plain_append (usings : List Using) (outer inner : Space) :
    Scope.plain usings (outer ++ inner) =
      (Table.openSpace (Scope.plain usings outer) outer [] inner).2.1 := by
  rw [Scope.plain, Table.openSpace_append [] (.inr rfl), List.nil_append]
  rfl

theorem Table.openSpace_hoisted (usings inner : List Using) :
    ∀ (parts : List String) (scope : Scope) (outer : Space),
      (openSpace scope outer inner parts).2.1.hoisted usings =
        (openSpace (scope.hoisted usings) outer [] parts).2.1
  | [], _, _ => rfl
  | [_], _, _ => rfl
  | part :: next :: rest, scope, outer =>
    openSpace_hoisted usings inner (next :: rest) (.space (outer ++ [part]) [] :: scope) _

mutual

theorem Item.hoisted_outside {usings : List Using} {file : Nat} {d : Declaration} :
    ∀ (i : Item) (scope : Scope) (space : Space), scope.hoisted usings = Scope.plain usings space →
      d ∈ i.declarations file scope space →
        d.outside.hoisted usings = Scope.plain usings d.path.space
  | .namespaceDecl h items, scope, space, hscope, hd => by
    rw [Item.declarations] at hd
    refine Item.hoisted_outside_all items _ _ ?_ hd
    rw [Table.openSpace_hoisted, Table.openSpace_space, hscope, Scope.plain_append]
  | .typeDecl t, scope, space, hscope, hd => by
    rw [TypeDecl.outside_of_mem_declarations t [] hd, TypeDecl.space_of_mem_declarations t [] hd,
      hscope]

theorem Item.hoisted_outside_all {usings : List Using} {file : Nat} {d : Declaration} :
    ∀ (is : List Item) (scope : Scope) (space : Space),
      scope.hoisted usings = Scope.plain usings space →
        d ∈ Item.allDeclarations file scope space is →
          d.outside.hoisted usings = Scope.plain usings d.path.space
  | [], _, _, _, hd => by cases hd
  | i :: is, scope, space, hscope, hd => by
    rw [Item.allDeclarations] at hd
    rcases List.mem_append.1 hd with hd | hd
    · exact Item.hoisted_outside i scope space hscope hd
    · exact Item.hoisted_outside_all is scope space hscope hd

end

/-- With hoisted directives, the scope of a declaration depends on its namespace only. -/
theorem SourceFile.hoisted_outside {files : List SourceFile} {d : Declaration}
    (hd : d ∈ allDeclarations 0 files) (usings : List Using) :
    d.outside.hoisted usings = Scope.plain usings d.path.space := by
  obtain ⟨f, -, hmem, -⟩ := exists_file_of_mem_allDeclarations hd
  exact Item.hoisted_outside_all f.items [.unit f.usings] [] rfl hmem

/-! ### Namespaces of declarations -/

mutual

theorem Item.mem_spaces_of_prefix {file : Nat} {d : Declaration} {s : Space} :
    ∀ (i : Item) (scope : Scope) (space : Space), d ∈ i.declarations file scope space →
      s <+: d.path.space → s <+: space ∨ s ∈ i.spaces scope space
  | .namespaceDecl h items, scope, space, hd, hs => by
    rw [Item.declarations] at hd
    rcases Item.mem_spaces_of_prefix_all items _ _ hd hs with hs | hs
    · rw [Table.openSpace_space] at hs
      rcases List.prefix_or_prefix_of_prefix hs (List.prefix_append space h.parts) with
        houter | ⟨front, rfl⟩
      · exact .inl houter
      · by_cases hnil : front = []
        · exact .inl (by rw [hnil, List.append_nil])
        · exact .inr (List.mem_append_left _ (Table.mem_openSpace_iff.2
            ⟨front, hnil, (List.prefix_append_right_inj space).1 hs, rfl⟩))
    · exact .inr (List.mem_append_right _ hs)
  | .typeDecl t, _, _, hd, hs => .inl (TypeDecl.space_of_mem_declarations t [] hd ▸ hs)

theorem Item.mem_spaces_of_prefix_all {file : Nat} {d : Declaration} {s : Space} :
    ∀ (is : List Item) (scope : Scope) (space : Space),
      d ∈ Item.allDeclarations file scope space is → s <+: d.path.space →
        s <+: space ∨ s ∈ Item.allSpaces scope space is
  | [], _, _, hd, _ => by cases hd
  | i :: is, scope, space, hd, hs => by
    rw [Item.allDeclarations] at hd
    rcases List.mem_append.1 hd with hd | hd
    · exact (Item.mem_spaces_of_prefix i scope space hd hs).imp_right (List.mem_append_left _)
    · exact (Item.mem_spaces_of_prefix_all is scope space hd hs).imp_right (List.mem_append_right _)

end

/-- The namespace of a declaration exists, and so do those around it. -/
theorem SourceFile.hasSpace_of_prefix {files : List SourceFile} {d : Declaration}
    (hd : d ∈ allDeclarations 0 files) {s : Space} (hs : s <+: d.path.space) :
    (Table.ofFiles files).hasSpace s = true := by
  obtain ⟨f, hf, hmem, -⟩ := exists_file_of_mem_allDeclarations hd
  rcases Item.mem_spaces_of_prefix_all f.items [.unit f.usings] [] hmem hs with hnil | hspace
  · rw [List.prefix_nil.1 hnil, hasSpace_nil]
  · rw [Table.ofFiles_eq]
    exact List.contains_iff_mem.2
      (List.mem_append_right _ (List.mem_flatMap.2 ⟨f, List.mem_of_getElem? hf, hspace⟩))

/-! ### Declarations of known paths -/

/-- Symbols are found by their keys. -/
theorem Table.lastWithKey_congr {key : Key} :
    ∀ {l l' : List Symbol} (first : TypeId), l'.map Symbol.key = l.map Symbol.key →
      lastWithKey key first l' = lastWithKey key first l
  | [], l', first, h => by rw [List.map_eq_nil_iff.1 h]
  | s :: ss, l', first, h => by
    obtain ⟨s', ss', rfl, hs, hss⟩ := List.map_eq_cons_iff.1 h
    rw [lastWithKey, lastWithKey, lastWithKey_congr (first + 1) hss, hs]

namespace Declaration

variable {ds es : List Declaration}

theorem founders_append_of_subset (h : ∀ e ∈ es, e.path ∈ ds.map path) :
    founders (ds ++ es) = founders ds := by
  have hfold : ∀ (es : List Declaration) (fs : List Declaration),
      (∀ e ∈ es, e.path ∈ fs.map path) → es.foldl found fs = fs := by
    intro es
    induction es with
    | nil => exact fun _ _ ↦ rfl
    | cons e es ih =>
      intro fs hes
      rw [List.foldl_cons, found, if_pos (hes e List.mem_cons_self)]
      exact ih fs fun e' he' ↦ hes e' (List.mem_cons_of_mem _ he')
  rw [founders, List.foldl_append]
  exact hfold es (founders ds) fun e he ↦ mem_map_path_founders.2 (h e he)

/-- Nothing about the symbols changes but their sites. -/
theorem map_symbols_append_of_subset {β : Type} (f : Symbol → β)
    (hf : ∀ (s : Symbol) (sites : List Site), f { s with sites := sites } = f s)
    (h : ∀ e ∈ es, e.path ∈ ds.map path) :
    (symbols (ds ++ es)).map f = (symbols ds).map f := by
  rw [symbols, symbols, founders_append_of_subset h, List.map_append, List.map_append,
    List.map_map, List.map_map]
  refine congrArg _ (List.map_congr_left fun d _ ↦ ?_)
  exact (hf (symbolAmong (founders ds) ds d) _)

end Declaration

/-- A file has no types and no namespaces but those of other files, and no global directives. -/
structure SourceFile.Redeclares (files : List SourceFile) (added : SourceFile) : Prop where
  notGlobal : ∀ u ∈ added.usings, u.isGlobal = false
  paths : ∀ e ∈ added.typeDeclarations files.length,
    e.path ∈ (allDeclarations 0 files).map Declaration.path
  spaces : ∀ s ∈ added.spaces, (Table.ofFiles files).hasSpace s = true

namespace SourceFile.Redeclares

variable {files : List SourceFile} {added : SourceFile} (h : Redeclares files added)
include h

theorem founders_eq : Declaration.founders (allDeclarations 0 (files ++ [added])) =
    Declaration.founders (allDeclarations 0 files) := by
  rw [allDeclarations_concat, Nat.zero_add]
  exact Declaration.founders_append_of_subset h.paths

theorem map_symbols {β : Type} (f : Symbol → β)
    (hf : ∀ (s : Symbol) (sites : List Site), f { s with sites := sites } = f s) :
    (Table.ofFiles (files ++ [added])).symbols.map f = (Table.ofFiles files).symbols.map f := by
  rw [Table.ofFiles_eq, Table.ofFiles_eq, allDeclarations_concat, Nat.zero_add]
  exact Declaration.map_symbols_append_of_subset f hf h.paths

theorem agrees :
    (Table.ofFiles files).Agrees (fun _ ↦ True) (Table.ofFiles (files ++ [added])) := by
  have hspaces (s : Space) :
      (Table.ofFiles (files ++ [added])).hasSpace s = (Table.ofFiles files).hasSpace s := by
    have hnew := h.spaces s
    rw [Bool.eq_iff_iff, Table.hasSpace, Table.hasSpace, List.contains_iff_mem,
      List.contains_iff_mem]
    rw [Table.hasSpace, List.contains_iff_mem] at hnew
    rw [Table.ofFiles_eq] at hnew ⊢
    rw [Table.ofFiles_eq, List.flatMap_append, List.flatMap_singleton, ← List.append_assoc,
      List.mem_append, or_iff_left_iff_imp]
    exact hnew
  refine ⟨fun key _ ↦ ?find?, fun space ident _ ↦ hspaces _, hspaces [], ?globalUsings,
    fun _ _ _ _ ↦ trivial⟩
  case find? => exact Table.lastWithKey_congr 0 (h.map_symbols Symbol.key fun _ _ ↦ rfl)
  case globalUsings =>
    have hglobals : (added.usings.filter fun u ↦ u.isGlobal) = [] :=
      List.filter_eq_nil_iff.2 fun u hu ↦ by rw [h.notGlobal u hu]; exact Bool.false_ne_true
    rw [Table.ofFiles_eq, Table.ofFiles_eq]
    simp only [List.flatMap_append, List.flatMap_singleton, hglobals, List.append_nil]

/-- Every reference stands for the same in every scope. -/
theorem resolve_eq (scope : Scope) (r : TypeRef) :
    (Compilation.ofFiles (files ++ [added])).resolve scope r =
      (Compilation.ofFiles files).resolve scope r := by
  have hparams : (Table.ofFiles files).SameParams (Table.ofFiles (files ++ [added])) scope := by
    intro id _
    have hmap := h.map_symbols Symbol.typeParams fun _ _ ↦ rfl
    rw [Table.symbol?, Table.symbol?, ← List.getElem?_map, ← List.getElem?_map, hmap]
  change (Table.ofFiles (files ++ [added])).withBases.resolve scope r =
    (Table.ofFiles files).withBases.resolve scope r
  rw [Table.resolve_withBases, Table.resolve_withBases]
  exact h.agrees.resolve (fun _ _ _ _ _ _ ↦ trivial) hparams fun _ _ ↦ trivial

/-- A symbol gets the added declarations of its path as sites behind the others. -/
theorem exists_symbol {d : Declaration} (hd : d ∈ allDeclarations 0 files) :
    ∃ symbol symbol',
      (Compilation.ofFiles files).symbol? (Compilation.idAmong files d) = some symbol ∧
      (Compilation.ofFiles (files ++ [added])).symbol? (Compilation.idAmong files d) =
        some symbol' ∧
      symbol.sites = ((allDeclarations 0 files).filter (·.path = d.path)).map
        (Declaration.siteAmong (Declaration.founders (allDeclarations 0 files))) ∧
      symbol'.sites = symbol.sites ++
        ((added.typeDeclarations files.length).filter (·.path = d.path)).map
          (Declaration.siteAmong (Declaration.founders (allDeclarations 0 files))) := by
  have hall : d ∈ allDeclarations 0 (files ++ [added]) := by
    rw [allDeclarations_concat]
    exact List.mem_append_left _ hd
  obtain ⟨symbol, hsymbol, hof⟩ := Compilation.exists_symbol_of_mem hd
  obtain ⟨symbol', hsymbol', hof'⟩ := Compilation.exists_symbol_of_mem hall
  refine ⟨symbol, symbol', hsymbol, ?_, hof.2, ?_⟩
  · rw [Compilation.idAmong, h.founders_eq] at hsymbol'
    exact hsymbol'
  · rw [hof'.2, hof.2, h.founders_eq, allDeclarations_concat, Nat.zero_add, List.filter_append,
      List.map_append]

end SourceFile.Redeclares
end Companion
