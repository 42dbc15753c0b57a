import Companion.Proofs.Symbol.Paths
import Companion.Proofs.Symbol.Redeclaration
import Companion.Proofs.Unit.DeclaredNames
import Companion.Proofs.Unit.ReadBack

/-!
What names stand for in companions. A companion declares its class again, under the same path, in a
file whose directives all stand in front (`Settings.typeDeclarations_companionFile`): those around
the declarations of the class, which are written there without the levels that they come from. So a
reference stands there for what it would stand for in a declaration of the class if the directives
were hoisted (`Compilation.bindsAlike_companion_iff`), and this need not be what it stands for
(`Compilation.not_forall_bindsAlike_companion`).
-/

set_option autoImplicit false
set_option relaxedAutoImplicit false

namespace Companion

open Token Companion.Parser

namespace Compilation

/-- A reference that is written in a declaration of a class stands for the same where a file
declares the class. -/
def BindsAlike (c : Compilation) (id : TypeId) (file : Nat) : Prop :=
  ∃ symbol, c.symbol? id = some symbol ∧ ∃ added ∈ symbol.sites, added.file = file ∧
    ∀ site ∈ symbol.sites, ∀ r ∈ site.decl.references,
      c.resolve added.body r = c.resolve site.body r

end Compilation

/-- The name of a type that is introduced, and the number of its parameters. -/
def Parser.Head.piece (h : Head) : String × Nat := (unescape h.name, h.params.length)

/-- The path that a companion declares its class under. -/
def ClassAnalysis.path (a : ClassAnalysis) : TypePath where
  space := (a.namespaceName.toList.flatMap components).map unescape
  chain := (a.containingTypes.map fun t ↦ (unescape t.name, t.typeParams.length)) ++
    [(unescape a.className, a.typeParams.length)]

theorem Member.declarations_eq_nil {file : Nat} {outside : Scope} {space : Space} :
    ∀ {ms : List Member} {chain : List (String × Nat)}, (∀ m ∈ ms, ∀ d, m ≠ .type d) →
      Member.declarations file outside space chain ms = []
  | [], _, _ => rfl
  | .type d :: _, _, h => absurd rfl (h _ List.mem_cons_self d)
  | .field _ :: ms, chain, h | .other _ :: ms, chain, h => by
    rw [Member.declarations]
    exact Member.declarations_eq_nil fun m hm ↦ h m (List.mem_cons_of_mem _ hm)

theorem TypePath.length_le_of_mem_types {p q : TypePath} (h : q ∈ p.types) :
    q.chain.length ≤ p.chain.length := by
  obtain ⟨chain, hchain, rfl⟩ := List.mem_map.mp h
  exact ((List.mem_inits _ _).mp (List.mem_of_mem_tail hchain)).length_le

/-- Among declarations of types one in the other, the innermost is the only one of its path. -/
theorem Declaration.exists_filter_eq_singleton {es : List Declaration} {p : TypePath}
    (h : es.map path = p.types) (hne : p.chain ≠ []) :
    ∃ e ∈ es, e.path = p ∧ es.filter (·.path = p) = [e] := by
  obtain ⟨space, chain⟩ := p
  obtain ⟨front, x, hchain⟩ := (List.eq_nil_or_concat chain).resolve_left hne
  rw [List.concat_eq_append] at hchain
  subst hchain
  rw [TypePath.types_concat] at h
  obtain ⟨before, last, rfl, hbefore, hlast⟩ := List.map_eq_append_iff.mp h
  obtain ⟨e, rfl, he⟩ := List.map_eq_singleton_iff.mp hlast
  refine ⟨e, List.mem_append_right _ List.mem_cons_self, he, ?_⟩
  have hnone : before.filter (·.path = ⟨space, front ++ [x]⟩) = [] := by
    refine List.filter_eq_nil_iff.mpr fun d hd hpath ↦ ?_
    have hlength := TypePath.length_le_of_mem_types
      (hbefore ▸ List.mem_map_of_mem (f := Declaration.path) hd)
    rw [of_decide_eq_true hpath, List.length_append, List.length_singleton] at hlength
    exact Nat.not_succ_le_self _ hlength
  rw [List.filter_append, hnone, List.filter_cons_of_pos (by simpa using he)]
  rfl

namespace Settings

variable {s : Settings} {a : ClassAnalysis}

/-! ### What a companion declares -/

/-- Types one in the other declare a path each. -/
theorem path_nestedDecl {file : Nat} {outside : Scope} {space : Space} {inner : Head}
    {ms : List Member} (hms : ∀ m ∈ ms, ∀ d, m ≠ .type d) :
    ∀ (heads : List Head) (chain : List (String × Nat)),
      ((nestedDecl inner ms heads).declarations file outside space chain).map (·.path) =
        ((heads ++ [inner]).map Head.piece).inits.tail.map fun more ↦ ⟨space, chain ++ more⟩
  | [], chain => by
    rw [nestedDecl, Head.decl, TypeDecl.declarations, Member.declarations_eq_nil hms,
      TypeHeader.arity, List.length_map]
    rfl
  | h :: heads, chain => by
    have harity : (TypeHeader.arity ⟨h.kind, [], [.partialDecl], unescape h.name, nowhere,
        h.params.map fun n ↦ ⟨unescape n, nowhere⟩,
        (h.base.map fun ns ↦ TypeRef.plain (ns.map unescape)).toList, nowhere⟩) =
          h.params.length := List.length_map _
    have hinits {α : Type} (l : List α) : l.inits = [] :: l.inits.tail := by
      cases l <;> rfl
    rw [nestedDecl, Head.decl, TypeDecl.declarations, Member.declarations, Member.declarations,
      List.append_nil, List.map_cons, path_nestedDecl hms heads, harity, List.cons_append,
      List.map_cons, List.inits_cons, List.tail_cons, hinits (List.map _ (heads ++ [inner]))]
    simp only [List.map_cons, List.map_map, Function.comp_def, List.append_assoc,
      List.singleton_append, List.tail_cons, Head.piece]

/-- A companion has no types but those around its class. -/
theorem ne_type_of_mem_companionMembers {m : Member} (hm : m ∈ s.companionMembers a)
    (d : TypeDecl) : m ≠ .type d := by
  rintro rfl
  rw [companionMembers] at hm
  cases s.instantiateHelpers <;> simp at hm

theorem path_companionDecl (file : Nat) (outside : Scope) (space : Space) :
    ((s.companionDecl a).declarations file outside space []).map (·.path) =
      (TypePath.mk space a.path.chain).types := by
  rw [companionDecl, path_nestedDecl fun m hm ↦ ne_type_of_mem_companionMembers hm,
    List.map_append, List.map_map]
  rfl

/-- The companion of a class as a source file. -/
def companionFile (path : String) (s : Settings) (a : ClassAnalysis) : SourceFile :=
  (Parsed.ofSource path (s.companionText a)).file

section File

variable (path : String) (h : a.Readable s)
include h

theorem usings_companionFile :
    (companionFile path s a).usings.map Using.placeless = companionUsings a := by
  obtain ⟨hspell, hclean⟩ := spell_unitPieces h
  exact (Parsed.ofSource_of_takes hspell hclean (takes_unitPieces h)).2.1

theorem items_companionFile :
    (companionFile path s a).items.map Item.placeless = [s.companionItem a] := by
  obtain ⟨hspell, hclean⟩ := spell_unitPieces h
  exact (Parsed.ofSource_of_takes hspell hclean (takes_unitPieces h)).2.2

theorem isGlobal_companionFile : ∀ u ∈ (companionFile path s a).usings, u.isGlobal = false := by
  intro u hu
  have hmem : u.placeless ∈ companionUsings a :=
    usings_companionFile path h ▸ List.mem_map_of_mem hu
  obtain ⟨u', hu', heq⟩ := List.mem_map.mp hmem
  obtain ⟨t, -, hread⟩ := List.mem_filterMap.mp hu'
  have hsame := congrArg Using.isGlobal heq
  have hlocal := isGlobal_of_readAlone hread
  exact hsame.symm.trans hlocal

theorem allRelocated_items_companionFile :
    Item.allRelocated (fun _ ↦ nowhere) (companionFile path s a).items = [s.companionItem a] := by
  rw [Item.allRelocated_nowhere, Item.allPlaceless_eq_map, items_companionFile path h]

theorem relocated_unit_companionFile :
    [Level.unit (companionFile path s a).usings].map (Level.relocated fun _ ↦ nowhere) =
      [.unit (companionUsings a)] := by
  rw [List.map_singleton, Level.relocated_nowhere, Level.placeless,
    usings_companionFile path h]

/-- A companion declares types in the namespace of its class. -/
theorem typeDeclarations_companionFile (file : Nat) :
    ((companionFile path s a).typeDeclarations file).map (Declaration.relocated fun _ ↦ nowhere) =
      (s.companionDecl a).declarations file (Scope.plain (companionUsings a) a.path.space)
        a.path.space [] := by
  rw [SourceFile.typeDeclarations, ← Item.allDeclarations_relocated,
    relocated_unit_companionFile path h, allRelocated_items_companionFile path h,
    Item.allDeclarations, Item.allDeclarations, List.append_nil, companionItem, ClassAnalysis.path]
  cases a.namespaceName with
  | none => rfl
  | some t =>
    rw [Item.declarations, Item.allDeclarations, Item.allDeclarations, List.append_nil,
      Table.openSpace_space, Item.declarations, Option.toList_some, List.flatMap_singleton]
    rfl

theorem path_typeDeclarations_companionFile (file : Nat) :
    ((companionFile path s a).typeDeclarations file).map (·.path) = a.path.types := by
  have hpaths := congrArg (List.map Declaration.path)
    (typeDeclarations_companionFile path h file)
  rw [List.map_map, path_companionDecl] at hpaths
  exact hpaths

theorem outside_typeDeclarations_companionFile {file : Nat} {e : Declaration}
    (he : e ∈ (companionFile path s a).typeDeclarations file) :
    e.outside.map Level.placeless = Scope.plain (companionUsings a) a.path.space := by
  have hmem := List.mem_map_of_mem (f := Declaration.relocated fun _ ↦ nowhere) he
  rw [typeDeclarations_companionFile path h] at hmem
  have houtside := TypeDecl.outside_of_mem_declarations _ [] hmem
  rw [← houtside, Declaration.relocated]
  exact List.map_congr_left fun level _ ↦ level.relocated_nowhere.symm

theorem spaces_companionFile :
    (companionFile path s a).spaces =
      (Table.openSpace [.unit (companionUsings a)] [] [] a.path.space).1 := by
  rw [SourceFile.spaces, ← Item.allSpaces_relocated (g := fun _ ↦ nowhere),
    relocated_unit_companionFile path h, allRelocated_items_companionFile path h,
    Item.allSpaces, Item.allSpaces, List.append_nil, companionItem, ClassAnalysis.path]
  cases a.namespaceName with
  | none => rfl
  | some t =>
    rw [Item.spaces, Item.allSpaces, Item.allSpaces, Item.spaces, List.append_nil,
      List.append_nil, Option.toList_some, List.flatMap_singleton]

/-- A companion declares again what its class is declared in, and the class. -/
theorem redeclares_companionFile {files : List SourceFile} {d : Declaration}
    (hd : d ∈ SourceFile.allDeclarations 0 files) (hpath : a.path = d.path) :
    SourceFile.Redeclares files (companionFile path s a) := by
  refine ⟨isGlobal_companionFile path h, fun e he ↦ ?_, fun space hspace ↦ ?_⟩
  · have hmem := List.mem_map_of_mem (f := Declaration.path) he
    rw [path_typeDeclarations_companionFile path h, hpath] at hmem
    exact Declaration.mem_map_path_founders.1
      ((SourceFile.closed_allDeclarations files).types_subset hd _ hmem)
  · rw [spaces_companionFile path h, hpath] at hspace
    obtain ⟨front, -, hfront, rfl⟩ := Table.mem_openSpace_iff.1 hspace
    exact SourceFile.hasSpace_of_prefix hd hfront

end File

end Settings

namespace Compilation

open Settings

variable {texts : List (String × String)} {s : Settings} {id : TypeId} {a : ClassAnalysis}
  {reports : List Diagnostic}

/-! ### The class of a companion -/

/-- Names that are written as they are make a path of themselves. -/
theorem path_eq_of_isWritable (h : ∀ n ∈ a.declaredNames, IsWritable n) :
    a.path = ⟨a.namespaceName.toList.flatMap components,
      a.containingTypes.map (fun t ↦ (t.name, t.typeParams.length)) ++
        [(a.className, a.typeParams.length)]⟩ := by
  have hunescape : ∀ n ∈ a.declaredNames, unescape n = n := fun n hn ↦ (h n hn).2
  simp only [ClassAnalysis.declaredNames, List.mem_append, List.mem_cons,
    List.mem_flatMap] at hunescape
  rw [ClassAnalysis.path, hunescape a.className (by simp)]
  refine congrArg₂ TypePath.mk ?_ (congrArg (· ++ _) (List.map_congr_left fun t ht ↦ ?_))
  · refine (List.map_congr_left fun n hn ↦ hunescape n ?_).trans (List.map_id _)
    exact .inl (.inl (.inl (List.mem_flatMap.mp hn)))
  · rw [hunescape t.name (.inl (.inl (.inr ⟨t, ht, .inl rfl⟩)))]

/-- A companion declares the path of the class that it was made for. -/
theorem exists_declaration_of_analyze
    (hanalyze : (ofFiles (Sources.ofTexts texts).files).analyze s id = some (a, reports))
    (hemit : a.shouldEmit = true) (hwritable : ∀ n ∈ a.declaredNames, IsWritable n) :
    ∃ d ∈ SourceFile.allDeclarations 0 (Sources.ofTexts texts).files,
      id = idAmong (Sources.ofTexts texts).files d ∧ a.path = d.path := by
  have hpartial : (ofFiles (Sources.ofTexts texts).files).isPartialType id = true := by
    rw [ClassAnalysis.shouldEmit, Bool.and_eq_true, isPartial_of_analyze hanalyze] at hemit
    exact (Bool.and_eq_true_iff.mp hemit.2).1
  obtain ⟨d, hd, hid, hspace, hchain⟩ :=
    path_of_analyze hanalyze (sites_ne_nil_of_isPartialType hpartial)
  refine ⟨d, hd, hid, ?_⟩
  have hspaces : a.namespaceName.toList.flatMap components = d.path.space := by
    have hpieces := SourceFile.spacesOfPieces _ 0 (Sources.isPiece_of_mem_allPieces texts) d hd
    rw [hspace]
    cases hnames : d.path.space with
    | nil => rfl
    | cons part rest =>
      rw [hnames] at hpieces
      rw [List.isEmpty_cons, if_neg Bool.false_ne_true, Option.toList_some, List.flatMap_singleton,
        components_joinWith hpieces (List.cons_ne_nil _ _)]
  rw [path_eq_of_isWritable hwritable, hspaces, hchain]

/-- What is read of a companion in a scope with hoisted directives. -/
theorem resolve_companionFile {files : List SourceFile} {d e : Declaration} (path : String)
    (h : a.Readable s)
    (he : e ∈ (companionFile path s a).typeDeclarations files.length)
    (hd : d ∈ SourceFile.allDeclarations 0 files) (hpath : a.path = d.path)
    (hepath : e.path = d.path)
    (r : TypeRef) :
    (ofFiles files).resolve
        (Declaration.siteAmong
          (Declaration.founders (SourceFile.allDeclarations 0 files)) e).body r =
      (ofFiles files).resolve ((Declaration.siteAmong
        (Declaration.founders (SourceFile.allDeclarations 0 files)) d).body.hoisted
          (companionUsings a)) r := by
  have houtside := outside_typeDeclarations_companionFile path h he
  rw [hpath, ← SourceFile.hoisted_outside hd] at houtside
  refine Table.resolve_eq_of_placeless _ ?_ rfl
  have hplaceless : (d.outside.hoisted (companionUsings a)).map Level.placeless =
      d.outside.hoisted (companionUsings a) := by
    rw [← houtside, List.map_map]
    exact List.map_congr_left fun level _ ↦ level.placeless_placeless
  rw [Declaration.siteAmong, Declaration.siteAmong, hepath, Scope.hoisted, List.map_append,
    List.map_append, List.map_append, houtside]
  refine congrArg₂ (· ++ ·) ?_ hplaceless.symm
  simp only [List.map_map]
  rfl

/-- The companion of a class is one more declaration of it, and changes nothing else. A reference
stands there for what it stands for in the other declarations if their directives are replaced by
those of the companion, in front of everything. -/
theorem exists_site_companionFile {files : List SourceFile} {d : Declaration} (path : String)
    (h : a.Readable s)
    (hd : d ∈ SourceFile.allDeclarations 0 files) (hpath : a.path = d.path) :
    ∃ symbol symbol' added, (ofFiles files).symbol? (idAmong files d) = some symbol ∧
      (ofFiles (files ++ [companionFile path s a])).symbol? (idAmong files d) = some symbol' ∧
      symbol'.sites = symbol.sites ++ [added] ∧ added.file = files.length ∧
      ∀ site ∈ symbol.sites, ∀ r : TypeRef,
        (ofFiles (files ++ [companionFile path s a])).resolve site.body r =
            (ofFiles files).resolve site.body r ∧
          (ofFiles (files ++ [companionFile path s a])).resolve added.body r =
            (ofFiles files).resolve (site.body.hoisted (companionUsings a)) r := by
  have hredeclares := redeclares_companionFile path h hd hpath
  obtain ⟨symbol, symbol', hsymbol, hsymbol', hsites, hsites'⟩ := hredeclares.exists_symbol hd
  have hne : a.path.chain ≠ [] := List.append_ne_nil_of_right_ne_nil _ (List.cons_ne_nil _ _)
  obtain ⟨e, he, hepath, hfilter⟩ := Declaration.exists_filter_eq_singleton
    (path_typeDeclarations_companionFile path h files.length) hne
  rw [← hpath, hfilter, List.map_singleton] at hsites'
  refine ⟨symbol, symbol', _, hsymbol, hsymbol', hsites',
    (SourceFile.mem_of_mem_typeDeclarations he).1, fun site hsite r ↦
      ⟨hredeclares.resolve_eq _ r, (hredeclares.resolve_eq _ r).trans ?_⟩⟩
  rw [hsites] at hsite
  obtain ⟨d', hd', rfl⟩ := List.mem_map.mp hsite
  obtain ⟨hd', hpath'⟩ := List.mem_filter.mp hd'
  have hpath' := of_decide_eq_true hpath'
  exact resolve_companionFile path h he hd' (hpath.trans hpath'.symm)
    (hepath.trans (hpath.trans hpath'.symm)) r

/-- Where a file declares a class of others again, all references of the class are bound alike
exactly if to hoist the directives changes none of them. -/
theorem bindsAlike_companionFile_iff {files : List SourceFile} {d : Declaration} (path : String)
    (h : a.Readable s)
    (hd : d ∈ SourceFile.allDeclarations 0 files) (hpath : a.path = d.path) :
    (ofFiles (files ++ [companionFile path s a])).BindsAlike (idAmong files d) files.length ↔
      ∀ symbol, (ofFiles files).symbol? (idAmong files d) = some symbol →
        ∀ site ∈ symbol.sites, ∀ r ∈ site.decl.references,
          (ofFiles files).resolve (site.body.hoisted (companionUsings a)) r =
            (ofFiles files).resolve site.body r := by
  obtain ⟨symbol, symbol', added, hsymbol, hsymbol', hsites, hfile, hresolve⟩ :=
    exists_site_companionFile path h hd hpath
  constructor
  · rintro ⟨symbol'', hsymbol'', added', hadded', hfile', hbound⟩ symbol₁ hsymbol₁ site hsite r hr
    obtain rfl := Option.some.inj (hsymbol'.symm.trans hsymbol'')
    obtain rfl := Option.some.inj (hsymbol.symm.trans hsymbol₁)
    rw [hsites] at hadded' hbound
    -- the other sites stand in files before it
    have hother : added' ∉ symbol.sites := by
      intro hmem
      obtain ⟨-, f, hf, -⟩ := writtenIn_of_mem_sites hsymbol hmem
      exact absurd (hfile' ▸ (List.getElem?_eq_some_iff.mp hf).1) (Nat.lt_irrefl _)
    obtain rfl := List.mem_singleton.mp ((List.mem_append.mp hadded').resolve_left hother)
    obtain ⟨hkept, hhoisted⟩ := hresolve site hsite r
    rw [← hkept, ← hhoisted, hbound site (List.mem_append_left _ hsite) r hr]
  · intro hall
    refine ⟨symbol', hsymbol', added, ?_, hfile, fun site hsite r hr ↦ ?_⟩
    · rw [hsites]
      exact List.mem_append_right _ (List.mem_singleton_self _)
    · rw [hsites] at hsite
      rcases List.mem_append.mp hsite with hsite | hsite
      · obtain ⟨hkept, hhoisted⟩ := hresolve site hsite r
        rw [hkept, hhoisted, hall symbol hsymbol site hsite r hr]
      · rw [List.mem_singleton.mp hsite]

/-- The references in the declarations of a class are bound alike in its companion exactly if none
of them comes to stand for something else when the directives around it, of all levels, are
replaced by those of the companion in front of the file. -/
theorem bindsAlike_companion_iff (path : String)
    (hanalyze : (ofFiles (Sources.ofTexts texts).files).analyze s id = some (a, reports))
    (hemit : a.shouldEmit = true) (h : a.Readable s)
    (hwritable : ∀ n ∈ a.declaredNames, IsWritable n) :
    (ofFiles ((Sources.ofTexts texts).files ++ [companionFile path s a])).BindsAlike id
        (Sources.ofTexts texts).files.length ↔
      ∀ symbol, (ofFiles (Sources.ofTexts texts).files).symbol? id = some symbol →
        ∀ site ∈ symbol.sites, ∀ r ∈ site.decl.references,
          (ofFiles (Sources.ofTexts texts).files).resolve
            (site.body.hoisted (companionUsings a)) r =
            (ofFiles (Sources.ofTexts texts).files).resolve site.body r := by
  obtain ⟨d, hd, rfl, hpath⟩ := exists_declaration_of_analyze hanalyze hemit hwritable
  exact bindsAlike_companionFile_iff path h hd hpath

/-- They are bound alike if all directives around the class stand in front of its files, and each of
these has those of the companion. -/
theorem bindsAlike_companion_of_inFront (path : String)
    (hanalyze : (ofFiles (Sources.ofTexts texts).files).analyze s id = some (a, reports))
    (hemit : a.shouldEmit = true) (h : a.Readable s)
    (hwritable : ∀ n ∈ a.declaredNames, IsWritable n)
    (hfront : ∀ symbol, (ofFiles (Sources.ofTexts texts).files).symbol? id = some symbol →
      ∀ site ∈ symbol.sites, ∀ level ∈ site.body, level.InFront (companionUsings a)) :
    (ofFiles ((Sources.ofTexts texts).files ++ [companionFile path s a])).BindsAlike id
      (Sources.ofTexts texts).files.length := by
  obtain ⟨d, hd, rfl, hpath⟩ := exists_declaration_of_analyze hanalyze hemit hwritable
  rw [bindsAlike_companionFile_iff path h hd hpath]
  exact fun symbol hsymbol site hsite r _ ↦
    Table.resolve_hoisted _ (hfront symbol hsymbol site hsite) r

/-- A directive in front of a file, and an alias in the namespace of a class. -/
private def aliasedTexts (front : String) : List (String × String) :=
  [("C.cs", front ++ "interface I{}class A{}class B{}" ++
    "namespace N{using X=B;partial class C{[SerializeInterface][Tag]I f;X g;}}")]

private def aliasAnalysis (front : String) : ClassAnalysis where
  className := "C"
  namespaceName := some "N"
  typeParams := []
  containingTypes := []
  ownShapes := [
    { fieldName := "f"
      backingName := "fSerialized"
      elementName := "I"
      container := .single
      isReadOnly := false
      isInitializedInline := false
      carriedAttributes := ["Tag"]
      span := ⟨106, 107⟩ }]
  inherited := []
  requiresCompanion := true
  isPartial := true
  implementsCallback := false
  hookRole := .standalone
  usings := [front, "using X=B;"]
  file := "C.cs"
  span := ⟨77, 78⟩

/-- Whether hoisting the directives of the class changes nothing. -/
private def aliasKept (front : String) : Bool :=
  let c := ofFiles (Sources.ofTexts (aliasedTexts front)).files
  (c.symbol? 22).all fun symbol ↦ symbol.sites.all fun site ↦ site.decl.references.all fun r ↦
    c.resolve (site.body.hoisted (companionUsings (aliasAnalysis front))) r = c.resolve site.body r

private theorem aliasKept_iff (front : String) : aliasKept front = true ↔
    ∀ symbol, (ofFiles (Sources.ofTexts (aliasedTexts front)).files).symbol? 22 = some symbol →
      ∀ site ∈ symbol.sites, ∀ r ∈ site.decl.references,
        (ofFiles (Sources.ofTexts (aliasedTexts front)).files).resolve
            (site.body.hoisted (companionUsings (aliasAnalysis front))) r =
          (ofFiles (Sources.ofTexts (aliasedTexts front)).files).resolve site.body r := by
  simp only [aliasKept, Option.all_eq_true, List.all_eq_true, decide_eq_true_eq]

private theorem aliased_facts : ∀ front ∈ ["using X=A;", "using Y=A;"],
    (Sources.ofTexts (aliasedTexts front)).diagnostics.isEmpty = true ∧
      ((ofFiles (Sources.ofTexts (aliasedTexts front)).files).analyze {} 22).map Prod.fst =
        some (aliasAnalysis front) ∧
      (readAlone (usingDirective false) front).isSome = true ∧
      (aliasKept front = true ↔ front = "using Y=A;") := by
  decide +kernel

private theorem readable_aliasAnalysis {front : String}
    (hfront : (readAlone (usingDirective false) front).isSome = true) :
    (aliasAnalysis front).Readable {} where
  hosts := by decide +kernel
  className := (by decide +kernel : IsComponent "C")
  typeParams := fun _ hn ↦ absurd hn List.not_mem_nil
  space := by
    intro t ht
    obtain rfl := Option.some.inj ht
    decide +kernel
  containing := fun _ ht ↦ absurd ht List.not_mem_nil
  shapes := by
    have hattribute : (readAlone attributeList "[Tag]").map (·.attributes.length) = some 1 := by
      decide +kernel
    intro shape hshape
    obtain rfl := List.mem_singleton.mp hshape
    refine ⟨by decide +kernel, by decide +kernel, isElementName_of_components (by decide +kernel),
      fun t ht ↦ ?_⟩
    obtain rfl := List.mem_singleton.mp ht
    exact Option.map_eq_some_iff.mp hattribute
  usings := by
    intro t ht
    rcases List.mem_cons.mp ht with rfl | ht
    · exact Option.isSome_iff_exists.mp hfront
    · obtain rfl := List.mem_singleton.mp ht
      exact Option.isSome_iff_exists.mp (by decide +kernel)

private theorem writable_aliasAnalysis (front : String) :
    ∀ n ∈ (aliasAnalysis front).declaredNames, IsWritable n :=
  show ∀ n ∈ ["N", "C", "f"], IsWritable n by decide

/-- Aliases of two names can be hoisted out of their namespace. -/
theorem bindsAlike_companion_of_aliases :
    ∃ reports, (ofFiles (Sources.ofTexts (aliasedTexts "using Y=A;")).files).analyze {} 22 =
        some (aliasAnalysis "using Y=A;", reports) ∧
      (ofFiles ((Sources.ofTexts (aliasedTexts "using Y=A;")).files ++
        [companionFile "N.C_g.cs" {} (aliasAnalysis "using Y=A;")])).BindsAlike 22 1 := by
  obtain ⟨-, hanalyze, hfront, hkept⟩ := aliased_facts "using Y=A;" (by simp)
  obtain ⟨⟨a, reports⟩, ha, heq⟩ := Option.map_eq_some_iff.mp hanalyze
  obtain rfl : a = aliasAnalysis "using Y=A;" := heq
  exact ⟨reports, ha, (bindsAlike_companion_iff _ ha rfl (readable_aliasAnalysis hfront)
    (writable_aliasAnalysis _)).mpr ((aliasKept_iff _).mp (hkept.mpr rfl))⟩

/-- An alias in a namespace may hide one in front of the file, but not in the companion. -/
theorem not_forall_bindsAlike_companion :
    ¬ ∀ (texts : List (String × String)) (s : Settings) (id : TypeId) (a : ClassAnalysis)
      (reports : List Diagnostic) (path : String), (Sources.ofTexts texts).diagnostics = [] →
      (ofFiles (Sources.ofTexts texts).files).analyze s id = some (a, reports) →
      a.shouldEmit = true → a.hasCarriedAttributes = true →
        (ofFiles ((Sources.ofTexts texts).files ++ [companionFile path s a])).BindsAlike id
          (Sources.ofTexts texts).files.length := by
  intro hall
  obtain ⟨hquiet, hanalyze, hfront, hkept⟩ := aliased_facts "using X=A;" (by simp)
  obtain ⟨⟨a, reports⟩, ha, heq⟩ := Option.map_eq_some_iff.mp hanalyze
  obtain rfl : a = aliasAnalysis "using X=A;" := heq
  obtain ⟨d, hd, hid, hpath⟩ := exists_declaration_of_analyze ha rfl (writable_aliasAnalysis _)
  have hbound := hall _ {} 22 _ reports "N.C_g.cs" (List.isEmpty_iff.mp hquiet) ha rfl rfl
  rw [hid, bindsAlike_companionFile_iff _ (readable_aliasAnalysis hfront) hd hpath, ← hid,
    ← aliasKept_iff, hkept] at hbound
  exact absurd hbound (by decide)

end Compilation
end Companion
