import Companion.Proofs.Run.Candidates
import Companion.Proofs.Symbol.DeclarationLists

/-!
What a table of files looks like from outside (`Compilation.Organized`). Every declaration of a
file, however deep it is nested, is a site of exactly one symbol, and is so once; the symbol is
found again from the file and the span of the declaration. Two declarations share their symbol
exactly if they stand in the same namespace or type and have the same name and number of parameters.
The types around a type come before it, so that the way outwards ends; and no declaration is a site
of a type that is known beforehand, not even if it has the place and name of one. This holds of all
files whose places can be told apart (`Compilation.organized_ofTexts`). Behind four gigabytes all
places are one, and there declarations of two types may lead to one symbol
(`Compilation.not_forall_organized_ofTexts`).
-/

set_option autoImplicit false
set_option relaxedAutoImplicit false

namespace Companion

/-! ### What declarations stand in -/

/-- What a declaration stands in: a namespace, by its dotted name, or a type, by its symbol. -/
inductive Parent where
  | space (dotted : String)
  | type (symbol : Option TypeId)
  deriving DecidableEq

mutual

/-- A declaration and those nested in it, each with what it stands in. -/
def TypeDecl.standing (symbolFor : TypeDecl → Option TypeId) (parent : Parent) :
    TypeDecl → List (TypeDecl × Parent)
  | .mk h ms => (.mk h ms, parent) :: Member.standing symbolFor (.type (symbolFor (.mk h ms))) ms

def Member.standing (symbolFor : TypeDecl → Option TypeId) (parent : Parent) :
    List Member → List (TypeDecl × Parent)
  | [] => []
  | .type d :: ms => TypeDecl.standing symbolFor parent d ++ Member.standing symbolFor parent ms
  | .field _ :: ms | .other _ :: ms => Member.standing symbolFor parent ms

end

mutual

/-- The declarations in an item that stands in a namespace. -/
def Item.standing (symbolFor : TypeDecl → Option TypeId) (space : Space) :
    Item → List (TypeDecl × Parent)
  | .namespaceDecl h items => Item.allStanding symbolFor (space ++ h.parts) items
  | .typeDecl d => d.standing symbolFor (.space (joinWith "." space))

def Item.allStanding (symbolFor : TypeDecl → Option TypeId) (space : Space) :
    List Item → List (TypeDecl × Parent)
  | [] => []
  | i :: is => Item.standing symbolFor space i ++ Item.allStanding symbolFor space is

end

namespace Compilation

/-- In a file a declaration stands in a namespace or type. -/
def StandsIn (c : Compilation) (file : Nat) (d : TypeDecl) (parent : Parent) : Prop :=
  ∃ f, c.files[file]? = some f ∧
    (d, parent) ∈ Item.allStanding (fun d ↦ c.idOf file d.header.span) [] f.items

/-- A declaration of a file is the site at some place of a symbol. -/
def IsSite (c : Compilation) (file : Nat) (d : TypeDecl) (id : TypeId) (place : Nat) : Prop :=
  ∃ symbol site, c.symbol? id = some symbol ∧ symbol.sites[place]? = some site ∧
    site.file = file ∧ site.decl = d

/-- The types around a type, found by going outwards; nothing if the budget is used up before. -/
def containersWithin (c : Compilation) : Nat → TypeId → Option (List TypeId)
  | 0, _ => none
  | budget + 1, id =>
    match (c.symbol? id).bind Symbol.container with
    | none => some []
    | some outer => (c.containersWithin budget outer).map (· ++ [outer])

/-- The symbols of a compilation and the declarations of its files fit together. -/
structure Organized (c : Compilation) : Prop where
  /-- Every declaration stands in something. -/
  stands : ∀ file f d, c.files[file]? = some f → d ∈ Item.allTypes f.items →
    ∃ parent, c.StandsIn file d parent
  /-- A declaration is a site of one symbol, at one place. -/
  site : ∀ file f d, c.files[file]? = some f → d ∈ Item.allTypes f.items →
    ∃! found : TypeId × Nat, c.IsSite file d found.1 found.2
  /-- The symbol is found again from the declaration. -/
  idOf : ∀ file d id place, c.IsSite file d id place → c.idOf file d.header.span = some id
  /-- Declarations share a symbol exactly if they stand in the same and are named alike. -/
  same : ∀ file d parent file' d' parent', c.StandsIn file d parent → c.StandsIn file' d' parent' →
    (c.idOf file d.header.span = c.idOf file' d'.header.span ↔
      parent = parent' ∧ d.header.name = d'.header.name ∧ d.header.arity = d'.header.arity)
  /-- The sites of a symbol are in the order of files and places. -/
  ordered : ∀ id symbol, c.symbol? id = some symbol → symbol.sites.Pairwise fun s s' ↦
    s.file < s'.file ∨ s.file = s'.file ∧ s.decl.header.span.start < s'.decl.header.span.start
  /-- The type directly around a type comes before it. -/
  container : ∀ id symbol outer, c.symbol? id = some symbol → symbol.container = some outer →
    outer < id
  /-- The way outwards ends, and leads through the types around a type. -/
  containers : ∀ id, c.containersWithin (id + 1) id = some (c.enclosing id)
  /-- Types that are known beforehand stay as they are, and have no declarations. -/
  known : ∀ id symbol, c.symbol? id = some symbol → id.isWellKnown = true →
    Table.initial.symbol? id = some symbol ∧ symbol.sites = []

end Compilation

open Declaration

/-! ### What declarations stand in, by their paths -/

/-- What the declarations directly in a namespace, or in a type of it, stand in. -/
def Declaration.parentAmong (founders : List Declaration) (space : Space)
    (chain : List (String × Nat)) : Parent :=
  if chain = [] then .space (joinWith "." space)
  else .type (some (idAmong founders ⟨space, chain⟩))

/-- A declaration with what it stands in. -/
def Declaration.standingAmong (founders : List Declaration) (d : Declaration) : TypeDecl × Parent :=
  (d.decl, parentAmong founders d.path.space d.path.chain.dropLast)

section Standing

variable {fs : List Declaration} {symbolFor : TypeDecl → Option TypeId}

mutual

theorem TypeDecl.standing_eq (file : Nat) (outside : Scope) (space : Space) :
    ∀ (d : TypeDecl) (chain : List (String × Nat)),
      (∀ e ∈ d.declarations file outside space chain, symbolFor e.decl = some (idAmong fs e.path)) →
      d.standing symbolFor (parentAmong fs space chain) =
        (d.declarations file outside space chain).map (standingAmong fs)
  | .mk h ms, chain, hsymbols => by
    rw [TypeDecl.declarations] at hsymbols
    obtain ⟨hhere, hrest⟩ := List.forall_mem_cons.mp hsymbols
    have hinside : Parent.type (symbolFor (.mk h ms)) =
        parentAmong fs space (chain ++ [(h.name, h.arity)]) := by
      rw [hhere, parentAmong, if_neg (List.append_ne_nil_of_right_ne_nil _ (List.cons_ne_nil _ _))]
    rw [TypeDecl.standing, TypeDecl.declarations, List.map_cons, hinside,
      Member.standing_eq file outside space ms _ hrest, standingAmong, List.dropLast_concat]

theorem Member.standing_eq (file : Nat) (outside : Scope) (space : Space) :
    ∀ (ms : List Member) (chain : List (String × Nat)),
      (∀ e ∈ Member.declarations file outside space chain ms,
        symbolFor e.decl = some (idAmong fs e.path)) →
      Member.standing symbolFor (parentAmong fs space chain) ms =
        (Member.declarations file outside space chain ms).map (standingAmong fs)
  | [], _, _ => rfl
  | .type d :: ms, chain, hsymbols => by
    rw [Member.declarations] at hsymbols
    obtain ⟨hd, hms⟩ := List.forall_mem_append.mp hsymbols
    rw [Member.standing, Member.declarations, List.map_append,
      TypeDecl.standing_eq file outside space d chain hd,
      Member.standing_eq file outside space ms chain hms]
  | .field _ :: ms, chain, hsymbols => Member.standing_eq file outside space ms chain hsymbols
  | .other _ :: ms, chain, hsymbols => Member.standing_eq file outside space ms chain hsymbols

end

mutual

theorem Item.standing_eq (file : Nat) : ∀ (i : Item) (scope : Scope) (space : Space),
    (∀ e ∈ i.declarations file scope space, symbolFor e.decl = some (idAmong fs e.path)) →
      i.standing symbolFor space = (i.declarations file scope space).map (standingAmong fs)
  | .namespaceDecl h items, scope, space, hsymbols => by
    rw [Item.standing, Item.declarations, ← Table.openSpace_space h.usings h.parts scope space]
    exact Item.allStanding_eq file items _ _ hsymbols
  | .typeDecl d, scope, space, hsymbols => d.standing_eq file scope space [] hsymbols

theorem Item.allStanding_eq (file : Nat) : ∀ (is : List Item) (scope : Scope) (space : Space),
    (∀ e ∈ Item.allDeclarations file scope space is, symbolFor e.decl = some (idAmong fs e.path)) →
      Item.allStanding symbolFor space is =
        (Item.allDeclarations file scope space is).map (standingAmong fs)
  | [], _, _, _ => rfl
  | i :: is, scope, space, hsymbols => by
    rw [Item.allDeclarations] at hsymbols
    obtain ⟨hi, his⟩ := List.forall_mem_append.mp hsymbols
    rw [Item.allStanding, Item.allDeclarations, List.map_append,
      Item.standing_eq file i scope space hi, Item.allStanding_eq file is scope space his]

end

end Standing

namespace Declaration

variable {ds : List Declaration} {d e : Declaration}

/-- A declared type is the one of its name in what it stands in. -/
theorem Closed.path_eq_iff (h : Closed ds) (hpieces : SpacesOfPieces ds) (hd : d ∈ ds)
    (he : e ∈ ds) : d.path = e.path ↔
      (standingAmong (founders ds) d).2 = (standingAmong (founders ds) e).2 ∧
        d.decl.header.name = e.decl.header.name ∧ d.decl.header.arity = e.decl.header.arity := by
  obtain ⟨chain, hpath, haround⟩ := h d hd
  obtain ⟨chain', hpath', haround'⟩ := h e he
  have hparent :
      (standingAmong (founders ds) d).2 = parentAmong (founders ds) d.path.space chain := by
    rw [standingAmong, hpath, List.dropLast_concat]
  have hparent' :
      (standingAmong (founders ds) e).2 = parentAmong (founders ds) e.path.space chain' := by
    rw [standingAmong, hpath', List.dropLast_concat]
  constructor
  · intro heq
    have hchains := congrArg TypePath.chain (hpath.symm.trans (heq.trans hpath'))
    obtain ⟨rfl, hlast⟩ := List.append_inj' hchains rfl
    obtain ⟨hname, harity⟩ := Prod.mk.inj (List.cons.inj hlast).1
    exact ⟨by rw [hparent, hparent', heq], hname, harity⟩
  · rintro ⟨hsame, hname, harity⟩
    rw [hparent, hparent'] at hsame
    rw [hpath, hpath', hname, harity]
    simp only [parentAmong] at hsame
    split_ifs at hsame with hchain hchain'
    · -- both stand in namespaces, which their dotted names tell apart
      rw [hchain, hchain', eq_of_joinWith_eq (hpieces d hd) (hpieces e he) (Parent.space.inj hsame)]
    · have hmem : TypePath.mk d.path.space chain ∈ (founders ds).map path :=
        mem_map_path_founders.mpr (haround _ (mem_types_self hchain))
      obtain ⟨hspace, rfl⟩ :=
        TypePath.mk.inj (idAmong_injOn hmem (Option.some.inj (Parent.type.inj hsame)))
      rw [hspace]

/-- The types around a type are those around the type directly around it, and that type. -/
theorem Closed.around_cases (h : Closed ds) (hd : d ∈ ds) :
    d.path.around = [] ∨ ∃ e ∈ ds, d.path.around = e.path.around ++ [e.path] := by
  obtain ⟨chain, hpath, haround⟩ := h d hd
  rw [hpath, TypePath.around_concat]
  rcases List.eq_nil_or_concat chain with rfl | ⟨front, x, hchain⟩
  · exact .inl rfl
  · rw [List.concat_eq_append] at hchain
    subst hchain
    obtain ⟨e, he, heq⟩ := List.mem_map.mp (haround _ (mem_types_self (by simp)))
    exact .inr ⟨e, he, by rw [heq, TypePath.types_concat, TypePath.around_concat]⟩

end Declaration

theorem SourceFile.mem_allDeclarations_iff {d : Declaration} :
    ∀ {files : List SourceFile} {first : Nat}, d ∈ allDeclarations first files ↔
      ∃ (i : Nat) (f : SourceFile), files[i]? = some f ∧ d ∈ f.typeDeclarations (first + i)
  | [], first => by simp [allDeclarations]
  | f :: fs, first => by
    rw [allDeclarations, List.mem_append, mem_allDeclarations_iff]
    constructor
    · rintro (hd | ⟨i, g, hg, hd⟩)
      · exact ⟨0, f, rfl, hd⟩
      · exact ⟨i + 1, g, hg, by rwa [Nat.add_assoc, Nat.add_comm 1] at hd⟩
    · rintro ⟨i, g, hg, hd⟩
      cases i with
      | zero =>
        obtain rfl : f = g := Option.some.inj hg
        exact .inl hd
      | succ i => exact .inr ⟨i, g, hg, by rwa [Nat.add_assoc, Nat.add_comm 1]⟩

theorem SourceFile.mem_of_mem_typeDeclarations {file : Nat} {f : SourceFile} {d : Declaration}
    (h : d ∈ f.typeDeclarations file) : d.file = file ∧ d.decl ∈ Item.allTypes f.items := by
  have hmem : (d.file, d.decl) ∈ (Item.allTypes f.items).map (file, ·) := by
    rw [← Item.map_allDeclarations file f.items [.unit f.usings] []]
    exact List.mem_map_of_mem h
  obtain ⟨_, hd, heq⟩ := List.mem_map.mp hmem
  obtain ⟨hfile, rfl⟩ := Prod.mk.inj heq
  exact ⟨hfile.symm, hd⟩

theorem SourceFile.exists_declaration {files : List SourceFile} {file : Nat} {f : SourceFile}
    {d : TypeDecl} (hf : files[file]? = some f) (hd : d ∈ Item.allTypes f.items) :
    ∃ e ∈ allDeclarations 0 files, e.file = file ∧ e.decl = d := by
  have hmem : (file, d) ∈ (Item.allTypes f.items).map (file, ·) := List.mem_map_of_mem hd
  rw [← Item.map_allDeclarations file f.items [.unit f.usings] []] at hmem
  obtain ⟨e, he, heq⟩ := List.mem_map.mp hmem
  exact ⟨e, mem_allDeclarations_iff.mpr ⟨file, f, hf, by rwa [Nat.zero_add]⟩, Prod.mk.inj heq⟩

/-! ### Symbols of files -/

namespace Compilation

variable {files : List SourceFile} {id : TypeId} {symbol : Symbol}

/-- The symbol that a declaration belongs to. -/
def idAmong (files : List SourceFile) (d : Declaration) : TypeId :=
  Declaration.idAmong (founders (SourceFile.allDeclarations 0 files)) d.path

/-- The symbol of a declaration: the types around it, and all declarations of its path. -/
def IsSymbolOf (files : List SourceFile) (symbol : Symbol) (d : Declaration) : Prop :=
  symbol.enclosing =
      d.path.around.map (Declaration.idAmong (founders (SourceFile.allDeclarations 0 files))) ∧
    symbol.sites = ((SourceFile.allDeclarations 0 files).filter (·.path = d.path)).map
      (siteAmong (founders (SourceFile.allDeclarations 0 files)))

theorem IsSymbolOf.siteAmong_mem {d : Declaration} (h : IsSymbolOf files symbol d)
    (hd : d ∈ SourceFile.allDeclarations 0 files) :
    siteAmong (founders (SourceFile.allDeclarations 0 files)) d ∈ symbol.sites := by
  rw [h.2]
  exact List.mem_map_of_mem (List.mem_filter.mpr ⟨hd, decide_eq_true rfl⟩)

theorem exists_symbol_of_mem {d : Declaration} (hd : d ∈ SourceFile.allDeclarations 0 files) :
    ∃ symbol, (ofFiles files).symbol? (idAmong files d) = some symbol ∧
      IsSymbolOf files symbol d := by
  obtain ⟨e, he, heq⟩ := List.mem_map.mp (mem_map_path_founders.mpr (List.mem_map_of_mem hd))
  simp only [idAmong, IsSymbolOf, ← heq]
  exact exists_symbol_of_mem_founders he

/-- A symbol is known beforehand, and as it was then, or it belongs to a declaration. -/
theorem symbol?_cases (h : (ofFiles files).symbol? id = some symbol) :
    (id < TypeId.firstDeclared ∧ Table.initial.symbol? id = some symbol) ∨
      ∃ d ∈ SourceFile.allDeclarations 0 files, id = idAmong files d ∧
        IsSymbolOf files symbol d := by
  have hplain : ∀ s ∈ Table.initial.symbols, s.sites = [] ∧ s.base = none ∧ s.interfaces = [] := by
    decide
  rw [symbol?_ofFiles, Option.map_eq_some_iff] at h
  obtain ⟨s, hs, rfl⟩ := h
  have hsymbols := hs
  rw [Table.ofFiles_eq] at hsymbols
  rcases getElem?_symbols hsymbols with ⟨hid, hknown⟩ | ⟨d, hd, hid, rfl⟩
  · obtain ⟨hsites, hbase, hinterfaces⟩ := hplain s (List.mem_of_getElem? hknown)
    have hbases : (Table.ofFiles files).basesOf s = (s.base, s.interfaces) := by
      rw [Table.basesOf, Table.writtenBases, hsites, hbase, hinterfaces]
      rfl
    rw [hbases]
    exact .inl ⟨hid, hknown⟩
  · exact .inr ⟨d, mem_founders hd, hid, rfl, rfl⟩

/-- The types around a type known beforehand: none. -/
theorem enclosing_eq_nil_of_lt (h : Table.initial.symbol? id = some symbol) :
    symbol.enclosing = [] ∧ symbol.sites = [] := by
  have hplain : ∀ s ∈ Table.initial.symbols, s.enclosing = [] ∧ s.sites = [] := by decide
  exact hplain symbol (List.mem_of_getElem? h)

/-- The type directly around a type comes before it, and has the same types around it but for
itself. -/
theorem enclosing_cases (h : (ofFiles files).symbol? id = some symbol) :
    symbol.enclosing = [] ∨ ∃ outer, outer < id ∧
      symbol.enclosing = (ofFiles files).enclosing outer ++ [outer] := by
  rcases symbol?_cases h with ⟨-, hknown⟩ | ⟨d, hd, rfl, henclosing, -⟩
  · exact .inl (enclosing_eq_nil_of_lt hknown).1
  rw [henclosing]
  rcases (SourceFile.closed_allDeclarations files).around_cases hd with hnil | ⟨e, he, haround⟩
  · exact .inl (by rw [hnil]; rfl)
  · refine .inr ⟨idAmong files e, ?_, ?_⟩
    · exact (SourceFile.nested_allDeclarations files 0).idAmong_lt hd
        (haround ▸ List.mem_append_right _ (List.mem_singleton_self _))
    · obtain ⟨outer, houter, hsymbol, -⟩ := exists_symbol_of_mem he
      rw [haround, List.map_append, enclosing, houter, Option.map_some, Option.getD_some, hsymbol]
      rfl

theorem containersWithin_eq (files : List SourceFile) :
    ∀ (budget : Nat) (id : TypeId), id < budget →
      (ofFiles files).containersWithin budget id = some ((ofFiles files).enclosing id)
  | budget + 1, id, hid => by
    rw [containersWithin, enclosing]
    cases hsymbol : (ofFiles files).symbol? id with
    | none => rfl
    | some symbol =>
      rw [Option.bind_some, Symbol.container]
      rcases enclosing_cases hsymbol with hnil | ⟨outer, hlt, heq⟩
      · rw [hnil, Option.map_some, Option.getD_some, hnil]
        rfl
      · rw [Option.map_some, Option.getD_some, heq, List.getLast?_concat]
        show Option.map _ ((ofFiles files).containersWithin budget outer) = _
        have houter : outer < budget := Nat.lt_of_lt_of_le hlt (Nat.lt_succ_iff.mp hid)
        rw [containersWithin_eq files budget outer houter]
        rfl

/-! ### Sites of declarations -/

section Sites

variable
  (hspans : ∀ f ∈ files, ((Item.allTypes f.items).flatMap fun d ↦ [d.header.span]).Nodup)
include hspans

theorem idOf_of_isSite {file place : Nat} {d : TypeDecl}
    (h : (ofFiles files).IsSite file d id place) :
    (ofFiles files).idOf file d.header.span = some id := by
  obtain ⟨symbol, site, hsymbol, hsite, rfl, rfl⟩ := h
  exact idOf_of_mem_sites hspans hsymbol (List.mem_of_getElem? hsite)

theorem idOf_eq {d : Declaration} (hd : d ∈ SourceFile.allDeclarations 0 files) :
    (ofFiles files).idOf d.file d.decl.header.span = some (idAmong files d) := by
  obtain ⟨symbol, hsymbol, hsymbolOf⟩ := exists_symbol_of_mem hd
  exact idOf_of_mem_sites hspans hsymbol (hsymbolOf.siteAmong_mem hd)

/-- Declarations share a symbol if they share a path. -/
theorem idOf_eq_iff {d e : Declaration} (hd : d ∈ SourceFile.allDeclarations 0 files)
    (he : e ∈ SourceFile.allDeclarations 0 files) :
    (ofFiles files).idOf d.file d.decl.header.span =
      (ofFiles files).idOf e.file e.decl.header.span ↔ d.path = e.path := by
  rw [idOf_eq hspans hd, idOf_eq hspans he, Option.some.injEq]
  exact ⟨idAmong_injOn (mem_map_path_founders.mpr (List.mem_map_of_mem hd)),
    fun heq ↦ congrArg (Declaration.idAmong _) heq⟩

theorem standsIn_iff {file : Nat} {d : TypeDecl} {parent : Parent} :
    (ofFiles files).StandsIn file d parent ↔
      ∃ e ∈ SourceFile.allDeclarations 0 files, e.file = file ∧
        standingAmong (founders (SourceFile.allDeclarations 0 files)) e = (d, parent) := by
  have hmem {f : SourceFile} (hf : files[file]? = some f) {e : Declaration}
      (he : e ∈ f.typeDeclarations file) : e ∈ SourceFile.allDeclarations 0 files :=
    SourceFile.mem_allDeclarations_iff.mpr ⟨file, f, hf, by rwa [Nat.zero_add]⟩
  have hstanding {f : SourceFile} (hf : files[file]? = some f) :
      Item.allStanding (fun d ↦ (ofFiles files).idOf file d.header.span) [] f.items =
        (f.typeDeclarations file).map
          (standingAmong (founders (SourceFile.allDeclarations 0 files))) := by
    refine Item.allStanding_eq file f.items _ _ fun e he ↦ ?_
    have hidOf := idOf_eq hspans (hmem hf he)
    rwa [(SourceFile.mem_of_mem_typeDeclarations he).1] at hidOf
  constructor
  · rintro ⟨f, hf, hparent⟩
    rw [hstanding hf] at hparent
    obtain ⟨e, he, heq⟩ := List.mem_map.mp hparent
    exact ⟨e, hmem hf he, (SourceFile.mem_of_mem_typeDeclarations he).1, heq⟩
  · rintro ⟨e, he, rfl, heq⟩
    obtain ⟨i, f, hf, hdeclared⟩ := SourceFile.mem_allDeclarations_iff.mp he
    rw [Nat.zero_add] at hdeclared
    obtain rfl := (SourceFile.mem_of_mem_typeDeclarations hdeclared).1
    refine ⟨f, hf, ?_⟩
    rw [hstanding hf]
    exact List.mem_map.mpr ⟨e, hdeclared, heq⟩

end Sites

/-- The sites of a symbol are in the order of their files and places. -/
theorem pairwise_sites (hstarts : ∀ f ∈ files, (Item.allStarts f.items).Pairwise (· < ·))
    (h : (ofFiles files).symbol? id = some symbol) :
    symbol.sites.Pairwise fun s s' ↦ ComesBefore (s.file, s.decl) (s'.file, s'.decl) := by
  rcases symbol?_cases h with ⟨-, hknown⟩ | ⟨d, -, -, -, hsites⟩
  · rw [(enclosing_eq_nil_of_lt hknown).2]
    exact .nil
  · have hall := SourceFile.pairwise_declarations files 0 hstarts
    rw [← SourceFile.map_allDeclarations, List.pairwise_map] at hall
    rw [hsites]
    exact List.pairwise_map.mpr (hall.filter _)

theorem not_comesBefore_self (p : Nat × TypeDecl) : ¬ ComesBefore p p := by
  rintro (hlt | ⟨-, hlt⟩)
  · exact Nat.lt_irrefl _ hlt
  · exact Nat.lt_irrefl _ hlt

/-- No declaration is a site at two places. -/
theorem IsSite.place_unique (hstarts : ∀ f ∈ files, (Item.allStarts f.items).Pairwise (· < ·))
    {file : Nat} {d : TypeDecl} {place place' : Nat} (h : (ofFiles files).IsSite file d id place)
    (h' : (ofFiles files).IsSite file d id place') : place = place' := by
  obtain ⟨symbol, site, hsymbol, hsite, rfl, rfl⟩ := h
  obtain ⟨symbol', site', hsymbol', hsite', hfile, hdecl⟩ := h'
  obtain rfl := Option.some.inj (hsymbol.symm.trans hsymbol')
  have hnodup : (symbol.sites.map fun s ↦ (s.file, s.decl)).Nodup := by
    refine (List.pairwise_map.mpr (pairwise_sites hstarts hsymbol)).imp fun {p q} hbefore heq ↦ ?_
    exact not_comesBefore_self q (heq ▸ hbefore)
  obtain ⟨hlt, -⟩ := List.getElem?_eq_some_iff.mp hsite
  refine (List.getElem?_inj (by rwa [List.length_map]) hnodup).mp ?_
  rw [List.getElem?_map, List.getElem?_map, hsite, hsite', Option.map_some, Option.map_some, hfile,
    hdecl]

/-- A declaration is a site of one symbol, at one place. -/
theorem existsUnique_isSite
    (hspans : ∀ f ∈ files, ((Item.allTypes f.items).flatMap fun d ↦ [d.header.span]).Nodup)
    (hstarts : ∀ f ∈ files, (Item.allStarts f.items).Pairwise (· < ·)) {d : Declaration}
    (hd : d ∈ SourceFile.allDeclarations 0 files) :
    ∃! found : TypeId × Nat, (ofFiles files).IsSite d.file d.decl found.1 found.2 := by
  obtain ⟨symbol, hsymbol, hsymbolOf⟩ := exists_symbol_of_mem hd
  obtain ⟨place, hplace⟩ := List.mem_iff_getElem?.mp (hsymbolOf.siteAmong_mem hd)
  have hsite : (ofFiles files).IsSite d.file d.decl (idAmong files d) place :=
    ⟨symbol, _, hsymbol, hplace, rfl, rfl⟩
  refine ⟨(idAmong files d, place), hsite, ?_⟩
  rintro ⟨id, place'⟩ hsite'
  have hid : some id = some (idAmong files d) :=
    (idOf_of_isSite hspans hsite').symm.trans (idOf_eq hspans hd)
  obtain rfl := Option.some.inj hid
  exact Prod.ext rfl (IsSite.place_unique hstarts hsite' hsite)

/-- Known types are as they were, and have no declarations. -/
theorem initial_of_isWellKnown (h : (ofFiles files).symbol? id = some symbol)
    (hknown : id.isWellKnown = true) :
    Table.initial.symbol? id = some symbol ∧ symbol.sites = [] := by
  rcases symbol?_cases h with ⟨-, hinitial⟩ | ⟨d, -, rfl, -⟩
  · exact ⟨hinitial, (enclosing_eq_nil_of_lt hinitial).2⟩
  · exact absurd hknown (by simp [idAmong, isWellKnown_idAmong])

/-- The table of files that have been read is built as it should be, as far as offsets reach: every
declaration is a site of one symbol, which it shares with the declarations of the same name in the
same namespace or type. -/
theorem organized_ofTexts {texts : List (String × String)} (hreach : Sources.InReach texts) :
    (ofFiles (Sources.ofTexts texts).files).Organized := by
  have hspans := Sources.nodup_spans hreach
  have hstarts := Sources.pairwise_starts hreach
  have hpieces := SourceFile.spacesOfPieces _ 0 (Sources.isPiece_of_mem_allPieces texts)
  generalize (Sources.ofTexts texts).files = files at hspans hstarts hpieces
  have hclosed := SourceFile.closed_allDeclarations files
  constructor
  case stands =>
    intro file f d hf hd
    obtain ⟨e, he, rfl, rfl⟩ := SourceFile.exists_declaration hf hd
    exact ⟨_, (standsIn_iff hspans).mpr ⟨e, he, rfl, rfl⟩⟩
  case site =>
    intro file f d hf hd
    obtain ⟨e, he, rfl, rfl⟩ := SourceFile.exists_declaration hf hd
    exact existsUnique_isSite hspans hstarts he
  case idOf => exact fun file d id place hsite ↦ idOf_of_isSite hspans hsite
  case same =>
    intro file d parent file' d' parent' hstands hstands'
    obtain ⟨e, he, rfl, heq⟩ := (standsIn_iff hspans).mp hstands
    obtain ⟨e', he', rfl, heq'⟩ := (standsIn_iff hspans).mp hstands'
    obtain ⟨rfl, rfl⟩ := Prod.mk.inj heq
    obtain ⟨rfl, rfl⟩ := Prod.mk.inj heq'
    exact (idOf_eq_iff hspans he he').trans (hclosed.path_eq_iff hpieces he he')
  case ordered => exact fun id symbol hsymbol ↦ pairwise_sites hstarts hsymbol
  case container =>
    intro id symbol outer hsymbol hcontainer
    rcases enclosing_cases hsymbol with hnil | ⟨outer', hlt, heq⟩
    · rw [Symbol.container, hnil] at hcontainer
      cases hcontainer
    · rw [Symbol.container, heq, List.getLast?_concat] at hcontainer
      exact Option.some.inj hcontainer ▸ hlt
  case containers => exact fun id ↦ containersWithin_eq files (id + 1) id (Nat.lt_succ_self id)
  case known => exact fun id symbol hsymbol hknown ↦ initial_of_isWellKnown hsymbol hknown

/-- Types in two files, nested in types and spread over declarations, of which one hides a known
type. -/
private def spreadTexts : List (String × String) :=
  [("A.cs", "namespace System{partial class Int32{class D{}}}"),
    ("B.cs", "namespace System{partial class Int32{class D{}class D<T>{}}}")]

theorem organized_ofTexts_spread :
    Sources.InReach spreadTexts ∧ (ofFiles (Sources.ofTexts spreadTexts).files).Organized :=
  have hreach : Sources.InReach spreadTexts := by decide
  ⟨hreach, organized_ofTexts hreach⟩

/-- Two declarations that offsets do not reach. The table does not depend on the source. -/
private def farFile (source : String) : SourceFile :=
  (Parsed.ofLexed "Far.cs" source
    ((Token.ofSource "class D{}class E<T>{}").map (.shifted (Span.maxOffset + 1)))).file

private theorem farFile_facts :
    ((ofFiles [farFile ""]).symbol? 19).bind (fun s ↦ s.sites.head?.map fun site ↦
        (site.file, site.decl.header.span)) = some (0, Span.point Span.maxOffset) ∧
      (ofFiles [farFile ""]).idOf 0 (Span.point Span.maxOffset) = some 20 := by
  decide +kernel

/-- Of declarations that offsets do not reach, only the last one is found again. -/
theorem not_forall_organized_ofTexts :
    ¬ ∀ texts : List (String × String), (ofFiles (Sources.ofTexts texts).files).Organized := by
  intro hall
  obtain ⟨source, hfiles⟩ := Sources.files_blanks "Far.cs" (Span.maxOffset + 1)
    "class D{}class E<T>{}"
  obtain ⟨hfirst, hlast⟩ := farFile_facts
  obtain ⟨symbol, hsymbol, hsite⟩ := Option.bind_eq_some_iff.mp hfirst
  obtain ⟨site, hhead, hplace⟩ := Option.map_eq_some_iff.mp hsite
  obtain ⟨hfile, hspan⟩ := Prod.mk.inj hplace
  have hfar := hall [("Far.cs", String.ofList (Text.blanks (Span.maxOffset + 1) ++
    "class D{}class E<T>{}".toList))]
  rw [hfiles] at hfar
  have hfound := hfar.idOf 0 site.decl 19 0
    ⟨symbol, site, hsymbol, List.head?_eq_getElem? ▸ hhead, hfile, rfl⟩
  rw [hspan] at hfound
  exact absurd (hlast.symm.trans hfound) (by decide)

/-- A declared type hides the known one of its name, and does not become it. -/
example : (ofFiles (Sources.ofTexts [("Int32.cs", "namespace System { struct Int32 { } }")]).files
    ).lookup "System.Int32" 0 = some TypeId.firstDeclared := by decide +kernel

end Compilation
end Companion
