import Companion.Proofs.Symbol.Redeclaration
import Companion.Proofs.Symbol.Relocation

/-!
Files of which everything stands at other places. If two lists of files declare the same types in
the same scopes, and open the same namespaces (`SourceFile.Displaces`), then they have the same
table but for the places of the sites (`SourceFile.Displaces.symbol?_eq`), and whatever is written
in the one and in the other stands for the same type (`SourceFile.Displaces.resolve_bare`). One file
whose declarations stand at other places is such a change (`SourceFile.Relocates.displaces`).
-/

set_option autoImplicit false
set_option relaxedAutoImplicit false

namespace Companion

/-! ### Symbols at other places -/

section Displaced

variable (move : Nat → Span → Span)

/-- A declaration with every place changed as it is in its file. -/
def Declaration.displaced (d : Declaration) : Declaration := d.relocated (move d.file)

def Site.displaced (site : Site) : Site :=
  ⟨site.file, site.decl.relocated (move site.file),
    site.body.map (Level.relocated (move site.file))⟩

def Symbol.displaced (symbol : Symbol) : Symbol :=
  { symbol with sites := symbol.sites.map (Site.displaced move) }

end Displaced

theorem Level.placeless_relocated (g : Span → Span) (l : Level) :
    (l.relocated g).placeless = l.placeless := by
  cases l with
  | type id => rfl
  | _ =>
    rw [relocated, placeless, placeless, List.map_map]
    exact congrArg _ (List.map_congr_left fun u _ ↦ Using.placeless_relocated u)

theorem Level.usings_relocated (g : Span → Span) (l : Level) :
    (l.relocated g).usings = l.usings.map (Using.relocated g) := by
  cases l <;> rfl

theorem Scope.usings_relocated (g : Span → Span) (s : Scope) :
    Scope.usings (s.map (Level.relocated g)) = (Scope.usings s).map (Using.relocated g) := by
  rw [usings, usings, ← List.map_reverse, List.flatMap_map]
  simp only [Level.usings_relocated]
  rw [← List.map_flatMap, List.filter_map]
  rfl

theorem TypeDecl.header_relocated (g : Span → Span) (d : TypeDecl) :
    (d.relocated g).header = d.header.relocated g := by
  cases d
  rfl

theorem TypeDecl.fields_relocated (g : Span → Span) (d : TypeDecl) :
    (d.relocated g).fields = d.fields.map (Field.relocated g) := by
  obtain ⟨h, ms⟩ := d
  have hmembers : ∀ ms : List Member,
      (mk (h.relocated g) (Member.allRelocated g ms)).fields =
        (mk h ms).fields.map (Field.relocated g) := by
    intro ms
    induction ms with
    | nil => rfl
    | cons m ms ih =>
      rw [fields, members] at ih ⊢
      cases m <;> simp_all [Member.allRelocated, Member.relocated, fields, members]
  exact hmembers ms

namespace Declaration

variable {move : Nat → Span → Span} (ds : List Declaration)

theorem map_path_displaced : (ds.map (displaced move)).map path = ds.map path := by
  rw [List.map_map]
  rfl

theorem founders_displaced :
    founders (ds.map (displaced move)) = (founders ds).map (displaced move) := by
  induction ds using List.reverseRecOn with
  | nil => rfl
  | append_singleton ds d ih =>
    rw [List.map_append, List.map_singleton, founders_concat, founders_concat, ih, found, found,
      map_path_displaced, show (d.displaced move).path = d.path from rfl]
    split
    · rfl
    · rw [List.map_append, List.map_singleton]

theorem idAmong_displaced : idAmong (ds.map (displaced move)) = idAmong ds := by
  funext p
  rw [idAmong, idAmong, map_path_displaced]

theorem siteAmong_displaced (d : Declaration) :
    siteAmong (ds.map (displaced move)) (d.displaced move) = (siteAmong ds d).displaced move := by
  rw [siteAmong, siteAmong, Site.displaced, idAmong_displaced, List.map_append, List.map_map]
  rfl

theorem symbolAmong_displaced (fs : List Declaration) (d : Declaration) :
    symbolAmong (fs.map (displaced move)) (ds.map (displaced move)) (d.displaced move) =
      (symbolAmong fs ds d).displaced move := by
  have hsites : ((ds.map (displaced move)).filter (·.path = (d.displaced move).path)).map
      (siteAmong (fs.map (displaced move))) =
      ((ds.filter (·.path = d.path)).map (siteAmong fs)).map (Site.displaced move) := by
    rw [List.filter_map, List.map_map, List.map_map]
    exact List.map_congr_left fun e _ ↦ siteAmong_displaced fs e
  have hparams : (d.decl.relocated (move d.file)).header.typeParams.map (·.name) =
      d.decl.header.typeParams.map (·.name) := by
    rw [TypeDecl.header_relocated, TypeHeader.relocated, List.map_map]
    rfl
  rw [symbolAmong, symbolAmong, hsites, idAmong_displaced, Table.freshSymbol, Table.freshSymbol,
    show (d.displaced move).decl = d.decl.relocated (move d.file) from rfl, hparams,
    TypeDecl.header_relocated]
  rfl

theorem symbols_displaced :
    symbols (ds.map (displaced move)) = (symbols ds).map (Symbol.displaced move) := by
  have hinitial : ∀ s ∈ Table.initial.symbols, s.sites = [] := by decide
  rw [symbols, symbols, founders_displaced, List.map_append, List.map_map, List.map_map]
  refine congrArg₂ _ ?_ (List.map_congr_left fun d _ ↦ symbolAmong_displaced ds _ d)
  refine (List.map_id _).symm.trans (List.map_congr_left fun s hs ↦ ?_)
  rw [Symbol.displaced, hinitial s hs, List.map_nil, ← hinitial s hs]
  rfl

theorem places_displaced : places (ds.map (displaced move)) =
    (places ds).map fun p ↦ ((p.1.1, move p.1.1 p.1.2), p.2) := by
  rw [places, places, List.map_map, List.map_map, founders_displaced, idAmong_displaced]
  refine List.map_congr_left fun d _ ↦ ?_
  simp only [Function.comp_apply, displaced, relocated, TypeDecl.header_relocated,
    TypeHeader.relocated]

end Declaration

/-! ### Tables -/

/-- The second files declare what the first ones declare, in the same scopes, with every place
changed as it is in its file; and where a declaration is written with a directive or an attribute,
the text of that is the same. -/
structure SourceFile.Displaces (move : Nat → Span → Span) (files files' : List SourceFile) :
    Prop where
  paths : files'.map (·.path) = files.map (·.path)
  declarations : allDeclarations 0 files' =
    (allDeclarations 0 files).map (Declaration.displaced move)
  spaces : files'.flatMap SourceFile.spaces = files.flatMap SourceFile.spaces
  globalUsings : (files'.flatMap fun f ↦ f.usings.filter (·.isGlobal)) =
    files.flatMap fun f ↦ f.usings.filter (·.isGlobal)
  injective : ∀ file, Function.Injective (move file)
  usingTexts : ∀ d ∈ allDeclarations 0 files, ∀ level ∈ d.outside, ∀ u ∈ level.usings,
    (Compilation.ofFiles files').text d.file (move d.file u.span) =
      (Compilation.ofFiles files).text d.file u.span
  attributeTexts : ∀ d ∈ allDeclarations 0 files, ∀ f ∈ d.decl.fields, ∀ a ∈ f.allAttributes,
    (Compilation.ofFiles files').text d.file (move d.file a.span) =
      (Compilation.ofFiles files).text d.file a.span

namespace SourceFile.Displaces

variable {move : Nat → Span → Span} {files files' : List SourceFile}
  (h : Displaces move files files')
include h

theorem ofFiles_eq : Table.ofFiles files' = { Table.ofFiles files with
    symbols := (Table.ofFiles files).symbols.map (Symbol.displaced move)
    places := (Table.ofFiles files).places.map fun p ↦ ((p.1.1, move p.1.1 p.1.2), p.2) } := by
  rw [Table.ofFiles_eq, Table.ofFiles_eq, h.declarations, Declaration.symbols_displaced,
    Declaration.places_displaced, h.spaces, h.globalUsings]

theorem map_symbol? {β : Type} (f : Symbol → β) (hf : ∀ s, f (s.displaced move) = f s)
    (id : TypeId) :
    ((Table.ofFiles files').symbol? id).map f = ((Table.ofFiles files).symbol? id).map f := by
  rw [h.ofFiles_eq, Table.symbol?, Table.symbol?, List.getElem?_map, Option.map_map]
  exact congrArg (Option.map · _) (funext hf)

theorem agrees : (Table.ofFiles files).Agrees (fun _ ↦ True) (Table.ofFiles files') := by
  rw [h.ofFiles_eq]
  refine ⟨fun key _ ↦ Table.lastWithKey_congr 0 ?_, fun _ _ _ ↦ rfl, rfl, rfl,
    fun _ _ _ _ ↦ trivial⟩
  rw [List.map_map]
  rfl

/-- A reference that is written at other places stands for the same type. -/
theorem resolve_bare (g : Span → Span) (scope : Scope) (r : TypeRef) :
    (Table.ofFiles files').resolve (scope.map (Level.relocated g)) (r.relocated g) =
      (Table.ofFiles files).resolve scope r := by
  have hscope :
      (scope.map (Level.relocated g)).map Level.placeless = scope.map Level.placeless := by
    rw [List.map_map]
    exact List.map_congr_left fun l _ ↦ Level.placeless_relocated g l
  rw [Table.resolve_eq_of_placeless _ hscope (TypeRef.placeless_relocated r)]
  exact h.agrees.resolve (fun _ _ _ _ _ _ ↦ trivial)
    (fun id _ ↦ h.map_symbol? Symbol.typeParams (fun _ ↦ rfl) id) fun _ _ ↦ trivial

/-- A type has the same bases. -/
theorem basesOf_displaced (symbol : Symbol) :
    (Table.ofFiles files').basesOf (symbol.displaced move) =
      (Table.ofFiles files).basesOf symbol := by
  refine Table.basesOf_congr rfl ?written fun w _ ↦ ?interface
  case written =>
    rw [Table.writtenBases, Table.writtenBases, Symbol.displaced, List.flatMap_map]
    refine List.flatMap_congr fun site _ ↦ ?_
    rw [Site.displaced, TypeDecl.header_relocated, TypeHeader.relocated,
      List.mapIdx_eq_zipIdx_map, List.mapIdx_eq_zipIdx_map, List.zipIdx_map, List.map_map]
    refine List.map_congr_left fun p _ ↦ ?_
    exact congrArg (·, p.2 == 0) (h.resolve_bare (move site.file) site.body p.1)
  case interface =>
    have hkind : (Table.ofFiles files').kindOf w.1 = (Table.ofFiles files).kindOf w.1 := by
      rw [Table.kindOf, Table.kindOf]
      cases w.1.stripNullable.id? with
      | none => rfl
      | some id => exact h.map_symbol? Symbol.kind (fun _ ↦ rfl) id
    rw [Table.isInterface, Table.isInterface, hkind]

/-! ### Compilations -/

theorem symbols_eq : (Compilation.ofFiles files').table.symbols =
    (Compilation.ofFiles files).table.symbols.map (Symbol.displaced move) := by
  have hsymbols : (Table.ofFiles files').symbols =
      (Table.ofFiles files).symbols.map (Symbol.displaced move) :=
        congrArg Table.symbols h.ofFiles_eq
  change (Table.ofFiles files').symbols.map _ = ((Table.ofFiles files).symbols.map _).map _
  rw [hsymbols, List.map_map, List.map_map]
  refine List.map_congr_left fun symbol _ ↦ ?_
  simp only [Function.comp_apply, h.basesOf_displaced]
  rfl

/-- Every type has its number. -/
theorem symbol?_eq (id : TypeId) : (Compilation.ofFiles files').symbol? id =
    ((Compilation.ofFiles files).symbol? id).map (Symbol.displaced move) := by
  rw [Compilation.symbol?, Table.symbol?, h.symbols_eq, List.getElem?_map]
  rfl

theorem resolve (g : Span → Span) (scope : Scope) (r : TypeRef) :
    (Compilation.ofFiles files').resolve (scope.map (Level.relocated g)) (r.relocated g) =
      (Compilation.ofFiles files).resolve scope r :=
  (Table.resolve_withBases ..).trans
    ((h.resolve_bare g scope r).trans (Table.resolve_withBases ..).symm)

/-- A place in a file is that of a declaration of the type that had a declaration there. -/
theorem idOf (file : Nat) (place : Span) :
    (Compilation.ofFiles files').idOf file (move file place) =
      (Compilation.ofFiles files).idOf file place := by
  have hplaces : (Compilation.ofFiles files').table.places =
      (Compilation.ofFiles files).table.places.map fun p ↦ ((p.1.1, move p.1.1 p.1.2), p.2) :=
    congrArg Table.places h.ofFiles_eq
  rw [Compilation.idOf, Compilation.idOf, hplaces, ← List.map_reverse]
  induction (Compilation.ofFiles files).table.places.reverse with
  | nil => rfl
  | cons p ps ih =>
    obtain ⟨⟨other, found⟩, id⟩ := p
    have hsame : ((file, move file place) == (other, move other found)) =
        ((file, place) == (other, found)) := by
      rw [Bool.eq_iff_iff, beq_iff_eq, beq_iff_eq, Prod.mk.injEq, Prod.mk.injEq]
      refine and_congr_right fun hfile ↦ ?_
      rw [← hfile, (h.injective file).eq_iff]
    rw [List.map_cons, List.lookup_cons, List.lookup_cons, ih, hsame]

end SourceFile.Displaces

/-! ### One file at other places -/

namespace SourceFile

variable {before after : List SourceFile} {f f' : SourceFile}

theorem file_of_mem_allDeclarations {files : List SourceFile} {first : Nat} {d : Declaration}
    (hd : d ∈ allDeclarations first files) : first ≤ d.file ∧ d.file < first + files.length := by
  obtain ⟨i, f, hf, hd⟩ := mem_allDeclarations_iff.1 hd
  have hi := (List.getElem?_eq_some_iff.1 hf).1
  rw [(mem_of_mem_typeDeclarations hd).1]
  omega

theorem getElem?_length : (before ++ f :: after)[before.length]? = some f := by
  rw [List.getElem?_append_right (Nat.le_refl _), Nat.sub_self, List.getElem?_cons_zero]

theorem getElem?_of_ne_length {file : Nat} (hfile : file ≠ before.length) :
    (before ++ f' :: after)[file]? = (before ++ f :: after)[file]? := by
  rcases Nat.lt_or_gt_of_ne hfile with hlt | hgt
  · rw [List.getElem?_append_left hlt, List.getElem?_append_left hlt]
  · obtain ⟨k, hk⟩ := Nat.exists_eq_add_of_lt hgt
    rw [List.getElem?_append_right hgt.le, List.getElem?_append_right hgt.le, hk,
      show before.length + k + 1 - before.length = k + 1 by omega, List.getElem?_cons_succ,
      List.getElem?_cons_succ]

theorem mem_of_file_eq {d : Declaration} (hd : d ∈ allDeclarations 0 (before ++ f :: after))
    (hfile : d.file = before.length) :
    d ∈ f.typeDeclarations d.file ∧ d.decl ∈ Item.allTypes f.items := by
  obtain ⟨declaring, hdeclaring, hmem⟩ := exists_file_of_mem_allDeclarations hd
  rw [hfile, getElem?_length] at hdeclaring
  obtain rfl := Option.some.inj hdeclaring
  exact hmem

/-- Places of one file are changed, and those of the other files are not. -/
def moveAt (file : Nat) (g : Span → Span) (other : Nat) : Span → Span :=
  if other = file then g else id

/-- A file that declares what another one declares, in the same scopes, with every place changed.
Where a declaration is written with a directive or an attribute, the text of that is the same. -/
structure Relocates (g : Span → Span) (f f' : SourceFile) : Prop where
  path : f'.path = f.path
  declarations : ∀ file, f'.typeDeclarations file =
    (f.typeDeclarations file).map (Declaration.relocated g)
  spaces : f'.spaces = f.spaces
  globalUsings : f'.usings.filter (·.isGlobal) = f.usings.filter (·.isGlobal)
  injective : Function.Injective g
  usingTexts : ∀ file, ∀ d ∈ f.typeDeclarations file, ∀ level ∈ d.outside, ∀ u ∈ level.usings,
    f'.text (g u.span) = f.text u.span
  attributeTexts : ∀ d ∈ Item.allTypes f.items, ∀ field ∈ d.fields, ∀ a ∈ field.allAttributes,
    f'.text (g a.span) = f.text a.span

namespace Relocates

variable {g : Span → Span}

theorem displaced_of_file_ne {file : Nat} {ds : List Declaration} (hds : ∀ d ∈ ds, d.file ≠ file) :
    ds.map (Declaration.displaced (moveAt file g)) = ds := by
  refine (List.map_congr_left fun d hd ↦ ?_).trans (List.map_id ds)
  rw [Declaration.displaced, moveAt, if_neg (hds d hd), Declaration.relocated_id]
  rfl

theorem text_eq {d : Declaration} {place : Span}
    (hplace : d.file = before.length → f'.text (g place) = f.text place) :
    (Compilation.ofFiles (before ++ f' :: after)).text d.file
        (moveAt before.length g d.file place) =
      (Compilation.ofFiles (before ++ f :: after)).text d.file place := by
  by_cases hfile : d.file = before.length
  · rw [moveAt, if_pos hfile, hfile]
    change ((before ++ f' :: after)[before.length]?.map _).getD "" =
      ((before ++ f :: after)[before.length]?.map _).getD ""
    rw [getElem?_length, getElem?_length]
    exact hplace hfile
  · rw [moveAt, if_neg hfile]
    exact congrArg (fun o ↦ (o.map (SourceFile.text · place)).getD "") (getElem?_of_ne_length hfile)

variable (h : Relocates g f f')
include h

/-- One file among others may be changed so. -/
theorem displaces (before after : List SourceFile) :
    Displaces (moveAt before.length g) (before ++ f :: after) (before ++ f' :: after) where
  paths := by rw [List.map_append, List.map_append, List.map_cons, List.map_cons, h.path]
  declarations := by
    have hmiddle : (f.typeDeclarations before.length).map
        (Declaration.displaced (moveAt before.length g)) = f'.typeDeclarations before.length := by
      rw [h.declarations]
      refine List.map_congr_left fun d hd ↦ ?_
      rw [Declaration.displaced, moveAt, if_pos (mem_of_mem_typeDeclarations hd).1]
    rw [allDeclarations_append, allDeclarations_append, allDeclarations, allDeclarations,
      Nat.zero_add, List.map_append, List.map_append, hmiddle, displaced_of_file_ne,
      displaced_of_file_ne]
    · intro d hd
      have hfile := file_of_mem_allDeclarations hd
      omega
    · intro d hd
      have hfile := file_of_mem_allDeclarations hd
      omega
  spaces := by
    rw [List.flatMap_append, List.flatMap_append, List.flatMap_cons, List.flatMap_cons, h.spaces]
  globalUsings := by
    rw [List.flatMap_append, List.flatMap_append, List.flatMap_cons, List.flatMap_cons,
      h.globalUsings]
  injective file := by
    rw [moveAt]
    split
    · exact h.injective
    · exact Function.injective_id
  usingTexts d hd level hlevel u hu := text_eq fun hfile ↦
    h.usingTexts d.file d (mem_of_file_eq hd hfile).1 level hlevel u hu
  attributeTexts d hd field hfield a ha := text_eq fun hfile ↦
    h.attributeTexts d.decl (mem_of_file_eq hd hfile).2 field hfield a ha

end Relocates
end SourceFile
end Companion
