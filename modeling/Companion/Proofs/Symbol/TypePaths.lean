import Companion.Proofs.Symbol.Sites
import Mathlib.Data.List.Infix

/-!
Declarations and the symbols of their paths. A declaration is told apart by its path: its namespace,
and the names of the types around it and of its own type, each with its number of type parameters
(`TypePath`). A list of declarations has one symbol for each path in it, in the order in which the
paths first occur, with all declarations of the path as its sites (`Declaration.symbols`); and such
symbols have keys of their own (`Declaration.Closed.nodup_keys`). To declare one more type in a
table with these symbols is to append the declaration to the list (`Declaration.Closed.declare_eq`).
-/

set_option autoImplicit false
set_option relaxedAutoImplicit false

namespace Companion

/-! ### Declarations and their paths -/

/-- What a declared type is: its namespace, and the types around it with its own name last, each
with its number of type parameters. -/
structure TypePath where
  space : Space
  chain : List (String × Nat)
  deriving DecidableEq

namespace TypePath

/-- The types around a type and the type itself, outermost first. -/
def types (p : TypePath) : List TypePath := p.chain.inits.tail.map (mk p.space)

/-- The types around a type, outermost first. -/
def around (p : TypePath) : List TypePath := (mk p.space p.chain.dropLast).types

theorem types_concat (space : Space) (chain : List (String × Nat)) (x : String × Nat) :
    (mk space (chain ++ [x])).types = (mk space chain).types ++ [mk space (chain ++ [x])] := by
  have hne : chain.inits ≠ [] := by cases chain <;> simp
  simp [types, List.inits_append, List.tail_append_of_ne_nil hne]

theorem around_concat (space : Space) (chain : List (String × Nat)) (x : String × Nat) :
    (mk space (chain ++ [x])).around = (mk space chain).types := by
  rw [around, List.dropLast_concat]

/-- The type directly around a type comes last. -/
theorem getLast?_types (space : Space) (chain : List (String × Nat)) :
    (mk space chain).types.getLast? = if chain = [] then none else some (mk space chain) := by
  induction chain using List.reverseRecOn with
  | nil => rfl
  | append_singleton chain x _ =>
    rw [types_concat, List.getLast?_concat]
    simp

end TypePath

/-- A declaration of a type, apart from any table. -/
structure Declaration where
  /-- The place of the file among the files. -/
  file : Nat
  decl : TypeDecl
  path : TypePath
  /-- The scope around the outermost type. -/
  outside : Scope

mutual

/-- A type declaration with all declarations nested in it, outermost first. -/
def TypeDecl.declarations (file : Nat) (outside : Scope) (space : Space)
    (chain : List (String × Nat)) : TypeDecl → List Declaration
  | .mk h ms =>
    ⟨file, .mk h ms, ⟨space, chain ++ [(h.name, h.arity)]⟩, outside⟩ ::
      Member.declarations file outside space (chain ++ [(h.name, h.arity)]) ms

def Member.declarations (file : Nat) (outside : Scope) (space : Space)
    (chain : List (String × Nat)) : List Member → List Declaration
  | [] => []
  | .type d :: ms =>
    TypeDecl.declarations file outside space chain d ++
      Member.declarations file outside space chain ms
  | .field _ :: ms | .other _ :: ms => Member.declarations file outside space chain ms

end

mutual

/-- The declarations in an item. -/
def Item.declarations (file : Nat) (scope : Scope) (space : Space) : Item → List Declaration
  | .namespaceDecl h items =>
    Item.allDeclarations file (Table.openSpace scope space h.usings h.parts).2.1
      (Table.openSpace scope space h.usings h.parts).2.2 items
  | .typeDecl d => d.declarations file scope space []

def Item.allDeclarations (file : Nat) (scope : Scope) (space : Space) : List Item → List Declaration
  | [] => []
  | i :: is => Item.declarations file scope space i ++ Item.allDeclarations file scope space is

end

mutual

/-- The namespaces that an item opens. -/
def Item.spaces (scope : Scope) (space : Space) : Item → List Space
  | .namespaceDecl h items =>
    (Table.openSpace scope space h.usings h.parts).1 ++
      Item.allSpaces (Table.openSpace scope space h.usings h.parts).2.1
        (Table.openSpace scope space h.usings h.parts).2.2 items
  | .typeDecl _ => []

def Item.allSpaces (scope : Scope) (space : Space) : List Item → List Space
  | [] => []
  | i :: is => Item.spaces scope space i ++ Item.allSpaces scope space is

end

namespace SourceFile

/-- The declarations of a file. -/
def typeDeclarations (file : Nat) (f : SourceFile) : List Declaration :=
  Item.allDeclarations file [.unit f.usings] [] f.items

/-- The namespaces that a file opens. -/
def spaces (f : SourceFile) : List Space := Item.allSpaces [.unit f.usings] [] f.items

/-- The declarations of files that are counted from `first`. -/
def allDeclarations (first : Nat) : List SourceFile → List Declaration
  | [] => []
  | f :: fs => f.typeDeclarations first ++ allDeclarations (first + 1) fs

end SourceFile

/-! ### Symbols by paths -/

namespace Declaration

/-- One more declaration: the first one of a path founds the symbol. -/
def found (founders : List Declaration) (d : Declaration) : List Declaration :=
  if d.path ∈ founders.map path then founders else founders ++ [d]

/-- The first declaration of each path, in order. -/
def founders (ds : List Declaration) : List Declaration := ds.foldl found []

/-- The symbol that the declarations of a path belong to. -/
def idAmong (founders : List Declaration) (p : TypePath) : TypeId :=
  TypeId.firstDeclared + (founders.map path).idxOf p

/-- The site that a declaration makes. -/
def siteAmong (founders : List Declaration) (d : Declaration) : Site :=
  ⟨d.file, d.decl, (d.path.types.map (idAmong founders)).reverse.map .type ++ d.outside⟩

/-- The symbol that a declaration founds. -/
def symbolAmong (founders ds : List Declaration) (d : Declaration) : Symbol :=
  { Table.freshSymbol d.decl.header d.path.space (d.path.around.map (idAmong founders)) with
    sites := (ds.filter (·.path = d.path)).map (siteAmong founders) }

/-- The symbols of the table with some declarations. -/
def symbols (ds : List Declaration) : List Symbol :=
  Table.initial.symbols ++ (founders ds).map (symbolAmong (founders ds) ds)

/-- The places of some declarations, each with the symbol that it belongs to. -/
def places (ds : List Declaration) : List ((Nat × Span) × TypeId) :=
  ds.map fun d ↦ ((d.file, d.decl.header.span), idAmong (founders ds) d.path)

/-- Every path ends with the type that is declared, and the types around it are declared too. -/
def Closed (ds : List Declaration) : Prop :=
  ∀ d ∈ ds, ∃ chain,
    d.path = ⟨d.path.space, chain ++ [(d.decl.header.name, d.decl.header.arity)]⟩ ∧
      ∀ p ∈ (TypePath.mk d.path.space chain).types, p ∈ ds.map path

variable {ds : List Declaration} {d : Declaration} {p : TypePath}

theorem founders_concat (ds : List Declaration) (d : Declaration) :
    founders (ds ++ [d]) = found (founders ds) d := by
  rw [founders, founders, List.foldl_append]
  rfl

theorem mem_founders (h : d ∈ founders ds) : d ∈ ds := by
  induction ds using List.reverseRecOn with
  | nil => cases h
  | append_singleton ds e ih =>
    rw [founders_concat, found] at h
    split at h
    · exact List.mem_append_left _ (ih h)
    · rcases List.mem_append.mp h with h | h
      · exact List.mem_append_left _ (ih h)
      · exact List.mem_append_right _ h

/-- Each path has a founder. -/
theorem mem_map_path_founders : p ∈ (founders ds).map path ↔ p ∈ ds.map path := by
  induction ds using List.reverseRecOn with
  | nil => rfl
  | append_singleton ds e ih =>
    rw [founders_concat, found, List.map_append, List.mem_append, ← ih]
    split
    · rename_i hmem
      simp only [List.map_cons, List.map_nil, List.mem_singleton]
      refine ⟨.inl, ?_⟩
      rintro (h | rfl)
      · exact h
      · exact hmem
    · rw [List.map_append, List.mem_append]

/-- Each path has only one founder. -/
theorem nodup_founders (ds : List Declaration) : ((founders ds).map path).Nodup := by
  induction ds using List.reverseRecOn with
  | nil => exact List.nodup_nil
  | append_singleton ds e ih =>
    rw [founders_concat, found]
    split
    · exact ih
    · rename_i hnew
      rw [List.map_append, List.nodup_append]
      refine ⟨ih, List.nodup_singleton _, ?_⟩
      rintro p hp q hq rfl
      obtain rfl : p = e.path := by simpa using hq
      exact hnew hp

/-- A path that is known keeps its symbol. -/
theorem idAmong_found {fs : List Declaration} (hp : p ∈ fs.map path) :
    idAmong (found fs d) p = idAmong fs p := by
  rw [found]
  split
  · rfl
  · rw [idAmong, idAmong, List.map_append, List.idxOf_append_of_mem hp]

theorem idAmong_injOn {fs : List Declaration} {q : TypePath} (hp : p ∈ fs.map path)
    (h : idAmong fs p = idAmong fs q) : p = q :=
  List.idxOf_inj hp |>.mp (Nat.add_left_cancel h)

/-! ### Keys -/

/-- What a type is looked up by, given the types around it. -/
def keyAmong (founders : List Declaration) (space : Space) (chain : List (String × Nat))
    (name : String) (arity : Nat) : Key :=
  if chain = [] then ⟨space, none, name, arity⟩
  else ⟨[], some (idAmong founders ⟨space, chain⟩), name, arity⟩

theorem key_freshSymbol (fs : List Declaration) (h : TypeHeader) (space : Space)
    (chain : List (String × Nat)) :
    (Table.freshSymbol h space ((TypePath.mk space chain).types.map (idAmong fs))).key =
      keyAmong fs space chain h.name h.arity := by
  simp only [Table.freshSymbol, Symbol.key, Symbol.container, keyAmong, List.getLast?_map,
    TypePath.getLast?_types, Symbol.arity, List.length_map]
  split_ifs <;> rfl

theorem key_symbolAmong {fs : List Declaration} {space : Space} {chain : List (String × Nat)}
    (hd : d.path = ⟨space, chain ++ [(d.decl.header.name, d.decl.header.arity)]⟩) :
    (symbolAmong fs ds d).key =
      keyAmong fs space chain d.decl.header.name d.decl.header.arity := by
  have hkey : (symbolAmong fs ds d).key =
      (Table.freshSymbol d.decl.header d.path.space (d.path.around.map (idAmong fs))).key := rfl
  rw [hkey, hd, TypePath.around_concat, key_freshSymbol]

/-- Types with known types around them are told apart by their keys. -/
theorem keyAmong_injOn {fs : List Declaration} {space space' : Space}
    {chain chain' : List (String × Nat)} {x y : String × Nat}
    (hp : chain ≠ [] → TypePath.mk space chain ∈ fs.map path)
    (h : keyAmong fs space chain x.1 x.2 = keyAmong fs space' chain' y.1 y.2) :
    TypePath.mk space (chain ++ [x]) = ⟨space', chain' ++ [y]⟩ := by
  simp only [keyAmong] at h
  split_ifs at h with hchain hchain' hchain'
  · obtain ⟨rfl, -, hname, harity⟩ := Key.mk.inj h
    rw [hchain, hchain', Prod.ext hname harity]
  · cases (Key.mk.inj h).2.1
  · cases (Key.mk.inj h).2.1
  · obtain ⟨-, hid, hname, harity⟩ := Key.mk.inj h
    obtain ⟨rfl, rfl⟩ := TypePath.mk.inj (idAmong_injOn (hp hchain) (Option.some.inj hid))
    rw [Prod.ext hname harity]

end Declaration

namespace Table

theorem lastWithKey_append (key : Key) (first : TypeId) (l l' : List Symbol) :
    lastWithKey key first (l ++ l') =
      (lastWithKey key (first + l.length) l').or (lastWithKey key first l) := by
  induction l generalizing first with
  | nil => simp [lastWithKey]
  | cons s ss ih =>
    rw [List.cons_append, lastWithKey, ih, lastWithKey, List.length_cons, Nat.add_assoc,
      Nat.add_comm 1]
    cases lastWithKey key (first + (ss.length + 1)) l' <;> rfl

/-- Among symbols with different keys the one with a key is found. -/
theorem lastWithKey_of_nodup {key : Key} {l : List Symbol} (h : (l.map Symbol.key).Nodup)
    (first : TypeId) : lastWithKey key first l =
      if key ∈ l.map Symbol.key then some (first + (l.map Symbol.key).idxOf key) else none := by
  induction l generalizing first with
  | nil => rfl
  | cons s ss ih =>
    obtain ⟨hfirst, hrest⟩ := List.nodup_cons.mp h
    rw [lastWithKey, ih hrest, List.map_cons]
    by_cases hkey : s.key = key
    · subst hkey
      simp [hfirst]
    · by_cases hmem : key ∈ ss.map Symbol.key
      · rw [if_pos hmem, if_pos (List.mem_cons_of_mem _ hmem), List.idxOf_cons_ne _ hkey]
        rw [Nat.add_assoc, Nat.add_comm 1]
      · rw [if_neg hmem, if_neg hkey, if_neg (by simp [hmem, Ne.symm hkey])]

end Table

namespace Declaration

variable {ds : List Declaration} {d : Declaration} {p : TypePath} {key : Key}

theorem length_initial : Table.initial.symbols.length = TypeId.firstDeclared := by decide

/-- The keys of the symbols that declarations found. -/
def keys (ds : List Declaration) : List Key :=
  (founders ds).map fun d ↦ (symbolAmong (founders ds) ds d).key

theorem Closed.of_mem_founders (h : Closed ds) (hd : d ∈ founders ds) : ∃ chain,
    d.path = ⟨d.path.space, chain ++ [(d.decl.header.name, d.decl.header.arity)]⟩ ∧
      ∀ p ∈ (TypePath.mk d.path.space chain).types, p ∈ (founders ds).map path := by
  obtain ⟨chain, hpath, haround⟩ := h d (mem_founders hd)
  exact ⟨chain, hpath, fun p hp ↦ mem_map_path_founders.mpr (haround p hp)⟩

theorem mem_types_self {space : Space} {chain : List (String × Nat)} (h : chain ≠ []) :
    TypePath.mk space chain ∈ (TypePath.mk space chain).types := by
  have hlast := TypePath.getLast?_types space chain
  rw [if_neg h] at hlast
  exact List.mem_of_getLast? hlast

/-- Paths are told apart by their keys. -/
theorem Closed.nodup_keys (h : Closed ds) : (keys ds).Nodup := by
  have hpaths := nodup_founders ds
  rw [keys]
  refine List.Nodup.map_on (fun d hd e he heq ↦ ?_) (List.Nodup.of_map _ hpaths)
  obtain ⟨chain, hpath, haround⟩ := h.of_mem_founders hd
  obtain ⟨chain', hpath', -⟩ := h.of_mem_founders he
  rw [key_symbolAmong hpath, key_symbolAmong hpath'] at heq
  refine List.inj_on_of_nodup_map hpaths hd he ?_
  rw [hpath, hpath']
  exact keyAmong_injOn (x := (_, _)) (y := (_, _)) (fun hne ↦ haround _ (mem_types_self hne)) heq

variable {t : Table}

/-- A key is looked up among the declared types, and then among those known beforehand. -/
theorem Closed.find?_eq (h : Closed ds) (ht : t.symbols = symbols ds) (key : Key) :
    t.find? key =
      (if key ∈ keys ds then some (TypeId.firstDeclared + (keys ds).idxOf key) else none).or
        (Table.initial.find? key) := by
  have hkeys : ((founders ds).map (symbolAmong (founders ds) ds)).map Symbol.key = keys ds := by
    rw [List.map_map, keys]
    rfl
  rw [Table.find?, ht, symbols, Table.lastWithKey_append, Table.lastWithKey_of_nodup, hkeys,
    length_initial, Nat.zero_add]
  · rfl
  · rw [hkeys]
    exact h.nodup_keys

/-- A founder comes where its path is counted. -/
theorem idxOf_path_founders {i : Nat} (hi : i < (founders ds).length) :
    ((founders ds).map path).idxOf (founders ds)[i].path = i := by
  have hcount := (nodup_founders ds).idxOf_getElem i (by simpa using hi)
  rwa [List.getElem_map] at hcount

/-- A founder comes where its key is counted. -/
theorem idxOf_keys (h : Closed ds) (hd : d ∈ founders ds) :
    (keys ds).idxOf (symbolAmong (founders ds) ds d).key =
      ((founders ds).map path).idxOf d.path := by
  obtain ⟨i, hi, rfl⟩ := List.getElem_of_mem hd
  have hcount := h.nodup_keys.idxOf_getElem i (by simpa [keys] using hi)
  simp only [keys, List.getElem_map] at hcount
  rw [keys, hcount, idxOf_path_founders hi]

theorem Closed.find?_of_mem (h : Closed ds) (ht : t.symbols = symbols ds) (hd : d ∈ founders ds) :
    t.find? (symbolAmong (founders ds) ds d).key = some (idAmong (founders ds) d.path) := by
  have hmem : (symbolAmong (founders ds) ds d).key ∈ keys ds := List.mem_map.mpr ⟨d, hd, rfl⟩
  rw [h.find?_eq ht, if_pos hmem, idxOf_keys h hd]
  rfl

/-! ### One more declaration -/

/-- The scope inside a type. -/
def scopeAmong (founders : List Declaration) (p : TypePath) (outside : Scope) : Scope :=
  (p.types.map (idAmong founders)).reverse.map .type ++ outside

theorem map_idAmong_found {fs : List Declaration} {ps : List TypePath}
    (h : ∀ p ∈ ps, p ∈ fs.map path) :
    ps.map (idAmong (found fs d)) = ps.map (idAmong fs) :=
  List.map_congr_left fun p hp ↦ idAmong_found (h p hp)

theorem Closed.types_subset (h : Closed ds) (hd : d ∈ ds) :
    ∀ p ∈ d.path.types, p ∈ (founders ds).map path := by
  obtain ⟨chain, hpath, haround⟩ := h d hd
  intro p hp
  rw [hpath, TypePath.types_concat] at hp
  rcases List.mem_append.mp hp with hp | hp
  · exact mem_map_path_founders.mpr (haround p hp)
  · rw [List.mem_singleton.mp hp, ← hpath]
    exact mem_map_path_founders.mpr (List.mem_map_of_mem hd)

theorem Closed.around_subset (h : Closed ds) (hd : d ∈ ds) :
    ∀ p ∈ d.path.around, p ∈ (founders ds).map path := by
  obtain ⟨chain, hpath, haround⟩ := h d hd
  intro p hp
  rw [hpath, TypePath.around_concat] at hp
  exact mem_map_path_founders.mpr (haround p hp)

/-- A further symbol changes no other. -/
theorem Closed.symbolAmong_found (h : Closed ds) {e : Declaration} (he : e ∈ ds) :
    symbolAmong (found (founders ds) d) ds e = symbolAmong (founders ds) ds e := by
  have hsites : (ds.filter (·.path = e.path)).map (siteAmong (found (founders ds) d)) =
      (ds.filter (·.path = e.path)).map (siteAmong (founders ds)) :=
    List.map_congr_left fun site hsite ↦ by
      rw [siteAmong, siteAmong, map_idAmong_found (h.types_subset (List.mem_of_mem_filter hsite))]
  rw [symbolAmong, symbolAmong, hsites, map_idAmong_found (h.around_subset he)]

/-- Declarations of one path are looked up alike. -/
theorem key_of_path_eq {fs : List Declaration} {e : Declaration}
    {chain chain' : List (String × Nat)}
    (hd : d.path = ⟨d.path.space, chain ++ [(d.decl.header.name, d.decl.header.arity)]⟩)
    (he : e.path = ⟨e.path.space, chain' ++ [(e.decl.header.name, e.decl.header.arity)]⟩)
    (heq : e.path = d.path) : (symbolAmong fs ds e).key =
      keyAmong fs d.path.space chain d.decl.header.name d.decl.header.arity := by
  have hchains := congrArg TypePath.chain (he.symm.trans (heq.trans hd))
  obtain ⟨rfl, hlast⟩ := List.append_inj' hchains rfl
  obtain ⟨hname, harity⟩ := Prod.mk.inj (List.cons.inj hlast).1
  rw [key_symbolAmong he, hname, harity, heq]

theorem isWellKnown_idAmong (fs : List Declaration) (p : TypePath) :
    (idAmong fs p).isWellKnown = false :=
  decide_eq_false (Nat.not_lt.mpr (Nat.le_add_right _ _))

section Intern

variable {chain : List (String × Nat)}
  (hpath : d.path = ⟨d.path.space, chain ++ [(d.decl.header.name, d.decl.header.arity)]⟩)

include hpath

/-- A declaration of a known path belongs to the symbol of the path. -/
theorem Closed.intern_of_mem (h : Closed ds) (ht : t.symbols = symbols ds)
    (hmem : d.path ∈ (founders ds).map path) :
    t.intern d.decl.header d.path.space
        ((TypePath.mk d.path.space chain).types.map (idAmong (founders ds))) =
      (idAmong (founders ds) d.path, t) := by
  obtain ⟨e, he, heq⟩ := List.mem_map.mp hmem
  obtain ⟨chain', hpath', -⟩ := h.of_mem_founders he
  have hfound := h.find?_of_mem ht he
  rw [key_of_path_eq hpath hpath' heq, ← key_freshSymbol, heq] at hfound
  exact Table.intern_of_declared hfound (isWellKnown_idAmong _ _)

/-- No declared type has the key of a new path. -/
theorem Closed.keyAmong_notMem_keys (h : Closed ds) (hnew : d.path ∉ (founders ds).map path) :
    keyAmong (founders ds) d.path.space chain d.decl.header.name d.decl.header.arity ∉ keys ds := by
  intro hin
  obtain ⟨e, he, heq⟩ := List.mem_map.mp hin
  obtain ⟨chain', hpath', haround⟩ := h.of_mem_founders he
  rw [key_symbolAmong hpath'] at heq
  have hsame := keyAmong_injOn (x := (_, _)) (y := (_, _))
    (fun hne ↦ haround _ (mem_types_self hne)) heq
  exact hnew (((hpath'.trans hsame).trans hpath.symm) ▸ List.mem_map_of_mem he)

/-- A declaration of a new path founds a symbol at the end: a type found for it is at most one of
those known beforehand. -/
theorem Closed.intern_of_notMem (h : Closed ds) (ht : t.symbols = symbols ds)
    (hnew : d.path ∉ (founders ds).map path) :
    t.intern d.decl.header d.path.space
        ((TypePath.mk d.path.space chain).types.map (idAmong (founders ds))) =
      (t.symbols.length, { t with symbols := t.symbols ++ [Table.freshSymbol d.decl.header
        d.path.space ((TypePath.mk d.path.space chain).types.map (idAmong (founders ds)))] }) := by
  refine Table.intern_of_fresh fun id hfind ↦ ?_
  rw [h.find?_eq ht, key_freshSymbol, if_neg (h.keyAmong_notMem_keys hpath hnew),
    Option.none_or] at hfind
  exact decide_eq_true (by simpa [length_initial] using Table.lt_of_lastWithKey hfind)

/-- A new path has a symbol without sites. -/
theorem symbolAmong_of_notMem (hnew : d.path ∉ (founders ds).map path)
    (haround : ∀ p ∈ (TypePath.mk d.path.space chain).types, p ∈ (founders ds).map path) :
    symbolAmong (found (founders ds) d) ds d = Table.freshSymbol d.decl.header d.path.space
      ((TypePath.mk d.path.space chain).types.map (idAmong (founders ds))) := by
  have hnone : ds.filter (·.path = d.path) = [] := List.filter_eq_nil_iff.mpr fun e he heq ↦
    hnew (mem_map_path_founders.mpr (of_decide_eq_true heq ▸ List.mem_map_of_mem he))
  have htypes := congrArg TypePath.around hpath
  rw [TypePath.around_concat] at htypes
  rw [symbolAmong, hnone, htypes, map_idAmong_found haround]
  rfl

/-- The type that a declaration belongs to is found, or founded. -/
theorem Closed.intern_eq (h : Closed ds) (ht : t.symbols = symbols ds)
    (haround : ∀ p ∈ (TypePath.mk d.path.space chain).types, p ∈ (founders ds).map path) :
    t.intern d.decl.header d.path.space
        ((TypePath.mk d.path.space chain).types.map (idAmong (founders ds))) =
      (idAmong (found (founders ds) d) d.path,
        { t with symbols := Table.initial.symbols ++
          (found (founders ds) d).map (symbolAmong (found (founders ds) d) ds) }) := by
  by_cases hmem : d.path ∈ (founders ds).map path
  · have hold : found (founders ds) d = founders ds := if_pos hmem
    rw [h.intern_of_mem hpath ht hmem, hold, ← symbols, ← ht]
  · have hnew : found (founders ds) d = founders ds ++ [d] := if_neg hmem
    have hlength : t.symbols.length = idAmong (found (founders ds) d) d.path := by
      rw [ht, symbols, List.length_append, length_initial, idAmong, hnew, List.map_append,
        List.idxOf_append_of_notMem hmem]
      simp
    have hrest : (founders ds).map (symbolAmong (found (founders ds) d) ds) =
        (founders ds).map (symbolAmong (founders ds) ds) :=
      List.map_congr_left fun e he ↦ h.symbolAmong_found (mem_founders he)
    have hsymbols : (found (founders ds) d).map (symbolAmong (found (founders ds) d) ds) =
        (founders ds).map (symbolAmong (founders ds) ds) ++ [Table.freshSymbol d.decl.header
          d.path.space ((TypePath.mk d.path.space chain).types.map (idAmong (founders ds)))] := by
      rw [← hrest, ← symbolAmong_of_notMem hpath hmem haround, hnew, List.map_append,
        List.map_singleton]
    rw [h.intern_of_notMem hpath ht hmem, hlength, hsymbols, ht, symbols, List.append_assoc]

end Intern

theorem idxOf_eq_iff {ps : List TypePath} (hnodup : ps.Nodup) {k : Nat} (hk : k < ps.length) :
    ps.idxOf p = k ↔ ps[k] = p := by
  constructor
  · rintro rfl
    exact List.getElem_idxOf hk
  · rintro rfl
    exact hnodup.idxOf_getElem k hk

/-- The symbols when a site is added to that of a path. -/
theorem modify_symbols {fs : List Declaration} (hnodup : (fs.map path).Nodup)
    (f : Declaration → Symbol) (g : Symbol → Symbol) (p : TypePath) :
    (Table.initial.symbols ++ fs.map f).modify (idAmong fs p) g =
      Table.initial.symbols ++ fs.map fun e ↦ if e.path = p then g (f e) else f e := by
  refine List.ext_getElem? fun j ↦ ?_
  rw [List.getElem?_modify, List.getElem?_append, List.getElem?_append, length_initial]
  by_cases hj : j < TypeId.firstDeclared
  · have hne : idAmong fs p ≠ j := fun heq ↦
      absurd (heq ▸ Nat.le_add_right _ _) (Nat.not_le.mpr hj)
    simp [hj, hne]
  · obtain ⟨k, rfl⟩ := Nat.exists_eq_add_of_le (Nat.not_lt.mp hj)
    rw [if_neg hj, if_neg hj, Nat.add_sub_cancel_left, List.getElem?_map, List.getElem?_map]
    cases he : fs[k]? with
    | none => simp
    | some e =>
      obtain ⟨hlt, rfl⟩ := List.getElem?_eq_some_iff.mp he
      have hiff := idxOf_eq_iff (p := p) hnodup (by rwa [List.length_map])
      rw [List.getElem_map] at hiff
      have hid : idAmong fs p = TypeId.firstDeclared + k ↔ fs[k].path = p :=
        Nat.add_left_cancel_iff.trans hiff
      by_cases hp : fs[k].path = p
      · simp [hp, hid.mpr hp]
      · simp [hp, mt hid.mp hp]

/-- The table with some declarations instead of those it has. -/
def tableWith (t : Table) (ds : List Declaration) : Table :=
  { t with symbols := symbols ds, places := places ds }

/-- Declarations keep the symbols of the paths that are there. -/
theorem map_idAmong_append {ps : List TypePath} (more : List Declaration)
    (h : ∀ p ∈ ps, p ∈ ds.map path) :
    ps.map (idAmong (founders (ds ++ more))) = ps.map (idAmong (founders ds)) := by
  induction more using List.reverseRecOn with
  | nil => rw [List.append_nil]
  | append_singleton more d ih =>
    rw [← List.append_assoc, founders_concat, map_idAmong_found, ih]
    intro p hp
    rw [mem_map_path_founders, List.map_append]
    exact List.mem_append_left _ (h p hp)

theorem places_concat (ds : List Declaration) (d : Declaration) : places (ds ++ [d]) =
    places ds ++ [((d.file, d.decl.header.span), idAmong (founders (ds ++ [d])) d.path)] := by
  have hids := map_idAmong_append [d] fun p (hp : p ∈ ds.map path) ↦ hp
  rw [List.map_map, List.map_map, List.map_inj_left] at hids
  rw [places, places, List.map_append, List.map_singleton]
  exact congrArg (· ++ _) (List.map_congr_left fun e he ↦ congrArg (Prod.mk _) (hids e he))

/-- Adding a declaration to the table with some declarations gives the table with one more. -/
theorem Closed.declare_eq (h : Closed ds) (t : Table) {chain : List (String × Nat)}
    (hpath : d.path = ⟨d.path.space, chain ++ [(d.decl.header.name, d.decl.header.arity)]⟩)
    (haround : ∀ p ∈ (TypePath.mk d.path.space chain).types, p ∈ (founders ds).map path) :
    (tableWith t ds).declare d.file (scopeAmong (founders ds) ⟨d.path.space, chain⟩ d.outside)
        d.path.space ((TypePath.mk d.path.space chain).types.map (idAmong (founders ds))) d.decl =
      (idAmong (founders (ds ++ [d])) d.path, tableWith t (ds ++ [d])) := by
  have hbody : .type (idAmong (found (founders ds) d) d.path) ::
      scopeAmong (founders ds) ⟨d.path.space, chain⟩ d.outside =
        (siteAmong (found (founders ds) d) d).body := by
    have hsnoc := congrArg TypePath.types hpath
    rw [TypePath.types_concat, ← hpath] at hsnoc
    rw [siteAmong, hsnoc, List.map_append, map_idAmong_found haround, List.map_singleton,
      List.reverse_concat]
    rfl
  have hsites : (found (founders ds) d).map (fun e ↦ if e.path = d.path then
        { symbolAmong (found (founders ds) d) ds e with
          sites := (symbolAmong (found (founders ds) d) ds e).sites ++
            [⟨d.file, d.decl, (siteAmong (found (founders ds) d) d).body⟩] }
      else symbolAmong (found (founders ds) d) ds e) =
        (found (founders ds) d).map (symbolAmong (found (founders ds) d) (ds ++ [d])) := by
    refine List.map_congr_left fun e _ ↦ ?_
    by_cases he : e.path = d.path
    · simp only [symbolAmong, List.filter_append, he, decide_true, List.filter_cons_of_pos,
        List.filter_nil, List.map_append, List.map_cons, List.map_nil, if_true]
      rfl
    · simp [symbolAmong, List.filter_append, he, Ne.symm he]
  rw [Table.declare, h.intern_eq hpath (t := tableWith t ds) rfl haround, hbody]
  refine Prod.ext (by rw [founders_concat]) ?_
  have hid : idAmong (found (founders ds) d) d.path = idAmong (founders (ds ++ [d])) d.path := by
    rw [founders_concat]
  simp only [Table.addSite, tableWith, places_concat, ← hid]
  rw [modify_symbols (founders_concat ds d ▸ nodup_founders (ds ++ [d])), symbols, founders_concat,
    hsites]

theorem Closed.concat (h : Closed ds) {chain : List (String × Nat)}
    (hpath : d.path = ⟨d.path.space, chain ++ [(d.decl.header.name, d.decl.header.arity)]⟩)
    (haround : ∀ p ∈ (TypePath.mk d.path.space chain).types, p ∈ ds.map path) :
    Closed (ds ++ [d]) := by
  intro e he
  rcases List.mem_append.mp he with he | he
  · obtain ⟨chain', hpath', haround'⟩ := h e he
    exact ⟨chain', hpath', fun p hp ↦ by simp [haround' p hp]⟩
  · obtain rfl := List.mem_singleton.mp he
    exact ⟨chain, hpath, fun p hp ↦ by simp [haround p hp]⟩

end Declaration
end Companion
