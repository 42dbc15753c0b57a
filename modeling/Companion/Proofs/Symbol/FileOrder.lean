import Companion.Proofs.Class.Renaming
import Companion.Proofs.Symbol.Structure
import Mathlib.Logic.Equiv.Basic
import Mathlib.Data.List.Perm.Lattice

/-!
The table of the same files in another order. If no type is declared in two files
(`SourceFile.DeclareApart`), and no using directive is global, then all declarations of a path come
from one file, in the order of that file (`SourceFile.exists_moved`); so the two tables have the
same symbols, and only the numbers of types and files differ (`Compilation.exists_renames`).
-/

set_option autoImplicit false
set_option relaxedAutoImplicit false

namespace Companion

/-! ### Places in lists that are put in another order -/

/-- Numbers from `n` on changed, counted from `n`, and smaller ones kept. -/
def changedFrom (n : ℕ) (e : ℕ → ℕ) (i : ℕ) : ℕ := if i < n then i else n + e (i - n)

theorem changedFrom_of_lt {n i : ℕ} (e : ℕ → ℕ) (h : i < n) : changedFrom n e i = i := if_pos h

theorem changedFrom_add (n : ℕ) (e : ℕ → ℕ) (k : ℕ) : changedFrom n e (n + k) = n + e k := by
  rw [changedFrom, if_neg (Nat.not_lt.mpr (Nat.le_add_right n k)), Nat.add_sub_cancel_left]

theorem changedFrom_bijective (n : ℕ) {e : ℕ → ℕ} (h : e.Bijective) :
    (changedFrom n e).Bijective := by
  constructor
  · intro i j hij
    simp only [changedFrom] at hij
    split_ifs at hij with hi hj hj
    · exact hij
    · omega
    · omega
    · have hsame := h.injective (Nat.add_left_cancel hij)
      omega
  · intro j
    by_cases hj : j < n
    · exact ⟨j, changedFrom_of_lt e hj⟩
    · obtain ⟨k, hk⟩ := h.surjective (j - n)
      refine ⟨n + k, ?_⟩
      rw [changedFrom_add, hk, Nat.add_sub_cancel' (Nat.not_lt.mp hj)]

/-- The places in a list correspond to those in another order of it. -/
theorem exists_bijective_of_perm {α : Type} {l l' : List α} (h : l.Perm l') :
    ∃ e : ℕ → ℕ, e.Bijective ∧ ∀ i, l'[e i]? = l[i]? := by
  induction h with
  | nil => exact ⟨id, Function.bijective_id, fun _ ↦ rfl⟩
  | cons a _ ih =>
    obtain ⟨e, hbijective, he⟩ := ih
    refine ⟨changedFrom 1 e, changedFrom_bijective 1 hbijective, fun i ↦ ?_⟩
    cases i with
    | zero => rfl
    | succ i =>
      rw [Nat.add_comm, changedFrom_add, Nat.add_comm, List.getElem?_cons_succ, he,
        Nat.add_comm, List.getElem?_cons_succ]
  | swap a b l =>
    refine ⟨Equiv.swap 0 1, (Equiv.swap 0 1).bijective, fun i ↦ ?_⟩
    rcases i with _ | _ | i
    · rw [Equiv.swap_apply_left]
      rfl
    · rw [Equiv.swap_apply_right]
      rfl
    · rw [Equiv.swap_apply_of_ne_of_ne (by omega) (by omega)]
      rfl
  | trans _ _ ih ih' =>
    obtain ⟨e, hbijective, he⟩ := ih
    obtain ⟨e', hbijective', he'⟩ := ih'
    exact ⟨e' ∘ e, hbijective'.comp hbijective, fun i ↦ (he' (e i)).trans (he i)⟩

/-- In a list without repeats, an element is found at its place. -/
theorem idxOf_of_places {α : Type} [DecidableEq α] {l l' : List α} (hnodup : l'.Nodup) {e : ℕ → ℕ}
    (he : ∀ i, l'[e i]? = l[i]?) {a : α} (ha : a ∈ l) : e (l.idxOf a) = l'.idxOf a := by
  have hplace : l'[e (l.idxOf a)]? = some a := by
    rw [he, List.getElem?_eq_getElem (List.idxOf_lt_length_of_mem ha), List.getElem_idxOf]
  obtain ⟨hlt, hat⟩ := List.getElem?_eq_some_iff.mp hplace
  have hidx := hnodup.idxOf_getElem (e (l.idxOf a)) hlt
  rw [hat] at hidx
  exact hidx.symm

/-! ### Declarations of a file by its number -/

/-- A declaration, read in a file of another number. -/
def Declaration.inFile (file : Nat) (d : Declaration) : Declaration := { d with file := file }

mutual

theorem TypeDecl.declarations_inFile (file file' : Nat) (outside : Scope) (space : Space) :
    ∀ (d : TypeDecl) (chain : List (String × Nat)), d.declarations file' outside space chain =
      (d.declarations file outside space chain).map (Declaration.inFile file')
  | .mk h ms, chain => by
    rw [TypeDecl.declarations, TypeDecl.declarations, List.map_cons,
      Member.declarations_inFile file file' outside space ms]
    rfl

theorem Member.declarations_inFile (file file' : Nat) (outside : Scope) (space : Space) :
    ∀ (ms : List Member) (chain : List (String × Nat)),
      Member.declarations file' outside space chain ms =
        (Member.declarations file outside space chain ms).map (Declaration.inFile file')
  | [], _ => rfl
  | .type d :: ms, chain => by
    rw [Member.declarations, Member.declarations, List.map_append,
      TypeDecl.declarations_inFile file file' outside space d,
      Member.declarations_inFile file file' outside space ms]
  | .field _ :: ms, chain => Member.declarations_inFile file file' outside space ms chain
  | .other _ :: ms, chain => Member.declarations_inFile file file' outside space ms chain

end

mutual

theorem Item.declarations_inFile (file file' : Nat) :
    ∀ (i : Item) (scope : Scope) (space : Space), i.declarations file' scope space =
      (i.declarations file scope space).map (Declaration.inFile file')
  | .namespaceDecl _ items, _, _ => Item.allDeclarations_inFile file file' items _ _
  | .typeDecl d, scope, space => d.declarations_inFile file file' scope space []

theorem Item.allDeclarations_inFile (file file' : Nat) :
    ∀ (is : List Item) (scope : Scope) (space : Space), Item.allDeclarations file' scope space is =
      (Item.allDeclarations file scope space is).map (Declaration.inFile file')
  | [], _, _ => rfl
  | i :: is, scope, space => by
    rw [Item.allDeclarations, Item.allDeclarations, List.map_append,
      Item.declarations_inFile file file' i, Item.allDeclarations_inFile file file' is]

end

/-! ### Scopes around outermost types -/

/-- No type is around a place. -/
def Scope.NoType (s : Scope) : Prop := ∀ id, Level.type id ∉ s

theorem Scope.NoType.map_renamed {s : Scope} (h : s.NoType) (m : Renaming) :
    s.map (Level.renamed m) = s := by
  refine (List.map_congr_left fun l hl ↦ ?_).trans (List.map_id s)
  cases l with
  | type id => exact absurd hl (h id)
  | _ => rfl

theorem Scope.NoType.cons_space {s : Scope} (h : s.NoType) (name : Space) (usings : List Using) :
    Scope.NoType (.space name usings :: s) := by
  intro id hid
  rcases List.mem_cons.mp hid with heq | hid
  · cases heq
  · exact h id hid

theorem Scope.NoType.openSpace {usings : List Using} : ∀ (parts : List String) {scope : Scope}
    (outer : Space), scope.NoType → (Table.openSpace scope outer usings parts).2.1.NoType
  | [], _, _, h => h
  | [_], _, _, h => h.cons_space _ _
  | _ :: part :: rest, _, _, h => Scope.NoType.openSpace (part :: rest) _ (h.cons_space _ _)

mutual

theorem TypeDecl.outside_of_mem_declarations {file : Nat} {outside : Scope} {space : Space}
    {d : Declaration} : ∀ (t : TypeDecl) (chain : List (String × Nat)),
      d ∈ t.declarations file outside space chain → d.outside = outside
  | .mk h ms, chain, hd => by
    rw [TypeDecl.declarations] at hd
    rcases List.mem_cons.mp hd with rfl | hd
    · rfl
    · exact Member.outside_of_mem_declarations ms _ hd

theorem Member.outside_of_mem_declarations {file : Nat} {outside : Scope} {space : Space}
    {d : Declaration} : ∀ (ms : List Member) (chain : List (String × Nat)),
      d ∈ Member.declarations file outside space chain ms → d.outside = outside
  | [], _, hd => by cases hd
  | .type t :: ms, chain, hd => by
    rw [Member.declarations] at hd
    rcases List.mem_append.mp hd with hd | hd
    · exact TypeDecl.outside_of_mem_declarations t chain hd
    · exact Member.outside_of_mem_declarations ms chain hd
  | .field _ :: ms, chain, hd => Member.outside_of_mem_declarations ms chain hd
  | .other _ :: ms, chain, hd => Member.outside_of_mem_declarations ms chain hd

end

mutual

theorem Item.noType_of_mem_declarations {file : Nat} {d : Declaration} :
    ∀ (i : Item) (scope : Scope) (space : Space), scope.NoType →
      d ∈ i.declarations file scope space → d.outside.NoType
  | .namespaceDecl h items, _, space, hscope, hd =>
    Item.noType_of_mem_allDeclarations items _ _ (hscope.openSpace h.parts space) hd
  | .typeDecl t, _, _, hscope, hd =>
    TypeDecl.outside_of_mem_declarations t [] hd ▸ hscope

theorem Item.noType_of_mem_allDeclarations {file : Nat} {d : Declaration} :
    ∀ (is : List Item) (scope : Scope) (space : Space), scope.NoType →
      d ∈ Item.allDeclarations file scope space is → d.outside.NoType
  | [], _, _, _, hd => by cases hd
  | i :: is, scope, space, hscope, hd => by
    rw [Item.allDeclarations] at hd
    rcases List.mem_append.mp hd with hd | hd
    · exact Item.noType_of_mem_declarations i scope space hscope hd
    · exact Item.noType_of_mem_allDeclarations is scope space hscope hd

end

namespace SourceFile

/-- What the types of a file are. -/
def typePaths (f : SourceFile) : List TypePath := (f.typeDeclarations 0).map Declaration.path

/-- No type is declared in two of the files. -/
def DeclareApart (files : List SourceFile) : Prop :=
  files.Pairwise fun f g ↦ ∀ p ∈ f.typePaths, p ∉ g.typePaths

instance (files : List SourceFile) : Decidable (DeclareApart files) :=
  inferInstanceAs (Decidable (files.Pairwise _))

theorem typeDeclarations_eq (file : Nat) (f : SourceFile) :
    f.typeDeclarations file = (f.typeDeclarations 0).map (Declaration.inFile file) :=
  Item.allDeclarations_inFile 0 file f.items _ _

theorem DeclareApart.eq {files : List SourceFile} (h : DeclareApart files) {i j : Nat}
    {f g : SourceFile} (hf : files[i]? = some f) (hg : files[j]? = some g) {p : TypePath}
    (hp : p ∈ f.typePaths) (hp' : p ∈ g.typePaths) : i = j := by
  obtain ⟨hi, rfl⟩ := List.getElem?_eq_some_iff.mp hf
  obtain ⟨hj, rfl⟩ := List.getElem?_eq_some_iff.mp hg
  have hapart := List.pairwise_iff_getElem.mp h
  rcases Nat.lt_trichotomy i j with hij | hij | hij
  · exact absurd hp' (hapart i j hi hj hij p hp)
  · exact hij
  · exact absurd hp (hapart j i hj hi hij p hp')

theorem noType_of_mem_allDeclarations {d : Declaration} :
    ∀ {files : List SourceFile} {first : Nat}, d ∈ allDeclarations first files → d.outside.NoType
  | f :: fs, first, hd => by
    rw [allDeclarations] at hd
    rcases List.mem_append.mp hd with hd | hd
    · exact Item.noType_of_mem_allDeclarations f.items _ _ (by simp [Scope.NoType]) hd
    · exact noType_of_mem_allDeclarations hd

/-- A declaration comes from a file that declares its path. -/
theorem exists_of_mem_allDeclarations {d : Declaration} :
    ∀ {files : List SourceFile} {first : Nat}, d ∈ allDeclarations first files →
      ∃ i f, files[i]? = some f ∧ d.path ∈ f.typePaths ∧ d.file = first + i
  | f :: fs, first, hd => by
    rw [allDeclarations] at hd
    rcases List.mem_append.mp hd with hd | hd
    · rw [typeDeclarations_eq] at hd
      obtain ⟨e, he, rfl⟩ := List.mem_map.mp hd
      exact ⟨0, f, rfl, List.mem_map.mpr ⟨e, he, rfl⟩, rfl⟩
    · obtain ⟨i, g, hg, hpath, hfile⟩ := exists_of_mem_allDeclarations hd
      exact ⟨i + 1, g, hg, hpath, by omega⟩

theorem filter_typeDeclarations (file : Nat) (f : SourceFile) (p : TypePath) :
    (f.typeDeclarations file).filter (·.path = p) =
      ((f.typeDeclarations 0).filter (·.path = p)).map (Declaration.inFile file) := by
  rw [typeDeclarations_eq, List.filter_map]
  rfl

/-- The declarations of a path that one file alone declares are those of that file. -/
theorem filter_allDeclarations {f : SourceFile} {p : TypePath} :
    ∀ {files : List SourceFile} {first i : Nat}, files[i]? = some f →
      (∀ j g, files[j]? = some g → p ∈ g.typePaths → j = i) →
        (allDeclarations first files).filter (·.path = p) =
          ((f.typeDeclarations 0).filter (·.path = p)).map (Declaration.inFile (first + i))
  | [], _, _, hf, _ => by cases hf
  | g :: gs, first, 0, hf, hother => by
    obtain rfl := Option.some.inj hf
    have hrest : (allDeclarations (first + 1) gs).filter (·.path = p) = [] := by
      refine List.filter_eq_nil_iff.mpr fun e he hpath ↦ ?_
      obtain ⟨j, k, hk, hmem, -⟩ := exists_of_mem_allDeclarations he
      exact Nat.succ_ne_zero j (hother (j + 1) k hk (of_decide_eq_true hpath ▸ hmem))
    rw [allDeclarations, List.filter_append, hrest, List.append_nil, filter_typeDeclarations,
      Nat.add_zero]
  | g :: gs, first, i + 1, hf, hother => by
    have hfirst : (g.typeDeclarations first).filter (·.path = p) = [] := by
      rw [filter_typeDeclarations, List.map_eq_nil_iff]
      refine List.filter_eq_nil_iff.mpr fun e he hpath ↦ ?_
      have hmem : p ∈ g.typePaths := of_decide_eq_true hpath ▸ List.mem_map_of_mem he
      exact absurd (hother 0 g rfl hmem) (Nat.succ_ne_zero i).symm
    rw [allDeclarations, List.filter_append, hfirst, List.nil_append,
      filter_allDeclarations (i := i) hf fun j k hk hmem ↦
        Nat.succ.inj (hother (j + 1) k hk hmem), Nat.add_assoc, Nat.add_comm 1]

/-- The declarations in one of some files are those of the file by that number. -/
theorem filter_file_allDeclarations {f : SourceFile} :
    ∀ {files : List SourceFile} {first i : Nat}, files[i]? = some f →
      (allDeclarations first files).filter (·.file = first + i) = f.typeDeclarations (first + i)
  | g :: gs, first, 0, hf => by
    obtain rfl := Option.some.inj hf
    have hfirst : (g.typeDeclarations first).filter (·.file = first) = g.typeDeclarations first :=
      List.filter_eq_self.mpr fun d hd ↦ decide_eq_true (mem_of_mem_typeDeclarations hd).1
    have hrest : (allDeclarations (first + 1) gs).filter (·.file = first) = [] := by
      refine List.filter_eq_nil_iff.mpr fun d hd hfile ↦ ?_
      obtain ⟨i, -, -, -, hlater⟩ := exists_of_mem_allDeclarations hd
      have hsame : d.file = first := of_decide_eq_true hfile
      omega
    rw [allDeclarations, List.filter_append, Nat.add_zero, hfirst, hrest, List.append_nil]
  | g :: gs, first, i + 1, hf => by
    have hfirst : (g.typeDeclarations first).filter (·.file = first + 1 + i) = [] := by
      refine List.filter_eq_nil_iff.mpr fun d hd hfile ↦ ?_
      have hsame : d.file = first + 1 + i := of_decide_eq_true hfile
      have hhere := (mem_of_mem_typeDeclarations hd).1
      omega
    rw [allDeclarations, List.filter_append, Nat.add_comm i, ← Nat.add_assoc, hfirst,
      List.nil_append, filter_file_allDeclarations (i := i) hf]

end SourceFile

/-- The declaration that stands for a place of a file is the last one of the file there. -/
theorem Compilation.idOf_eq_of_getElem? {files : List SourceFile} {file : Nat} {f : SourceFile}
    (hf : files[file]? = some f) (place : Span) :
    (ofFiles files).idOf file place =
      ((f.typeDeclarations file).reverse.find? fun d ↦ place == d.decl.header.span).map
        fun d ↦ Declaration.idAmong
          (Declaration.founders (SourceFile.allDeclarations 0 files)) d.path := by
  have hfile : (SourceFile.allDeclarations 0 files).filter (·.file = 0 + file) = _ :=
    SourceFile.filter_file_allDeclarations hf
  rw [Nat.zero_add] at hfile
  rw [idOf_ofFiles, ← hfile, ← List.filter_reverse, List.find?_filter]
  refine congrArg (Option.map _) (congrArg (List.find? · _) (funext fun d ↦ ?_))
  rw [Bool.eq_iff_iff, beq_iff_eq, Prod.mk.injEq, decide_eq_true_iff, decide_eq_true_iff,
    beq_iff_eq, eq_comm]

/-- Nothing is declared in a file that does not exist. -/
theorem Compilation.idOf_eq_none_of_getElem? {files : List SourceFile} {file : Nat}
    (hf : files[file]? = none) (place : Span) : (ofFiles files).idOf file place = none := by
  rw [idOf_ofFiles, Option.map_eq_none_iff, List.find?_eq_none]
  intro d hd hplace
  obtain ⟨i, f, hsome, -, hfile⟩ :=
    SourceFile.exists_of_mem_allDeclarations (List.mem_reverse.mp hd)
  rw [← Nat.zero_add i, ← hfile, ← (Prod.mk.inj (eq_of_beq hplace)).1, hf] at hsome
  cases hsome

/-! ### Declarations in another order -/

theorem Table.lastWithKey_of_forall_ne {key : Key} {l : List Symbol} (h : ∀ s ∈ l, s.key ≠ key)
    (first : TypeId) : lastWithKey key first l = none := by
  induction l generalizing first with
  | nil => rfl
  | cons s ss ih =>
    rw [lastWithKey, ih fun s hs ↦ h s (List.mem_cons_of_mem _ hs), if_neg (h s List.mem_cons_self)]

namespace Declaration

variable {m : Renaming} {d : Declaration} {p : TypePath}

/-- A declaration, with the number of its file changed. -/
def moved (file : ℕ → ℕ) (d : Declaration) : Declaration := d.inFile (file d.file)

@[simp] theorem path_moved (file : ℕ → ℕ) (d : Declaration) : (d.moved file).path = d.path := rfl

theorem mem_map_path_iff {ds : List Declaration} :
    p ∈ ds.map path ↔ ds.filter (·.path = p) ≠ [] := by
  rw [List.mem_map, ne_eq, List.filter_eq_nil_iff]
  simp

theorem mem_map_path_of_filter {ds ds' : List Declaration} {file : ℕ → ℕ}
    (h : ds'.filter (·.path = p) = (ds.filter (·.path = p)).map (moved file)) :
    p ∈ ds'.map path ↔ p ∈ ds.map path := by
  rw [mem_map_path_iff, mem_map_path_iff, h, ne_eq, List.map_eq_nil_iff]

/-- The founder of a path is the first of its declarations. -/
theorem head?_filter_of_mem_founders {ds : List Declaration} (hd : d ∈ founders ds) :
    (ds.filter (·.path = d.path)).head? = some d := by
  induction ds using List.reverseRecOn with
  | nil => cases hd
  | append_singleton ds e ih =>
    rw [List.filter_append, List.head?_append]
    rw [founders_concat, found] at hd
    split at hd
    · rw [ih hd]
      rfl
    · rename_i hnew
      rcases List.mem_append.mp hd with hd | hd
      · rw [ih hd]
        rfl
      · obtain rfl := List.mem_singleton.mp hd
        have hnone : ds.filter (·.path = d.path) = [] := by
          by_contra hsome
          exact hnew (mem_map_path_founders.mpr (mem_map_path_iff.mpr hsome))
        simp [hnone]

/-- The same paths are founded among declarations of the same paths. -/
theorem perm_founders {ds ds' : List Declaration} (h : ∀ p, p ∈ ds.map path ↔ p ∈ ds'.map path) :
    ((founders ds).map path).Perm ((founders ds').map path) := by
  refine (List.perm_ext_iff_of_nodup (nodup_founders ds) (nodup_founders ds')).mpr fun p ↦ ?_
  rw [mem_map_path_founders, mem_map_path_founders, h]

/-- Two lists of declarations have the same declarations of each path, but for the numbers of their
files; and the number of a path's symbol among the one is changed into that among the other. -/
structure Moved (m : Renaming) (ds ds' : List Declaration) : Prop where
  closed : Closed ds
  closed' : Closed ds'
  noType : ∀ d ∈ ds, d.outside.NoType
  filter : ∀ p, ds'.filter (·.path = p) = (ds.filter (·.path = p)).map (moved m.file)
  idAmong : ∀ p ∈ ds.map path, m.type (idAmong (founders ds) p) = idAmong (founders ds') p

namespace Moved

variable {ds ds' : List Declaration} (h : Moved m ds ds')
include h

theorem mem_map_path : p ∈ ds'.map path ↔ p ∈ ds.map path := mem_map_path_of_filter (h.filter p)

/-- The founder of a path is moved to the founder of the path. -/
theorem moved_mem_founders (hd : d ∈ founders ds) : d.moved m.file ∈ founders ds' := by
  have hpath : d.path ∈ (founders ds').map path := by
    rw [mem_map_path_founders, h.mem_map_path]
    exact List.mem_map_of_mem (mem_founders hd)
  obtain ⟨d', hd', hsame⟩ := List.mem_map.mp hpath
  have hhead := head?_filter_of_mem_founders hd'
  rw [hsame, h.filter, List.head?_map, head?_filter_of_mem_founders hd] at hhead
  exact Option.some.inj hhead ▸ hd'

/-- Every founder is one that is moved. -/
theorem exists_of_mem_founders {d' : Declaration} (hd' : d' ∈ founders ds') :
    ∃ d ∈ founders ds, d.moved m.file = d' := by
  have hpath : d'.path ∈ (founders ds).map path := by
    rw [mem_map_path_founders, ← h.mem_map_path]
    exact List.mem_map_of_mem (mem_founders hd')
  obtain ⟨d, hd, hsame⟩ := List.mem_map.mp hpath
  exact ⟨d, hd, List.inj_on_of_nodup_map (nodup_founders ds') (h.moved_mem_founders hd) hd' hsame⟩

theorem map_idAmong {ps : List TypePath} (hps : ∀ p ∈ ps, p ∈ (founders ds).map path) :
    ps.map (Declaration.idAmong (founders ds')) =
      (ps.map (Declaration.idAmong (founders ds))).map m.type := by
  rw [List.map_map]
  exact List.map_congr_left fun p hp ↦ (h.idAmong p (mem_map_path_founders.mp (hps p hp))).symm

theorem siteAmong (hd : d ∈ ds) : siteAmong (founders ds') (d.moved m.file) =
    (Declaration.siteAmong (founders ds) d).renamed m := by
  have hbody := h.map_idAmong (h.closed.types_subset hd)
  have houtside := (h.noType d hd).map_renamed m
  simp only [Declaration.siteAmong, Site.renamed, moved, inFile, hbody, List.map_append, houtside,
    List.map_map, List.map_reverse]
  rfl

theorem symbolAmong (hd : d ∈ founders ds) : symbolAmong (founders ds') ds' (d.moved m.file) =
    (Declaration.symbolAmong (founders ds) ds d).renamed m := by
  have haround := h.map_idAmong (h.closed.around_subset (mem_founders hd))
  have hsites :
      (ds'.filter (·.path = (d.moved m.file).path)).map (Declaration.siteAmong (founders ds')) =
      ((ds.filter (·.path = d.path)).map (Declaration.siteAmong (founders ds))).map
        (Site.renamed m) := by
    rw [path_moved, h.filter, List.map_map, List.map_map]
    exact List.map_congr_left fun e he ↦ h.siteAmong (List.mem_of_mem_filter he)
  rw [Declaration.symbolAmong, Declaration.symbolAmong, hsites, path_moved, haround]
  rfl

/-- The number of a founder's symbol is changed into that of the moved founder. -/
theorem type_idAmong (hd : d ∈ founders ds) :
    m.type (Declaration.idAmong (founders ds) d.path) =
      Declaration.idAmong (founders ds') (d.moved m.file).path :=
  h.idAmong d.path (List.mem_map_of_mem (mem_founders hd))

omit h in
/-- The types that are known beforehand have no numbers in them. -/
theorem renamed_of_mem_initial {s : Symbol} (hs : s ∈ Table.initial.symbols) :
    s.renamed m = s := by
  rcases List.mem_append.mp hs with hs | hs
  · obtain ⟨p, -, rfl⟩ := List.mem_map.mp hs
    rfl
  · obtain rfl := List.mem_singleton.mp hs
    rfl

theorem symbols (id : TypeId) :
    (symbols ds')[m.type id]? = (Declaration.symbols ds)[id]?.map (Symbol.renamed m) := by
  cases hsymbol : (Declaration.symbols ds)[id]? with
  | some symbol =>
    rcases getElem?_symbols hsymbol with ⟨hid, hknown⟩ | ⟨d, hd, rfl, rfl⟩
    · rw [m.known id hid, Declaration.symbols, List.getElem?_append_left (by rwa [length_initial]),
        hknown, Option.map_some, renamed_of_mem_initial (List.mem_of_getElem? hknown)]
    · rw [h.type_idAmong hd, getElem?_idAmong (h.moved_mem_founders hd), h.symbolAmong hd,
        Option.map_some]
  | none =>
    -- Whatever has a counterpart is itself known beforehand or founded.
    cases hmoved : (Declaration.symbols ds')[m.type id]? with
    | none => rfl
    | some symbol' =>
      rcases getElem?_symbols hmoved with ⟨hid, -⟩ | ⟨d', hd', hid, -⟩
      · have hfirst : TypeId.firstDeclared ≤ (Declaration.symbols ds).length := by
          rw [Declaration.symbols, List.length_append, length_initial]
          exact Nat.le_add_right _ _
        have hle := (m.firstDeclared_le_iff id).mpr
          (hfirst.trans (List.getElem?_eq_none_iff.mp hsymbol))
        exact absurd hid (Nat.not_lt.mpr hle)
      · obtain ⟨d, hd, rfl⟩ := h.exists_of_mem_founders hd'
        rw [← h.type_idAmong hd] at hid
        rw [m.bijective.injective hid, getElem?_idAmong hd] at hsymbol
        cases hsymbol

theorem length_symbols : (Declaration.symbols ds').length = (Declaration.symbols ds).length := by
  have hlength := (perm_founders fun p ↦ h.mem_map_path).length_eq
  rw [List.length_map, List.length_map] at hlength
  rw [Declaration.symbols, Declaration.symbols, List.length_append, List.length_append,
    List.length_map, List.length_map, hlength]

/-- A founder's key is moved with it. -/
theorem mem_keys_iff (key : Key) : key.renamed m ∈ keys ds' ↔ key ∈ keys ds := by
  rw [keys, keys, List.mem_map, List.mem_map]
  constructor
  · rintro ⟨d', hd', hkey⟩
    obtain ⟨d, hd, rfl⟩ := h.exists_of_mem_founders hd'
    rw [h.symbolAmong hd, Symbol.key_renamed] at hkey
    exact ⟨d, hd, Key.renamed_injective hkey⟩
  · rintro ⟨d, hd, rfl⟩
    exact ⟨_, h.moved_mem_founders hd, by rw [h.symbolAmong hd, Symbol.key_renamed]⟩

omit h in
/-- The types that are known beforehand are found by the same keys. -/
theorem find?_initial (key : Key) :
    Table.initial.find? (key.renamed m) = (Table.initial.find? key).map m.type := by
  obtain ⟨space, container, name, arity⟩ := key
  cases container with
  | none =>
    show Table.initial.find? ⟨space, none, name, arity⟩ = _
    cases hfound : Table.initial.find? ⟨space, none, name, arity⟩ with
    | none => rfl
    | some id =>
      have hid : id < TypeId.firstDeclared := by
        simpa [length_initial] using Table.lt_of_lastWithKey hfound
      rw [Option.map_some, m.known id hid]
  | some outer =>
    have hinitial : ∀ s ∈ Table.initial.symbols, s.key.container = none := by decide
    have hnone (outer : TypeId) : Table.initial.find? ⟨space, some outer, name, arity⟩ = none :=
      Table.lastWithKey_of_forall_ne
        (fun s hs heq ↦ Option.some_ne_none outer ((heq ▸ hinitial s hs :) : some outer = none)) 0
    rw [hnone outer]
    exact hnone (m.type outer)

theorem find? {t t' : Table} (ht : t.symbols = Declaration.symbols ds)
    (ht' : t'.symbols = Declaration.symbols ds') (key : Key) :
    t'.find? (key.renamed m) = (t.find? key).map m.type := by
  by_cases hkey : key ∈ keys ds
  · obtain ⟨d, hd, rfl⟩ := List.mem_map.mp hkey
    rw [h.closed.find?_of_mem ht hd, ← Symbol.key_renamed, ← h.symbolAmong hd,
      h.closed'.find?_of_mem ht' (h.moved_mem_founders hd), Option.map_some, h.type_idAmong hd]
  · rw [h.closed.find?_eq ht, h.closed'.find?_eq ht', if_neg hkey,
      if_neg (mt (h.mem_keys_iff key).mp hkey), Option.none_or, Option.none_or, find?_initial]

end Moved

end Declaration

/-! ### Files in another order -/

namespace SourceFile

variable {files files' : List SourceFile} {e : ℕ → ℕ}

/-- Wherever the file stands that declares a path, the declarations of the path are its own. -/
theorem filter_allDeclarations_of_places (hapart : DeclareApart files) (he : e.Bijective)
    (hplaces : ∀ i, files'[e i]? = files[i]?) (p : TypePath) :
    (allDeclarations 0 files').filter (·.path = p) =
      ((allDeclarations 0 files).filter (·.path = p)).map (Declaration.moved e) := by
  by_cases hp : ∃ (i : ℕ) (f : SourceFile), files[i]? = some f ∧ p ∈ f.typePaths
  · obtain ⟨i, f, hf, hmem⟩ := hp
    have halone (j : ℕ) (g : SourceFile) (hg : files[j]? = some g) (hmem' : p ∈ g.typePaths) :
        j = i := hapart.eq hg hf hmem' hmem
    have halone' : ∀ j g, files'[j]? = some g → p ∈ g.typePaths → j = e i := by
      intro j g hg hmem'
      obtain ⟨k, rfl⟩ := he.surjective j
      rw [hplaces] at hg
      rw [halone k g hg hmem']
    rw [filter_allDeclarations hf halone, filter_allDeclarations ((hplaces i).trans hf) halone',
      List.map_map, Nat.zero_add, Nat.zero_add]
    rfl
  · have hnone : (allDeclarations 0 files).filter (·.path = p) = [] := by
      refine List.filter_eq_nil_iff.mpr fun d hd hpath ↦ hp ?_
      obtain ⟨i, f, hf, hmem, -⟩ := exists_of_mem_allDeclarations hd
      exact ⟨i, f, hf, of_decide_eq_true hpath ▸ hmem⟩
    rw [hnone, List.map_nil]
    refine List.filter_eq_nil_iff.mpr fun d hd hpath ↦ hp ?_
    obtain ⟨j, f, hf, hmem, -⟩ := exists_of_mem_allDeclarations hd
    obtain ⟨i, rfl⟩ := he.surjective j
    exact ⟨i, f, hplaces i ▸ hf, of_decide_eq_true hpath ▸ hmem⟩

/-- In whatever order the files stand, the same declarations are in them. -/
theorem exists_moved (hperm : files.Perm files') (hapart : DeclareApart files) :
    ∃ m : Renaming, Declaration.Moved m (allDeclarations 0 files) (allDeclarations 0 files') ∧
      ∀ i, files'[m.file i]? = files[i]? := by
  obtain ⟨file, hfile, hplaces⟩ := exists_bijective_of_perm hperm
  have hfilter := filter_allDeclarations_of_places hapart hfile hplaces
  obtain ⟨type, htype, hplace⟩ := exists_bijective_of_perm
    (Declaration.perm_founders fun p ↦ (Declaration.mem_map_path_of_filter (hfilter p)).symm)
  refine ⟨⟨changedFrom TypeId.firstDeclared type, file, changedFrom_bijective _ htype,
    hfile.surjective, fun id hid ↦ changedFrom_of_lt type hid⟩, ?_, hplaces⟩
  refine ⟨closed_allDeclarations files, closed_allDeclarations files',
    fun d hd ↦ noType_of_mem_allDeclarations hd, hfilter, fun p hp ↦ ?_⟩
  show changedFrom TypeId.firstDeclared type (TypeId.firstDeclared + _) = _
  rw [changedFrom_add, Declaration.idAmong,
    idxOf_of_places (Declaration.nodup_founders _) hplace
      (Declaration.mem_map_path_founders.mpr hp)]

end SourceFile

/-- What stands for a place of a file stands for it wherever the file stands. -/
theorem Declaration.Moved.idOf {m : Renaming} {files files' : List SourceFile}
    (h : Moved m (SourceFile.allDeclarations 0 files) (SourceFile.allDeclarations 0 files'))
    (hplaces : ∀ i, files'[m.file i]? = files[i]?) (file : Nat) (place : Span) :
    (Compilation.ofFiles files').idOf (m.file file) place =
      ((Compilation.ofFiles files).idOf file place).map m.type := by
  cases hf : files[file]? with
  | none =>
    rw [Compilation.idOf_eq_none_of_getElem? hf,
      Compilation.idOf_eq_none_of_getElem? ((hplaces file).trans hf), Option.map_none]
  | some f =>
    rw [Compilation.idOf_eq_of_getElem? hf,
      Compilation.idOf_eq_of_getElem? ((hplaces file).trans hf),
      f.typeDeclarations_eq (m.file file), f.typeDeclarations_eq file, ← List.map_reverse,
      ← List.map_reverse, List.find?_map, List.find?_map, Option.map_map, Option.map_map,
      Option.map_map]
    refine Option.map_congr fun d hd ↦ (h.idAmong d.path ?_).symm
    exact List.mem_map.mpr ⟨d.inFile file, SourceFile.mem_allDeclarations_iff.mpr ⟨file, f, hf, by
      rw [Nat.zero_add, f.typeDeclarations_eq file]
      exact List.mem_map_of_mem (List.mem_reverse.mp (List.mem_of_find?_eq_some hd))⟩, rfl⟩

/-- If no using directive is global and no type is declared in two files, then the order of the
files only matters to the numbers of types and files. -/
theorem Compilation.exists_renames {files files' : List SourceFile} (hperm : files.Perm files')
    (hglobal : ∀ f ∈ files, ∀ u ∈ f.usings, u.isGlobal = false)
    (hapart : SourceFile.DeclareApart files) :
    ∃ m : Renaming, (ofFiles files).Renames m (ofFiles files') := by
  obtain ⟨m, hmoved, hplaces⟩ := SourceFile.exists_moved hperm hapart
  have heq := Table.ofFiles_eq files
  have heq' := Table.ofFiles_eq files'
  have hnoGlobal {fs : List SourceFile} (hfs : ∀ f ∈ fs, f ∈ files) :
      (fs.flatMap fun f ↦ f.usings.filter (·.isGlobal)) = [] := by
    refine List.flatMap_eq_nil_iff.mpr fun f hf ↦ List.filter_eq_nil_iff.mpr fun u hu ↦ ?_
    rw [hglobal f (hfs f hf) u hu]
    exact Bool.false_ne_true
  have htable : (Table.ofFiles files).Renames m (Table.ofFiles files') := by
    constructor
    · intro id
      rw [Table.symbol?, Table.symbol?, heq, heq']
      exact hmoved.symbols id
    · intro key
      exact hmoved.find? (congrArg Table.symbols heq) (congrArg Table.symbols heq') key
    · intro space
      rw [Table.hasSpace, Table.hasSpace, heq, heq', Bool.eq_iff_iff, List.contains_iff_mem,
        List.contains_iff_mem, List.mem_append, List.mem_append]
      exact or_congr_right (hperm.flatMap_right _).mem_iff.symm
    · rw [heq, heq', hnoGlobal fun f hf ↦ hf, hnoGlobal fun f hf ↦ hperm.mem_iff.mpr hf]
    · rw [heq, heq']
      exact hmoved.length_symbols
  exact ⟨m, htable.withBases, hplaces, hmoved.idOf hplaces⟩

end Companion
