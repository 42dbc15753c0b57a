import Companion.Proofs.Grammar.SpaceNames
import Companion.Proofs.Symbol.Declarations

/-!
The list of all declarations of some files. Every declaration stands behind those of the types
around it, so that these have smaller numbers (`Declaration.Nested.idAmong_lt`). The declarations
come in the order of the files, and in a file in the order of their places
(`SourceFile.pairwise_declarations`). Their namespaces are made of the pieces that are written
(`SourceFile.spacesOfPieces`).
-/

set_option autoImplicit false
set_option relaxedAutoImplicit false

namespace Companion

/-! ### Declarations and their paths -/

namespace Declaration

/-- The paths around each declaration are known, or come before it. -/
def Nested : List TypePath → List Declaration → Prop
  | _, [] => True
  | known, d :: ds => (∀ p ∈ d.path.around, p ∈ known) ∧ Nested (known ++ [d.path]) ds

theorem nested_append {known : List TypePath} {ds es : List Declaration} :
    Nested known (ds ++ es) ↔ Nested known ds ∧ Nested (known ++ ds.map path) es := by
  induction ds generalizing known with
  | nil => simp [Nested]
  | cons d ds ih =>
    rw [List.cons_append, Nested, Nested, ih, List.map_cons, List.append_assoc]
    exact and_assoc.symm

theorem Nested.mono {known known' : List TypePath} {ds : List Declaration}
    (hsub : ∀ p ∈ known, p ∈ known') (h : Nested known ds) : Nested known' ds := by
  induction ds generalizing known known' with
  | nil => trivial
  | cons d ds ih =>
    refine ⟨fun p hp ↦ hsub p (h.1 p hp), ih (fun p hp ↦ ?_) h.2⟩
    exact (List.mem_append.mp hp).elim (fun hp ↦ List.mem_append_left _ (hsub p hp))
      (List.mem_append_right _)

end Declaration

open Declaration

mutual

theorem TypeDecl.nested_declarations (file : Nat) (outside : Scope) (space : Space) :
    ∀ (d : TypeDecl) (chain : List (String × Nat)) (known : List TypePath),
      (∀ p ∈ (TypePath.mk space chain).types, p ∈ known) →
      Nested known (d.declarations file outside space chain)
  | .mk h ms, chain, known, hknown => by
    rw [TypeDecl.declarations]
    refine ⟨by rwa [TypePath.around_concat], ?_⟩
    refine Member.nested_declarations file outside space ms _ _ fun p hp ↦ ?_
    rw [TypePath.types_concat] at hp
    exact (List.mem_append.mp hp).elim (fun hp ↦ List.mem_append_left _ (hknown p hp))
      (List.mem_append_right _)

theorem Member.nested_declarations (file : Nat) (outside : Scope) (space : Space) :
    ∀ (ms : List Member) (chain : List (String × Nat)) (known : List TypePath),
      (∀ p ∈ (TypePath.mk space chain).types, p ∈ known) →
      Nested known (Member.declarations file outside space chain ms)
  | [], _, _, _ => trivial
  | .type d :: ms, chain, known, hknown => by
    rw [Member.declarations, nested_append]
    exact ⟨TypeDecl.nested_declarations file outside space d chain known hknown,
      Member.nested_declarations file outside space ms chain _
        fun p hp ↦ List.mem_append_left _ (hknown p hp)⟩
  | .field _ :: ms, chain, known, hknown => by
    rw [Member.declarations]
    exact Member.nested_declarations file outside space ms chain known hknown
  | .other _ :: ms, chain, known, hknown => by
    rw [Member.declarations]
    exact Member.nested_declarations file outside space ms chain known hknown

end

mutual

theorem Item.nested_declarations (file : Nat) : ∀ (i : Item) (scope : Scope) (space : Space),
    Nested [] (i.declarations file scope space)
  | .namespaceDecl _ items, _, _ => Item.nested_allDeclarations file items _ _
  | .typeDecl d, scope, space =>
    d.nested_declarations file scope space [] [] (by simp [TypePath.types])

theorem Item.nested_allDeclarations (file : Nat) :
    ∀ (is : List Item) (scope : Scope) (space : Space),
      Nested [] (Item.allDeclarations file scope space is)
  | [], _, _ => trivial
  | i :: is, scope, space => by
    rw [Item.allDeclarations, nested_append]
    exact ⟨Item.nested_declarations file i scope space,
      (Item.nested_allDeclarations file is scope space).mono (by simp)⟩

end

theorem SourceFile.nested_allDeclarations :
    ∀ (files : List SourceFile) (first : Nat), Nested [] (allDeclarations first files)
  | [], _ => trivial
  | f :: fs, first => by
    rw [allDeclarations, nested_append]
    exact ⟨Item.nested_allDeclarations first f.items _ _,
      (nested_allDeclarations fs (first + 1)).mono (by simp)⟩

namespace Declaration

variable {ds : List Declaration} {d : Declaration}

/-- Declarations behind others found their symbols behind theirs. -/
theorem exists_founders_append (ds es : List Declaration) :
    ∃ more, founders (ds ++ es) = founders ds ++ more := by
  induction es using List.reverseRecOn with
  | nil => exact ⟨[], by simp⟩
  | append_singleton es e ih =>
    obtain ⟨more, hmore⟩ := ih
    rw [← List.append_assoc, founders_concat, hmore, found]
    split
    · exact ⟨more, rfl⟩
    · exact ⟨more ++ [e], List.append_assoc _ _ _⟩

/-- The types around a type come before it. -/
theorem Nested.idAmong_lt (h : Nested [] ds) (hd : d ∈ ds) {p : TypePath} (hp : p ∈ d.path.around) :
    idAmong (founders ds) p < idAmong (founders ds) d.path := by
  -- at the first declaration of the path, everything around it is declared, and it is not
  obtain ⟨front, e, back, rfl, hpath, hfirst⟩ : ∃ front e back, ds = front ++ e :: back ∧
      e.path = d.path ∧ d.path ∉ front.map path := by
    clear h
    induction ds with
    | nil => cases hd
    | cons e es ih =>
      by_cases he : e.path = d.path
      · exact ⟨[], e, es, rfl, he, List.not_mem_nil⟩
      · have hne : d ≠ e := fun heq ↦ he (heq ▸ rfl)
        obtain ⟨front, e', back, rfl, hpath, hfirst⟩ := ih ((List.mem_cons.mp hd).resolve_left hne)
        refine ⟨e :: front, e', back, rfl, hpath, ?_⟩
        rw [List.map_cons]
        exact List.not_mem_cons_of_ne_of_not_mem (Ne.symm he) hfirst
  obtain ⟨-, haround, -⟩ := nested_append.mp h
  rw [List.nil_append] at haround
  obtain ⟨more, hmore⟩ := exists_founders_append front (e :: back)
  have hknown : p ∈ (founders front).map path :=
    mem_map_path_founders.mpr (haround p (hpath ▸ hp))
  have hnew : d.path ∉ (founders front).map path := mem_map_path_founders.not.mpr hfirst
  rw [hmore, idAmong, idAmong, List.map_append, List.idxOf_append_of_mem hknown,
    List.idxOf_append_of_notMem hnew]
  exact Nat.add_lt_add_left
    (Nat.lt_of_lt_of_le (List.idxOf_lt_length_of_mem hknown) (Nat.le_add_right _ _)) _

end Declaration

/-! ### Declarations in order -/

mutual

/-- A declaration and those nested in it, without their paths. -/
theorem TypeDecl.map_declarations (file : Nat) (outside : Scope) (space : Space) :
    ∀ (d : TypeDecl) (chain : List (String × Nat)),
      (d.declarations file outside space chain).map (fun e ↦ (e.file, e.decl)) = d.all.map (file, ·)
  | .mk h ms, chain => by
    rw [TypeDecl.declarations, TypeDecl.all, List.map_cons, List.map_cons,
      Member.map_declarations file outside space ms]

theorem Member.map_declarations (file : Nat) (outside : Scope) (space : Space) :
    ∀ (ms : List Member) (chain : List (String × Nat)),
      (Member.declarations file outside space chain ms).map (fun e ↦ (e.file, e.decl)) =
        (Member.allTypes ms).map (file, ·)
  | [], _ => rfl
  | .type d :: ms, chain => by
    rw [Member.declarations, Member.allTypes, List.map_append, List.map_append,
      TypeDecl.map_declarations file outside space d, Member.map_declarations file outside space ms]
  | .field _ :: ms, chain => Member.map_declarations file outside space ms chain
  | .other _ :: ms, chain => Member.map_declarations file outside space ms chain

end

mutual

theorem Item.map_declarations (file : Nat) : ∀ (i : Item) (scope : Scope) (space : Space),
    (i.declarations file scope space).map (fun e ↦ (e.file, e.decl)) = (Item.types i).map (file, ·)
  | .namespaceDecl _ items, _, _ => Item.map_allDeclarations file items _ _
  | .typeDecl d, scope, space => d.map_declarations file scope space []

theorem Item.map_allDeclarations (file : Nat) :
    ∀ (is : List Item) (scope : Scope) (space : Space),
      (Item.allDeclarations file scope space is).map (fun e ↦ (e.file, e.decl)) =
        (Item.allTypes is).map (file, ·)
  | [], _, _ => rfl
  | i :: is, scope, space => by
    rw [Item.allDeclarations, Item.allTypes, List.map_append, List.map_append,
      Item.map_declarations file i, Item.map_allDeclarations file is]

end

theorem SourceFile.map_allDeclarations : ∀ (files : List SourceFile) (first : Nat),
    (allDeclarations first files).map (fun e ↦ (e.file, e.decl)) = declarations first files
  | [], _ => rfl
  | f :: fs, first => by
    rw [allDeclarations, declarations, List.map_append, map_allDeclarations fs]
    exact congrArg (· ++ _) (Item.map_allDeclarations first f.items _ _)

mutual

/-- Declarations start in the order in which they are read. -/
theorem TypeDecl.sublist_starts : ∀ d : TypeDecl, (d.all.map (·.header.span.start)).Sublist d.starts
  | .mk _ ms => ((Member.sublist_starts ms).cons _).cons_cons _

theorem Member.sublist_starts :
    ∀ ms : List Member,
      ((Member.allTypes ms).map (·.header.span.start)).Sublist (Member.allStarts ms)
  | [] => .slnil
  | .type d :: ms => by
    rw [Member.allTypes, List.map_append]
    exact (TypeDecl.sublist_starts d).append (Member.sublist_starts ms)
  | .field f :: ms => (Member.sublist_starts ms).trans (List.sublist_append_right _ _)
  | .other _ :: ms => Member.sublist_starts ms

end

mutual

theorem Item.sublist_starts :
    ∀ i : Item, ((Item.types i).map (·.header.span.start)).Sublist i.starts
  | .namespaceDecl _ items => Item.sublist_allStarts items
  | .typeDecl d => d.sublist_starts

theorem Item.sublist_allStarts :
    ∀ is : List Item, ((Item.allTypes is).map (·.header.span.start)).Sublist (Item.allStarts is)
  | [] => .slnil
  | i :: is => by
    rw [Item.allTypes, List.map_append]
    exact (Item.sublist_starts i).append (Item.sublist_allStarts is)

end

/-- By files, and in a file by places. -/
def ComesBefore (p q : Nat × TypeDecl) : Prop :=
  p.1 < q.1 ∨ p.1 = q.1 ∧ p.2.header.span.start < q.2.header.span.start

theorem SourceFile.pairwise_declarations : ∀ (files : List SourceFile) (first : Nat),
    (∀ f ∈ files, (Item.allStarts f.items).Pairwise (· < ·)) →
      (declarations first files).Pairwise ComesBefore
  | [], _, _ => .nil
  | f :: fs, first, h => by
    obtain ⟨hf, hfs⟩ := List.forall_mem_cons.mp h
    have hhere := List.pairwise_map.mp (hf.sublist (Item.sublist_allStarts f.items))
    refine List.pairwise_append.mpr ⟨?_, pairwise_declarations fs (first + 1) hfs, ?_⟩
    · exact List.pairwise_map.mpr (hhere.imp fun hlt ↦ .inr ⟨rfl, hlt⟩)
    · intro p hp q hq
      obtain ⟨d, -, rfl⟩ := List.mem_map.mp hp
      obtain ⟨i, g, hfile, -, -⟩ := mem_declarations_iff.mp (show (q.1, q.2) ∈ _ from hq)
      rw [ComesBefore, hfile]
      exact .inl (Nat.lt_of_lt_of_le (Nat.lt_succ_self first) (Nat.le_add_right _ _))

theorem Sources.pairwise_starts {texts : List (String × String)} (hreach : InReach texts) :
    ∀ f ∈ (ofTexts texts).files, (Item.allStarts f.items).Pairwise (· < ·) :=
  forall_files_of_inReach hreach Parsed.pairwise_starts

/-! ### Spaces of declarations -/

theorem Table.openSpace_space (usings : List Using) :
    ∀ (parts : List String) (scope : Scope) (outer : Space),
      (openSpace scope outer usings parts).2.2 = outer ++ parts
  | [], _, outer => (List.append_nil outer).symm
  | [_], _, _ => rfl
  | part :: next :: rest, scope, outer => by
    rw [openSpace]
    · exact (openSpace_space usings (next :: rest) _ (outer ++ [part])).trans
        (List.append_assoc outer [part] (next :: rest))
    · exact fun h ↦ by cases h

mutual

theorem TypeDecl.space_of_mem_declarations {file : Nat} {outside : Scope} {space : Space}
    {d : Declaration} : ∀ (t : TypeDecl) (chain : List (String × Nat)),
      d ∈ t.declarations file outside space chain → d.path.space = space
  | .mk h ms, chain, hd => by
    rw [TypeDecl.declarations] at hd
    rcases List.mem_cons.mp hd with rfl | hd
    · rfl
    · exact Member.space_of_mem_declarations ms _ hd

theorem Member.space_of_mem_declarations {file : Nat} {outside : Scope} {space : Space}
    {d : Declaration} : ∀ (ms : List Member) (chain : List (String × Nat)),
      d ∈ Member.declarations file outside space chain ms → d.path.space = space
  | [], _, hd => by cases hd
  | .type t :: ms, chain, hd => by
    rw [Member.declarations] at hd
    rcases List.mem_append.mp hd with hd | hd
    · exact TypeDecl.space_of_mem_declarations t chain hd
    · exact Member.space_of_mem_declarations ms chain hd
  | .field _ :: ms, chain, hd => Member.space_of_mem_declarations ms chain hd
  | .other _ :: ms, chain, hd => Member.space_of_mem_declarations ms chain hd

end

mutual

/-- The namespace of a declaration is made of the pieces of the namespaces around it. -/
theorem Item.space_of_mem_declarations {file : Nat} {d : Declaration} {n : String} :
    ∀ (i : Item) (scope : Scope) (space : Space), d ∈ i.declarations file scope space →
      n ∈ d.path.space → n ∈ space ∨ n ∈ i.pieces
  | .namespaceDecl h items, scope, space, hd, hn => by
    rw [Item.declarations] at hd
    have hpieces := Item.space_of_mem_allDeclarations items _ _ hd hn
    rw [Table.openSpace_space, List.mem_append, or_assoc] at hpieces
    rwa [Item.pieces, List.mem_append]
  | .typeDecl t, scope, space, hd, hn => by
    rw [TypeDecl.space_of_mem_declarations t [] hd] at hn
    exact .inl hn

theorem Item.space_of_mem_allDeclarations {file : Nat} {d : Declaration} {n : String} :
    ∀ (is : List Item) (scope : Scope) (space : Space),
      d ∈ Item.allDeclarations file scope space is → n ∈ d.path.space →
        n ∈ space ∨ n ∈ Item.allPieces is
  | [], _, _, hd, _ => by cases hd
  | i :: is, scope, space, hd, hn => by
    rw [Item.allDeclarations] at hd
    rw [Item.allPieces, List.mem_append]
    rcases List.mem_append.mp hd with hd | hd
    · exact (Item.space_of_mem_declarations i scope space hd hn).imp_right .inl
    · exact (Item.space_of_mem_allDeclarations is scope space hd hn).imp_right .inr

end

/-- Every namespace that a declaration stands in is made of pieces. -/
def Declaration.SpacesOfPieces (ds : List Declaration) : Prop :=
  ∀ d ∈ ds, ∀ n ∈ d.path.space, IsPiece n

theorem SourceFile.spacesOfPieces : ∀ (files : List SourceFile) (first : Nat),
    (∀ f ∈ files, ∀ n ∈ Item.allPieces f.items, IsPiece n) →
      SpacesOfPieces (allDeclarations first files)
  | [], _, _ => fun _ hd ↦ by cases hd
  | f :: fs, first, h => by
    obtain ⟨hf, hfs⟩ := List.forall_mem_cons.mp h
    intro d hd n hn
    rcases List.mem_append.mp hd with hd | hd
    · rcases Item.space_of_mem_allDeclarations f.items _ _ hd hn with hnil | hpiece
      · cases hnil
      · exact hf n hpiece
    · exact spacesOfPieces fs (first + 1) hfs d hd n hn

theorem Sources.isPiece_of_mem_allPieces (texts : List (String × String)) :
    ∀ f ∈ (ofTexts texts).files, ∀ n ∈ Item.allPieces f.items, IsPiece n :=
  forall_files (fun _ _ _ hn ↦ Parsed.isPiece_of_mem_allPieces hn) texts

end Companion
