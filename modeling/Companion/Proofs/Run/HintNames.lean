import Companion.Proofs.Grammar.Identifiers
import Companion.Proofs.Run.Accounts
import Companion.Proofs.Symbol.Paths
import Companion.Proofs.Symbol.Redeclaration
import Companion.Proofs.Unit.Texts

/-!
The names under which units are registered. A name lists the namespace of a class, the types around
it and the class, each generic one with the number of its parameters behind an underline
(`ClassAnalysis.hintName_eq`). Unless a namespace goes by the full name of a type, different classes
have different lists (`Compilation.path_eq_of_pieces_eq`). The list can be read from the name but
for one thing: a type without parameters may itself end with an underline and a number, and then it
is written like a generic type (`Compilation.hintName_eq_iff_of_analyze`,
`Compilation.not_forall_hintName_ne`).
-/

set_option autoImplicit false
set_option relaxedAutoImplicit false

namespace Companion

/-! ### Names with the number of parameters -/

/-- The first piece has no parameters, and is named like the second one with their number. -/
def Imitates (p q : String × Nat) : Prop := p.2 = 0 ∧ q.2 ≠ 0 ∧ p.1 = withArity q.1 q.2

/-- Two pieces are the same, or one imitates the other. -/
def WrittenAlike (p q : String × Nat) : Prop := p = q ∨ Imitates p q ∨ Imitates q p

theorem withArity_zero (name : String) : withArity name 0 = name := rfl

theorem toList_withArity {arity : Nat} (h : arity ≠ 0) (name : String) :
    (withArity name arity).toList = name.toList ++ '_' :: Nat.toDigits 10 arity := by
  unfold withArity
  rw [if_neg h, String.toList_append, String.toList_append, List.append_assoc]
  change _ ++ ('_' :: arity.repr.toList) = _
  rw [Nat.repr_eq_ofList_toDigits, String.toList_ofList]

/-- The last mark of a kind in a text tells what is in front of it and behind it. -/
theorem eq_of_append_cons {c : Char} {l l' r r' : List Char} (hr : c ∉ r) (hr' : c ∉ r')
    (h : l ++ c :: r = l' ++ c :: r') : l = l' ∧ r = r' := by
  rcases List.append_eq_append_iff.mp h with ⟨m, rfl, heq⟩ | ⟨m, rfl, heq⟩
  · cases m with
    | nil => exact ⟨(List.append_nil l).symm, (List.cons.inj heq).2⟩
    | cons x m =>
      refine absurd ?_ hr
      rw [(List.cons.inj heq).2]
      exact List.mem_append_right _ List.mem_cons_self
  · cases m with
    | nil => exact ⟨List.append_nil l', (List.cons.inj heq).2.symm⟩
    | cons x m =>
      refine absurd ?_ hr'
      rw [(List.cons.inj heq).2]
      exact List.mem_append_right _ List.mem_cons_self

theorem not_mem_toDigits {c : Char} (h : c.isDigit = false) (n : Nat) : c ∉ Nat.toDigits 10 n := by
  intro hmem
  rw [Nat.isDigit_of_mem_toDigits (by omega) (by omega) hmem] at h
  cases h

theorem withArity_inj {n m : String} {k j : Nat} (hk : k ≠ 0) (hj : j ≠ 0)
    (h : withArity n k = withArity m j) : n = m ∧ k = j := by
  have htext := congrArg String.toList h
  rw [toList_withArity hk, toList_withArity hj] at htext
  obtain ⟨hname, hdigits⟩ :=
    eq_of_append_cons (not_mem_toDigits (by decide) k) (not_mem_toDigits (by decide) j) htext
  constructor
  · exact String.toList_inj.mp hname
  · rw [← Nat.ofDigitChars_ten_toDigits (n := k), hdigits, Nat.ofDigitChars_ten_toDigits]

/-- Names with numbers of parameters are the same exactly for pieces that are written alike. -/
theorem withArity_eq_iff {p q : String × Nat} :
    withArity p.1 p.2 = withArity q.1 q.2 ↔ WrittenAlike p q := by
  unfold WrittenAlike Imitates
  by_cases hp : p.2 = 0
  · by_cases hq : q.2 = 0
    · rw [hp, hq, withArity_zero, withArity_zero, Prod.ext_iff, hp, hq]
      simp
    · rw [hp, withArity_zero]
      constructor
      · exact fun h ↦ .inr (.inl ⟨rfl, hq, h⟩)
      · rintro (rfl | ⟨-, -, h⟩ | ⟨h, -⟩)
        · exact absurd hp hq
        · exact h
        · exact absurd h hq
  · by_cases hq : q.2 = 0
    · rw [hq, withArity_zero]
      constructor
      · exact fun h ↦ .inr (.inr ⟨rfl, hp, h.symm⟩)
      · rintro (rfl | ⟨h, -⟩ | ⟨-, -, h⟩)
        · exact absurd hq hp
        · exact absurd h hp
        · exact h.symm
    · constructor
      · intro h
        obtain ⟨hname, harity⟩ := withArity_inj hp hq h
        exact .inl (Prod.ext hname harity)
      · rintro (rfl | ⟨h, -⟩ | ⟨h, -⟩)
        · rfl
        · exact absurd h hp
        · exact absurd h hq

theorem IsWordName.isPiece {n : String} (h : IsWordName n) : IsPiece n := by
  have hpiece := Token.isPiece_of_isWordText h
  rwa [String.ofList_toList] at hpiece

/-- No name with a number of parameters has a point in it. -/
theorem IsPiece.withArity {n : String} (h : IsPiece n) (arity : Nat) :
    IsPiece (withArity n arity) := by
  by_cases harity : arity = 0
  · rw [harity]
    exact h
  · constructor
    · intro hnone
      have htext := toList_withArity harity n
      rw [hnone] at htext
      simp at htext
    · rw [toList_withArity harity, List.mem_append, List.mem_cons, not_or, not_or]
      exact ⟨h.2, by decide, not_mem_toDigits (by decide) arity⟩

/-! ### The pieces of a class -/

/-- What is joined can be joined on. -/
theorem joinWith_joinWith_cons (separator : String) {ns : List String} (hns : ns ≠ [])
    (ms : List String) : joinWith separator (joinWith separator ns :: ms) =
      joinWith separator (ns ++ ms) := by
  cases ms with
  | nil => rw [List.append_nil, joinWith]
  | cons m ms =>
    induction ns with
    | nil => exact absurd rfl hns
    | cons n ns ih =>
      cases ns with
      | nil => rfl
      | cons n' ns =>
        have hrest := ih (List.cons_ne_nil _ _)
        rw [joinWith] at hrest ⊢
        rw [List.cons_append, List.cons_append, joinWith, joinWith, ← List.cons_append, ← hrest]
        simp only [String.append_assoc]

namespace ClassAnalysis

/-- The namespace of a class, the types around it and the class itself, with their numbers of
parameters. -/
def pieces (a : ClassAnalysis) : List (String × Nat) :=
  (a.namespaceName.toList.flatMap components).map (·, 0) ++
    (a.containingTypes.map (fun t ↦ (t.name, t.typeParams.length)) ++
      [(a.className, a.typeParams.length)])

/-- The name of a unit lists the pieces of the class. -/
theorem hintName_eq (a : ClassAnalysis) :
    a.hintName = joinWith "." (a.pieces.map fun p ↦ withArity p.1 p.2) ++ "_g.cs" := by
  have hspace (ns ms : List String) :
      (ns.map fun n ↦ (n, 0)).map (fun p ↦ withArity p.1 p.2) ++ ms = ns ++ ms := by
    rw [List.map_map]
    exact congrArg (· ++ ms) (List.map_id ns)
  have hown : (a.containingTypes.map (fun t ↦ (t.name, t.typeParams.length)) ++
      [(a.className, a.typeParams.length)]).map (fun p ↦ withArity p.1 p.2) =
        a.containingTypes.map (fun t ↦ withArity t.name t.typeParams.length) ++
          [withArity a.className a.typeParams.length] := by
    rw [List.map_append, List.map_map]
    rfl
  unfold hintName pieces
  rw [List.map_append, hspace, hown, List.append_assoc]
  cases a.namespaceName with
  | none => rfl
  | some space =>
    have hjoined := joinWith_joinWith_cons "." (components_ne_nil space)
      (a.containingTypes.map (fun t ↦ withArity t.name t.typeParams.length) ++
          [withArity a.className a.typeParams.length])
    rw [joinWith_components] at hjoined
    rw [Option.toList_some, List.singleton_append, hjoined, List.flatMap_singleton]

end ClassAnalysis

namespace Compilation

/-- A type that some file declares. -/
def IsDeclared (c : Compilation) (id : TypeId) : Prop :=
  ∃ symbol, c.symbol? id = some symbol ∧ symbol.sites ≠ []

variable {texts : List (String × String)} {s : Settings} {id id' : TypeId} {a b : ClassAnalysis}
  {reports reports' : List Diagnostic}

/-- The pieces of a declared class are those of its path, and no point is in any of them. -/
theorem exists_path_of_analyze
    (ha : (ofFiles (Sources.ofTexts texts).files).analyze s id = some (a, reports))
    (hid : (ofFiles (Sources.ofTexts texts).files).IsDeclared id) :
    ∃ d ∈ SourceFile.allDeclarations 0 (Sources.ofTexts texts).files,
      id = idAmong (Sources.ofTexts texts).files d ∧
      a.pieces = d.path.space.map (·, 0) ++ d.path.chain ∧ ∀ p ∈ a.pieces, IsPiece p.1 := by
  obtain ⟨symbol, hsymbol, hsites⟩ := hid
  obtain ⟨d, hd, hid, hspace, hchain⟩ := path_of_analyze ha fun other hother ↦ by
    rwa [← Option.some.inj (hsymbol.symm.trans hother)]
  obtain ⟨hspaces, hnames⟩ := SourceFile.named_path
    (Sources.forall_files (fun _ _ _ hn ↦ (Parsed.isWordName_of_mem_names hn).isPiece) texts) hd
  have hpieces : a.pieces = d.path.space.map (·, 0) ++ d.path.chain := by
    unfold ClassAnalysis.pieces
    rw [hchain, hspace]
    by_cases hroot : d.path.space = []
    · rw [hroot]
      rfl
    · rw [if_neg (by simpa using hroot), Option.toList_some, List.flatMap_singleton,
        components_joinWith hspaces hroot]
  refine ⟨d, hd, hid, hpieces, ?_⟩
  rw [hpieces, List.forall_mem_append]
  exact ⟨List.forall_mem_map.mpr hspaces, hnames⟩

/-- Classes without points in their pieces have the same unit name exactly if their pieces are
written alike one by one. -/
theorem hintName_eq_iff_of_pieces (ha : ∀ p ∈ a.pieces, IsPiece p.1)
    (hb : ∀ p ∈ b.pieces, IsPiece p.1) :
    a.hintName = b.hintName ↔ List.Forall₂ WrittenAlike a.pieces b.pieces := by
  have halike : WrittenAlike = fun p q ↦ withArity p.1 p.2 = withArity q.1 q.2 := by
    ext p q
    exact withArity_eq_iff.symm
  have hmap : List.Forall₂ WrittenAlike a.pieces b.pieces ↔
      (a.pieces.map fun p ↦ withArity p.1 p.2) = b.pieces.map fun p ↦ withArity p.1 p.2 := by
    rw [halike, ← congrFun₂ List.forall₂_eq_eq_eq, List.forall₂_map_left_iff,
      List.forall₂_map_right_iff]
  rw [hmap, ClassAnalysis.hintName_eq, ClassAnalysis.hintName_eq]
  constructor
  · intro h
    refine eq_of_joinWith_eq (List.forall_mem_map.mpr fun p hp ↦ (ha p hp).withArity p.2)
      (List.forall_mem_map.mpr fun p hp ↦ (hb p hp).withArity p.2) ?_
    exact String.append_left_inj "_g.cs" |>.mp h
  · intro h
    rw [h]

/-! ### Classes and their pieces -/

section Apart

variable {files : List SourceFile} {d e : Declaration}

theorem isDeclared_idAmong (hd : d ∈ SourceFile.allDeclarations 0 files) :
    (ofFiles files).IsDeclared (idAmong files d) := by
  obtain ⟨symbol, hsymbol, hof⟩ := exists_symbol_of_mem hd
  exact ⟨symbol, hsymbol, List.ne_nil_of_mem (hof.siteAmong_mem hd)⟩

theorem IsDeclared.bounds {id : TypeId} (h : (ofFiles files).IsDeclared id) :
    TypeId.firstDeclared ≤ id ∧ id < (Table.ofFiles files).symbols.length := by
  obtain ⟨symbol, hsymbol, hsites⟩ := h
  constructor
  · rcases symbol?_cases hsymbol with ⟨-, hknown⟩ | ⟨d, -, rfl, -⟩
    · exact absurd (enclosing_eq_nil_of_lt hknown).2 hsites
    · exact Nat.le_add_right _ _
  · rw [symbol?_ofFiles, Option.map_eq_some_iff] at hsymbol
    obtain ⟨bare, hbare, -⟩ := hsymbol
    exact (List.getElem?_eq_some_iff.mp hbare).1

/-- If a namespace goes on where the types around a declaration start, then it goes by the full name
of one of these types. -/
theorem exists_qualifiedName_eq (hd : d ∈ SourceFile.allDeclarations 0 files) {space : Space}
    {m rest : List (String × Nat)} (hm : m ≠ [])
    (hspace : space.map (·, 0) = d.path.space.map (·, 0) ++ m) (hchain : d.path.chain = m ++ rest) :
    ∃ id, (ofFiles files).IsDeclared id ∧
      (ofFiles files).qualifiedName id = joinWith "." space := by
  have haround : TypePath.mk d.path.space m ∈ d.path.types := by
    have hinit : m ∈ d.path.chain.inits := by
      rw [List.mem_inits, hchain]
      exact List.prefix_append m rest
    obtain ⟨more, hmore⟩ : ∃ more, d.path.chain.inits = [] :: more := by
      cases d.path.chain <;> exact ⟨_, rfl⟩
    unfold TypePath.types
    rw [hmore] at hinit ⊢
    exact List.mem_map_of_mem ((List.mem_cons.mp hinit).resolve_left hm)
  obtain ⟨t, ht, hpath⟩ := List.mem_map.mp (Declaration.mem_map_path_founders.mp
    ((SourceFile.closed_allDeclarations files).types_subset hd _ haround))
  refine ⟨idAmong files t, isDeclared_idAmong ht, ?_⟩
  have hnames : space = d.path.space ++ m.map Prod.fst := by
    simpa [Function.comp_def] using congrArg (List.map Prod.fst) hspace
  rw [qualifiedName_idAmong ht, hpath, hnames]

/-- If no namespace goes by the full name of a type, different types have different pieces. -/
theorem path_eq_of_pieces_eq
    (hspaces : ∀ space, (Table.ofFiles files).hasSpace space = true → ∀ id,
      (ofFiles files).IsDeclared id → (ofFiles files).qualifiedName id ≠ joinWith "." space)
    (hd : d ∈ SourceFile.allDeclarations 0 files) (he : e ∈ SourceFile.allDeclarations 0 files)
    (h : d.path.space.map (·, 0) ++ d.path.chain = e.path.space.map (·, 0) ++ e.path.chain) :
    d.path = e.path := by
  -- a longer namespace would start with a type of the other path
  have hsame {m : List (String × Nat)} {t u : Declaration}
      (ht : t ∈ SourceFile.allDeclarations 0 files) (hu : u ∈ SourceFile.allDeclarations 0 files)
      (hspace : u.path.space.map (·, 0) = t.path.space.map (·, 0) ++ m)
      (hchain : t.path.chain = m ++ u.path.chain) : t.path = u.path := by
    by_cases hm : m = []
    · have hnames : u.path.space = t.path.space := by
        simpa [Function.comp_def, hm] using congrArg (List.map Prod.fst) hspace
      rw [hm, List.nil_append] at hchain
      change TypePath.mk t.path.space t.path.chain = TypePath.mk u.path.space u.path.chain
      rw [hnames, hchain]
    · obtain ⟨id, hid, hname⟩ := exists_qualifiedName_eq ht hm hspace hchain
      exact absurd hname (hspaces _ (SourceFile.hasSpace_of_prefix hu List.prefix_rfl) id hid)
  rcases List.append_eq_append_iff.mp h with ⟨m, hspace, hchain⟩ | ⟨m, hspace, hchain⟩
  · exact hsame hd he hspace hchain
  · exact (hsame he hd hspace hchain).symm

end Apart

end Compilation

/-! ### Names that are taken -/

namespace RunResult

open Compilation

variable {s : Settings} {classes : List ClassAnalysis} {arrived : List Diagnostic}
  {a : ClassAnalysis} {i : Nat}

theorem hintName_of_unitOf {u : GeneratedUnit} (h : unitOf s a = some u) :
    a.shouldEmit = true ∧ u.hintName = a.hintName := by
  unfold unitOf at h
  split at h
  · rename_i hemit
    exact ⟨hemit, Option.some.inj h ▸ rfl⟩
  · cases h

/-- The names that are taken are those of the classes before that have units. -/
theorem mem_hintNames_iff {name : String} :
    name ∈ (afterFirst s classes i).1.units.map (·.hintName) ↔
      ∃ j < i, ∃ b, classes[j]? = some b ∧ b.shouldEmit = true ∧ b.hintName = name := by
  induction i with
  | zero => simp [afterFirst, registerUnits, Registry.empty]
  | succ i ih =>
    rw [Nat.exists_lt_succ_right, ← ih]
    cases ha : classes[i]? with
    | none => simp [afterFirst_of_none ha]
    | some a =>
      have hlast : (∃ b, some a = some b ∧ b.shouldEmit = true ∧ b.hintName = name) ↔
          a.shouldEmit = true ∧ a.hintName = name := by simp
      rw [afterFirst_succ ha, hlast]
      rcases registerUnit_cases s (afterFirst s classes i) a with ⟨hnone, heq⟩ |
        ⟨u, hu, -, heq⟩ | ⟨u, e, hu, htaken, heq⟩
      · have hquiet : ¬ a.shouldEmit = true := fun hemit ↦ by
          rw [unitOf, if_pos hemit] at hnone
          cases hnone
        simp [heq, hquiet]
      · obtain ⟨hemit, hname⟩ := hintName_of_unitOf hu
        rw [heq, List.map_append, List.mem_append, List.map_singleton, List.mem_singleton, hname]
        simp [hemit, eq_comm]
      · obtain ⟨-, hname⟩ := hintName_of_unitOf hu
        rw [heq]
        refine (or_iff_left_of_imp ?_).symm
        rintro ⟨-, rfl⟩
        exact hname ▸ htaken

/-- A class with a unit is refused exactly if the name of the unit is taken. -/
theorem refuses_iff (hclass : (ofClasses s classes arrived).classes[i]? = some a)
    (hemit : a.shouldEmit = true) : (ofClasses s classes arrived).Refuses s i ↔ a.hintName ∈
      (afterFirst s (ofClasses s classes arrived).classes i).1.units.map (·.hintName) := by
  have hunit : unitOf s a = some ⟨a.hintName, a.qualifiedName, s.companionText a⟩ := if_pos hemit
  rcases emits_or_refuses hclass hunit with ⟨⟨u, -, -, hname, hadds⟩, hrefuses⟩ | ⟨-, hrefuses⟩
  · have hnodup := nodup_hintNames s (ofClasses s classes arrived).classes (i + 1)
    rw [hadds, List.map_append, List.nodup_append] at hnodup
    refine iff_of_false hrefuses fun hmem ↦ ?_
    exact hnodup.2.2 _ hmem _ (List.mem_singleton_self _) hname.symm
  · refine iff_of_true hrefuses ?_
    obtain ⟨r, -, -, hrefused⟩ := hrefuses
    rw [afterFirst_succ hclass] at hrefused
    rcases registerUnit_cases s (afterFirst s (ofClasses s classes arrived).classes i) a with
      ⟨hnone, -⟩ | ⟨u, -, -, heq⟩ | ⟨u, e, hu, htaken, -⟩
    · cases hnone.symm.trans hunit
    · rw [heq] at hrefused
      simpa using congrArg (fun state ↦ state.1.units) hrefused
    · exact (hintName_of_unitOf hu).2 ▸ htaken

theorem isPiece_of_emitted {texts : List (String × String)}
    (hclass : (((ofFiles (Sources.ofTexts texts).files).analyzed s).map Prod.fst)[i]? = some a)
    (hemit : a.shouldEmit = true) : ∀ p ∈ a.pieces, IsPiece p.1 := by
  rw [getElem?_classes, Option.map_eq_some_iff] at hclass
  obtain ⟨⟨a, reports⟩, hfound, rfl⟩ := hclass
  obtain ⟨id, -, ha⟩ := Option.bind_eq_some_iff.mp hfound
  have hpartial : (ofFiles (Sources.ofTexts texts).files).isPartialType id = true := by
    rw [ClassAnalysis.shouldEmit, Bool.and_eq_true, isPartial_of_analyze ha] at hemit
    exact (Bool.and_eq_true_iff.mp hemit.2).1
  obtain ⟨symbol, hsymbol, -⟩ := Option.map_eq_some_iff.mp ha
  obtain ⟨-, -, -, -, hpieces⟩ := exists_path_of_analyze ha
    ⟨symbol, hsymbol, sites_ne_nil_of_isPartialType hpartial symbol hsymbol⟩
  exact hpieces

end RunResult

namespace Compilation

variable {texts : List (String × String)} {s : Settings}

/-- Unless a namespace goes by the full name of a type, different classes have different pieces, and
the names of their units are the same exactly if the pieces are written alike one by one. So a class
is refused exactly if the pieces of one before it are written like its own. -/
theorem hintName_eq_iff_of_analyze
    (hspaces : ∀ space, (Table.ofFiles (Sources.ofTexts texts).files).hasSpace space = true →
      ∀ t, (ofFiles (Sources.ofTexts texts).files).IsDeclared t →
        (ofFiles (Sources.ofTexts texts).files).qualifiedName t ≠ joinWith "." space) :
    (∀ (id id' : TypeId) (a b : ClassAnalysis) (reports reports' : List Diagnostic),
      (ofFiles (Sources.ofTexts texts).files).IsDeclared id →
      (ofFiles (Sources.ofTexts texts).files).IsDeclared id' → id ≠ id' →
      (ofFiles (Sources.ofTexts texts).files).analyze s id = some (a, reports) →
      (ofFiles (Sources.ofTexts texts).files).analyze s id' = some (b, reports') →
      a.pieces ≠ b.pieces ∧
        (a.hintName = b.hintName ↔ List.Forall₂ WrittenAlike a.pieces b.pieces)) ∧
    ∀ (run : RunResult) (i : Nat) (a : ClassAnalysis),
      (ofFiles (Sources.ofTexts texts).files).Yields s run →
      run.classes[i]? = some a →
      (run.Refuses s i ↔ a.shouldEmit = true ∧ ∃ j < i, ∃ b, run.classes[j]? = some b ∧
        b.shouldEmit = true ∧ List.Forall₂ WrittenAlike a.pieces b.pieces) := by
  constructor
  · intro id id' a b reports reports' hid hid' hne ha hb
    obtain ⟨d, hd, rfl, hpieces, hpoints⟩ := exists_path_of_analyze ha hid
    obtain ⟨e, he, rfl, hpieces', hpoints'⟩ := exists_path_of_analyze hb hid'
    constructor
    · intro heq
      rw [hpieces, hpieces'] at heq
      refine hne ?_
      unfold idAmong
      rw [path_eq_of_pieces_eq hspaces hd he heq]
    · exact hintName_eq_iff_of_pieces hpoints hpoints'
  · rintro _ i a ⟨arrived, -, rfl⟩ hclass
    have halike {b : ClassAnalysis} {j : Nat} (hemit : a.shouldEmit = true)
        (hb : (((ofFiles (Sources.ofTexts texts).files).analyzed s).map Prod.fst)[j]? = some b)
        (hemit' : b.shouldEmit = true) :
        b.hintName = a.hintName ↔ List.Forall₂ WrittenAlike a.pieces b.pieces := by
      rw [eq_comm]
      exact hintName_eq_iff_of_pieces (RunResult.isPiece_of_emitted hclass hemit)
        (RunResult.isPiece_of_emitted hb hemit')
    by_cases hemit : a.shouldEmit = true
    · rw [RunResult.refuses_iff hclass hemit, RunResult.mem_hintNames_iff]
      simp only [hemit, true_and]
      refine exists_congr fun j ↦ and_congr_right fun _ ↦ exists_congr fun b ↦
        and_congr_right fun hb ↦ and_congr_right fun hemit' ↦ halike hemit hb hemit'
    · refine iff_of_false (RunResult.not_refuses_of_unitOf_eq_none hclass (if_neg hemit)) ?_
      exact fun h ↦ hemit h.1

/-- A class that is named like a generic one with the number of its parameters. -/
private def underlinedTexts : List (String × String) :=
  [("Names.cs", "interface I{}partial class A_1{[SerializeInterface]I f;}" ++
    "partial class A<T>{[SerializeInterface]I f;}")]

private abbrev underlinedFiles : List SourceFile := (Sources.ofTexts underlinedTexts).files

private theorem underlined_facts :
    (Table.ofFiles underlinedFiles).symbols.length = 22 ∧
      (Table.ofFiles underlinedFiles).spaces =
        [[], ["System"], ["System", "Collections"], ["System", "Collections", "Generic"]] ∧
      [19, 20, 21].map (ofFiles underlinedFiles).qualifiedName = ["I", "A_1", "A"] ∧
      ([20, 21].map fun id ↦ ((ofFiles underlinedFiles).symbol? id).map fun symbol ↦
        (symbol.kind, symbol.sites.length)) =
          [some (.classType, 1), some (.classType, 1)] ∧
      ([20, 21].map fun id ↦ ((ofFiles underlinedFiles).analyze {} id).map fun r ↦ r.1.hintName) =
          [some "A_1_g.cs", some "A_1_g.cs"] := by
  decide +kernel

private theorem underlined_spaces (space : Space)
    (hspace : (Table.ofFiles underlinedFiles).hasSpace space = true) (t : TypeId)
    (ht : (ofFiles underlinedFiles).IsDeclared t) :
    (ofFiles underlinedFiles).qualifiedName t ≠ joinWith "." space := by
  obtain ⟨hlength, hspaces, hnames, -⟩ := underlined_facts
  obtain ⟨hle, hlt⟩ := ht.bounds
  rw [hlength] at hlt
  have hname : (ofFiles underlinedFiles).qualifiedName t ∈ ["I", "A_1", "A"] := by
    rw [← hnames]
    refine List.mem_map_of_mem ?_
    have hid : ∀ id : Nat, 19 ≤ id → id < 22 → id ∈ [19, 20, 21] := by
      intro id hle hlt
      simp only [List.mem_cons, List.not_mem_nil, or_false]
      omega
    exact hid t hle hlt
  have hspace' := List.contains_iff_mem.mp hspace
  rw [hspaces] at hspace'
  have hall : ∀ n ∈ ["I", "A_1", "A"], ∀ space ∈ [[], ["System"], ["System", "Collections"],
      ["System", "Collections", "Generic"]], n ≠ joinWith "." space := by
    decide
  exact hall _ hname space hspace'

private theorem underlined_setting {id : TypeId} (hid : id = 20 ∨ id = 21) :
    ((ofFiles underlinedFiles).symbol? id).map (·.kind) = some .classType ∧
      (ofFiles underlinedFiles).IsDeclared id ∧
      ∃ a reports, (ofFiles underlinedFiles).analyze {} id = some (a, reports) ∧
        a.hintName = "A_1_g.cs" := by
  obtain ⟨-, -, -, hsymbols, hnames⟩ := underlined_facts
  simp only [List.map_cons, List.map_nil, List.cons.injEq, and_true] at hsymbols hnames
  have hsymbol : ((ofFiles underlinedFiles).symbol? id).map (fun symbol ↦
      (symbol.kind, symbol.sites.length)) = some (.classType, 1) := by
    rcases hid with rfl | rfl
    · exact hsymbols.1
    · exact hsymbols.2
  have hname : ((ofFiles underlinedFiles).analyze {} id).map (fun r ↦ r.1.hintName) =
      some "A_1_g.cs" := by
    rcases hid with rfl | rfl
    · exact hnames.1
    · exact hnames.2
  obtain ⟨symbol, hfound, heq⟩ := Option.map_eq_some_iff.mp hsymbol
  obtain ⟨hkind, hsites⟩ := Prod.mk.inj heq
  obtain ⟨⟨a, reports⟩, ha, hhint⟩ := Option.map_eq_some_iff.mp hname
  refine ⟨by rw [hfound, Option.map_some, hkind], ⟨symbol, hfound, ?_⟩, a, reports, ha, hhint⟩
  rw [← List.length_pos_iff, hsites]
  exact Nat.one_pos

theorem hintName_eq_iff_of_analyze_underlined : ∃ a b reports reports',
    (ofFiles underlinedFiles).analyze {} 20 = some (a, reports) ∧
      (ofFiles underlinedFiles).analyze {} 21 = some (b, reports') ∧ a.pieces ≠ b.pieces ∧
      (a.hintName = b.hintName ↔ List.Forall₂ WrittenAlike a.pieces b.pieces) := by
  obtain ⟨-, hid, a, reports, ha, -⟩ := underlined_setting (.inl rfl)
  obtain ⟨-, hid', b, reports', hb, -⟩ := underlined_setting (.inr rfl)
  have hnames := (@hintName_eq_iff_of_analyze underlinedTexts {} underlined_spaces).1
  exact ⟨a, b, reports, reports', ha, hb,
    hnames 20 21 a b reports reports' hid hid' (by decide) ha hb⟩

/-- Different classes can want one name for their units, though no namespace goes by the full name
of a type. -/
theorem not_forall_hintName_ne :
    ¬ ∀ (texts : List (String × String)) (s : Settings) (id id' : TypeId) (a b : ClassAnalysis)
      (reports reports' : List Diagnostic),
      (∀ space, (Table.ofFiles (Sources.ofTexts texts).files).hasSpace space = true →
        ∀ t, (ofFiles (Sources.ofTexts texts).files).IsDeclared t →
          (ofFiles (Sources.ofTexts texts).files).qualifiedName t ≠ joinWith "." space) →
      ((ofFiles (Sources.ofTexts texts).files).symbol? id).map (·.kind) = some .classType →
      ((ofFiles (Sources.ofTexts texts).files).symbol? id').map (·.kind) = some .classType →
      (ofFiles (Sources.ofTexts texts).files).IsDeclared id →
      (ofFiles (Sources.ofTexts texts).files).IsDeclared id' → id ≠ id' →
      (ofFiles (Sources.ofTexts texts).files).analyze s id = some (a, reports) →
      (ofFiles (Sources.ofTexts texts).files).analyze s id' = some (b, reports') →
      a.hintName ≠ b.hintName := by
  intro hall
  obtain ⟨hkind, hid, a, reports, ha, hname⟩ := underlined_setting (.inl rfl)
  obtain ⟨hkind', hid', b, reports', hb, hname'⟩ := underlined_setting (.inr rfl)
  exact hall underlinedTexts {} 20 21 a b reports reports' underlined_spaces hkind hkind' hid hid'
    (by decide) ha hb (hname.trans hname'.symm)

end Compilation
end Companion
