import Companion.Proofs.Grammar.Places

/-!
Where the declarations of files end up. Each declaration is added to the table in one step
(`Table.declare`): it finds or founds its symbol, and becomes a site of it. So the sites of all
symbols together are the declarations of the files, each once (`Table.placed_ofFiles`,
`Compilation.exists_site_iff`); the types known beforehand stay as they are
(`Compilation.sites_eq_nil_of_lt`); and the scope of a site starts with its own symbol
(`Table.IsInvariant`). Resolving the bases changes none of this
(`Compilation.eq_withBases_of_symbol?`).
-/

set_option autoImplicit false
set_option relaxedAutoImplicit false

namespace Companion

/-- The declarations of files that are counted from `first`, with the places of their files. -/
def SourceFile.declarations (first : Nat) : List SourceFile → List (Nat × TypeDecl)
  | [] => []
  | f :: fs => (Item.allTypes f.items).map (first, ·) ++ declarations (first + 1) fs

theorem SourceFile.mem_declarations_iff {first file : Nat} {d : TypeDecl}
    {files : List SourceFile} :
    (file, d) ∈ declarations first files ↔
      ∃ i f, file = first + i ∧ files[i]? = some f ∧ d ∈ Item.allTypes f.items := by
  induction files generalizing first with
  | nil => simp [declarations]
  | cons g gs ih =>
    simp only [declarations, List.mem_append, List.mem_map, Prod.mk.injEq, ih]
    constructor
    · rintro (⟨_, hd, rfl, rfl⟩ | ⟨i, f, rfl, hf, hd⟩)
      · exact ⟨0, g, rfl, rfl, hd⟩
      · exact ⟨i + 1, f, by omega, hf, hd⟩
    · rintro ⟨i, f, rfl, hf, hd⟩
      cases i with
      | zero =>
        obtain rfl : g = f := by simpa using hf
        exact .inl ⟨d, hd, rfl, rfl⟩
      | succ i => exact .inr ⟨i, f, by omega, by simpa using hf, hd⟩

namespace Table

/-! ### One declaration -/

/-- The identity of a declaration's symbol, and the table with the declaration as a site of it. -/
def declare (t : Table) (file : Nat) (scope : Scope) (space : Space) (enclosing : List TypeId)
    (d : TypeDecl) : TypeId × Table :=
  ((t.intern d.header space enclosing).1,
    (t.intern d.header space enclosing).2.addSite (t.intern d.header space enclosing).1
      ⟨file, d, .type (t.intern d.header space enclosing).1 :: scope⟩)

/-- A declaration is added before what is nested in it. -/
theorem addType_mk (t : Table) (file : Nat) (scope : Scope) (space : Space)
    (enclosing : List TypeId) (h : TypeHeader) (ms : List Member) :
    t.addType file scope space enclosing (.mk h ms) =
      (t.declare file scope space enclosing (.mk h ms)).2.addMembers file
        (.type (t.declare file scope space enclosing (.mk h ms)).1 :: scope) space
        (enclosing ++ [(t.declare file scope space enclosing (.mk h ms)).1]) ms := by
  rw [addType]
  rfl

/-- The symbol of a type of which no declaration is known yet. -/
def freshSymbol (h : TypeHeader) (space : Space) (enclosing : List TypeId) : Symbol :=
  ⟨h.name, h.kind, space, enclosing, h.typeParams.map (·.name), [], none, []⟩

theorem lt_of_lastWithKey {key : Key} {first id : Nat} {symbols : List Symbol}
    (h : lastWithKey key first symbols = some id) : id < first + symbols.length := by
  induction symbols generalizing first with
  | nil => simp [lastWithKey] at h
  | cons s ss ih =>
    rw [lastWithKey] at h
    cases hlater : lastWithKey key (first + 1) ss with
    | some later =>
      obtain rfl : later = id := by simpa [hlater] using h
      have hlt := ih hlater
      simp only [List.length_cons]
      omega
    | none =>
      simp only [hlater] at h
      by_cases hkey : s.key = key
      · obtain rfl : first = id := by simpa [hkey] using h
        simp
      · simp [hkey] at h

/-- A declared symbol with the key of a declaration is the one that the declaration belongs to. -/
theorem intern_of_declared {t : Table} {h : TypeHeader} {space : Space} {enclosing : List TypeId}
    {id : TypeId} (hfind : t.find? (freshSymbol h space enclosing).key = some id)
    (hid : id.isWellKnown = false) : t.intern h space enclosing = (id, t) := by
  simp only [freshSymbol] at hfind
  simp only [intern, hfind, hid, Bool.false_eq_true, ↓reduceIte]

/-- If no declared symbol has its key, a declaration founds a symbol at the end. -/
theorem intern_of_fresh {t : Table} {h : TypeHeader} {space : Space} {enclosing : List TypeId}
    (hfind : ∀ id, t.find? (freshSymbol h space enclosing).key = some id → id.isWellKnown = true) :
    t.intern h space enclosing =
      (t.symbols.length, { t with symbols := t.symbols ++ [freshSymbol h space enclosing] }) := by
  simp only [freshSymbol] at hfind ⊢
  rw [intern]
  split
  · rename_i id hid
    rw [if_pos (hfind id hid)]
  · rfl

/-- A declaration belongs to a declared symbol with its key, or founds a symbol at the end. -/
theorem intern_cases (t : Table) (h : TypeHeader) (space : Space) (enclosing : List TypeId) :
    (∃ id, TypeId.firstDeclared ≤ id ∧ id < t.symbols.length ∧
      t.find? (freshSymbol h space enclosing).key = some id ∧
      t.intern h space enclosing = (id, t)) ∨
    t.intern h space enclosing =
      (t.symbols.length, { t with symbols := t.symbols ++ [freshSymbol h space enclosing] }) := by
  by_cases hdeclared : ∃ id, t.find? (freshSymbol h space enclosing).key = some id ∧
      id.isWellKnown = false
  · obtain ⟨id, hfind, hid⟩ := hdeclared
    refine .inl ⟨id, ?_, ?_, hfind, intern_of_declared hfind hid⟩
    · simpa [TypeId.isWellKnown] using hid
    · simpa using lt_of_lastWithKey hfind
  · refine .inr (intern_of_fresh fun id hfind ↦ ?_)
    simpa using fun hid ↦ hdeclared ⟨id, hfind, hid⟩

/-- The symbols after a declaration: one of them, a declared one or a new one at the end, has one
more site, whose scope starts with it. -/
theorem symbols_declare (t : Table) (file : Nat) (scope : Scope) (space : Space)
    (enclosing : List TypeId) (d : TypeDecl) (hknown : TypeId.firstDeclared ≤ t.symbols.length) :
    ∃ id symbols, TypeId.firstDeclared ≤ id ∧ id < symbols.length ∧
      (symbols = t.symbols ∨ symbols = t.symbols ++ [freshSymbol d.header space enclosing]) ∧
      t.declare file scope space enclosing d =
        (id, ({ t with symbols := symbols } : Table).addSite id ⟨file, d, .type id :: scope⟩) := by
  rcases intern_cases t d.header space enclosing with ⟨id, hid, hlt, _, heq⟩ | heq
  · exact ⟨id, t.symbols, hid, hlt, .inl rfl, by rw [declare, heq]⟩
  · exact ⟨t.symbols.length, _, hknown, by simp, .inr rfl, by rw [declare, heq]⟩

/-! ### Every declaration -/

/-- What holds of the table before any file is read and is kept by each step of building it. -/
structure IsInvariant (P : Table → Prop) : Prop where
  initially : P initial
  declare : ∀ t file scope space enclosing d, P t → P (t.declare file scope space enclosing d).2
  spaces : ∀ (t : Table) spaces, P t → P { t with spaces := t.spaces ++ spaces }
  usings : ∀ (t : Table) us, P t → P { t with globalUsings := t.globalUsings ++ us }

namespace IsInvariant

variable {P : Table → Prop}

mutual

theorem addType (hP : IsInvariant P) (file : Nat) (space : Space) :
    ∀ (d : TypeDecl) (t : Table) (scope : Scope) (enclosing : List TypeId), P t →
      P (t.addType file scope space enclosing d)
  | .mk h ms, t, scope, enclosing, ht => by
    rw [addType_mk]
    exact hP.addMembers file space ms _ _ _ (hP.declare _ _ _ _ _ _ ht)

theorem addMembers (hP : IsInvariant P) (file : Nat) (space : Space) :
    ∀ (ms : List Member) (t : Table) (scope : Scope) (enclosing : List TypeId), P t →
      P (t.addMembers file scope space enclosing ms)
  | [], _, _, _, ht => ht
  | .type d :: ms, t, scope, enclosing, ht => by
    rw [Table.addMembers]
    exact hP.addMembers file space ms _ _ _ (hP.addType file space d t scope enclosing ht)
  | .field _ :: ms, t, scope, enclosing, ht => by
    rw [Table.addMembers]
    exact hP.addMembers file space ms t scope enclosing ht
  | .other _ :: ms, t, scope, enclosing, ht => by
    rw [Table.addMembers]
    exact hP.addMembers file space ms t scope enclosing ht

end

mutual

theorem addItem (hP : IsInvariant P) (file : Nat) :
    ∀ (i : Item) (t : Table) (scope : Scope) (space : Space), P t →
      P (t.addItem file scope space i)
  | .namespaceDecl h items, t, scope, space, ht => by
    rw [Table.addItem]
    exact hP.addItems file items _ _ _ (hP.spaces _ _ ht)
  | .typeDecl d, t, scope, space, ht => by
    rw [Table.addItem]
    exact hP.addType file space d t scope [] ht

theorem addItems (hP : IsInvariant P) (file : Nat) :
    ∀ (is : List Item) (t : Table) (scope : Scope) (space : Space), P t →
      P (t.addItems file scope space is)
  | [], _, _, _, ht => ht
  | i :: is, t, scope, space, ht => by
    rw [Table.addItems]
    exact hP.addItems file is _ _ _ (hP.addItem file i t scope space ht)

end

theorem addFiles (hP : IsInvariant P) :
    ∀ (fs : List SourceFile) (t : Table) (first : Nat), P t → P (t.addFiles first fs)
  | [], _, _, ht => ht
  | f :: fs, t, first, ht => by
    rw [Table.addFiles]
    exact hP.addFiles fs _ _ (hP.addItems first f.items _ _ _ (hP.usings _ _ ht))

/-- An invariant holds of the table of any files. -/
theorem ofFiles (hP : IsInvariant P) (files : List SourceFile) : P (Table.ofFiles files) :=
  hP.addFiles files _ _ hP.initially

end IsInvariant

/-! ### Types known beforehand, and the scopes of sites -/

/-- Types known beforehand stay as they are, and the scope of a site starts with the body of its own
symbol. -/
structure Sound (t : Table) : Prop where
  known : t.symbols.take TypeId.firstDeclared = initial.symbols
  body : ∀ (id : Nat) (s : Symbol), t.symbols[id]? = some s →
    ∀ site ∈ s.sites, ∃ outer, site.body = .type id :: outer

theorem Sound.firstDeclared_le {t : Table} (h : t.Sound) :
    TypeId.firstDeclared ≤ t.symbols.length := by
  have hinitial : initial.symbols.length = TypeId.firstDeclared := by decide
  rw [← hinitial, ← h.known]
  exact List.length_take_le' _ _

theorem Sound.declare {t : Table} (ht : t.Sound) (file : Nat) (scope : Scope) (space : Space)
    (enclosing : List TypeId) (d : TypeDecl) :
    (t.declare file scope space enclosing d).2.Sound := by
  obtain ⟨id, symbols, hid, hlt, hsymbols, heq⟩ :=
    symbols_declare t file scope space enclosing d ht.firstDeclared_le
  rw [heq]
  constructor
  · have htake : symbols.take TypeId.firstDeclared = initial.symbols := by
      rcases hsymbols with rfl | rfl
      · exact ht.known
      · rw [List.take_append_of_le_length ht.firstDeclared_le, ht.known]
    have hlength : (symbols.take TypeId.firstDeclared).length ≤ id :=
      Nat.le_trans (List.length_take_le _ _) hid
    simp only [addSite, List.take_modify]
    rw [List.modify_eq_self hlength, htake]
  · intro j s hs site hsite
    have hbody : ∀ s', symbols[j]? = some s' → ∀ site ∈ s'.sites,
        ∃ outer, site.body = .type j :: outer := by
      intro s' hs' site' hsite'
      rcases hsymbols with rfl | rfl
      · exact ht.body j s' hs' site' hsite'
      · rw [List.getElem?_append] at hs'
        split at hs'
        · exact ht.body j s' hs' site' hsite'
        · obtain rfl : s' = freshSymbol d.header space enclosing := by
            simpa using List.mem_of_getElem? hs'
          cases hsite'
    simp only [addSite, List.getElem?_modify, Option.map_eq_map, Option.map_eq_some_iff] at hs
    obtain ⟨s', hs', rfl⟩ := hs
    by_cases hj : id = j
    · subst hj
      simp only [↓reduceIte, List.mem_append, List.mem_singleton] at hsite
      rcases hsite with hold | rfl
      · exact hbody s' hs' site hold
      · exact ⟨scope, rfl⟩
    · simp only [if_neg hj] at hsite
      exact hbody s' hs' site hsite

theorem isInvariant_sound : IsInvariant Sound where
  initially := by
    constructor
    · exact List.take_of_length_le (by decide)
    · have hnone : ∀ s ∈ initial.symbols, s.sites = [] := by decide
      intro id s hs site hsite
      rw [hnone s (List.mem_of_getElem? hs)] at hsite
      cases hsite
  declare _ _ _ _ _ _ ht := ht.declare ..
  spaces _ _ ht := ⟨ht.known, ht.body⟩
  usings _ _ ht := ⟨ht.known, ht.body⟩

/-! ### Sites are declarations -/

/-- The declarations that the symbols of a table hold, with the places of their files. -/
def placed (t : Table) : List (Nat × TypeDecl) :=
  t.symbols.flatMap fun s ↦ s.sites.map fun site ↦ (site.file, site.decl)

theorem placed_addSite {t : Table} {id : Nat} (hid : id < t.symbols.length) (site : Site) :
    (t.addSite id site).placed.Perm ((site.file, site.decl) :: t.placed) := by
  obtain ⟨front, s, back, heq, -, hmodify⟩ := List.exists_of_modify
    (fun s : Symbol ↦ { s with sites := s.sites ++ [site] }) hid
  simp only [placed, addSite, hmodify]
  rw [heq]
  simp only [List.flatMap_append, List.flatMap_cons, List.map_append, List.map_cons, List.map_nil,
    List.append_assoc, List.singleton_append]
  rw [← List.append_assoc, ← List.append_assoc]
  exact List.perm_middle

/-- Everything a step adds to what the symbols hold is the declaration itself. -/
theorem placed_declare {t : Table} (ht : t.Sound) (file : Nat) (scope : Scope) (space : Space)
    (enclosing : List TypeId) (d : TypeDecl) :
    (t.declare file scope space enclosing d).2.placed.Perm ((file, d) :: t.placed) := by
  obtain ⟨id, symbols, -, hlt, hsymbols, heq⟩ :=
    symbols_declare t file scope space enclosing d ht.firstDeclared_le
  have hplaced : ({ t with symbols := symbols } : Table).placed = t.placed := by
    rcases hsymbols with rfl | rfl
    · rfl
    · simp [placed, freshSymbol]
  rw [heq, ← hplaced]
  exact placed_addSite hlt _

mutual

theorem placed_addType (file : Nat) (space : Space) :
    ∀ (d : TypeDecl) (t : Table) (scope : Scope) (enclosing : List TypeId), t.Sound →
      (t.addType file scope space enclosing d).placed.Perm (t.placed ++ d.all.map (file, ·))
  | .mk h ms, t, scope, enclosing, ht => by
    rw [addType_mk, TypeDecl.all, List.map_cons]
    refine (placed_addMembers file space ms _ _ _ (ht.declare ..)).trans ?_
    exact ((placed_declare ht ..).append_right _).trans List.perm_middle.symm

theorem placed_addMembers (file : Nat) (space : Space) :
    ∀ (ms : List Member) (t : Table) (scope : Scope) (enclosing : List TypeId), t.Sound →
      (t.addMembers file scope space enclosing ms).placed.Perm
        (t.placed ++ (Member.allTypes ms).map (file, ·))
  | [], t, _, _, _ => by simp [addMembers, Member.allTypes]
  | .type d :: ms, t, scope, enclosing, ht => by
    rw [addMembers, Member.allTypes, List.map_append, ← List.append_assoc]
    exact (placed_addMembers file space ms _ _ _
      (isInvariant_sound.addType file space d t scope enclosing ht)).trans
        ((placed_addType file space d t scope enclosing ht).append_right _)
  | .field _ :: ms, t, scope, enclosing, ht => by
    rw [addMembers, Member.allTypes]
    exact placed_addMembers file space ms t scope enclosing ht
  | .other _ :: ms, t, scope, enclosing, ht => by
    rw [addMembers, Member.allTypes]
    exact placed_addMembers file space ms t scope enclosing ht

end

mutual

theorem placed_addItem (file : Nat) :
    ∀ (i : Item) (t : Table) (scope : Scope) (space : Space), t.Sound →
      (t.addItem file scope space i).placed.Perm (t.placed ++ (Item.types i).map (file, ·))
  | .namespaceDecl h items, t, scope, space, ht => by
    rw [addItem, Item.types]
    exact placed_addItems file items _ _ _ (isInvariant_sound.spaces _ _ ht)
  | .typeDecl d, t, scope, space, ht => by
    rw [addItem, Item.types]
    exact placed_addType file space d t scope [] ht

theorem placed_addItems (file : Nat) :
    ∀ (is : List Item) (t : Table) (scope : Scope) (space : Space), t.Sound →
      (t.addItems file scope space is).placed.Perm (t.placed ++ (Item.allTypes is).map (file, ·))
  | [], t, _, _, _ => by simp [addItems, Item.allTypes]
  | i :: is, t, scope, space, ht => by
    rw [addItems, Item.allTypes, List.map_append, ← List.append_assoc]
    exact (placed_addItems file is _ _ _ (isInvariant_sound.addItem file i t scope space ht)).trans
      ((placed_addItem file i t scope space ht).append_right _)

end

theorem placed_addFiles :
    ∀ (fs : List SourceFile) (t : Table) (first : Nat), t.Sound →
      (t.addFiles first fs).placed.Perm (t.placed ++ SourceFile.declarations first fs)
  | [], t, _, _ => by simp [addFiles, SourceFile.declarations]
  | f :: fs, t, first, ht => by
    rw [addFiles, SourceFile.declarations, ← List.append_assoc]
    exact (placed_addFiles fs _ _ (isInvariant_sound.addItems first f.items _ _ _
      (isInvariant_sound.usings _ _ ht))).trans
        ((placed_addItems first f.items _ _ _ (isInvariant_sound.usings _ _ ht)).append_right _)

/-- The sites of all symbols together are the declarations of the files, each once. -/
theorem placed_ofFiles (files : List SourceFile) :
    (ofFiles files).placed.Perm (SourceFile.declarations 0 files) :=
  placed_addFiles files _ _ isInvariant_sound.initially

/-! ### Bases change no sites -/

@[simp] theorem getElem?_withBases (t : Table) (id : Nat) :
    t.withBases.symbols[id]? = t.symbols[id]?.map fun s ↦
      { s with base := (t.basesOf s).1, interfaces := (t.basesOf s).2 } := by
  simp [withBases]

theorem placed_withBases (t : Table) : t.withBases.placed = t.placed := by
  simp [placed, withBases, List.flatMap_map]

end Table

namespace Compilation

theorem symbol?_ofFiles (files : List SourceFile) (id : TypeId) :
    (ofFiles files).symbol? id = (Table.ofFiles files).symbols[id]?.map fun s ↦
      { s with
        base := ((Table.ofFiles files).basesOf s).1
        interfaces := ((Table.ofFiles files).basesOf s).2 } :=
  Table.getElem?_withBases _ id

/-- A symbol with the bases that its declarations are written with. -/
theorem eq_withBases_of_symbol? {files : List SourceFile} {id : TypeId} {symbol : Symbol}
    (h : (ofFiles files).symbol? id = some symbol) :
    ∃ s, (Table.ofFiles files).symbols[id]? = some s ∧ symbol.sites = s.sites ∧
      symbol.base = ((Table.ofFiles files).basesOf s).1 := by
  rw [symbol?_ofFiles, Option.map_eq_some_iff] at h
  obtain ⟨s, hs, rfl⟩ := h
  exact ⟨s, hs, rfl, rfl⟩

/-- A type that is known beforehand has no declarations. -/
theorem sites_eq_nil_of_lt {files : List SourceFile} {id : TypeId} {symbol : Symbol}
    (h : (ofFiles files).symbol? id = some symbol) (hid : id < TypeId.firstDeclared) :
    symbol.sites = [] := by
  obtain ⟨s, hs, hsites, -⟩ := eq_withBases_of_symbol? h
  have hmem : s ∈ Table.initial.symbols := by
    rw [← (Table.isInvariant_sound.ofFiles files).known]
    exact List.mem_of_getElem? (i := id) (by rw [List.getElem?_take_of_lt hid, hs])
  have hnone : ∀ s ∈ Table.initial.symbols, s.sites = [] := by decide
  rw [hsites, hnone s hmem]

/-- A type without declarations has no base. -/
theorem base?_eq_none_of_sites {files : List SourceFile} {id : TypeId} {symbol : Symbol}
    (h : (ofFiles files).symbol? id = some symbol) (hsites : symbol.sites = []) :
    (ofFiles files).base? id = none := by
  obtain ⟨s, -, hs, hbase⟩ := eq_withBases_of_symbol? h
  rw [base?, h]
  show symbol.base = none
  rw [hbase, Table.basesOf, Table.writtenBases, ← hs, hsites]
  rfl

theorem mem_declared_iff {c : Compilation} {id : TypeId} {symbol : Symbol} :
    (id, symbol) ∈ c.declared ↔ TypeId.firstDeclared ≤ id ∧ c.symbol? id = some symbol := by
  simp only [declared, symbol?, Table.symbol?, List.mem_iff_getElem?, List.getElem?_drop,
    List.getElem?_mapIdx, Option.map_eq_some_iff, Prod.mk.injEq]
  constructor
  · rintro ⟨n, s, hs, rfl, rfl⟩
    exact ⟨Nat.le_add_right _ _, hs⟩
  · rintro ⟨hid, hs⟩
    obtain ⟨n, rfl⟩ := Nat.exists_eq_add_of_le hid
    exact ⟨n, symbol, hs, rfl, rfl⟩

/-! ### Sites of files that have been read -/

end Compilation

/-- If something is told apart by its place in each file, it is told apart by file and place. -/
theorem SourceFile.nodup_declarations {β : Type} (places : TypeDecl → List β) :
    ∀ (files : List SourceFile) (first : Nat),
      (∀ f ∈ files, ((Item.allTypes f.items).flatMap places).Nodup) →
      ((declarations first files).flatMap fun p ↦ (places p.2).map (Prod.mk p.1)).Nodup
  | [], _, _ => List.nodup_nil
  | f :: fs, first, h => by
    obtain ⟨hf, hfs⟩ := List.forall_mem_cons.mp h
    rw [declarations, List.flatMap_append, List.flatMap_map]
    refine List.nodup_append.mpr ⟨?_, nodup_declarations places fs (first + 1) hfs, ?_⟩
    · show ((Item.allTypes f.items).flatMap fun d ↦ (places d).map (Prod.mk first)).Nodup
      rw [← List.map_flatMap]
      exact hf.map fun _ _ heq ↦ (Prod.mk.inj heq).2
    · rintro ⟨file, b⟩ hhere ⟨file', b'⟩ hlater heq
      obtain ⟨rfl, rfl⟩ := Prod.mk.inj heq
      obtain ⟨d, -, hd⟩ := List.mem_flatMap.mp hhere
      obtain ⟨_, -, hplace⟩ := List.mem_map.mp hd
      obtain ⟨⟨other, d'⟩, hmem, hd'⟩ := List.mem_flatMap.mp hlater
      obtain ⟨_, -, hplace'⟩ := List.mem_map.mp hd'
      obtain ⟨i, f', hfile, -, -⟩ := mem_declarations_iff.mp hmem
      have hfirst : first = file := (Prod.mk.inj hplace).1
      have hother : other = file := (Prod.mk.inj hplace').1
      omega

namespace Compilation

/-- Whatever is told apart by its place in each file is told apart by file and place over the sites
of all symbols. -/
theorem nodup_sites {β : Type} (places : TypeDecl → List β) {files : List SourceFile}
    (h : ∀ f ∈ files, ((Item.allTypes f.items).flatMap places).Nodup) :
    ((ofFiles files).table.symbols.flatMap fun s ↦
      s.sites.flatMap fun site ↦ (places site.decl).map (Prod.mk site.file)).Nodup := by
  have hplaced := (Table.placed_ofFiles files).flatMap_right
    fun p ↦ (places p.2).map (Prod.mk p.1)
  rw [← Table.placed_withBases] at hplaced
  have hnodup := hplaced.nodup_iff.mpr (SourceFile.nodup_declarations places files 0 h)
  rw [show (ofFiles files).table = (Table.ofFiles files).withBases from rfl]
  simpa only [Table.placed, List.flatMap_assoc, List.flatMap_map] using hnodup

/-- A place belongs to one symbol only. -/
theorem eq_of_mem_sites {β : Type} {places : TypeDecl → List β} {files : List SourceFile}
    (h : ∀ f ∈ files, ((Item.allTypes f.items).flatMap places).Nodup) {id id' : TypeId}
    {symbol symbol' : Symbol} (hid : (ofFiles files).symbol? id = some symbol)
    (hid' : (ofFiles files).symbol? id' = some symbol') {site site' : Site}
    (hsite : site ∈ symbol.sites) (hsite' : site' ∈ symbol'.sites) (hfile : site.file = site'.file)
    {b : β} (hb : b ∈ places site.decl) (hb' : b ∈ places site'.decl) : id = id' := by
  have hnodup := nodup_sites places h
  obtain ⟨hlt, hget⟩ := List.getElem?_eq_some_iff.mp hid
  obtain ⟨hlt', hget'⟩ := List.getElem?_eq_some_iff.mp hid'
  have hdisjoint := List.pairwise_iff_getElem.mp (List.nodup_flatMap.mp hnodup).2
  have hmem : (site.file, b) ∈ symbol.sites.flatMap fun site ↦
      (places site.decl).map (Prod.mk site.file) :=
    List.mem_flatMap.mpr ⟨site, hsite, List.mem_map.mpr ⟨b, hb, rfl⟩⟩
  have hmem' : (site.file, b) ∈ symbol'.sites.flatMap fun site ↦
      (places site.decl).map (Prod.mk site.file) :=
    List.mem_flatMap.mpr ⟨site', hsite', List.mem_map.mpr ⟨b, hb', hfile ▸ rfl⟩⟩
  subst hget hget'
  by_contra hne
  rcases Nat.lt_or_gt_of_ne hne with hless | hgreater
  · exact hdisjoint id id' hlt hlt' hless hmem hmem'
  · exact hdisjoint id' id hlt' hlt hgreater hmem' hmem

/-- A declaration of a file is a site of some symbol, and every site is such a declaration. -/
theorem exists_site_iff {files : List SourceFile} {file : Nat} {d : TypeDecl} :
    (∃ f, files[file]? = some f ∧ d ∈ Item.allTypes f.items) ↔
      ∃ id symbol, (ofFiles files).symbol? id = some symbol ∧
        ∃ site ∈ symbol.sites, site.file = file ∧ site.decl = d := by
  have hplaced : (file, d) ∈ (ofFiles files).table.placed ↔
      (file, d) ∈ SourceFile.declarations 0 files := by
    rw [show (ofFiles files).table.placed = (Table.ofFiles files).placed from
      Table.placed_withBases _]
    exact (Table.placed_ofFiles files).mem_iff
  rw [SourceFile.mem_declarations_iff] at hplaced
  constructor
  · rintro ⟨f, hf, hd⟩
    obtain ⟨symbol, hsymbol, hsite⟩ :=
      List.mem_flatMap.mp (hplaced.mpr ⟨file, f, (Nat.zero_add _).symm, hf, hd⟩)
    obtain ⟨id, hid⟩ := List.mem_iff_getElem?.mp hsymbol
    obtain ⟨site, hmem, heq⟩ := List.mem_map.mp hsite
    obtain ⟨hfile, hdecl⟩ := Prod.mk.inj heq
    exact ⟨id, symbol, hid, site, hmem, hfile, hdecl⟩
  · rintro ⟨id, symbol, hid, site, hsite, rfl, rfl⟩
    obtain ⟨i, f, hi, hf, hd⟩ := hplaced.mp (List.mem_flatMap.mpr
      ⟨symbol, List.mem_of_getElem? hid, List.mem_map.mpr ⟨site, hsite, rfl⟩⟩)
    rw [Nat.zero_add] at hi
    exact ⟨f, hi ▸ hf, hd⟩

end Compilation

/-- What holds of every file that is read holds of the files of some texts. -/
theorem Sources.forall_files {P : SourceFile → Prop}
    (h : ∀ path text, P (Parsed.ofSource path text).file) (texts : List (String × String)) :
    ∀ f ∈ (ofTexts texts).files, P f := by
  intro f hf
  simp only [ofTexts, List.map_map, List.mem_map] at hf
  obtain ⟨⟨path, text⟩, -, rfl⟩ := hf
  exact h path text

@[simp] theorem Sources.map_path_files (texts : List (String × String)) :
    (ofTexts texts).files.map (·.path) = texts.map Prod.fst := by
  simp only [ofTexts, List.map_map]
  rfl

/-- Behind blanks a text is read as its tokens are, moved along as far as offsets reach. -/
theorem Sources.files_blanks (path : String) (n : Nat) (text : String) :
    ∃ source, (ofTexts [(path, String.ofList (Text.blanks n ++ text.toList))]).files =
      [(Parsed.ofLexed path source ((Token.ofSource text).map (.shifted n))).file] := by
  generalize hsource : String.ofList (Text.blanks n ++ text.toList) = source
  have htokens : Token.ofSource source = (Token.ofSource text).map (.shifted n) :=
    Token.ofSource_blanks (by rw [← hsource, String.toList_ofList])
  exact ⟨source, htokens ▸ rfl⟩

/-- Offsets reach to the end of every text. -/
def Sources.InReach (texts : List (String × String)) : Prop :=
  ∀ text ∈ texts, Text.byteLength text.2.toList ≤ Span.maxOffset

namespace Sources

instance (texts : List (String × String)) : Decidable (InReach texts) :=
  inferInstanceAs (Decidable (∀ _ ∈ texts, _))

variable {texts : List (String × String)}

theorem inReach_of_files
    (h : ∀ f ∈ (ofTexts texts).files, Text.byteLength f.source.toList ≤ Span.maxOffset) :
    InReach texts := by
  intro text htext
  refine h (Parsed.ofSource text.1 text.2).file ?_
  exact List.mem_map_of_mem (List.mem_map.mpr ⟨text, htext, rfl⟩)

variable (hreach : InReach texts)
include hreach

/-- What holds of every file whose places are not clamped holds of the files of such texts. -/
theorem forall_files_of_inReach {P : SourceFile → Prop}
    (h : ∀ path {source}, Text.byteLength source.toList ≤ Span.maxOffset →
      P (Parsed.ofSource path source).file) : ∀ f ∈ (ofTexts texts).files, P f := by
  intro f hf
  simp only [ofTexts, List.map_map, List.mem_map] at hf
  obtain ⟨⟨path, text⟩, hmem, rfl⟩ := hf
  exact h path (hreach _ hmem)

/-- In files that have been read, no two declarations share a span. -/
theorem nodup_spans : ∀ f ∈ (ofTexts texts).files,
    ((Item.allTypes f.items).flatMap fun d ↦ [d.header.span]).Nodup := by
  refine forall_files_of_inReach hreach fun path {text} hsize ↦ ?_
  rw [← List.map_eq_flatMap]
  exact Parsed.nodup_spans path hsize

/-- In files that have been read, no two declarations share the place of their names. -/
theorem nodup_nameSpans : ∀ f ∈ (ofTexts texts).files,
    ((Item.allTypes f.items).flatMap fun d ↦ [d.header.nameSpan]).Nodup := by
  refine forall_files_of_inReach hreach fun path {text} hsize ↦ ?_
  rw [← List.map_eq_flatMap]
  exact Parsed.nodup_nameSpans path hsize

/-- In files that have been read, no two variables of fields share a place. -/
theorem nodup_fieldStarts : ∀ f ∈ (ofTexts texts).files,
    ((Item.allTypes f.items).flatMap TypeDecl.fieldStarts).Nodup :=
  forall_files_of_inReach hreach fun path _ hsize ↦ Parsed.nodup_fieldStarts path hsize

end Sources
end Companion
