import Companion.Proofs.Grammar.Loops
import Companion.Proofs.Token.Delimiters
import Companion.Proofs.Unit.Texts

/-!
The pieces of the names of namespaces. Each of them is an identifier that was read for it
(`Parser.names_namespaceBody`), so no piece of a namespace in a file is empty or has a point in it
(`Parsed.isPiece_of_mem_allPieces`). Pieces of that kind are told apart by the text that they make
with points between: two namespaces are the same if their dotted names are.
-/

set_option autoImplicit false
set_option relaxedAutoImplicit false

namespace Companion

/-! ### Pieces and dotted names -/

/-- A text that can be a piece of a dotted name. -/
def IsPiece (n : String) : Prop := n ≠ "" ∧ '.' ∉ n.toList

theorem components_joinWith {ns : List String} (hns : ∀ n ∈ ns, IsPiece n) (hne : ns ≠ []) :
    components (joinWith "." ns) = ns := by
  rw [components, toList_joinWith]
  have hpieces : ∀ l ∈ ns.map String.toList, '.' ∉ l := by
    simpa using fun n hn ↦ (hns n hn).2
  rw [show ".".toList = ['.'] from rfl, List.splitOn_intercalate '.' hpieces (by simpa using hne)]
  simp [Function.comp_def]

theorem eq_of_joinWith_eq {ns ms : List String} (hns : ∀ n ∈ ns, IsPiece n)
    (hms : ∀ n ∈ ms, IsPiece n) (h : joinWith "." ns = joinWith "." ms) : ns = ms := by
  -- only no pieces at all make the empty text
  have hempty : ∀ {ps : List String}, (∀ n ∈ ps, IsPiece n) → joinWith "." ps = "" → ps = [] := by
    intro ps hps hjoined
    cases ps with
    | nil => rfl
    | cons p ps =>
      obtain ⟨more, hmore⟩ := Token.toList_joinWith_cons "." p ps
      rw [hjoined] at hmore
      exact absurd (String.toList_eq_nil_iff.mp (List.append_eq_nil_iff.mp hmore.symm).1)
        (hps p List.mem_cons_self).1
  by_cases hns' : ns = []
  · subst hns'
    exact (hempty hms h.symm).symm
  by_cases hms' : ms = []
  · subst hms'
    exact absurd (hempty hns h) hns'
  rw [← components_joinWith hns hns', h, components_joinWith hms hms']

/-! ### Identifiers of a source -/

namespace Token

theorem isPiece_of_isWordText {cs : List Char} (h : isWordText cs = true) :
    IsPiece (String.ofList cs) := by
  cases cs with
  | nil => cases h
  | cons c cs =>
    simp only [isWordText, Bool.and_eq_true, List.all_eq_true] at h
    have hpoint : Lexeme.continuesWord '.' = false := by decide
    refine ⟨by simp, ?_⟩
    rw [String.toList_ofList]
    intro hmem
    rcases List.mem_cons.mp hmem with rfl | hmem
    · exact absurd (continuesWord_of_startsWord h.1) (by simp [hpoint])
    · exact absurd (h.2 '.' hmem) (by simp [hpoint])

/-- What an identifier stands for, its text without the escape, is a word. -/
theorem isPiece_unescape_of_isNameText {cs : List Char} (h : isNameText cs = true) :
    IsPiece (unescape (String.ofList cs)) := by
  rw [unescape, String.toList_ofList]
  by_cases hescape : ∃ w, cs = '@' :: w
  · obtain ⟨w, rfl⟩ := hescape
    rw [isNameText] at h
    exact isPiece_of_isWordText h
  · have hplain (w : List Char) : ¬cs = '@' :: w := fun hw ↦ hescape ⟨w, hw⟩
    rw [isNameText.eq_2 _ hplain] at h
    split
    · exact absurd rfl (hplain _)
    · exact isPiece_of_isWordText h

theorem all_of_take_run (p : Char → Bool) (cs : List Char) :
    (cs.take (Lexeme.run p cs)).all p = true :=
  List.all_eq_true.mpr fun _ ↦ Lexeme.of_mem_take_run

theorem isNameText_of_scan {c : Char} {cs : List Char} (h : (Lexeme.scan c cs).1 = .token .ident) :
    isNameText (c :: cs.take (Lexeme.scan c cs).2) = true := by
  rcases scan_eq_ident h with ⟨hc, hscan⟩ | ⟨rfl, hscan⟩
  · rw [hscan, Lexeme.word, isNameText]
    · rw [isWordText, hc, all_of_take_run]
      rfl
    · intro more heq
      rw [(List.cons.inj heq).1] at hc
      exact absurd hc (by decide)
  · rw [hscan] at h ⊢
    revert h
    fun_cases Lexeme.escaped cs
    case case5 d rest _ _ _ hd =>
      intro _
      show isWordText ((d :: rest).take (1 + Lexeme.run Lexeme.continuesWord rest)) = true
      rw [Nat.add_comm, List.take_succ_cons, isWordText, hd, all_of_take_run]
      rfl
    all_goals simp

theorem isNameText_of_mem_allWithin {budget : Nat} {cs : List Char} {l : Lexeme}
    (h : l ∈ Lexeme.allWithin budget cs) (hform : l.form = .token .ident) :
    isNameText l.text = true := by
  induction budget generalizing cs with
  | zero => cases h
  | succ budget ih =>
    cases cs with
    | nil => cases h
    | cons c cs =>
      rcases List.mem_cons.mp h with rfl | h
      · exact isNameText_of_scan hform
      · exact ih h

theorem exists_lexeme_of_mem_locate {offset : Nat} {ls : List Lexeme} {t : Token}
    (h : t ∈ locate offset ls) :
    ∃ l ∈ ls, l.form = .token t.kind ∧ t.text = String.ofList l.text := by
  induction ls generalizing offset with
  | nil => cases h
  | cons l ls ih =>
    rw [locate] at h
    split at h
    · obtain ⟨l', hl', heq⟩ := ih h
      exact ⟨l', List.mem_cons_of_mem _ hl', heq⟩
    · rename_i k hform
      rcases List.mem_cons.mp h with rfl | h
      · exact ⟨l, List.mem_cons_self, hform, rfl⟩
      · obtain ⟨l', hl', heq⟩ := ih h
        exact ⟨l', List.mem_cons_of_mem _ hl', heq⟩

/-- The text of an identifier of a source is a name. -/
theorem isNameText_of_mem_ofSource {source : String} {t : Token} (ht : t ∈ ofSource source)
    (hkind : t.kind = .ident) : isNameText t.text.toList = true := by
  rcases List.mem_append.mp ht with ht | ht
  · obtain ⟨l, hl, hform, htext⟩ := exists_lexeme_of_mem_locate ht
    rw [htext, String.toList_ofList]
    exact isNameText_of_mem_allWithin hl (hform.trans (hkind ▸ rfl))
  · rw [List.mem_singleton.mp ht] at hkind
    cases hkind

/-- The name of an identifier of a source is a piece. -/
theorem isPiece_name_of_mem_ofSource {source : String} {t : Token} (ht : t ∈ ofSource source)
    (hkind : t.kind = .ident) : IsPiece t.name := by
  have hpiece := isPiece_unescape_of_isNameText (isNameText_of_mem_ofSource ht hkind)
  rwa [String.ofList_toList] at hpiece

end Token

/-! ### Pieces that parsers read -/

mutual

/-- The pieces of the names of all namespaces in an item. -/
def Item.pieces : Item → List String
  | .namespaceDecl h items => h.parts ++ Item.allPieces items
  | .typeDecl _ => []

def Item.allPieces : List Item → List String
  | [] => []
  | i :: is => i.pieces ++ Item.allPieces is

end

/-- The names of the identifiers among some tokens. -/
def Token.names (ts : List Token) : List String :=
  ts.filterMap fun t ↦ if t.kind = .ident then some t.name else none

theorem Token.names_append (ts us : List Token) : names (ts ++ us) = names ts ++ names us :=
  List.filterMap_append

theorem append_subset_append {ws ws' vs vs' : List String} (h : ws ⊆ ws') (h' : vs ⊆ vs') :
    ws ++ vs ⊆ ws' ++ vs' :=
  List.append_subset.mpr
    ⟨List.subset_append_of_subset_left _ h, List.subset_append_of_subset_right _ h'⟩

namespace Parser

/-- Some words in the value of a parser are names of identifiers that were read for it. -/
def Names {α : Type} (words : α → List String) (p : Parser α) : Prop :=
  ∀ c, p.Gives c fun a read _ ↦ words a ⊆ Token.names read

section Steps

variable {α β : Type} {words : α → List String}

theorem Forward.bind_names {p : Parser β} {f : β → Parser α} (hp : p.Forward)
    (hf : ∀ b, (f b).Names words) : (p >>= f).Names words := by
  refine fun _ ↦ hp.gives_bind fun b before c' _ ↦ (hf b c').mono fun a read _ _ h ↦ ?_
  rw [Token.names_append]
  exact List.subset_append_of_subset_right _ h

/-- The words of the second value are among those of the first and more that are read behind it. -/
theorem Names.bind {words' : β → List String} {p : Parser β} {f : β → Parser α}
    (hp : p.Names words')
    (hf : ∀ b c, (f b).Gives c fun a read _ ↦ words a ⊆ words' b ++ Token.names read) :
    (p >>= f).Names words := by
  intro c
  refine gives_bind ((hp c).mono fun b before c' _ hb ↦ (hf b c').mono fun a read _ _ ha ↦ ?_)
  rw [Token.names_append]
  exact List.Subset.trans ha (append_subset_append hb (List.Subset.refl _))

/-- What only passes tokens takes nothing away. -/
theorem Forward.gives_among {ws : List String} {p : Parser β} {f : β → Parser α} {c : Cursor}
    (hp : p.Forward)
    (hf : ∀ b c', (f b).Gives c' fun a read _ ↦ words a ⊆ ws ++ Token.names read) :
    (p >>= f).Gives c fun a read _ ↦ words a ⊆ ws ++ Token.names read := by
  refine hp.gives_bind fun b before c' _ ↦ (hf b c').mono fun a read _ _ ha ↦ ?_
  rw [Token.names_append]
  exact List.Subset.trans ha
    (append_subset_append (List.Subset.refl _) (List.subset_append_right _ _))

theorem gives_pure_among {ws : List String} {a : α} {c : Cursor} (h : words a ⊆ ws) :
    (pure a : Parser α).Gives c fun a read _ ↦ words a ⊆ ws ++ Token.names read :=
  gives_pure (List.subset_append_of_subset_left _ h)

theorem Names.ite {b : Prop} [Decidable b] {p q : Parser α} (hp : p.Names words)
    (hq : q.Names words) : (if b then p else q).Names words := by
  split <;> assumption

theorem names_pure {a : α} (h : words a = []) : (pure a : Parser α).Names words :=
  fun _ ↦ gives_pure (h ▸ List.nil_subset _)

/-- The words of a value, if there is one. -/
def attemptWords (words : α → List String) : Except Diagnostic α → List String
  | .ok a => words a
  | .error _ => []

theorem Names.attempt {p : Parser α} (hp : p.Names words) :
    (attempt p).Names (attemptWords words) :=
  fun c ↦ gives_attempt (hp c) fun _ _ _ ↦ List.nil_subset _

end Steps

theorem names_identifier : identifier.Names fun a ↦ [a.1] := by
  refine fun c ↦ (gives_identifier c).mono fun _ read _ _ h ↦ ?_
  obtain ⟨t, hkind, rfl, rfl⟩ := h
  simp [Token.names, hkind]

theorem names_segmentWith {type : Parser TypeRef} (htype : type.Forward) (budget : Nat) :
    (segmentWith type budget).Names fun s ↦ [s.ident] := by
  refine names_identifier.bind fun named c ↦ (forward_check _).gives_among fun _ c' ↦ ?_
  have hend (args : List TypeRef) (c : Cursor) :
      (do let span ← spanFrom named.2; pure (Segment.mk named.1 args span)).Gives c
        fun s read _ ↦ [s.ident] ⊆ [named.1] ++ Token.names read :=
    (forward_spanFrom named.2).gives_among fun _ _ ↦ gives_pure_among (List.Subset.refl _)
  split
  · exact (forward_typeArgsWith htype budget).gives_among hend
  · exact hend [] c'

theorem names_segmentsWith {segment : Parser Segment} (hsegment : segment.Names fun s ↦ [s.ident]) :
    ∀ budget, (segmentsWith segment budget).Names fun ss ↦ ss.map Segment.ident
  | 0 => hsegment.bind fun s _ ↦ gives_pure_among (List.Subset.refl _)
  | budget + 1 => by
    refine hsegment.bind fun s c ↦ (Forward.look _).gives_among fun _ c' ↦ ?_
    split
    · refine forward_advance.gives_among fun _ c'' ↦ gives_bind
        ((names_segmentsWith hsegment budget c'').mono fun rest read _ _ hrest ↦ gives_pure ?_)
      rw [List.append_nil]
      exact List.cons_subset_cons _ hrest
    · exact gives_pure_among (List.Subset.refl _)

theorem names_qualifier : qualifier.Names fun q ↦ q.2.map Segment.ident := by
  refine (Forward.look _).bind_names fun _ ↦ .ite (names_identifier.bind fun named c ↦ ?_)
    (names_pure rfl)
  refine forward_advance.gives_among fun _ _ ↦ ?_
  split
  · exact gives_pure_among (List.nil_subset _)
  · exact gives_pure_among (List.Subset.refl _)

theorem names_nameWith {type : Parser TypeRef} (htype : type.Forward) (budget : Nat) :
    (nameWith type budget).Names Name.parts := by
  refine (Forward.look _).bind_names fun start ↦ names_qualifier.bind fun leading c ↦ ?_
  refine gives_bind ((names_segmentsWith (names_segmentWith htype budget) budget c).mono
    fun segments read c' _ hsegments ↦ ?_)
  refine (forward_spanFrom start).gives_bind fun _ more _ _ ↦ gives_pure ?_
  rw [Name.parts, List.map_append, Token.names_append]
  exact append_subset_append (List.Subset.refl _) (List.subset_append_of_subset_left _ hsegments)

theorem names_name : name.Names Name.parts := fun c ↦
  (names_nameWith (forward_typeRefWithin (c.rest.length + 1) (c.rest.length + 1))
    (c.rest.length + 1) c).of_eq rfl

/-- The pieces in an entry of a namespace. -/
def Entry.pieces : Entry → List String
  | .item i => i.pieces
  | .using _ => []
  | .nothing => []

/-- The pieces in the body of a namespace. -/
def bodyPieces (body : List Using × List Item) : List String := Item.allPieces body.2

theorem names_declarationEntry : declarationEntry.Names Entry.pieces := by
  refine (Forward.look _).bind_names fun start ↦ forward_attributeLists.bind_names fun attributes ↦
    forward_modifiers.bind_names fun mods ↦ (Forward.look _).bind_names fun c ↦ ?_
  split
  · exact (forward_typeDeclWith forward_members _ attributes mods start).bind_names
      fun _ ↦ names_pure rfl
  · exact .ite (forward_memberRest.bind_names fun _ ↦ names_pure rfl) <|
      .ite (names_pure rfl) fun c ↦ ⟨[], .nothing c, fun _ ha ↦ by cases ha⟩

section Body

variable {body : BodyEnd → Parser (List Using × List Item)}
  (hbody : ∀ bodyEnd, (body bodyEnd).Names bodyPieces)
include hbody

theorem names_namespaceWith : (namespaceWith body).Names Item.pieces := by
  refine (forward_expect _).bind_names fun start ↦ names_name.bind fun n c ↦ ?_
  -- the pieces of the body stand behind those of the name
  have hrest {usings : List Using} {items : List Item} {fileScoped : Bool} {read : List Token}
      (hitems : Item.allPieces items ⊆ Token.names read) {span : Span} {more : List Token} :
      (Item.namespaceDecl ⟨n.parts, n.span, fileScoped, usings, span⟩ items).pieces ⊆
        n.parts ++ Token.names (read ++ more) := by
    rw [Token.names_append]
    exact append_subset_append (List.Subset.refl _) (List.subset_append_of_subset_left _ hitems)
  refine (forward_eat _).gives_among fun _ c' ↦ ?_
  split
  · refine gives_bind ((hbody _ c').mono fun inside read _ _ hitems ↦ ?_)
    exact (forward_spanFrom _).gives_bind fun _ _ _ _ ↦ gives_pure (hrest hitems)
  · refine (forward_expect _).gives_among fun opened c'' ↦
      gives_bind ((hbody _ c'').mono fun inside read _ _ hitems ↦ ?_)
    exact (forward_closingBrace _ _).gives_bind fun _ _ _ _ ↦
      (forward_eat _).gives_bind fun _ _ _ _ ↦
        (forward_spanFrom _).gives_bind fun _ _ _ _ ↦ gives_pure (hrest hitems)

theorem names_entryWith : (entryWith body).Names Entry.pieces := by
  refine (Forward.look _).bind_names fun c ↦ .ite ?_ (.ite ?_ (.ite ?_ (.ite ?_ ?_)))
  · exact (forward_usingDirective _).bind_names fun _ ↦ names_pure rfl
  · exact forward_advance.bind_names fun _ ↦
      (forward_usingDirective _).bind_names fun _ ↦ names_pure rfl
  · exact forward_recoverToItem.bind_names fun _ ↦ names_pure rfl
  · exact (names_namespaceWith hbody).bind fun _ _ ↦ gives_pure_among (List.Subset.refl _)
  · exact names_declarationEntry

theorem names_stepWith : (stepWith body).Names Entry.pieces := by
  refine (Forward.look _).bind_names fun c ↦ .ite ?_ (.ite ?_ ?_)
  · exact (forward_report _).bind_names fun _ ↦
      forward_advance.bind_names fun _ ↦ names_pure rfl
  · exact forward_advance.bind_names fun _ ↦ names_pure rfl
  · refine (names_entryWith hbody).attempt.bind fun r c ↦ ?_
    cases r with
    | ok e => exact gives_pure_among (List.Subset.refl _)
    | error d =>
      exact (forward_report d).gives_among fun _ _ ↦
        forward_recoverToItem.gives_among fun _ _ ↦ gives_pure_among (List.nil_subset _)

theorem names_entriesWith (bodyEnd : BodyEnd) :
    ∀ budget, (entriesWith body bodyEnd budget).Names bodyPieces
  | 0 => names_pure rfl
  | budget + 1 => by
    rw [entriesWith_succ]
    refine (Forward.look _).bind_names fun k ↦ .ite (names_pure rfl) ?_
    refine (names_stepWith hbody).bind fun e c ↦
      gives_bind ((names_entriesWith bodyEnd budget c).mono fun rest read _ _ hrest ↦ ?_)
    -- keeping an entry reads nothing
    have hall : e.pieces ++ Item.allPieces rest.2 ⊆ e.pieces ++ Token.names (read ++ []) := by
      rw [List.append_nil]
      exact append_subset_append (List.Subset.refl _) hrest
    cases e <;> exact gives_pure hall

end Body

theorem names_namespaceBodyWithin (budget : Nat) :
    ∀ depth bodyEnd, (namespaceBodyWithin budget depth bodyEnd).Names bodyPieces
  | 0, _ => names_pure rfl
  | depth + 1, bodyEnd => names_entriesWith (names_namespaceBodyWithin budget depth) bodyEnd budget

theorem names_namespaceBody (bodyEnd : BodyEnd) : (namespaceBody bodyEnd).Names bodyPieces :=
  fun c ↦
    (names_namespaceBodyWithin (c.rest.length + 1) (c.rest.length + 1) bodyEnd c).of_eq rfl

end Parser

/-- The pieces of the names of all namespaces of a file are words. -/
theorem Parsed.isPiece_of_mem_allPieces {path source n : String}
    (h : n ∈ Item.allPieces (ofSource path source).file.items) : IsPiece n := by
  obtain ⟨read, hread, hnames⟩ := Parser.names_namespaceBody .endOfFile
    (Cursor.ofTokens ((Token.ofSource source).filter (·.kind ≠ .error)))
  rcases file_cases path source with ⟨body, hresult, hfile⟩ | hfile <;> rw [hfile] at h
  · obtain ⟨t, ht, hname⟩ := List.mem_filterMap.mp (hnames body hresult h)
    split at hname
    · rename_i hkind
      obtain rfl := Option.some.inj hname
      have hrest : (Token.ofSource source).filter (·.kind ≠ .error) = read ++ _ := hread.rest_eq
      have hmem : t ∈ (Token.ofSource source).filter (·.kind ≠ .error) :=
        hrest ▸ List.mem_append_left _ ht
      exact Token.isPiece_name_of_mem_ofSource (List.mem_of_mem_filter hmem) hkind
    · cases hname
  · cases h

end Companion
