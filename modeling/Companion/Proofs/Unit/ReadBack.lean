import Companion.Proofs.Grammar.FileReading
import Companion.Proofs.Unit.Methods

/-!
Companions that are read back. The text of a companion is read without a report, to the using
directives and types that were written: the class with its fields and methods, in the types and the
namespace around it (`Settings.reads_companionText`).
-/

set_option autoImplicit false
set_option relaxedAutoImplicit false

namespace Companion

open Token Token.Lexeme TypeRef Piece Companion.Parser

/-! ### What can stand where it is written -/

/-- In a text without errors everything stops at the end of a line. -/
theorem stopsAt_newline_of_isClean {cs : List Char} (h : IsClean (spell cs)) :
    ∀ l ∈ visible cs, l.StopsAt '\n' :=
  fun _ hl ↦ ⟨form_ne_error_of_mem_visible h hl, fun _ ↦ rfl⟩

/-- The directive for lists is read alone. -/
theorem readAlone_listUsing :
    (readAlone (usingDirective false) "using System.Collections.Generic;").isSome = true := by
  decide

namespace ClassAnalysis

variable {a : ClassAnalysis} {s : Settings}

theorem mem_unitUsings {t : String} (h : t ∈ a.unitUsings) :
    t = "using System.Collections.Generic;" ∨ t ∈ a.usings := by
  rcases Settings.mem_foldl_unseen.mp h with hnone | hmem
  · cases hnone
  · rcases List.mem_append.mp hmem with hmem | hmem
    · split at hmem
      · exact .inl (List.mem_singleton.mp hmem)
      · cases hmem
    · split at hmem
      · exact .inr hmem
      · cases hmem

/-- Every using directive of a companion is read alone. -/
theorem Readable.unitUsings (h : a.Readable s) :
    ∀ t ∈ a.unitUsings, ∃ u, readAlone (usingDirective false) t = some u := by
  intro t ht
  rcases mem_unitUsings ht with rfl | ht
  · exact Option.isSome_iff_exists.mp readAlone_listUsing
  · exact h.usings t ht

theorem Readable.isClean_of_mem_unitUsings (h : a.Readable s) {t : String}
    (ht : t ∈ a.unitUsings) : IsClean (spell t.toList) := by
  obtain ⟨u, hu⟩ := h.unitUsings t ht
  exact (ok_of_readAlone hu).1

theorem Readable.legibleBody (h : a.Readable s) : a.LegibleBody s where
  hosts t ht := (h.hosts t ht).isDottedName
  className := h.className.isNameText
  typeParams n hn := (h.typeParams n hn).isNameText
  space t ht := (h.space t ht).isDottedName
  containing t ht := ⟨(h.containing t ht).2.1.isNameText,
    fun n hn ↦ ((h.containing t ht).2.2 n hn).isNameText⟩
  shapes shape hshape := by
    have hs := h.shapes shape hshape
    refine ⟨hs.field.isNameText, hs.backing.isNameText, hs.element.isTypeText,
      fun _ _ ↦ (repopulateName_eq hs.element).1,
      fun t ht ↦ ?_⟩
    obtain ⟨l, hl, -⟩ := hs.attributes t ht
    exact ⟨stopsAt_newline_of_isClean (ok_of_readAlone hl).1,
      ("[" ++ t).toList, ']', by simp, by decide⟩

end ClassAnalysis

namespace Settings

variable {s : Settings} {a : ClassAnalysis}

/-! ### Members of the class -/

/-- The members of a companion: a field for each shape, the hooks and the helpers. -/
def companionMembers (s : Settings) (a : ClassAnalysis) : List Member :=
  a.shapes.map (fun shape ↦ .field (s.backingTree shape)) ++
    List.replicate (hookCount a.hookRole) (.other nowhere) ++
    (ClassAnalysis.elementNames (a.shapes.filter fun shape ↦ shape.isList && shape.isReadOnly)).map
      (fun _ ↦ .other nowhere) ++
    if s.instantiateHelpers then
      (ClassAnalysis.elementNames a.shapes).map fun _ ↦ .other nowhere
    else []

theorem tokensOf_flatMap {α : Type} (f : α → List Piece) (items : List α) :
    tokensOf (items.flatMap f) = (items.map fun x ↦ tokensOf (f x)).flatten := by
  rw [tokensOf, List.flatMap_assoc, List.flatMap_def]
  rfl

/-- Parts that are made for things, one for each. -/
theorem forall₂_isPart_map {α : Type} {pieces : α → List Piece} {member : α → Member}
    {items : List α} (h : ∀ x ∈ items, IsPart (tokensOf (pieces x)) (member x)) :
    List.Forall₂ IsPart (items.map fun x ↦ tokensOf (pieces x)) (items.map member) := by
  rw [List.forall₂_map_left_iff, List.forall₂_map_right_iff, List.forall₂_same]
  exact h

/-- The body of a companion is read part by part. -/
theorem exists_parts (h : a.Readable s) :
    ∃ lists : List (List Bare), tokensOf (s.classBodyPieces a) = lists.flatten ∧
      List.Forall₂ IsPart lists (s.companionMembers a) := by
  obtain ⟨hooks, hhooks, hparts⟩ := exists_hookParts h
  have hbackings := forall₂_isPart_map fun shape hshape ↦ isPart_backing h hshape
  have hrepopulate : ∀ element ∈ ClassAnalysis.elementNames
      (a.shapes.filter fun shape ↦ shape.isList && shape.isReadOnly),
      IsPart (tokensOf (s.repopulatePieces element)) (.other nowhere) := by
    intro element helement
    obtain ⟨shape, hshape, rfl⟩ := mem_elementNames helement
    exact isPart_repopulate h.hosts (h.shapes shape (List.mem_of_mem_filter hshape)).element
  have hinstantiate : ∀ element ∈ ClassAnalysis.elementNames a.shapes,
      IsPart (tokensOf (s.instantiatePieces element)) (.other nowhere) := by
    intro element helement
    obtain ⟨shape, hshape, rfl⟩ := mem_elementNames helement
    exact isPart_instantiate h.hosts (h.shapes shape hshape).element
  have hmembers := List.rel_append (List.rel_append hbackings hparts)
    (forall₂_isPart_map hrepopulate)
  rw [classBodyPieces, companionMembers]
  cases s.instantiateHelpers with
  | false =>
    refine ⟨_, ?_, List.rel_append hmembers .nil⟩
    simp [tokensOf_flatMap, hhooks]
  | true =>
    refine ⟨_, ?_, List.rel_append hmembers (forall₂_isPart_map hinstantiate)⟩
    simp [tokensOf_flatMap, hhooks]

/-! ### Types and namespaces -/

theorem tokensOf_intercalate {separator : String} {mark : Bare}
    (hmark : (Piece.text separator).tokens = [mark]) {names : List String}
    (hnames : ∀ n ∈ names, IsComponent n) :
    tokensOf ([Piece.text separator].intercalate (names.map fun n ↦ [.name n])) =
      [mark].intercalate (names.map fun n ↦ [(.ident, n)]) := by
  induction names with
  | nil => rfl
  | cons n names ih =>
    obtain ⟨hn, hrest⟩ := List.forall_mem_cons.mp hnames
    cases names with
    | nil => simpa using hn.tokens_name
    | cons n' names =>
      rw [List.map_cons] at ih
      simp only [List.map_cons, List.intercalate_cons_cons, tokensOf_append, ih hrest,
        tokensOf_cons, tokensOf_nil, hn.tokens_name, hmark, List.append_nil]

theorem tokensOf_paramPieces {params : List String} (hparams : ∀ n ∈ params, IsComponent n) :
    tokensOf (paramPieces params) = paramTokens params := by
  have htexts : (Piece.text "<").tokens = [(.lt, "<")] ∧
      (Piece.text ", ").tokens = [(.comma, ",")] ∧
      (Piece.text ">").tokens = [(.gt, ">")] := by decide
  rw [paramPieces, paramTokens]
  split
  · rfl
  · simp [tokensOf_intercalate htexts.2.1 hparams, htexts]

/-- The type that introduces the class. -/
def classHead (s : Settings) (a : ClassAnalysis) : Head where
  kind := .classType
  name := a.className
  params := a.typeParams
  base := if !a.implementsCallback && a.hookRole ≠ .override then
    some (components s.host.callbackInterface) else none

/-- A type around the class. -/
def containingHead (t : ContainingType) : Head := ⟨t.kind, t.name, t.typeParams, none⟩

theorem tokens_kindKeyword (kind : TypeKind) :
    (Piece.text (kind.keyword ++ " ")).tokens = kindTokens kind := by
  cases kind <;> decide

theorem tokens_partial : (Piece.text "partial ").tokens = [(.ident, "partial")] := by
  decide

theorem tokensOf_classHeader (h : a.Readable s) (body : List Piece) :
    tokensOf (Piece.block (s.classHeaderPieces a) body) =
      typeTokens (s.classHead a) (tokensOf body) := by
  have hcallback := h.hosts s.host.callbackInterface (by simp [HostNames.all])
  have htexts : (Piece.text "class ").tokens = [(.classWord, "class")] ∧
      (Piece.text " : ").tokens = [(.colon, ":")] := by decide
  have hbase : (Piece.text s.host.callbackInterface).tokens =
      (plain (components s.host.callbackInterface)).tokens := hcallback.spell_eq
  rw [tokensOf_block, classHeaderPieces, typeTokens, Head.tokensBehind, classHead]
  split <;>
    simp [tokensOf_paramPieces h.typeParams, h.className.tokens_name, tokens_partial, htexts, hbase,
      kindTokens, baseTokens]

theorem tokensOf_containing {t : ContainingType} (hname : IsComponent t.name)
    (hparams : ∀ n ∈ t.typeParams, IsComponent n) (body : List Piece) :
    tokensOf (Piece.block ([.text "partial ", .text (t.kind.keyword ++ " "), .name t.name] ++
        paramPieces t.typeParams) body) = typeTokens (containingHead t) (tokensOf body) := by
  rw [tokensOf_block, typeTokens, Head.tokensBehind, containingHead]
  simp [tokensOf_paramPieces hparams, hname.tokens_name, tokens_partial, tokens_kindKeyword,
    baseTokens]

/-- The tokens of types around some body. -/
theorem tokensOf_nestedPieces {ts : List ContainingType}
    (hts : ∀ t ∈ ts, IsComponent t.name ∧ ∀ n ∈ t.typeParams, IsComponent n)
    (inner : List Piece) :
    tokensOf (nestedPieces (ts.map fun t ↦
      [.text "partial ", .text (t.kind.keyword ++ " "), .name t.name] ++ paramPieces t.typeParams)
        inner) = nestedTokens (ts.map containingHead) (tokensOf inner) := by
  induction ts with
  | nil => rfl
  | cons t ts ih =>
    obtain ⟨ht, hrest⟩ := List.forall_mem_cons.mp hts
    exact (tokensOf_containing ht.1 ht.2 _).trans (congrArg _ (ih hrest))

/-- Types one in the other around a type with some members. -/
def nestedDecl (inner : Head) (ms : List Member) : List Head → TypeDecl
  | [] => inner.decl ms
  | h :: heads => h.decl [.type (nestedDecl inner ms heads)]

theorem nestedMembers_concat (inner : Head) (ms : List Member) (heads : List Head) :
    nestedMembers (heads ++ [inner]) ms = [.type (nestedDecl inner ms heads)] := by
  induction heads with
  | nil => rfl
  | cons h heads ih =>
    show [Member.type (h.decl (nestedMembers (heads ++ [inner]) ms))] = _
    rw [ih]
    rfl

/-- The class in the types around it. -/
def companionDecl (s : Settings) (a : ClassAnalysis) : TypeDecl :=
  nestedDecl (s.classHead a) (s.companionMembers a) (a.containingTypes.map containingHead)

/-- What a companion declares: the class in the types and the namespace around it. -/
def companionItem (s : Settings) (a : ClassAnalysis) : Item :=
  match a.namespaceName with
  | none => .typeDecl (s.companionDecl a)
  | some t => .namespaceDecl ⟨(components t).map unescape, nowhere, false, [], nowhere⟩
      [.typeDecl (s.companionDecl a)]

/-- The using directives of a companion. -/
def companionUsings (a : ClassAnalysis) : List Using :=
  (a.unitUsings.filterMap fun t ↦ readAlone (usingDirective false) t).map Using.placeless

/-! ### Tokens without errors -/

theorem isClean_of_isPart {lists : List (List Bare)} {ms : List Member}
    (h : List.Forall₂ IsPart lists ms) : IsClean lists.flatten := by
  induction h with
  | nil => exact isClean_nil
  | cons hpart _ ih => exact isClean_append.mpr ⟨hpart.clean, ih⟩

theorem isClean_bodyTokens {bs : List Bare} (h : IsClean bs) : IsClean (bodyTokens bs) :=
  isClean_cons.mpr ⟨Kind.noConfusion, isClean_append.mpr ⟨h,
    isClean_cons.mpr ⟨Kind.noConfusion, isClean_nil⟩⟩⟩

theorem isClean_paramTokens (params : List String) : IsClean (paramTokens params) := by
  refine isClean_of_isTypePart fun b hb ↦ ?_
  rw [paramTokens] at hb
  split at hb
  · cases hb
  · rcases List.mem_cons.mp hb with rfl | hb
    · rfl
    · rcases List.mem_append.mp hb with hb | hb
      · rcases mem_intercalate hb with rfl | ⟨list, hlist, hb⟩
        · rfl
        · obtain ⟨n, -, rfl⟩ := List.mem_map.mp hlist
          obtain rfl := List.mem_singleton.mp hb
          rfl
      · obtain rfl := List.mem_singleton.mp hb
        rfl

theorem isClean_typeTokens (h : Head) {bs : List Bare} (hbs : IsClean bs) :
    IsClean (typeTokens h bs) := by
  have hkind : Balanced (kindTokens h.kind) := by cases h.kind <;> decide
  have hbase : IsClean (baseTokens h.base) := by
    cases h.base with
    | none => exact isClean_nil
    | some ns => exact isClean_cons.mpr ⟨Kind.noConfusion, isClean_plain ns⟩
  have hbehind : IsClean h.tokensBehind := isClean_cons.mpr
    ⟨Kind.noConfusion, isClean_append.mpr ⟨isClean_paramTokens h.params, hbase⟩⟩
  exact isClean_cons.mpr ⟨Kind.noConfusion, isClean_append.mpr ⟨hkind.isClean,
    isClean_append.mpr ⟨hbehind, isClean_bodyTokens hbs⟩⟩⟩

theorem isClean_nestedTokens (heads : List Head) {bs : List Bare} (hbs : IsClean bs) :
    IsClean (nestedTokens heads bs) := by
  induction heads with
  | nil => exact hbs
  | cons h heads ih => exact isClean_typeTokens h ih

/-! ### Reading back -/

/-- The pieces of the class in the types around it. -/
def typePieces (s : Settings) (a : ClassAnalysis) : List Piece :=
  nestedPieces (a.containingTypes.map fun t ↦
    [.text "partial ", .text (t.kind.keyword ++ " "), .name t.name] ++ paramPieces t.typeParams)
    (Piece.block (s.classHeaderPieces a) (s.classBodyPieces a))

theorem tokensOf_typePieces (h : a.Readable s) :
    tokensOf (s.typePieces a) =
      nestedTokens (a.containingTypes.map containingHead ++ [s.classHead a])
        (tokensOf (s.classBodyPieces a)) := by
  rw [typePieces, tokensOf_nestedPieces fun t ht ↦ (h.containing t ht).2, tokensOf_classHeader h,
    nestedTokens, nestedTokens, List.foldr_append]
  rfl

theorem valid_heads (h : a.Readable s) :
    ∀ x ∈ a.containingTypes.map containingHead ++ [s.classHead a], x.Valid := by
  intro x hx
  rcases List.mem_append.mp hx with hx | hx
  · obtain ⟨t, ht, rfl⟩ := List.mem_map.mp hx
    exact ⟨(h.containing t ht).1, fun ns hns ↦ by cases hns⟩
  · obtain rfl := List.mem_singleton.mp hx
    refine ⟨TypeKind.noConfusion, fun ns hns ↦ ?_⟩
    rw [classHead] at hns
    split at hns
    · obtain rfl := Option.some.inj hns
      exact ⟨components_ne_nil _,
        (h.hosts s.host.callbackInterface (by simp [HostNames.all])).isIdentifier⟩
    · cases hns

/-- The class in the types around it is read as that. -/
theorem isItem_companionDecl (h : a.Readable s)
    (body : BodyEnd → Parser (List Using × List Item)) :
    IsItem body (tokensOf (s.typePieces a)) (.typeDecl (s.companionDecl a)) := by
  obtain ⟨lists, htokens, hparts⟩ := exists_parts h
  have hmembers : List.Forall₂ (fun bs m ↦ ∀ members, IsMember (memberWith members) bs m) lists
      (s.companionMembers a) := hparts.imp fun _ _ hpart ↦ hpart.member
  have hconcat := nestedMembers_concat (s.classHead a) (s.companionMembers a)
    (a.containingTypes.map containingHead)
  have hvalid := valid_heads h
  rw [tokensOf_typePieces h, htokens]
  cases hheads : a.containingTypes.map containingHead ++ [s.classHead a] with
  | nil => simp at hheads
  | cons head heads =>
    rw [hheads] at hconcat hvalid
    have hdecl : head.decl (nestedMembers heads (s.companionMembers a)) = s.companionDecl a :=
      Member.type.inj (List.singleton_inj.mp hconcat)
    rw [← hdecl]
    exact isItem_typeDecl hvalid hmembers

theorem isClean_typePieces (h : a.Readable s) : IsClean (tokensOf (s.typePieces a)) := by
  obtain ⟨lists, htokens, hparts⟩ := exists_parts h
  rw [tokensOf_typePieces h, htokens]
  exact isClean_nestedTokens _ (isClean_of_isPart hparts)

/-- The tokens of what a companion declares. -/
theorem tokensOf_nestedPieces_unit (h : a.Readable s) :
    tokensOf (nestedPieces (enclosingPieces a ++ [s.classHeaderPieces a]) (s.classBodyPieces a)) =
      match a.namespaceName with
      | none => tokensOf (s.typePieces a)
      | some t => namespaceTokens (components t) (tokensOf (s.typePieces a)) := by
  have hnested : nestedPieces (enclosingPieces a ++ [s.classHeaderPieces a]) (s.classBodyPieces a) =
      nestedPieces (a.namespaceName.toList.map fun t ↦ .text "namespace " :: dottedPieces t)
        (s.typePieces a) := by
    rw [typePieces, enclosingPieces]
    simp only [nestedPieces, List.foldr_append, List.foldr_cons, List.foldr_nil]
  rw [hnested]
  cases hspace : a.namespaceName with
  | none => rfl
  | some t =>
    have ht := h.space t hspace
    have htexts : (Piece.text "namespace ").tokens = [(.namespaceWord, "namespace")] ∧
        (Piece.text ".").tokens = [(.dot, ".")] := by decide
    have hdotted : tokensOf (dottedPieces t) = (plain (components t)).tokens := by
      rw [dottedPieces, tokensOf_intercalate htexts.2 ht, tokens_plain]
    show tokensOf (Piece.block (.text "namespace " :: dottedPieces t) (s.typePieces a)) = _
    rw [tokensOf_block, tokensOf_cons, htexts.1, hdotted]
    rfl

/-- What a companion declares is read in a file, however deep namespaces may be nested. -/
theorem isItem_companion (h : a.Readable s)
    {budget : Nat} (depth : Nat) (hbudget : 1 < budget) :
    IsItem (namespaceBodyWithin budget (depth + 1)) (tokensOf (nestedPieces
      (enclosingPieces a ++ [s.classHeaderPieces a]) (s.classBodyPieces a)))
        (s.companionItem a) := by
  rw [tokensOf_nestedPieces_unit h, companionItem]
  cases hspace : a.namespaceName with
  | none => exact isItem_companionDecl h _
  | some t =>
    have ht := h.space t hspace
    exact isItem_namespace (components_ne_nil t) ht.isIdentifier fun rest ↦
      takes_entriesWith .nil (isItem_companionDecl h _) (.inr ⟨rfl, rfl⟩) hbudget

theorem isClean_nestedPieces (h : a.Readable s) :
    IsClean (tokensOf (nestedPieces (enclosingPieces a ++ [s.classHeaderPieces a])
      (s.classBodyPieces a))) := by
  have hclean := isClean_typePieces h
  rw [tokensOf_nestedPieces_unit h]
  cases a.namespaceName with
  | none => exact hclean
  | some t =>
    exact isClean_cons.mpr ⟨Kind.noConfusion,
      isClean_append.mpr ⟨isClean_plain _, isClean_bodyTokens hclean⟩⟩

/-- The first line of a companion has no tokens, and each using directive has its own. -/
theorem tokensOf_unitPieces (s : Settings) (a : ClassAnalysis) :
    tokensOf (s.unitPieces a) = (a.unitUsings.map fun t ↦ spell t.toList).flatten ++
      tokensOf (nestedPieces (enclosingPieces a ++ [s.classHeaderPieces a])
        (s.classBodyPieces a)) := by
  have hcomment : (Piece.text "// <auto-generated/>").tokens = [] := by decide
  have husings := tokensOf_map_text a.unitUsings id
  rw [unitPieces, tokensOf_cons, tokensOf_append, hcomment, List.nil_append]
  exact congrArg (· ++ _) husings

theorem length_le_flatten_of_isDirective {lists : List (List Bare)} {us : List Using}
    (h : List.Forall₂ IsDirective lists us) : lists.length ≤ lists.flatten.length := by
  induction h with
  | nil => exact Nat.le_refl _
  | @cons bs u lists us hu _ ih =>
    have hpos : 0 < bs.length := by
      refine List.length_pos_of_ne_nil ?_
      rintro rfl
      cases hu.opens
    rw [List.length_cons, List.flatten_cons, List.length_append]
    omega

/-- The tokens of a companion are those of its pieces, and none is an error. -/
theorem spell_unitPieces (h : a.Readable s) :
    spell (s.companionText a).toList = tokensOf (s.unitPieces a) ∧
      IsClean (tokensOf (s.unitPieces a)) := by
  refine ⟨spell_companionText (h.legibleBody) fun t ht ↦
    stopsAt_newline_of_isClean (h.isClean_of_mem_unitUsings ht), ?_⟩
  rw [tokensOf_unitPieces]
  refine isClean_append.mpr ⟨isClean_flatten fun bs hbs ↦ ?_, isClean_nestedPieces h⟩
  obtain ⟨t, ht, rfl⟩ := List.mem_map.mp hbs
  exact h.isClean_of_mem_unitUsings ht

/-- A companion is read as a file: its using directives, and what it declares. -/
theorem takes_unitPieces (h : a.Readable s) :
    (namespaceBody .endOfFile).Takes (tokensOf (s.unitPieces a)) [(.eof, "")] fun read ↦
      read.1.map Using.placeless = companionUsings a ∧
        read.2.map Item.placeless = [s.companionItem a] := by
  have husings := forall₂_of_readAlone (f := id) (fun _ _ ↦ isDirective_of_readAlone) h.unitUsings
  rw [tokensOf_unitPieces]
  intro c hc
  obtain ⟨depth, hdepth⟩ : ∃ depth, c.rest.length = depth + 1 := by
    refine Nat.exists_eq_add_of_le' ?_
    rw [hc.length_rest, List.length_append]
    exact Nat.le_add_left _ _
  have hcount := length_le_flatten_of_isDirective husings
  have hlength := hc.length_rest
  simp only [List.length_append, List.length_singleton] at hlength
  rw [namespaceBody, hdepth]
  refine takes_entriesWith husings (isItem_companion h depth (by omega)) (.inl rfl) ?_ c hc
  simp only [List.length_map, id] at hcount ⊢
  omega

end Settings
end Companion
