import Companion.Proofs.Unit.Tokens
import Companion.Run

/-!
Declared names in companions. A companion writes the names of the declarations that it repeats and
of the fields that it restores without the escapes that they were declared with. So each of them is
one token there, but it is read back as the name exactly if no word is reserved for it.
-/

set_option autoImplicit false
set_option relaxedAutoImplicit false

namespace Companion

open Token Piece

/-- A name that is read back as it is written: no word is reserved for it, and it is no escape. -/
def IsWritable (n : String) : Prop := n.toList ∉ Kind.reserved.map Prod.fst ∧ unescape n = n

instance (n : String) : Decidable (IsWritable n) := inferInstanceAs (Decidable (_ ∧ _))

namespace ClassAnalysis

/-- The names of declarations that a companion writes. -/
def declaredNames (a : ClassAnalysis) : List String :=
  a.namespaceName.toList.flatMap components ++
    a.containingTypes.flatMap (fun t ↦ t.name :: t.typeParams) ++
    a.className :: a.typeParams ++ a.shapes.map (·.fieldName)

end ClassAnalysis

/-! ### Names among pieces -/

namespace Piece

variable {n : String}

theorem name_mem_block {header body : List Piece} :
    .name n ∈ block header body ↔ .name n ∈ header ∨ .name n ∈ body := by
  simp [block]

theorem name_mem_intercalate (separator : String) (names : List String) :
    .name n ∈ [text separator].intercalate (names.map fun n ↦ [name n]) ↔ n ∈ names := by
  induction names with
  | nil => simp
  | cons m names ih =>
    cases names with
    | nil => simp
    | cons m' names =>
      rw [List.map_cons] at ih
      simp only [List.map_cons, List.intercalate_cons_cons, List.mem_append, ih]
      simp

theorem name_mem_paramPieces {params : List String} :
    .name n ∈ paramPieces params ↔ n ∈ params := by
  rw [paramPieces]
  cases params with
  | nil => simp
  | cons m params =>
    have hnames := name_mem_intercalate (n := n) ", " (m :: params)
    rw [if_neg (by simp), List.mem_cons, List.mem_append, hnames]
    simp

end Piece

namespace Settings

variable {s : Settings} {a : ClassAnalysis} {n : String}

theorem name_mem_nestedPieces {headers : List (List Piece)} {body : List Piece} :
    .name n ∈ nestedPieces headers body ↔ (∃ h ∈ headers, .name n ∈ h) ∨ .name n ∈ body := by
  induction headers with
  | nil => simp [nestedPieces]
  | cons header headers ih =>
    show .name n ∈ Piece.block header (nestedPieces headers body) ↔ _
    simp [name_mem_block, ih, or_assoc]

theorem name_mem_restorePieces {className : String} {shape : FieldShape} :
    .name n ∈ s.restorePieces className shape ↔ n = shape.fieldName := by
  rw [restorePieces]
  cases shape.container <;> cases shape.isReadOnly <;> cases s.emitCastWarnings <;>
    simp [warningPieces, addPieces, name_mem_block]

theorem name_mem_hookPieces :
    .name n ∈ s.hookPieces a ↔ ∃ shape ∈ a.shapes, n = shape.fieldName := by
  have hall : .name n ∈ s.restoreAllPieces a ↔ ∃ shape ∈ a.shapes, n = shape.fieldName := by
    simp [restoreAllPieces, name_mem_restorePieces]
  rw [hookPieces, ← hall]
  cases a.hookRole <;> simp [interfacePieces, methodPieces, name_mem_block]

theorem name_not_mem_backingPieces (shape : FieldShape) : .name n ∉ s.backingPieces shape := by
  rw [backingPieces]
  cases shape.container <;> simp

theorem name_not_mem_repopulatePieces (element : String) :
    .name n ∉ s.repopulatePieces element := by
  rw [repopulatePieces]
  cases hwarn : s.emitCastWarnings <;> simp [name_mem_block, warningPieces, addPieces, hwarn]

theorem name_not_mem_instantiatePieces (element : String) :
    .name n ∉ s.instantiatePieces element := by
  simp [instantiatePieces, name_mem_block]

/-- The names in a companion are those of the declarations it repeats and the fields it restores. -/
theorem name_mem_unitPieces : .name n ∈ s.unitPieces a ↔ n ∈ a.declaredNames := by
  have hbody : .name n ∈ s.classBodyPieces a ↔ ∃ shape ∈ a.shapes, n = shape.fieldName := by
    rw [classBodyPieces]
    cases s.instantiateHelpers <;> simp [name_mem_hookPieces, name_not_mem_backingPieces,
      name_not_mem_repopulatePieces, name_not_mem_instantiatePieces]
  have hheader : .name n ∈ s.classHeaderPieces a ↔ n = a.className ∨ n ∈ a.typeParams := by
    rw [classHeaderPieces]
    split <;> simp [name_mem_paramPieces]
  have henclosing : (∃ header ∈ enclosingPieces a, .name n ∈ header) ↔
      (∃ t ∈ a.namespaceName, n ∈ components t) ∨
        ∃ t ∈ a.containingTypes, n = t.name ∨ n ∈ t.typeParams := by
    simp [enclosingPieces, dottedPieces, name_mem_intercalate, name_mem_paramPieces, or_and_right,
      exists_or]
  rw [unitPieces, ClassAnalysis.declaredNames]
  simp [name_mem_nestedPieces, henclosing, hheader, hbody, or_and_right, exists_or, or_assoc,
    eq_comm]

/-- Wherever a companion writes a declared name, the name is read back there. -/
def NamesSurvive (s : Settings) (a : ClassAnalysis) : Prop :=
  ∀ before n after, s.unitPieces a = before ++ .name n :: after →
    ∃ t, (Token.ofSource (s.companionText a))[(tokensOf before).length]? = some t ∧
      t.kind = .ident ∧ unescape t.text = n

/-- A declared name is one token where it is written. -/
theorem bare_at_name (h : a.Legible s) {before after : List Piece}
    (hpieces : s.unitPieces a = before ++ .name n :: after) :
    ∃ t, (Token.ofSource (s.companionText a))[(tokensOf before).length]? = some t ∧
      t.bare = (nameKind n.toList, n) := by
  have htokens : (Token.ofSource (s.companionText a)).map bare =
      tokensOf before ++ (nameKind n.toList, n) :: (tokensOf after ++ [(.eof, "")]) := by
    rw [map_bare_ofSource, spell_companionText h.toLegibleBody fun t ht ↦ (h.usings t ht).stops,
      hpieces, tokensOf_append, tokensOf_cons, List.append_assoc]
    rfl
  have hget := congrArg (·[(tokensOf before).length]?) htokens
  simpa using hget

/-- The declared names survive in a companion exactly if no word is reserved for any of them. -/
theorem namesSurvive_iff (h : a.Legible s) :
    s.NamesSurvive a ↔ ∀ n ∈ a.declaredNames, IsWritable n := by
  constructor
  · intro hsurvive n hn
    obtain ⟨before, after, hpieces⟩ := List.append_of_mem (name_mem_unitPieces.mpr hn)
    obtain ⟨t, hget, hbare⟩ := bare_at_name h hpieces
    obtain ⟨t', hget', hkind, htext⟩ := hsurvive before n after hpieces
    obtain rfl := Option.some.inj (hget.symm.trans hget')
    obtain ⟨hk, ht⟩ := Prod.mk.inj hbare
    exact ⟨nameKind_eq_ident_iff.mp (hk.symm.trans hkind), by rwa [ht] at htext⟩
  · intro hwritable before n after hpieces
    obtain ⟨t, hget, hbare⟩ := bare_at_name h hpieces
    obtain ⟨hk, ht⟩ := Prod.mk.inj hbare
    have hn :=
      hwritable n (name_mem_unitPieces.mp (hpieces ▸ List.mem_append_right _ List.mem_cons_self))
    exact ⟨t, hget, hk.trans (nameKind_eq_ident_iff.mpr hn.1), by rw [ht, hn.2]⟩

/-- A class and a field that are named by escaped keywords. -/
private def escapedSource : String :=
  "interface I\x7b\x7d" ++
  "partial class @class\x7b[SerializeInterface]I @enum;\x7d"

private def escapedTexts : List (String × String) := [("Escaped.cs", escapedSource)]

private def escapedAnalysis : ClassAnalysis where
  className := "class"
  namespaceName := none
  typeParams := []
  containingTypes := []
  ownShapes := [
    { fieldName := "enum"
      backingName := "enumSerialized"
      elementName := "I"
      container := .single
      isReadOnly := false
      isInitializedInline := false
      carriedAttributes := []
      span := ⟨56, 61⟩ }]
  inherited := []
  requiresCompanion := true
  isPartial := true
  implementsCallback := false
  hookRole := .standalone
  usings := []
  file := "Escaped.cs"
  span := ⟨27, 33⟩

private theorem escaped_facts :
    (Sources.ofTexts escapedTexts).diagnostics.isEmpty = true ∧
      ((Compilation.ofFiles (Sources.ofTexts escapedTexts).files).analyze {} 20).map Prod.fst =
        some escapedAnalysis := by
  decide +kernel

private theorem legible_escapedAnalysis : escapedAnalysis.Legible {} where
  hosts := by decide +kernel
  className := by decide
  typeParams := by simp [escapedAnalysis]
  space := by simp [escapedAnalysis]
  containing := by simp [escapedAnalysis]
  shapes := by
    intro shape hshape
    obtain rfl := List.mem_singleton.mp hshape
    exact ⟨by decide, by decide, IsDottedName.isTypeText (by decide), by simp [FieldShape.isList],
      by simp⟩
  usings := by
    rw [show escapedAnalysis.unitUsings = [] by decide]
    simp

theorem not_namesSurvive_of_keyword :
    escapedAnalysis.Legible {} ∧ ¬ Settings.NamesSurvive {} escapedAnalysis := by
  refine ⟨legible_escapedAnalysis, fun hsurvive ↦ ?_⟩
  have hwritable := (namesSurvive_iff legible_escapedAnalysis).mp hsurvive "class" (by decide)
  exact absurd hwritable (by decide)

/-- Declared names need not survive in a companion. -/
theorem not_forall_namesSurvive :
    ¬ ∀ (texts : List (String × String)) (s : Settings) (id : TypeId) (a : ClassAnalysis)
      (reports : List Diagnostic), (Sources.ofTexts texts).diagnostics = [] →
      (Compilation.ofFiles (Sources.ofTexts texts).files).analyze s id = some (a, reports) →
      a.shouldEmit = true → s.NamesSurvive a := by
  intro hall
  obtain ⟨hdiagnostics, hanalysis⟩ := escaped_facts
  obtain ⟨⟨a, reports⟩, ha, heq⟩ := Option.map_eq_some_iff.mp hanalysis
  obtain rfl : a = escapedAnalysis := heq
  have hsurvive := hall escapedTexts {} 20 _ reports (List.isEmpty_iff.mp hdiagnostics) ha rfl
  obtain ⟨before, after, hpieces⟩ := List.append_of_mem
    (name_mem_unitPieces.mpr (by decide : "class" ∈ escapedAnalysis.declaredNames))
  obtain ⟨t, hget, hkind, -⟩ := hsurvive before "class" after hpieces
  obtain ⟨t', hget', hbare⟩ := bare_at_name legible_escapedAnalysis hpieces
  obtain rfl := Option.some.inj (hget.symm.trans hget')
  have hreserved : t.kind = nameKind "class".toList := congrArg Prod.fst hbare
  rw [hkind] at hreserved
  exact absurd hreserved (by decide)

end Settings
end Companion
