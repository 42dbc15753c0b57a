import Companion.Proofs.Unit.Members

/-!
The methods of a companion. Every statement in them closes the groups that it opens (`Nests`), so
each hook (`Settings.exists_hookParts`) and each helper (`Settings.isPart_repopulate`,
`Settings.isPart_instantiate`) is a method that is passed over up to the end of its body.
-/

set_option autoImplicit false
set_option relaxedAutoImplicit false

namespace Companion

open Token Token.Lexeme TypeRef Piece Companion.Parser

/-! ### Groups in pieces -/

/-- Behind the pieces `depth'` groups are open, if `depth` are open before. -/
def Nests (depth depth' : Nat) (ps : List Piece) : Prop :=
  nesting depth (tokensOf ps) = some depth'

namespace Nests

variable {depth depth' k : Nat} {p : Piece} {ps qs : List Piece} {t : String}

theorem nil (depth : Nat) : Nests depth depth [] := rfl

/-- A text that closes what it opens. -/
theorem level (h : Balanced (spell t.toList)) (hps : Nests depth depth' ps) :
    Nests depth depth' (.text t :: ps) := (nesting_append (h.nesting_eq depth)).trans hps

/-- A text that opens a group. -/
theorem opens (h : nesting 0 (spell t.toList) = some 1) (hps : Nests (depth + 1) depth' ps) :
    Nests depth depth' (.text t :: ps) := by
  have hopen := nesting_add h depth
  rw [Nat.zero_add, Nat.add_comm 1] at hopen
  exact (nesting_append hopen).trans hps

/-- A text that closes a group. -/
theorem closes (h : nesting 1 (spell t.toList) = some 0) (hps : Nests depth depth' ps) :
    Nests (depth + 1) depth' (.text t :: ps) := by
  have hclose := nesting_add h depth
  rw [Nat.zero_add, Nat.add_comm 1] at hclose
  exact (nesting_append hclose).trans hps

theorem flat (h : IsFlat p.tokens) (hps : Nests depth depth' ps) : Nests depth depth' (p :: ps) :=
  (nesting_append (h.nesting_eq depth)).trans hps

theorem append (hps : Nests depth k ps) (hqs : Nests k depth' qs) :
    Nests depth depth' (ps ++ qs) := by
  rw [Nests, tokensOf_append, nesting_append hps]
  exact hqs

theorem flatMap {α : Type} {f : α → List Piece} {items : List α}
    (h : ∀ a ∈ items, Nests 0 0 (f a)) : Nests 0 0 (items.flatMap f) := by
  induction items with
  | nil => exact nil 0
  | cons a items ih =>
    exact (h a List.mem_cons_self).append (ih fun x hx ↦ h x (List.mem_cons_of_mem _ hx))

end Nests

theorem Piece.tokensOf_block (header body : List Piece) :
    tokensOf (block header body) = tokensOf header ++ bodyTokens (tokensOf body) := by
  have hopen : (text "\x7b").tokens = [(.lbrace, "\x7b")] := by decide
  have hclose : (text "\x7d").tokens = [(.rbrace, "\x7d")] := by decide
  rw [block, tokensOf_append, tokensOf_cons, tokensOf_append, tokensOf_cons, hopen, hclose]
  rfl

theorem Nests.block {header body : List Piece} (hheader : Nests 0 0 header)
    (hbody : Nests 0 0 body) : Nests 0 0 (Piece.block header body) := by
  rw [Nests, tokensOf_block, nesting_append hheader]
  exact Balanced.group (o := (.lbrace, "\x7b")) (c := (.rbrace, "\x7d")) rfl rfl hbody

/-! ### Pieces without groups -/

theorem isFlat_ident (n : String) : IsFlat [(.ident, n)] := by
  intro b hb
  obtain rfl := List.mem_singleton.mp hb
  exact ⟨Kind.noConfusion, Kind.noConfusion, rfl, rfl⟩

theorem IsComponent.tokens_name {n : String} (h : IsComponent n) :
    (Piece.name n).tokens = [(.ident, n)] := by
  rw [Piece.tokens, (isNameText_of_spell h.single).2]

theorem IsComponent.isFlat_name {n : String} (h : IsComponent n) : IsFlat (Piece.name n).tokens :=
  h.tokens_name ▸ isFlat_ident n

theorem IsComponent.isFlat {n : String} (h : IsComponent n) : IsFlat (Piece.text n).tokens :=
  show IsFlat (spell n.toList) from h.single ▸ isFlat_ident n

theorem HasComponents.isFlat {t : String} (h : HasComponents t) : IsFlat (Piece.text t).tokens :=
  show IsFlat (spell t.toList) from h.spell_eq ▸ (madeOf_plain h).isFlat

theorem isFlat_quoted {t : String} (hne : t ≠ "") (ht : t.toList.all isPlain = true) :
    IsFlat (Piece.text ("\"" ++ t ++ "\"")).tokens := by
  have hquoted := spell_quoted hne ht []
  rw [List.append_nil] at hquoted
  rw [Piece.tokens, hquoted]
  intro b hb
  obtain rfl := List.mem_singleton.mp hb
  exact ⟨Kind.noConfusion, Kind.noConfusion, rfl, rfl⟩

namespace Settings

variable {s : Settings} {a : ClassAnalysis} {shape : FieldShape}

/-! ### Statements -/

theorem nests_warning (hlog : HasComponents s.host.debugLog) {front quoted : String}
    (hfront : front = "" ∨ front = "fieldName + ") (hne : quoted ≠ "")
    (hplain : quoted.toList.all isPlain = true) : Nests 0 0 (s.warningPieces front quoted) := by
  have hopen : nesting 0 (spell (".LogWarning(" ++ front).toList) = some 1 := by
    rcases hfront with rfl | rfl <;> decide
  exact .flat hlog.isFlat <| .opens hopen <| .flat (isFlat_quoted hne hplain) <|
    .closes (by decide) (.nil 0)

theorem nests_add {target : Piece} {element : String} {warning : List Piece}
    (htarget : IsFlat target.tokens) (helement : IsElementName element)
    (hwarning : Nests 0 0 warning) : Nests 0 0 (s.addPieces target element warning) := by
  refine .append (k := 0) ?_ ?_
  · exact .level (by decide) <| .flat helement.isFlat <| .level (by decide) <|
      .level (by decide) <| .flat htarget <| .level (by decide) (.nil 0)
  · cases s.emitCastWarnings with
    | false => exact .nil 0
    | true => exact .level (by decide) hwarning

/-- Whatever is quoted about a field can stand in quotes. -/
theorem isPlain_subject (h : a.Readable s) (hshape : shape ∈ a.shapes) :
    (a.className ++ "." ++ shape.fieldName).toList.all isPlain = true := by
  simp only [String.toList_append, List.all_append, isPlain_of_isNameText h.className.isNameText,
    isPlain_of_isNameText (h.shapes shape hshape).field.isNameText]
  decide

theorem nests_fieldMismatch (h : a.Readable s) (hshape : shape ∈ a.shapes) :
    Nests 0 0 (s.warningPieces "" (a.className ++ "." ++ shape.fieldName ++
      ": assigned object does not implement " ++ shape.elementName ++ ".")) := by
  have helement := (h.shapes shape hshape).element.isTypeText.plain
  refine nests_warning (h.hosts s.host.debugLog (by simp [HostNames.all])) (.inl rfl) (by simp) ?_
  rw [String.toList_append, List.all_append, String.toList_append, List.all_append,
    String.toList_append, List.all_append, isPlain_subject h hshape, helement]
  decide

theorem nests_restore (h : a.Readable s) (hshape : shape ∈ a.shapes) :
    Nests 0 0 (s.restorePieces a.className shape) := by
  have hs := h.shapes shape hshape
  have hwarning := nests_fieldMismatch h hshape
  rw [restorePieces]
  cases hcontainer : shape.container with
  | single =>
    refine .append (k := 0) ?_ ?_
    · exact .flat hs.field.isFlat_name <| .level (by decide) <| .flat hs.backing.isFlat <|
        .level (by decide) <| .flat hs.element.isFlat <| .level (by decide) (.nil 0)
    · cases s.emitCastWarnings with
      | false => exact .nil 0
      | true =>
        refine .append (k := 0) ?_ hwarning
        exact .opens (by decide) <| .flat hs.field.isFlat_name <|
          .level (by decide) <| .flat hs.backing.isFlat <|
          .closes (by decide) (.nil 0)
  | list =>
    dsimp only
    split
    · have hhelper : IsFlat (Piece.text (repopulateName shape.elementName)).tokens :=
        show IsFlat (spell _) from (repopulateName_eq hs.element).2.1 ▸ isFlat_ident _
      exact .flat hhelper <| .opens (by decide) <| .flat hs.field.isFlat_name <|
        .level (by decide) <| .flat hs.backing.isFlat <| .level (by decide) <|
        .flat (isFlat_quoted (by simp) (isPlain_subject h hshape)) <|
        .closes (by decide) (.nil 0)
    · refine .append (k := 0) ?_ (.block ?_ (nests_add hs.field.isFlat_name hs.element hwarning))
      · exact .opens (by decide) <| .flat hs.field.isFlat_name <|
          .closes (by decide) <| .flat hs.field.isFlat_name <| .level (by decide) <|
          .level (by decide) <| .level (by decide) <| .flat hs.element.isFlat <|
          .level (by decide) <| .flat hs.field.isFlat_name <|
          .level (by decide) (.nil 0)
      · exact .opens (by decide) <| .flat hs.backing.isFlat <|
          .closes (by decide) (.nil 0)

theorem nests_restoreAll (h : a.Readable s) : Nests 0 0 (s.restoreAllPieces a) :=
  .flatMap fun _ hshape ↦ nests_restore h hshape

/-! ### Methods -/

end Settings

theorem isQuiet_of_isTypePart {k : Token.Kind} (h : isTypePart k = true) : isQuiet k = true := by
  cases k <;> first | rfl | cases h

theorem isClean_of_isTypePart {bs : List Bare} (h : ∀ b ∈ bs, isTypePart b.1 = true) :
    IsClean bs := (isFlat_of_isTypePart h).isClean

/-- A method is passed over. -/
theorem isPart_method (ms : List Modifier) {t : TypeRef} (ht : t.Legible)
    (hclean : IsClean t.tokens)
    (hopens : ∀ rest, kindAt rest 0 ≠ .lparen → OpensTyped (t.tokens ++ rest)) {n : String}
    (hn : n ≠ "operator" ∧ n ≠ "this") {front params body : List Bare}
    (hfront : ∀ b ∈ front, isTypePart b.1 = true)
    (hshows : showsOther (kindAt (methodRest front params body) 0) = true)
    (hparams : Balanced params) (hbody : Balanced body) :
    IsPart (modifierTokens ms ++ (t.tokens ++ methodRest ((.ident, n) :: front) params body))
      (.other nowhere) where
  clean := by
    have hrest : IsClean ((.rparen, ")") :: bodyTokens body) :=
      isClean_cons.mpr ⟨Kind.noConfusion, (Balanced.group (o := (.lbrace, "\x7b"))
        (c := (.rbrace, "\x7d")) rfl rfl hbody).isClean⟩
    exact isClean_append.mpr ⟨isClean_modifierTokens ms, isClean_append.mpr ⟨hclean,
      isClean_append.mpr ⟨isClean_cons.mpr ⟨Kind.noConfusion, isClean_of_isTypePart hfront⟩,
        isClean_cons.mpr ⟨Kind.noConfusion, isClean_append.mpr ⟨hparams.isClean, hrest⟩⟩⟩⟩⟩
  member members := by
    have hopen (rest : List Bare) :
        OpensTyped ((t.tokens ++ methodRest ((.ident, n) :: front) params body) ++ rest) := by
      rw [List.append_assoc]
      exact hopens _ (by simp [methodRest])
    refine ⟨.inl (kindAt_modifierTokens ms ?_), fun rest hrest ↦ ?_⟩
    · obtain ⟨w, more, heq, -⟩ := hopen []
      rw [List.append_nil] at heq
      rw [heq, kindAt_cons_zero]
    · exact takes_memberWith_typed .nil (hopen rest) fun attributes start _ ↦
        takes_typedMember_method ht hn (fun b hb ↦ isQuiet_of_isTypePart (hfront b hb)) hshows
          hparams hbody hrest

/-- A method without a value. -/
theorem isPart_voidMethod (ms : List Modifier) {n : String} (hn : n ≠ "operator" ∧ n ≠ "this")
    {front params body : List Bare} (hfront : ∀ b ∈ front, isTypePart b.1 = true)
    (hshows : showsOther (kindAt (methodRest front params body) 0) = true)
    (hparams : Balanced params) (hbody : Balanced body) :
    IsPart (modifierTokens ms ++
      ((.ident, "void") :: methodRest ((.ident, n) :: front) params body)) (.other nowhere) := by
  have hclean : IsClean (TypeRef.predefined .void nowhere).tokens := (isFlat_ident "void").isClean
  exact isPart_method _ (.predefined .void nowhere) hclean
    (fun rest hrest ↦ ⟨"void", rest, rfl, by decide, by decide, by decide, hrest⟩) hn hfront hshows
    hparams hbody

namespace Settings

variable {s : Settings} {a : ClassAnalysis} {element : String} {ps : List Piece}

/-- A hook that the callback interface asks for. -/
theorem isPart_interfaceHook (hosts : ∀ t ∈ s.host.all, HasComponents t) {method : String}
    (hmethod : method ∈ s.host.all) (hps : Nests 0 0 ps) :
    IsPart (tokensOf (Piece.block (s.methodPieces method) ps)) (.other nowhere) := by
  have hcallback := hosts s.host.callbackInterface (by simp [HostNames.all])
  obtain ⟨n, more, hname, hn⟩ := (madeOf_plain hcallback).tokens_eq_cons
  have hmore : ∀ b ∈ more, isTypePart b.1 = true := fun b hb ↦
    (madeOf_plain hcallback).isTypePart_of_mem b (hname ▸ List.mem_cons_of_mem _ hb)
  have hfront : ∀ b ∈ more ++ (.dot, ".") :: (plain (components method)).tokens,
      isTypePart b.1 = true := by
    intro b hb
    rcases List.mem_append.mp hb with hb | hb
    · exact hmore b hb
    · rcases List.mem_cons.mp hb with rfl | hb
      · rfl
      · exact (madeOf_plain (hosts method hmethod)).isTypePart_of_mem b hb
  have hdotted : kindAt (more ++ (.dot, ".") :: (plain (components method)).tokens) 0 = .dot := by
    have hone := kindAt_plain_one ((.dot, ".") :: (plain (components method)).tokens)
      (components_ne_nil s.host.callbackInterface)
    rw [hname, List.cons_append, kindAt_cons_succ] at hone
    exact hone.elim id id
  have hpart := isPart_voidMethod [] ⟨hn.ne (by decide), hn.ne (by decide)⟩ hfront
    (by rw [methodRest, kindAt_append hdotted Kind.noConfusion]; rfl) .nil hps
  have htexts : spell "void ".toList = [(.ident, "void")] ∧ spell ".".toList = [(.dot, ".")] ∧
      spell "()".toList = [(.lparen, "("), (.rparen, ")")] := by decide
  obtain ⟨hvoid, hdot, hparens⟩ := htexts
  rw [tokensOf_block]
  simp only [methodPieces, tokensOf_cons, tokensOf_nil, Piece.tokens, hvoid, hdot, hparens,
    hcallback.spell_eq, (hosts method hmethod).spell_eq, hname]
  simpa [methodRest, modifierTokens, bodyTokens] using hpart

/-- A hook that companions along a chain of classes extend. -/
theorem isPart_chainedHook {m : Modifier} (hm : m = .virtual ∨ m = .override)
    (hps : Nests 0 0 ps) :
    IsPart (tokensOf (Piece.block
      [.text ("protected " ++ m.keyword ++ " void " ++ chainedHook ++ "()")] ps))
      (.other nowhere) := by
  have hpart : IsPart _ _ := isPart_voidMethod [.protectedAccess, m] (n := chainedHook) (by decide)
    (fun b hb ↦ absurd hb List.not_mem_nil) rfl .nil hps
  have htext : spell ("protected " ++ m.keyword ++ " void " ++ chainedHook ++ "()").toList =
      modifierTokens [.protectedAccess, m] ++
        [(.ident, "void"), (.ident, chainedHook), (.lparen, "("), (.rparen, ")")] := by
    rcases hm with rfl | rfl <;> decide
  rw [tokensOf_block, tokensOf_cons, tokensOf_nil, Piece.tokens, htext]
  simpa [methodRest, bodyTokens] using hpart

/-! ### Hooks -/

/-- How many methods a class has as its hooks. -/
def hookCount : HookRole → Nat
  | .standalone => 2
  | .root => 3
  | .override => 1

/-- The hooks of a companion are methods. -/
theorem exists_hookParts (h : a.Readable s) :
    ∃ lists : List (List Bare), tokensOf (s.hookPieces a) = lists.flatten ∧
      List.Forall₂ IsPart lists (List.replicate (hookCount a.hookRole) (.other nowhere)) := by
  have hrestore := nests_restoreAll h
  have hbefore := isPart_interfaceHook h.hosts
    (show s.host.beforeSerializeHook ∈ s.host.all by simp [HostNames.all]) (.nil 0)
  have hafter {ps : List Piece} (hps : Nests 0 0 ps) := isPart_interfaceHook h.hosts
    (show s.host.afterDeserializeHook ∈ s.host.all by simp [HostNames.all]) hps
  rw [hookPieces]
  cases a.hookRole with
  | standalone =>
    refine ⟨_, ?_, .cons hbefore (.cons (hafter hrestore) .nil)⟩
    simp [interfacePieces]
  | root =>
    have hcall : Nests 0 0 [.text (chainedHook ++ "();")] := .level (by decide) (.nil 0)
    refine ⟨_, ?_, .cons hbefore (.cons (hafter hcall)
      (.cons (isPart_chainedHook (.inl rfl) hrestore) .nil))⟩
    simp [interfacePieces, Modifier.keyword]
  | override =>
    have hcall : Nests 0 0 (.text ("base." ++ chainedHook ++ "();") :: s.restoreAllPieces a) :=
      .level (by decide) hrestore
    refine ⟨_, ?_, .cons (isPart_chainedHook (.inr rfl) hcall) .nil⟩
    simp [Modifier.keyword]

/-! ### Helpers -/

theorem isPart_repopulate (hosts : ∀ t ∈ s.host.all, HasComponents t)
    (helement : IsElementName element) :
    IsPart (tokensOf (s.repopulatePieces element)) (.other nowhere) := by
  have hobject := hosts s.host.engineObject (by simp [HostNames.all])
  have hlog := hosts s.host.debugLog (by simp [HostNames.all])
  have hparams : Nests 0 0 [.text "List", .text "<", .text element, .text "> target, ",
      .text "List", .text "<", .text s.host.engineObject, .text "> source, string fieldName"] :=
    .level (by decide) <| .level (by decide) <| .flat helement.isFlat <|
      .level (by decide) <| .level (by decide) <| .level (by decide) <|
      .flat hobject.isFlat <| .level (by decide) (.nil 0)
  have hguard : Nests 0 0 (Piece.block [.text "if (target == null)"]
      (s.warningPieces "fieldName + " ": readonly list is null, nothing to repopulate." ++
        [.text "return;"])) :=
    .block (.level (by decide) (.nil 0))
      ((nests_warning hlog (.inr rfl) (by decide) (by decide)).append
        (.level (by decide) (.nil 0)))
  have hplain : (": assigned object does not implement " ++ element ++ ".").toList.all isPlain =
      true := by
    simp only [String.toList_append, List.all_append, helement.isTypeText.plain]
    decide
  have hloop : Nests 0 0 (Piece.block [.text "foreach (var obj in source)"]
      (s.addPieces (.text "target") element (s.warningPieces "fieldName + "
        (": assigned object does not implement " ++ element ++ ".")))) := by
    refine .block (.level (by decide) (.nil 0)) (nests_add ?_ helement
      (nests_warning hlog (.inr rfl) (by simp) hplain))
    exact (by decide : IsComponent "target").isFlat
  have hclear : Nests 0 0 [.text "target.Clear();", .text "if (source == null)", .text "return;"] :=
    .level (by decide) <| .level (by decide) <| .level (by decide) (.nil 0)
  obtain ⟨-, hname, hoperator, hthis⟩ := repopulateName_eq helement
  have hpart := isPart_voidMethod [.privateAccess, .static] ⟨hoperator, hthis⟩
    (fun b hb ↦ absurd hb List.not_mem_nil) rfl hparams ((hguard.append hclear).append hloop)
  have htexts : spell "private static void ".toList =
        [(.ident, "private"), (.ident, "static"), (.ident, "void")] ∧
      spell "(".toList = [(.lparen, "(")] ∧
      spell "> source, string fieldName)".toList =
        spell "> source, string fieldName".toList ++ [(.rparen, ")")] := by decide
  obtain ⟨hvoid, hopen, hclose⟩ := htexts
  rw [repopulatePieces, tokensOf_block]
  simp only [tokensOf_cons, tokensOf_nil, Piece.tokens, hvoid, hname, hopen, hclose]
  simpa [methodRest, modifierTokens, Modifier.keyword, bodyTokens, Piece.tokens] using hpart

theorem isPart_instantiate (hosts : ∀ t ∈ s.host.all, HasComponents t)
    (helement : IsElementName element) :
    IsPart (tokensOf (s.instantiatePieces element)) (.other nowhere) := by
  have hobject := hosts s.host.engineObject (by simp [HostNames.all])
  have hlog := hosts s.host.debugLog (by simp [HostNames.all])
  have hplain : ("Cannot instantiate " ++ element ++ ": the instance is not a " ++
      s.host.engineObject ++ ".").toList.all isPlain = true := by
    simp only [String.toList_append, List.all_append, helement.isTypeText.plain,
      hobject.isDottedName.isPlain]
    decide
  have hparams : Nests 0 0 [.text element, .text " instance"] :=
    .flat helement.isFlat <| .level (by decide) (.nil 0)
  have hbody : Nests 0 0 (Piece.block [.text "switch (instance)"]
      [.text "case ", .text s.host.engineObject, .text " engineObject:", .text "return ",
        .text s.host.engineObject, .text ".Instantiate(engineObject) as ", .text element,
        .text ";", .text "default:", .text s.host.debugLog, .text ".LogError(",
        .text ("\"" ++ ("Cannot instantiate " ++ element ++ ": the instance is not a " ++
          s.host.engineObject ++ ".") ++ "\""),
        .text ");", .text "return null;"]) :=
    .block (.level (by decide) (.nil 0)) <|
      .level (by decide) <| .flat hobject.isFlat <| .level (by decide) <|
      .level (by decide) <| .flat hobject.isFlat <| .level (by decide) <|
      .flat helement.isFlat <| .level (by decide) <| .level (by decide) <|
      .flat hlog.isFlat <| .opens (by decide) <| .flat (isFlat_quoted (by simp) hplain) <|
      .closes (by decide) <| .level (by decide) (.nil 0)
  obtain ⟨r, hr, hspell⟩ := helement.exists_spell
  have hpart := isPart_method [.publicAccess] (n := "InstantiateInterface") hr.madeOf.legible
    hr.madeOf.isFlat.isClean (fun rest hrest ↦ hr.madeOf.opensTyped hrest) (by decide)
    (fun b hb ↦ absurd hb List.not_mem_nil) rfl hparams hbody
  have htexts : spell "public ".toList = [(.ident, "public")] ∧
      spell " InstantiateInterface(".toList = [(.ident, "InstantiateInterface"), (.lparen, "(")] ∧
      spell " instance)".toList = spell " instance".toList ++ [(.rparen, ")")] := by decide
  obtain ⟨hpublic, hopen, hclose⟩ := htexts
  rw [instantiatePieces, tokensOf_block]
  simp only [tokensOf_cons, tokensOf_nil, Piece.tokens, hpublic, hopen, hclose, hspell]
  simpa [methodRest, modifierTokens, Modifier.keyword, bodyTokens, Piece.tokens, hspell] using hpart

end Settings
end Companion
