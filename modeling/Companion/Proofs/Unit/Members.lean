import Companion.Proofs.Unit.Components
import Companion.Proofs.Grammar.ReadAlone

/-!
The members of a companion. The pieces of every backing field, hook and helper are the tokens of one
member: of a field with the attributes that were taken over and two of its own, or of a method that
is passed over up to the end of its body.
-/

set_option autoImplicit false
set_option relaxedAutoImplicit false

namespace Companion

open Token TypeRef Piece Companion.Parser

/-! ### What is taken over -/

/-- What a shape gives to a companion is read as what it is. -/
structure FieldShape.Readable (shape : FieldShape) : Prop where
  field : IsComponent shape.fieldName
  backing : IsComponent shape.backingName
  element : IsElementName shape.elementName
  attributes : ∀ t ∈ shape.carriedAttributes,
    ∃ l, readAlone attributeList ("[" ++ t ++ "]") = some l ∧ l.attributes.length = 1

/-- Everything that a companion takes over is read as what it is. -/
structure ClassAnalysis.Readable (a : ClassAnalysis) (s : Settings) : Prop where
  hosts : ∀ t ∈ s.host.all, HasComponents t
  className : IsComponent a.className
  typeParams : ∀ n ∈ a.typeParams, IsComponent n
  space : ∀ t ∈ a.namespaceName, HasComponents t
  containing : ∀ t ∈ a.containingTypes, t.kind ≠ .enumType ∧ IsComponent t.name ∧
    ∀ n ∈ t.typeParams, IsComponent n
  shapes : ∀ shape ∈ a.shapes, shape.Readable
  usings : ∀ t ∈ a.usings, ∃ u, readAlone (usingDirective false) t = some u

/-! ### Members -/

/-- The tokens are free of errors and read to a member. -/
structure IsPart (bs : List Bare) (m : Member) : Prop where
  clean : IsClean bs
  member : ∀ members, IsMember (memberWith members) bs m

theorem IsFlat.isClean {bs : List Bare} (h : IsFlat bs) : IsClean bs := fun b hb ↦ (h b hb).2.1

theorem isClean_modifierTokens (ms : List Modifier) : IsClean (modifierTokens ms) := by
  intro b hb
  obtain ⟨m, -, rfl⟩ := List.mem_map.mp hb
  exact Kind.noConfusion

theorem isClean_flatten {lists : List (List Bare)} (h : ∀ bs ∈ lists, IsClean bs) :
    IsClean lists.flatten := by
  intro b hb
  obtain ⟨bs, hbs, hb⟩ := List.mem_flatten.mp hb
  exact h bs hbs b hb

theorem TypeRef.MadeOf.isFlat {r : TypeRef} (h : r.MadeOf IsComponent) : IsFlat r.tokens :=
  isFlat_of_isTypePart h.isTypePart_of_mem

theorem IsElementName.isFlat {t : String} (h : IsElementName t) : IsFlat (spell t.toList) :=
  isFlat_of_isTypePart h.isTypePart_of_mem

namespace Settings

variable {s : Settings} {a : ClassAnalysis} {shape : FieldShape}

/-! ### Backing fields -/

/-- The type of stored objects. -/
def objectType (s : Settings) : TypeRef := plain (components s.host.engineObject)

/-- The type of a backing field. -/
def backingType (s : Settings) : Container → TypeRef
  | .single => s.objectType
  | .list => .named false [.mk "List" [s.objectType] (Span.point 0)] (Span.point 0)

/-- What a backing field starts with. -/
def backingInitializer (s : Settings) : Container → Option (List Bare)
  | .single => none
  | .list => some (newListTokens s.objectType.tokens)

/-- The arguments of the attribute that names the interface. -/
def validateArgs (shape : FieldShape) : List Bare :=
  (.ident, "typeof") :: (.lparen, "(") ::
    ((spell shape.elementName.toList ++
      if shape.isList then [(.lbracket, "["), (.rbracket, "]")] else []) ++ [(.rparen, ")")])

/-- The attribute lists that a shape takes over, as they are read alone. -/
def carriedLists (shape : FieldShape) : List AttributeList :=
  (shape.carriedAttributes.filterMap fun t ↦ readAlone attributeList ("[" ++ t ++ "]")).map
    AttributeList.placeless

/-- The attributes that every backing field has. -/
def ownAttributes (s : Settings) : AttributeList where
  target := none
  attributes := [
    ⟨attributeName (components s.host.serializeFieldAttribute), nowhere, none, nowhere⟩,
    ⟨attributeName (components s.host.validateAttribute), nowhere, some nowhere, nowhere⟩]
  span := nowhere

/-- The backing field of a shape as it is read. -/
def backingTree (s : Settings) (shape : FieldShape) : Field where
  attributes := carriedLists shape ++ [s.ownAttributes]
  modifiers := [.privateAccess]
  type := (s.backingType shape.container).renamed unescape
  declarators := [⟨unescape shape.backingName, nowhere,
    (s.backingInitializer shape.container).map fun _ ↦ nowhere⟩]
  span := nowhere

private theorem backing_texts :
    spell "[".toList = [(.lbracket, "[")] ∧ spell ", ".toList = [(.comma, ",")] ∧
      spell "(typeof(".toList = [(.lparen, "("), (.ident, "typeof"), (.lparen, "(")] ∧
      (∀ isList : Bool, spell ((if isList then "[]" else "") ++ "))]").toList =
        (if isList then [(.lbracket, "["), (.rbracket, "]")] else []) ++
          [(.rparen, ")"), (.rparen, ")"), (.rbracket, "]")]) ∧
      spell "private ".toList = [(.ident, "private")] ∧ spell " ".toList = [] ∧
      spell ";".toList = [(.semicolon, ";")] ∧ spell "List".toList = [(.ident, "List")] ∧
      spell "<".toList = [(.lt, "<")] ∧ spell "> ".toList = [(.gt, ">")] ∧
      spell " = new ".toList = [(.eq, "="), (.ident, "new")] ∧
      spell ">();".toList = [(.gt, ">"), (.lparen, "("), (.rparen, ")"), (.semicolon, ";")] := by
  decide

theorem tokensOf_map_text (items : List String) (f : String → String) :
    tokensOf (items.map fun t ↦ .text (f t)) =
      (items.map fun t ↦ spell (f t).toList).flatten := by
  rw [tokensOf, List.flatMap_map]
  rfl

theorem tokens_backingType_list (s : Settings) :
    (s.backingType .list).tokens =
      (.ident, "List") :: (.lt, "<") :: (s.objectType.tokens ++ [(.gt, ">")]) := by
  simp [backingType, TypeRef.tokens, segmentTokens, tokensOfSegment, tokensEach]

theorem tokensOf_backingPieces (hosts : ∀ t ∈ s.host.all, HasComponents t)
    (hbacking : IsComponent shape.backingName) :
    tokensOf (s.backingPieces shape) =
      ((shape.carriedAttributes.map fun t ↦ spell ("[" ++ t ++ "]").toList) ++
        [attributeListTokens ((plain (components s.host.serializeFieldAttribute)).tokens ++
          (.comma, ",") :: ((plain (components s.host.validateAttribute)).tokens ++
            (.lparen, "(") :: (validateArgs shape ++ [(.rparen, ")")])))]).flatten ++
      (modifierTokens [.privateAccess] ++ ((s.backingType shape.container).tokens ++
        (variableTokens shape.backingName (s.backingInitializer shape.container) ++
          [(.semicolon, ";")]))) := by
  obtain ⟨hopen, hcomma, htypeof, hclose, hprivate, hspace, hsemicolon, hlist, hless,
    hgreater, hnew, hend⟩ := backing_texts
  have hserialize := (hosts s.host.serializeFieldAttribute (by simp [HostNames.all])).spell_eq
  have hvalidate := (hosts s.host.validateAttribute (by simp [HostNames.all])).spell_eq
  have hobject := (hosts s.host.engineObject (by simp [HostNames.all])).spell_eq
  have hname := hbacking.single
  rw [backingPieces, List.flatten_append, List.flatten_singleton, attributeListTokens, validateArgs]
  cases shape.container with
  | single =>
    simp only [tokensOf_append, tokensOf_map_text, tokensOf_cons, tokensOf_nil, Piece.tokens, hopen,
      hserialize, hcomma, hvalidate, htypeof, hprivate, hobject, hspace, hname, hsemicolon, hclose,
      backingType, backingInitializer, objectType, variableTokens]
    simp [modifierTokens, Modifier.keyword]
  | list =>
    rw [tokens_backingType_list]
    simp only [tokensOf_append, tokensOf_map_text, tokensOf_cons, tokensOf_nil, Piece.tokens, hopen,
      hserialize, hcomma, hvalidate, htypeof, hprivate, hobject, hlist, hless, hgreater, hname,
      hnew, hend, hclose, backingInitializer, objectType, variableTokens, newListTokens]
    simp [modifierTokens, Modifier.keyword]

theorem madeOf_objectType (hosts : ∀ t ∈ s.host.all, HasComponents t) :
    s.objectType.MadeOf IsComponent :=
  madeOf_plain (hosts s.host.engineObject (by simp [HostNames.all]))

theorem madeOf_backingType (hosts : ∀ t ∈ s.host.all, HasComponents t) (container : Container) :
    (s.backingType container).MadeOf IsComponent := by
  have hobject := madeOf_objectType hosts
  cases container with
  | single => exact hobject
  | list =>
    refine .named (List.cons_ne_nil _ _) (fun x hx ↦ ?_) (fun x hx t ht ↦ ?_)
    all_goals obtain rfl := List.mem_singleton.mp hx
    · exact (by decide : IsComponent "List")
    · obtain rfl := List.mem_singleton.mp ht
      exact hobject

theorem balanced_validateArgs (helement : IsElementName shape.elementName) :
    Balanced (validateArgs shape) := by
  have hbrackets :
      Balanced (if shape.isList then [(.lbracket, "["), (.rbracket, "]")] else []) := by
    cases shape.isList <;> decide
  exact (show Balanced [(.ident, "typeof")] by decide).append
    (.group rfl rfl ((Balanced.of_isFlat helement.isFlat).append hbrackets))

theorem takes_backingInitializer (container : Container) (rest : List Bare) :
    ∀ bs ∈ s.backingInitializer container,
      initializer.Takes bs ((.semicolon, ";") :: rest) fun _ ↦ True := by
  intro bs hbs
  cases container with
  | single => cases hbs
  | list =>
    obtain rfl := Option.some.inj hbs
    refine takes_initializer_newList (fun b hb ↦ ?_) rfl
    rcases mem_tokens_plain hb with hkind | hkind <;> rw [hkind] <;> rfl

/-- The attribute lists of a backing field. -/
theorem isAttributeList_backing (hosts : ∀ t ∈ s.host.all, HasComponents t) (hs : shape.Readable) :
    List.Forall₂ IsAttributeList
      ((shape.carriedAttributes.map fun t ↦ spell ("[" ++ t ++ "]").toList) ++
        [attributeListTokens ((plain (components s.host.serializeFieldAttribute)).tokens ++
          (.comma, ",") :: ((plain (components s.host.validateAttribute)).tokens ++
            (.lparen, "(") :: (validateArgs shape ++ [(.rparen, ")")])))])
      (carriedLists shape ++ [s.ownAttributes]) := by
  have hserialize := hosts s.host.serializeFieldAttribute (by simp [HostNames.all])
  have hvalidate := hosts s.host.validateAttribute (by simp [HostNames.all])
  refine List.rel_append (forall₂_of_readAlone (fun _ _ ↦ isAttributeList_of_readAlone)
    fun t ht ↦ ?_) (.cons ?_ .nil)
  · obtain ⟨l, hl, -⟩ := hs.attributes t ht
    exact ⟨l, hl⟩
  · exact isAttributeList_pair (components_ne_nil _) (components_ne_nil _) hserialize.isIdentifier
      hvalidate.isIdentifier (balanced_validateArgs hs.element)

theorem balanced_newListTokens {element : List Bare} (h : Balanced element) :
    Balanced (newListTokens element) := by
  have hfront : Balanced [(.ident, "new"), (.ident, "List"), (.lt, "<")] := by decide
  have hback : Balanced [(.gt, ">"), (.lparen, "("), (.rparen, ")")] := by decide
  have hall := (hfront.append h).append hback
  simpa [newListTokens] using hall

theorem isClean_ownAttributes (hosts : ∀ t ∈ s.host.all, HasComponents t)
    (helement : IsElementName shape.elementName) :
    IsClean (attributeListTokens ((plain (components s.host.serializeFieldAttribute)).tokens ++
      (.comma, ",") :: ((plain (components s.host.validateAttribute)).tokens ++
        (.lparen, "(") :: (validateArgs shape ++ [(.rparen, ")")])))) := by
  have hserialize := madeOf_plain (hosts s.host.serializeFieldAttribute (by simp [HostNames.all]))
  have hvalidate := madeOf_plain (hosts s.host.validateAttribute (by simp [HostNames.all]))
  have hcomma : Balanced [(.comma, ",")] := by decide
  have hargs : Balanced ((.lparen, "(") :: (validateArgs shape ++ [(.rparen, ")")])) :=
    .group rfl rfl (balanced_validateArgs helement)
  exact (Balanced.group rfl rfl ((Balanced.of_isFlat hserialize.isFlat).append
    (hcomma.append ((Balanced.of_isFlat hvalidate.isFlat).append hargs)))).isClean

theorem isClean_variableTokens (hosts : ∀ t ∈ s.host.all, HasComponents t)
    (container : Container) (n : String) :
    IsClean (variableTokens n (s.backingInitializer container)) := by
  have hobject := madeOf_objectType hosts
  refine isClean_cons.mpr ⟨Kind.noConfusion, ?_⟩
  cases container with
  | single => exact isClean_nil
  | list =>
    exact isClean_cons.mpr ⟨Kind.noConfusion,
      (balanced_newListTokens (.of_isFlat hobject.isFlat)).isClean⟩

theorem isClean_backing (hosts : ∀ t ∈ s.host.all, HasComponents t) (hs : shape.Readable) :
    IsClean (tokensOf (s.backingPieces shape)) := by
  have htype := madeOf_backingType hosts shape.container
  rw [tokensOf_backingPieces hosts hs.backing]
  refine isClean_append.mpr ⟨isClean_flatten fun bs hbs ↦ ?_, isClean_append.mpr
    ⟨isClean_modifierTokens _, isClean_append.mpr ⟨htype.isFlat.isClean, isClean_append.mpr
      ⟨isClean_variableTokens hosts _ _, isClean_cons.mpr ⟨Kind.noConfusion, isClean_nil⟩⟩⟩⟩⟩
  rcases List.mem_append.mp hbs with hbs | hbs
  · obtain ⟨t, ht, rfl⟩ := List.mem_map.mp hbs
    obtain ⟨l, hl, -⟩ := hs.attributes t ht
    exact (ok_of_readAlone hl).1
  · obtain rfl := List.mem_singleton.mp hbs
    exact isClean_ownAttributes hosts hs.element

/-- A backing field is read as a field. -/
theorem isPart_backing (h : a.Readable s) (hshape : shape ∈ a.shapes) :
    IsPart (tokensOf (s.backingPieces shape)) (.field (s.backingTree shape)) := by
  have hs := h.shapes shape hshape
  have htype := madeOf_backingType h.hosts shape.container
  have hlists := isAttributeList_backing h.hosts hs
  refine ⟨isClean_backing h.hosts hs, fun members ↦ ?_⟩
  rw [tokensOf_backingPieces h.hosts hs.backing]
  refine ⟨.inr ?_, fun rest _ ↦ ?_⟩
  · exact kindAt_append (kindAt_flatten hlists (by simp)) (by simp) _
  · refine takes_memberWith_typed hlists ?_ fun attributes start hattributes ↦ ?_
    · rw [List.append_assoc]
      exact htype.opensTyped (by simp [variableTokens])
    · exact takes_typedMember_field hattributes htype.legible
        ⟨hs.backing.ne (by decide), hs.backing.ne (by decide)⟩ (takes_backingInitializer _ _)

end Settings
end Companion
