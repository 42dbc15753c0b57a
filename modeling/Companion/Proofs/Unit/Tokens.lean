import Companion.Proofs.Unit.Texts

/-!
The pieces of a companion. Every line of a companion is made of fixed texts, of names, of texts for
types and of quoted texts, none of which joins what stands next to it. So the tokens of a companion
are known from the analysis of its class: those of its pieces, one after the other
(`Settings.spell_companionText`). That needs no more than names that are words, and texts for types
and attributes that end where they seem to (`ClassAnalysis.Legible`).
-/

set_option autoImplicit false
set_option relaxedAutoImplicit false

namespace Companion

open Token Token.Lexeme Piece

/-! ### The pieces -/

namespace Settings

/-- The call that logs a warning: something in front of a quoted text. -/
def warningPieces (s : Settings) (front quoted : String) : List Piece :=
  [.text s.host.debugLog, .text (".LogWarning(" ++ front), .text ("\"" ++ quoted ++ "\""),
    .text ");"]

/-- One step of a loop over stored objects. -/
def addPieces (s : Settings) (target : Piece) (element : String) (warning : List Piece) :
    List Piece :=
  [.text "var element = obj as ", .text element, .text ";", .text "if (element != null)",
    target, .text ".Add(element);"] ++
    if s.emitCastWarnings then .text "else if (obj != null)" :: warning else []

def restorePieces (s : Settings) (className : String) (shape : FieldShape) : List Piece :=
  let field := shape.fieldName
  let warning := s.warningPieces "" (className ++ "." ++ field ++
    ": assigned object does not implement " ++ shape.elementName ++ ".")
  match shape.container with
  | .single =>
    [.name field, .text " = ", .text shape.backingName, .text " as ", .text shape.elementName,
      .text ";"] ++
      if s.emitCastWarnings then
        [.text "if (", .name field, .text " == null && ", .text shape.backingName,
          .text " != null)"] ++ warning
      else []
  | .list =>
    if shape.isReadOnly then
      [.text (repopulateName shape.elementName), .text "(", .name field, .text ", ",
        .text shape.backingName, .text ", ", .text ("\"" ++ (className ++ "." ++ field) ++ "\""),
        .text ");"]
    else
      [.text "if (", .name field, .text " == null)", .name field, .text " = new ", .text "List",
        .text "<", .text shape.elementName, .text ">();", .name field, .text ".Clear();"] ++
        Piece.block [.text "foreach (var obj in ", .text shape.backingName, .text ")"]
          (s.addPieces (.name field) shape.elementName warning)

def restoreAllPieces (s : Settings) (a : ClassAnalysis) : List Piece :=
  a.shapes.flatMap (s.restorePieces a.className)

def backingPieces (s : Settings) (shape : FieldShape) : List Piece :=
  (shape.carriedAttributes.map fun t ↦ .text ("[" ++ t ++ "]")) ++
    [.text "[", .text s.host.serializeFieldAttribute, .text ", ",
      .text s.host.validateAttribute, .text "(typeof(", .text shape.elementName,
      .text ((if shape.isList then "[]" else "") ++ "))]")] ++
    match shape.container with
    | .single =>
      [.text "private ", .text s.host.engineObject, .text " ", .text shape.backingName, .text ";"]
    | .list =>
      [.text "private ", .text "List", .text "<", .text s.host.engineObject, .text "> ",
        .text shape.backingName, .text " = new ", .text "List", .text "<",
        .text s.host.engineObject, .text ">();"]

def methodPieces (s : Settings) (method : String) : List Piece :=
  [.text "void ", .text s.host.callbackInterface, .text ".", .text method, .text "()"]

def interfacePieces (s : Settings) (after : List Piece) : List Piece :=
  Piece.block (s.methodPieces s.host.beforeSerializeHook) [] ++
    Piece.block (s.methodPieces s.host.afterDeserializeHook) after

def hookPieces (s : Settings) (a : ClassAnalysis) : List Piece :=
  match a.hookRole with
  | .standalone => s.interfacePieces (s.restoreAllPieces a)
  | .root =>
    s.interfacePieces [.text (chainedHook ++ "();")] ++
      Piece.block [.text ("protected virtual void " ++ chainedHook ++ "()")] (s.restoreAllPieces a)
  | .override =>
    Piece.block [.text ("protected override void " ++ chainedHook ++ "()")]
      (.text ("base." ++ chainedHook ++ "();") :: s.restoreAllPieces a)

def repopulatePieces (s : Settings) (element : String) : List Piece :=
  Piece.block
    [.text "private static void ", .text (repopulateName element), .text "(", .text "List",
      .text "<", .text element, .text "> target, ", .text "List", .text "<",
      .text s.host.engineObject, .text "> source, string fieldName)"]
    (Piece.block [.text "if (target == null)"]
        (s.warningPieces "fieldName + " ": readonly list is null, nothing to repopulate." ++
          [.text "return;"]) ++
      [.text "target.Clear();", .text "if (source == null)", .text "return;"] ++
      Piece.block [.text "foreach (var obj in source)"]
        (s.addPieces (.text "target") element (s.warningPieces "fieldName + "
          (": assigned object does not implement " ++ element ++ "."))))

def instantiatePieces (s : Settings) (element : String) : List Piece :=
  let object := s.host.engineObject
  Piece.block
    [.text "public ", .text element, .text " InstantiateInterface(", .text element,
      .text " instance)"]
    (Piece.block [.text "switch (instance)"]
      [.text "case ", .text object, .text " engineObject:", .text "return ", .text object,
        .text ".Instantiate(engineObject) as ", .text element, .text ";", .text "default:",
        .text s.host.debugLog, .text ".LogError(",
        .text ("\"" ++ ("Cannot instantiate " ++ element ++ ": the instance is not a " ++ object
          ++ ".") ++ "\""),
        .text ");", .text "return null;"])

def classHeaderPieces (s : Settings) (a : ClassAnalysis) : List Piece :=
  [.text "partial ", .text "class ", .name a.className] ++ paramPieces a.typeParams ++
    if !a.implementsCallback && a.hookRole ≠ .override then
      [.text " : ", .text s.host.callbackInterface]
    else []

def classBodyPieces (s : Settings) (a : ClassAnalysis) : List Piece :=
  a.shapes.flatMap s.backingPieces ++ s.hookPieces a ++
    (ClassAnalysis.elementNames (a.shapes.filter fun shape ↦ shape.isList && shape.isReadOnly)
      ).flatMap s.repopulatePieces ++
    if s.instantiateHelpers then
      (ClassAnalysis.elementNames a.shapes).flatMap s.instantiatePieces
    else []

/-- The headers around the companion class, outermost first. -/
def enclosingPieces (a : ClassAnalysis) : List (List Piece) :=
  (a.namespaceName.toList.map fun t ↦ .text "namespace " :: dottedPieces t) ++
    a.containingTypes.map fun t ↦
      [.text "partial ", .text (t.kind.keyword ++ " "), .name t.name] ++ paramPieces t.typeParams

def nestedPieces (headers : List (List Piece)) (body : List Piece) : List Piece :=
  headers.foldr Piece.block body

/-- The pieces of a companion. -/
def unitPieces (s : Settings) (a : ClassAnalysis) : List Piece :=
  .text "// <auto-generated/>" :: (a.unitUsings.map .text ++
    nestedPieces (enclosingPieces a ++ [s.classHeaderPieces a]) (s.classBodyPieces a))

end Settings

/-! ### Lines -/

/-- What a shape gives to a companion can stand where it is written. -/
structure FieldShape.Legible (shape : FieldShape) : Prop where
  field : isNameText shape.fieldName.toList = true
  backing : isNameText shape.backingName.toList = true
  element : IsTypeText shape.elementName
  repopulate : shape.isList = true → shape.isReadOnly = true →
    isNameText (repopulateName shape.elementName).toList = true
  attributes : ∀ t ∈ shape.carriedAttributes, IsLineText ("[" ++ t ++ "]")

namespace HostNames

/-- The names that a host has. -/
def all (host : HostNames) : List String :=
  [host.engineObject, host.callbackInterface, host.serializeFieldAttribute, host.debugLog,
    host.validateAttribute, host.beforeSerializeHook, host.afterDeserializeHook]

end HostNames

/-- What a companion takes over behind its using directives can stand where it is written. -/
structure ClassAnalysis.LegibleBody (a : ClassAnalysis) (s : Settings) : Prop where
  hosts : ∀ t ∈ s.host.all, IsDottedName t
  className : isNameText a.className.toList = true
  typeParams : ∀ n ∈ a.typeParams, isNameText n.toList = true
  space : ∀ t ∈ a.namespaceName, IsDottedName t
  containing : ∀ t ∈ a.containingTypes, isNameText t.name.toList = true ∧
    ∀ n ∈ t.typeParams, isNameText n.toList = true
  shapes : ∀ shape ∈ a.shapes, shape.Legible

/-- Everything that a companion takes over can stand where it is written. -/
structure ClassAnalysis.Legible (a : ClassAnalysis) (s : Settings) : Prop
    extends a.LegibleBody s where
  usings : ∀ t ∈ a.unitUsings, IsLineText t

namespace Settings

variable {s : Settings} {a : ClassAnalysis} {shape : FieldShape} {ps : List Piece}

/-- The statement that logs a wrong type. -/
theorem isLine_mismatch (hlog : IsDottedName s.host.debugLog)
    {front subject quoted element : String} (hfront : front = "" ∨ front = "fieldName + ")
    (hsubject : subject = front ++ "\"" ++ quoted) (hquoted : quoted.toList.all isPlain = true)
    (helement : IsTypeText element) :
    IsLine (s.host.debugLog ++ ".LogWarning(" ++ subject ++ ": assigned object does not implement "
        ++ element ++ ".\");")
      (s.warningPieces front
        (quoted ++ ": assigned object does not implement " ++ element ++ ".")) := by
  subst hsubject
  refine .ofEnd (by simp [warningPieces, Piece.string]) (fun r ↦ ?_) (by decide)
  have hplain : (quoted ++ ": assigned object does not implement " ++ element ++ "."
      ).toList.all isPlain = true := by
    simp only [String.toList_append, List.all_append, hquoted, helement.plain]
    decide
  have hne : quoted ++ ": assigned object does not implement " ++ element ++ "." ≠ "" := by
    simp
  rcases hfront with rfl | rfl <;>
    exact .dotted hlog rfl (.fixed (by decide) (.quoted hne hplain (.fixed (by decide) .nil)))

open Layout

theorem isLine_fixed {t : String} (h : settles t.toList = true)
    (hlast : (t.toList.getLast?.any (· ≠ '\n')) = true) : IsLine t [.text t] where
  chars := (List.append_nil _).symm
  apart _ := .fixed h .nil
  last := endsVisibly_of_getLast? hlast

theorem isLine_ending {t : String} (h : (visible t.toList).all (StopsAt '\n') = true)
    (hlast : (t.toList.getLast?.any (· ≠ '\n')) = true) : IsLine t [.text t] where
  chars := (List.append_nil _).symm
  apart _ := .ending h
  last := endsVisibly_of_getLast? hlast

/-- The text of the statement that logs a wrong type. -/
def mismatchText (s : Settings) (subject element : String) : String :=
  s.host.debugLog ++ ".LogWarning(" ++ subject ++ ": assigned object does not implement "
    ++ element ++ ".\");"

theorem writes_addIfCast (target : Piece) {subject element : String} {warning : List Piece}
    (htarget : ∀ {r ps}, breaks (chars ps ++ r) = true → Apart r ps → Apart r (target :: ps))
    (helement : IsTypeText element) (hwarning : IsLine (s.mismatchText subject element) warning) :
    Writes (addIfCast target.string element (s.logMismatch subject element))
      (s.addPieces target element warning) := by
  have hcast : IsLine ("var element = obj as " ++ element ++ ";")
      [.text "var element = obj as ", .text element, .text ";"] := by
    refine .ofEnd (by simp [Piece.string]) (fun r ↦ ?_) (by decide)
    exact .fixed (by decide) <| .typeText helement ⟨rfl, by simp [Piece.string]⟩ <|
      .fixed (by decide) .nil
  have hadd : IsLine (target.string ++ ".Add(element);") [target, .text ".Add(element);"] := by
    refine .ofEnd (by simp [Piece.string]) (fun r ↦ ?_) (by decide)
    exact htarget rfl (.fixed (by decide) .nil)
  have hstart : Writes (fun l ↦ ((l.line ("var element = obj as " ++ element ++ ";")).line
      "if (element != null)").indented (target.string ++ ".Add(element);"))
      [.text "var element = obj as ", .text element, .text ";", .text "if (element != null)",
        target, .text ".Add(element);"] :=
    (writes_indented hadd).comp
      ((writes_line (isLine_fixed (by decide) (by decide))).comp (writes_line hcast))
  rw [addPieces, logMismatch]
  cases s.emitCastWarnings with
  | false => exact hstart
  | true =>
    exact (writes_indented hwarning).comp
      ((writes_line (isLine_fixed (t := "else if (obj != null)") (by decide) (by decide))).comp
        hstart)

/-- The statement that logs that the object of a field has a wrong type. -/
theorem isLine_fieldMismatch (h : a.LegibleBody s) (hs : shape.Legible) :
    IsLine (s.mismatchText ("\"" ++ a.className ++ "." ++ shape.fieldName) shape.elementName)
      (s.warningPieces "" (a.className ++ "." ++ shape.fieldName ++
        ": assigned object does not implement " ++ shape.elementName ++ ".")) := by
  refine isLine_mismatch (h.hosts _ (by simp [HostNames.all])) (.inl rfl)
    (by simp [String.append_assoc]) ?_ hs.element
  simp only [String.toList_append, List.all_append, isPlain_of_isNameText h.className,
    isPlain_of_isNameText hs.field]
  decide

/-- A single field takes its object, if it has the right type. -/
theorem writes_restoreSingle (hs : shape.Legible) {subject : String} {warning : List Piece}
    (hwarning : IsLine (s.mismatchText subject shape.elementName) warning) :
    Writes (fun l ↦
      let l := l.line (shape.fieldName ++ " = " ++ shape.backingName ++ " as " ++
        shape.elementName ++ ";")
      match s.logMismatch subject shape.elementName with
      | [] => l
      | warning :: _ =>
        (l.line ("if (" ++ shape.fieldName ++ " == null && " ++ shape.backingName ++
          " != null)")).indented warning)
      ([.name shape.fieldName, .text " = ", .text shape.backingName, .text " as ",
        .text shape.elementName, .text ";"] ++
        if s.emitCastWarnings then
          [.text "if (", .name shape.fieldName, .text " == null && ", .text shape.backingName,
            .text " != null)"] ++ warning
        else []) := by
  have hassign : IsLine (shape.fieldName ++ " = " ++ shape.backingName ++ " as " ++
      shape.elementName ++ ";") [.name shape.fieldName, .text " = ", .text shape.backingName,
        .text " as ", .text shape.elementName, .text ";"] := by
    refine .ofEnd (by simp [Piece.string]) (fun r ↦ ?_) (by decide)
    exact .name hs.field rfl <| .fixed (by decide) <| .word hs.backing rfl <| .fixed (by decide) <|
      .typeText hs.element ⟨rfl, by simp [Piece.string]⟩ <| .fixed (by decide) .nil
  have hcheck : IsLine ("if (" ++ shape.fieldName ++ " == null && " ++ shape.backingName ++
      " != null)") [.text "if (", .name shape.fieldName, .text " == null && ",
        .text shape.backingName, .text " != null)"] := by
    refine .ofEnd (by simp [Piece.string]) (fun r ↦ ?_) (by decide)
    exact .fixed (by decide) <| .name hs.field rfl <| .fixed (by decide) <|
      .word hs.backing rfl <| .fixed (by decide) .nil
  rw [logMismatch]
  cases s.emitCastWarnings with
  | false => exact writes_line hassign
  | true => exact (writes_indented hwarning).comp ((writes_line hcheck).comp (writes_line hassign))

/-- A readonly list is filled by its helper. -/
theorem isLine_repopulate (hclass : isNameText a.className.toList = true) (hs : shape.Legible)
    (hname : isNameText (repopulateName shape.elementName).toList = true) :
    IsLine (repopulateName shape.elementName ++ "(" ++ shape.fieldName ++ ", " ++
        shape.backingName ++ ", \"" ++ a.className ++ "." ++ shape.fieldName ++ "\");")
      [.text (repopulateName shape.elementName), .text "(", .name shape.fieldName, .text ", ",
        .text shape.backingName, .text ", ",
        .text ("\"" ++ (a.className ++ "." ++ shape.fieldName) ++ "\""), .text ");"] := by
  have hplain : (a.className ++ "." ++ shape.fieldName).toList.all isPlain = true := by
    simp only [String.toList_append, List.all_append, isPlain_of_isNameText hclass,
      isPlain_of_isNameText hs.field]
    decide
  have hne : a.className ++ "." ++ shape.fieldName ≠ "" := by simp
  refine .ofEnd (by simp [Piece.string]) (fun r ↦ ?_) (by decide)
  exact .word hname rfl <| .fixed (by decide) <| .name hs.field rfl <| .fixed (by decide) <|
    .word hs.backing rfl <| .fixed (by decide) <| .quoted hne hplain <| .fixed (by decide) .nil

/-- A list is made if there is none, and filled with the objects of the right type. -/
theorem writes_restoreList (hs : shape.Legible) {subject : String} {warning : List Piece}
    (hwarning : IsLine (s.mismatchText subject shape.elementName) warning) :
    Writes (fun l ↦
      let l := l.line ("if (" ++ shape.fieldName ++ " == null)")
      let l := l.indented (shape.fieldName ++ " = new List<" ++ shape.elementName ++ ">();")
      let l := l.line (shape.fieldName ++ ".Clear();")
      l.block ("foreach (var obj in " ++ shape.backingName ++ ")")
        (addIfCast shape.fieldName shape.elementName (s.logMismatch subject shape.elementName)))
      ([.text "if (", .name shape.fieldName, .text " == null)", .name shape.fieldName,
        .text " = new ", .text "List", .text "<", .text shape.elementName, .text ">();",
        .name shape.fieldName, .text ".Clear();"] ++
        Piece.block [.text "foreach (var obj in ", .text shape.backingName, .text ")"]
          (s.addPieces (.name shape.fieldName) shape.elementName warning)) := by
  have hcheck : IsLine ("if (" ++ shape.fieldName ++ " == null)")
      [.text "if (", .name shape.fieldName, .text " == null)"] := by
    refine .ofEnd (by simp [Piece.string]) (fun r ↦ ?_) (by decide)
    exact .fixed (by decide) <| .name hs.field rfl <| .fixed (by decide) .nil
  have hcreate : IsLine (shape.fieldName ++ " = new List<" ++ shape.elementName ++ ">();")
      [.name shape.fieldName, .text " = new ", .text "List", .text "<", .text shape.elementName,
        .text ">();"] := by
    refine .ofEnd (by simp [Piece.string]) (fun r ↦ ?_) (by decide)
    exact .name hs.field rfl <| .fixed (by decide) <| .word (by decide) rfl <|
      .less hs.element <| .typeText hs.element ⟨rfl, by simp [Piece.string]⟩ <|
      .fixed (by decide) .nil
  have hclear : IsLine (shape.fieldName ++ ".Clear();")
      [.name shape.fieldName, .text ".Clear();"] := by
    refine .ofEnd (by simp [Piece.string]) (fun r ↦ ?_) (by decide)
    exact .name hs.field rfl <| .fixed (by decide) .nil
  have hloop : IsLine ("foreach (var obj in " ++ shape.backingName ++ ")")
      [.text "foreach (var obj in ", .text shape.backingName, .text ")"] := by
    refine .ofEnd (by simp [Piece.string]) (fun r ↦ ?_) (by decide)
    exact .fixed (by decide) <| .word hs.backing rfl <| .fixed (by decide) .nil
  have hadd : Writes (addIfCast shape.fieldName shape.elementName
      (s.logMismatch subject shape.elementName))
      (s.addPieces (.name shape.fieldName) shape.elementName warning) :=
    writes_addIfCast (.name shape.fieldName) (.name hs.field) hs.element hwarning
  exact (writes_block hloop hadd).comp
    ((writes_line hclear).comp ((writes_indented hcreate).comp (writes_line hcheck)))

theorem writes_restore (h : a.LegibleBody s) (hshape : shape ∈ a.shapes) :
    Writes (s.restore a.className shape) (s.restorePieces a.className shape) := by
  have hs := h.shapes shape hshape
  have hwarning := isLine_fieldMismatch h hs
  intro l bs hl
  rw [restore, restorePieces]
  cases hcontainer : shape.container with
  | single => exact writes_restoreSingle hs hwarning l bs hl
  | list =>
    dsimp only
    split
    · rename_i hreadonly
      have hlist : shape.isList = true := by simp [FieldShape.isList, hcontainer]
      exact writes_line (isLine_repopulate h.className hs (hs.repopulate hlist hreadonly)) l bs hl
    · exact writes_restoreList hs hwarning l bs hl

theorem writes_restoreAll (h : a.LegibleBody s) :
    Writes (s.restoreAll a) (s.restoreAllPieces a) :=
  writes_foldl fun _ hshape ↦ writes_restore h hshape

/-- The attributes of a backing field that are the same for all fields. -/
theorem isLine_fieldAttributes (h : a.LegibleBody s) (helement : IsTypeText shape.elementName) :
    IsLine ("[" ++ s.host.serializeFieldAttribute ++ ", " ++ s.host.validateAttribute ++
        "(typeof(" ++ (shape.elementName ++ (if shape.isList then "[]" else "")) ++ "))]")
      [.text "[", .text s.host.serializeFieldAttribute, .text ", ",
        .text s.host.validateAttribute, .text "(typeof(", .text shape.elementName,
        .text ((if shape.isList then "[]" else "") ++ "))]")] := by
  refine .ofEnd (by simp [Piece.string]) (fun r ↦ ?_) (by decide)
  refine .fixed (by decide) <| .dotted (h.hosts _ (by simp [HostNames.all])) rfl <|
    .fixed (by decide) <| .dotted (h.hosts _ (by simp [HostNames.all])) rfl <|
    .fixed (by decide) <| .typeText helement ?_ <| .fixed ?_ .nil
  all_goals cases shape.isList
  · exact ⟨rfl, by simp [Piece.string]⟩
  · exact ⟨rfl, by simp [Piece.string]⟩
  · decide
  · decide

theorem isLine_singleField (hobject : IsDottedName s.host.engineObject) {backing : String}
    (hbacking : isNameText backing.toList = true) :
    IsLine ("private " ++ s.host.engineObject ++ " " ++ backing ++ ";")
      [.text "private ", .text s.host.engineObject, .text " ", .text backing, .text ";"] := by
  refine .ofEnd (by simp [Piece.string]) (fun r ↦ ?_) (by decide)
  exact .fixed (by decide) <| .dotted hobject rfl <| .fixed (by decide) <| .word hbacking rfl <|
    .fixed (by decide) .nil

theorem isLine_listField (hobject : IsDottedName s.host.engineObject) {backing : String}
    (hbacking : isNameText backing.toList = true) :
    IsLine ("private List<" ++ s.host.engineObject ++ "> " ++ backing ++ " = new List<" ++
        s.host.engineObject ++ ">();")
      [.text "private ", .text "List", .text "<", .text s.host.engineObject, .text "> ",
        .text backing, .text " = new ", .text "List", .text "<", .text s.host.engineObject,
        .text ">();"] := by
  refine .ofEnd (by simp [Piece.string]) (fun r ↦ ?_) (by decide)
  exact .fixed (by decide) <| .word (by decide) rfl <| .less hobject.isTypeText <|
    .dotted hobject rfl <| .fixed (by decide) <| .word hbacking rfl <| .fixed (by decide) <|
    .word (by decide) rfl <| .less hobject.isTypeText <| .dotted hobject rfl <|
    .fixed (by decide) .nil

theorem writes_backingField (h : a.LegibleBody s) (hshape : shape ∈ a.shapes) :
    Writes (s.backingField shape) (s.backingPieces shape) := by
  have hs := h.shapes shape hshape
  have hobject := h.hosts s.host.engineObject (by simp [HostNames.all])
  have hcarried : Writes (lines (shape.carriedAttributes.map fun t ↦ "[" ++ t ++ "]"))
      (shape.carriedAttributes.map fun t ↦ .text ("[" ++ t ++ "]")) := by
    have htexts :
        ∀ t ∈ shape.carriedAttributes.map fun t ↦ "[" ++ t ++ "]", IsLine t [.text t] := by
      intro t ht
      obtain ⟨carried, hmem, rfl⟩ := List.mem_map.mp ht
      exact (hs.attributes carried hmem).isLine
    have hlines := writes_lines htexts
    rwa [List.map_map] at hlines
  have hattributes := isLine_fieldAttributes h hs.element
  intro l bs hl
  rw [backingField, backingPieces, lines, List.foldl_append]
  cases shape.container with
  | single =>
    exact ((writes_line (isLine_singleField hobject hs.backing)).comp
      ((writes_line hattributes).comp hcarried)) l bs hl
  | list =>
    exact ((writes_line (isLine_listField hobject hs.backing)).comp
      ((writes_line hattributes).comp hcarried)) l bs hl

theorem isLine_method (h : a.LegibleBody s) {method : String} (hmethod : method ∈ s.host.all) :
    IsLine ("void " ++ s.host.callbackInterface ++ "." ++ method ++ "()")
      (s.methodPieces method) := by
  refine .ofEnd (by simp [methodPieces, Piece.string]) (fun r ↦ ?_) (by decide)
  exact .fixed (by decide) <| .dotted (h.hosts _ (by simp [HostNames.all])) rfl <|
    .dot (h.hosts method hmethod) <| .dotted (h.hosts method hmethod) rfl <| .fixed (by decide) .nil

theorem writes_interfaceHooks (h : a.LegibleBody s) {after : Layout → Layout}
    (hafter : Writes after ps) :
    Writes (s.interfaceHooks after) (s.interfacePieces ps) := by
  have hbefore :=
    isLine_method h (show s.host.beforeSerializeHook ∈ s.host.all by simp [HostNames.all])
  have hmethod :=
    isLine_method h (show s.host.afterDeserializeHook ∈ s.host.all by simp [HostNames.all])
  have hwrites := writes_blank.comp ((writes_block hmethod hafter).comp
    (writes_blank.comp (writes_block hbefore writes_id)))
  rw [List.append_nil, List.append_nil] at hwrites
  exact hwrites

theorem writes_hooks (h : a.LegibleBody s) : Writes (s.hooks a) (s.hookPieces a) := by
  intro l bs hl
  rw [hooks, hookPieces]
  cases a.hookRole with
  | standalone => exact writes_interfaceHooks h (writes_restoreAll h) l bs hl
  | root =>
    have hcall : IsLine (chainedHook ++ "();") [.text (chainedHook ++ "();")] :=
      isLine_fixed (by decide) (by decide)
    have hhook : IsLine ("protected virtual void " ++ chainedHook ++ "()")
        [.text ("protected virtual void " ++ chainedHook ++ "()")] :=
      isLine_fixed (by decide) (by decide)
    have hwrites := writes_blank.comp ((writes_block hhook (writes_restoreAll h)).comp
      (writes_interfaceHooks h (writes_line hcall)))
    rw [List.append_nil] at hwrites
    exact hwrites l bs hl
  | override =>
    have hcall :
        IsLine ("base." ++ chainedHook ++ "();") [.text ("base." ++ chainedHook ++ "();")] :=
      isLine_fixed (by decide) (by decide)
    have hhook : IsLine ("protected override void " ++ chainedHook ++ "()")
        [.text ("protected override void " ++ chainedHook ++ "()")] :=
      isLine_fixed (by decide) (by decide)
    have hwrites := writes_blank.comp
      (writes_block hhook ((writes_restoreAll h).comp (writes_line hcall)))
    rw [List.append_nil] at hwrites
    exact hwrites l bs hl

theorem isLine_repopulateHeader (hobject : IsDottedName s.host.engineObject) {element : String}
    (helement : IsTypeText element) (hname : isNameText (repopulateName element).toList = true) :
    IsLine ("private static void " ++ repopulateName element ++ "(List<" ++ element ++
        "> target, List<" ++ s.host.engineObject ++ "> source, string fieldName)")
      [.text "private static void ", .text (repopulateName element), .text "(", .text "List",
        .text "<", .text element, .text "> target, ", .text "List", .text "<",
        .text s.host.engineObject, .text "> source, string fieldName)"] := by
  refine .ofEnd (by simp [Piece.string]) (fun r ↦ ?_) (by decide)
  exact .fixed (by decide) <| .word hname rfl <| .fixed (by decide) <| .word (by decide) rfl <|
    .less helement <| .typeText helement ⟨rfl, by simp [Piece.string]⟩ <| .fixed (by decide) <|
    .word (by decide) rfl <| .less hobject.isTypeText <| .dotted hobject rfl <|
    .fixed (by decide) .nil

theorem isLine_nullWarning (hlog : IsDottedName s.host.debugLog) :
    IsLine (s.host.debugLog ++
        ".LogWarning(fieldName + \": readonly list is null, nothing to repopulate.\");")
      (s.warningPieces "fieldName + " ": readonly list is null, nothing to repopulate.") := by
  refine .ofEnd (by simp [warningPieces, Piece.string]) (fun r ↦ ?_) (by decide)
  exact .dotted hlog rfl <| .fixed (by decide) <| .quoted (by decide) (by decide) <|
    .fixed (by decide) .nil

theorem writes_repopulateHelper (h : a.LegibleBody s) {element : String}
    (helement : IsTypeText element)
    (hname : isNameText (repopulateName element).toList = true) :
    Writes (s.repopulateHelper element) (s.repopulatePieces element) := by
  have hobject := h.hosts s.host.engineObject (by simp [HostNames.all])
  have hlog := h.hosts s.host.debugLog (by simp [HostNames.all])
  have hwarning : IsLine (s.mismatchText "fieldName + \"" element) (s.warningPieces "fieldName + "
      (": assigned object does not implement " ++ element ++ ".")) := by
    have hline := isLine_mismatch hlog (.inr rfl) rfl (show "".toList.all isPlain = true by decide)
      helement
    rwa [String.empty_append] at hline
  have hguard := writes_block (isLine_fixed (t := "if (target == null)") (by decide) (by decide))
    ((writes_line (isLine_fixed (t := "return;") (by decide) (by decide))).comp
      (writes_line (isLine_nullWarning hlog)))
  have hadd : Writes (addIfCast "target" element (s.logMismatch "fieldName + \"" element))
      (s.addPieces (.text "target") element (s.warningPieces "fieldName + "
        (": assigned object does not implement " ++ element ++ "."))) :=
    writes_addIfCast (.text "target") (.word (by decide)) helement hwarning
  have hloop := writes_block
    (isLine_fixed (t := "foreach (var obj in source)") (by decide) (by decide)) hadd
  have hbody := hloop.comp
    ((writes_indented (isLine_fixed (t := "return;") (by decide) (by decide))).comp
      ((writes_line (isLine_fixed (t := "if (source == null)") (by decide) (by decide))).comp
        ((writes_line (isLine_fixed (t := "target.Clear();") (by decide) (by decide))).comp
          hguard)))
  have hpieces := hbody.congr (show _ = Piece.block [.text "if (target == null)"]
        (s.warningPieces "fieldName + " ": readonly list is null, nothing to repopulate." ++
          [.text "return;"]) ++
      [.text "target.Clear();", .text "if (source == null)", .text "return;"] ++
      Piece.block [.text "foreach (var obj in source)"]
        (s.addPieces (.text "target") element (s.warningPieces "fieldName + "
          (": assigned object does not implement " ++ element ++ "."))) by
    simp only [List.append_assoc, List.cons_append, List.nil_append])
  intro l bs hl
  rw [repopulateHelper, repopulatePieces]
  exact writes_block (isLine_repopulateHeader hobject helement hname) hpieces l bs hl

theorem isLine_instantiateHeader {element : String} (helement : IsTypeText element) :
    IsLine ("public " ++ element ++ " InstantiateInterface(" ++ element ++ " instance)")
      [.text "public ", .text element, .text " InstantiateInterface(", .text element,
        .text " instance)"] := by
  refine .ofEnd (by simp [Piece.string]) (fun r ↦ ?_) (by decide)
  exact .fixed (by decide) <| .typeText helement ⟨rfl, by simp [Piece.string]⟩ <|
    .fixed (by decide) <| .typeText helement ⟨rfl, by simp [Piece.string]⟩ <|
    .fixed (by decide) .nil

theorem isLine_objectCase (hobject : IsDottedName s.host.engineObject) :
    IsLine ("case " ++ s.host.engineObject ++ " engineObject:")
      [.text "case ", .text s.host.engineObject, .text " engineObject:"] := by
  refine .ofEnd (by simp [Piece.string]) (fun r ↦ ?_) (by decide)
  exact .fixed (by decide) <| .dotted hobject rfl <| .ending (by decide)

theorem isLine_clone (hobject : IsDottedName s.host.engineObject) {element : String}
    (helement : IsTypeText element) :
    IsLine ("return " ++ s.host.engineObject ++ ".Instantiate(engineObject) as " ++ element ++ ";")
      [.text "return ", .text s.host.engineObject, .text ".Instantiate(engineObject) as ",
        .text element, .text ";"] := by
  refine .ofEnd (by simp [Piece.string]) (fun r ↦ ?_) (by decide)
  exact .fixed (by decide) <| .dotted hobject rfl <| .fixed (by decide) <|
    .typeText helement ⟨rfl, by simp [Piece.string]⟩ <| .fixed (by decide) .nil

theorem isLine_cloneError (hobject : IsDottedName s.host.engineObject)
    (hlog : IsDottedName s.host.debugLog) {element : String} (helement : IsTypeText element) :
    IsLine (s.host.debugLog ++ ".LogError(\"Cannot instantiate " ++ element ++
        ": the instance is not a " ++ s.host.engineObject ++ ".\");")
      [.text s.host.debugLog, .text ".LogError(", .text ("\"" ++ ("Cannot instantiate " ++ element
        ++ ": the instance is not a " ++ s.host.engineObject ++ ".") ++ "\""), .text ");"] := by
  have hplain : ("Cannot instantiate " ++ element ++ ": the instance is not a " ++
      s.host.engineObject ++ ".").toList.all isPlain = true := by
    simp only [String.toList_append, List.all_append, helement.plain, hobject.isPlain]
    decide
  refine .ofEnd (by simp [Piece.string]) (fun r ↦ ?_) (by decide)
  exact .dotted hlog rfl <| .fixed (by decide) <| .quoted (by simp) hplain <|
    .fixed (by decide) .nil

theorem writes_instantiateHelper (h : a.LegibleBody s) {element : String}
    (helement : IsTypeText element) :
    Writes (s.instantiateHelper element) (s.instantiatePieces element) := by
  have hobject := h.hosts s.host.engineObject (by simp [HostNames.all])
  have hlog := h.hosts s.host.debugLog (by simp [HostNames.all])
  have hbody := (writes_indented (isLine_fixed (t := "return null;") (by decide) (by decide))).comp
    ((writes_indented (isLine_cloneError hobject hlog helement)).comp
      ((writes_line (isLine_ending (t := "default:") (by decide) (by decide))).comp
        ((writes_indented (isLine_clone hobject helement)).comp
          (writes_line (isLine_objectCase hobject)))))
  exact writes_block (isLine_instantiateHeader helement)
    (writes_block (isLine_fixed (t := "switch (instance)") (by decide) (by decide)) hbody)

/-- Helpers for some elements, each with an empty line behind it. -/
theorem writes_helpers {helper : String → Layout → Layout} {pieces : String → List Piece}
    {elements : List String} (h : ∀ e ∈ elements, Writes (helper e) (pieces e)) :
    Writes (fun l ↦ elements.foldl (fun l e ↦ (helper e l).blank) l) (elements.flatMap pieces) := by
  refine writes_foldl fun e he ↦ ?_
  have hwrites := writes_blank.comp (h e he)
  rwa [List.append_nil] at hwrites

theorem mem_foldl_unseen {α : Type} [BEq α] [LawfulBEq α] {items seen : List α} {x : α} :
    x ∈ items.foldl (fun seen x ↦ if seen.contains x then seen else seen ++ [x]) seen ↔
      x ∈ seen ∨ x ∈ items := by
  induction items generalizing seen with
  | nil => simp
  | cons y rest ih =>
    rw [List.foldl_cons, ih, List.mem_cons]
    split
    · rename_i hseen
      rw [List.contains_iff_mem] at hseen
      refine ⟨fun h ↦ h.imp_right .inr, ?_⟩
      rintro (h | rfl | h)
      · exact .inl h
      · exact .inl hseen
      · exact .inr h
    · rw [List.mem_append, List.mem_singleton, or_assoc]

theorem mem_elementNames {shapes : List FieldShape} {element : String}
    (h : element ∈ ClassAnalysis.elementNames shapes) :
    ∃ shape ∈ shapes, shape.elementName = element := by
  rcases mem_foldl_unseen.mp h with hnone | hmem
  · cases hnone
  · exact List.mem_map.mp hmem

theorem writes_classBody (h : a.LegibleBody s) : Writes (s.classBody a) (s.classBodyPieces a) := by
  have hbackings : Writes (fun l ↦ a.shapes.foldl (fun l shape ↦ (s.backingField shape l).blank) l)
      (a.shapes.flatMap s.backingPieces) := by
    refine writes_foldl fun shape hshape ↦ ?_
    have hwrites := writes_blank.comp (writes_backingField h hshape)
    rwa [List.append_nil] at hwrites
  have hrepopulate : ∀ element ∈ ClassAnalysis.elementNames
      (a.shapes.filter fun shape ↦ shape.isList && shape.isReadOnly),
      Writes (s.repopulateHelper element) (s.repopulatePieces element) := by
    intro element helement
    obtain ⟨shape, hshape, rfl⟩ := mem_elementNames helement
    obtain ⟨hmem, hreadonly⟩ := List.mem_filter.mp hshape
    have hs := h.shapes shape hmem
    rw [Bool.and_eq_true] at hreadonly
    exact writes_repopulateHelper h hs.element (hs.repopulate hreadonly.1 hreadonly.2)
  have hinstantiate : ∀ element ∈ ClassAnalysis.elementNames a.shapes,
      Writes (s.instantiateHelper element) (s.instantiatePieces element) := by
    intro element helement
    obtain ⟨shape, hshape, rfl⟩ := mem_elementNames helement
    exact writes_instantiateHelper h (h.shapes shape hshape).element
  have hmembers := (writes_helpers hrepopulate).comp ((writes_hooks h).comp hbackings)
  intro l bs hl
  rw [classBody, classBodyPieces]
  cases s.instantiateHelpers with
  | false =>
    rw [if_neg (by simp), if_neg (by simp), List.append_nil]
    exact hmembers l bs hl
  | true => exact ((writes_helpers hinstantiate).comp hmembers) l bs hl

theorem isLine_classHeader (h : a.LegibleBody s) :
    IsLine (s.classHeader a) (s.classHeaderPieces a) := by
  have hcallback := h.hosts s.host.callbackInterface (by simp [HostNames.all])
  unfold classHeader classHeaderPieces
  split
  · refine ⟨by simp [toList_typeParamList, Piece.string], fun r ↦ ?_,
      endsVisibly_of_isPlain (by simp) ?_⟩
    · have hbases : Apart ('\n' :: r) [.text " : ", .text s.host.callbackInterface] :=
        .fixed (by decide) (.dotted hcallback rfl .nil)
      have hrest := Apart.append (apart_paramPieces h.typeParams _) hbases
      have hbreaks : breaks (chars (paramPieces a.typeParams ++
          [.text " : ", .text s.host.callbackInterface]) ++ '\n' :: r) = true := by
        rw [chars_append, List.append_assoc]
        exact breaks_paramPieces _ rfl
      rw [List.append_assoc]
      exact .fixed (by decide) <| .fixed (by decide) <|
        .name h.className hbreaks hrest
    · simp only [String.toList_append, List.all_append, isPlain_of_isNameText h.className,
        isPlain_typeParamList h.typeParams, hcallback.isPlain]
      decide
  · refine ⟨by simp [toList_typeParamList, Piece.string], fun r ↦ ?_,
      endsVisibly_of_isPlain (by simp) ?_⟩
    · rw [List.append_nil]
      exact .fixed (by decide) <| .fixed (by decide) <|
        .name h.className (breaks_paramPieces _ rfl) (apart_paramPieces h.typeParams _)
    · simp only [String.toList_append, List.all_append, isPlain_of_isNameText h.className,
        isPlain_typeParamList h.typeParams]
      decide

/-- The header of a type around the companion class. -/
theorem isLine_containing {t : ContainingType} (hname : isNameText t.name.toList = true)
    (hparams : ∀ n ∈ t.typeParams, isNameText n.toList = true) :
    IsLine ("partial " ++ t.kind.keyword ++ " " ++ t.name ++ typeParamList t.typeParams)
      ([.text "partial ", .text (t.kind.keyword ++ " "), .name t.name] ++
        paramPieces t.typeParams) where
  chars := by simp [toList_typeParamList, Piece.string]
  apart r := by
    have hkeyword : settles (t.kind.keyword ++ " ").toList = true := by
      cases t.kind <;> decide
    exact .fixed (by decide) <| .fixed hkeyword <|
      .name hname (breaks_paramPieces _ rfl) (apart_paramPieces hparams _)
  last := by
    refine endsVisibly_of_isPlain (by simp) ?_
    have hkeyword : t.kind.keyword.toList.all isPlain = true := by cases t.kind <;> decide
    simp only [String.toList_append, List.all_append, hkeyword, isPlain_of_isNameText hname,
      isPlain_typeParamList hparams]
    decide

theorem isLine_enclosingHeaders (h : a.LegibleBody s) :
    List.Forall₂ IsLine (enclosingHeaders a) (enclosingPieces a) := by
  refine List.rel_append ?_ ?_
  · rw [List.forall₂_map_left_iff, List.forall₂_map_right_iff, List.forall₂_same]
    intro t ht
    have hspace := h.space t (by simpa using ht)
    refine ⟨?_, fun r ↦ ?_, ?_⟩
    · simp [chars_dottedPieces, Piece.string]
    · exact .fixed (by decide) (apart_dottedPieces hspace rfl)
    · refine endsVisibly_of_isPlain (by simp) ?_
      rw [String.toList_append, List.all_append, hspace.isPlain]
      decide
  · rw [List.forall₂_map_left_iff, List.forall₂_map_right_iff, List.forall₂_same]
    intro t ht
    exact isLine_containing (h.containing t ht).1 (h.containing t ht).2

theorem writes_nested {headers : List String} {pieces : List (List Piece)}
    {body : Layout → Layout} (hheaders : List.Forall₂ IsLine headers pieces)
    (hbody : Writes body ps) : Writes (nested headers body) (nestedPieces pieces ps) := by
  induction hheaders with
  | nil => exact hbody
  | cons hheader _ ih => exact writes_block hheader ih

/-- Headers and a body behind text that may end in an empty line. -/
theorem spells_nested {headers : List String} {pieces : List (List Piece)} {body : Layout → Layout}
    {l : Layout} {bs : List Bare} (hl : l.Starts bs) (hheaders : List.Forall₂ IsLine headers pieces)
    (hne : headers ≠ []) (hbody : Writes body ps) :
    (nested headers body l).Spells (bs ++ tokensOf (nestedPieces pieces ps)) := by
  cases hheaders with
  | nil => exact absurd rfl hne
  | cons hheader hheaders => exact hl.block hheader (writes_nested hheaders hbody)

/-- The tokens of a companion are those of its pieces, if everything in its using directives stops
at the ends of their lines. -/
theorem spell_companionText (h : a.LegibleBody s)
    (husings : ∀ t ∈ a.unitUsings, ∀ l ∈ visible t.toList, l.StopsAt '\n') :
    spell (s.companionText a).toList = tokensOf (s.unitPieces a) := by
  have hcomment : IsLine "// <auto-generated/>" [.text "// <auto-generated/>"] :=
    isLine_ending (by decide) (by decide)
  have hheaders : List.Forall₂ IsLine (enclosingHeaders a ++ [s.classHeader a])
      (enclosingPieces a ++ [s.classHeaderPieces a]) :=
    List.rel_append (isLine_enclosingHeaders h) (.cons (isLine_classHeader h) .nil)
  have hfront := ((writes_line hcomment _ _ spells_empty).starts.takenOverLines husings).blank
  refine (spell_text (spells_nested hfront hheaders (by simp) (writes_classBody h))).trans ?_
  simp [unitPieces]

end Settings
end Companion
