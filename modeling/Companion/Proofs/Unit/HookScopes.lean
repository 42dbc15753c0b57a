import Companion.Run

/-!
The names in hooks. What a hook does for a shape is a list of statements that name the field, its
backing field, and variables of the hook: the stored object that a loop is at, and the object as an
element (`Settings.restoration`). A name denotes a variable of the hook wherever one of that name is
in scope, and a member of the class elsewhere (`HookStatement.denoted`). The loop over stored
objects names the field inside, without a qualifier, so a field that goes by the name of one of the
two variables is taken for the variable there (`Settings.restoration_captures_iff`).
-/

set_option autoImplicit false
set_option relaxedAutoImplicit false

namespace Companion

/-! ### Statements -/

/-- A name in a hook, by what it is meant to denote. -/
inductive Mention where
  /-- A member of the class. -/
  | member (name : String)
  /-- A variable that the hook declares. -/
  | declared (name : String)
  deriving DecidableEq

def Mention.name : Mention → String
  | member n | declared n => n

/-- A part of a line: text without names of fields and variables, or such a name. -/
inductive LinePart where
  | text (t : String)
  | mention (m : Mention)

/-- A line as it is written. -/
def lineText : List LinePart → String
  | [] => ""
  | .text t :: rest => t ++ lineText rest
  | .mention m :: rest => m.name ++ lineText rest

@[simp] theorem lineText_nil : lineText [] = "" := rfl

@[simp] theorem lineText_text (t : String) (rest : List LinePart) :
    lineText (.text t :: rest) = t ++ lineText rest := rfl

@[simp] theorem lineText_member (n : String) (rest : List LinePart) :
    lineText (.mention (.member n) :: rest) = n ++ lineText rest := rfl

@[simp] theorem lineText_declared (n : String) (rest : List LinePart) :
    lineText (.mention (.declared n) :: rest) = n ++ lineText rest := rfl

/-- The names in a line. -/
def lineNames : List LinePart → List Mention
  | [] => []
  | .text _ :: rest => lineNames rest
  | .mention m :: rest => m :: lineNames rest

/-- A statement of a hook. -/
inductive HookStatement where
  | line (parts : List LinePart)
  /-- A condition, and a line that depends on it. -/
  | guarded (condition inner : List LinePart)
  /-- The declaration of a variable with what follows its name. -/
  | declaration (name : String) (rest : List LinePart)
  /-- A loop that declares a variable for its body. -/
  | loop (name : String) (source : List LinePart) (body : List HookStatement)

namespace HookStatement

mutual

def write : HookStatement → Layout → Layout
  | line parts, l => l.line (lineText parts)
  | guarded condition inner, l => (l.line (lineText condition)).indented (lineText inner)
  | declaration name rest, l => l.line ("var " ++ name ++ lineText rest)
  | loop name source body, l =>
    l.block ("foreach (var " ++ name ++ " in " ++ lineText source ++ ")") (writeAll body)

def writeAll : List HookStatement → Layout → Layout
  | [], l => l
  | statement :: rest, l => writeAll rest (write statement l)

end

/-- The variable that a statement declares for the block around it. -/
def declared? : HookStatement → Option String
  | declaration name _ => some name
  | _ => none

/-- Some names where some variables are in scope. -/
def inScope (scope : List String) (names : List Mention) : List (List String × Mention) :=
  names.map (scope, ·)

mutual

/-- The names in a statement, each with the variables that are in scope there. -/
def mentions (scope : List String) : HookStatement → List (List String × Mention)
  | line parts => inScope scope (lineNames parts)
  | guarded condition inner => inScope scope (lineNames condition ++ lineNames inner)
  | declaration _ rest => inScope scope (lineNames rest)
  | loop name source body =>
    inScope scope (lineNames source) ++ mentionsAll (body.filterMap declared? ++ name :: scope) body

/-- The names in the statements of a block; a variable is in scope in the whole block that declares
it. -/
def mentionsAll (scope : List String) : List HookStatement → List (List String × Mention)
  | [] => []
  | statement :: rest => mentions scope statement ++ mentionsAll scope rest

end

/-- What a name denotes where some variables are in scope. -/
def denoted (scope : List String) (name : String) : Mention :=
  if name ∈ scope then .declared name else .member name

/-- The names in a block, each with the variables that are in scope there. -/
def mentionsOf (block : List HookStatement) : List (List String × Mention) :=
  mentionsAll (block.filterMap declared?) block

/-- Every name in a block denotes what it is meant to denote. -/
def DenotesMeant (block : List HookStatement) : Prop :=
  ∀ m ∈ mentionsOf block, denoted m.1 m.2.name = m.2

/-- A member is named in a block where a variable of that name is in scope. -/
def Captures (block : List HookStatement) : Prop :=
  ∃ scope n, (scope, .member n) ∈ mentionsOf block ∧ n ∈ scope

theorem denoted_eq_member_iff {scope : List String} {n : String} :
    denoted scope n = .member n ↔ n ∉ scope := by
  unfold denoted
  by_cases h : n ∈ scope
  · simp [h]
  · simp [h]

theorem denoted_eq_declared_iff {scope : List String} {n : String} :
    denoted scope n = .declared n ↔ n ∈ scope := by
  unfold denoted
  by_cases h : n ∈ scope
  · simp [h]
  · simp [h]

theorem mem_inScope_iff {scope : List String} {names : List Mention}
    {m : List String × Mention} : m ∈ inScope scope names ↔ m.1 = scope ∧ m.2 ∈ names := by
  unfold inScope
  rw [List.mem_map]
  constructor
  · rintro ⟨name, hname, rfl⟩
    exact ⟨rfl, hname⟩
  · rintro ⟨rfl, hname⟩
    exact ⟨m.2, hname, rfl⟩

theorem mentionsAll_append (scope : List String) (front back : List HookStatement) :
    mentionsAll scope (front ++ back) = mentionsAll scope front ++ mentionsAll scope back := by
  induction front with
  | nil => rfl
  | cons statement front ih =>
    rw [List.cons_append, mentionsAll, mentionsAll, ih, List.append_assoc]

end HookStatement

namespace Settings

open HookStatement

variable (s : Settings)

/-- The body of a loop over stored objects that adds those of the right type to a list. -/
def addition (field element : String) (mismatch : List String) : List HookStatement :=
  [.declaration "element"
      [.text " = ", .mention (.declared "obj"), .text (" as " ++ element ++ ";")],
    .guarded [.text "if (", .mention (.declared "element"), .text " != null)"]
      [.mention (.member field), .text ".Add(", .mention (.declared "element"), .text ");"]] ++
  match mismatch with
  | [] => []
  | warning :: _ =>
    [.guarded [.text "else if (", .mention (.declared "obj"), .text " != null)"] [.text warning]]

/-- The statements that restore one field. -/
def restoration (className : String) (shape : FieldShape) : List HookStatement :=
  let field : LinePart := .mention (.member shape.fieldName)
  let backing : LinePart := .mention (.member shape.backingName)
  let element := shape.elementName
  let mismatch := s.logMismatch ("\"" ++ className ++ "." ++ shape.fieldName) element
  match shape.container with
  | .single =>
    .line [field, .text " = ", backing, .text (" as " ++ element ++ ";")] ::
      match mismatch with
      | [] => []
      | warning :: _ =>
        [.guarded [.text "if (", field, .text " == null && ", backing, .text " != null)"]
          [.text warning]]
  | .list =>
    if shape.isReadOnly then
      [.line [.text (repopulateName element ++ "("), field, .text ", ", backing,
        .text (", \"" ++ className ++ "." ++ shape.fieldName ++ "\");")]]
    else
      [.guarded [.text "if (", field, .text " == null)"]
          [field, .text (" = new List<" ++ element ++ ">();")],
        .line [field, .text ".Clear();"],
        .loop "obj" [backing] (addition shape.fieldName element mismatch)]

/-- The statements that restore all fields. -/
def restorations (a : ClassAnalysis) : List HookStatement :=
  a.shapes.flatMap (s.restoration a.className)

/-! ### What is written -/

theorem writeAll_append (front back : List HookStatement) (l : Layout) :
    writeAll (front ++ back) l = writeAll back (writeAll front l) := by
  induction front generalizing l with
  | nil => rfl
  | cons statement front ih => exact ih (write statement l)

theorem writeAll_addition (field element : String) (mismatch : List String) :
    writeAll (addition field element mismatch) = addIfCast field element mismatch := by
  have hcast : "var element" ++ (" = " ++ ("obj" ++ (" as " ++ element ++ ";"))) =
      "var element = obj as " ++ element ++ ";" := by
    rw [← String.toList_inj]
    simp
  ext1 l
  unfold addition addIfCast
  cases mismatch <;> simp [writeAll, write, hcast]

/-- The statements are what the hook is written with. -/
theorem writeAll_restoration (className : String) (shape : FieldShape) (l : Layout) :
    writeAll (s.restoration className shape) l = s.restore className shape l := by
  unfold restoration restore
  dsimp only
  generalize s.logMismatch _ shape.elementName = mismatch
  cases shape.container with
  | single => cases mismatch <;> simp [writeAll, write, String.append_assoc]
  | list =>
    by_cases hreadonly : shape.isReadOnly = true
    · simp [hreadonly, writeAll, write, String.append_assoc]
    · simp [hreadonly, writeAll, write, writeAll_addition, String.append_assoc]

theorem writeAll_restorations (a : ClassAnalysis) (l : Layout) :
    writeAll (s.restorations a) l = s.restoreAll a l := by
  unfold restorations restoreAll
  induction a.shapes generalizing l with
  | nil => rfl
  | cons shape shapes ih =>
    rw [List.flatMap_cons, writeAll_append, writeAll_restoration, ih]
    rfl

/-! ### What names denote -/

/-- What is named in a loop over stored objects, where its variables are in scope. -/
theorem mem_mentionsAll_addition_iff {field element : String} {mismatch scope : List String}
    {m : List String × Mention} : m ∈ mentionsAll scope (addition field element mismatch) ↔
      m.1 = scope ∧ m.2 ∈ [.declared "obj", .declared "element", .member field] := by
  unfold addition
  cases mismatch with
  | nil =>
    change m ∈ inScope scope [.declared "obj"] ++
      (inScope scope [.declared "element", .member field, .declared "element"] ++ []) ↔ _
    grind [mem_inScope_iff]
  | cons warning rest =>
    change m ∈ inScope scope [.declared "obj"] ++
      (inScope scope [.declared "element", .member field, .declared "element"] ++
        (inScope scope [.declared "obj"] ++ [])) ↔ _
    grind [mem_inScope_iff]

theorem declared_addition (field element : String) (mismatch : List String) :
    (addition field element mismatch).filterMap declared? = ["element"] := by
  unfold addition
  cases mismatch <;> rfl

/-- Restoring a field declares no variable for what is around. -/
theorem declared_restoration (className : String) (shape : FieldShape) :
    (s.restoration className shape).filterMap declared? = [] := by
  unfold restoration
  cases shape.container with
  | single =>
    dsimp only
    generalize s.logMismatch _ shape.elementName = mismatch
    cases mismatch <;> rfl
  | list => cases shape.isReadOnly <;> rfl

/-- Outside of loops no variable is in scope, and in the loop of a list that is made anew both
are. -/
theorem mem_mentionsOf_restoration_iff {className : String} {shape : FieldShape}
    {m : List String × Mention} : m ∈ mentionsOf (s.restoration className shape) ↔
      (m.1 = [] ∧ m.2 ∈ [.member shape.fieldName, .member shape.backingName]) ∨
      (shape.container = .list ∧ shape.isReadOnly = false) ∧ m.1 = ["element", "obj"] ∧
        m.2 ∈ [.declared "obj", .declared "element", .member shape.fieldName] := by
  have hdeclared := s.declared_restoration className shape
  unfold mentionsOf
  rw [hdeclared]
  unfold restoration
  dsimp only
  generalize s.logMismatch _ shape.elementName = mismatch
  cases hcontainer : shape.container with
  | single =>
    cases mismatch with
    | nil =>
      change m ∈ inScope [] [.member shape.fieldName, .member shape.backingName] ++ [] ↔ _
      grind [mem_inScope_iff]
    | cons warning rest =>
      change m ∈ inScope [] [.member shape.fieldName, .member shape.backingName] ++
        (inScope [] [.member shape.fieldName, .member shape.backingName] ++ []) ↔ _
      grind [mem_inScope_iff]
  | list =>
    by_cases hreadonly : shape.isReadOnly = true
    · rw [if_pos hreadonly]
      change m ∈ inScope [] [.member shape.fieldName, .member shape.backingName] ++ [] ↔ _
      grind [mem_inScope_iff]
    · rw [if_neg hreadonly]
      change m ∈ inScope [] [.member shape.fieldName, .member shape.fieldName] ++
        (inScope [] [.member shape.fieldName] ++
          (inScope [] [.member shape.backingName] ++
            mentionsAll (List.filterMap declared? _ ++ ["obj"]) (addition _ _ mismatch) ++ [])) ↔ _
      rw [declared_addition]
      grind [mem_inScope_iff, mem_mentionsAll_addition_iff]

/-- A hook takes a field for one of its variables exactly if it makes the list in the field anew and
the field goes by the name of the variable. -/
theorem captures_restoration_iff {className : String} {shape : FieldShape} :
    Captures (s.restoration className shape) ↔ (shape.container = .list ∧
      shape.isReadOnly = false) ∧ shape.fieldName ∈ ["element", "obj"] := by
  unfold Captures
  constructor
  · rintro ⟨scope, n, hmention, hscope⟩
    rcases (s.mem_mentionsOf_restoration_iff).mp hmention with ⟨hnone, -⟩ | ⟨hanew, hseen, hname⟩
    · rw [show scope = [] from hnone] at hscope
      cases hscope
    · have hfield : n = shape.fieldName := by simpa using hname
      rw [show scope = _ from hseen, hfield] at hscope
      exact ⟨hanew, hscope⟩
  · rintro ⟨hanew, hscope⟩
    refine ⟨["element", "obj"], shape.fieldName, ?_, hscope⟩
    exact (s.mem_mentionsOf_restoration_iff).mpr (.inr ⟨hanew, rfl, by simp⟩)

/-- The names denote what they are meant to denote exactly if no member is captured: variables are
named only where they are in scope. -/
theorem denotesMeant_restoration_iff {className : String} {shape : FieldShape} :
    DenotesMeant (s.restoration className shape) ↔ ¬ Captures (s.restoration className shape) := by
  unfold DenotesMeant Captures
  constructor
  · rintro hmeant ⟨scope, n, hmention, hscope⟩
    exact denoted_eq_member_iff.mp (hmeant _ hmention) hscope
  · rintro hfree ⟨scope, meant⟩ hmention
    cases meant with
    | member n =>
      refine denoted_eq_member_iff.mpr fun hscope ↦ ?_
      exact hfree ⟨scope, n, hmention, hscope⟩
    | declared n =>
      refine denoted_eq_declared_iff.mpr ?_
      rcases (s.mem_mentionsOf_restoration_iff).mp hmention with ⟨-, hname⟩ | ⟨-, hseen, hname⟩
      · simp at hname
      · rw [show scope = _ from hseen]
        have hvariable : n = "obj" ∨ n = "element" := by simpa using hname
        obtain rfl | rfl := hvariable <;> decide

/-- What a hook is written with for a shape, and when it takes the field for a variable of its
own. -/
theorem restoration_captures_iff (className : String) (shape : FieldShape) :
    (∀ l, writeAll (s.restoration className shape) l = s.restore className shape l) ∧
      (Captures (s.restoration className shape) ↔ shape.container = .list ∧
        shape.isReadOnly = false ∧ shape.fieldName ∈ ["element", "obj"]) ∧
      (DenotesMeant (s.restoration className shape) ↔
        ¬ Captures (s.restoration className shape)) := by
  refine ⟨s.writeAll_restoration className shape, ?_, s.denotesMeant_restoration_iff⟩
  rw [captures_restoration_iff, and_assoc]

/-- The names in a whole hook denote what they are meant to denote exactly if those for each shape
do: no variable is in scope beyond its loop. -/
theorem denotesMeant_restorations_iff (a : ClassAnalysis) : DenotesMeant (s.restorations a) ↔
    ∀ shape ∈ a.shapes, DenotesMeant (s.restoration a.className shape) := by
  have hdeclared : (s.restorations a).filterMap declared? = [] := by
    unfold restorations
    rw [List.filterMap_flatMap, List.flatMap_eq_nil_iff]
    exact fun shape _ ↦ s.declared_restoration a.className shape
  have hmentions : mentionsOf (s.restorations a) =
      a.shapes.flatMap fun shape ↦ mentionsOf (s.restoration a.className shape) := by
    unfold mentionsOf
    rw [hdeclared]
    unfold restorations
    induction a.shapes with
    | nil => rfl
    | cons shape shapes ih =>
      rw [List.flatMap_cons, List.flatMap_cons, mentionsAll_append, ih, declared_restoration]
  unfold DenotesMeant
  rw [hmentions, List.forall_mem_flatMap]

end Settings

/-- A list that goes by the name of a variable of the hook. -/
private def elementTexts : List (String × String) :=
  [("Element.cs", "using System.Collections.Generic;interface I{}" ++
    "partial class C{[SerializeInterface]List<I> element;}")]

private theorem element_facts :
    ((Compilation.ofFiles (Sources.ofTexts elementTexts).files).analyze {} 20).map (fun r ↦
      (r.1.shouldEmit, r.1.shapes.map fun shape ↦
        (shape.fieldName, shape.container, shape.isReadOnly))) =
          some (true, [("element", .list, false)]) := by
  decide +kernel

/-- A hook can take a field for one of its own variables. -/
theorem not_forall_not_captures :
    ¬ ∀ (texts : List (String × String)) (s : Settings) (id : TypeId) (a : ClassAnalysis)
      (reports : List Diagnostic) (shape : FieldShape),
      (Compilation.ofFiles (Sources.ofTexts texts).files).analyze s id = some (a, reports) →
      a.shouldEmit = true → shape ∈ a.shapes →
      ¬ HookStatement.Captures (s.restoration a.className shape) := by
  intro hall
  obtain ⟨⟨a, reports⟩, ha, hfacts⟩ := Option.map_eq_some_iff.mp element_facts
  obtain ⟨hemit, hshapes⟩ := Prod.mk.inj hfacts
  have hmem := List.mem_singleton_self ("element", Container.list, false)
  rw [← hshapes] at hmem
  obtain ⟨shape, hshape, heq⟩ := List.mem_map.mp hmem
  simp only [Prod.mk.injEq] at heq
  obtain ⟨hname, hcontainer, hreadonly⟩ := heq
  refine hall elementTexts {} 20 a reports shape ha hemit hshape ?_
  rw [Settings.captures_restoration_iff, hname]
  exact ⟨⟨hcontainer, hreadonly⟩, by decide⟩

end Companion
