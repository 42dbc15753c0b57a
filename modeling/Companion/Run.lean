import Companion.Grammar.SourceFile
import Companion.Unit.Registry
import Companion.Unit.Text

/-!
A run over source files: classes that may need a companion are found by what is written, analyzed
in the order in which they are found or side by side, and their units registered in that order. No
class depends on another one's unit. What depends on scheduling is in which order the reports of
classes that are analyzed side by side arrive; so a run there is a relation, of which the run that
analyzes one class after the other is one case.
-/

set_option autoImplicit false

namespace Companion

/-- Whether the first base is written with type arguments at its end. -/
def TypeHeader.hasGenericBase (h : TypeHeader) : Bool :=
  match h.bases.head?.bind TypeRef.name? with
  | some n => (n.segments.getLast?.map fun s => !s.args.isEmpty).getD false
  | none => false

/-- Whether a declaration is worth analyzing: a class with attributes on a field, or one that may
give a value to the parameters of a generic base. -/
def TypeDecl.isCandidate (d : TypeDecl) : Bool :=
  d.header.kind = .classType &&
    (d.fields.any (fun f => !f.attributes.isEmpty) || d.header.hasGenericBase)

mutual

/-- A declaration and all declarations nested in it, outermost first. -/
def TypeDecl.all : TypeDecl → List TypeDecl
  | .mk h ms => .mk h ms :: Member.allTypes ms

def Member.allTypes : List Member → List TypeDecl
  | [] => []
  | .type d :: ms => TypeDecl.all d ++ Member.allTypes ms
  | .field _ :: ms | .other _ :: ms => Member.allTypes ms

end

mutual

/-- The type declarations in an item, outermost first. -/
def Item.types : Item → List TypeDecl
  | .namespaceDecl _ items => Item.allTypes items
  | .typeDecl d => d.all

def Item.allTypes : List Item → List TypeDecl
  | [] => []
  | i :: is => Item.types i ++ Item.allTypes is

end

namespace Compilation

/-- The classes that may need a companion, in the order in which they are first found. -/
def candidates (c : Compilation) : List TypeId :=
  let found := (c.files.mapIdx fun file f =>
    ((Item.allTypes f.items).filter TypeDecl.isCandidate).filterMap fun d =>
      c.idOf file d.header.span).flatten
  found.foldl (fun seen id => if seen.contains id then seen else seen ++ [id]) []

/-- The analyses of all candidates with what each of them reports. -/
def analyzed (c : Compilation) (s : Settings) : List (ClassAnalysis × List Diagnostic) :=
  c.candidates.filterMap (c.analyze s)

end Compilation

/-- A list that is made of others by taking, time and again, the first element that is left of one
of them. -/
inductive Interleaves {α : Type} : List (List α) → List α → Prop
  | done {lists : List (List α)} (h : ∀ l ∈ lists, l = []) : Interleaves lists []
  | take {before after : List (List α)} {a : α} {l rest : List α}
      (h : Interleaves (before ++ l :: after) rest) :
      Interleaves (before ++ (a :: l) :: after) (a :: rest)

/-- The orders in which what the candidates report may arrive. If several candidates are analyzed
side by side, each of them only keeps its own order. -/
inductive Compilation.MayArrive (c : Compilation) (s : Settings) : List Diagnostic → Prop
  | sideBySide {arrived : List Diagnostic} (hparallel : s.isParallel = true)
      (hseveral : 1 < c.candidates.length)
      (h : Interleaves ((c.analyzed s).map Prod.snd) arrived) : MayArrive c s arrived
  | inOrder (h : s.isParallel = false ∨ c.candidates.length ≤ 1) :
      MayArrive c s ((c.analyzed s).flatMap Prod.snd)

/-- What a run yields. -/
structure RunResult where
  /-- The units in the order of their names. -/
  units : List GeneratedUnit
  /-- The analyses of all candidates, in the order in which they are found. -/
  classes : List ClassAnalysis
  /-- What was reported, in order. -/
  reports : List Diagnostic

namespace RunResult

/-- The report that the name of a unit is taken. -/
def duplicateReport (a : ClassAnalysis) (e : Registry.RegisterError) : Diagnostic :=
  ((Diagnostic.error .duplicateUnit e.message a.span
    "second class with this generated name").inFile a.file).withNote
      ("no companion is generated for `" ++ a.qualifiedName ++ "`")

/-- The unit of a class, if it has one. -/
def unitOf (s : Settings) (a : ClassAnalysis) : Option GeneratedUnit :=
  if a.shouldEmit then some ⟨a.hintName, a.qualifiedName, s.companionText a⟩ else none

/-- Register the unit of a class, or report that its name is taken. -/
def registerUnit (s : Settings) (state : Registry × List Diagnostic) (a : ClassAnalysis) :
    Registry × List Diagnostic :=
  match unitOf s a with
  | none => state
  | some u =>
    match state.1.register u with
    | .ok r => (r, state.2)
    | .error e => (state.1, state.2 ++ [duplicateReport a e])

/-- Register the units of classes in order. -/
def registerUnits (s : Settings) (classes : List ClassAnalysis) : Registry × List Diagnostic :=
  classes.foldl (registerUnit s) (Registry.empty, [])

/-- The run over classes whose reports arrived in an order. Units are registered once all classes
are analyzed. -/
def ofClasses (s : Settings) (classes : List ClassAnalysis) (arrived : List Diagnostic) :
    RunResult :=
  let (registry, duplicates) := registerUnits s classes
  ⟨registry.sorted, classes, arrived ++ duplicates⟩

/-- The run over a compilation that analyzes one class after the other. -/
def ofCompilation (c : Compilation) (s : Settings) : RunResult :=
  let analyzed := c.analyzed s
  ofClasses s (analyzed.map Prod.fst) (analyzed.flatMap Prod.snd)

end RunResult

/-- Whether a run over the compilation may yield this. -/
def Compilation.Yields (c : Compilation) (s : Settings) (r : RunResult) : Prop :=
  ∃ arrived, c.MayArrive s arrived ∧ r = .ofClasses s ((c.analyzed s).map Prod.fst) arrived

/-- Source files that have been read. -/
structure Sources where
  files : List SourceFile
  /-- What was found wrong while reading them. -/
  diagnostics : List Diagnostic

namespace Sources

/-- Read source files, given as paths and texts. -/
def ofTexts (texts : List (String × String)) : Sources :=
  let parsed := texts.map fun (path, text) => Parsed.ofSource path text
  ⟨parsed.map (·.file), parsed.flatMap (·.diagnostics)⟩

/-- The texts by path; the last text of a path comes first. -/
def texts (s : Sources) : List (String × String) :=
  (s.files.map fun f => (f.path, f.source)).reverse

end Sources

/-- A run over source files with everything that is to be reported, in the order of reports. -/
structure Generation where
  result : RunResult
  diagnostics : List Diagnostic

namespace Generation

def ofResult (sources : Sources) (result : RunResult) : Generation :=
  ⟨result, Diagnostic.sort (sources.diagnostics ++ result.reports)⟩

/-- The run over source files that analyzes one class after the other. -/
def ofSources (sources : Sources) (s : Settings) : Generation :=
  ofResult sources (RunResult.ofCompilation (Compilation.ofFiles sources.files) s)

def hasErrors (g : Generation) : Bool := Diagnostic.hasErrors g.diagnostics

end Generation

/-- Whether a run over source files may yield this. -/
def Sources.Yields (sources : Sources) (s : Settings) (g : Generation) : Prop :=
  ∃ r, (Compilation.ofFiles sources.files).Yields s r ∧ g = .ofResult sources r

end Companion
