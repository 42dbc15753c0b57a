import Companion.Proofs.Grammar.Citations
import Companion.Proofs.Run.Arrival
import Companion.Proofs.Run.ReportOrder

/-!
A run that does not report skipped fields against one that does. No decision depends on the switch:
shapes, inherited fields and what stands above a class are settled before it is looked at. So the
units and the analyses are the same, and the reports are those of the other run without the warnings
about skipped fields, in the same order (`Generation.silences_of_yields`). If classes are analyzed
side by side, reports that tie may arrive in another order in the other run; apart from the warnings
about skipped fields such reports are equal, unless two types have their names at one place of one
path.
-/

set_option autoImplicit false
set_option relaxedAutoImplicit false

namespace Companion

/-- The same settings, with the warnings about skipped fields switched on or off. -/
def Settings.reporting (b : Bool) (s : Settings) : Settings := { s with reportSkippedFields := b }

/-- A warning that a marked field is skipped, be it a field of the class or an inherited one. -/
def Diagnostic.isSkipWarning (r : Diagnostic) : Bool :=
  r.code.isFieldSkip || r.code = .inheritedNotVisible

/-- Reports without the warnings about skipped fields. -/
def Diagnostic.others (rs : List Diagnostic) : List Diagnostic :=
  rs.filter fun r ↦ !r.isSkipWarning

open Diagnostic (others)

namespace Diagnostic

variable {rs : List Diagnostic}

theorem others_append (rs rs' : List Diagnostic) : others (rs ++ rs') = others rs ++ others rs' :=
  List.filter_append ..

theorem others_eq_nil (h : ∀ r ∈ rs, r.isSkipWarning = true) : others rs = [] :=
  List.filter_eq_nil_iff.mpr fun r hr ↦ by simp [h r hr]

theorem others_eq_self (h : ∀ r ∈ rs, r.isSkipWarning = false) : others rs = rs :=
  List.filter_eq_self.mpr fun r hr ↦ by simp [h r hr]

theorem others_flatMap {α : Type} (as : List α) (f : α → List Diagnostic) :
    others (as.flatMap f) = as.flatMap fun a ↦ others (f a) :=
  List.filter_flatMap ..

/-- What is found wrong while reading is never about a skipped field. -/
theorem isSkipWarning_of_cites {T : Token → Prop} {r : Diagnostic} (h : r.Cites T) :
    r.isSkipWarning = false := by
  have hcode := h.code
  unfold isSkipWarning Code.isFieldSkip
  cases hr : r.code <;> rw [hr] at hcode <;> first | rfl | exact absurd hcode (by decide)

end Diagnostic

theorem SkipReason.isSkipWarning_of_diagnostic {reason : SkipReason} {file type backing : String}
    {d : Declarator} {r : Diagnostic} (h : reason.diagnostic file d type backing = some r) :
    r.isSkipWarning = true := by
  have hcode := reason.mem_aboutOwn (pointsAt_of_diagnostic h).1
  have hall : ∀ code ∈ Diagnostic.Code.aboutOwn, code.isFieldSkip = true := by decide
  rw [Diagnostic.isSkipWarning, hall _ hcode, Bool.true_or]

/-! ### What does not depend on the switch -/

namespace Compilation

variable {c : Compilation} {s : Settings} {id : TypeId} (b : Bool)

theorem hasCompanion_reporting : c.hasCompanion (s.reporting b) id = c.hasCompanion s id := rfl

theorem above_reporting (ids : List TypeId) : c.above (s.reporting b) ids = c.above s ids := by
  induction ids with
  | nil => rfl
  | cons a rest ih =>
    rw [above, above, ih, hasCompanion_reporting]
    rfl

theorem hookRole_reporting : c.hookRole (s.reporting b) id = c.hookRole s id := by
  rw [hookRole, hookRole, above_reporting]
  rfl

theorem handWrittenReport_reporting :
    c.handWrittenReport (s.reporting b) id = c.handWrittenReport s id := by
  rw [handWrittenReport, handWrittenReport, above_reporting]

theorem tooDeepReport_reporting : c.tooDeepReport (s.reporting b) id = c.tooDeepReport s id := rfl

theorem ownReports_reporting_false (symbol : Symbol) :
    symbol.ownReports c (s.reporting false) = [] := rfl

theorem inheritedReports_reporting_false :
    c.inheritedReports (s.reporting false) id = (c.tooDeepReport s id).toList := rfl

theorem analysisOf_reporting (symbol : Symbol) :
    c.analysisOf (s.reporting b) id symbol = c.analysisOf s id symbol := by
  unfold analysisOf
  rw [hookRole_reporting]
  rfl

/-! ### What the switch takes away -/

theorem others_ownReports (symbol : Symbol) : others (symbol.ownReports c s) = [] := by
  refine Diagnostic.others_eq_nil fun r hr ↦ ?_
  obtain ⟨site, f, d, reason, -, hreport⟩ := exists_reason_of_mem_ownReports hr
  exact SkipReason.isSkipWarning_of_diagnostic hreport

theorem isSkipWarning_of_inheritanceReport {site : Site} {i : Inheritance} {r : Diagnostic}
    (h : c.inheritanceReport s id site i = some r) : r.isSkipWarning = true := by
  cases i with
  | kept field => cases h
  | hidden d =>
    have hcode : r.code = .inheritedNotVisible := by
      obtain rfl := Option.some.inj h
      rfl
    rw [Diagnostic.isSkipWarning, hcode]
    rfl
  | skipped reason d type => exact SkipReason.isSkipWarning_of_diagnostic h

theorem isSkipWarning_of_tooDeepReport {r : Diagnostic} (h : c.tooDeepReport s id = some r) :
    r.isSkipWarning = false := by
  rw [Diagnostic.isSkipWarning, code_of_tooDeepReport h]
  rfl

/-- Only the report about deep inheritance is not switched. -/
theorem others_inheritedReports :
    others (c.inheritedReports s id) = (c.tooDeepReport s id).toList := by
  rw [inheritedReports, Diagnostic.others_append, Diagnostic.others_eq_nil, List.nil_append]
  · exact Diagnostic.others_eq_self fun r hr ↦
      isSkipWarning_of_tooDeepReport (Option.mem_toList.mp hr)
  · intro r hr
    split at hr
    · obtain ⟨⟨site, i⟩, -, hreport⟩ := List.mem_filterMap.mp hr
      exact isSkipWarning_of_inheritanceReport hreport
    · cases hr

/-- What is reported about a class if skipped fields are not is what is otherwise reported, without
the warnings about them. -/
theorem analyze_reporting :
    c.analyze (s.reporting false) id =
      (c.analyze (s.reporting true) id).map fun a ↦ (a.1, others a.2) := by
  -- what is reported under a condition, and is not about a skipped field
  have hif (p : Bool) {report : Option Diagnostic} (h : ∀ r ∈ report, r.isSkipWarning = false) :
      others (if p then report else none).toList = (if p then report else none).toList := by
    refine Diagnostic.others_eq_self fun r hr ↦ ?_
    split at hr
    · exact h r (Option.mem_toList.mp hr)
    · cases hr
  have hpartiality (r : Diagnostic) (hr : r ∈ c.notPartialReport id) : r.isSkipWarning = false := by
    rw [Diagnostic.isSkipWarning, code_of_notPartialReport hr]
    rfl
  have hhooks (r : Diagnostic) (hr : r ∈ c.handWrittenReport s id) : r.isSkipWarning = false := by
    rw [Diagnostic.isSkipWarning, code_of_handWrittenReport hr]
    rfl
  unfold analyze
  cases c.symbol? id with
  | none => rfl
  | some symbol =>
    simp only [Option.map_some, analysisOf_reporting, handWrittenReport_reporting,
      Diagnostic.others_append, others_ownReports, others_inheritedReports, hif _ hpartiality,
      hif _ hhooks, ownReports_reporting_false, inheritedReports_reporting_false,
      tooDeepReport_reporting]

end Compilation

/-! ### Reports in their order of arrival -/

namespace Compilation

variable {c : Compilation} {s : Settings} {d : Diagnostic}

/-- The classes of a run with what is reported about them. -/
theorem analyzed_reporting (c : Compilation) (s : Settings) :
    c.analyzed (s.reporting false) =
      (c.analyzed (s.reporting true)).map fun a ↦ (a.1, others a.2) := by
  rw [analyzed, analyzed, List.map_filterMap]
  exact congrArg (List.filterMap · c.candidates) (funext fun _ ↦ analyze_reporting)

/-- What is reported about all classes, one class after the other, if skipped fields are not. -/
def quietReports (c : Compilation) (s : Settings) : List Diagnostic :=
  (c.analyzed (s.reporting false)).flatMap Prod.snd

theorem quietReports_eq (c : Compilation) (s : Settings) :
    c.quietReports s = others ((c.analyzed (s.reporting true)).flatMap Prod.snd) := by
  rw [quietReports, analyzed_reporting, List.flatMap_map, Diagnostic.others_flatMap]

theorem others_flatMap_analyzed (b : Bool) :
    others ((c.analyzed (s.reporting b)).flatMap Prod.snd) = c.quietReports s := by
  cases b with
  | true => exact (quietReports_eq c s).symm
  | false =>
    rw [← quietReports, quietReports_eq, others, others, List.filter_filter]
    simp only [Bool.and_self]

theorem isSkipWarning_of_mem_quietReports {r : Diagnostic} (h : r ∈ c.quietReports s) :
    r.isSkipWarning = false := by
  rw [quietReports_eq] at h
  simpa using (List.mem_filter.mp h).2

/-- What is neither a warning about a skipped field nor found wrong while reading is about a class.
-/
theorem mem_aboutClass_of_origin {id : TypeId} {r : Diagnostic} (h : c.Origin s id r)
    (hquiet : r.isSkipWarning = false) : r.code ∈ aboutClass := by
  rw [Diagnostic.isSkipWarning, Bool.or_eq_false_iff, decide_eq_false_iff_not] at hquiet
  rw [Origin] at h
  split at h
  case h_1 hcode => exact absurd hcode hquiet.2
  case h_5 =>
    obtain ⟨owner, v, hv, hskip⟩ := h
    have hall : ∀ code ∈ Diagnostic.Code.aboutOwn, code.isFieldSkip = true := by decide
    exact absurd (hall _ hskip.code_mem) (by rw [hquiet.1]; decide)
  all_goals
    rename_i hcode
    rw [hcode]
    decide

/-- If types are told apart by path and place, reports that tie are equal, those about skipped
fields aside. -/
theorem eq_of_mem_quietReports {files : List SourceFile} (hapart : NamesApart files)
    {r r' : Diagnostic} (hr : r ∈ (ofFiles files).quietReports s)
    (hr' : r' ∈ (ofFiles files).quietReports s) (hties : r.compare r' = .eq) : r = r' := by
  have hquiet := isSkipWarning_of_mem_quietReports hr
  have hreported {r : Diagnostic} (hr : r ∈ (ofFiles files).quietReports s) :
      ∃ id symbol, (ofFiles files).symbol? id = some symbol ∧
        r ∈ (ofFiles files).reportsOf (s.reporting false) id := by
    obtain ⟨⟨a, reports⟩, hmem, hr⟩ := List.mem_flatMap.mp hr
    obtain ⟨id, -, ha⟩ := List.mem_filterMap.mp hmem
    obtain ⟨symbol, hsymbol, -⟩ := Option.map_eq_some_iff.mp ha
    refine ⟨id, symbol, hsymbol, ?_⟩
    rw [reportsOf, ha]
    exact hr
  obtain ⟨id, symbol, hsymbol, hr⟩ := hreported hr
  obtain ⟨id', symbol', hsymbol', hr'⟩ := hreported hr'
  have habout := mem_aboutClass_of_origin (origin_of_mem_reportsOf hsymbol hr) hquiet
  exact eq_of_ties_of_aboutClass hapart hsymbol hsymbol' hr hr' habout hties

theorem perm_others_of_mayArrive {b : Bool} {arrived : List Diagnostic}
    (h : c.MayArrive (s.reporting b) arrived) : (others arrived).Perm (c.quietReports s) :=
  others_flatMap_analyzed (c := c) (s := s) b ▸ h.perm.filter _

/-- Nothing that arrives without the warnings about skipped fields is one of them. -/
theorem others_of_mayArrive {arrived : List Diagnostic}
    (h : c.MayArrive (s.reporting false) arrived) : others arrived = arrived :=
  Diagnostic.others_eq_self fun _ hr ↦ isSkipWarning_of_mem_quietReports (h.perm.mem_iff.mp hr)

/-- Whichever way reports arrive, those that tie come in the same order, if they are not about
skipped fields. -/
theorem tying_others_of_mayArrive {files : List SourceFile} {b : Bool} {arrived : List Diagnostic}
    (hapart : s.isParallel = true → 1 < (ofFiles files).candidates.length → NamesApart files)
    (h : (ofFiles files).MayArrive (s.reporting b) arrived) :
    d.tying (others arrived) = d.tying ((ofFiles files).quietReports s) := by
  have hperm : (d.tying (others arrived)).Perm (d.tying ((ofFiles files).quietReports s)) :=
    (perm_others_of_mayArrive h).filter _
  cases h with
  | sideBySide hparallel hseveral _ =>
    have hsame (r r' : Diagnostic) (hr : r ∈ d.tying (others arrived))
        (hr' : r' ∈ d.tying ((ofFiles files).quietReports s)) (_ : True) (_ : True) : r = r' := by
      obtain ⟨hmem, hties⟩ := Diagnostic.mem_tying_iff.mp (hperm.mem_iff.mp hr)
      obtain ⟨hmem', hties'⟩ := Diagnostic.mem_tying_iff.mp hr'
      exact eq_of_mem_quietReports (hapart hparallel hseveral) hmem hmem'
        (Std.TransCmp.eq_trans hties (Std.OrientedCmp.eq_symm hties'))
    have htrue (l : List Diagnostic) : l.Pairwise fun _ _ ↦ True :=
      List.pairwise_of_forall fun _ _ ↦ trivial
    exact hperm.eq_of_pairwise hsame (htrue _) (htrue _)
  | inOrder _ => rw [others_flatMap_analyzed]

/-- What arrives without the warnings about skipped fields is, up to its order, what else arrives
with them. -/
theorem perm_others {arrived arrived' : List Diagnostic}
    (h : c.MayArrive (s.reporting false) arrived) (h' : c.MayArrive (s.reporting true) arrived') :
    arrived.Perm (others arrived') := by
  rw [← others_of_mayArrive h]
  exact (perm_others_of_mayArrive h).trans (perm_others_of_mayArrive h').symm

end Compilation

/-! ### Whole runs -/

/-- No refusal of a unit is about a skipped field. -/
theorem RunResult.others_registerUnits {s : Settings} (classes : List ClassAnalysis) :
    others (registerUnits s classes).2 = (registerUnits s classes).2 := by
  refine Diagnostic.others_eq_self fun r hr ↦ ?_
  obtain ⟨a, -, e, rfl⟩ := exists_of_mem_refusals hr
  have hcode : (duplicateReport a e).code = .duplicateUnit := rfl
  rw [Diagnostic.isSkipWarning, hcode]
  rfl

/-- A run gives what another one gives, and says what that one says, except for the warnings about
skipped fields. -/
structure Generation.Silences (quiet loud : Generation) : Prop where
  units : quiet.result.units = loud.result.units
  classes : quiet.result.classes = loud.result.classes
  diagnostics_perm : quiet.diagnostics.Perm (others loud.diagnostics)

/-- It does so in the same order. -/
structure Generation.SilencesInOrder (quiet loud : Generation) : Prop
    extends Silences quiet loud where
  /-- The sorted reports about classes, apart from what is found wrong while reading. -/
  reports : Diagnostic.sort quiet.result.reports = others (Diagnostic.sort loud.result.reports)
  diagnostics : quiet.diagnostics = others loud.diagnostics

theorem Diagnostic.others_sort (rs : List Diagnostic) : others (sort rs) = sort (others rs) :=
  filter_sort _ rs

/-- In front of and behind reports there may be others of which none is about a skipped field. -/
theorem Diagnostic.others_sort_append {front back : List Diagnostic} (hfront : others front = front)
    (hback : others back = back) (rs : List Diagnostic) :
    others (sort (front ++ (rs ++ back))) = sort (front ++ (others rs ++ back)) := by
  rw [others_sort, others_append, others_append, hfront, hback]

/-- What is found wrong while reading is not about skipped fields. -/
theorem Sources.others_diagnostics (texts : List (String × String)) :
    others (ofTexts texts).diagnostics = (ofTexts texts).diagnostics := by
  refine Diagnostic.others_eq_self fun r hr ↦ ?_
  obtain ⟨parsed, hparsed, hr⟩ := List.mem_flatMap.mp hr
  obtain ⟨text, -, rfl⟩ := List.mem_map.mp hparsed
  exact Diagnostic.isSkipWarning_of_cites
    (Parsed.cites_of_mem_diagnostics (T := fun _ ↦ True) _ (fun _ _ ↦ trivial) hr).2

namespace Generation

variable {texts : List (String × String)} {s : Settings} {quiet loud : Generation}

/-- Whatever the files and the settings, a run that does not report skipped fields gives the units
and the analyses of one that does, and reports what that one reports, but for the skipped fields. It
reports that in the same order, if several classes are analyzed side by side as long as no two types
have their names at one place of one path. -/
theorem silences_of_yields (hquiet : (Sources.ofTexts texts).Yields (s.reporting false) quiet)
    (hloud : (Sources.ofTexts texts).Yields (s.reporting true) loud) :
    quiet.Silences loud ∧
      ((s.isParallel = true →
          1 < (Compilation.ofFiles (Sources.ofTexts texts).files).candidates.length →
            Compilation.NamesApart (Sources.ofTexts texts).files) →
              quiet.SilencesInOrder loud) := by
  obtain ⟨_, ⟨arrived, harrived, rfl⟩, rfl⟩ := hquiet
  obtain ⟨_, ⟨arrived', harrived', rfl⟩, rfl⟩ := hloud
  have hclasses : ((Compilation.ofFiles (Sources.ofTexts texts).files).analyzed
      (s.reporting false)).map Prod.fst =
      ((Compilation.ofFiles (Sources.ofTexts texts).files).analyzed
        (s.reporting true)).map Prod.fst := by
    rw [Compilation.analyzed_reporting, List.map_map]
    rfl
  have hperm := Compilation.perm_others harrived harrived'
  have hread := Sources.others_diagnostics texts
  rw [hclasses]
  generalize ((Compilation.ofFiles (Sources.ofTexts texts).files).analyzed
    (s.reporting true)).map Prod.fst = classes
  have hrefused : others (RunResult.registerUnits s classes).2 = _ :=
    RunResult.others_registerUnits classes
  have hsilent : Silences
      (.ofResult (Sources.ofTexts texts) (.ofClasses (s.reporting false) classes arrived))
      (.ofResult (Sources.ofTexts texts) (.ofClasses (s.reporting true) classes arrived')) := by
    refine ⟨rfl, rfl, (Diagnostic.sort_perm _).trans (.trans ?_ (.of_eq
      (Diagnostic.others_sort_append hread hrefused arrived').symm))⟩
    exact ((hperm.append_right _).append_left _).trans (Diagnostic.sort_perm _).symm
  refine ⟨hsilent, fun hapart ↦ ?_⟩
  -- the reports that tie with one come in the same order
  have htying (d : Diagnostic) : d.tying arrived = d.tying (others arrived') := by
    rw [← Compilation.others_of_mayArrive harrived,
      Compilation.tying_others_of_mayArrive hapart harrived,
      Compilation.tying_others_of_mayArrive hapart harrived']
  exact ⟨hsilent,
    (Diagnostic.sort_append_congr [] _ hperm htying).trans
      (Diagnostic.others_sort_append rfl hrefused arrived').symm,
    (Diagnostic.sort_append_congr _ _ hperm htying).trans
      (Diagnostic.others_sort_append hread hrefused arrived').symm⟩

/-- In files with different paths, as far as offsets reach, names are apart. -/
theorem namesApart_ofTexts (hreach : Sources.InReach texts) (hpaths : (texts.map Prod.fst).Nodup) :
    Compilation.NamesApart (Sources.ofTexts texts).files :=
  Compilation.namesApart_of_paths (Sources.nodup_nameSpans hreach)
    (Sources.map_path_files texts ▸ hpaths)

/-- Two classes, of which one is not partial, with fields that are skipped. -/
private def switchedTexts : List (String × String) :=
  [("First.cs", "interface I{}class A{[SerializeInterface]I f;[SerializeInterface]int g;}"),
    ("Second.cs", "partial class B{[SerializeInterface]I f;[SerializeInterface]int g;}")]

private theorem switched_facts :
    (Compilation.ofFiles (Sources.ofTexts switchedTexts).files).candidates = [20, 21] := by
  decide +kernel

theorem silences_of_yields_parallel :
    (Compilation.ofFiles (Sources.ofTexts switchedTexts).files).candidates = [20, 21] ∧
      ({} : Settings).isParallel = true ∧
      Compilation.NamesApart (Sources.ofTexts switchedTexts).files ∧
      (ofSources (Sources.ofTexts switchedTexts) (Settings.reporting false {})).SilencesInOrder
        (ofSources (Sources.ofTexts switchedTexts) (Settings.reporting true {})) := by
  have hapart : Compilation.NamesApart (Sources.ofTexts switchedTexts).files :=
    namesApart_ofTexts (by decide +kernel) (by decide)
  exact ⟨switched_facts, rfl, hapart, (silences_of_yields (Sources.yields_ofSources _ _)
    (Sources.yields_ofSources _ _)).2 fun _ _ ↦ hapart⟩

/-- Two files of one path, in which types around classes have their names at one place. -/
private def coveredTexts : List (String × String) :=
  [("S.cs", "struct S<T>{partial class C{[SerializeInterface]I f;}}interface I{}"),
    ("S.cs", "class  S{partial class C{[SerializeInterface]I f;}}")]

private abbrev covered : Compilation := .ofFiles (Sources.ofTexts coveredTexts).files

private theorem covered_facts :
    (Sources.ofTexts coveredTexts).diagnostics = [] ∧ covered.candidates.length = 2 ∧
      (∀ b : Bool,
        ((covered.analyzed (Settings.reporting b {})).map Prod.snd).map List.length = [1, 1] ∧
        (RunResult.registerUnits (Settings.reporting b {})
          ((covered.analyzed (Settings.reporting b {})).map Prod.fst)).2 = []) ∧
      ∃ r ∈ ((covered.analyzed (Settings.reporting false {})).map Prod.snd).flatten,
        Diagnostic.tying r
            ((covered.analyzed (Settings.reporting false {})).map Prod.snd).flatten.reverse ≠
          Diagnostic.tying r
            (others ((covered.analyzed (Settings.reporting true {})).map Prod.snd).flatten) := by
  decide +kernel

/-- In files of one path, reports that tie can arrive in different orders in the two runs. -/
theorem not_forall_silences :
    ¬ ∀ (texts : List (String × String)) (s : Settings) (quiet loud : Generation),
      (Sources.ofTexts texts).Yields (s.reporting false) quiet →
        (Sources.ofTexts texts).Yields (s.reporting true) loud → quiet.SilencesInOrder loud := by
  intro hall
  obtain ⟨hread, hcandidates, hreports, r, -, hne⟩ := covered_facts
  obtain ⟨hlengths, hrefused⟩ := hreports false
  have hrefused' := (hreports true).2
  -- the two reports arrive in the other order in the run that does not report skipped fields
  have hswapped : Interleaves ((covered.analyzed (Settings.reporting false {})).map Prod.snd)
      ((covered.analyzed (Settings.reporting false {})).map Prod.snd).flatten.reverse := by
    obtain ⟨first, rest, hlists, hfirst, hrest⟩ := List.map_eq_cons_iff.mp hlengths
    obtain ⟨second, rfl, hsecond⟩ := List.map_eq_singleton_iff.mp hrest
    obtain ⟨a, rfl⟩ := List.length_eq_one_iff.mp hfirst
    obtain ⟨b, rfl⟩ := List.length_eq_one_iff.mp hsecond
    rw [hlists]
    exact @Interleaves.take _ [[a]] [] b [] [a]
      (@Interleaves.take _ [] [[]] a [] [] (.done (by simp)))
  have hmany : 1 < covered.candidates.length := by
    rw [hcandidates]
    decide
  have harrives : covered.MayArrive (Settings.reporting false {}) _ :=
    .sideBySide rfl hmany hswapped
  have hsilent := (hall coveredTexts {} _ _ ⟨_, ⟨_, harrives, rfl⟩, rfl⟩
    (Sources.yields_ofSources _ _)).diagnostics
  simp only [ofResult, ofSources, RunResult.ofClasses, RunResult.ofCompilation, hread, hrefused,
    hrefused', List.nil_append, List.append_nil, Diagnostic.others_sort] at hsilent
  refine hne ?_
  rw [← Diagnostic.tying_sort, hsilent, Diagnostic.tying_sort, ← List.flatMap_def]

end Generation
end Companion
