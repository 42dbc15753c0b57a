import Companion.Proofs.Run.Arrival
import Companion.Proofs.Run.Displacement
import Companion.Proofs.Symbol.Nesting

/-!
The ways to write a namespace are interchangeable. However it is written that a text stands in a
namespace, the same classes are found in it, they are analyzed alike, and the same units are
generated, whatever other files there are.
-/

set_option autoImplicit false
set_option relaxedAutoImplicit false

namespace Companion

/-- The ways to write a namespace around a text: between braces behind the whole name, between the
braces of one namespace for each piece of the name, and behind the name up to the end of the file.
-/
def namespaceForms (ns : List String) (text : String) : List String :=
  [bracedText [ns] text, bracedText (ns.map fun n ↦ [n]) text, fileScopedText ns text]

namespace Parsed

variable {path text : String} {ns : List String} {source : String}

/-- Each of the forms is a way to put a text into namespaces that make up the whole name. -/
theorem CanBeBody.exists_wraps (h : CanBeBody path text) (hne : ns ≠ [])
    (hns : ∀ n ∈ ns, Token.IsIdent n) (hsource : source ∈ namespaceForms ns text)
    (hsize : Text.byteLength source.toList ≤ Span.maxOffset) :
    ∃ layers : List (List String), layers.flatten = ns ∧ layers ≠ [] ∧ (∀ l ∈ layers, l ≠ []) ∧
      Wraps path text layers source := by
  have hwhole : ∀ l ∈ [ns], l ≠ [] ∧ ∀ n ∈ l, Token.IsIdent n := by
    intro l hl
    obtain rfl := List.mem_singleton.1 hl
    exact ⟨hne, hns⟩
  have hpieces : ∀ l ∈ ns.map fun n ↦ [n], l ≠ [] ∧ ∀ n ∈ l, Token.IsIdent n := by
    intro l hl
    obtain ⟨n, hn, rfl⟩ := List.mem_map.1 hl
    exact ⟨List.cons_ne_nil _ _, fun m hm ↦ List.mem_singleton.1 hm ▸ hns n hn⟩
  rcases List.mem_cons.1 hsource with rfl | hsource
  · exact ⟨[ns], List.flatten_singleton, List.cons_ne_nil _ _, fun l hl ↦ (hwhole l hl).1,
      h.wraps_bracedText hwhole hsize⟩
  rcases List.mem_cons.1 hsource with rfl | hsource
  · exact ⟨ns.map fun n ↦ [n], (List.flatMap_def ..).symm.trans (List.flatMap_singleton' ns),
      fun hnil ↦ hne (List.map_eq_nil_iff.1 hnil), fun l hl ↦ (hpieces l hl).1,
      h.wraps_bracedText hpieces hsize⟩
  · obtain rfl := List.mem_singleton.1 hsource
    exact ⟨[ns], List.flatten_singleton, List.cons_ne_nil _ _, fun l hl ↦ (hwhole l hl).1,
      h.wraps_fileScopedText hne hns hsize⟩

end Parsed

namespace Generation

/-- Two runs give the same units, and the same analyses but for places. -/
structure Matches (g g' : Generation) : Prop where
  units : g'.result.units = g.result.units
  classes : g'.result.classes.map (ClassAnalysis.seen fun _ ↦ nowhere) =
    g.result.classes.map (ClassAnalysis.seen fun _ ↦ nowhere)

theorem Matches.symm {g g' : Generation} (h : g.Matches g') : g'.Matches g :=
  ⟨h.units.symm, h.classes.symm⟩

theorem Matches.trans {g g' g'' : Generation} (h : g.Matches g') (h' : g'.Matches g'') :
    g.Matches g'' :=
  ⟨h'.units.trans h.units, h'.classes.trans h.classes⟩

/-- All runs over the same files match. -/
theorem matches_ofSources {sources : Sources} {s : Settings} {g : Generation}
    (h : sources.Yields s g) : g.Matches (ofSources sources s) := by
  obtain ⟨r, hr, rfl⟩ := h
  exact ⟨hr.units_eq.symm, congrArg _ hr.classes_eq.symm⟩

variable {path text : String} {ns : List String}

/-- A run with a file of one of the forms is like one with the text in one namespace. -/
theorem matches_inSpace (hne : ns ≠ []) (hns : ∀ n ∈ ns, Token.IsIdent n)
    (hbody : Parsed.CanBeBody path text) {source : String}
    (hsource : source ∈ namespaceForms ns text)
    (hsize : Text.byteLength source.toList ≤ Span.maxOffset)
    (before after : List (String × String)) (s : Settings) :
    Matches (ofSources ⟨(Sources.ofTexts before).files ++
        Parsed.inSpace path text (ns.map Token.unescape) :: (Sources.ofTexts after).files, []⟩ s)
      (ofSources (Sources.ofTexts (before ++ (path, source) :: after)) s) := by
  obtain ⟨layers, rfl, hlayers, hpieces, hwraps⟩ := hbody.exists_wraps hne hns hsource hsize
  obtain ⟨n, hrelocates⟩ := hwraps.relocates hlayers hpieces hsize
  have hfiles : (Sources.ofTexts (before ++ (path, source) :: after)).files =
      (Sources.ofTexts before).files ++
        (Parsed.ofSource path source).file :: (Sources.ofTexts after).files := by
    simp only [Sources.ofTexts, List.map_append, List.map_cons]
  obtain ⟨hunits, hclasses⟩ := (hrelocates.displaces (Sources.ofTexts before).files
    (Sources.ofTexts after).files).run_eq s
  rw [ofSources, ofSources, hfiles]
  exact ⟨hunits, hclasses⟩

/-- Of a text that can stand in a namespace, all forms that offsets reach to the end of are read
without a report, and runs with any two of them among any other files give the same units, and the
same analyses but for places. -/
theorem matches_namespaceForms (hne : ns ≠ []) (hns : ∀ n ∈ ns, Token.IsIdent n)
    (hbody : Parsed.CanBeBody path text)
    (hsize : ∀ source ∈ namespaceForms ns text, Text.byteLength source.toList ≤ Span.maxOffset)
    (before after : List (String × String)) (s : Settings) :
    ∀ source ∈ namespaceForms ns text, (Parsed.ofSource path source).diagnostics = [] ∧
      ∀ source' ∈ namespaceForms ns text, ∀ g g',
        (Sources.ofTexts (before ++ (path, source) :: after)).Yields s g →
        (Sources.ofTexts (before ++ (path, source') :: after)).Yields s g' → Matches g g' := by
  intro source hsource
  refine ⟨?_, fun source' hsource' g g' hg hg' ↦ ?_⟩
  · obtain ⟨layers, -, -, -, hwraps⟩ := hbody.exists_wraps hne hns hsource (hsize _ hsource)
    obtain ⟨-, -, read, -, -, hfile⟩ := hwraps.exists_read
    rw [hfile]
  · exact (matches_ofSources hg).trans
      (((matches_inSpace hne hns hbody hsource (hsize _ hsource) before after s).symm.trans
        (matches_inSpace hne hns hbody hsource' (hsize _ hsource') before after s)).trans
          (matches_ofSources hg').symm)

private def bodyText : String :=
  "using System.Collections.Generic;interface I{}partial class C{[SerializeInterface]List<I> l;}" ++
    "\n"

private def besideTexts : List (String × String) := [("Beside.cs", "namespace N;interface J:M.I{}")]

private theorem body_facts :
    (∀ source ∈ namespaceForms ["N", "@M"] bodyText,
      Text.byteLength source.toList ≤ Span.maxOffset) ∧
    (∀ n ∈ ["N", "@M"], Token.spell n.toList = [(.ident, n)]) ∧
    ((Parsed.ofSource "C.cs" bodyText).diagnostics = [] ∧
      Item.anyFileScoped (Parsed.ofSource "C.cs" bodyText).file.items = false) ∧
    (∀ b ∈ Token.spell bodyText.toList, b ≠ (.ident, "extern")) ∧
    (ofSources (Sources.ofTexts (besideTexts ++
      [("C.cs", bracedText [["N"], ["@M"]] bodyText)])) {}).result.units.map (·.hintName) =
        ["N.M.C_g.cs"] := by
  decide +kernel

/-- A class that has its unit in a namespace of a name in two pieces, and so behind a semicolon. -/
theorem matches_namespaceForms_two :
    (Parsed.ofSource "C.cs" (fileScopedText ["N", "@M"] bodyText)).diagnostics = [] ∧
      (ofSources (Sources.ofTexts (besideTexts ++
        [("C.cs", fileScopedText ["N", "@M"] bodyText)])) {}).result.units.map (·.hintName) =
          ["N.M.C_g.cs"] := by
  obtain ⟨hsize, hidents, ⟨hquiet, hscoped⟩, hextern, hunits⟩ := body_facts
  have hbody : Parsed.CanBeBody "C.cs" bodyText :=
    ⟨hquiet, ⟨_, rfl⟩, hscoped, fun front back heq ↦ hextern (.ident, "extern")
      (heq ▸ List.mem_append_right _ List.mem_cons_self) rfl⟩
  have hpieces : bracedText [["N"], ["@M"]] bodyText ∈ namespaceForms ["N", "@M"] bodyText :=
    List.mem_cons_of_mem _ List.mem_cons_self
  have hscope : fileScopedText ["N", "@M"] bodyText ∈ namespaceForms ["N", "@M"] bodyText :=
    List.mem_cons_of_mem _ (List.mem_cons_of_mem _ List.mem_cons_self)
  obtain ⟨hread, hmatches⟩ := matches_namespaceForms (List.cons_ne_nil _ _) hidents hbody hsize
    besideTexts [] {} _ hscope
  exact ⟨hread, (hmatches _ hpieces _ _ (Sources.yields_ofSources _ _)
    (Sources.yields_ofSources _ _)).units ▸ hunits⟩

/-- Two classes of which the first one has a base with arguments, so that it is looked at. -/
private def twoText : String := "class D:B<int>{}class E<T>{}\n"

private def blankedText (n : Nat) : String := String.ofList (Text.blanks n ++ twoText.toList)

/-- What a form with this text is read as, but for the source. -/
private def blankedFile (n : Nat) (source mark tail : String) : Parsed :=
  .ofLexed "C.cs" source (Token.tokensFrom 0 (namespaceFront mark ["N"]).toList ++
    (Token.ofSource (twoText ++ tail)).map
      (.shifted (Text.byteLength (namespaceFront mark ["N"]).toList + n)))

/-- There are so many blanks that the first class starts at the last place that offsets reach, if it
stands behind a semicolon, and behind that place, if it stands between braces. Then the second class
is found in its stead. -/
private theorem blanked_facts : ∃ n,
    (Parsed.ofLexed "C.cs" "" ((Token.ofSource twoText).map (.shifted n))).diagnostics = [] ∧
    Item.anyFileScoped (Parsed.ofLexed "C.cs" ""
      ((Token.ofSource twoText).map (.shifted n))).file.items = false ∧
    ∀ form ∈ [("; ", "", []), (" \x7b ", " \x7d", ["T"])],
      (∀ d ∈ SourceFile.allDeclarations 0 [(blankedFile n "" form.1 form.2.1).file],
        (∀ level ∈ d.outside, level.usings = []) ∧ ∀ f ∈ d.decl.fields, f.allAttributes = []) ∧
      (RunResult.ofCompilation (.ofFiles [(blankedFile n "" form.1 form.2.1).file]) {}).classes.map
        ClassAnalysis.typeParams = [form.2.2] :=
  ⟨Span.maxOffset - 14, by decide +kernel⟩

/-- Where no directive and no attribute is written, the source of a file does not matter. -/
private theorem displaces_of_plain {f f' : SourceFile} (hpath : f'.path = f.path)
    (husings : f'.usings = f.usings) (hitems : f'.items = f.items)
    (hplain : ∀ d ∈ SourceFile.allDeclarations 0 [f],
      (∀ level ∈ d.outside, level.usings = []) ∧
        ∀ field ∈ d.decl.fields, field.allAttributes = []) :
    SourceFile.Displaces (fun _ ↦ id) [f] [f'] where
  paths := congrArg (fun path ↦ [path]) hpath
  declarations := by
    have hsame : f'.typeDeclarations 0 = f.typeDeclarations 0 := by
      unfold SourceFile.typeDeclarations
      rw [husings, hitems]
    rw [SourceFile.allDeclarations, hsame]
    exact ((List.map_congr_left fun d _ ↦ d.relocated_id).trans (List.map_id _)).symm
  spaces := by
    rw [List.flatMap_singleton, List.flatMap_singleton, SourceFile.spaces, SourceFile.spaces,
      husings, hitems]
  globalUsings := by rw [List.flatMap_singleton, List.flatMap_singleton, husings]
  injective _ := Function.injective_id
  usingTexts d hd level hlevel u hu := by
    rw [(hplain d hd).1 level hlevel] at hu
    cases hu
  attributeTexts d hd field hfield a ha := by
    rw [(hplain d hd).2 field hfield] at ha
    cases ha

private theorem typeParams_blanked {n : Nat} {source mark tail : String} {params : List String}
    (hapart : Token.Apart (namespaceFront mark ["N"]).toList)
    (hsource : source.toList = (namespaceFront mark ["N"]).toList ++
      (Text.blanks n ++ (twoText ++ tail).toList))
    (hfacts : (∀ d ∈ SourceFile.allDeclarations 0 [(blankedFile n "" mark tail).file],
        (∀ level ∈ d.outside, level.usings = []) ∧ ∀ f ∈ d.decl.fields, f.allAttributes = []) ∧
      (RunResult.ofCompilation (.ofFiles [(blankedFile n "" mark tail).file]) {}).classes.map
        ClassAnalysis.typeParams = [params]) :
    (ofSources (Sources.ofTexts [("C.cs", source)]) {}).result.classes.map
      ClassAnalysis.typeParams = [params] := by
  have hread : Parsed.ofSource "C.cs" source = blankedFile n source mark tail := by
    rw [Parsed.ofSource, hapart.ofSource_blanks hsource, blankedFile]
  have hfiles :
      (Sources.ofTexts [("C.cs", source)]).files = [(blankedFile n source mark tail).file] := by
    rw [← hread]
    rfl
  have hdisplaces : SourceFile.Displaces (fun _ ↦ id) [(blankedFile n "" mark tail).file]
      [(blankedFile n source mark tail).file] := displaces_of_plain rfl rfl rfl hfacts.1
  rw [ofSources, hfiles]
  exact (hdisplaces.map_classes {} ClassAnalysis.typeParams fun _ ↦ rfl).trans hfacts.2

private theorem canBeBody_blankedText {n : Nat}
    (hquiet : (Parsed.ofLexed "C.cs" ""
      ((Token.ofSource twoText).map (.shifted n))).diagnostics = [])
    (hscoped : Item.anyFileScoped (Parsed.ofLexed "C.cs" ""
      ((Token.ofSource twoText).map (.shifted n))).file.items = false) :
    Parsed.CanBeBody "C.cs" (blankedText n) := by
  have htext : (blankedText n).toList = Text.blanks n ++ twoText.toList := String.toList_ofList
  have hread : Parsed.ofSource "C.cs" (blankedText n) = .ofLexed "C.cs" (blankedText n)
      ((Token.ofSource twoText).map (.shifted n)) := by
    rw [Parsed.ofSource, Token.ofSource_blanks htext]
  have hspell : Token.spell (blankedText n).toList = Token.spell twoText.toList := by
    rw [htext, ← Token.map_bare_tokensFrom 0, Token.tokensFrom_blanks, Token.map_bare_tokensFrom]
  have hextern : ∀ b ∈ Token.spell twoText.toList, b ≠ (.ident, "extern") := by decide +kernel
  refine ⟨by rw [hread]; exact hquiet, ?_, by rw [hread]; exact hscoped, fun front back heq ↦ ?_⟩
  · refine ⟨String.ofList (Text.blanks n ++ "class D:B<int>{}class E<T>{}".toList),
      String.toList_injective ?_⟩
    rw [htext, String.toList_append, String.toList_ofList, List.append_assoc]
    rfl
  · rw [hspell] at heq
    exact hextern (.ident, "extern") (heq ▸ List.mem_append_right _ List.mem_cons_self) rfl

/-- If offsets do not reach to the end of every form, then it may matter which form is written. -/
theorem not_forall_matches_namespaceForms :
    ¬ ∀ (path text : String) (ns : List String), ns ≠ [] → (∀ n ∈ ns, Token.IsIdent n) →
      Parsed.CanBeBody path text → ∀ (before after : List (String × String)) (s : Settings),
      ∀ source ∈ namespaceForms ns text, (Parsed.ofSource path source).diagnostics = [] ∧
        ∀ source' ∈ namespaceForms ns text, ∀ g g',
          (Sources.ofTexts (before ++ (path, source) :: after)).Yields s g →
          (Sources.ofTexts (before ++ (path, source') :: after)).Yields s g' → Matches g g' := by
  intro hall
  obtain ⟨n, hquiet, hscoped, hfacts⟩ := blanked_facts
  have hident : ∀ n ∈ ["N"], Token.IsIdent n := List.forall_mem_singleton.mpr
    (show Token.spell _ = _ by decide)
  have htext : (blankedText n).toList = Text.blanks n ++ twoText.toList := String.toList_ofList
  have hscope :
      (fileScopedText ["N"] (blankedText n)).toList = (namespaceFront "; " ["N"]).toList ++
      (Text.blanks n ++ (twoText ++ "").toList) := by
    rw [fileScopedText, String.toList_append, htext, String.append_empty]
  have hbraced : (bracedText [["N"]] (blankedText n)).toList =
      (namespaceFront " \x7b " ["N"]).toList ++ (Text.blanks n ++ (twoText ++ " \x7d").toList) := by
    rw [bracedText, List.foldr_cons, List.foldr_nil, String.toList_append, String.toList_append,
      htext, String.toList_append, List.append_assoc, List.append_assoc]
  have hapart : Token.Apart (namespaceFront "; " ["N"]).toList :=
    Token.apart_namespaceFront [';'] rfl (by decide) (by decide) hident
  have hfirst := hfacts ("; ", "", []) List.mem_cons_self
  have hsecond := hfacts (" \x7b ", " \x7d", ["T"]) (List.mem_cons_of_mem _ List.mem_cons_self)
  have hnone := typeParams_blanked hapart hscope hfirst
  have hsome := typeParams_blanked (Token.apart_namespaceFront_brace hident) hbraced hsecond
  have hmatches := (hall "C.cs" (blankedText n) ["N"] (List.cons_ne_nil _ _) hident
    (canBeBody_blankedText hquiet hscoped) [] [] {} (fileScopedText ["N"] (blankedText n))
    (List.mem_cons_of_mem _ (List.mem_cons_of_mem _ List.mem_cons_self))).2
    (bracedText [["N"]] (blankedText n)) List.mem_cons_self _ _ (Sources.yields_ofSources _ _)
    (Sources.yields_ofSources _ _)
  have hseen := congrArg (List.map ClassAnalysis.typeParams) hmatches.classes
  rw [List.map_map, List.map_map, show ClassAnalysis.typeParams ∘ ClassAnalysis.seen _ =
    ClassAnalysis.typeParams from rfl, List.nil_append, List.nil_append, hsome, hnone] at hseen
  exact absurd hseen (by decide)

end Generation
end Companion
