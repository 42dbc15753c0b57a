import Companion.Proofs.Field.Serializable
import Companion.Proofs.Grammar.Citations
import Companion.Proofs.Run.Arrival
import Companion.Proofs.Run.ReportOrder
import Companion.Proofs.Symbol.Paths

/-!
Where diagnostics point. A report about a class takes the file and the place from one declaration,
that of a variable or that of a type, which need not be in the file of the class
(`Compilation.exists_pointsRight`). So in files below four gigabytes what stands at the place in the
file that a diagnostic names is the name that the diagnostic is about
(`Compilation.pointsInto_ofTexts`). Places do not reach further, so behind them a place may end
inside a character (`Compilation.not_forall_pointsInto_ofTexts`).
-/

set_option autoImplicit false
set_option relaxedAutoImplicit false

namespace Companion

/-- A diagnostic has one place, and there stands a name in the text of the file that it names. -/
def Diagnostic.Names (texts : List (String × String)) (r : Diagnostic) (n : String) : Prop :=
  ∃ path source place remark, (path, source) ∈ texts ∧ r.file = some path ∧
    r.labels = [⟨place, remark, true⟩] ∧ Cited (Token.StandsIn source) n place

namespace Compilation

/-- What the code, the message and the notes of a report about a class are about: a variable of the
class or of its base that is skipped, the class, or a type around it. -/
inductive IsAbout (c : Compilation) (s : Settings) (id : TypeId) (r : Diagnostic) : String → Prop
  | own {symbol : Symbol} {site : Site} {f : Field} {x : Declarator} {reason : SkipReason}
    (hsymbol : c.symbol? id = some symbol)
    (hskip : (site, f, x, .error reason) ∈ symbol.ownOutcomes c s)
    (hcode : reason.code = some r.code)
    (hmessage : r.message = (reason.wording x.name f.type.render (s.backingName x.name)).1) :
    IsAbout c s id r x.name
  | inherited {site : Site} {x : Declarator} {reason : SkipReason} {type : Ty}
    (hskip : (site, .skipped reason x type) ∈ c.inheritances s id)
    (hcode : reason.code = some r.code)
    (hmessage : r.message = (reason.wording x.name (c.fullName type) (s.backingName x.name)).1) :
    IsAbout c s id r x.name
  | hidden {site : Site} {x : Declarator} {owner : TypeId} {base : Ty}
    (hskip : (site, .hidden x) ∈ c.inheritances s id)
    (hbase : c.closedBase? id = some (owner, base))
    (hcode : r.code = .inheritedNotVisible)
    (hmessage : r.message = "`" ++ c.qualifiedName id ++ "` cannot assign private field `" ++ x.name
      ++ "` inherited from `" ++ c.fullName base ++ "`") :
    IsAbout c s id r x.name
  | tooDeep {grand base : Ty}
    (hcode : r.code = .inheritedTooDeep)
    (hmessage : r.message = "`" ++ c.qualifiedName id ++ "` inherits generic marker fields from `"
      ++ c.fullName grand ++ "` through `" ++ c.fullName base ++ "`") :
    IsAbout c s id r (c.nameOf id)
  | notPartial {offender : TypeId}
    (hoffender : offender ∈ id :: c.enclosing id)
    (hpartial : c.isPartialType offender = false)
    (hcode : r.code = .notPartial)
    (hmessage : r.message =
      if offender = id then
        "`" ++ c.qualifiedName id ++ "` needs a generated companion but is not declared `partial`"
      else "containing type `" ++ c.nameOf offender ++ "` of `" ++ c.qualifiedName id
        ++ "` is not declared `partial`") :
    IsAbout c s id r (c.nameOf offender)
  | handWritten {base : TypeId}
    (hcode : r.code = .handWrittenHooks)
    (hmessage : r.message = "companion of `" ++ c.qualifiedName id
      ++ "` re-implements the serialization callback of `" ++ c.qualifiedName base ++ "`") :
    IsAbout c s id r (c.nameOf id)
  | duplicate {a : ClassAnalysis} {reports : List Diagnostic}
    (hanalyze : c.analyze s id = some (a, reports))
    (hcode : r.code = .duplicateUnit)
    (hnotes : r.notes = ["no companion is generated for `" ++ a.qualifiedName ++ "`"]) :
    IsAbout c s id r (c.nameOf id)

/-- The compilation of the files with some texts. -/
abbrev ofTexts (texts : List (String × String)) : Compilation :=
  ofFiles (Sources.ofTexts texts).files

/-- A report is about something, and stands at its name. -/
def PointsRight (texts : List (String × String)) (s : Settings) (id : TypeId) (r : Diagnostic) :
    Prop :=
  ∃ n, (ofTexts texts).IsAbout s id r n ∧ r.Names texts n

variable {texts : List (String × String)} {s : Settings} {id : TypeId} {symbol : Symbol}
  {site : Site} {r : Diagnostic}

section Reach

variable (hreach : Sources.InReach texts)
include hreach

/-! ### Declarations and their texts -/

/-- The names of a declaration stand in the text of the file that declares it. -/
theorem cited_of_mem_sites (hsymbol : (ofTexts texts).symbol? id = some symbol)
    (hsite : site ∈ symbol.sites) : ∃ source, ((ofTexts texts).path site.file, source) ∈ texts ∧
      site.decl.Cited (Token.StandsIn source) := by
  obtain ⟨f, hfile, hdecl⟩ := exists_site_iff.mpr ⟨id, symbol, hsymbol, site, hsite, rfl, rfl⟩
  obtain ⟨path, source, htext, rfl⟩ := Sources.getElem?_files hfile
  have hpath : (ofTexts texts).path site.file = path := by
    show (((Sources.ofTexts texts).files[site.file]?).map (·.path)).getD "" = path
    rw [hfile]
    rfl
  have htokens := Token.all_standsIn (hreach _ (List.mem_of_getElem? htext))
  have hcited := Parsed.cited_of_mem_allTypes path htokens hdecl
  exact ⟨source, hpath ▸ List.mem_of_getElem? htext, hcited⟩

theorem names_declarator (hsymbol : (ofTexts texts).symbol? id = some symbol)
    (hsite : site ∈ symbol.sites) {f : Field} (hf : f ∈ site.markedFields s) {x : Declarator}
    (hx : x ∈ f.declarators) {remark : String}
    (hfile : r.file = some ((ofTexts texts).path site.file))
    (hlabels : r.labels = [⟨x.nameSpan, remark, true⟩]) : r.Names texts x.name := by
  obtain ⟨source, htext, hcited⟩ := cited_of_mem_sites hreach hsymbol hsite
  exact ⟨_, source, _, remark, htext, hfile, hlabels,
    hcited.declarators f (List.mem_of_mem_filter hf) x hx⟩

theorem names_type (hsymbol : (ofTexts texts).symbol? id = some symbol)
    (hsite : site ∈ symbol.sites)
    {remark : String} (hfile : r.file = some ((ofTexts texts).path site.file))
    (hlabels : r.labels = [⟨site.decl.header.nameSpan, remark, true⟩]) :
    r.Names texts ((ofTexts texts).nameOf id) := by
  obtain ⟨source, htext, hcited⟩ := cited_of_mem_sites hreach hsymbol hsite
  have hname : (ofTexts texts).nameOf id = site.decl.header.name := by
    rw [nameOf, hsymbol, name_of_mem_sites hsymbol hsite]
    rfl
  exact ⟨_, source, _, remark, htext, hfile, hlabels, hname ▸ hcited.name⟩

/-! ### Reports about fields -/

theorem pointsRight_of_ownReports (hsymbol : (ofTexts texts).symbol? id = some symbol)
    (h : r ∈ symbol.ownReports (ofTexts texts) s) : PointsRight texts s id r := by
  obtain ⟨site, f, x, reason, hmem, hr⟩ := exists_reason_of_mem_ownReports h
  obtain ⟨hsite, hf, hx, -⟩ := mem_ownOutcomes_iff.mp hmem
  obtain ⟨code, hcode, rfl⟩ := SkipReason.eq_of_diagnostic hr
  exact ⟨x.name, .own hsymbol hmem hcode rfl, names_declarator hreach hsymbol hsite hf hx rfl rfl⟩

/-- What becomes of an inherited variable is reported at the variable, in the file of the base. -/
theorem pointsRight_of_inheritanceReport {i : Inheritance}
    (hmem : (site, i) ∈ (ofTexts texts).inheritances s id)
    (h : (ofTexts texts).inheritanceReport s id site i = some r) : PointsRight texts s id r := by
  cases hclosed : (ofTexts texts).closedBase? id with
  | none =>
    rw [inheritances, hclosed] at hmem
    cases hmem
  | some closed =>
    obtain ⟨owner, base⟩ := closed
    obtain ⟨f, hf, x, hx, hi⟩ := (mem_inheritances_iff hclosed).mp hmem
    cases howner : (ofTexts texts).symbol? owner with
    | none =>
      rw [openFields, howner] at hf
      cases hf
    | some above =>
      obtain ⟨hsite, hmarked, -⟩ := (mem_openFields_iff howner).mp hf
      rcases inherit_cases (ofTexts texts) s base site f x with hhidden | ⟨field, hkept, -⟩ |
        ⟨reason, hskipped, -⟩
      · obtain rfl := hi.symm.trans hhidden
        obtain rfl := Option.some.inj h
        refine ⟨x.name, .hidden hmem hclosed rfl ?_,
          names_declarator hreach howner hsite hmarked hx rfl rfl⟩
        rw [hclosed]
        rfl
      · obtain rfl := hi.symm.trans hkept
        cases h
      · obtain rfl := hi.symm.trans hskipped
        obtain ⟨code, hcode, rfl⟩ := SkipReason.eq_of_diagnostic h
        exact ⟨x.name, .inherited hmem hcode rfl,
          names_declarator hreach howner hsite hmarked hx rfl rfl⟩

/-! ### Reports about types -/

theorem pointsRight_of_tooDeepReport (h : (ofTexts texts).tooDeepReport s id = some r) :
    PointsRight texts s id r := by
  simp only [tooDeepReport, Option.bind_eq_bind, Option.bind_eq_some_iff] at h
  obtain ⟨⟨owner, base⟩, -, grand, -, grandId, -, symbol, hsymbol, site, hsite, hr⟩ := h
  split at hr
  · obtain rfl := Option.some.inj hr
    exact ⟨_, .tooDeep rfl rfl, names_type hreach hsymbol (List.mem_of_head? hsite) rfl rfl⟩
  · cases hr

/-- The type that is not partial is the class or one around it. -/
theorem pointsRight_of_notPartialReport (h : (ofTexts texts).notPartialReport id = some r) :
    PointsRight texts s id r := by
  simp only [notPartialReport, Option.bind_eq_bind, Option.bind_eq_some_iff] at h
  obtain ⟨offender, hfind, symbol, hsymbol, site, hfound, hr⟩ := h
  have hsite : site ∈ symbol.sites := by
    rcases Option.or_eq_some_iff.mp hfound with hfirst | ⟨-, hhead⟩
    · exact List.mem_of_find?_eq_some hfirst
    · exact List.mem_of_head? hhead
  have hmem : offender ∈ id :: (ofTexts texts).enclosing id := by
    rcases List.mem_cons.mp (List.mem_of_find?_eq_some hfind) with rfl | haround
    · exact List.mem_cons_self
    · exact List.mem_cons_of_mem id (List.mem_reverse.mp haround)
  have hpartial : (ofTexts texts).isPartialType offender = false := by
    simpa using List.find?_some hfind
  have hname : (ofTexts texts).nameOf offender = symbol.name := by
    rw [nameOf, hsymbol]
    rfl
  obtain rfl := Option.some.inj hr
  refine ⟨_, .notPartial hmem hpartial rfl ?_, names_type hreach hsymbol hsite rfl rfl⟩
  rw [hname]
  rfl

theorem pointsRight_of_handWrittenReport (h : (ofTexts texts).handWrittenReport s id = some r) :
    PointsRight texts s id r := by
  rw [handWrittenReport] at h
  split at h
  · rename_i base site rest habove hsites
    cases hsymbol : (ofTexts texts).symbol? id with
    | none =>
      rw [hsymbol] at hsites
      cases hsites
    | some symbol =>
      rw [hsymbol] at hsites
      have hsite : site ∈ symbol.sites := by
        rw [show symbol.sites = site :: rest from hsites]
        exact List.mem_cons_self
      obtain rfl := Option.some.inj h
      exact ⟨_, .handWritten rfl rfl, names_type hreach hsymbol hsite rfl rfl⟩
  · cases h

/-- A unit is refused at the first declaration of its class. -/
theorem pointsRight_of_duplicateReport {a : ClassAnalysis} {reports : List Diagnostic}
    (ha : (ofTexts texts).analyze s id = some (a, reports)) (hid : id ∈ (ofTexts texts).candidates)
    (e : Registry.RegisterError) : PointsRight texts s id (RunResult.duplicateReport a e) := by
  obtain ⟨symbol, hsymbol, hdeclared⟩ := exists_symbol_of_mem_candidates hid
  obtain ⟨site, rest, hsites⟩ := List.exists_cons_of_ne_nil hdeclared
  have hsite : site ∈ symbol.sites := hsites ▸ List.mem_cons_self
  have hanalysis := (eq_of_analyze hsymbol ha).1
  have hfile : a.file = (ofTexts texts).path site.file := by
    rw [hanalysis, analysisOf, hsites]
    rfl
  have hspan : a.span = site.decl.header.nameSpan := by
    rw [hanalysis, analysisOf, hsites]
    rfl
  exact ⟨_, .duplicate ha rfl rfl, names_type hreach hsymbol hsite (congrArg some hfile)
    (congrArg (fun place ↦ [Label.mk place _ true]) hspan)⟩

/-! ### Runs -/

theorem pointsRight_of_mem_reports {a : ClassAnalysis} {reports : List Diagnostic}
    (ha : (ofTexts texts).analyze s id = some (a, reports)) (hr : r ∈ reports) :
    PointsRight texts s id r := by
  obtain ⟨symbol, hsymbol, -⟩ := Option.map_eq_some_iff.mp ha
  rcases reports_cases hsymbol ha hr with hown | hinherited | hpartial | hhooks
  · exact pointsRight_of_ownReports hreach hsymbol hown
  · rcases inheritedReports_cases hinherited with ⟨site, i, hmem, hreport⟩ | hdeep
    · exact pointsRight_of_inheritanceReport hreach hmem hreport
    · exact pointsRight_of_tooDeepReport hreach hdeep
  · exact pointsRight_of_notPartialReport hreach hpartial
  · exact pointsRight_of_handWrittenReport hreach hhooks

/-- Every report of a run is made for a candidate. -/
theorem exists_pointsRight {run : RunResult} (hrun : (ofTexts texts).Yields s run)
    (h : r ∈ run.reports) : ∃ id ∈ (ofTexts texts).candidates, PointsRight texts s id r := by
  rcases List.mem_append.mp (hrun.reports_perm.mem_iff.mp h) with h | h
  · obtain ⟨⟨a, reports⟩, hmem, hr⟩ := List.mem_flatMap.mp h
    obtain ⟨id, hid, ha⟩ := List.mem_filterMap.mp hmem
    exact ⟨id, hid, pointsRight_of_mem_reports hreach ha hr⟩
  · obtain ⟨a, hmem, e, rfl⟩ := RunResult.exists_of_mem_refusals h
    obtain ⟨⟨a, reports⟩, hanalyzed, rfl⟩ := List.mem_map.mp hmem
    obtain ⟨id, hid, ha⟩ := List.mem_filterMap.mp hanalyzed
    exact ⟨id, hid, pointsRight_of_duplicateReport hreach ha hid e⟩

/-! ### Files that go by different paths -/

/-- All labels of a diagnostic lie in a source, with both ends between characters; and if it is not
about what is read but about what is generated, its main place shows a name there, with an escape or
without, and the diagnostic is about what has that name. -/
structure PointsInto (texts : List (String × String)) (s : Settings) (source : String)
    (d : Diagnostic) : Prop where
  labels : ∀ l ∈ d.labels, l.span.Fits source.toList
  primary : 2000 ≤ d.code.number → ∃ id ∈ (ofTexts texts).candidates, ∃ n,
    (ofTexts texts).IsAbout s id d n ∧
      ∃ place, d.primarySpan = some place ∧ Token.unescape (place.text source) = n

omit hreach in
theorem PointsRight.pointsInto (h : PointsRight texts s id r)
    (hid : id ∈ (ofTexts texts).candidates) :
    ∃ text ∈ texts, r.file = some text.1 ∧ PointsInto texts s text.2 r := by
  obtain ⟨n, habout, path, source, place, remark, htext, hfile, hlabels, hcited⟩ := h
  refine ⟨(path, source), htext, hfile, ?_, fun _ ↦ ⟨id, hid, n, habout, place, ?_, ?_⟩⟩
  · rw [hlabels]
    exact List.forall_mem_singleton.mpr hcited.fits
  · rw [Diagnostic.primarySpan, hlabels]
    rfl
  · exact hcited.unescape_text

/-- What is found wrong while reading points into the source that is read. -/
theorem pointsInto_of_mem_diagnostics (h : r ∈ (Sources.ofTexts texts).diagnostics) :
    ∃ text ∈ texts, r.file = some text.1 ∧ PointsInto texts s text.2 r := by
  obtain ⟨parsed, hparsed, hr⟩ := List.mem_flatMap.mp h
  obtain ⟨text, htext, rfl⟩ := List.mem_map.mp hparsed
  obtain ⟨hfile, hcites⟩ :=
    Parsed.cites_of_mem_diagnostics _ (Token.all_standsIn (hreach _ htext)) hr
  refine ⟨text, htext, hfile, fun l hl ↦ ?_, fun hcode ↦ absurd hcites.code (Nat.not_lt.mpr hcode)⟩
  obtain ⟨t, ht, hspan⟩ := hcites.labels l hl
  exact hspan ▸ ht.fits

/-- In files with different paths, as far as offsets reach, every diagnostic of a run is about one
of the files, and points into the text of that one: all its labels lie there, and what stands at the
main place of a report about a class is the name of the variable or the type that the report is
about, also when that is declared in another file than the class. -/
theorem pointsInto_ofTexts (hpaths : (texts.map Prod.fst).Nodup) {g : Generation}
    (hrun : (Sources.ofTexts texts).Yields s g) :
    ∀ d ∈ g.diagnostics, (∃ text ∈ texts, d.file = some text.1) ∧
      ∀ text ∈ texts, d.file = some text.1 → PointsInto texts s text.2 d := by
  obtain ⟨run, hrun, rfl⟩ := hrun
  intro d hd
  have hpoints : ∃ text ∈ texts, d.file = some text.1 ∧ PointsInto texts s text.2 d := by
    rcases List.mem_append.mp ((Diagnostic.sort_perm _).mem_iff.mp hd) with hread | hreport
    · exact pointsInto_of_mem_diagnostics hreach hread
    · obtain ⟨id, hid, hright⟩ := exists_pointsRight hreach hrun hreport
      exact hright.pointsInto hid
  obtain ⟨text, htext, hfile, hinto⟩ := hpoints
  refine ⟨⟨text, htext, hfile⟩, fun text' htext' hfile' ↦ ?_⟩
  have hpath : text.1 = text'.1 := Option.some.inj (hfile.symm.trans hfile')
  have hsame : text = text' := List.inj_on_of_nodup_map hpaths htext htext' hpath
  exact hsame ▸ hinto

end Reach

/-- A base with a private variable, whose name is escaped where it is declared. -/
private def hiddenSource : String := "interface I{}class B<T>{[SerializeInterface]T @f;}"

/-- The class that cannot assign the variable is in another file. -/
private def pointedTexts : List (String × String) :=
  [("Base.cs", hiddenSource), ("Derived.cs", "class C:B<I>{}")]

private theorem pointed_facts : ∃ d ∈ (RunResult.ofCompilation (ofTexts pointedTexts) {}).reports,
    d.code = .inheritedNotVisible ∧ d.file = some "Base.cs" ∧
      d.primarySpan.map (·.text hiddenSource) = some "@f" := by
  decide +kernel

theorem pointsInto_ofTexts_hidden : Sources.InReach pointedTexts ∧
    (pointedTexts.map Prod.fst).Nodup ∧
    ∃ d ∈ (Generation.ofSources (Sources.ofTexts pointedTexts) {}).diagnostics,
      d.code = .inheritedNotVisible ∧ d.file = some "Base.cs" ∧
        d.primarySpan.map (·.text hiddenSource) = some "@f" ∧
        PointsInto pointedTexts {} hiddenSource d := by
  obtain ⟨d, hd, hcode, hfile, hshown⟩ := pointed_facts
  have hreach : Sources.InReach pointedTexts := by decide +kernel
  have hpaths : (pointedTexts.map Prod.fst).Nodup := by decide
  have hreported : d ∈ (Generation.ofSources (Sources.ofTexts pointedTexts) {}).diagnostics :=
    (Diagnostic.sort_perm _).mem_iff.mpr (List.mem_append_right _ hd)
  have hinto := pointsInto_ofTexts hreach hpaths (Sources.yields_ofSources _ {}) d hreported
  exact ⟨hreach, hpaths, d, hreported, hcode, hfile, hshown,
    hinto.2 _ List.mem_cons_self hfile⟩

/-- A letter of two bytes, of which offsets reach the first only. What is found wrong in a text does
not depend on the text but on its tokens. -/
private def farDiagnostics (source : String) : List Diagnostic :=
  (Parsed.ofLexed "Far.cs" source
    ((Token.ofSource "\u00e9").map (.shifted (Span.maxOffset - 1)))).diagnostics

private theorem farDiagnostics_facts : ∃ d ∈ farDiagnostics "", d.file = some "Far.cs" ∧
    ∃ l ∈ d.labels, l.span = ⟨Span.maxOffset - 1, Span.maxOffset⟩ := by
  decide +kernel

private theorem not_isCut_letter (n : Nat) :
    ¬ Text.IsCut (Text.blanks n ++ ['\u00e9']) (n + 1) := by
  rintro ⟨front, back, heq, hlength⟩
  have hfront : front <+: Text.blanks n ++ ['\u00e9'] := ⟨back, heq.symm⟩
  rcases List.prefix_concat_iff.mp hfront with rfl | hblanks
  · rw [Text.byteLength_append, Text.byteLength_blanks] at hlength
    exact absurd (Nat.add_left_cancel hlength) (by decide)
  · obtain ⟨more, hmore⟩ := hblanks
    have hle := congrArg Text.byteLength hmore
    rw [Text.byteLength_append, Text.byteLength_blanks] at hle
    omega

/-- Behind what offsets reach, a label need not end between characters. -/
theorem not_forall_pointsInto_ofTexts :
    ¬ ∀ (texts : List (String × String)) (s : Settings) (g : Generation),
      (texts.map Prod.fst).Nodup → (Sources.ofTexts texts).Yields s g →
        ∀ d ∈ g.diagnostics, (∃ text ∈ texts, d.file = some text.1) ∧
          ∀ text ∈ texts, d.file = some text.1 → PointsInto texts s text.2 d := by
  intro hall
  obtain ⟨d, hd, hfile, l, hl, hspan⟩ := farDiagnostics_facts
  obtain ⟨n, hn⟩ : ∃ n, n = Span.maxOffset - 1 := ⟨_, rfl⟩
  obtain ⟨source, hsource⟩ : ∃ source : String,
      source.toList = Text.blanks n ++ "\u00e9".toList :=
    ⟨String.ofList _, String.toList_ofList⟩
  have hread : (Parsed.ofSource "Far.cs" source).diagnostics = farDiagnostics "" := by
    rw [Parsed.ofSource, Token.ofSource_blanks hsource, hn]
    rfl
  have hreported :
      d ∈ (Generation.ofSources (Sources.ofTexts [("Far.cs", source)]) {}).diagnostics := by
    refine (Diagnostic.sort_perm _).mem_iff.mpr (List.mem_append_left _ ?_)
    refine List.mem_flatMap.mpr ⟨_, List.mem_singleton_self _, ?_⟩
    rw [hread]
    exact hd
  have hinto := (hall [("Far.cs", source)] {} _ (List.nodup_singleton _)
    (Sources.yields_ofSources _ {}) d hreported).2 _ List.mem_cons_self hfile
  have hcut := (hinto.labels l hl).stop_cut
  rw [hspan, hsource] at hcut
  refine not_isCut_letter n ?_
  rwa [hn, Nat.sub_add_cancel (by decide), ← hn]

end Compilation
end Companion
