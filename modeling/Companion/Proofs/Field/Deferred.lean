import Companion.Proofs.Field.Outcome

/-!
Fields whose types are left to derived classes (`Compilation.Deferred`). The type of a marked field
may mention parameters of the class that declares it; link by link, derived classes give the
parameters values, until a class settles the type. If that class is derived from the declaring class
directly, every variable of the field gets a backing field there or is reported
(`Compilation.accounts_of_direct`). If there are generic classes in between, only what the base of
the direct base is and declares decides about a report, and nothing else stands for the field
(`Compilation.accounts_of_settled`); so with two classes in between there may be neither
(`Compilation.not_forall_accounts`).
-/

set_option autoImplicit false
set_option relaxedAutoImplicit false

namespace Companion

/-- A diagnostic points at a place in a file. -/
def Diagnostic.PointsAt (r : Diagnostic) (path : String) (place : Span) : Prop :=
  r.file = some path ∧ r.primarySpan = some place

/-- A skip that is reported is reported as a warning at the name of the variable. -/
theorem SkipReason.pointsAt_of_diagnostic {reason : SkipReason} {file type backing : String}
    {d : Declarator} {r : Diagnostic} (h : reason.diagnostic file d type backing = some r) :
    reason.code = some r.code ∧ r.isWarning = true ∧ r.PointsAt file d.nameSpan := by
  obtain ⟨code, hcode, hr⟩ := Option.map_eq_some_iff.mp h
  subst hr
  rw [hcode]
  dsimp only
  split <;> exact ⟨rfl, rfl, rfl, rfl⟩

theorem SkipReason.code_ne_inheritedTooDeep (reason : SkipReason) :
    reason.code ≠ some .inheritedTooDeep := by
  cases reason <;> decide

namespace Compilation

variable {c : Compilation} {s : Settings} {id owner below : TypeId}

/-! ### Settling a type -/

/-- The type that a field of `owner` has as seen from a class below it, so long as a type parameter
occurs in it: each link gives the parameters of the base the values that are written there. -/
inductive Deferred (c : Compilation) (owner : TypeId) (declared : Ty) : TypeId → Ty → Prop
  | declared (h : declared.hasParam = true) : Deferred c owner declared owner declared
  | link {id above : TypeId} {base ty : Ty} (habove : Deferred c owner declared above ty)
      (hbase : c.base? id = some base) (hid : base.id? = some above)
      (hopen : (c.substituteBase base ty).hasParam = true) :
      Deferred c owner declared id (c.substituteBase base ty)

/-- The base of a class inherits marked fields whose types stay open there. -/
def InheritsTooDeep (c : Compilation) (s : Settings) (id : TypeId) : Prop :=
  ∃ grand grandId, c.base? id = some grand ∧ grand.id? = some grandId ∧
    grand.mentionsParamsOf id = true ∧ c.openFields s grandId ≠ []

/-- A variable of an inherited field does not go unnoticed in a class: it has a backing field there,
or a warning points at it, or at the class. -/
def Accounts (c : Compilation) (s : Settings) (id : TypeId) (site : Site) (d : Declarator)
    (reports : List Diagnostic) : Prop :=
  (∃ field ∈ c.inheritedFields s id, (site, .kept field) ∈ c.inheritances s id ∧
    field.shape.fieldName = d.name ∧ field.shape.span = d.nameSpan) ∨
  (∃ r ∈ reports, r.isWarning = true ∧ r.code ∈ Diagnostic.Code.aboutInherited ∧
    r.PointsAt (c.path site.file) d.nameSpan) ∨
  ∃ r ∈ reports, r.isWarning = true ∧ r.code = .inheritedTooDeep ∧
    ∃ symbol here, c.symbol? id = some symbol ∧ symbol.sites.head? = some here ∧
      r.PointsAt (c.path here.file) here.decl.header.nameSpan

theorem Deferred.eq_or_isBelow {declared ty : Ty} (h : c.Deferred owner declared below ty) :
    below = owner ∨ c.IsBelow below owner := by
  induction h with
  | declared => exact .inl rfl
  | link _ hbase hid _ ih =>
    have hstep := derivesFrom_of_base? hbase hid
    rcases ih with rfl | hbelow
    · exact .inr (.single hstep)
    · exact .inr (.head hstep hbelow)

/-- At the declaring class a field has the declared type. -/
theorem Deferred.eq_declared (hacyclic : c.AcyclicBases) {declared ty : Ty}
    (h : c.Deferred owner declared owner ty) : ty = declared := by
  cases h with
  | declared => rfl
  | link habove hbase hid _ =>
    have hstep := derivesFrom_of_base? hbase hid
    rcases habove.eq_or_isBelow with rfl | hbelow
    · exact absurd (.single hstep) (hacyclic _)
    · exact absurd (.head hstep hbelow) (hacyclic _)

/-! ### What a class reports -/

/-- A variable that is inherited from the direct base with a settled type has a backing field or is
reported. -/
theorem accounts_of_direct {base : Ty} {site : Site} {f : Field} {d : Declarator}
    {reports : List Diagnostic} (hclosed : c.closedBase? id = some (owner, base))
    (hf : (site, f) ∈ c.openFields s owner) (hd : d ∈ f.declarators)
    (hsettled : (c.substituteBase base (site.fieldType c f)).hasParam = false)
    (hreports : ∀ i, (site, i) ∈ c.inheritances s id →
      ∀ r, c.inheritanceReport s id site i = some r → r ∈ reports) :
    c.Accounts s id site d reports := by
  have hmem : (site, c.inherit s base site f d) ∈ c.inheritances s id :=
    (mem_inheritances_iff hclosed).mpr ⟨f, hf, d, hd, rfl⟩
  rcases inherit_cases c s base site f d with hhidden | ⟨field, hkept, hshape⟩ |
    ⟨reason, hskipped, hreason⟩
  · rw [hhidden] at hmem
    have hcode : Diagnostic.Code.inheritedNotVisible ∈ Diagnostic.Code.aboutInherited := by decide
    exact .inr (.inl ⟨_, hreports _ hmem _ rfl, rfl, hcode, rfl, rfl⟩)
  · rw [hkept] at hmem
    obtain ⟨hname, hspan⟩ := shape_of_classify hshape
    exact .inl ⟨field, List.mem_filterMap.mpr ⟨_, hmem, rfl⟩, hmem, hname, hspan⟩
  · rw [hskipped] at hmem
    obtain ⟨code, hcode, hsome⟩ := code_of_classify hsettled hreason
    obtain ⟨r, hr⟩ : ∃ r, c.inheritanceReport s id site
        (.skipped reason d (c.substituteBase base (site.fieldType c f))) = some r := by
      rw [inheritanceReport, SkipReason.diagnostic, hsome]
      exact ⟨_, rfl⟩
    obtain ⟨hrcode, hwarning, hpoints⟩ := SkipReason.pointsAt_of_diagnostic hr
    obtain rfl := Option.some.inj (hsome.symm.trans hrcode)
    exact .inr (.inl ⟨r, hreports _ hmem r hr, hwarning, hcode, hpoints⟩)

/-- The report about fields that stay open in the base stands at the class, if there is one. -/
theorem tooDeepReport_of_inheritsTooDeep {base : Ty} {symbol : Symbol} {here : Site}
    (hclosed : c.closedBase? id = some (below, base)) (hsymbol : c.symbol? id = some symbol)
    (hhere : symbol.sites.head? = some here) (h : c.InheritsTooDeep s below) :
    ∃ r, c.tooDeepReport s id = some r ∧ r.isWarning = true ∧ r.code = .inheritedTooDeep ∧
      r.PointsAt (c.path here.file) here.decl.header.nameSpan := by
  obtain ⟨grand, grandId, hgrand, hgrandId, hmentions, hopen⟩ := h
  have hreported : (grand.mentionsParamsOf below && !(c.openFields s grandId).isEmpty) = true := by
    simp [hmentions, hopen]
  simp only [tooDeepReport, hclosed, hgrand, hgrandId, hsymbol, hhere, Option.bind_eq_bind,
    Option.bind_some, hreported, ↓reduceIte]
  exact ⟨_, rfl, rfl, rfl, rfl, rfl⟩

theorem inheritsTooDeep_of_tooDeepReport {base : Ty} {r : Diagnostic}
    (hclosed : c.closedBase? id = some (below, base)) (h : c.tooDeepReport s id = some r) :
    c.InheritsTooDeep s below ∧ r.code = .inheritedTooDeep := by
  simp only [tooDeepReport, hclosed, Option.bind_eq_bind, Option.bind_some,
    Option.bind_eq_some_iff] at h
  obtain ⟨grand, hgrand, grandId, hgrandId, symbol, -, here, -, hr⟩ := h
  split at hr
  · rename_i hreported
    simp only [Bool.and_eq_true, Bool.not_eq_true', List.isEmpty_eq_false_iff] at hreported
    obtain rfl := Option.some.inj hr
    exact ⟨⟨grand, grandId, hgrand, hgrandId, hreported.1, hreported.2⟩, rfl⟩
  · cases hr

theorem code_of_tooDeepReport {r : Diagnostic} (h : c.tooDeepReport s id = some r) :
    r.code = .inheritedTooDeep := by
  cases hclosed : c.closedBase? id with
  | none =>
    rw [tooDeepReport, hclosed] at h
    cases h
  | some closed => exact (inheritsTooDeep_of_tooDeepReport hclosed h).2

theorem code_of_notPartialReport {r : Diagnostic} (h : c.notPartialReport id = some r) :
    r.code = .notPartial := by
  simp only [notPartialReport, Option.bind_eq_bind, Option.bind_eq_some_iff] at h
  obtain ⟨_, -, _, -, _, -, hr⟩ := h
  obtain rfl := Option.some.inj hr
  rfl

theorem code_of_handWrittenReport {r : Diagnostic} (h : c.handWrittenReport s id = some r) :
    r.code = .handWrittenHooks := by
  rw [handWrittenReport] at h
  split at h
  · obtain rfl := Option.some.inj h
    rfl
  · cases h

/-! ### What is reported about a class -/

/-- What is reported about a type's own fields says why one of their variables has no shape. -/
theorem exists_reason_of_mem_ownReports {symbol : Symbol} {r : Diagnostic}
    (h : r ∈ symbol.ownReports c s) :
    ∃ site f d reason, (site, f, d, .error reason) ∈ symbol.ownOutcomes c s ∧
      reason.diagnostic (c.path site.file) d f.type.render (s.backingName d.name) = some r := by
  rw [Symbol.ownReports] at h
  split at h
  · obtain ⟨⟨site, f, d, outcome⟩, hmem, hr⟩ := List.mem_filterMap.mp h
    cases outcome with
    | ok shape => cases hr
    | error reason => exact ⟨site, f, d, reason, hmem, hr⟩
  · cases h

/-- What is reported about inherited fields is about one of them, or about all fields that stay open
in the base. -/
theorem inheritedReports_cases {r : Diagnostic} (h : r ∈ c.inheritedReports s id) :
    (∃ site i, (site, i) ∈ c.inheritances s id ∧ c.inheritanceReport s id site i = some r) ∨
      c.tooDeepReport s id = some r := by
  rcases List.mem_append.mp h with hskips | hdeep
  · split at hskips
    · obtain ⟨⟨site, i⟩, hmem, hr⟩ := List.mem_filterMap.mp hskips
      exact .inl ⟨site, i, hmem, hr⟩
    · cases hskips
  · exact .inr (Option.mem_toList.mp hdeep)

/-- Everything that is reported about a class. -/
theorem reports_cases {a : ClassAnalysis} {reports : List Diagnostic} {symbol : Symbol}
    (hsymbol : c.symbol? id = some symbol) (ha : c.analyze s id = some (a, reports))
    {r : Diagnostic} (hr : r ∈ reports) :
    r ∈ symbol.ownReports c s ∨ r ∈ c.inheritedReports s id ∨
      c.notPartialReport id = some r ∨ c.handWrittenReport s id = some r := by
  rw [analyze, hsymbol] at ha
  obtain ⟨-, rfl⟩ := Prod.mk.inj (Option.some.inj ha)
  simp only [List.mem_append] at hr
  rcases hr with ((hown | hinherited) | hpartial) | hhooks
  · exact .inl hown
  · exact .inr (.inl hinherited)
  · split at hpartial
    · exact .inr (.inr (.inl (Option.mem_toList.mp hpartial)))
    · cases hpartial
  · split at hhooks
    · exact .inr (.inr (.inr (Option.mem_toList.mp hhooks)))
    · cases hhooks

/-! ### Reports and the variables they point at -/

/-- A report points at a variable of a type's own fields, and is not about deep inheritance. -/
def ConcernsFieldOf (c : Compilation) (symbol : Symbol) (r : Diagnostic) : Prop :=
  r.code ≠ .inheritedTooDeep ∧ ∃ site ∈ symbol.sites, ∃ place,
    place.start ∈ site.decl.fieldStarts ∧ r.PointsAt (c.path site.file) place

theorem concernsFieldOf_of_ownReports {symbol : Symbol} {r : Diagnostic}
    (h : r ∈ symbol.ownReports c s) : c.ConcernsFieldOf symbol r := by
  obtain ⟨site, f, d, reason, hmem, hr⟩ := exists_reason_of_mem_ownReports h
  obtain ⟨hsite, hf, hd, -⟩ := mem_ownOutcomes_iff.mp hmem
  obtain ⟨hcode, -, hpoints⟩ := SkipReason.pointsAt_of_diagnostic hr
  exact ⟨fun hdeep ↦ reason.code_ne_inheritedTooDeep (hdeep ▸ hcode), site, hsite, _,
    mem_fieldStarts hf hd, hpoints⟩

theorem concernsFieldOf_of_inheritanceReport {base : Ty} {symbol : Symbol} {site : Site}
    {i : Inheritance} {r : Diagnostic} (hclosed : c.closedBase? id = some (below, base))
    (hsymbol : c.symbol? below = some symbol) (hi : (site, i) ∈ c.inheritances s id)
    (h : c.inheritanceReport s id site i = some r) : c.ConcernsFieldOf symbol r := by
  obtain ⟨f, hf, d, hd, rfl⟩ := (mem_inheritances_iff hclosed).mp hi
  obtain ⟨hsite, hmarked, -⟩ := (mem_openFields_iff hsymbol).mp hf
  have hplace := mem_fieldStarts hmarked hd
  rcases inherit_cases c s base site f d with hhidden | ⟨field, hkept, -⟩ | ⟨reason, hskipped, -⟩
  · rw [hhidden] at h
    obtain rfl := Option.some.inj h
    exact ⟨by simp [Diagnostic.warning, Diagnostic.inFile, Diagnostic.withSuggestion], site,
      hsite, _, hplace, rfl, rfl⟩
  · rw [hkept] at h
    cases h
  · rw [hskipped] at h
    obtain ⟨hcode, -, hpoints⟩ := SkipReason.pointsAt_of_diagnostic h
    exact ⟨fun hdeep ↦ reason.code_ne_inheritedTooDeep (hdeep ▸ hcode), site, hsite, _, hplace,
      hpoints⟩

/-- Everything that is reported about a class that settles a generic base. -/
theorem report_cases {a : ClassAnalysis} {reports : List Diagnostic} {base : Ty}
    {symbol symbol' : Symbol} (hclosed : c.closedBase? id = some (below, base))
    (hsymbol : c.symbol? id = some symbol) (hsymbol' : c.symbol? below = some symbol')
    (ha : c.analyze s id = some (a, reports)) {r : Diagnostic} (hr : r ∈ reports) :
    c.ConcernsFieldOf symbol r ∨ c.ConcernsFieldOf symbol' r ∨
      c.tooDeepReport s id = some r ∨ r.code = .notPartial ∨ r.code = .handWrittenHooks := by
  rcases reports_cases hsymbol ha hr with hown | hinherited | hpartial | hhooks
  · exact .inl (concernsFieldOf_of_ownReports hown)
  · rcases inheritedReports_cases hinherited with ⟨site, i, hi, hreport⟩ | hdeep
    · exact .inr (.inl (concernsFieldOf_of_inheritanceReport hclosed hsymbol' hi hreport))
    · exact .inr (.inr (.inl hdeep))
  · exact .inr (.inr (.inr (.inl (code_of_notPartialReport hpartial))))
  · exact .inr (.inr (.inr (.inr (code_of_handWrittenReport hhooks))))

/-! ### Deferred fields -/

section Files

variable {files : List SourceFile}

theorem file_lt_of_mem_sites {symbol : Symbol}
    (hsymbol : (ofFiles files).symbol? id = some symbol) {site : Site}
    (hsite : site ∈ symbol.sites) : site.file < files.length := by
  obtain ⟨f, hf, -⟩ := exists_site_iff.mpr ⟨id, symbol, hsymbol, site, hsite, rfl, rfl⟩
  exact (List.getElem?_eq_some_iff.mp hf).1

theorem eq_of_path_eq (hpaths : (files.map (·.path)).Nodup) {i j : Nat} (hi : i < files.length)
    (hj : j < files.length) (h : (ofFiles files).path i = (ofFiles files).path j) : i = j := by
  have hpath : ∀ k (hk : k < files.length), (ofFiles files).path k = files[k].path := by
    intro k hk
    show ((files[k]?).map (·.path)).getD "" = files[k].path
    rw [List.getElem?_eq_getElem hk]
    rfl
  rw [hpath i hi, hpath j hj] at h
  have hi' : i < (files.map (·.path)).length := by simpa using hi
  have hj' : j < (files.map (·.path)).length := by simpa using hj
  have hget : (files.map (·.path))[i] = (files.map (·.path))[j] := by simpa using h
  exact hpaths.getElem_inj_iff.mp hget

/-- A variable belongs to one type: a report that points at it concerns a field of that type only,
so long as files go by different paths. -/
theorem eq_of_concernsFieldOf
    (hplaces : ∀ f ∈ files, ((Item.allTypes f.items).flatMap TypeDecl.fieldStarts).Nodup)
    (hpaths : (files.map (·.path)).Nodup) {symbol symbol' : Symbol}
    (howner : (ofFiles files).symbol? owner = some symbol)
    (hid : (ofFiles files).symbol? id = some symbol') {site : Site} {d : Declarator}
    (hsite : site ∈ symbol.sites) (hd : d.nameSpan.start ∈ site.decl.fieldStarts)
    {r : Diagnostic} (hconcerns : (ofFiles files).ConcernsFieldOf symbol' r)
    (hpoints : r.PointsAt ((ofFiles files).path site.file) d.nameSpan) : id = owner := by
  obtain ⟨-, site', hsite', place, hplace, hpoints'⟩ := hconcerns
  have hpath := Option.some.inj (hpoints'.1.symm.trans hpoints.1)
  have hfile := eq_of_path_eq hpaths (file_lt_of_mem_sites hid hsite')
    (file_lt_of_mem_sites howner hsite) hpath
  obtain rfl := Option.some.inj (hpoints'.2.symm.trans hpoints.2)
  exact eq_of_mem_sites hplaces hid howner hsite' hsite hfile hplace hd

/-- A field that is settled one link below its class, or comes through a base that is reported, is
noticed. -/
theorem accounts_of_direct_or_tooDeep {a : ClassAnalysis} {reports : List Diagnostic}
    {site : Site} {f : Field} {d : Declarator} {base ty : Ty}
    (hacyclic : (ofFiles files).AcyclicBases) (hreport : s.reportSkippedFields = true)
    (hf : (site, f) ∈ (ofFiles files).openFields s owner) (hd : d ∈ f.declarators)
    (hdeferred : (ofFiles files).Deferred owner (site.fieldType (ofFiles files) f) below ty)
    (hclosed : (ofFiles files).closedBase? id = some (below, base))
    (hsettled : ((ofFiles files).substituteBase base ty).hasParam = false)
    (ha : (ofFiles files).analyze s id = some (a, reports))
    (h : below = owner ∨ (ofFiles files).InheritsTooDeep s below) :
    (ofFiles files).Accounts s id site d reports := by
  cases hsymbol : (ofFiles files).symbol? id with
  | none => simp [analyze, hsymbol] at ha
  | some symbol =>
    rw [analyze, hsymbol] at ha
    obtain ⟨-, rfl⟩ := Prod.mk.inj (Option.some.inj ha)
    rcases h with rfl | hdeep
    · -- With one link between them, the type that the class settles is the declared one.
      obtain rfl := hdeferred.eq_declared hacyclic
      refine accounts_of_direct hclosed hf hd hsettled fun i hi r hr ↦ ?_
      have hskip : r ∈ (ofFiles files).inheritedReports s id := by
        rw [inheritedReports, if_pos hreport]
        exact List.mem_append_left _ (List.mem_filterMap.mpr ⟨(site, i), hi, hr⟩)
      simp only [List.mem_append, hskip, or_true, true_or]
    · have hsites : symbol.sites ≠ [] := by
        intro hnil
        have hbase := (closedBase?_eq_some_iff.mp hclosed).1
        rw [base?_eq_none_of_sites hsymbol hnil] at hbase
        cases hbase
      obtain ⟨here, more, hhere⟩ := List.exists_cons_of_ne_nil hsites
      have hhead : symbol.sites.head? = some here := by rw [hhere]; rfl
      obtain ⟨r, hr, hwarning, hcode, hpoints⟩ :=
        tooDeepReport_of_inheritsTooDeep hclosed hsymbol hhead hdeep
      refine .inr (.inr ⟨r, ?_, hwarning, hcode, symbol, here, hsymbol, hhead, hpoints⟩)
      have hmem : r ∈ (ofFiles files).inheritedReports s id :=
        List.mem_append_right _ (Option.mem_toList.mpr hr)
      simp only [List.mem_append, hmem, or_true, true_or]

/-- Where types of a class stay open, there is a symbol. -/
theorem Deferred.exists_symbol? {symbol : Symbol} {type ty : Ty}
    (howner : (ofFiles files).symbol? owner = some symbol)
    (h : (ofFiles files).Deferred owner type below ty) :
    ∃ symbol', (ofFiles files).symbol? below = some symbol' := by
  cases h with
  | declared => exact ⟨symbol, howner⟩
  | link _ hlink _ _ =>
    obtain ⟨symbol', hsome, -⟩ := Option.bind_eq_some_iff.mp hlink
    exact ⟨symbol', hsome⟩

/-- A class that settles a type is not the class that declares it. -/
theorem Deferred.ne_of_closedBase? {base type ty : Ty} (hacyclic : (ofFiles files).AcyclicBases)
    (h : (ofFiles files).Deferred owner type below ty)
    (hclosed : (ofFiles files).closedBase? id = some (below, base)) : id ≠ owner := by
  have hbelow : (ofFiles files).IsBelow id owner := by
    rcases h.eq_or_isBelow with rfl | hbelow
    · exact .single (derivesFrom_of_closedBase? hclosed)
    · exact .head (derivesFrom_of_closedBase? hclosed) hbelow
  rintro rfl
  exact hacyclic id hbelow

/-- A field that is noticed where it is settled comes from the direct base, or through one that is
reported. -/
theorem direct_or_tooDeep_of_accounts {a : ClassAnalysis} {reports : List Diagnostic}
    {symbol : Symbol} {site : Site} {f : Field} {d : Declarator} {base ty : Ty}
    (hplaces : ∀ f ∈ files, ((Item.allTypes f.items).flatMap TypeDecl.fieldStarts).Nodup)
    (hpaths : (files.map (·.path)).Nodup) (hacyclic : (ofFiles files).AcyclicBases)
    (howner : (ofFiles files).symbol? owner = some symbol)
    (hf : (site, f) ∈ (ofFiles files).openFields s owner) (hd : d ∈ f.declarators)
    (hdeferred : (ofFiles files).Deferred owner (site.fieldType (ofFiles files) f) below ty)
    (hclosed : (ofFiles files).closedBase? id = some (below, base))
    (ha : (ofFiles files).analyze s id = some (a, reports))
    (h : (ofFiles files).Accounts s id site d reports) :
    below = owner ∨ (ofFiles files).InheritsTooDeep s below := by
  obtain ⟨hsite, hmarked, -⟩ := (mem_openFields_iff howner).mp hf
  have hplace := mem_fieldStarts hmarked hd
  obtain ⟨symbol', hsymbol'⟩ := hdeferred.exists_symbol? howner
  have hne := hdeferred.ne_of_closedBase? hacyclic hclosed
  cases hsymbol : (ofFiles files).symbol? id with
  | none => simp [analyze, hsymbol] at ha
  | some own =>
    rcases h with ⟨field, -, hkept, -, -⟩ | ⟨r, hr, -, hcode, hpoints⟩ | ⟨r, hr, -, hcode, -⟩
    · obtain ⟨f', hf', -⟩ := (mem_inheritances_iff hclosed).mp hkept
      have hsite' := ((mem_openFields_iff hsymbol').mp hf').1
      exact .inl (eq_of_mem_sites hplaces hsymbol' howner hsite' hsite rfl hplace hplace)
    · rcases report_cases hclosed hsymbol hsymbol' ha hr with hown | hbase | hdeep | hother | hother
      · exact absurd
          (eq_of_concernsFieldOf hplaces hpaths howner hsymbol hsite hplace hown hpoints) hne
      · exact .inl (eq_of_concernsFieldOf hplaces hpaths howner hsymbol' hsite hplace hbase hpoints)
      · exact .inr (inheritsTooDeep_of_tooDeepReport hclosed hdeep).1
      · rw [hother] at hcode
        exact absurd hcode (by decide)
      · rw [hother] at hcode
        exact absurd hcode (by decide)
    · rcases report_cases hclosed hsymbol hsymbol' ha hr with hown | hbase | hdeep | hother | hother
      · exact absurd hcode hown.1
      · exact absurd hcode hbase.1
      · exact .inr (inheritsTooDeep_of_tooDeepReport hclosed hdeep).1
      · exact absurd (hcode.symm.trans hother) (by decide)
      · exact absurd (hcode.symm.trans hother) (by decide)

end Files

/-- Where the type of a field is settled, the field is noticed if the class is derived from the
declaring class directly, or if the base of its base inherits marked fields whose types stay open.
Otherwise, as long as places tell fields apart, neither a backing field nor a warning stands for
any of its variables. -/
theorem accounts_of_settled {texts : List (String × String)} {a : ClassAnalysis}
    {reports : List Diagnostic} {symbol : Symbol} {site : Site} {f : Field} {base ty : Ty}
    (hacyclic : (ofFiles (Sources.ofTexts texts).files).AcyclicBases)
    (hreport : s.reportSkippedFields = true)
    (howner : (ofFiles (Sources.ofTexts texts).files).symbol? owner = some symbol)
    (hf : (site, f) ∈ (ofFiles (Sources.ofTexts texts).files).openFields s owner)
    (hdeferred : (ofFiles (Sources.ofTexts texts).files).Deferred owner
      (site.fieldType (ofFiles (Sources.ofTexts texts).files) f) below ty)
    (hclosed : (ofFiles (Sources.ofTexts texts).files).closedBase? id = some (below, base))
    (hsettled :
      ((ofFiles (Sources.ofTexts texts).files).substituteBase base ty).hasParam = false)
    (ha : (ofFiles (Sources.ofTexts texts).files).analyze s id = some (a, reports)) :
    (below = owner ∨ (ofFiles (Sources.ofTexts texts).files).InheritsTooDeep s below →
      ∀ d ∈ f.declarators,
        (ofFiles (Sources.ofTexts texts).files).Accounts s id site d reports) ∧
    ((texts.map Prod.fst).Nodup → Sources.InReach texts → ∀ d ∈ f.declarators,
      (ofFiles (Sources.ofTexts texts).files).Accounts s id site d reports →
        below = owner ∨ (ofFiles (Sources.ofTexts texts).files).InheritsTooDeep s below) := by
  refine ⟨fun h d hd ↦ ?_, fun hpaths hreach d hd h ↦ ?_⟩
  · exact accounts_of_direct_or_tooDeep hacyclic hreport hf hd hdeferred hclosed hsettled ha h
  · rw [← Sources.map_path_files] at hpaths
    exact direct_or_tooDeep_of_accounts (Sources.nodup_fieldStarts hreach) hpaths hacyclic
      howner hf hd hdeferred hclosed ha h

/-- A field that two generic classes stand between and the class that settles its type. -/
private def deferredSource : String :=
  "interface I<T>{}" ++
  "class P<T>{[SerializeInterface]protected I<T> f;}" ++
  "class Q<T>:P<T>{}" ++
  "class R<T>:Q<T>{}" ++
  "class C:R<int>{}"

private def deferredTexts : List (String × String) := [("Deferred.cs", deferredSource)]

private abbrev deferredFiles : List SourceFile := (Sources.ofTexts deferredTexts).files

private theorem deferred_inReach : Sources.InReach deferredTexts := by decide +kernel

private theorem deferred_facts :
    (∀ id < (ofFiles deferredFiles).table.symbols.length,
        ∀ base ∈ (ofFiles deferredFiles).baseId? id, base < id) ∧
      (((ofFiles deferredFiles).openFields {} 20).map fun p ↦
        (p.1.fieldType (ofFiles deferredFiles) p.2, p.2.declarators.length)) =
          [(.named 19 [.param "T" 20], 1)] ∧
      (ofFiles deferredFiles).base? 21 = some (.named 20 [.param "T" 21]) ∧
      (ofFiles deferredFiles).base? 22 = some (.named 21 [.param "T" 22]) ∧
      (ofFiles deferredFiles).closedBase? 23 = some (22, .named 22 [Ty.ofPredefined .int]) ∧
      ((ofFiles deferredFiles).openFields {} 21).isEmpty = true ∧
      (((ofFiles deferredFiles).symbol? 20).map (·.typeParams)) = some ["T"] ∧
      (((ofFiles deferredFiles).symbol? 21).map (·.typeParams)) = some ["T"] ∧
      (((ofFiles deferredFiles).symbol? 22).map (·.typeParams)) = some ["T"] ∧
      ((ofFiles deferredFiles).analyze {} 23).isSome = true := by decide +kernel

/-- The marked field of `P`, followed down to `R`, whose base is what `C` settles. -/
private theorem deferred_setting :
    ∃ symbol site f d a reports,
      (ofFiles deferredFiles).AcyclicBases ∧
      (ofFiles deferredFiles).symbol? 20 = some symbol ∧
      (site, f) ∈ (ofFiles deferredFiles).openFields {} 20 ∧ d ∈ f.declarators ∧
      (ofFiles deferredFiles).Deferred 20 (site.fieldType (ofFiles deferredFiles) f) 22
        (.named 19 [.param "T" 22]) ∧
      (ofFiles deferredFiles).closedBase? 23 = some (22, .named 22 [Ty.ofPredefined .int]) ∧
      ((ofFiles deferredFiles).substituteBase (.named 22 [Ty.ofPredefined .int])
        (.named 19 [.param "T" 22])).hasParam = false ∧
      (ofFiles deferredFiles).analyze {} 23 = some (a, reports) ∧
      ¬ (ofFiles deferredFiles).InheritsTooDeep {} 22 := by
  obtain ⟨hless, hopen, hbase, hbase', hclosed, hnone, hparams, hparams', hparams'', hanalyzed⟩ :=
    deferred_facts
  obtain ⟨symbol, hsymbol, -⟩ := Option.map_eq_some_iff.mp hparams
  obtain ⟨⟨a, reports⟩, ha⟩ := Option.isSome_iff_exists.mp hanalyzed
  obtain ⟨⟨site, f⟩, hf, hfield⟩ := List.map_eq_singleton_iff.mp hopen
  obtain ⟨htype, hlength⟩ := Prod.mk.inj hfield
  obtain ⟨d, hd⟩ := List.length_eq_one_iff.mp hlength
  have hsubstitute : ∀ id, ((ofFiles deferredFiles).symbol? id).map (·.typeParams) = some ["T"] →
      ∀ arg, (ofFiles deferredFiles).substituteBase (.named id [arg]) (.named 19 [.param "T" id]) =
        .named 19 [arg] := by
    intro id hid arg
    simp [substituteBase, hid, Ty.substitute, Ty.replaceParams, Ty.replaceParamsAll,
      Ty.argumentFor]
  have hparam : ∀ id, (Ty.named 19 [.param "T" id]).hasParam = true := fun _ ↦ rfl
  have hlink : (ofFiles deferredFiles).Deferred 20 (.named 19 [.param "T" 20]) 21
      (.named 19 [.param "T" 21]) := by
    have hstep := Deferred.link (.declared (hparam 20)) hbase rfl
      (by rw [hsubstitute 20 hparams]; exact hparam 21)
    rwa [hsubstitute 20 hparams] at hstep
  have hdeferred : (ofFiles deferredFiles).Deferred 20
      (site.fieldType (ofFiles deferredFiles) f) 22 (.named 19 [.param "T" 22]) := by
    rw [show site.fieldType (ofFiles deferredFiles) f = .named 19 [.param "T" 20] from htype]
    have hstep := Deferred.link hlink hbase' rfl
      (by rw [hsubstitute 21 hparams']; exact hparam 22)
    rwa [hsubstitute 21 hparams'] at hstep
  refine ⟨symbol, site, f, d, a, reports, acyclicBases_of_lt hless, hsymbol, ?_, ?_, hdeferred,
    hclosed, ?_, ha, ?_⟩
  · rw [hf]
    exact List.mem_singleton_self _
  · rw [show f.declarators = [d] from hd]
    exact List.mem_singleton_self _
  · rw [hsubstitute 22 hparams'']
    rfl
  · rintro ⟨grand, grandId, hgrand, hgrandId, -, hfields⟩
    obtain rfl := Option.some.inj (hbase'.symm.trans hgrand)
    obtain rfl := Option.some.inj hgrandId
    exact hfields (List.isEmpty_iff.mp hnone)

theorem not_accounts_of_two_between :
    ∃ site f d a reports, (site, f) ∈ (ofFiles deferredFiles).openFields {} 20 ∧
      d ∈ f.declarators ∧ (ofFiles deferredFiles).AcyclicBases ∧
      (ofFiles deferredFiles).Deferred 20 (site.fieldType (ofFiles deferredFiles) f) 22
        (.named 19 [.param "T" 22]) ∧
      (ofFiles deferredFiles).analyze {} 23 = some (a, reports) ∧
      ¬ (ofFiles deferredFiles).Accounts {} 23 site d reports := by
  obtain ⟨symbol, site, f, d, a, reports, hacyclic, hsymbol, hf, hd, hdeferred, hclosed, hsettled,
    ha, hnot⟩ := deferred_setting
  refine ⟨site, f, d, a, reports, hf, hd, hacyclic, hdeferred, ha, fun h ↦ ?_⟩
  rcases (accounts_of_settled hacyclic rfl hsymbol hf hdeferred hclosed hsettled ha).2 (by decide)
    deferred_inReach d hd h with hdirect | hdeep
  · exact absurd hdirect (by decide)
  · exact hnot hdeep

/-- A field may be lost without a word where its type is settled. -/
theorem not_forall_accounts :
    ¬ ∀ (texts : List (String × String)) (s : Settings) (owner below id : TypeId) (site : Site)
      (f : Field) (base ty : Ty) (a : ClassAnalysis) (reports : List Diagnostic),
      (ofFiles (Sources.ofTexts texts).files).AcyclicBases → s.reportSkippedFields = true →
      (site, f) ∈ (ofFiles (Sources.ofTexts texts).files).openFields s owner →
      (ofFiles (Sources.ofTexts texts).files).Deferred owner
        (site.fieldType (ofFiles (Sources.ofTexts texts).files) f) below ty →
      (ofFiles (Sources.ofTexts texts).files).closedBase? id = some (below, base) →
      ((ofFiles (Sources.ofTexts texts).files).substituteBase base ty).hasParam = false →
      (ofFiles (Sources.ofTexts texts).files).analyze s id = some (a, reports) →
      ∀ d ∈ f.declarators,
        (ofFiles (Sources.ofTexts texts).files).Accounts s id site d reports := by
  intro hall
  obtain ⟨symbol, site, f, d, a, reports, hacyclic, hsymbol, hf, hd, hdeferred, hclosed, hsettled,
    ha, hnot⟩ := deferred_setting
  have haccounts := hall deferredTexts {} 20 22 23 site f _ _ a reports hacyclic rfl hf hdeferred
    hclosed hsettled ha d hd
  have hpaths : (deferredFiles.map (·.path)).Nodup := by decide +kernel
  rcases direct_or_tooDeep_of_accounts (Sources.nodup_fieldStarts deferred_inReach) hpaths hacyclic
    hsymbol hf hd hdeferred hclosed ha haccounts with hdirect | hdeep
  · exact absurd hdirect (by decide)
  · exact hnot hdeep

end Compilation
end Companion
