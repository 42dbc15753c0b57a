import Companion.Proofs.Diagnostic.Order
import Companion.Proofs.Run.Accounts

/-!
Whether the order in which classes are analyzed can be told from the sorted reports. It can if and
only if two classes make reports that tie and yet differ (`Compilation.orderFree_iff_commute`). In
files whose names have places of their own (`Compilation.NamesApart`), reports that tie stand at one
declaration or variable (`Compilation.eq_of_ties`), and only the reports that a variable has no
interface type may then differ: the remark quotes the type, which is what a derived class makes of
it (`Compilation.orderFree_iff_labels`). So the order can be told in some files
(`Compilation.not_forall_orderFree`).
-/

set_option autoImplicit false
set_option relaxedAutoImplicit false

namespace Companion

/-! ### Lists put together in different orders -/

/-- Parts that commute give the same whole in every order. -/
theorem flatMap_eq_of_perm {α β : Type} {f : α → List β} {as as' : List α} (hperm : as.Perm as')
    (h : ∀ a ∈ as, ∀ b ∈ as, f a ++ f b = f b ++ f a) : as.flatMap f = as'.flatMap f := by
  induction hperm with
  | nil => rfl
  | cons a _ ih =>
    rw [List.flatMap_cons, List.flatMap_cons,
      ih fun b hb b' hb' ↦ h b (List.mem_cons_of_mem a hb) b' (List.mem_cons_of_mem a hb')]
  | swap a b as =>
    simp only [List.flatMap_cons, ← List.append_assoc]
    rw [h b List.mem_cons_self a (List.mem_cons_of_mem b List.mem_cons_self)]
  | trans hperm _ ih ih' =>
    exact (ih h).trans (ih' fun a ha b hb ↦ h a (hperm.mem_iff.mpr ha) b (hperm.mem_iff.mpr hb))

/-- What commutes with a single entry repeats it. -/
theorem eq_of_singleton_append_comm {α : Type} {a : α} {as : List α} (h : [a] ++ as = as ++ [a]) :
    ∀ b ∈ as, b = a := by
  induction as with
  | nil => exact fun _ hb ↦ absurd hb List.not_mem_nil
  | cons b as ih =>
    rw [List.singleton_append, List.cons_append, List.cons.injEq] at h
    obtain ⟨rfl, hrest⟩ := h
    exact List.forall_mem_cons.mpr ⟨rfl, ih hrest⟩

/-- Lists in which all entries are equal, across both, commute. -/
theorem append_comm_of_forall_eq {α : Type} {as bs : List α} (h : ∀ a ∈ as, ∀ b ∈ bs, a = b) :
    as ++ bs = bs ++ as := by
  cases as with
  | nil => simp
  | cons a as =>
    cases bs with
    | nil => simp
    | cons b bs =>
      have hbs : b :: bs = List.replicate (b :: bs).length a :=
        List.eq_replicate_of_mem fun b hb ↦ (h a List.mem_cons_self b hb).symm
      have has : a :: as = List.replicate (a :: as).length a :=
        List.eq_replicate_of_mem fun a' ha' ↦
          (h a' ha' b List.mem_cons_self).trans (h a List.mem_cons_self b List.mem_cons_self).symm
      rw [hbs, has, List.replicate_append_replicate, List.replicate_append_replicate, Nat.add_comm]

/-- What is found in two parts of a list in which nothing comes twice is found in one part. -/
theorem index_eq_of_nodup_flatMap {α β : Type} {f : α → List β} {l : List α} {i j : Nat} {a a' : α}
    {b : β} (hnodup : (l.flatMap f).Nodup) (hi : l[i]? = some a) (hj : l[j]? = some a')
    (hb : b ∈ f a) (hb' : b ∈ f a') : i = j := by
  obtain ⟨hlt, rfl⟩ := List.getElem?_eq_some_iff.mp hi
  obtain ⟨hlt', rfl⟩ := List.getElem?_eq_some_iff.mp hj
  have hdisjoint := List.pairwise_iff_getElem.mp (List.nodup_flatMap.mp hnodup).2
  by_contra hne
  rcases Nat.lt_or_gt_of_ne hne with hless | hgreater
  · exact hdisjoint i j hlt hlt' hless hb hb'
  · exact hdisjoint j i hlt' hlt hgreater hb' hb

/-- What is chosen for things that are told apart, and stands for one of them only, comes once at
most. -/
theorem length_filter_filterMap_le_one {α β κ : Type} {key : α → κ} {f : α → Option β}
    {p : β → Bool} {k : κ} {l : List α} (hnodup : (l.map key).Nodup)
    (hkey : ∀ w ∈ l, ∀ b, f w = some b → p b = true → key w = k) :
    ((l.filterMap f).filter p).length ≤ 1 := by
  induction l with
  | nil => exact Nat.zero_le 1
  | cons w ws ih =>
    obtain ⟨hnew, hrest⟩ := List.nodup_cons.mp hnodup
    obtain ⟨hfirst, hothers⟩ := List.forall_mem_cons.mp hkey
    cases hf : f w with
    | none =>
      rw [List.filterMap_cons_none hf]
      exact ih hrest hothers
    | some b =>
      rw [List.filterMap_cons_some hf]
      by_cases hp : p b = true
      · -- The key is used up, so nothing that is chosen later counts.
        have hnone : (ws.filterMap f).filter p = [] := by
          refine List.filter_eq_nil_iff.mpr fun b' hb' hp' ↦ ?_
          obtain ⟨w', hw', hfw'⟩ := List.mem_filterMap.mp hb'
          exact hnew ((hfirst b hf hp).trans (hothers w' hw' b' hfw' hp').symm ▸
            List.mem_map_of_mem hw')
        rw [List.filter_cons_of_pos hp, hnone]
        rfl
      · rw [List.filter_cons_of_neg hp]
        exact ih hrest hothers

namespace SkipReason

variable {reason reason' : SkipReason} {file type type' backing backing' : String} {d : Declarator}
  {r r' : Diagnostic}

/-- Everything that the report of a skipped variable says. -/
theorem eq_of_diagnostic (h : reason.diagnostic file d type backing = some r) :
    ∃ code, reason.code = some code ∧
      r = ⟨code, .warning, (reason.wording d.name type backing).1, some file,
        [⟨d.nameSpan, (reason.wording d.name type backing).2, true⟩],
        ["no backing field is generated for this field"], (reason.suggestion type).toList⟩ := by
  obtain ⟨code, hcode, rfl⟩ := Option.map_eq_some_iff.mp h
  refine ⟨code, hcode, ?_⟩
  cases reason.suggestion type <;> rfl

theorem head?_toList_append {front text rest : String} {first : Char}
    (h : front.toList.head? = some first) : (front ++ text ++ rest).toList.head? = some first := by
  simp [String.toList_append, List.head?_append, h]

theorem wording_static_ne_const (field : String) :
    (wording .static field type backing).1 ≠ (wording .const field type' backing').1 := by
  intro h
  have hstatic : (wording .static field type backing).1.toList.head? = some 's' :=
    head?_toList_append rfl
  have hconst : (wording .const field type' backing').1.toList.head? = some 'c' :=
    head?_toList_append rfl
  rw [h, hconst] at hstatic
  cases hstatic

/-- One code and message stand for one reason. -/
theorem eq_of_wording_eq (hcode : reason.code = reason'.code) (field : String)
    (hmessage : (reason.wording field type backing).1 = (reason'.wording field type' backing').1) :
    reason = reason' := by
  by_cases hstatic : reason.code = some .staticOrConst
  · cases reason <;> cases hstatic <;> cases reason' <;> cases hcode
    · rfl
    · exact absurd hmessage (wording_static_ne_const field)
    · exact absurd hmessage.symm (wording_static_ne_const field)
    · rfl
  · cases reason <;> first
      | exact absurd rfl hstatic
      | cases reason' <;> cases hcode; rfl

/-- The message about a type that cannot be resolved tells the type, as the field is the same. -/
theorem append_cancel {front text text' rest field stop : String}
    (h : front ++ text ++ rest ++ field ++ stop = front ++ text' ++ rest ++ field ++ stop) :
    text = text' := by
  have hlist := congrArg String.toList h
  simp only [String.toList_append, List.append_cancel_right_eq, List.append_cancel_left_eq] at hlist
  exact String.toList_injective hlist

/-- Two reports of one skipped variable that agree in code and message agree in everything, unless
they quote a type that is no interface. -/
theorem eq_of_message_eq (hr : reason.diagnostic file d type backing = some r)
    (hr' : reason'.diagnostic file d type' backing' = some r')
    (hcode : r.code = r'.code) (hmessage : r.message = r'.message) :
    r = r' ∨ r.code = .notInterface ∧ (r.labels = r'.labels → r = r') := by
  obtain ⟨code, hreason, rfl⟩ := eq_of_diagnostic hr
  obtain ⟨code', hreason', rfl⟩ := eq_of_diagnostic hr'
  obtain rfl : code = code' := hcode
  obtain rfl := eq_of_wording_eq (hreason.trans hreason'.symm) d.name hmessage
  by_cases hinterface : reason = .notInterface
  · subst hinterface
    exact .inr ⟨(Option.some.inj hreason).symm, fun hlabels ↦
      Diagnostic.mk.injEq .. ▸ ⟨rfl, rfl, rfl, rfl, hlabels, rfl, rfl⟩⟩
  · left
    have hrest : (reason.wording d.name type backing).2 = (reason.wording d.name type' backing').2 ∧
        reason.suggestion type = reason.suggestion type' := by
      cases reason with
      | notInterface => exact absurd rfl hinterface
      | unresolved => exact ⟨rfl, congrArg _ (append_cancel hmessage)⟩
      | _ => exact ⟨rfl, rfl⟩
    rw [show (reason.wording d.name type backing).1 = _ from hmessage, hrest.1, hrest.2]

end SkipReason

namespace Compilation

variable {c : Compilation} {s : Settings} {id id' : TypeId} {r r' : Diagnostic}

/-! ### Sorted reports -/

/-- What analyzing a class reports. -/
def reportsOf (c : Compilation) (s : Settings) (id : TypeId) : List Diagnostic :=
  ((c.analyze s id).map Prod.snd).getD []

/-- What is reported, sorted, if classes are analyzed in some order. -/
def sortedReports (c : Compilation) (s : Settings) (order : List TypeId) : List Diagnostic :=
  Diagnostic.sort (order.flatMap (c.reportsOf s))

/-- The sorted reports do not tell in which order the candidates are analyzed. -/
def OrderFree (c : Compilation) (s : Settings) : Prop :=
  ∀ order, order.Perm c.candidates → c.sortedReports s order = c.sortedReports s c.candidates

/-- Orders make no difference if and only if the reports of any two candidates that tie with one
diagnostic come to the same in either order. -/
theorem orderFree_iff_commute : c.OrderFree s ↔
    ∀ id ∈ c.candidates, ∀ id' ∈ c.candidates, ∀ d : Diagnostic,
      d.tying (c.reportsOf s id) ++ d.tying (c.reportsOf s id') =
        d.tying (c.reportsOf s id') ++ d.tying (c.reportsOf s id) := by
  constructor
  · intro hfree id hid id' hid' d
    by_cases heq : id' = id
    · rw [heq]
    -- The two candidates may be analyzed first, either before the other.
    obtain ⟨others, hothers⟩ : ∃ others, c.candidates.Perm (id :: id' :: others) := by
      have hrest : id' ∈ c.candidates.erase id := (List.mem_erase_of_ne heq).mpr hid'
      exact ⟨_, (List.perm_cons_erase hid).trans ((List.perm_cons_erase hrest).cons id)⟩
    have hsame : c.sortedReports s (id :: id' :: others) =
        c.sortedReports s (id' :: id :: others) :=
      (hfree _ hothers.symm).trans
        (hfree _ ((List.Perm.swap id id' others).trans hothers.symm)).symm
    have htying := (Diagnostic.sort_eq_sort_iff
      ((List.Perm.swap id' id others).flatMap_right (c.reportsOf s))).mp hsame d
    rw [Diagnostic.tying_flatMap, Diagnostic.tying_flatMap] at htying
    simpa only [List.flatMap_cons, ← List.append_assoc, List.append_cancel_right_eq] using htying
  · intro hcommute order horder
    refine (Diagnostic.sort_eq_sort_iff (horder.flatMap_right _)).mpr fun d ↦ ?_
    rw [Diagnostic.tying_flatMap, Diagnostic.tying_flatMap]
    exact flatMap_eq_of_perm horder fun id hid id' hid' ↦
      hcommute id (horder.mem_iff.mp hid) id' (horder.mem_iff.mp hid') d

/-! ### Where reports come from -/

/-- A report is that a variable is skipped, for some reason. -/
def IsSkip (c : Compilation) (v : MarkedVariable) (r : Diagnostic) : Prop :=
  ∃ reason type backing,
    SkipReason.diagnostic reason (c.path v.site.file) v.declarator type backing = some r

/-- A report is that a class cannot assign a variable. -/
def IsHidden (c : Compilation) (v : MarkedVariable) (r : Diagnostic) : Prop :=
  ∃ message, r = ((Diagnostic.warning .inheritedNotVisible message v.declarator.nameSpan
    "private in the generic base").inFile (c.path v.site.file)).withSuggestion
      "make the field `protected`"

/-- Where a report about a class comes from, by its code. -/
def Origin (c : Compilation) (s : Settings) (id : TypeId) (r : Diagnostic) : Prop :=
  match r.code with
  | .inheritedNotVisible => ∃ owner, ∃ v ∈ c.markedVariables s owner, c.IsHidden v r
  | .inheritedTooDeep => c.tooDeepReport s id = some r
  | .notPartial => c.notPartialReport id = some r
  | .handWrittenHooks => c.handWrittenReport s id = some r
  | _ => ∃ owner, ∃ v ∈ c.markedVariables s owner, c.IsSkip v r

theorem origin_of_isSkip {owner : TypeId} {v : MarkedVariable} (hv : v ∈ c.markedVariables s owner)
    (h : c.IsSkip v r) : c.Origin s id r := by
  obtain ⟨reason, type, backing, hreport⟩ := h
  have hcode := reason.mem_aboutOwn (SkipReason.pointsAt_of_diagnostic hreport).1
  rw [Origin]
  split
  case h_5 => exact ⟨owner, v, hv, reason, type, backing, hreport⟩
  all_goals
    rename_i hother
    rw [hother] at hcode
    exact absurd hcode (by decide)

theorem IsSkip.pointsAt {v : MarkedVariable} (h : c.IsSkip v r) :
    r.PointsAt (c.path v.site.file) v.declarator.nameSpan := by
  obtain ⟨reason, type, backing, hreport⟩ := h
  exact (SkipReason.pointsAt_of_diagnostic hreport).2.2

theorem IsSkip.code_mem {v : MarkedVariable} (h : c.IsSkip v r) :
    r.code ∈ Diagnostic.Code.aboutOwn := by
  obtain ⟨reason, type, backing, hreport⟩ := h
  exact reason.mem_aboutOwn (SkipReason.pointsAt_of_diagnostic hreport).1

theorem isSkip_of_ownReports {symbol : Symbol} (hsymbol : c.symbol? id = some symbol)
    (h : r ∈ symbol.ownReports c s) : ∃ v ∈ c.markedVariables s id, c.IsSkip v r := by
  obtain ⟨site, f, d, reason, hmem, hr⟩ := exists_reason_of_mem_ownReports h
  obtain ⟨hsite, hf, hd, -⟩ := mem_ownOutcomes_iff.mp hmem
  exact ⟨⟨site, f, d⟩, (mem_markedVariables_iff hsymbol).mpr ⟨hsite, hf, hd⟩, reason, _, _, hr⟩

/-- The report about what becomes of an inherited variable stands for that variable. -/
theorem isSkip_or_isHidden_of_inheritanceReport {base : Ty} {v : MarkedVariable}
    (h : c.inheritanceReport s id v.site (c.inherit s base v.site v.field v.declarator) = some r) :
    c.IsSkip v r ∨ c.IsHidden v r := by
  rcases inherit_cases c s base v.site v.field v.declarator with hhidden | ⟨field, hkept, -⟩ |
    ⟨reason, hskipped, -⟩
  · rw [hhidden] at h
    exact .inr ⟨_, (Option.some.inj h).symm⟩
  · rw [hkept] at h
    cases h
  · rw [hskipped] at h
    exact .inl ⟨reason, _, _, h⟩

/-- What is reported about a class, part by part. -/
theorem reportsOf_eq {symbol : Symbol} (hsymbol : c.symbol? id = some symbol) (s : Settings) :
    ∃ partiality hooks, (∀ r ∈ partiality, c.notPartialReport id = some r) ∧
      (∀ r ∈ hooks, c.handWrittenReport s id = some r) ∧
      c.reportsOf s id =
        symbol.ownReports c s ++ c.inheritedReports s id ++ partiality ++ hooks := by
  have hanalyze : c.analyze s id = some (c.analysisOf s id symbol, c.reportsOf s id) := by
    rw [reportsOf, analyze, hsymbol]
    rfl
  refine ⟨_, _, ?_, ?_, (eq_of_analyze hsymbol hanalyze).2⟩
  · intro r hr
    split at hr
    · exact Option.mem_toList.mp hr
    · cases hr
  · intro r hr
    split at hr
    · exact Option.mem_toList.mp hr
    · cases hr

theorem origin_of_mem_reportsOf {symbol : Symbol} (hsymbol : c.symbol? id = some symbol)
    (h : r ∈ c.reportsOf s id) : c.Origin s id r := by
  obtain ⟨partiality, hooks, hpartiality, hhooks, heq⟩ := reportsOf_eq hsymbol s
  rw [heq, List.mem_append, List.mem_append, List.mem_append] at h
  rcases h with ((hown | hinherited) | hpartial) | hhook
  · obtain ⟨v, hv, hskip⟩ := isSkip_of_ownReports hsymbol hown
    exact origin_of_isSkip hv hskip
  · rcases inheritedReports_cases hinherited with ⟨site, i, hmem, hreport⟩ | hdeep
    · cases hclosed : c.closedBase? id with
      | none => simp [inheritances, hclosed] at hmem
      | some closed =>
        rw [inheritances_eq hclosed] at hmem
        obtain ⟨v, hv, heq⟩ := List.mem_map.mp hmem
        obtain ⟨rfl, rfl⟩ := Prod.mk.inj heq
        have hmarked := List.mem_of_mem_filter hv
        rcases isSkip_or_isHidden_of_inheritanceReport hreport with hskip | ⟨message, rfl⟩
        · exact origin_of_isSkip hmarked hskip
        · exact ⟨closed.1, v, hmarked, message, rfl⟩
    · rw [Origin, code_of_tooDeepReport hdeep]
      exact hdeep
  · have hreport := hpartiality r hpartial
    rw [Origin, code_of_notPartialReport hreport]
    exact hreport
  · have hreport := hhooks r hhook
    rw [Origin, code_of_handWrittenReport hreport]
    exact hreport

/-- A report about deep inheritance says nothing but its message and its place. -/
theorem exists_of_tooDeepReport (h : c.tooDeepReport s id = some r) :
    ∃ message place path, r = (((Diagnostic.warning .inheritedTooDeep message place
      "closes only its direct base").inFile path).withNote
        "multi-level generic inheritance is not supported").withNote
          "those fields get no backing field in this class" := by
  simp only [tooDeepReport, Option.bind_eq_bind, Option.bind_eq_some_iff] at h
  obtain ⟨_, -, _, -, _, -, _, -, _, -, hr⟩ := h
  split at hr
  · exact ⟨_, _, _, (Option.some.inj hr).symm⟩
  · cases hr

/-- A report that something is not partial stands at a declaration of the type that it tells to
declare otherwise. -/
theorem exists_of_notPartialReport (h : c.notPartialReport id = some r) :
    ∃ offender symbol, c.symbol? offender = some symbol ∧ ∃ site ∈ symbol.sites, ∃ message,
      r = ((Diagnostic.error .notPartial message site.decl.header.nameSpan
        "missing `partial`").inFile (c.path site.file)).withSuggestion
          ("declare it as `partial " ++ symbol.kind.keyword ++ " " ++ symbol.name ++ "`") := by
  simp only [notPartialReport, Option.bind_eq_bind, Option.bind_eq_some_iff] at h
  obtain ⟨offender, -, symbol, hsymbol, site, hsite, hr⟩ := h
  have hmem : site ∈ symbol.sites := by
    rcases Option.or_eq_some_iff.mp hsite with hfound | ⟨-, hhead⟩
    · exact List.mem_of_find?_eq_some hfound
    · exact List.mem_of_head? hhead
  exact ⟨offender, symbol, hsymbol, site, hmem, _, (Option.some.inj hr).symm⟩

/-- A report about hand-written hooks stands at the name of its class. -/
theorem exists_of_handWrittenReport (h : c.handWrittenReport s id = some r) :
    ∃ symbol, c.symbol? id = some symbol ∧ ∃ site ∈ symbol.sites,
      r.PointsAt (c.path site.file) site.decl.header.nameSpan := by
  rw [handWrittenReport] at h
  split at h
  · rename_i base site sites habove hsites
    obtain rfl := Option.some.inj h
    cases hsymbol : c.symbol? id with
    | none => simp [hsymbol] at hsites
    | some symbol =>
      rw [hsymbol] at hsites
      refine ⟨symbol, rfl, site, ?_, rfl, rfl⟩
      rw [show symbol.sites = site :: sites from hsites]
      exact List.mem_cons_self
  · cases h

/-! ### Reports that tie -/

/-- No two types have their names at one place of one path. -/
def NamesApart (files : List SourceFile) : Prop :=
  (files.flatMap fun f ↦ (Item.allTypes f.items).map fun d ↦ (f.path, d.header.nameSpan)).Nodup

instance (files : List SourceFile) : Decidable (NamesApart files) :=
  inferInstanceAs (Decidable (List.Nodup _))

section Files

variable {files : List SourceFile}

theorem namesApart_of_paths
    (hnames : ∀ f ∈ files, ((Item.allTypes f.items).flatMap fun d ↦ [d.header.nameSpan]).Nodup)
    (hpaths : (files.map (·.path)).Nodup) : NamesApart files := by
  rw [NamesApart, List.nodup_flatMap]
  constructor
  · intro f hf
    have hnodup := hnames f hf
    rw [← List.map_eq_flatMap] at hnodup
    refine List.Nodup.of_map Prod.snd ?_
    rwa [List.map_map]
  · refine (List.pairwise_map.mp hpaths).imp fun hne ↦ ?_
    intro x hx hx'
    obtain ⟨d, -, rfl⟩ := List.mem_map.mp hx
    obtain ⟨d', -, heq⟩ := List.mem_map.mp hx'
    exact hne (Prod.mk.inj heq).1.symm

section Names

variable (hapart : NamesApart files)
include hapart

/-- A declaration belongs to the type that its path and the place of its name tell. -/
theorem eq_of_nameSpan_eq {symbol symbol' : Symbol} {site site' : Site}
    (hsymbol : (ofFiles files).symbol? id = some symbol)
    (hsymbol' : (ofFiles files).symbol? id' = some symbol')
    (hsite : site ∈ symbol.sites) (hsite' : site' ∈ symbol'.sites)
    (hpath : (ofFiles files).path site.file = (ofFiles files).path site'.file)
    (hname : site.decl.header.nameSpan = site'.decl.header.nameSpan) : id = id' := by
  have hnames : ∀ f ∈ files,
      ((Item.allTypes f.items).flatMap fun d ↦ [d.header.nameSpan]).Nodup := by
    intro f hf
    have hnodup := (List.nodup_flatMap.mp hapart).1 f hf
    rw [← Function.comp_def (Prod.mk f.path) fun d : TypeDecl ↦ d.header.nameSpan,
      ← List.map_map] at hnodup
    rw [← List.map_eq_flatMap]
    exact hnodup.of_map
  obtain ⟨f, hf, hdecl⟩ := exists_site_iff.mpr ⟨id, symbol, hsymbol, site, hsite, rfl, rfl⟩
  obtain ⟨f', hf', hdecl'⟩ := exists_site_iff.mpr ⟨id', symbol', hsymbol', site', hsite', rfl, rfl⟩
  have hpaths : f.path = f'.path := by
    simpa [path, show (ofFiles files).files = files from rfl, hf, hf'] using hpath
  -- files that share a path and the place of a name are one file
  have hfile : site.file = site'.file :=
    index_eq_of_nodup_flatMap hapart hf hf' (List.mem_map.mpr ⟨_, hdecl, rfl⟩)
      (List.mem_map.mpr ⟨_, hdecl', by rw [hpaths, hname]⟩)
  exact eq_of_mem_sites hnames hsymbol hsymbol' hsite hsite' hfile
    (List.mem_singleton.mpr rfl) (List.mem_singleton.mpr hname)

/-- Reports that classes are not partial, if they agree in place and message, agree in everything:
the suggestion is about the type that stands at the place. -/
theorem eq_of_notPartialReport (hr : (ofFiles files).notPartialReport id = some r)
    (hr' : (ofFiles files).notPartialReport id' = some r') (hfile : r.file = r'.file)
    (hspan : r.primarySpan = r'.primarySpan) (hmessage : r.message = r'.message) : r = r' := by
  obtain ⟨offender, symbol, hsymbol, site, hsite, message, rfl⟩ := exists_of_notPartialReport hr
  obtain ⟨offender', symbol', hsymbol', site', hsite', message', rfl⟩ :=
    exists_of_notPartialReport hr'
  have hpath : (ofFiles files).path site.file = (ofFiles files).path site'.file :=
    Option.some.inj hfile
  have hname : site.decl.header.nameSpan = site'.decl.header.nameSpan := Option.some.inj hspan
  obtain rfl : message = message' := hmessage
  obtain rfl := eq_of_nameSpan_eq hapart hsymbol hsymbol' hsite hsite' hpath hname
  rw [hpath, hname, Option.some.inj (hsymbol.symm.trans hsymbol')]

/-- Reports about hand-written hooks that agree in place are about one class. -/
theorem eq_of_handWrittenReport (hr : (ofFiles files).handWrittenReport s id = some r)
    (hr' : (ofFiles files).handWrittenReport s id' = some r') (hfile : r.file = r'.file)
    (hspan : r.primarySpan = r'.primarySpan) : r = r' := by
  obtain ⟨symbol, hsymbol, site, hsite, hpath, hname⟩ := exists_of_handWrittenReport hr
  obtain ⟨symbol', hsymbol', site', hsite', hpath', hname'⟩ := exists_of_handWrittenReport hr'
  rw [hfile, hpath'] at hpath
  rw [hspan, hname'] at hname
  obtain rfl := eq_of_nameSpan_eq hapart hsymbol hsymbol' hsite hsite'
    (Option.some.inj hpath).symm (Option.some.inj hname).symm
  exact Option.some.inj (hr.symm.trans hr')

/-- The codes of what is reported about a class and not about a variable. -/
def aboutClass : List Diagnostic.Code := [.inheritedTooDeep, .notPartial, .handWrittenHooks]

/-- Reports that are not about variables, if they tie, differ in nothing. -/
theorem eq_of_ties_of_aboutClass {symbol symbol' : Symbol}
    (hsymbol : (ofFiles files).symbol? id = some symbol)
    (hsymbol' : (ofFiles files).symbol? id' = some symbol')
    (hr : r ∈ (ofFiles files).reportsOf s id) (hr' : r' ∈ (ofFiles files).reportsOf s id')
    (habout : r.code ∈ aboutClass) (hties : r.compare r' = .eq) : r = r' := by
  obtain ⟨hfile, hspan, hcode, hmessage⟩ := Diagnostic.compare_eq_iff.mp hties
  have horigin := origin_of_mem_reportsOf hsymbol hr
  have horigin' := origin_of_mem_reportsOf hsymbol' hr'
  rw [Origin, ← hcode] at horigin'
  rw [Origin] at horigin
  simp only [aboutClass, List.mem_cons, List.not_mem_nil, or_false] at habout
  rcases habout with hkind | hkind | hkind <;> rw [hkind] at horigin horigin'
  · obtain ⟨message, place, path, rfl⟩ := exists_of_tooDeepReport horigin
    obtain ⟨message', place', path', rfl⟩ := exists_of_tooDeepReport horigin'
    obtain rfl : message = message' := hmessage
    obtain rfl : path = path' := Option.some.inj hfile
    obtain rfl : place = place' := Option.some.inj hspan
    rfl
  · exact eq_of_notPartialReport hapart horigin horigin' hfile hspan hmessage
  · exact eq_of_handWrittenReport hapart horigin horigin' hfile hspan

end Names

section Places

variable
  (hnames : ∀ f ∈ files, ((Item.allTypes f.items).flatMap fun d ↦ [d.header.nameSpan]).Nodup)
  (hplaces : ∀ f ∈ files, ((Item.allTypes f.items).flatMap TypeDecl.fieldStarts).Nodup)
  (hpaths : (files.map (·.path)).Nodup)

include hplaces hpaths

/-- Variables that reports point at, if the reports agree in place, are one. -/
theorem eq_of_pointsAt {owner owner' : TypeId} {v v' : MarkedVariable}
    (hv : v ∈ (ofFiles files).markedVariables s owner)
    (hv' : v' ∈ (ofFiles files).markedVariables s owner')
    (hr : r.PointsAt ((ofFiles files).path v.site.file) v.declarator.nameSpan)
    (hr' : r'.PointsAt ((ofFiles files).path v'.site.file) v'.declarator.nameSpan)
    (hfile : r.file = r'.file) (hspan : r.primarySpan = r'.primarySpan) :
    owner = owner' ∧ v = v' := by
  obtain ⟨symbol, hsymbol⟩ := exists_symbol_of_mem_markedVariables hv
  obtain ⟨symbol', hsymbol'⟩ := exists_symbol_of_mem_markedVariables hv'
  have hsite := ((mem_markedVariables_iff hsymbol).mp hv).1
  have hsite' := ((mem_markedVariables_iff hsymbol').mp hv').1
  have hpath := Option.some.inj ((hr.1.symm.trans hfile).trans hr'.1)
  have hstart := congrArg Span.start (Option.some.inj ((hr.2.symm.trans hspan).trans hr'.2))
  exact eq_of_place hplaces hv hv' (Prod.ext (eq_of_path_eq hpaths
    (file_lt_of_mem_sites hsymbol hsite) (file_lt_of_mem_sites hsymbol' hsite') hpath) hstart)

include hnames in
/-- Reports about classes that tie differ in nothing, unless both quote a type that is no
interface. -/
theorem eq_of_ties {symbol symbol' : Symbol} (hsymbol : (ofFiles files).symbol? id = some symbol)
    (hsymbol' : (ofFiles files).symbol? id' = some symbol')
    (hr : r ∈ (ofFiles files).reportsOf s id) (hr' : r' ∈ (ofFiles files).reportsOf s id')
    (hties : r.compare r' = .eq) :
    r = r' ∨ r.code = .notInterface ∧ (r.labels = r'.labels → r = r') := by
  have hapart := namesApart_of_paths hnames hpaths
  by_cases habout : r.code ∈ aboutClass
  · exact .inl (eq_of_ties_of_aboutClass hapart hsymbol hsymbol' hr hr' habout hties)
  obtain ⟨hfile, hspan, hcode, hmessage⟩ := Diagnostic.compare_eq_iff.mp hties
  have horigin := origin_of_mem_reportsOf hsymbol hr
  have horigin' := origin_of_mem_reportsOf hsymbol' hr'
  rw [Origin, ← hcode] at horigin'
  rw [Origin] at horigin
  split at horigin
  case h_1 =>
    obtain ⟨owner, v, hv, message, rfl⟩ := horigin
    obtain ⟨owner', v', hv', message', rfl⟩ := horigin'
    obtain ⟨-, rfl⟩ := eq_of_pointsAt hplaces hpaths hv hv' ⟨rfl, rfl⟩ ⟨rfl, rfl⟩ hfile hspan
    obtain rfl : message = message' := hmessage
    exact .inl rfl
  case h_5 =>
    split at horigin' <;> first | contradiction | skip
    obtain ⟨owner, v, hv, hskip⟩ := horigin
    obtain ⟨owner', v', hv', hskip'⟩ := horigin'
    obtain ⟨-, rfl⟩ :=
      eq_of_pointsAt hplaces hpaths hv hv' hskip.pointsAt hskip'.pointsAt hfile hspan
    obtain ⟨reason, type, backing, hreport⟩ := hskip
    obtain ⟨reason', type', backing', hreport'⟩ := hskip'
    exact SkipReason.eq_of_message_eq hreport hreport' hcode hmessage
  all_goals
    rename_i hkind
    rw [hkind] at habout
    exact absurd (by decide) habout

/-- Reports about inherited variables tie with that of a skipped variable once at most. -/
theorem length_tying_inheritedReports {owner : TypeId} {v : MarkedVariable}
    (hv : v ∈ (ofFiles files).markedVariables s owner) (hskip : (ofFiles files).IsSkip v r) :
    (r.tying ((ofFiles files).inheritedReports s id)).length ≤ 1 := by
  cases hclosed : (ofFiles files).closedBase? id with
  | none =>
    simp [inheritedReports, inheritances, tooDeepReport, hclosed, Diagnostic.tying]
  | some closed =>
    have hdeep : r.tying ((ofFiles files).tooDeepReport s id).toList = [] := by
      refine List.filter_eq_nil_iff.mpr fun e he hties ↦ ?_
      have hcode := (Diagnostic.compare_eq_iff.mp (of_decide_eq_true hties)).2.2.1
      rw [code_of_tooDeepReport (Option.mem_toList.mp he)] at hcode
      exact absurd hskip.code_mem (hcode ▸ by decide)
    have hskips : (r.tying (((ofFiles files).inheritances s id).filterMap fun p ↦
        (ofFiles files).inheritanceReport s id p.1 p.2)).length ≤ 1 := by
      rw [inheritances_eq hclosed, List.filterMap_map]
      have hnodup : (((ofFiles files).openVariables s closed.1).map MarkedVariable.place).Nodup :=
        (nodup_places_markedVariables hplaces s closed.1).sublist (List.filter_sublist.map _)
      refine length_filter_filterMap_le_one (k := v.place) hnodup fun w hw e he hties ↦ ?_
      obtain ⟨hfile, hspan, hcode, -⟩ :=
        Diagnostic.compare_eq_iff.mp (of_decide_eq_true hties)
      have hpoints : e.PointsAt ((ofFiles files).path w.site.file) w.declarator.nameSpan := by
        rcases isSkip_or_isHidden_of_inheritanceReport he with hskip' | ⟨message, rfl⟩
        · exact hskip'.pointsAt
        · exact ⟨rfl, rfl⟩
      exact congrArg _ (eq_of_pointsAt hplaces hpaths (List.mem_of_mem_filter hw) hv hpoints
        hskip.pointsAt hfile hspan).2
    rw [inheritedReports, Diagnostic.tying, List.filter_append, ← Diagnostic.tying,
      ← Diagnostic.tying, hdeep, List.append_nil]
    split
    · exact hskips
    · exact Nat.zero_le 1

/-- A class reports once at most that a variable of another class is skipped. -/
theorem tying_eq_of_isSkip {owner : TypeId} {v : MarkedVariable} {symbol : Symbol}
    (hsymbol : (ofFiles files).symbol? id = some symbol)
    (hv : v ∈ (ofFiles files).markedVariables s owner) (hskip : (ofFiles files).IsSkip v r)
    (hr : r ∈ (ofFiles files).reportsOf s id) (hne : id ≠ owner) :
    r.tying ((ofFiles files).reportsOf s id) = [r] := by
  obtain ⟨partiality, hooks, hpartiality, hhooks, heq⟩ := reportsOf_eq hsymbol s
  have hown : r.tying (symbol.ownReports (ofFiles files) s) = [] := by
    refine List.filter_eq_nil_iff.mpr fun e he hties ↦ hne ?_
    obtain ⟨hfile, hspan, -, -⟩ := Diagnostic.compare_eq_iff.mp (of_decide_eq_true hties)
    obtain ⟨w, hw, hskip'⟩ := isSkip_of_ownReports hsymbol he
    exact (eq_of_pointsAt hplaces hpaths hw hv hskip'.pointsAt hskip.pointsAt hfile hspan).1
  have hpartial : r.tying partiality = [] := by
    refine List.filter_eq_nil_iff.mpr fun e he hties ↦ ?_
    have hcode := (Diagnostic.compare_eq_iff.mp (of_decide_eq_true hties)).2.2.1
    rw [code_of_notPartialReport (hpartiality e he)] at hcode
    exact absurd hskip.code_mem (hcode ▸ by decide)
  have hhook : r.tying hooks = [] := by
    refine List.filter_eq_nil_iff.mpr fun e he hties ↦ ?_
    have hcode := (Diagnostic.compare_eq_iff.mp (of_decide_eq_true hties)).2.2.1
    rw [code_of_handWrittenReport (hhooks e he)] at hcode
    exact absurd hskip.code_mem (hcode ▸ by decide)
  have hsplit : r.tying ((ofFiles files).reportsOf s id) =
      r.tying ((ofFiles files).inheritedReports s id) := by
    rw [heq]
    simp only [Diagnostic.tying, List.filter_append] at hown hpartial hhook ⊢
    rw [hown, hpartial, hhook, List.nil_append, List.append_nil, List.append_nil]
  have hmem : r ∈ r.tying ((ofFiles files).reportsOf s id) :=
    Diagnostic.mem_tying_iff.mpr ⟨hr, Std.ReflCmp.compare_self⟩
  have hlength : (r.tying ((ofFiles files).inheritedReports s id)).length ≤ 1 :=
    length_tying_inheritedReports hplaces hpaths hv hskip
  rw [← hsplit] at hlength
  obtain ⟨e, he⟩ := List.length_eq_one_iff.mp (hlength.antisymm (List.length_pos_of_mem hmem))
  rw [he] at hmem ⊢
  rw [List.mem_singleton.mp hmem]

include hnames in
/-- The order in which candidates are analyzed makes no difference if and only if two of them that
report one variable as no interface quote one type. -/
theorem orderFree_iff_of_places : (ofFiles files).OrderFree s ↔
    ∀ id ∈ (ofFiles files).candidates, ∀ id' ∈ (ofFiles files).candidates, id ≠ id' →
      ∀ r ∈ (ofFiles files).reportsOf s id, ∀ r' ∈ (ofFiles files).reportsOf s id',
        r.code = .notInterface → r.compare r' = .eq → r.labels = r'.labels := by
  rw [orderFree_iff_commute]
  constructor
  · intro hcommute id hid id' hid' hne r hr r' hr' hcode hties
    obtain ⟨symbol, hsymbol, -⟩ := exists_symbol_of_mem_candidates hid
    obtain ⟨symbol', hsymbol', -⟩ := exists_symbol_of_mem_candidates hid'
    obtain ⟨hfile, hspan, hcodes, -⟩ := Diagnostic.compare_eq_iff.mp hties
    have horigin := origin_of_mem_reportsOf hsymbol hr
    have horigin' := origin_of_mem_reportsOf hsymbol' hr'
    rw [Origin, hcode] at horigin
    rw [Origin, ← hcodes, hcode] at horigin'
    obtain ⟨owner, v, hv, hskip⟩ := horigin
    obtain ⟨owner', v', hv', hskip'⟩ := horigin'
    obtain ⟨rfl, rfl⟩ :=
      eq_of_pointsAt hplaces hpaths hv hv' hskip.pointsAt hskip'.pointsAt hfile hspan
    -- One of the two classes does not declare the variable, and so reports it once.
    by_cases hother : id = owner
    · subst hother
      have halone := tying_eq_of_isSkip hplaces hpaths hsymbol' hv hskip' hr' (Ne.symm hne)
      have hcommutes := hcommute id' hid' id hid r'
      rw [halone] at hcommutes
      rw [eq_of_singleton_append_comm hcommutes r (Diagnostic.mem_tying_iff.mpr ⟨hr, hties⟩)]
    · have halone := tying_eq_of_isSkip hplaces hpaths hsymbol hv hskip hr hother
      have hcommutes := hcommute id hid id' hid' r
      rw [halone] at hcommutes
      rw [eq_of_singleton_append_comm hcommutes r'
        (Diagnostic.mem_tying_iff.mpr ⟨hr', Std.OrientedCmp.eq_symm hties⟩)]
  · intro hlabels id hid id' hid' d
    by_cases hsame : id = id'
    · rw [hsame]
    obtain ⟨symbol, hsymbol, -⟩ := exists_symbol_of_mem_candidates hid
    obtain ⟨symbol', hsymbol', -⟩ := exists_symbol_of_mem_candidates hid'
    refine append_comm_of_forall_eq fun r hr r' hr' ↦ ?_
    obtain ⟨hmem, hd⟩ := Diagnostic.mem_tying_iff.mp hr
    obtain ⟨hmem', hd'⟩ := Diagnostic.mem_tying_iff.mp hr'
    have hties : r.compare r' = .eq := Std.TransCmp.eq_trans hd (Std.OrientedCmp.eq_symm hd')
    rcases eq_of_ties hnames hplaces hpaths hsymbol hsymbol' hmem hmem' hties with
      heq | ⟨hcode, heq⟩
    · exact heq
    · exact heq (hlabels id hid id' hid' hsame r hmem r' hmem' hcode hties)

end Places

end Files

/-- In files with different paths, as far as offsets reach, the order in which candidates are
analyzed makes no difference if and only if any two of them that report one variable as no interface
quote one type. -/
theorem orderFree_iff_labels {texts : List (String × String)} (hreach : Sources.InReach texts)
    (hpaths : (texts.map Prod.fst).Nodup) :
    (ofFiles (Sources.ofTexts texts).files).OrderFree s ↔
      ∀ id ∈ (ofFiles (Sources.ofTexts texts).files).candidates,
        ∀ id' ∈ (ofFiles (Sources.ofTexts texts).files).candidates, id ≠ id' →
          ∀ r ∈ (ofFiles (Sources.ofTexts texts).files).reportsOf s id,
            ∀ r' ∈ (ofFiles (Sources.ofTexts texts).files).reportsOf s id',
              r.code = .notInterface → r.compare r' = .eq → r.labels = r'.labels :=
  orderFree_iff_of_places (Sources.nodup_nameSpans hreach) (Sources.nodup_fieldStarts hreach)
    (Sources.map_path_files texts ▸ hpaths)

/-- Two classes give the type of one inherited field different values, none of them an interface. -/
private def tieTexts : List (String × String) :=
  [("Tie.cs", "class P<T>{[SerializeInterface]protected T f;}class A:P<int>{}class B:P<string>{}")]

private abbrev tieFiles : List SourceFile := (Sources.ofTexts tieTexts).files

private theorem tie_inReach : Sources.InReach tieTexts := by decide +kernel

private theorem tie_facts :
    (ofFiles tieFiles).candidates = [19, 20, 21] ∧
      ∃ r ∈ (ofFiles tieFiles).reportsOf {} 20, ∃ r' ∈ (ofFiles tieFiles).reportsOf {} 21,
        r.code = .notInterface ∧ (r.file = r'.file ∧ r.primarySpan = r'.primarySpan ∧
          r.code = r'.code ∧ r.message = r'.message) ∧ r.labels ≠ r'.labels := by
  decide +kernel

theorem not_orderFree_of_labels_ne :
    (tieTexts.map Prod.fst).Nodup ∧ ¬ (ofFiles tieFiles).OrderFree {} := by
  obtain ⟨hcandidates, r, hr, r', hr', hcode, hagree, hlabels⟩ := tie_facts
  have hpaths : (tieTexts.map Prod.fst).Nodup := by decide
  refine ⟨hpaths, fun hfree ↦ hlabels ?_⟩
  exact (orderFree_iff_labels tie_inReach hpaths).mp hfree 20 (by simp [hcandidates]) 21
    (by simp [hcandidates]) (by decide) r hr r' hr' hcode (Diagnostic.compare_eq_iff.mpr hagree)

/-- Orders can be told apart. -/
theorem not_forall_orderFree :
    ¬ ∀ (texts : List (String × String)) (s : Settings),
      (ofFiles (Sources.ofTexts texts).files).OrderFree s := by
  intro hall
  obtain ⟨hcandidates, r, hr, r', hr', hcode, hagree, hlabels⟩ := tie_facts
  have hpaths : (tieFiles.map (·.path)).Nodup := by decide +kernel
  refine hlabels ((orderFree_iff_of_places (Sources.nodup_nameSpans tie_inReach)
    (Sources.nodup_fieldStarts tie_inReach) hpaths).mp (hall tieTexts {}) 20
      (by simp [hcandidates]) 21
    (by simp [hcandidates]) (by decide) r hr r' hr' hcode (Diagnostic.compare_eq_iff.mpr hagree))

end Compilation
end Companion
