import Companion.Diagnostic.Report
import Mathlib.Data.List.Infix

/-!
Colors are the only difference between a report with colors and one without. Whatever is written one
after the other, a report with colors becomes the plain one when its escape sequences are taken out
again (`Report.erase`), as long as the texts in it bring no escape character of their own
(`Report.erase_written`). An escape character starts each sequence and none begins another one, so
that in what is written every sequence is found where it was put (`Report.eraseWithin_chunk`).
-/

set_option autoImplicit false
set_option relaxedAutoImplicit false

namespace Companion

/-! ### Cuts of a text -/

namespace Text

theorem suffix_of_dropBytes {n : Nat} {cs rest : List Char} (h : dropBytes n cs = some rest) :
    rest <:+ cs := by
  fun_induction dropBytes n cs with
  | case1 cs => exact Option.some.inj h ▸ List.suffix_refl _
  | case2 => cases h
  | case3 n c cs _ ih => exact (ih h).trans (List.suffix_cons c cs)
  | case4 => cases h

theorem prefix_of_takeBytes {n : Nat} {cs front : List Char} (h : takeBytes n cs = some front) :
    front <+: cs := by
  fun_induction takeBytes n cs generalizing front with
  | case1 cs => exact Option.some.inj h ▸ List.nil_prefix
  | case2 => cases h
  | case3 n c cs _ ih =>
    obtain ⟨front, hfront, rfl⟩ := Option.map_eq_some_iff.mp h
    exact List.prefix_cons_inj c |>.mpr (ih hfront)
  | case4 => cases h

/-- The text between two offsets is a piece of the text. -/
theorem infix_of_between {start stop : Nat} {cs piece : List Char}
    (h : between start stop cs = some piece) : piece <:+: cs := by
  unfold between at h
  split at h
  · obtain ⟨rest, hrest, hpiece⟩ := Option.bind_eq_some_iff.mp h
    exact (prefix_of_takeBytes hpiece).isInfix.trans (suffix_of_dropBytes hrest).isInfix
  · cases h

end Text

namespace Report

/-! ### Steps of a report -/

/-- Something that is done to write a report. -/
inductive Step where
  /-- The text of a file becomes known, in place of what was known of it. -/
  | source (path text : String)
  | emit (d : Diagnostic)
  | summary (errors warnings : Nat)

/-- The texts that a step brings with it. -/
def Step.texts : Step → List String
  | .source path text => [path, text]
  | .emit d => d.message :: d.file.toList ++ d.labels.map (·.message) ++ d.notes ++ d.suggestions
  | .summary _ _ => []

/-- A report that is being written. -/
structure Draft where
  sources : Sources
  chunks : List Chunk

def Step.apply : Step → Draft → Draft
  | .source path text, r => { r with sources := (path, text) :: r.sources }
  | .emit d, r => { r with chunks := r.chunks ++ Report.diagnostic r.sources d }
  | .summary errors warnings, r => { r with chunks := r.chunks ++ Report.summary errors warnings }

/-- What is written after some steps. -/
def written (colors : Bool) (steps : List Step) : String :=
  paint colors (steps.foldl (fun r step ↦ step.apply r) (⟨[], []⟩ : Draft)).chunks

/-! ### Escape sequences -/

/-- The character that starts an escape sequence. -/
def escapeChar : Char := '\x1b'

/-- Every escape sequence that is ever written. -/
def escapeSequences : List (List Char) :=
  reset.toList ::
    [Style.boldRed, .boldYellow, .boldCyan, .boldGreen, .boldBlue, .bold].map (·.escape.toList)

/-- The characters of a text without the escape sequences in it. The next `covered` characters
belong to a sequence that has been found. -/
def eraseWithin : Nat → List Char → List Char
  | _, [] => []
  | covered + 1, _ :: cs => eraseWithin covered cs
  | 0, c :: cs =>
    match escapeSequences.find? (·.isPrefixOf (c :: cs)) with
    | some s => eraseWithin (s.length - 1) cs
    | none => c :: eraseWithin 0 cs

/-- A text without the escape sequences in it. -/
def erase (text : String) : String := String.ofList (eraseWithin 0 text.toList)

/-- A text without escape characters. -/
def IsPlain (text : String) : Prop := escapeChar ∉ text.toList

instance (text : String) : Decidable (IsPlain text) :=
  inferInstanceAs (Decidable (escapeChar ∉ text.toList))

theorem escape_mem_escapeSequences (s : Style) : s.escape.toList ∈ escapeSequences := by
  cases s <;> decide

theorem reset_mem_escapeSequences : reset.toList ∈ escapeSequences := List.mem_cons_self

theorem exists_eq_cons_of_mem_escapeSequences {s : List Char} (h : s ∈ escapeSequences) :
    ∃ more, s = escapeChar :: more := by
  have hhead : ∀ s ∈ escapeSequences, s.head? = some escapeChar := by decide
  obtain ⟨more, hmore⟩ := List.head?_eq_some_iff.mp (hhead s h)
  exact ⟨more, hmore⟩

/-- No sequence begins another one. -/
theorem eq_of_prefix_escapeSequences {s s' : List Char} (h : s ∈ escapeSequences)
    (h' : s' ∈ escapeSequences) (hbegins : s <+: s') : s = s' := by
  have hfree : ∀ s ∈ escapeSequences, ∀ s' ∈ escapeSequences, s.isPrefixOf s' = true → s = s' := by
    decide
  exact hfree s h s' h' (List.isPrefixOf_iff_prefix.mpr hbegins)

variable {s cs rest : List Char} {text : String}

/-- Where a sequence stands, that sequence is found. -/
theorem find?_escapeSequences (h : s ∈ escapeSequences) (rest : List Char) :
    escapeSequences.find? (·.isPrefixOf (s ++ rest)) = some s := by
  obtain ⟨s', hs'⟩ := Option.isSome_iff_exists.mp
    (List.find?_isSome (p := fun s' ↦ s'.isPrefixOf (s ++ rest)).mpr
      ⟨s, h, List.isPrefixOf_iff_prefix.mpr (List.prefix_append s rest)⟩)
  have hmem := List.mem_of_find?_eq_some hs'
  have hprefix : s' <+: s ++ rest := by simpa using List.find?_some hs'
  rcases List.prefix_or_prefix_of_prefix hprefix (List.prefix_append s rest) with hle | hle
  · rw [hs', eq_of_prefix_escapeSequences hmem h hle]
  · rw [hs', eq_of_prefix_escapeSequences h hmem hle]

theorem find?_escapeSequences_eq_none {c : Char} (hc : c ≠ escapeChar) (cs : List Char) :
    escapeSequences.find? (·.isPrefixOf (c :: cs)) = none := by
  rw [List.find?_eq_none]
  intro s hs hprefix
  obtain ⟨more, rfl⟩ := exists_eq_cons_of_mem_escapeSequences hs
  exact hc (List.cons_prefix_cons.mp (List.isPrefixOf_iff_prefix.mp hprefix)).1.symm

theorem eraseWithin_covered (s rest : List Char) :
    eraseWithin s.length (s ++ rest) = eraseWithin 0 rest := by
  induction s with
  | nil => rfl
  | cons c s ih => rw [List.length_cons, List.cons_append, eraseWithin, ih]

/-- A sequence is taken out. -/
theorem eraseWithin_sequence (h : s ∈ escapeSequences) (rest : List Char) :
    eraseWithin 0 (s ++ rest) = eraseWithin 0 rest := by
  have hfound := find?_escapeSequences h rest
  obtain ⟨more, rfl⟩ := exists_eq_cons_of_mem_escapeSequences h
  rw [List.cons_append] at hfound ⊢
  rw [eraseWithin, hfound]
  exact eraseWithin_covered more rest

/-- Characters that start no sequence stay. -/
theorem eraseWithin_plain (h : escapeChar ∉ cs) (rest : List Char) :
    eraseWithin 0 (cs ++ rest) = cs ++ eraseWithin 0 rest := by
  induction cs with
  | nil => rfl
  | cons c cs ih =>
    obtain ⟨hc, hcs⟩ := not_or.mp (mt List.mem_cons.mpr h)
    rw [List.cons_append, eraseWithin, find?_escapeSequences_eq_none (Ne.symm hc), ih hcs]
    rfl

/-! ### Chunks -/

theorem toList_paint (colors : Bool) (chunks : List Chunk) :
    (paint colors chunks).toList = chunks.flatMap fun c ↦ (c.paint colors).toList := by
  rw [paint, String.toList_join, List.flatMap_map]

theorem Chunk.paint_false (c : Chunk) : c.paint false = c.text := by
  unfold Chunk.paint
  split <;> rfl

/-- A chunk in colors is erased to its text. -/
theorem eraseWithin_chunk {c : Chunk} (h : IsPlain c.text) (rest : List Char) :
    eraseWithin 0 ((c.paint true).toList ++ rest) = c.text.toList ++ eraseWithin 0 rest := by
  unfold Chunk.paint
  split
  case h_1 style _ =>
    rw [if_pos rfl, String.toList_append, String.toList_append, List.append_assoc,
      List.append_assoc, eraseWithin_sequence (escape_mem_escapeSequences style),
      eraseWithin_plain h, eraseWithin_sequence reset_mem_escapeSequences]
  case h_2 => exact eraseWithin_plain h rest

/-- A report in colors is erased to the plain one, by induction over its chunks. -/
theorem erase_paint {chunks : List Chunk} (h : ∀ c ∈ chunks, IsPlain c.text) :
    erase (paint true chunks) = paint false chunks := by
  rw [← String.toList_inj, erase, String.toList_ofList, toList_paint, toList_paint]
  induction chunks with
  | nil => rfl
  | cons c chunks ih =>
    obtain ⟨hc, hchunks⟩ := List.forall_mem_cons.mp h
    rw [List.flatMap_cons, eraseWithin_chunk hc, ih hchunks, List.flatMap_cons, c.paint_false]

theorem isPlain_paint_false {chunks : List Chunk} (h : ∀ c ∈ chunks, IsPlain c.text) :
    IsPlain (paint false chunks) := by
  unfold IsPlain
  rw [toList_paint]
  intro hmem
  obtain ⟨c, hc, hchar⟩ := List.mem_flatMap.mp hmem
  exact h c hc (c.paint_false ▸ hchar)

/-! ### What is written is plain -/

theorem IsPlain.append {a b : String} (ha : IsPlain a) (hb : IsPlain b) : IsPlain (a ++ b) := by
  unfold IsPlain
  rw [String.toList_append, List.mem_append, not_or]
  exact ⟨ha, hb⟩

theorem isPlain_toString (n : Nat) : IsPlain (toString n) := by
  unfold IsPlain
  rw [Nat.toString_eq_repr, Nat.toList_repr]
  intro hmem
  exact absurd (Nat.isDigit_of_mem_toDigits (by decide) (by decide) hmem) (by decide)

theorem isPlain_display (s : Span) : IsPlain s.display :=
  ((isPlain_toString _).append (by decide)).append (isPlain_toString _)

theorem IsPlain.trimRight (h : IsPlain text) : IsPlain (Text.trimRight text) := by
  unfold IsPlain Text.trimRight
  rw [String.toList_ofList, List.mem_reverse]
  exact fun hmem ↦ h (List.mem_reverse.mp (List.dropWhile_subset _ hmem))

/-- A line of a source has no characters but those of the source. -/
theorem IsPlain.lineText {line : String} (h : IsPlain text) (t : LineTable) (n : Nat)
    (hline : t.lineText text n = some line) : IsPlain line := by
  obtain _ | n := n
  · cases hline
  · unfold LineTable.lineText at hline
    dsimp only at hline
    split at hline
    · cases hline
    · obtain ⟨piece, hpiece, rfl⟩ := Option.map_eq_some_iff.mp hline
      unfold IsPlain LineTable.dropLineEnds
      rw [String.toList_ofList, List.mem_reverse]
      intro hmem
      exact h ((Text.infix_of_between hpiece).subset
        (List.mem_reverse.mp (List.dropWhile_subset _ hmem)))

variable {sources : Sources} {file : Option String} {d : Diagnostic}

/-- The texts of known sources have no escape characters. -/
def Sources.ArePlain (sources : Sources) : Prop := ∀ e ∈ sources, IsPlain e.2

def ArePlain (chunks : List Chunk) : Prop := ∀ c ∈ chunks, IsPlain c.text

theorem arePlain_nil : ArePlain [] := List.forall_mem_nil _

theorem ArePlain.cons {c : Chunk} {chunks : List Chunk} (h : IsPlain c.text)
    (hchunks : ArePlain chunks) : ArePlain (c :: chunks) :=
  List.forall_mem_cons.mpr ⟨h, hchunks⟩

theorem ArePlain.append {chunks more : List Chunk} (h : ArePlain chunks) (hmore : ArePlain more) :
    ArePlain (chunks ++ more) :=
  List.forall_mem_append.mpr ⟨h, hmore⟩

theorem isPlain_locate (hsources : sources.ArePlain) (hfile : ∀ path ∈ file, IsPlain path)
    (l : Label) :
    IsPlain (locate sources file l).1 ∧ ∀ line ∈ (locate sources file l).2, IsPlain line := by
  have hcolon : IsPlain ":" := by decide
  have hstop : IsPlain ": " := by decide
  unfold locate
  split
  case h_1 => exact ⟨(isPlain_display _).append hstop, nofun⟩
  case h_2 path =>
    have hpath := hfile path rfl
    split
    case h_1 =>
      exact ⟨((hpath.append (by decide)).append (isPlain_display _)).append hstop, nofun⟩
    case h_2 source hfound =>
      obtain ⟨before, more, rfl, -⟩ := List.lookup_eq_some_iff.mp hfound
      have hsource : IsPlain source := hsources (path, source) (by simp)
      refine ⟨?_, fun line ↦ hsource.lineText _ _⟩
      exact ((((hpath.append hcolon).append (isPlain_toString _)).append hcolon).append
        (isPlain_toString _)).append hstop

theorem arePlain_label (hsources : sources.ArePlain) (hfile : ∀ path ∈ file, IsPlain path)
    {l : Label} (hmessage : IsPlain l.message) : ArePlain (label sources file l) := by
  obtain ⟨hlocation, hsnippet⟩ := isPlain_locate hsources hfile l
  have hspace : IsPlain "  " := by decide
  have hbar : IsPlain "   | " := by decide
  have hlineEnd : IsPlain "\n" := by decide
  have hmarker : IsPlain (Diagnostic.marker l) := by
    unfold Diagnostic.marker
    split <;> decide
  have hfirst := (hspace.append hmarker).append (by decide : IsPlain " ")
  unfold label
  refine .append ?_ ?_
  · exact .cons hfirst (.cons hlocation (.cons hmessage (.cons hlineEnd arePlain_nil)))
  · split
    case h_1 text hline =>
      exact .cons ((hbar.append (hsnippet text hline).trimRight).append hlineEnd) arePlain_nil
    case h_2 => exact arePlain_nil

/-- A remark below a diagnostic. -/
theorem arePlain_remark (style : Style) {word : String} (hword : IsPlain word)
    (htext : IsPlain text) :
    ArePlain [plain "  = ", styled style word, plain (": " ++ text ++ "\n")] := by
  have hstart : IsPlain "  = " := by decide
  have hcolon : IsPlain ": " := by decide
  have hrest := (hcolon.append htext).append (by decide : IsPlain "\n")
  exact .cons hstart (.cons hword (.cons hrest arePlain_nil))

theorem arePlain_diagnostic (hsources : sources.ArePlain)
    (htexts : ∀ text ∈ (Step.emit d).texts, IsPlain text) : ArePlain (diagnostic sources d) := by
  simp only [Step.texts, List.cons_append, List.forall_mem_cons, List.forall_mem_append,
    List.forall_mem_map, Option.mem_toList] at htexts
  obtain ⟨hmessage, ⟨⟨hfile, hlabels⟩, hnotes⟩, hsuggestions⟩ := htexts
  have hcolon : IsPlain ": " := by decide
  have harrow : IsPlain "  --> " := by decide
  have hlineEnd : IsPlain "\n" := by decide
  have hseverity : IsPlain d.severity.text := by
    cases d.severity <;> decide
  have hcode : IsPlain ("[" ++ d.code.text ++ "]") := by
    cases d.code <;> decide
  unfold diagnostic
  refine .append (.append (.append (.append (.append ?header ?labels) ?file) ?notes) ?helps) ?stop
  case header =>
    have hheader := (hcolon.append hmessage).append hlineEnd
    exact .cons hseverity (.cons hcode (.cons hheader arePlain_nil))
  case labels =>
    exact List.forall_mem_flatMap.mpr fun l hl ↦ arePlain_label hsources hfile (hlabels l hl)
  case file =>
    split
    case h_1 path _ hpath =>
      exact .cons ((harrow.append (hfile path hpath)).append hlineEnd) arePlain_nil
    case h_2 => exact arePlain_nil
  case notes =>
    exact List.forall_mem_flatMap.mpr fun n hn ↦ arePlain_remark .bold (by decide) (hnotes n hn)
  case helps =>
    exact List.forall_mem_flatMap.mpr fun n hn ↦
      arePlain_remark .boldGreen (by decide) (hsuggestions n hn)
  case stop => exact .cons hlineEnd arePlain_nil

theorem isPlain_warningsEmitted (n : Nat) : IsPlain (warningsEmitted n) := by
  have hending : IsPlain (if n = 1 then "" else "s") := by
    split <;> decide
  exact (((isPlain_toString n).append (by decide)).append hending).append (by decide)

theorem arePlain_summary (errors warnings : Nat) : ArePlain (summary errors warnings) := by
  have hlineEnd : IsPlain "\n" := by decide
  unfold summary
  split
  · split
    · exact arePlain_nil
    · have hword : IsPlain "warning" := by decide
      have hcolon : IsPlain ": " := by decide
      have hrest := (hcolon.append (isPlain_warningsEmitted warnings)).append hlineEnd
      exact .cons hword (.cons hrest arePlain_nil)
  · have hword : IsPlain "error" := by decide
    have hstart : IsPlain ": aborting due to " := by decide
    have hprevious : IsPlain
        (if errors = 1 then "previous error" else toString errors ++ " previous errors") := by
      split
      · decide
      · exact (isPlain_toString errors).append (by decide)
    have hemitted : IsPlain (if warnings = 0 then "" else "; " ++ warningsEmitted warnings) := by
      split
      · decide
      · exact .append (by decide) (isPlain_warningsEmitted warnings)
    have hrest := ((hstart.append hprevious).append hemitted).append hlineEnd
    exact .cons hword (.cons hrest arePlain_nil)

/-! ### Steps one after the other -/

/-- Nothing that has been taken up so far has escape characters. -/
structure Draft.IsPlain (r : Draft) : Prop where
  sources : Sources.ArePlain r.sources
  chunks : ArePlain r.chunks

theorem Draft.IsPlain.apply {r : Draft} (h : r.IsPlain) {step : Step}
    (htexts : ∀ text ∈ step.texts, Report.IsPlain text) : (step.apply r).IsPlain := by
  cases step with
  | source path text =>
    have htext : Report.IsPlain text := htexts text (by simp [Step.texts])
    exact ⟨List.forall_mem_cons.mpr ⟨htext, h.sources⟩, h.chunks⟩
  | emit d => exact ⟨h.sources, h.chunks.append (arePlain_diagnostic h.sources htexts)⟩
  | summary errors warnings => exact ⟨h.sources, h.chunks.append (arePlain_summary errors warnings)⟩

/-- What is written after any steps is plain, by induction over them. -/
theorem Draft.IsPlain.foldl {r : Draft} (h : r.IsPlain) {steps : List Step}
    (htexts : ∀ step ∈ steps, ∀ text ∈ step.texts, Report.IsPlain text) :
    (steps.foldl (fun r step ↦ step.apply r) r).IsPlain := by
  induction steps generalizing r with
  | nil => exact h
  | cons step steps ih =>
    obtain ⟨hstep, hsteps⟩ := List.forall_mem_cons.mp htexts
    exact ih (h.apply hstep) hsteps

theorem foldl_source (texts : Sources) (r : Draft) :
    (texts.map fun e ↦ Step.source e.1 e.2).foldl (fun r step ↦ step.apply r) r =
      { r with sources := texts.reverse ++ r.sources } := by
  induction texts generalizing r with
  | nil => rfl
  | cons e texts ih =>
    rw [List.map_cons, List.foldl_cons, ih, List.reverse_cons, List.append_assoc]
    rfl

theorem foldl_emit (ds : List Diagnostic) (r : Draft) :
    (ds.map Step.emit).foldl (fun r step ↦ step.apply r) r =
      { r with chunks := r.chunks ++ ds.flatMap (Report.diagnostic r.sources) } := by
  induction ds generalizing r with
  | nil => rw [List.flatMap_nil, List.append_nil, List.map_nil, List.foldl_nil]
  | cons d ds ih =>
    rw [List.map_cons, List.foldl_cons, ih, List.flatMap_cons, ← List.append_assoc]
    rfl

/-- What a run reports is written in such steps: all texts first, then each diagnostic, then the
summary. -/
theorem paint_all (colors : Bool) (sources : Sources) (ds : List Diagnostic) :
    paint colors (all sources ds) =
      written colors ((sources.reverse.map fun e ↦ Step.source e.1 e.2) ++ ds.map Step.emit ++
        [.summary (Diagnostic.errorCount ds) (Diagnostic.warningCount ds)]) := by
  rw [written, List.foldl_append, List.foldl_append, foldl_source, foldl_emit, List.reverse_reverse,
    List.append_nil, List.nil_append]
  rfl

/-- Colors do not change what is written: without its escape sequences a report with colors is the
plain one, in which there are no escape characters. -/
theorem erase_written {steps : List Step}
    (htexts : ∀ step ∈ steps, ∀ text ∈ step.texts, IsPlain text) :
    erase (written true steps) = written false steps ∧ IsPlain (written false steps) := by
  have hempty : Draft.IsPlain ⟨[], []⟩ := ⟨List.forall_mem_nil _, arePlain_nil⟩
  have hdraft := hempty.foldl htexts
  exact ⟨erase_paint hdraft.chunks, isPlain_paint_false hdraft.chunks⟩

/-- A diagnostic in a known file and one in an unknown file. -/
def mixedSteps : List Step :=
  [.source "a" "x\ny\n", .emit ⟨.readonlyNotList, .warning, "m", some "a",
      [⟨⟨2, 3⟩, "here", true⟩, ⟨⟨0, 1⟩, "", false⟩], ["n"], []⟩,
    .emit ⟨.unclosedDelimiter, .error, "e", some "b", [⟨⟨4, 5⟩, "there", true⟩], [], ["s"]⟩,
    .summary 1 2]

/-- Every kind of chunk is among what is written here, a label without a text too. -/
theorem erase_written_mixed :
    (∀ step ∈ mixedSteps, ∀ text ∈ step.texts, IsPlain text) ∧
      written false mixedSteps = "warning[E2003]: m\n  --> a:2:1: here\n   | y\n      a:1:1: \n" ++
        "   | x\n  = note: n\n\nerror[E1004]: e\n  --> b 4..5: there\n  = help: s\n\n" ++
        "error: aborting due to previous error; 2 warnings emitted\n" ∧
      written true mixedSteps ≠ written false mixedSteps ∧
      erase (written true mixedSteps) = written false mixedSteps ∧
      IsPlain (written false mixedSteps) := by
  have htexts : ∀ step ∈ mixedSteps, ∀ text ∈ step.texts, IsPlain text := by decide
  exact ⟨htexts, by decide +kernel, by decide +kernel, erase_written htexts⟩

end Report
end Companion
