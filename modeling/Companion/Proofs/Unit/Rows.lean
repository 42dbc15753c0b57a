import Companion.Unit.Layout
import Mathlib.Data.List.Chain

/-!
The rows of a layout. What is written line by line is planned first (`Plan`): each row has the depth
at which it stands, and the brace that closes a block is a row at the depth of the brace that opened
it. An empty line is only asked for, and stands in front of the next row unless that one is the
first, stands behind an opening brace or is a closing one. A layout writes empty lines at once and
takes them back later; whatever the order of operations, what it has written in the end are the rows
of the plan (`Follows.foldl`, `isTidy_run`).
-/

set_option autoImplicit false
set_option relaxedAutoImplicit false

namespace Companion.Layout

/-! ### Operations and plans -/

/-- One operation on a layout. -/
inductive Operation where
  | line (text : String)
  | blank
  | opened (header : String)
  | closed
  | deeper
  | shallower
  deriving DecidableEq

def Operation.apply : Operation → Layout → Layout
  | .line text => Layout.line text
  | .blank => Layout.blank
  | .opened header => Layout.opened header
  | .closed => Layout.closed
  | .deeper => Layout.deeper
  | .shallower => Layout.shallower

/-- The layout after some operations. -/
def run (ops : List Operation) : Layout := ops.foldl (fun l o ↦ o.apply l) empty

/-- A text that makes one line, and not an empty one. -/
def IsLineText (text : String) : Prop := text ≠ "" ∧ '\n' ∉ text.toList

/-- The texts of an operation make one line each. -/
def Operation.IsWritable : Operation → Prop
  | .line text => IsLineText text
  | .opened header => IsLineText header
  | _ => True

/-- Operations that close each block and each level that they open, and nothing else. -/
inductive Bracketed : List Operation → Prop
  | nil : Bracketed []
  | line (text : String) {rest : List Operation} : Bracketed rest → Bracketed (.line text :: rest)
  | blank {rest : List Operation} : Bracketed rest → Bracketed (.blank :: rest)
  | block (header : String) {body rest : List Operation} :
    Bracketed body → Bracketed rest → Bracketed (.opened header :: (body ++ .closed :: rest))
  | indent {body rest : List Operation} :
    Bracketed body → Bracketed rest → Bracketed (.deeper :: (body ++ .shallower :: rest))

inductive Row.Kind where
  | text
  /-- The brace that opens a block. -/
  | opening
  /-- The brace that closes a block. -/
  | closing
  deriving DecidableEq

/-- A line that is not empty. -/
structure Row where
  kind : Row.Kind
  depth : Nat
  text : String
  /-- Whether an empty line is asked for in front of it. -/
  spaced : Bool
  deriving DecidableEq

/-- Something that is open, and indents what is in it. -/
inductive Level where
  /-- A block, with the row of its opening brace. -/
  | block (brace : Row)
  | indent
  deriving DecidableEq

/-- What operations ask for. -/
structure Plan where
  /-- What is open, innermost first. -/
  levels : List Level
  /-- The rows, last row first. -/
  rows : List Row
  /-- Whether an empty line is asked for behind the last row. -/
  spaced : Bool
  deriving DecidableEq

/-- The next row, at the depth of what is open. -/
def Plan.next (kind : Row.Kind) (text : String) (p : Plan) : Row :=
  ⟨kind, p.levels.length, text, p.spaced⟩

def Plan.write (kind : Row.Kind) (text : String) (p : Plan) : Plan :=
  { p with rows := p.next kind text :: p.rows, spaced := false }

/-- A plan with one more operation, unless that closes what is not open. -/
def Operation.plan? : Operation → Plan → Option Plan
  | .line text, p => some (p.write .text text)
  | .blank, p => some { p with spaced := true }
  | .opened header, p =>
    let q := p.write .text header
    some { q.write .opening "\x7b" with levels := .block (q.next .opening "\x7b") :: q.levels }
  | .closed, ⟨.block brace :: outer, rows, spaced⟩ =>
    some ⟨outer, ⟨.closing, brace.depth, "\x7d", spaced⟩ :: rows, false⟩
  | .deeper, p => some { p with levels := .indent :: p.levels }
  | .shallower, ⟨.indent :: outer, rows, spaced⟩ => some ⟨outer, rows, spaced⟩
  | .closed, _ | .shallower, _ => none

/-- A plan with some more operations. -/
def Plan.extend? (p : Plan) (ops : List Operation) : Option Plan :=
  ops.foldlM (fun p o ↦ o.plan? p) p

/-- The plan of some operations, if they close only what is open. -/
def plan? (ops : List Operation) : Option Plan := Plan.extend? ⟨[], [], false⟩ ops

/-! ### Lines -/

/-- Whether an empty line may stand behind some rows, of which the last comes first. -/
def takesBlank : List Row → Bool
  | [] => false
  | q :: _ => q.text.toList.getLast? ≠ some '\x7b'

/-- The lines of some rows, last first; nothing stands for an empty line. -/
def linesOf : List Row → List (Option Row)
  | [] => []
  | r :: rows =>
    some r :: (if r.spaced && r.kind ≠ .closing && takesBlank rows then [none] else []) ++
      linesOf rows

/-- The lines of a plan so far, last first. -/
def Plan.lines (p : Plan) : List (Option Row) :=
  (if p.spaced && takesBlank p.rows then [none] else []) ++ linesOf p.rows

def lineChars : Option Row → List Char
  | none => []
  | some r => List.replicate (r.depth * 4) ' ' ++ r.text.toList

/-- The lines of a text, one after the other, and how they stand to the rows that were asked for. -/
structure IsTidy (rows : List Row) (lines : List (Option Row)) (text : List Char) : Prop where
  /-- The lines that are not empty are the rows, one after the other. -/
  filterMap_eq : lines.filterMap id = rows
  isLineText : ∀ r ∈ rows, IsLineText r.text
  text_eq : text = if lines = [] then ['\n'] else lines.flatMap fun line ↦ lineChars line ++ ['\n']
  /-- The first line is not empty. -/
  starts : ∀ line ∈ lines.head?, line ≠ none
  /-- Of two lines one behind the other one is not empty. -/
  doubled : lines.IsChain fun a b ↦ a ≠ none ∨ b ≠ none
  /-- No empty line stands behind the brace that opens a block. -/
  opened : lines.IsChain fun a b ↦ (∃ r, a = some r ∧ r.kind = .opening) → b ≠ none
  /-- No empty line stands in front of the brace that closes a block. -/
  closed : lines.IsChain fun a b ↦ (∃ r, b = some r ∧ r.kind = .closing) → a ≠ none
  /-- The text ends with one line feed. -/
  ends : ∃ front, text = front ++ ['\n'] ∧ ∀ c ∈ front.getLast?, c ≠ '\n'

/-! ### Steps -/

/-- A row with the text of one line, which is a brace where a block is opened. -/
structure Row.IsSound (r : Row) : Prop where
  text : IsLineText r.text
  opening : r.kind = .opening → r.text = "\x7b"

/-- Every block that is open has its brace at the depth of what is around it. -/
def Nested : List Level → Prop
  | [] => True
  | .block brace :: outer => brace.depth = outer.length ∧ Nested outer
  | .indent :: outer => Nested outer

/-- Lines as they stand in a layout, last character first. -/
def reversedLines (lines : List (Option Row)) : List Char :=
  lines.flatMap fun line ↦ '\n' :: (lineChars line).reverse

/-- A layout has written what is planned. -/
structure Follows (l : Layout) (p : Plan) : Prop where
  depth : l.depth = p.levels.length
  nested : Nested p.levels
  sound : ∀ r ∈ p.rows, r.IsSound
  reversed : l.reversed = reversedLines p.lines

variable {l : Layout} {p p' : Plan} {r : Row} {rows : List Row} {text : String} {c : Char}
  {rest : List Char}

theorem reversedLines_cons (line : Option Row) (lines : List (Option Row)) :
    reversedLines (line :: lines) = '\n' :: ((lineChars line).reverse ++ reversedLines lines) := rfl

/-- The lines of rows end with a character that is no line feed, and then a line feed. -/
theorem exists_reversedLines_linesOf (hr : r.IsSound) (rows : List Row) :
    ∃ c rest, reversedLines (linesOf (r :: rows)) = '\n' :: c :: rest ∧ c ≠ '\n' ∧
      r.text.toList.getLast? = some c := by
  have hne : r.text.toList ≠ [] := fun h ↦ hr.text.1 (String.toList_eq_nil_iff.mp h)
  obtain ⟨before, c, htext⟩ : ∃ before c, r.text.toList = before ++ [c] :=
    ⟨_, _, (List.dropLast_append_getLast hne).symm⟩
  have hc : c ≠ '\n' := by
    rintro rfl
    exact hr.text.2 (htext ▸ List.mem_append_right _ (List.mem_singleton_self _))
  have hlast : r.text.toList.getLast? = some c := by rw [htext, List.getLast?_concat]
  refine ⟨c, ?rest, ?_, hc, hlast⟩
  case rest =>
    exact before.reverse ++ (List.replicate (r.depth * 4) ' ').reverse ++
      reversedLines ((linesOf (r :: rows)).tail)
  rw [linesOf, List.cons_append, reversedLines_cons, lineChars, htext, List.tail_cons]
  simp only [List.reverse_append, List.reverse_cons, List.reverse_nil, List.nil_append,
    List.append_assoc, List.cons_append]

theorem takesBlank_cons (h : r.text.toList.getLast? = some c) (rows : List Row) :
    takesBlank (r :: rows) = decide (c ≠ '\x7b') := by
  rw [takesBlank, h]
  simp only [ne_eq, Option.some.injEq]

/-- What stands in a layout is nothing, or its last line is one of the rows or an empty one. -/
theorem Follows.reversed_cases (h : l.Follows p) :
    (p.rows = [] ∧ l.reversed = []) ∨
    ∃ c rest, reversedLines (linesOf p.rows) = '\n' :: c :: rest ∧ c ≠ '\n' ∧
      takesBlank p.rows = decide (c ≠ '\x7b') ∧
      l.reversed =
        if p.spaced ∧ c ≠ '\x7b' then '\n' :: '\n' :: c :: rest else '\n' :: c :: rest := by
  have hreversed := h.reversed
  rcases hrows : p.rows with _ | ⟨r, rows⟩
  · left
    refine ⟨rfl, ?_⟩
    rw [hreversed, Plan.lines, hrows, takesBlank, Bool.and_false, if_neg Bool.false_ne_true]
    rfl
  · right
    obtain ⟨c, rest, heq, hc, hlast⟩ :=
      exists_reversedLines_linesOf (h.sound r (hrows ▸ List.mem_cons_self)) rows
    have htakes := takesBlank_cons hlast rows
    refine ⟨c, rest, heq, hc, htakes, ?_⟩
    rw [hreversed, Plan.lines, hrows, htakes]
    simp only [Bool.and_eq_true, decide_eq_true_eq]
    split
    · rw [List.singleton_append, reversedLines_cons, heq]
      rfl
    · exact heq

theorem endsBlank_single (hc : c ≠ '\n') (depth : Nat) :
    endsBlank ⟨'\n' :: c :: rest, depth⟩ = false := by
  unfold endsBlank
  split
  case h_1 heq =>
    injection heq with _ heq
    injection heq with heq _
    exact absurd heq hc
  · rfl

/-- Taking back an empty line leaves the lines of the rows. -/
theorem Follows.untrailed (h : l.Follows p) :
    (if l.endsBlank then l.reversed.tail else l.reversed) = reversedLines (linesOf p.rows) := by
  obtain ⟨levels, depth⟩ := l
  rcases h.reversed_cases with ⟨hrows, hnil⟩ | ⟨c, rest, heq, hc, -, hreversed⟩
  · subst hnil
    rw [hrows]
    rfl
  · dsimp only at hreversed
    subst hreversed
    rw [heq]
    split
    · rfl
    · rw [endsBlank_single hc, if_neg Bool.false_ne_true]

theorem Follows.trimEnd_eq (h : l.Follows p) :
    trimEnd l.reversed = reversedLines (linesOf p.rows) := by
  rcases h.reversed_cases with ⟨hrows, hnil⟩ | ⟨c, rest, heq, hc, -, hreversed⟩
  · rw [hnil, hrows]
    rfl
  · have hsingle : trimEnd ('\n' :: c :: rest) = '\n' :: c :: rest := by
      unfold trimEnd
      split
      case h_1 heq =>
        injection heq with _ heq
        injection heq with heq _
        exact absurd heq hc
      · rfl
    rw [hreversed, heq]
    split
    · rw [trimEnd, hsingle]
    · exact hsingle

/-- A line is written behind other lines. -/
theorem reversed_row (htext : IsLineText r.text) (hdepth : l.depth = r.depth)
    {lines : List (Option Row)} (h : l.reversed = reversedLines lines) :
    (l.line r.text).reversed = reversedLines (some r :: lines) := by
  unfold line
  dsimp only
  rw [if_neg htext.1, reversedLines_cons, h, hdepth, lineChars, List.reverse_append,
    List.reverse_replicate, List.append_assoc]
  rfl

theorem lines_write {kind : Row.Kind} (hkind : kind ≠ .closing) :
    (p.write kind text).lines = some (p.next kind text) :: p.lines := by
  simp [Plan.lines, Plan.write, Plan.next, linesOf, hkind]

/-- A line of text is written behind what there is, an empty line too. -/
theorem Follows.write (h : l.Follows p) (kind : Row.Kind) (hkind : kind ≠ .closing)
    (htext : IsLineText text) (hopening : kind = .opening → text = "\x7b") :
    (l.line text).Follows (p.write kind text) := by
  constructor
  case depth => exact h.depth
  case nested => exact h.nested
  case sound => exact List.forall_mem_cons.mpr ⟨⟨htext, hopening⟩, h.sound⟩
  case reversed =>
    rw [lines_write hkind]
    exact reversed_row (r := p.next kind text) htext h.depth h.reversed

theorem Follows.blank (h : l.Follows p) : (l.blank).Follows { p with spaced := true } := by
  have hdepth : (l.blank).depth = l.depth := by
    unfold Layout.blank
    split <;> rfl
  refine ⟨hdepth.trans h.depth, h.nested, h.sound, ?_⟩
  obtain ⟨reversed, depth⟩ := l
  rcases h.reversed_cases with ⟨hrows, hnil⟩ | ⟨c, rest, heq, hc, htakes, hreversed⟩
  · dsimp only at hnil
    subst hnil
    rw [Plan.lines, hrows]
    rfl
  · dsimp only at hreversed
    have hlines : Plan.lines { p with spaced := true } =
        (if c ≠ '\x7b' then [none] else []) ++ linesOf p.rows := by
      rw [Plan.lines, htakes]
      simp only [Bool.true_and, decide_eq_true_eq]
    rw [hlines]
    unfold Layout.blank
    by_cases hbrace : c = '\x7b'
    · subst hbrace
      rw [if_neg fun hboth ↦ hboth.2 rfl] at hreversed
      subst hreversed
      exact heq.symm
    · rw [if_pos hbrace, List.singleton_append, reversedLines_cons, heq]
      by_cases hspaced : p.spaced = true
      · rw [if_pos ⟨hspaced, hbrace⟩] at hreversed
        subst hreversed
        rfl
      · rw [if_neg fun hboth ↦ hspaced hboth.1] at hreversed
        subst hreversed
        have hopen : endsOpen ⟨'\n' :: c :: rest, depth⟩ = false := decide_eq_false hbrace
        rw [endsBlank_single hc, hopen]
        rfl

theorem Follows.opened (h : l.Follows p) {header : String} (hheader : IsLineText header)
    (hplan : (Operation.opened header).plan? p = some p') : (l.opened header).Follows p' := by
  have hbrace : IsLineText "\x7b" := by
    constructor <;> decide
  have hwritten := (h.write .text nofun hheader nofun).write .opening nofun hbrace fun _ ↦ rfl
  injection hplan with hplan
  subst hplan
  exact ⟨congrArg (· + 1) hwritten.depth, ⟨rfl, hwritten.nested⟩, hwritten.sound, hwritten.reversed⟩

theorem plan?_closed (hplan : Operation.closed.plan? p = some p') :
    ∃ brace outer, p.levels = .block brace :: outer ∧
      p' = ⟨outer, ⟨.closing, brace.depth, "\x7d", p.spaced⟩ :: p.rows, false⟩ := by
  unfold Operation.plan? at hplan
  split at hplan <;> first | contradiction | skip
  injection hplan with hplan
  exact ⟨_, _, rfl, hplan.symm⟩

theorem plan?_shallower (hplan : Operation.shallower.plan? p = some p') :
    ∃ outer, p.levels = .indent :: outer ∧ p' = { p with levels := outer } := by
  unfold Operation.plan? at hplan
  split at hplan <;> first | contradiction | skip
  injection hplan with hplan
  exact ⟨_, rfl, hplan.symm⟩

theorem linesOf_closing (hkind : r.kind = .closing) :
    linesOf (r :: rows) = some r :: linesOf rows := by
  simp [linesOf, hkind]

/-- The brace that closes a block stands directly behind the last row, at the depth of the one that
opened it. -/
theorem Follows.closed (h : l.Follows p) (hplan : Operation.closed.plan? p = some p') :
    (l.closed).Follows p' := by
  obtain ⟨brace, outer, hlevels, rfl⟩ := plan?_closed hplan
  have hnested : Nested (.block brace :: outer) := hlevels ▸ h.nested
  have hbrace : IsLineText "\x7d" := by
    constructor <;> decide
  have hdepth : l.depth - 1 = brace.depth := by
    rw [h.depth, hlevels, hnested.1]
    rfl
  have hclosed : l.closed = line "\x7d" ⟨reversedLines (linesOf p.rows), brace.depth⟩ := by
    rw [← h.untrailed, ← hdepth]
    unfold Layout.closed
    split <;> rfl
  rw [hclosed]
  constructor
  case depth => exact hnested.1
  case nested => exact hnested.2
  case sound => exact List.forall_mem_cons.mpr ⟨⟨hbrace, nofun⟩, h.sound⟩
  case reversed =>
    rw [Plan.lines, linesOf_closing rfl]
    exact reversed_row (r := ⟨.closing, brace.depth, "\x7d", p.spaced⟩) hbrace rfl rfl

theorem Follows.deeper (h : l.Follows p) :
    (l.deeper).Follows { p with levels := .indent :: p.levels } :=
  ⟨congrArg (· + 1) h.depth, h.nested, h.sound, h.reversed⟩

theorem Follows.shallower (h : l.Follows p) (hplan : Operation.shallower.plan? p = some p') :
    (l.shallower).Follows p' := by
  obtain ⟨outer, hlevels, rfl⟩ := plan?_shallower hplan
  have hdepth : l.depth - 1 = outer.length := by
    rw [h.depth, hlevels]
    rfl
  have hnested : Nested (.indent :: outer) := hlevels ▸ h.nested
  exact ⟨hdepth, hnested, h.sound, h.reversed⟩

/-- Each operation writes what it is planned to write. -/
theorem Follows.apply (h : l.Follows p) {o : Operation} (htexts : o.IsWritable)
    (hplan : o.plan? p = some p') : (o.apply l).Follows p' := by
  cases o with
  | line text =>
    injection hplan with hplan
    exact hplan ▸ h.write .text nofun htexts nofun
  | blank =>
    injection hplan with hplan
    exact hplan ▸ h.blank
  | opened header => exact h.opened htexts hplan
  | closed => exact h.closed hplan
  | deeper =>
    injection hplan with hplan
    exact hplan ▸ h.deeper
  | shallower => exact h.shallower hplan

theorem follows_empty : empty.Follows ⟨[], [], false⟩ :=
  ⟨rfl, trivial, nofun, rfl⟩

theorem extend?_cons (o : Operation) (ops : List Operation) (p : Plan) :
    p.extend? (o :: ops) = (o.plan? p).bind fun q ↦ q.extend? ops := by
  rw [Plan.extend?, List.foldlM_cons]
  rfl

theorem extend?_append (ops more : List Operation) (p : Plan) :
    p.extend? (ops ++ more) = (p.extend? ops).bind fun q ↦ q.extend? more := by
  rw [Plan.extend?, List.foldlM_append]
  rfl

/-- What operations write is what they are planned to write, by induction over them. -/
theorem Follows.foldl {ops : List Operation} (htexts : ∀ o ∈ ops, o.IsWritable) (h : l.Follows p)
    (hplan : p.extend? ops = some p') : (ops.foldl (fun l o ↦ o.apply l) l).Follows p' := by
  induction ops generalizing l p with
  | nil =>
    injection hplan with hplan
    exact hplan ▸ h
  | cons o ops ih =>
    rw [extend?_cons] at hplan
    obtain ⟨q, hq, hrest⟩ := Option.bind_eq_some_iff.mp hplan
    exact ih (fun o' ho' ↦ htexts o' (List.mem_cons_of_mem o ho'))
      (h.apply (htexts o List.mem_cons_self) hq) hrest

/-- Operations that close what they open can be planned, and leave open what was open before. -/
theorem Bracketed.exists_extend? {ops : List Operation} (h : Bracketed ops) (p : Plan) :
    ∃ p', p.extend? ops = some p' ∧ p'.levels = p.levels := by
  induction h generalizing p with
  | nil => exact ⟨p, rfl, rfl⟩
  | line text _ ih => exact ih (p.write .text text)
  | blank _ ih => exact ih { p with spaced := true }
  | @block header body rest _ _ ihbody ihrest =>
    let q := p.write .text header
    let brace := q.next .opening "\x7b"
    obtain ⟨inner, hinner, hlevels⟩ :=
      ihbody { q.write .opening "\x7b" with levels := .block brace :: q.levels }
    let closed : Plan :=
      ⟨p.levels, ⟨.closing, brace.depth, "\x7d", inner.spaced⟩ :: inner.rows, false⟩
    have hclosed : Operation.closed.plan? inner = some closed := by
      obtain ⟨levels, rows, spaced⟩ := inner
      cases hlevels
      rfl
    obtain ⟨p', hp', hlevels'⟩ := ihrest closed
    refine ⟨p', ?_, hlevels'⟩
    rw [extend?_cons, Operation.plan?, Option.bind_some, extend?_append, hinner, Option.bind_some,
      extend?_cons, hclosed, Option.bind_some, hp']
  | @indent body rest _ _ ihbody ihrest =>
    obtain ⟨inner, hinner, hlevels⟩ := ihbody { p with levels := .indent :: p.levels }
    have hshallower : Operation.shallower.plan? inner = some { inner with levels := p.levels } := by
      obtain ⟨levels, rows, spaced⟩ := inner
      cases hlevels
      rfl
    obtain ⟨p', hp', hlevels'⟩ := ihrest { inner with levels := p.levels }
    refine ⟨p', ?_, hlevels'⟩
    rw [extend?_cons, Operation.plan?, Option.bind_some, extend?_append, hinner, Option.bind_some,
      extend?_cons, hshallower, Option.bind_some, hp']

/-! ### The text -/

theorem filterMap_linesOf (rows : List Row) : (linesOf rows).filterMap id = rows := by
  induction rows with
  | nil => rfl
  | cons r rows ih =>
    rw [linesOf, List.cons_append, List.filterMap_cons_some (by rfl), List.filterMap_append, ih]
    split <;> rfl

/-- The first line of all is a row. -/
theorem getLast?_linesOf (rows : List Row) : ∀ line ∈ (linesOf rows).getLast?, line ≠ none := by
  induction rows with
  | nil => exact nofun
  | cons r rows ih =>
    rintro line hline rfl
    rcases hrest : (linesOf rows).getLast? with _ | last
    · obtain rfl : rows = [] := by
        rw [← filterMap_linesOf rows, List.getLast?_eq_none_iff.mp hrest, List.filterMap_nil]
      rw [linesOf, takesBlank, Bool.and_false] at hline
      cases hline
    · rw [linesOf, List.getLast?_append, hrest] at hline
      exact ih last hrest (Option.some.inj hline)

/-- How a line stands to the one in front of it, which is given second. -/
structure MayFollow (b a : Option Row) : Prop where
  doubled : a ≠ none ∨ b ≠ none
  opened : (∃ r, a = some r ∧ r.kind = .opening) → b ≠ none
  closed : (∃ r, b = some r ∧ r.kind = .closing) → a ≠ none

/-- No empty line is taken behind a brace that opens a block. -/
theorem Row.IsSound.kind_ne_opening (hr : r.IsSound) (htakes : takesBlank (r :: rows) = true) :
    r.kind ≠ .opening := by
  intro hopening
  rw [takesBlank, hr.opening hopening] at htakes
  exact absurd htakes (by decide)

theorem isChain_linesOf (hsound : ∀ r ∈ rows, r.IsSound) : (linesOf rows).IsChain MayFollow := by
  induction rows with
  | nil => exact List.IsChain.nil
  | cons r rows ih =>
    have hrest := ih fun q hq ↦ hsound q (List.mem_cons_of_mem r hq)
    rw [linesOf, List.cons_append]
    split
    case isTrue hgap =>
      rw [Bool.and_eq_true, Bool.and_eq_true, decide_eq_true_eq] at hgap
      obtain ⟨⟨-, hkind⟩, htakes⟩ := hgap
      refine List.isChain_cons_cons.mpr ⟨⟨.inr nofun, nofun, ?_⟩, ?_⟩
      · rintro ⟨_, hclosing, hclosing'⟩
        cases hclosing
        exact absurd hclosing' hkind
      · obtain _ | ⟨q, rows⟩ := rows
        · exact List.IsChain.singleton _
        · refine List.isChain_cons_cons.mpr ⟨⟨.inl nofun, ?_, nofun⟩, hrest⟩
          rintro ⟨_, hopening, hopening'⟩
          cases hopening
          have hq := hsound q (List.mem_cons_of_mem r List.mem_cons_self)
          exact absurd hopening' (hq.kind_ne_opening htakes)
    case isFalse =>
      obtain _ | ⟨q, rows⟩ := rows
      · exact List.IsChain.singleton _
      · exact List.isChain_cons_cons.mpr ⟨⟨.inl nofun, nofun, nofun⟩, hrest⟩

theorem reverse_reversedLines (lines : List (Option Row)) :
    (reversedLines lines).reverse = lines.reverse.flatMap fun line ↦ lineChars line ++ ['\n'] := by
  rw [reversedLines, List.reverse_flatMap]
  congr 1
  funext line
  simp only [Function.comp, List.reverse_cons, List.reverse_reverse]

/-- The text is the lines of the rows, each with a line feed, and never less than one line feed. -/
theorem Follows.toList_text (h : l.Follows p) :
    l.text.toList =
      if linesOf p.rows = [] then ['\n'] else (reversedLines (linesOf p.rows)).reverse := by
  unfold text
  rw [h.trimEnd_eq]
  rcases linesOf p.rows with _ | ⟨line, lines⟩
  · rfl
  · rw [reversedLines_cons, if_neg (List.cons_ne_nil _ _)]
    exact String.toList_ofList

/-- What ends the text is one line feed. -/
theorem Follows.endsLine (h : l.Follows p) :
    ∃ front, l.text.toList = front ++ ['\n'] ∧ ∀ c ∈ front.getLast?, c ≠ '\n' := by
  rw [h.toList_text]
  rcases h.reversed_cases with ⟨hrows, -⟩ | ⟨c, rest, heq, hc, -, -⟩
  · rw [hrows]
    exact ⟨[], rfl, nofun⟩
  · have hne : linesOf p.rows ≠ [] := by
      intro hnil
      rw [hnil] at heq
      cases heq
    rw [if_neg hne, heq, List.reverse_cons, List.reverse_cons]
    refine ⟨_, rfl, fun c' hc' ↦ ?_⟩
    rw [List.getLast?_concat] at hc'
    exact Option.some.inj hc' ▸ hc

theorem Follows.isTidy (h : l.Follows p) :
    IsTidy p.rows.reverse (linesOf p.rows).reverse l.text.toList := by
  have hchain := isChain_linesOf h.sound
  constructor
  case filterMap_eq => rw [List.filterMap_reverse, filterMap_linesOf]
  case isLineText => exact fun r hr ↦ (h.sound r (List.mem_reverse.mp hr)).text
  case text_eq =>
    rw [h.toList_text, reverse_reversedLines]
    simp only [List.reverse_eq_nil_iff]
  case starts =>
    rw [List.head?_reverse]
    exact getLast?_linesOf p.rows
  case doubled => exact List.isChain_reverse.mpr (hchain.imp fun _ _ hstep ↦ hstep.doubled)
  case opened => exact List.isChain_reverse.mpr (hchain.imp fun _ _ hstep ↦ hstep.opened)
  case closed => exact List.isChain_reverse.mpr (hchain.imp fun _ _ hstep ↦ hstep.closed)
  case ends => exact h.endsLine

/-- Operations that write no empty or broken lines and close only what they opened, though they may
leave something open, write the rows that are planned, each at its depth, with single empty lines
between them and none inside a brace. -/
theorem isTidy_run {ops more : List Operation} (htexts : ∀ o ∈ ops, o.IsWritable)
    (hbracketed : Bracketed (ops ++ more)) :
    ∃ p, plan? ops = some p ∧ IsTidy p.rows.reverse (linesOf p.rows).reverse
      (run ops).text.toList := by
  obtain ⟨whole, hwhole, -⟩ := hbracketed.exists_extend? ⟨[], [], false⟩
  rw [extend?_append] at hwhole
  obtain ⟨p, hplan, -⟩ := Option.bind_eq_some_iff.mp hwhole
  exact ⟨p, hplan, (follows_empty.foldl htexts hplan).isTidy⟩

/-- Of the empty lines that are asked for here, only the one in front of the block is written. -/
theorem isTidy_run_nested :
    ∃ p, plan? [.blank, .line "a", .blank, .blank, .opened "b", .blank, .line "c", .deeper,
        .line "d", .blank, .shallower, .closed, .blank] = some p ∧
      p.rows.reverse = [⟨.text, 0, "a", true⟩, ⟨.text, 0, "b", true⟩, ⟨.opening, 0, "\x7b", false⟩,
        ⟨.text, 1, "c", true⟩, ⟨.text, 2, "d", false⟩, ⟨.closing, 0, "\x7d", true⟩] ∧
      IsTidy p.rows.reverse (linesOf p.rows).reverse
        "a\n\nb\n\x7b\n    c\n        d\n\x7d\n".toList := by
  have hinner : Bracketed [.line "d", .blank] := .line _ <| .blank .nil
  have hbody : Bracketed [.blank, .line "c", .deeper, .line "d", .blank, .shallower] :=
    .blank <| .line _ <| .indent hinner .nil
  have hbracketed : Bracketed ([.blank, .line "a", .blank, .blank, .opened "b", .blank, .line "c",
      .deeper, .line "d", .blank, .shallower, .closed, .blank] ++ []) :=
    .blank <| .line _ <| .blank <| .blank <| .block _ hbody <| .blank .nil
  have htexts : ∀ o ∈ [Operation.blank, .line "a", .blank, .blank, .opened "b", .blank, .line "c",
      .deeper, .line "d", .blank, .shallower, .closed, .blank], o.IsWritable := by
    simp [Operation.IsWritable, IsLineText]
  obtain ⟨p, hplan, htidy⟩ := isTidy_run htexts hbracketed
  exact ⟨p, hplan, by cases hplan; rfl, htidy⟩

end Companion.Layout
