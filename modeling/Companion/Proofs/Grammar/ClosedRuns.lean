import Companion.Proofs.Grammar.ArgumentScans

/-!
Where a group ends. Reading a group keeps the closing brackets it waits for, the innermost first
(`Cursor.Nesting`), but takes any closing bracket for the one it waits for. So only their number
matters: behind some tokens of the group it waits for as many closing brackets as more groups have
been opened than closed (`Cursor.Nesting.Follows`). The group ends with the shortest run of tokens
from its opening bracket on in which as many brackets are closed as opened, whatever their shapes;
where there is no such run, all is read up to the end of the file (`Parser.group_closes_shortest`).
A group in which brackets of all shapes are properly nested is such a run.
-/

set_option autoImplicit false
set_option relaxedAutoImplicit false

namespace Companion

/-! ### Runs that close what they open -/

namespace Token

/-- The closing bracket of the same shape. -/
def Kind.closer? : Kind → Option Kind
  | .lparen => some .rparen
  | .lbracket => some .rbracket
  | .lbrace => some .rbrace
  | _ => none

/-- How many groups are opened among some tokens, whatever their shapes. -/
def opens (ts : List Token) : Nat := ts.countP (·.kind.isOpener)

/-- How many groups are closed among some tokens, whatever their shapes. -/
def closes (ts : List Token) : Nat := ts.countP (·.kind.isCloser)

end Token

open Token

namespace Cursor

/-- Tokens from a cursor on, before the end of the file, in which as many brackets are closed as
opened. -/
structure ClosedRun (c : Cursor) (run : List Token) : Prop where
  ahead : run <+: c.rest
  ne_nil : run ≠ []
  inFile : ∀ t ∈ run, t.kind ≠ .eof
  balanced : closes run = opens run

/-- The shortest closed run at a cursor, with its last token and what follows it. -/
structure ClosesAt (c : Cursor) (inside : List Token) (last : Token) (after : List Token) :
    Prop where
  rest_eq : c.rest = inside ++ last :: after
  closedRun : c.ClosedRun (inside ++ [last])
  shortest : ∀ run, c.ClosedRun run → inside ++ [last] <+: run

/-! ### The loop that reads a group -/

/-- Where the reading of a group is, and the closing brackets it waits for, the innermost first. -/
structure Nesting where
  cursor : Cursor
  awaited : List Kind

/-- One turn of reading a group from its opening bracket. A closing bracket is taken for the one
that is waited for, whatever the shapes of both. -/
def Nesting.turn (opened : Token) (s : Nesting) : Outcome Span ⊕ Nesting :=
  let t := s.cursor.current
  let after := s.cursor.next
  if t.kind = .eof then .inl ⟨.error (Parser.unclosed opened t.span), s.cursor, []⟩
  else
    match t.kind.closer? with
    | some k => .inr ⟨after, k :: s.awaited⟩
    | none =>
      if t.kind.isCloser then
        if s.awaited.tail = [] then .inl ⟨.ok t.span, after, []⟩ else .inr ⟨after, s.awaited.tail⟩
      else .inr ⟨after, s.awaited⟩

/-- Reading a group has come from its opening bracket behind some tokens, without an end. -/
structure Nesting.Follows (c : Cursor) (read : List Token) (s : Nesting) : Prop where
  reads : c.Reads read s.cursor
  ne_nil : read ≠ []
  /-- One closing bracket is awaited for each group that is open. -/
  opens_eq : opens read = closes read + s.awaited.length
  /-- A group is open behind each of the tokens. -/
  closes_lt : ∀ front, front <+: read → front ≠ [] → closes front < opens front

/-- How a group ends. -/
inductive Settles (c : Cursor) : Outcome Span → Prop
  | closed {inside after : List Token} {last : Token} (h : c.ClosesAt inside last after) :
    Settles c ⟨.ok last.span, ⟨last.span, after⟩, []⟩
  | unclosed {read : List Token} {stop : Cursor} (hnone : ∀ run, ¬ c.ClosedRun run)
    (hread : c.Reads read stop) (hstop : stop.kind = .eof) :
    Settles c ⟨.error (Parser.unclosed c.current stop.current.span), stop, []⟩

end Cursor

/-! ### Counting brackets -/

namespace Token

variable {k : Kind} {t : Token} {ts : List Token}

theorem Kind.isSome_closer? : k.closer?.isSome = k.isOpener := by
  cases k <;> rfl

theorem Kind.closer?_eq_none (h : k.isOpener = false) : k.closer? = none := by
  rw [← isSome_closer?] at h
  exact Option.not_isSome_iff_eq_none.mp (by simp [h])

theorem Kind.isCloser_of_isOpener (h : k.isOpener = true) : k.isCloser = false := by
  cases k <;> first | rfl | cases h

/-- The end of the file, an opening bracket, a closing bracket, or none of these. -/
theorem Kind.bracket_cases (k : Kind) : k = .eof ∨ k.isOpener = true ∨ k.isCloser = true ∨
    (k ≠ .eof ∧ k.isOpener = false ∧ k.isCloser = false) := by
  cases k <;> decide

theorem counts_concat_of_opener (h : t.kind.isOpener = true) (ts : List Token) :
    opens (ts ++ [t]) = opens ts + 1 ∧ closes (ts ++ [t]) = closes ts := by
  simp [opens, closes, List.countP_append, h, Kind.isCloser_of_isOpener h]

theorem counts_concat_of_closer (h : t.kind.isCloser = true) (ts : List Token) :
    opens (ts ++ [t]) = opens ts ∧ closes (ts ++ [t]) = closes ts + 1 := by
  simp [opens, closes, List.countP_append, h, (Kind.not_isOpener_of_isCloser h).1]

theorem counts_concat_of_plain (hopener : t.kind.isOpener = false)
    (hcloser : t.kind.isCloser = false) (ts : List Token) :
    opens (ts ++ [t]) = opens ts ∧ closes (ts ++ [t]) = closes ts := by
  simp [opens, closes, List.countP_append, hopener, hcloser]

end Token

namespace Cursor

variable {c c' : Cursor} {s s' : Nesting} {opened t : Token} {depth n : Nat}
  {read ts : List Token} {awaited : List Kind} {o : Outcome Span}

theorem Reads.ne_eof (h : c.Reads read c') : ∀ t ∈ read, t.kind ≠ .eof := by
  induction h with
  | nothing => exact fun _ ht ↦ absurd ht List.not_mem_nil
  | token hkind _ ih => exact List.forall_mem_cons.mpr ⟨hkind, ih⟩

theorem next_eq_mk (h : c.kind ≠ .eof) : c.next = ⟨c.current.span, c.next.rest⟩ := by
  obtain ⟨previous, rest⟩ := c
  cases rest with
  | nil => exact absurd rfl h
  | cons t ts =>
    have hnext : next ⟨previous, t :: ts⟩ = ⟨t.span, ts⟩ := next_cons h previous ts
    rw [hnext]
    rfl

/-! ### The loop, turn by turn -/

namespace Nesting

theorem turn_of_eof (h : s.cursor.kind = .eof) :
    turn opened s = .inl ⟨.error (Parser.unclosed opened s.cursor.current.span), s.cursor, []⟩ :=
  if_pos h

theorem turn_of_opener (h : s.cursor.kind.isOpener = true) (opened : Token) :
    ∃ k, turn opened s = .inr ⟨s.cursor.next, k :: s.awaited⟩ := by
  obtain ⟨k, hk⟩ := Option.isSome_iff_exists.mp (Kind.isSome_closer?.trans h)
  rw [Cursor.kind] at h hk
  refine ⟨k, ?_⟩
  rw [turn]
  simp only [if_neg (Kind.ne_of_isOpener h).1, hk]

theorem turn_of_closer (h : s.cursor.kind.isCloser = true) (opened : Token) :
    turn opened s = if s.awaited.tail = [] then
      .inl ⟨.ok s.cursor.current.span, s.cursor.next, []⟩
      else .inr ⟨s.cursor.next, s.awaited.tail⟩ := by
  rw [Cursor.kind] at h
  have hopener := Kind.closer?_eq_none (Kind.not_isOpener_of_isCloser h).1
  rw [turn]
  simp only [if_neg (Kind.not_isOpener_of_isCloser h).2.1, hopener, if_pos h]

theorem turn_of_plain (heof : s.cursor.kind ≠ .eof) (hopener : s.cursor.kind.isOpener = false)
    (hcloser : s.cursor.kind.isCloser = false) :
    turn opened s = .inr ⟨s.cursor.next, s.awaited⟩ := by
  rw [Cursor.kind] at heof hopener hcloser
  rw [turn]
  simp only [if_neg heof, Kind.closer?_eq_none hopener, hcloser, Bool.false_eq_true, if_false]

/-! ### What the loop keeps -/

namespace Follows

/-- Behind a further token, if a group is open there. -/
theorem next (h : Follows c read s) (heof : s.cursor.kind ≠ .eof) (hne : awaited ≠ [])
    (hcount : opens (read ++ [s.cursor.current]) =
      closes (read ++ [s.cursor.current]) + awaited.length) :
    Follows c (read ++ [s.cursor.current]) ⟨s.cursor.next, awaited⟩ where
  reads := h.reads.trans (reads_next_of_kind heof)
  ne_nil := List.concat_ne_nil _ _
  opens_eq := hcount
  closes_lt front hfront hnil := by
    rcases List.prefix_concat_iff.mp hfront with rfl | hfront
    · have hpos := List.length_pos_of_ne_nil hne
      omega
    · exact h.closes_lt front hfront hnil

/-- Behind the opening bracket. -/
theorem first (hopener : c.kind.isOpener = true) (k : Kind) :
    Follows c [c.current] ⟨c.next, [k]⟩ where
  reads := reads_next_of_kind (Kind.ne_of_isOpener hopener).1
  ne_nil := List.cons_ne_nil _ _
  opens_eq := by
    obtain ⟨hopens, hcloses⟩ := counts_concat_of_opener hopener []
    exact hopens.trans (congrArg (· + 1) hcloses.symm)
  closes_lt front hfront hnil := by
    obtain ⟨hopens, hcloses⟩ := counts_concat_of_opener hopener []
    obtain rfl := (List.prefix_concat_iff.mp hfront).resolve_right fun h ↦
      hnil (List.prefix_nil.mp h)
    rw [hopens, hcloses]
    exact Nat.lt_succ_self _

theorem awaited_ne_nil (h : Follows c read s) : s.awaited ≠ [] := by
  intro hnil
  have hopen := h.closes_lt read (List.prefix_refl read) h.ne_nil
  rw [h.opens_eq, hnil] at hopen
  exact Nat.lt_irrefl _ hopen

/-- What one turn keeps. -/
theorem turn (h : Follows c read s) (hturn : Nesting.turn opened s = .inr s') :
    Follows c (read ++ [s.cursor.current]) s' := by
  have hcount := h.opens_eq
  rcases s.cursor.kind.bracket_cases with hk | hk | hk | ⟨heof, hopener, hcloser⟩
  · cases (turn_of_eof hk).symm.trans hturn
  · obtain ⟨k, hopened⟩ := turn_of_opener hk opened
    obtain rfl := Sum.inr.inj (hopened.symm.trans hturn)
    obtain ⟨hopens, hcloses⟩ := counts_concat_of_opener hk read
    refine h.next (Kind.ne_of_isOpener hk).1 (List.cons_ne_nil _ _) ?_
    rw [hopens, hcloses, hcount, List.length_cons, Nat.add_assoc]
  · rw [turn_of_closer hk] at hturn
    by_cases htail : s.awaited.tail = []
    · rw [if_pos htail] at hturn
      cases hturn
    · rw [if_neg htail] at hturn
      obtain rfl := Sum.inr.inj hturn
      obtain ⟨hopens, hcloses⟩ := counts_concat_of_closer hk read
      refine h.next (Kind.not_isOpener_of_isCloser hk).2.1 htail ?_
      have hlength := List.length_pos_of_ne_nil htail
      rw [List.length_tail] at hlength ⊢
      omega
  · obtain rfl := Sum.inr.inj ((turn_of_plain heof hopener hcloser).symm.trans hturn)
    obtain ⟨hopens, hcloses⟩ := counts_concat_of_plain hopener hcloser read
    exact h.next heof h.awaited_ne_nil (by rw [hopens, hcloses, hcount])

/-! ### Where the loop ends -/

/-- At the end of the file no run has been closed. -/
theorem not_closedRun (h : Follows c read s) (heof : s.cursor.kind = .eof) (run : List Token) :
    ¬ c.ClosedRun run := by
  intro hrun
  obtain ⟨after, hafter⟩ := hrun.ahead
  have hrest : run ++ after = read ++ s.cursor.rest := hafter.trans h.reads.rest_eq
  rcases List.append_eq_append_iff.mp hrest with ⟨more, rfl, -⟩ | ⟨more, rfl, hmore⟩
  · exact (h.closes_lt run (List.prefix_append run more) hrun.ne_nil).ne hrun.balanced
  · cases more with
    | nil =>
      rw [List.append_nil] at hrun
      exact (h.closes_lt read (List.prefix_refl read) h.ne_nil).ne hrun.balanced
    | cons t more =>
      -- The run would go over the end of the file.
      rw [kind, current, hmore] at heof
      exact hrun.inFile t (by simp) heof

/-- A closing bracket that is the last one waited for closes the shortest run. -/
theorem closesAt (h : Follows c read s) (hcloser : s.cursor.kind.isCloser = true)
    (htail : s.awaited.tail = []) : c.ClosesAt read s.cursor.current s.cursor.next.rest := by
  have hnext := reads_next_of_kind (Kind.not_isOpener_of_isCloser hcloser).2.1
  have hreads := h.reads.trans hnext
  obtain ⟨hopens, hcloses⟩ := counts_concat_of_closer hcloser read
  have hrest : c.rest = (read ++ [s.cursor.current]) ++ s.cursor.next.rest := hreads.rest_eq
  -- As one closing bracket is awaited, one group is open in front of the last token.
  have hrun : c.ClosedRun (read ++ [s.cursor.current]) := by
    refine ⟨hrest ▸ List.prefix_append _ _, List.concat_ne_nil _ _, hreads.ne_eof, ?_⟩
    have hlength : s.awaited.length = 1 := by
      have hpos := List.length_pos_of_ne_nil h.awaited_ne_nil
      have hshort := congrArg List.length htail
      rw [List.length_tail, List.length_nil] at hshort
      omega
    rw [hopens, hcloses, h.opens_eq, hlength]
  -- Of two runs at a cursor one begins the other, and behind each earlier token a group is open.
  refine ⟨by rw [hrest, List.append_assoc, List.singleton_append], hrun, fun run hother ↦ ?_⟩
  rcases List.prefix_or_prefix_of_prefix hrun.ahead hother.ahead with hle | hle
  · exact hle
  · rcases List.prefix_concat_iff.mp hle with rfl | hread
    · exact List.prefix_refl _
    · exact absurd hother.balanced (h.closes_lt run hread hother.ne_nil).ne

/-- The last turn settles how the group ends. -/
theorem settles_of_turn (h : Follows c read s)
    (hturn : Nesting.turn c.current s = .inl o) : c.Settles o := by
  rcases s.cursor.kind.bracket_cases with hk | hk | hk | ⟨heof, hopener, hcloser⟩
  · obtain rfl := Sum.inl.inj ((turn_of_eof hk).symm.trans hturn)
    exact .unclosed (h.not_closedRun hk) h.reads hk
  · obtain ⟨k, hopened⟩ := turn_of_opener hk c.current
    cases hopened.symm.trans hturn
  · rw [turn_of_closer hk] at hturn
    by_cases htail : s.awaited.tail = []
    · rw [if_pos htail] at hturn
      obtain rfl := Sum.inl.inj hturn
      rw [next_eq_mk (Kind.not_isOpener_of_isCloser hk).2.1]
      exact .closed (h.closesAt hk htail)
    · rw [if_neg htail] at hturn
      cases hturn
  · cases (turn_of_plain heof hopener hcloser).symm.trans hturn

/-- However many turns are done, the last one settles how the group ends. -/
theorem settles (h : Follows c read s) (hanswers : Loop.Answers (Nesting.turn c.current) s n o) :
    c.Settles o := by
  induction hanswers generalizing read with
  | last hturn => exact h.settles_of_turn hturn
  | next hturn _ ih => exact ih (h.turn hturn)

end Follows

/-! ### The loop and the count of open groups -/

/-- What reading a group answers at some tokens in front of which `depth` groups and one more are
open. -/
def answer (opened : Token) (depth : Nat) (previous : Span) (ts : List Token) : Outcome Span :=
  match closing depth ts with
  | some (t, after) => ⟨.ok t.span, ⟨t.span, after⟩, []⟩
  | none =>
    let stop := toEnd previous ts
    ⟨.error (Parser.unclosed opened stop.current.span), stop, []⟩

theorem answer_eof (h : t.kind = .eof) (depth : Nat) (previous : Span) (ts : List Token) :
    answer opened depth previous (t :: ts) =
      ⟨.error (Parser.unclosed opened t.span), ⟨previous, t :: ts⟩, []⟩ := by
  rw [answer, closing.eq_def, toEnd, if_pos h]
  simp only [if_pos h]
  rfl

theorem answer_opener (h : t.kind.isOpener = true) (depth : Nat) (previous : Span)
    (ts : List Token) :
    answer opened depth previous (t :: ts) = answer opened (depth + 1) t.span ts := by
  rw [answer, closing_opener h, toEnd, if_neg (Kind.ne_of_isOpener h).1]
  rfl

theorem answer_closer (h : t.kind.isCloser = true) (depth : Nat) (previous : Span)
    (ts : List Token) :
    answer opened 0 previous (t :: ts) = ⟨.ok t.span, ⟨t.span, ts⟩, []⟩ ∧
      answer opened (depth + 1) previous (t :: ts) = answer opened depth t.span ts := by
  obtain ⟨hlast, hmore⟩ := closing_closer h (Kind.not_isOpener_of_isCloser h).1 ts
  constructor
  · rw [answer, hlast]
  · rw [answer, hmore, toEnd, if_neg (Kind.not_isOpener_of_isCloser h).2.1]
    rfl

theorem answer_plain (heof : t.kind ≠ .eof) (hopener : t.kind.isOpener = false)
    (hcloser : t.kind.isCloser = false) (depth : Nat) (previous : Span) (ts : List Token) :
    answer opened depth previous (t :: ts) = answer opened depth t.span ts := by
  rw [answer, closing_plain hopener hcloser heof, toEnd, if_neg heof]
  rfl

/-- Wherever the loop is, it ends, and gives what the count of open groups gives. -/
theorem answers (hawaited : awaited.length = depth + 1) (opened : Token) (previous : Span)
    (ts : List Token) :
    ∃ turns ≤ ts.length + 1, Loop.Answers (turn opened) ⟨⟨previous, ts⟩, awaited⟩ turns
      (answer opened depth previous ts) := by
  induction ts generalizing depth awaited previous with
  | nil => exact ⟨1, by omega, .last rfl⟩
  | cons t ts ih =>
    have hnext {awaited' : List Kind} {depth' : Nat} (heof : t.kind ≠ .eof)
        (hlength : awaited'.length = depth' + 1)
        (hturn : turn opened ⟨⟨previous, t :: ts⟩, awaited⟩ =
          .inr ⟨Cursor.next ⟨previous, t :: ts⟩, awaited'⟩) :
        ∃ turns ≤ ts.length + 1 + 1, Loop.Answers (turn opened) ⟨⟨previous, t :: ts⟩, awaited⟩ turns
          (answer opened depth' t.span ts) := by
      obtain ⟨turns, hturns, hanswers⟩ := ih hlength t.span
      rw [next_cons heof] at hturn
      exact ⟨turns + 1, by omega, .next hturn hanswers⟩
    rw [List.length_cons]
    rcases t.kind.bracket_cases with hk | hk | hk | ⟨heof, hopener, hcloser⟩
    · rw [answer_eof hk]
      exact ⟨1, by omega, .last (turn_of_eof hk)⟩
    · obtain ⟨k, hturn⟩ := turn_of_opener (s := ⟨⟨previous, t :: ts⟩, awaited⟩) hk opened
      rw [answer_opener hk]
      exact hnext (Kind.ne_of_isOpener hk).1 (congrArg (· + 1) hawaited) hturn
    · have heof := (Kind.not_isOpener_of_isCloser hk).2.1
      have hturn := turn_of_closer (s := ⟨⟨previous, t :: ts⟩, awaited⟩) hk opened
      have hlength : awaited.tail.length = depth := by
        rw [List.length_tail, hawaited, Nat.add_sub_cancel]
      cases depth with
      | zero =>
        rw [if_pos (List.eq_nil_of_length_eq_zero hlength)] at hturn
        rw [next_cons heof] at hturn
        rw [(answer_closer hk 0 previous ts).1]
        exact ⟨1, by omega, .last hturn⟩
      | succ depth =>
        rw [if_neg (List.ne_nil_of_length_eq_add_one hlength)] at hturn
        rw [(answer_closer hk depth previous ts).2]
        exact hnext heof hlength hturn
    · rw [answer_plain heof hopener hcloser]
      exact hnext heof hawaited (turn_of_plain heof hopener hcloser)

end Nesting

namespace Settles

theorem result_ok_iff (h : c.Settles o) :
    (∃ stop, o.result = .ok stop) ↔ ∃ run, c.ClosedRun run := by
  cases h with
  | closed h => exact ⟨fun _ ↦ ⟨_, h.closedRun⟩, fun _ ↦ ⟨_, rfl⟩⟩
  | unclosed hnone _ _ =>
    constructor
    · rintro ⟨stop, hstop⟩
      cases hstop
    · rintro ⟨run, hrun⟩
      exact absurd hrun (hnone run)

theorem exists_closesAt (h : c.Settles o) {run : List Token} (hrun : c.ClosedRun run) :
    ∃ inside last after, c.ClosesAt inside last after ∧
      o = ⟨.ok last.span, ⟨last.span, after⟩, []⟩ := by
  cases h with
  | closed h => exact ⟨_, _, _, h, rfl⟩
  | unclosed hnone _ _ => exact absurd hrun (hnone run)

theorem exists_unclosed (h : c.Settles o) (hnone : ∀ run, ¬ c.ClosedRun run) :
    ∃ read stop, c.Reads read stop ∧ stop.kind = .eof ∧
      o = ⟨.error (Parser.unclosed c.current stop.current.span), stop, []⟩ := by
  cases h with
  | closed h => exact absurd h.closedRun (hnone _)
  | unclosed _ hread hstop => exact ⟨_, _, hread, hstop, rfl⟩

end Settles

/-! ### In a file -/

/-- The end of a file neither opens nor closes a group: tokens up to it that close as many groups as
they open have a closed run in front of it. -/
theorem Ended.exists_closedRun (h : c.Ended) (hopener : c.kind.isOpener = true) {run : List Token}
    (hahead : run <+: c.rest) (hne : run ≠ []) (hbalanced : closes run = opens run) :
    ∃ shorter, shorter <+: run ∧ c.ClosedRun shorter := by
  obtain ⟨front, e, hrest, he, hfront⟩ := h
  have hplace : front <+: c.rest := hrest ▸ List.prefix_append front [e]
  rcases List.prefix_concat_iff.mp (hrest ▸ hahead) with rfl | hinside
  · obtain ⟨hopens, hcloses⟩ := counts_concat_of_plain (t := e) (by rw [he]; rfl) (by rw [he]; rfl)
      front
    refine ⟨front, List.prefix_append front [e], hplace, ?_, hfront, ?_⟩
    · rintro rfl
      rw [kind, current, hrest] at hopener
      exact (Kind.ne_of_isOpener hopener).1 he
    · rw [← hcloses, hbalanced, hopens]
  · have hinFile : ∀ t ∈ run, t.kind ≠ .eof := fun t ht ↦ hfront t (hinside.subset ht)
    exact ⟨run, List.prefix_refl run, hahead, hne, hinFile, hbalanced⟩

end Cursor

namespace Parser

open Cursor

variable {c : Cursor}

/-! ### Where a group ends -/

theorem group_eq_answer (hopener : c.kind.isOpener = true) :
    group c = Nesting.answer c.current 0 c.next.previous c.next.rest := by
  have hcurrent : c.current.kind.isOpener = true := hopener
  cases hclosing : closing 0 c.next.rest with
  | none => simp only [group, Nesting.answer, if_pos hcurrent, hclosing]
  | some found => simp only [group, Nesting.answer, if_pos hcurrent, hclosing]

/-- From its opening bracket on, a group is read turn by turn, whatever bracket is awaited first. -/
theorem answers_group (hopener : c.kind.isOpener = true) (k : Token.Kind) :
    ∃ turns ≤ c.rest.length,
      Loop.Answers (Nesting.turn c.current) ⟨c.next, [k]⟩ turns (group c) := by
  have hlength : [k].length = 0 + 1 := rfl
  obtain ⟨turns, hturns, hanswers⟩ :=
    Nesting.answers hlength c.current c.next.previous c.next.rest
  have hless := length_next (Kind.ne_of_isOpener hopener).1
  rw [group_eq_answer hopener]
  exact ⟨turns, by omega, hanswers⟩

theorem settles_group (hopener : c.kind.isOpener = true) : c.Settles (group c) := by
  obtain ⟨turns, -, hanswers⟩ := answers_group hopener .rparen
  exact (Nesting.Follows.first hopener .rparen).settles hanswers

/-- At an opening bracket a group is read to its end if and only if some tokens from there on close
as many brackets as they open, and then up to the last of the shortest such run. Otherwise all is
read up to the end of the file, and what is reported points at the opening bracket. So a group in
which brackets of all shapes are properly nested is read as it is. In a file, whose last token is
the end, it does not matter whether a run may go over that. The loop that keeps the closing brackets
it waits for, and compares them with none, gives the same answer, in at most as many turns as tokens
are left. -/
theorem group_closes_shortest (c : Cursor) (hopener : c.kind.isOpener = true) :
    ((∃ stop, (group c).result = .ok stop) ↔ ∃ run, c.ClosedRun run) ∧
    ((∃ run, c.ClosedRun run) → ∃ inside last after, c.ClosesAt inside last after ∧
      group c = ⟨.ok last.span, ⟨last.span, after⟩, []⟩) ∧
    ((∀ run, ¬ c.ClosedRun run) → ∃ read stop d, c.Reads read stop ∧ stop.kind = .eof ∧
      group c = ⟨.error d, stop, []⟩ ∧ d.code = .unclosedDelimiter ∧
        d.labels = [⟨c.current.span, "opened here", true⟩,
          ⟨stop.current.span, "file ends here", false⟩]) ∧
    (∀ opened inside closed after, c.rest = opened :: (inside ++ closed :: after) →
      Kind.Pair opened.kind closed.kind → WellNested inside →
        group c = ⟨.ok closed.span, ⟨closed.span, after⟩, []⟩) ∧
    (c.Ended → ∀ run, run <+: c.rest → run ≠ [] → closes run = opens run →
      ∃ shorter, shorter <+: run ∧ c.ClosedRun shorter) ∧
    ∃ k, c.kind.closer? = some k ∧ ∃ turns ≤ c.rest.length,
      Loop.Answers (Nesting.turn c.current) ⟨c.next, [k]⟩ turns (group c) := by
  have hsettled := settles_group hopener
  refine ⟨hsettled.result_ok_iff, ?_, fun hnone ↦ ?_,
    fun opened inside closed after hrest hpair hinside ↦ ?_,
    fun hended run ↦ hended.exists_closedRun hopener, ?_⟩
  · rintro ⟨run, hrun⟩
    exact hsettled.exists_closesAt hrun
  · obtain ⟨read, stop, hread, hstop, hgroup⟩ := hsettled.exists_unclosed hnone
    exact ⟨read, stop, _, hread, hstop, hgroup, rfl, rfl⟩
  · obtain ⟨previous, rest⟩ := c
    obtain rfl : rest = _ := hrest
    exact group_cons hpair hinside
  · obtain ⟨k, hk⟩ := Option.isSome_iff_exists.mp (Kind.isSome_closer?.trans hopener)
    exact ⟨k, hk, answers_group hopener k⟩

/-- The cursor before the tokens of `([)}x`. -/
private def crossedGroup : Cursor :=
  ⟨.point 0, [⟨.lparen, ⟨0, 1⟩, "("⟩, ⟨.lbracket, ⟨1, 2⟩, "["⟩, ⟨.rparen, ⟨2, 3⟩, ")"⟩,
    ⟨.rbrace, ⟨3, 4⟩, "\x7d"⟩, ⟨.ident, ⟨4, 5⟩, "x"⟩, Token.endAt 5]⟩

/-- The cursor before the tokens of `([}x`. -/
private def openGroup : Cursor :=
  ⟨.point 0, [⟨.lparen, ⟨0, 1⟩, "("⟩, ⟨.lbracket, ⟨1, 2⟩, "["⟩, ⟨.rbrace, ⟨2, 3⟩, "\x7d"⟩,
    ⟨.ident, ⟨3, 4⟩, "x"⟩, Token.endAt 4]⟩

/-- The brace ends the first group, though no bracket in it closes one of its own shape; the second
one is left open. -/
theorem group_closes_shortest_crossed :
    crossedGroup.kind.isOpener = true ∧
      (∃ inside last after, crossedGroup.ClosesAt inside last after ∧ last.span = ⟨3, 4⟩) ∧
    openGroup.kind.isOpener = true ∧ ∀ run, ¬ openGroup.ClosedRun run := by
  have hcrossed : crossedGroup.kind.isOpener = true := by decide
  have hopen : openGroup.kind.isOpener = true := by decide
  have hrun : crossedGroup.ClosedRun (crossedGroup.rest.take 4) :=
    ⟨List.take_prefix 4 _, by decide, by decide, by decide⟩
  obtain ⟨inside, last, after, hcloses, hgroup⟩ :=
    (group_closes_shortest crossedGroup hcrossed).2.1 ⟨_, hrun⟩
  refine ⟨hcrossed, ⟨inside, last, after, hcloses, ?_⟩, hopen, fun run hrun ↦ ?_⟩
  · exact (Except.ok.inj (congrArg Outcome.result hgroup)).symm
  · obtain ⟨stop, hstop⟩ := (group_closes_shortest openGroup hopen).1.mpr ⟨run, hrun⟩
    cases hstop

end Parser
end Companion
