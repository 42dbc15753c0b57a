import Companion.Proofs.Grammar.GenericInitializers
import Mathlib.Logic.Relation

/-!
Two scans over generic arguments. The lookahead counts how many lists are open and looks only at
tokens that may stand among arguments; the scan that reads them counts too, without going below
zero, and takes any token. Where the lookahead finds that a `<` opens arguments, its count has never
been below zero, and both scans stop at the same `>`: the first one behind which as many lists have
been closed as were opened. Both are loops here, one turn after another, which end wherever they are
started.
-/

set_option autoImplicit false
set_option relaxedAutoImplicit false

namespace Companion

/-! ### Loops -/

namespace Loop

variable {σ α : Type}

/-- A loop that does one turn after another answers in some number of turns. -/
inductive Answers (turn : σ → α ⊕ σ) : σ → Nat → α → Prop
  | last {s : σ} {a : α} (h : turn s = .inl a) : Answers turn s 1 a
  | next {s s' : σ} {n : Nat} {a : α} (h : turn s = .inr s') (hrest : Answers turn s' n a) :
    Answers turn s (n + 1) a

/-- A loop comes from one state to another. -/
def Reaches (turn : σ → α ⊕ σ) : σ → σ → Prop :=
  Relation.ReflTransGen fun s s' ↦ turn s = .inr s'

end Loop

/-! ### The count of open lists -/

namespace Token

/-- How many more lists are opened than closed among some tokens. -/
def height (ts : List Token) : Int :=
  (ts.countP (·.kind = .lt) : Int) - (ts.countP (·.kind = .gt) : Int)

/-- The kinds of token that no generic argument has in it: the end of the file, `;`, braces,
parentheses and literals. -/
def outsideTypeArgs : List Kind :=
  [.eof, .semicolon, .lbrace, .rbrace, .lparen, .rparen, .stringLit, .charLit, .numberLit]

end Token

namespace Cursor

/-! ### The two loops -/

/-- Where the lookahead is: how many tokens ahead it looks, and how many lists it has counted as
open. The count is an integer, so that it could fall below zero. -/
structure Lookahead where
  offset : Nat
  depth : Int

/-- One turn of the lookahead. -/
def Lookahead.turn (c : Cursor) (s : Lookahead) : Bool ⊕ Lookahead :=
  let k := c.kindAhead s.offset
  if k = .lt then .inr ⟨s.offset + 1, s.depth + 1⟩
  else if k = .gt then
    if s.depth - 1 = 0 then .inl (followsTypeArgs (c.kindAhead (s.offset + 1)))
    else .inr ⟨s.offset + 1, s.depth - 1⟩
  else if withinTypeArgs k then .inr ⟨s.offset + 1, s.depth⟩
  else .inl false

/-- Where the scan is that reads generic arguments, and how many lists are open there. -/
structure Passage where
  cursor : Cursor
  depth : Nat

/-- One turn of the scan that reads. The count does not fall below zero. -/
def Passage.turn (s : Passage) : (Span × Cursor) ⊕ Passage :=
  let t := s.cursor.current
  let after := s.cursor.next
  if t.kind = .lt then .inr ⟨after, s.depth + 1⟩
  else if t.kind = .gt then
    if s.depth - 1 = 0 then .inl (t.span, after) else .inr ⟨after, s.depth - 1⟩
  else if t.kind = .eof then .inl (t.span, after)
  else .inr ⟨after, s.depth⟩

variable {c : Cursor} {s s' : Lookahead} {t closed : Token} {ts inside after : List Token}
  {depth n : Nat}

/-! ### The lookahead, turn by turn -/

theorem kindAhead_eq (c : Cursor) (n : Nat) :
    c.kindAhead n = ((c.rest.drop n).head?.map (·.kind)).getD .eof := by
  rw [kindAhead, List.head?_drop]

/-- Past the last token there is nothing that could stand among arguments. -/
theorem Lookahead.turn_of_drop_eq_nil (h : c.rest.drop s.offset = []) : turn c s = .inl false := by
  have hkind : c.kindAhead s.offset = .eof := by
    rw [kindAhead_eq, h]
    rfl
  unfold turn
  rw [hkind]
  rfl

/-- What a turn does at a token. -/
theorem Lookahead.turn_of_drop_eq_cons (h : c.rest.drop n = t :: ts) (d : Int) :
    turn c ⟨n, d⟩ =
      if t.kind = .lt then .inr ⟨n + 1, d + 1⟩
      else if t.kind = .gt then
        if d - 1 = 0 then .inl (Parser.followed ts) else .inr ⟨n + 1, d - 1⟩
      else if withinTypeArgs t.kind then .inr ⟨n + 1, d⟩
      else .inl false := by
  have hkind : c.kindAhead n = t.kind := by
    rw [kindAhead_eq, h]
    rfl
  have hfollows : followsTypeArgs (c.kindAhead (n + 1)) = Parser.followed ts := by
    rw [kindAhead_eq, ← List.tail_drop, h, List.tail_cons]
    cases ts <;> rfl
  rw [turn, hkind, hfollows]

theorem drop_succ (h : c.rest.drop n = t :: ts) : c.rest.drop (n + 1) = ts := by
  rw [← List.tail_drop, h, List.tail_cons]

/-- With a list open, the turns of the lookahead give what `typeArgsAhead` gives. -/
theorem Lookahead.answers (hdrop : c.rest.drop n = ts) (depth : Nat) :
    ∃ turns ≤ ts.length + 1,
      Loop.Answers (turn c) ⟨n, depth + 1⟩ turns (typeArgsAhead (depth + 1) ts) := by
  induction ts generalizing n depth with
  | nil => exact ⟨1, by omega, .last (turn_of_drop_eq_nil hdrop)⟩
  | cons t ts ih =>
    have hturn := turn_of_drop_eq_cons hdrop (depth + 1)
    have hnext (depth' : Nat) (h : turn c ⟨n, depth + 1⟩ = .inr ⟨n + 1, depth' + 1⟩) :
        ∃ turns ≤ ts.length + 1 + 1,
          Loop.Answers (turn c) ⟨n, depth + 1⟩ turns (typeArgsAhead (depth' + 1) ts) := by
      obtain ⟨turns, hturns, hanswers⟩ := ih (drop_succ hdrop) depth'
      exact ⟨turns + 1, by omega, .next h hanswers⟩
    rw [List.length_cons, typeArgsAhead]
    by_cases hlt : t.kind = .lt
    · rw [if_pos hlt] at hturn ⊢
      exact hnext (depth + 1) hturn
    rw [if_neg hlt] at hturn ⊢
    by_cases hgt : t.kind = .gt
    · rw [if_pos hgt] at hturn ⊢
      cases depth with
      | zero => exact ⟨1, by omega, .last hturn⟩
      | succ depth =>
        have hcount : ¬((depth + 1 : Nat) + 1 - 1 : Int) = 0 := by omega
        rw [if_neg hcount] at hturn
        rw [if_neg (by omega)]
        exact hnext depth (hturn.trans (by simp))
    rw [if_neg hgt] at hturn ⊢
    cases hwithin : withinTypeArgs t.kind with
    | false => exact ⟨1, by omega, .last (by rw [hturn, hwithin]; rfl)⟩
    | true => exact hnext depth (by rw [hturn, hwithin]; rfl)

/-! ### The scan that reads, turn by turn -/

/-- What a turn does at a token: the end of the file is not passed. -/
theorem Passage.turn_cons (depth : Nat) (previous : Span) (t : Token) (ts : List Token) :
    turn ⟨⟨previous, t :: ts⟩, depth⟩ =
      if t.kind = .eof then .inl (t.span, ⟨previous, t :: ts⟩)
      else if t.kind = .lt then .inr ⟨⟨t.span, ts⟩, depth + 1⟩
      else if t.kind = .gt then
        if depth - 1 = 0 then .inl (t.span, ⟨t.span, ts⟩) else .inr ⟨⟨t.span, ts⟩, depth - 1⟩
      else .inr ⟨⟨t.span, ts⟩, depth⟩ := by
  by_cases heof : t.kind = .eof
  · simp [turn, current, next, heof]
  · simp [turn, current, next, heof]

/-- Wherever the scan is that reads, it ends, and gives what `pastTypeArgs` gives. -/
theorem Passage.answers (depth : Nat) (previous : Span) (ts : List Token) :
    ∃ turns ≤ ts.length + 1,
      Loop.Answers turn ⟨⟨previous, ts⟩, depth⟩ turns (pastTypeArgs depth previous ts) := by
  induction ts generalizing depth previous with
  | nil => exact ⟨1, by omega, .last rfl⟩
  | cons t ts ih =>
    have hturn := turn_cons depth previous t ts
    have hnext {depth' : Nat}
        (h : turn ⟨⟨previous, t :: ts⟩, depth⟩ = .inr ⟨⟨t.span, ts⟩, depth'⟩) :
        ∃ turns ≤ ts.length + 1 + 1, Loop.Answers turn ⟨⟨previous, t :: ts⟩, depth⟩ turns
          (pastTypeArgs depth' t.span ts) := by
      obtain ⟨turns, hturns, hanswers⟩ := ih depth' t.span
      exact ⟨turns + 1, by omega, .next h hanswers⟩
    rw [List.length_cons, pastTypeArgs]
    by_cases heof : t.kind = .eof
    · rw [if_pos heof] at hturn ⊢
      exact ⟨1, by omega, .last hturn⟩
    rw [if_neg heof] at hturn ⊢
    by_cases hlt : t.kind = .lt
    · rw [if_pos hlt] at hturn ⊢
      exact hnext hturn
    rw [if_neg hlt] at hturn ⊢
    by_cases hgt : t.kind = .gt
    · rw [if_pos hgt] at hturn ⊢
      by_cases hlast : depth ≤ 1
      · rw [if_pos (by omega)] at hturn
        rw [if_pos hlast]
        exact ⟨1, by omega, .last hturn⟩
      · rw [if_neg (by omega)] at hturn
        rw [if_neg hlast]
        exact hnext hturn
    rw [if_neg hgt] at hturn ⊢
    exact hnext hturn

end Cursor

/-! ### Where arguments are closed -/

namespace Token

@[simp] theorem height_nil : height [] = 0 := rfl

theorem plain_of_within {k : Kind} (h : Cursor.withinTypeArgs k = true) :
    k ≠ .lt ∧ k ≠ .gt ∧ k ∉ outsideTypeArgs := by
  cases k <;> first | exact absurd h (by decide) | decide

/-- Tokens that may be among generic arguments close all of some open lists but one, and none of
them closes the last. -/
inductive LeavesOne : Nat → List Token → Prop
  | nil : LeavesOne 1 []
  | opened {depth : Nat} {t : Token} {ts : List Token} (hkind : t.kind = .lt)
    (hrest : LeavesOne (depth + 2) ts) : LeavesOne (depth + 1) (t :: ts)
  | closed {depth : Nat} {t : Token} {ts : List Token} (hkind : t.kind = .gt)
    (hrest : LeavesOne (depth + 1) ts) : LeavesOne (depth + 2) (t :: ts)
  | within {depth : Nat} {t : Token} {ts : List Token}
    (hkind : Cursor.withinTypeArgs t.kind = true) (hrest : LeavesOne depth ts) :
    LeavesOne depth (t :: ts)

namespace LeavesOne

variable {closed : Token} {ts : List Token} {depth : Nat}

/-- The scan that reads stops behind the `>` that closes the list left open. -/
theorem pastTypeArgs_append (h : LeavesOne depth ts) (hclosed : closed.kind = .gt)
    (previous : Span) (after : List Token) :
    Cursor.pastTypeArgs depth previous (ts ++ closed :: after) =
      (closed.span, ⟨closed.span, after⟩) := by
  induction h generalizing previous with
  | nil => simp [Cursor.pastTypeArgs, hclosed]
  | @opened depth t ts hkind _ ih =>
    rw [List.cons_append, Cursor.pastTypeArgs, if_neg (by simp [hkind]), if_pos hkind]
    exact ih t.span
  | @closed depth t ts hkind _ ih =>
    rw [List.cons_append, Cursor.pastTypeArgs, if_neg (by simp [hkind]), if_neg (by simp [hkind]),
      if_pos hkind, if_neg (by omega)]
    exact ih t.span
  | @within depth t ts hkind _ ih =>
    obtain ⟨hlt, hgt, houtside⟩ := plain_of_within hkind
    have heof : t.kind ≠ .eof := fun heof ↦ houtside (by rw [heof]; decide)
    rw [List.cons_append, Cursor.pastTypeArgs, if_neg heof, if_neg hlt, if_neg hgt]
    exact ih t.span

/-- The lookahead comes past the tokens with one list open. -/
theorem reaches (h : LeavesOne depth ts) {c : Cursor} {n : Nat} {rest : List Token}
    (hdrop : c.rest.drop n = ts ++ rest) :
    Loop.Reaches (Cursor.Lookahead.turn c) ⟨n, depth⟩ ⟨n + ts.length, 1⟩ := by
  induction h generalizing n with
  | nil => exact .refl
  | @opened depth t ts hkind _ ih =>
    have hturn := Cursor.Lookahead.turn_of_drop_eq_cons hdrop (depth + 1)
    rw [if_pos hkind] at hturn
    have hrest := ih (Cursor.drop_succ hdrop)
    rw [Nat.add_right_comm] at hrest
    exact .head hturn hrest
  | @closed depth t ts hkind _ ih =>
    have hturn := Cursor.Lookahead.turn_of_drop_eq_cons hdrop (depth + 1 + 1)
    rw [if_neg (by simp [hkind]), if_pos hkind, if_neg (by omega), Int.add_sub_cancel] at hturn
    have hrest := ih (Cursor.drop_succ hdrop)
    rw [Nat.add_right_comm] at hrest
    exact .head hturn hrest
  | @within depth t ts hkind _ ih =>
    obtain ⟨hlt, hgt, -⟩ := plain_of_within hkind
    have hturn := Cursor.Lookahead.turn_of_drop_eq_cons hdrop depth
    rw [if_neg hlt, if_neg hgt, if_pos hkind] at hturn
    have hrest := ih (Cursor.drop_succ hdrop)
    rw [Nat.add_right_comm] at hrest
    exact .head hturn hrest

end LeavesOne

end Token

namespace Cursor

variable {c : Cursor}

end Cursor
end Companion
