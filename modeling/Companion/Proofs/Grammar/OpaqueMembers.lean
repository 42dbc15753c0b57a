import Companion.Proofs.Grammar.MemberReading
import Companion.Proofs.Grammar.Recovery

/-!
Members that are not looked into. A method, property, operator and so on is passed over by the kinds
of its tokens alone: up to a `;`, or past its block unless there is an assignment in front of it,
because then an expression goes on behind the block. So a member that ends with its block is passed
over up to its end, and what comes behind it is read as if the member were not there. The name of
the operator `>=` is two tokens, of which the second one is taken for an assignment; behind the
block of such a member reading goes on, unless the body ends there.
-/

set_option autoImplicit false
set_option relaxedAutoImplicit false

namespace Companion

open Token Companion.Parser

/-! ### Members that end with a block -/

/-- The tokens of a member in front of its block. Outside of groups in round and square brackets,
which hold anything among which brackets are properly nested, there is no brace, no `;`, no `=>` and
no assignment. The first argument says whether `>=` is there as the name of an operator, which is
two tokens. -/
inductive Token.Header : Bool → List Token → Prop
  | nil : Header false []
  | plain {split : Bool} {t : Token} {ts : List Token} (ht : isQuiet t.kind = true)
      (h : Header split ts) : Header split (t :: ts)
  | group {split : Bool} {opened closed : Token} {inside ts : List Token}
      (hpair : Kind.Pair opened.kind closed.kind) (hopened : opened.kind ≠ .lbrace)
      (hinside : WellNested inside) (h : Header split ts) :
      Header split (opened :: (inside ++ closed :: ts))
  | atLeast {split : Bool} {word greater equal : Token} {ts : List Token}
      (hword : word.isWord "operator" = true) (hgreater : greater.kind = .gt)
      (hequal : equal.kind = .eq) (hadjacent : greater.span.stop = equal.span.start)
      (h : Header split ts) : Header true (word :: greater :: equal :: ts)

/-- A member that ends with a block. -/
structure BlockMember where
  header : List Token
  opened : Token
  inside : List Token
  closed : Token
  /-- Whether the name of an operator in it is two tokens. -/
  split : Bool
  isHeader : Header split header
  opened_kind : opened.kind = .lbrace
  isNested : WellNested inside
  closed_kind : closed.kind = .rbrace

/-- The cursor behind a `;`, if there is one. -/
def Cursor.pastSemicolon (c : Cursor) : Cursor := if c.kind = .semicolon then c.next else c

namespace BlockMember

variable (m : BlockMember)

def tokens : List Token := m.header ++ m.opened :: (m.inside ++ [m.closed])

theorem tokens_append (after : List Token) :
    m.tokens ++ after = m.header ++ m.opened :: (m.inside ++ m.closed :: after) := by
  simp [tokens]

/-- The cursor right behind the block. -/
def behind (after : List Token) : Cursor := ⟨m.closed.span, after⟩

/-- Nothing makes reading go on behind the block. -/
def EndsBefore (after : List Token) : Prop :=
  m.split = false ∨ (m.behind after).kind ∈ [Kind.semicolon, Kind.rbrace, Kind.eof]

end BlockMember

namespace Parser

variable {budget : Nat} {inExpression : Bool} {s : Span} {t : Token} {ts : List Token}

/-! ### One step over a member -/

/-- A group in which brackets are nested is read up to the bracket that closes it. -/
theorem group_cons {opened closed : Token} (hpair : Kind.Pair opened.kind closed.kind)
    {inside : List Token} (hinside : WellNested inside) :
    group ⟨s, opened :: (inside ++ closed :: ts)⟩ = ⟨.ok closed.span, ⟨closed.span, ts⟩, []⟩ := by
  obtain ⟨hopened, hclosed, hcloser⟩ := hpair.shapes
  have hcurrent : (Cursor.mk s (opened :: (inside ++ closed :: ts))).current = opened := rfl
  rw [group, hcurrent, Cursor.next_cons hpair.ne_eof.1, if_pos hopened]
  dsimp only
  rw [hinside.closing_eq hclosed hcloser]

theorem group_bind_cons {β : Type} {f : Span → Parser β} {opened closed : Token}
    (hpair : Kind.Pair opened.kind closed.kind) {inside : List Token}
    (hinside : WellNested inside) : (group >>= f) ⟨s, opened :: (inside ++ closed :: ts)⟩ =
      f closed.span ⟨closed.span, ts⟩ :=
  bind_of_ok (group_cons hpair hinside)

theorem memberRestWithin_group {opened closed : Token}
    (hpair : Kind.Pair opened.kind closed.kind) (hopened : opened.kind ≠ .lbrace)
    {inside : List Token} (hinside : WellNested inside) :
    memberRestWithin (budget + 1) inExpression ⟨s, opened :: (inside ++ closed :: ts)⟩ =
      memberRestWithin budget inExpression ⟨closed.span, ts⟩ := by
  have hgroup : (do let _ ← group; memberRestWithin budget inExpression)
      ⟨s, opened :: (inside ++ closed :: ts)⟩ =
        memberRestWithin budget inExpression ⟨closed.span, ts⟩ := group_bind_cons hpair hinside
  rw [memberRestWithin, look_bind, show Cursor.kind ⟨s, opened :: _⟩ = opened.kind from rfl]
  generalize opened.kind = k at hpair hopened
  generalize closed.kind = k' at hpair
  cases hpair with
  | round => exact hgroup
  | square => exact hgroup
  | curly => exact absurd rfl hopened

theorem memberRestWithin_assignment (ht : t.kind = .eq) :
    memberRestWithin (budget + 1) inExpression ⟨s, t :: ts⟩ =
      memberRestWithin budget true ⟨t.span, ts⟩ := by
  rw [memberRestWithin, look_bind, show Cursor.kind ⟨s, t :: ts⟩ = .eq from ht]
  exact advance_bind_cons (ht ▸ by decide) s ts

theorem eat_semicolon (c : Cursor) : ∃ b, eat .semicolon c = ⟨.ok b, c.pastSemicolon, []⟩ := by
  rw [eat, Cursor.pastSemicolon]
  split
  · exact ⟨true, rfl⟩
  · exact ⟨false, rfl⟩

/-- Behind a block reading goes on only if it is within an expression. -/
theorem memberRestWithin_block (m : BlockMember) {after : List Token}
    (hnext : (m.behind after).kind ≠ .eq) :
    memberRestWithin (budget + 1) inExpression
      ⟨s, m.opened :: (m.inside ++ m.closed :: after)⟩ =
        if inExpression then memberRestWithin budget true (m.behind after)
        else ⟨.ok (), (m.behind after).pastSemicolon, []⟩ := by
  have hpair : Kind.Pair m.opened.kind m.closed.kind := by
    rw [m.opened_kind, m.closed_kind]
    exact .curly
  obtain ⟨b, heat⟩ := eat_semicolon (m.behind after)
  rw [memberRestWithin, look_bind, show Cursor.kind ⟨s, m.opened :: _⟩ = .lbrace from m.opened_kind]
  dsimp only
  rw [group_bind_cons hpair m.isNested, check_bind, ← BlockMember.behind, beq_false_of_ne hnext,
    Bool.or_false]
  cases inExpression with
  | true => rfl
  | false => exact bind_of_ok heat

/-! ### The whole member -/

/-- The tokens in front of the block are passed over, and only the name of an operator among them
makes reading go on within an expression. -/
theorem memberRestWithin_header {split : Bool} {header : List Token} (h : Header split header)
    {rest : List Token} (hbudget : (header ++ rest).length < budget) :
    ∃ budget' s', rest.length < budget' ∧
      memberRestWithin budget inExpression ⟨s, header ++ rest⟩ =
        memberRestWithin budget' (inExpression || split) ⟨s', rest⟩ := by
  induction h generalizing budget inExpression s with
  | nil => exact ⟨budget, s, hbudget, by rw [Bool.or_false]; rfl⟩
  | plain ht _ ih =>
    obtain ⟨budget, rfl⟩ := Nat.exists_eq_succ_of_ne_zero (Nat.ne_zero_of_lt hbudget)
    rw [List.cons_append, memberRestWithin_quiet ht]
    exact ih (Nat.lt_of_succ_lt_succ hbudget)
  | @group _ opened closed inside ts hpair hopened hinside _ ih =>
    obtain ⟨budget, rfl⟩ := Nat.exists_eq_succ_of_ne_zero (Nat.ne_zero_of_lt hbudget)
    rw [List.cons_append, List.append_assoc, List.cons_append,
      memberRestWithin_group hpair hopened hinside]
    refine ih ?_
    simp only [List.cons_append, List.length_append, List.length_cons] at hbudget ⊢
    omega
  | @atLeast _ word greater equal ts hword hgreater hequal _ _ ih =>
    obtain ⟨budget, rfl⟩ : ∃ n, budget = n + 3 :=
      ⟨budget - 3, by simp only [List.cons_append, List.length_cons] at hbudget; omega⟩
    have hident : isQuiet word.kind = true := by rw [kind_of_isWord hword]; rfl
    rw [List.cons_append, List.cons_append, List.cons_append, memberRestWithin_quiet hident,
      memberRestWithin_quiet (by rw [hgreater]; rfl), memberRestWithin_assignment hequal,
      Bool.or_true]
    have hlength : (ts ++ rest).length < budget := by
      simp only [List.cons_append, List.length_cons] at hbudget
      omega
    obtain ⟨budget', s', hbudget', heq⟩ := ih hlength
    rw [Bool.true_or] at heq
    exact ⟨budget', s', hbudget', heq⟩

/-- A member is passed over up to the end of its block; if the name of an operator in it is two
tokens, reading goes on there within an expression. -/
theorem memberRest_tokens (m : BlockMember) {after : List Token}
    (hnext : (m.behind after).kind ≠ .eq) (s : Span) :
    ∃ budget, memberRest ⟨s, m.tokens ++ after⟩ =
      if m.split then memberRestWithin (budget + 1) true (m.behind after)
      else ⟨.ok (), (m.behind after).pastSemicolon, []⟩ := by
  rw [m.tokens_append, memberRest]
  have hlength : (m.header ++ m.opened :: (m.inside ++ m.closed :: after)).length <
      (m.header ++ m.opened :: (m.inside ++ m.closed :: after)).length + 1 := Nat.lt_succ_self _
  obtain ⟨budget, s', hbudget, heq⟩ := memberRestWithin_header m.isHeader hlength
  obtain ⟨budget, rfl⟩ : ∃ n, budget = n + 2 := ⟨budget - 2, by
    simp only [List.length_cons, List.length_append] at hbudget
    omega⟩
  rw [heq, Bool.false_or, memberRestWithin_block m hnext]
  exact ⟨budget, rfl⟩

theorem memberRest_tokens_iff (m : BlockMember) {after : List Token}
    (hnext : (m.behind after).kind ≠ .eq) (s : Span) :
    memberRest ⟨s, m.tokens ++ after⟩ = ⟨.ok (), (m.behind after).pastSemicolon, []⟩ ↔
      m.EndsBefore after := by
  obtain ⟨budget, hrest⟩ := memberRest_tokens m hnext s
  rw [hrest, BlockMember.EndsBefore]
  cases hsplit : m.split with
  | false => exact iff_of_true rfl (.inl rfl)
  | true =>
    rw [if_pos rfl, or_iff_right (by simp)]
    constructor
    · intro hstops
      -- anything else is read, so that fewer tokens are left than behind the block
      by_contra hgoes
      simp only [List.mem_cons, List.not_mem_nil, or_false, not_or] at hgoes
      obtain ⟨hsemicolon, hbrace, heof⟩ := hgoes
      have hless := length_memberRestWithin_lt hbrace heof budget true
      rw [hstops, Cursor.pastSemicolon, if_neg hsemicolon] at hless
      exact Nat.lt_irrefl _ hless
    · intro hstops
      simp only [List.mem_cons, List.not_mem_nil, or_false] at hstops
      rw [memberRestWithin, look_bind, Cursor.pastSemicolon]
      rcases hstops with hkind | hkind | hkind <;> rw [hkind] <;> rfl

/-! ### The members behind it -/

theorem attributeLists_of_ne {c : Cursor} (h : c.kind ≠ .lbracket) :
    attributeLists c = ⟨.ok [], c, []⟩ := by
  rw [attributeLists, manyAt, check_bind, beq_false_of_ne h]
  rfl

theorem modifiers_of_ne {c : Cursor} (h : c.kind ≠ .ident) : modifiers c = ⟨.ok [], c, []⟩ := by
  obtain ⟨previous, rest⟩ := c
  cases rest with
  | nil => rfl
  | cons t ts =>
    have ht : t.kind ≠ .ident := h
    rw [modifiers, modifiersAt]
    cases Modifier.ofKeyword? t.text with
    | none => rfl
    | some m => simp [ht]

/-- In front of a closing brace and of a `;` there is no member. -/
theorem memberWith_of_kind {c : Cursor} (h : c.kind = .rbrace ∨ c.kind = .semicolon) :
    memberWith members c = ⟨.ok none, c.pastSemicolon, []⟩ := by
  have hlist := attributeLists_of_ne (c := c) (by rcases h with h | h <;> rw [h] <;> decide)
  have hmodifiers := modifiers_of_ne (c := c) (by rcases h with h | h <;> rw [h] <;> decide)
  have hdeclared : declaredKind c = none := by rcases h with h | h <;> rw [declaredKind, h]
  rw [memberWith, look_bind, bind_of_ok hlist, bind_of_ok hmodifiers, look_bind, id, hdeclared,
    Cursor.pastSemicolon]
  rcases h with h | h <;> simp only [h] <;> rfl

/-- A lone `;` among members is none. -/
theorem members_semicolon (ht : t.kind = .semicolon) (hended : (Cursor.mk s (t :: ts)).Ended) :
    members ⟨s, t :: ts⟩ = members ⟨t.span, ts⟩ := by
  have hkind : Cursor.kind ⟨s, t :: ts⟩ = .semicolon := ht
  have hpast : (Cursor.mk s (t :: ts)).pastSemicolon = ⟨t.span, ts⟩ := by
    rw [Cursor.pastSemicolon, if_pos hkind, Cursor.next_cons (ht ▸ by decide)]
  have hread : readOrPass (memberWith members) ⟨s, t :: ts⟩ =
      ⟨.ok (.ok none), ⟨t.span, ts⟩, []⟩ := by
    rw [readOrPass, attempt_bind_of_ok (memberWith_of_kind (.inr hkind)), hpast]
    rfl
  have hkept (rest : List Member) : keepRead (.ok none) rest = pure ([] ++ rest) := rfl
  obtain ⟨later, hlater⟩ := succeeds_members ⟨t.span, ts⟩
  rw [members_of_readOrPass hended (hkind ▸ by decide) (hkind ▸ by decide) hread
    (Nat.lt_succ_self _) hkept hlater, List.nil_append, List.nil_append, ← hlater]

theorem members_pastSemicolon {c : Cursor} (hended : c.Ended) :
    members c.pastSemicolon = members c := by
  rw [Cursor.pastSemicolon]
  split
  · rename_i hkind
    obtain ⟨previous, rest⟩ := c
    cases rest with
    | nil => cases hkind
    | cons t ts =>
      have ht : t.kind = .semicolon := hkind
      rw [Cursor.next_cons (ht ▸ by decide), members_semicolon ht hended]
  · rfl

theorem length_pastSemicolon_le (c : Cursor) : c.pastSemicolon.rest.length ≤ c.rest.length := by
  obtain ⟨b, heat⟩ := eat_semicolon c
  have hle := (forward_eat .semicolon).length_le c
  rwa [heat] at hle

/-- Behind a token that is not the end of the file, that end is still ahead. -/
theorem ended_of_append {us : List Token} (ht : t.kind ≠ .eof)
    (hended : (Cursor.mk s (us ++ t :: ts)).Ended) (s' : Span) : (Cursor.mk s' ts).Ended := by
  obtain ⟨front, e, heq, he, hfront⟩ := hended
  rcases List.eq_nil_or_concat ts with rfl | ⟨before, last, rfl⟩
  · obtain ⟨-, hlast⟩ := List.append_inj' heq rfl
    rw [(List.cons.inj hlast).1] at ht
    exact absurd he ht
  · have hcut : (us ++ t :: before) ++ [last] = front ++ [e] := by
      rw [← heq]
      simp
    obtain ⟨rfl, hlast⟩ := List.append_inj' hcut rfl
    obtain rfl := (List.cons.inj hlast).1
    exact ⟨before, last, List.concat_eq_append, he, fun u hu ↦ hfront u (by simp [hu])⟩

/-- Behind a member the end of the file is still ahead. -/
theorem ended_behind (m : BlockMember) {front after : List Token}
    (hended : (Cursor.mk s (front ++ (m.tokens ++ after))).Ended) : (m.behind after).Ended := by
  rw [m.tokens_append, ← List.cons_append, ← List.append_assoc, ← List.append_assoc] at hended
  exact ended_of_append (m.closed_kind ▸ by decide) hended _

/-- In front of a member the file does not end. -/
theorem kind_ne_eof_of_blockMember (m : BlockMember) {front after : List Token}
    (hended : (Cursor.mk s (front ++ (m.tokens ++ after))).Ended) :
    Cursor.kind ⟨s, front ++ (m.tokens ++ after)⟩ ≠ .eof := by
  intro hkind
  obtain ⟨e, he, -⟩ := hended.rest_eq hkind
  have hlength := (ended_behind m hended).length_pos
  have htwo := congrArg List.length he
  rw [m.tokens_append] at htwo
  simp only [BlockMember.behind, List.length_append, List.length_cons, List.length_nil]
    at hlength htwo
  omega

/-- A member that nothing makes go on is read up to the end of its block, and the members behind it
as if it were not there. -/
theorem members_append_block (m : BlockMember) {front after : List Token} {s₀ start : Span}
    (hended : (Cursor.mk s₀ (front ++ (m.tokens ++ after))).Ended)
    (hnext : (m.behind after).kind ≠ .eq) (hends : m.EndsBefore after)
    (hstarts : memberWith members ⟨s₀, front ++ (m.tokens ++ after)⟩ =
      otherMember start ⟨s, m.tokens ++ after⟩) (s' : Span) :
    ∃ span later, (members ⟨s', after⟩).result = .ok later ∧
      (members ⟨s₀, front ++ (m.tokens ++ after)⟩).result = .ok (.other span :: later) ∧
      (members ⟨s₀, front ++ (m.tokens ++ after)⟩).reported = (members ⟨s', after⟩).reported ∧
      (members ⟨s₀, front ++ (m.tokens ++ after)⟩).cursor.rest =
        (members ⟨s', after⟩).cursor.rest := by
  have hbehind := ended_behind m hended
  have heof := kind_ne_eof_of_blockMember m hended
  have hrest := (memberRest_tokens_iff m hnext s).mpr hends
  obtain ⟨span, hother⟩ : ∃ span, otherMember start ⟨s, m.tokens ++ after⟩ =
      ⟨.ok (some (.other span)), (m.behind after).pastSemicolon, []⟩ :=
    ⟨_, bind_of_ok hrest⟩
  rw [hother] at hstarts
  generalize hfile : front ++ (m.tokens ++ after) = file at hended hstarts heof ⊢
  have hread : readOrPass (memberWith members) ⟨s₀, file⟩ =
      ⟨.ok (.ok (some (.other span))), (m.behind after).pastSemicolon, []⟩ := by
    rw [readOrPass, attempt_bind_of_ok hstarts]
    rfl
  have hless : (m.behind after).pastSemicolon.rest.length < file.length := by
    have hle := length_pastSemicolon_le (m.behind after)
    rw [← hfile, m.tokens_append]
    simp only [BlockMember.behind, List.length_append, List.length_cons] at hle ⊢
    omega
  have hbrace : Cursor.kind ⟨s₀, file⟩ ≠ .rbrace := by
    intro hkind
    rw [memberWith_of_kind (.inl hkind)] at hstarts
    cases hstarts
  have hkept (rest : List Member) :
      keepRead (.ok (some (.other span))) rest = pure ([.other span] ++ rest) := rfl
  obtain ⟨later, hlater⟩ := succeeds_members (m.behind after).pastSemicolon
  rw [members_of_readOrPass hended hbrace heof hread hless hkept hlater]
  rw [members_pastSemicolon hbehind] at hlater ⊢
  obtain ⟨hresult, hreported, hcursor⟩ := (afresh_members hbehind).same m.closed.span s'
  exact ⟨span, later, hresult ▸ hlater, rfl, hreported, hcursor⟩

/-- A member that ends with a block is passed over exactly up to the end of the block and a `;`
behind it, if no name of an operator in it is two tokens or the body ends there; and then the
members behind it are read as if it were not there. -/
theorem memberRest_block_iff (m : BlockMember) {after : List Token}
    (hnext : (m.behind after).kind ≠ .eq) :
    (∀ s, memberRest ⟨s, m.tokens ++ after⟩ = ⟨.ok (), (m.behind after).pastSemicolon, []⟩ ↔
      m.EndsBefore after) ∧
    (m.EndsBefore after → ∀ (front : List Token) (s₀ start s : Span),
      (Cursor.mk s₀ (front ++ (m.tokens ++ after))).Ended →
      memberWith members ⟨s₀, front ++ (m.tokens ++ after)⟩ =
        otherMember start ⟨s, m.tokens ++ after⟩ →
      ∀ s', ∃ span later, (members ⟨s', after⟩).result = .ok later ∧
        (members ⟨s₀, front ++ (m.tokens ++ after)⟩).result = .ok (.other span :: later) ∧
        (members ⟨s₀, front ++ (m.tokens ++ after)⟩).reported = (members ⟨s', after⟩).reported ∧
        (members ⟨s₀, front ++ (m.tokens ++ after)⟩).cursor.rest =
          (members ⟨s', after⟩).cursor.rest) :=
  ⟨fun s ↦ memberRest_tokens_iff m hnext s, fun hends _ _ _ _ hended hstarts s' ↦
    members_append_block m hended hnext hends hstarts s'⟩

/-- From its first token on a member is not looked into. -/
theorem memberWith_of_startsOther {c : Cursor} (hmodifiers : modifiers c = ⟨.ok [], c, []⟩)
    (hdeclared : declaredKind c = none) (hstarts : startsOther c = true) :
    memberWith members c = otherMember c.current.span c := by
  have hkind : c.kind ≠ .lbracket ∧ c.kind ≠ .semicolon ∧ c.kind ≠ .rbrace := by
    refine ⟨?_, ?_, ?_⟩ <;>
    · intro hkind
      rw [startsOther, hkind] at hstarts
      cases hstarts
  rw [memberWith, look_bind, bind_of_ok (attributeLists_of_ne hkind.1), bind_of_ok hmodifiers,
    look_bind, id, hdeclared]
  dsimp only
  rw [if_neg hkind.2.1, if_neg hkind.2.2, if_pos hstarts]

/-- The member `C(int a=1){x=2;}`, which has an assignment in its parameters and in its block. -/
private def constructorMember : BlockMember where
  header := [⟨.ident, ⟨0, 1⟩, "C"⟩, ⟨.lparen, ⟨1, 2⟩, "("⟩, ⟨.ident, ⟨2, 5⟩, "int"⟩,
    ⟨.ident, ⟨6, 7⟩, "a"⟩, ⟨.eq, ⟨7, 8⟩, "="⟩, ⟨.numberLit, ⟨8, 9⟩, "1"⟩, ⟨.rparen, ⟨9, 10⟩, ")"⟩]
  opened := ⟨.lbrace, ⟨10, 11⟩, "\x7b"⟩
  inside := [⟨.ident, ⟨11, 12⟩, "x"⟩, ⟨.eq, ⟨12, 13⟩, "="⟩, ⟨.numberLit, ⟨13, 14⟩, "2"⟩,
    ⟨.semicolon, ⟨14, 15⟩, ";"⟩]
  closed := ⟨.rbrace, ⟨15, 16⟩, "\x7d"⟩
  split := false
  isHeader := .plain rfl <| .group .round (by decide)
    (.plain rfl rfl (by decide) <| .plain rfl rfl (by decide) <| .plain rfl rfl (by decide) <|
      .plain rfl rfl (by decide) .nil) .nil
  opened_kind := rfl
  isNested := .plain rfl rfl (by decide) <| .plain rfl rfl (by decide) <|
    .plain rfl rfl (by decide) <| .plain rfl rfl (by decide) .nil
  closed_kind := rfl

/-- The tokens of `int x;}` from an offset on. -/
private def fieldTokens (n : Nat) : List Token :=
  [⟨.ident, ⟨n, n + 3⟩, "int"⟩, ⟨.ident, ⟨n + 4, n + 5⟩, "x"⟩, ⟨.semicolon, ⟨n + 5, n + 6⟩, ";"⟩,
    ⟨.rbrace, ⟨n + 6, n + 7⟩, "\x7d"⟩, Token.endAt (n + 7)]

private theorem memberWith_constructorMember (s : Span) :
    memberWith members ⟨s, constructorMember.tokens ++ fieldTokens 16⟩ =
      otherMember ⟨0, 1⟩ ⟨s, constructorMember.tokens ++ fieldTokens 16⟩ :=
  memberWith_of_startsOther rfl rfl rfl

theorem memberRest_block_iff_constructor :
    constructorMember.tokens ++ fieldTokens 16 = ofSource "C(int a=1)\x7bx=2;\x7dint x;\x7d" ∧
      (constructorMember.behind (fieldTokens 16)).kind ≠ .eq ∧
      (∀ s, memberRest ⟨s, constructorMember.tokens ++ fieldTokens 16⟩ =
        ⟨.ok (), constructorMember.behind (fieldTokens 16), []⟩) ∧
      ∃ span later, (members ⟨.point 0, fieldTokens 16⟩).result = .ok later ∧
        (members ⟨.point 0, constructorMember.tokens ++ fieldTokens 16⟩).result =
          .ok (.other span :: later) := by
  have hnext : (constructorMember.behind (fieldTokens 16)).kind ≠ .eq := by decide
  have hended : (Cursor.mk (.point 0) (constructorMember.tokens ++ fieldTokens 16)).Ended :=
    ⟨constructorMember.tokens ++ (fieldTokens 16).dropLast, Token.endAt 23, rfl, rfl, by decide⟩
  obtain ⟨hiff, hmembers⟩ := memberRest_block_iff constructorMember hnext
  have hends : constructorMember.EndsBefore (fieldTokens 16) := .inl rfl
  obtain ⟨span, later, hlater, hresult, -⟩ := hmembers hends [] (.point 0) ⟨0, 1⟩ (.point 0)
    hended (memberWith_constructorMember _) (.point 0)
  exact ⟨by decide +kernel, hnext, fun s ↦ (hiff s).mpr hends, span, later, hlater, hresult⟩

/-- The member `operator>=(C a,C b){return true;}`. -/
private def atLeastMember : BlockMember where
  header := [⟨.ident, ⟨0, 8⟩, "operator"⟩, ⟨.gt, ⟨8, 9⟩, ">"⟩, ⟨.eq, ⟨9, 10⟩, "="⟩,
    ⟨.lparen, ⟨10, 11⟩, "("⟩, ⟨.ident, ⟨11, 12⟩, "C"⟩, ⟨.ident, ⟨13, 14⟩, "a"⟩,
    ⟨.comma, ⟨14, 15⟩, ","⟩, ⟨.ident, ⟨15, 16⟩, "C"⟩, ⟨.ident, ⟨17, 18⟩, "b"⟩,
    ⟨.rparen, ⟨18, 19⟩, ")"⟩]
  opened := ⟨.lbrace, ⟨19, 20⟩, "\x7b"⟩
  inside := [⟨.ident, ⟨20, 26⟩, "return"⟩, ⟨.ident, ⟨27, 31⟩, "true"⟩,
    ⟨.semicolon, ⟨31, 32⟩, ";"⟩]
  closed := ⟨.rbrace, ⟨32, 33⟩, "\x7d"⟩
  split := true
  isHeader := .atLeast rfl rfl rfl rfl <| .group .round (by decide)
    (.plain rfl rfl (by decide) <| .plain rfl rfl (by decide) <| .plain rfl rfl (by decide) <|
      .plain rfl rfl (by decide) <| .plain rfl rfl (by decide) .nil) .nil
  opened_kind := rfl
  isNested := .plain rfl rfl (by decide) <| .plain rfl rfl (by decide) <|
    .plain rfl rfl (by decide) .nil
  closed_kind := rfl

/-- A field behind the operator `>=` is passed over with it. -/
theorem not_forall_memberRest_block :
    ¬ ∀ (m : BlockMember) (after : List Token), (m.behind after).kind ≠ .eq →
      ∀ s, memberRest ⟨s, m.tokens ++ after⟩ = ⟨.ok (), (m.behind after).pastSemicolon, []⟩ := by
  intro hall
  have hnext : (atLeastMember.behind (fieldTokens 33)).kind ≠ .eq := by decide
  have hends := (memberRest_tokens_iff atLeastMember hnext (.point 0)).mp
    (hall atLeastMember (fieldTokens 33) hnext (.point 0))
  rcases hends with hsplit | hkind
  · cases hsplit
  · revert hkind
    decide

end Parser
end Companion
