import Companion.Proofs.Grammar.Afresh
import Companion.Proofs.Grammar.WholeMembers

/-!
What a malformed member of a type body costs. Whatever stands in front of a `;`, as long as it has
no braces and its groups are closed: the member that is read from it, or what is passed over in its
place, ends right behind that `;`, and the members behind are read as if nothing stood in front
(`Parser.members_append_semicolon`). Properly nested brackets are such groups
(`Token.Nested.enclosed`).
-/

set_option autoImplicit false
set_option relaxedAutoImplicit false

namespace Companion

namespace Parser

variable {α β : Type} {c : Cursor}

/-! ### A malformed member in front of others -/

theorem members_eof (h : c.Ended) (hkind : c.kind = .eof) : members c = ⟨.ok [], c, []⟩ := by
  rw [members_eq_memberLoop h, memberLoop, look_bind, id, if_pos (by simp [hkind])]
  rfl

theorem succeeds_members : members.Succeeds := fun c ↦ succeeds_membersWith _ (c.rest.length + 1) c

/-- The loop over members, where its first step goes on. -/
theorem members_of_readOrPass (hc : c.Ended) (hbrace : c.kind ≠ .rbrace) (heof : c.kind ≠ .eof)
    {d : Cursor} {read : Except Diagnostic (Option Member)} {ds : List Diagnostic}
    (hread : readOrPass (memberWith members) c = ⟨.ok read, d, ds⟩)
    (hless : d.rest.length < c.rest.length) {kept : List Member}
    (hkept : ∀ rest, keepRead read rest = pure (kept ++ rest)) {later : List Member}
    (hlater : (members d).result = .ok later) :
    members c = ⟨.ok (kept ++ later), (members d).cursor, ds ++ (members d).reported⟩ := by
  have hstep := (memberStep_eq_readOrPass (hread ▸ hless)).trans hread
  rw [members_eq_memberLoop hc, memberLoop, look_bind]
  rw [id, if_neg (by simp [hbrace, heof]), bind_apply_of_ok (by rw [hstep]), hstep]
  dsimp only
  rw [bind_apply_of_ok hlater, hkept]
  simp only [List.append_nil, show ∀ (ms : List Member) (d : Cursor),
    (pure ms : Parser (List Member)) d = ⟨.ok ms, d, []⟩ from fun _ _ ↦ rfl]

/-- The loop over members, where its first step gets behind the `;`. -/
theorem members_followedBy (hc : c.Guarded) {ts : List Token} (hts : Token.Goes ts)
    {read : Except Diagnostic (Option Member)} {s : Span} {ds : List Diagnostic}
    (hread : readOrPass (memberWith members) (c.followedBy ts) = ⟨.ok read, ⟨s, ts⟩, ds⟩)
    {kept : List Member} (hkept : ∀ rest, keepRead read rest = pure (kept ++ rest))
    {later : List Member} (hlater : (members ⟨s, ts⟩).result = .ok later) :
    members (c.followedBy ts) = ⟨.ok (kept ++ later), (members ⟨s, ts⟩).cursor,
      ds ++ (members ⟨s, ts⟩).reported⟩ := by
  refine members_of_readOrPass (hc.ended hts) ?_ ?_ hread ?_ hkept hlater
  · rw [hc.kind_eq]
    simp [hc.kind_ne]
  · rw [hc.kind_eq]
    simp [hc.kind_ne]
  · have hpos := List.length_pos_of_ne_nil hc.rest_ne_nil
    rw [Cursor.followedBy, List.length_append]
    exact Nat.lt_add_of_pos_left hpos

end Parser

/-- Round and square brackets are properly nested among some tokens, and the other tokens open and
close nothing. -/
inductive Token.Nested : List Token → Prop
  | nil : Nested []
  | plain {t : Token} {ts : List Token} (hopener : t.kind.isOpener = false)
      (hcloser : t.kind.isCloser = false) (h : Nested ts) : Nested (t :: ts)
  | group {opened closed : Token} {inside ts : List Token}
      (hpair : opened.kind = .lparen ∧ closed.kind = .rparen ∨
        opened.kind = .lbracket ∧ closed.kind = .rbracket)
      (hinside : Nested inside) (h : Nested ts) : Nested (opened :: (inside ++ closed :: ts))

namespace Token

variable {ts us : List Token} {t : Token}

theorem closing_opener (ht : t.kind.isOpener = true) (depth : Nat) (us : List Token) :
    Cursor.closing depth (t :: us) = Cursor.closing (depth + 1) us := by
  have heof : t.kind ≠ .eof := fun h ↦ by rw [h] at ht; cases ht
  rw [Cursor.closing.eq_def]
  simp only [if_neg heof, if_pos ht]

theorem closing_closer (ht : t.kind.isCloser = true) (hopener : t.kind.isOpener = false)
    (us : List Token) : Cursor.closing 0 (t :: us) = some (t, us) ∧
      ∀ depth, Cursor.closing (depth + 1) (t :: us) = Cursor.closing depth us := by
  have heof : t.kind ≠ .eof := fun h ↦ by rw [h] at ht; cases ht
  refine ⟨?_, fun depth ↦ ?_⟩ <;>
    rw [Cursor.closing, if_neg heof, if_neg (by rw [hopener]; decide), if_pos ht]

theorem closing_plain (hopener : t.kind.isOpener = false) (hcloser : t.kind.isCloser = false)
    (heof : t.kind ≠ .eof) (depth : Nat) (us : List Token) :
    Cursor.closing depth (t :: us) = Cursor.closing depth us := by
  rw [Cursor.closing.eq_def]
  simp only [if_neg heof, hopener, hcloser, Bool.false_eq_true, if_false]

/-- An opening and a closing bracket of one shape. -/
inductive Kind.Pair : Kind → Kind → Prop
  | round : Pair .lparen .rparen
  | square : Pair .lbracket .rbracket
  | curly : Pair .lbrace .rbrace

namespace Kind.Pair

variable {opened closed : Kind}

theorem of_pair (h : opened = .lparen ∧ closed = .rparen ∨
    opened = .lbracket ∧ closed = .rbracket) : Pair opened closed := by
  rcases h with ⟨rfl, rfl⟩ | ⟨rfl, rfl⟩
  · exact .round
  · exact .square

theorem shapes (h : Pair opened closed) :
    opened.isOpener = true ∧ closed.isCloser = true ∧ closed.isOpener = false := by
  cases h <;> decide

theorem ne_eof (h : Pair opened closed) : opened ≠ .eof ∧ closed ≠ .eof := by
  cases h <;> decide

end Kind.Pair

/-- Brackets of all shapes are properly nested among some tokens. -/
inductive WellNested : List Token → Prop
  | nil : WellNested []
  | plain {t : Token} {ts : List Token} (hopener : t.kind.isOpener = false)
      (hcloser : t.kind.isCloser = false) (heof : t.kind ≠ .eof) (h : WellNested ts) :
      WellNested (t :: ts)
  | group {opened closed : Token} {inside ts : List Token}
      (hpair : Kind.Pair opened.kind closed.kind) (hinside : WellNested inside)
      (h : WellNested ts) : WellNested (opened :: (inside ++ closed :: ts))

/-- A group goes on behind tokens among which brackets are nested. -/
theorem WellNested.closing_append (h : WellNested ts) (depth : Nat) (us : List Token) :
    Cursor.closing depth (ts ++ us) = Cursor.closing depth us := by
  induction h generalizing depth us with
  | nil => rfl
  | plain hopener hcloser heof _ ih =>
    rw [List.cons_append, closing_plain hopener hcloser heof]
    exact ih depth us
  | group hpair _ _ ihInside ih =>
    obtain ⟨hopened, hclosed, hcloser⟩ := hpair.shapes
    rw [List.cons_append, closing_opener hopened, List.append_assoc, ihInside, List.cons_append,
      (closing_closer hclosed hcloser _).2, ih]

/-- The bracket that closes a group behind nested tokens. -/
theorem WellNested.closing_eq (h : WellNested ts) (ht : t.kind.isCloser = true)
    (hopener : t.kind.isOpener = false) (us : List Token) :
    Cursor.closing 0 (ts ++ t :: us) = some (t, us) :=
  (h.closing_append 0 _).trans (closing_closer ht hopener us).1

theorem Nested.wellNested (h : Nested ts) (hplain : ∀ t ∈ ts, t.kind.endsMember = false) :
    WellNested ts := by
  induction h with
  | nil => exact .nil
  | plain hopener hcloser _ ih =>
    obtain ⟨ht, hts⟩ := List.forall_mem_cons.mp hplain
    exact .plain hopener hcloser (fun heof ↦ by rw [heof] at ht; cases ht) (ih hts)
  | group hpair _ _ ihInside ih =>
    exact .group (.of_pair hpair) (ihInside fun u hu ↦ hplain u (by simp [hu]))
      (ih fun u hu ↦ hplain u (by simp [hu]))

/-- The rest of a file that does not start with a `;`. -/
theorem Goes.append_eof (hrest : ∀ t ∈ ts, t.kind ≠ .eof)
    (hhead : ∀ t ∈ ts.head?, t.kind ≠ .semicolon) (ht : t.kind = .eof) : Goes (ts ++ [t]) := by
  refine ⟨fun _ ↦ ⟨ts, t, rfl, ht, hrest⟩, fun u hu ↦ ?_⟩
  cases ts with
  | nil =>
    obtain rfl := Option.some.inj hu
    rw [ht]
    decide
  | cons v vs => exact hhead u hu

theorem Enclosed.append (h : Enclosed ts) (h' : Enclosed us) : Enclosed (ts ++ us) := by
  induction ts with
  | nil => exact h'
  | cons t ts ih =>
    refine ⟨h.1, fun hopener ↦ ?_, ih h.2.2⟩
    obtain ⟨⟨u, rest⟩, hfound⟩ := Option.isSome_iff_exists.mp (h.2.1 hopener)
    rw [List.append_eq, Cursor.closing_append hfound]
    rfl

theorem Nested.enclosed (h : Nested ts) (hplain : ∀ t ∈ ts, t.kind.endsMember = false) :
    Enclosed ts := by
  induction h with
  | nil => exact trivial
  | @plain t ts hopener _ _ ih =>
    refine ⟨hplain t List.mem_cons_self, fun h ↦ ?_,
      ih fun u hu ↦ hplain u (List.mem_cons_of_mem _ hu)⟩
    rw [hopener] at h
    cases h
  | @group opened closed inside ts hpair hnested _ ihInside ih =>
    obtain ⟨-, hclosed, hcloser⟩ := (Kind.Pair.of_pair hpair).shapes
    have hinside (u : Token) (hu : u ∈ inside) : u.kind.endsMember = false :=
      hplain u (by simp [hu])
    have hclosing : Cursor.closing 0 (inside ++ closed :: ts) = some (closed, ts) :=
      (hnested.wellNested hinside).closing_eq hclosed hcloser ts
    have hafter : Enclosed (closed :: ts) :=
      ⟨hplain closed (by simp), fun h ↦ (by rw [hcloser] at h; cases h),
        ih fun u hu ↦ hplain u (by simp [hu])⟩
    refine ⟨hplain opened List.mem_cons_self, fun _ ↦ ?_, (ihInside hinside).append hafter⟩
    rw [hclosing]
    rfl

end Token

namespace Parser

/-- One malformed member does not hide the members behind it. Some tokens without braces and `;`,
with brackets properly nested and otherwise of any kinds, stand in front of a `;`; behind it the
body goes on with anything but another `;`. Then the members that are read are those of the first
tokens with their `;`, and behind them exactly those that are read of the rest alone; so are the
reports; and reading stops in front of the same tokens as on the rest alone. What was read in front
of each does not matter. -/
theorem members_append_semicolon {malformed rest : List Token} {semi e e' : Token}
    (hnested : Token.Nested malformed) (hplain : ∀ t ∈ malformed, t.kind.endsMember = false)
    (hsemi : semi.kind = .semicolon) (hrest : ∀ t ∈ rest, t.kind ≠ .eof)
    (hhead : ∀ t ∈ rest.head?, t.kind ≠ .semicolon) (he : e.kind = .eof) (he' : e'.kind = .eof)
    (s s' s'' : Span) :
    ∃ first later,
      (members ⟨s, malformed ++ [semi, e']⟩).result = .ok first ∧
      (members ⟨s', rest ++ [e]⟩).result = .ok later ∧
      (members ⟨s'', malformed ++ semi :: (rest ++ [e])⟩).result = .ok (first ++ later) ∧
      (members ⟨s'', malformed ++ semi :: (rest ++ [e])⟩).reported =
        (members ⟨s, malformed ++ [semi, e']⟩).reported ++ (members ⟨s', rest ++ [e]⟩).reported ∧
      (members ⟨s'', malformed ++ semi :: (rest ++ [e])⟩).cursor.rest =
        (members ⟨s', rest ++ [e]⟩).cursor.rest := by
  obtain ⟨c, hrun⟩ : ∃ c : Cursor, c = ⟨s, malformed ++ [semi]⟩ := ⟨_, rfl⟩
  have hc : c.Guarded := ⟨malformed, semi, by rw [hrun], hnested.enclosed hplain, hsemi⟩
  have hfollowed (ts : List Token) : c.followedBy ts = ⟨s, malformed ++ semi :: ts⟩ := by
    rw [hrun, Cursor.followedBy, List.append_assoc]
    rfl
  have hends : Token.Goes [e'] := .append_eof (fun _ ht ↦ absurd ht List.not_mem_nil) (by simp) he'
  have hgoes : Token.Goes (rest ++ [e]) := .append_eof hrest hhead he
  -- the first member, or what is passed over in its place, is the same in front of both
  obtain ⟨o, ⟨read, hread, hnothing⟩, hfirst, hwhole⟩ :=
    yields_readOrPass (finishes_memberWith members) hc _ _ hends hgoes
  have houtcome (ts : List Token) :
      o.followedBy ts = ⟨.ok read, ⟨o.cursor.previous, ts⟩, o.reported⟩ := by
    rw [Outcome.followedBy, Cursor.followedBy, hnothing, hread]
    rfl
  obtain ⟨kept, hkept⟩ := exists_keepRead_eq_append read
  have hnone := members_eof (hends.ended o.cursor.previous) he'
  obtain ⟨later, hlater⟩ := succeeds_members ⟨o.cursor.previous, rest ++ [e]⟩
  have hempty : (members ⟨o.cursor.previous, [e']⟩).result = .ok [] := by rw [hnone]
  have hfirst' := members_followedBy hc hends (hfirst.trans (houtcome _)) hkept hempty
  have hwhole' := members_followedBy hc hgoes (hwhole.trans (houtcome _)) hkept hlater
  -- what was read in front of each changes nothing
  obtain ⟨hresult, hreported, hcursor⟩ :=
    (afresh_members (hgoes.ended s')).same o.cursor.previous s'
  obtain ⟨hresult', hreported', hcursor'⟩ :=
    (afresh_members (hfollowed _ ▸ hc.ended hgoes)).same s s''
  rw [hfollowed, hnone, List.append_nil, List.append_nil] at hfirst'
  rw [hfollowed] at hwhole'
  rw [← hresult', ← hreported', ← hcursor', ← hresult, ← hreported, ← hcursor, hfirst', hwhole']
  exact ⟨kept, later, rfl, hlater, rfl, rfl, rfl⟩

/-- The tokens of `[class] int = 5`, an attribute list and a field that both lack their names. -/
def namelessField : List Token :=
  [⟨.lbracket, ⟨0, 1⟩, "["⟩, ⟨.classWord, ⟨1, 6⟩, "class"⟩, ⟨.rbracket, ⟨6, 7⟩, "]"⟩,
    ⟨.ident, ⟨8, 11⟩, "int"⟩, ⟨.eq, ⟨12, 13⟩, "="⟩, ⟨.numberLit, ⟨14, 15⟩, "5"⟩]

/-- The tokens of `int y;`. -/
def namedField : List Token :=
  [⟨.ident, ⟨17, 20⟩, "int"⟩, ⟨.ident, ⟨21, 22⟩, "y"⟩, ⟨.semicolon, ⟨22, 23⟩, ";"⟩]

/-- The field behind is read, and what is reported is the missing name of the attribute. -/
theorem members_append_semicolon_namelessField :
    Token.Nested namelessField ∧ (∀ t ∈ namelessField, t.kind.endsMember = false) ∧
    (∀ t ∈ namedField, t.kind ≠ .eof) ∧ (∀ t ∈ namedField.head?, t.kind ≠ .semicolon) ∧
    ∃ first later,
      (members ⟨.point 0, namelessField ++ [⟨.semicolon, ⟨15, 16⟩, ";"⟩, Token.endAt 16]⟩).result =
        .ok first ∧
      (members ⟨.point 0, namedField ++ [Token.endAt 23]⟩).result = .ok later ∧
      (members ⟨.point 0, namelessField ++ ⟨.semicolon, ⟨15, 16⟩, ";"⟩ ::
        (namedField ++ [Token.endAt 23])⟩).result = .ok (first ++ later) ∧
      first = [] ∧ later.length = 1 ∧
      (members ⟨.point 0, namelessField ++ ⟨.semicolon, ⟨15, 16⟩, ";"⟩ ::
        (namedField ++ [Token.endAt 23])⟩).reported.map (·.code) = [.expectedIdentifier] := by
  have hnested : Token.Nested namelessField :=
    .group (.inr ⟨rfl, rfl⟩) (.plain rfl rfl .nil)
      (.plain rfl rfl (.plain rfl rfl (.plain rfl rfl .nil)))
  have hplain : ∀ t ∈ namelessField, t.kind.endsMember = false := by decide
  have hrest : ∀ t ∈ namedField, t.kind ≠ .eof := by decide
  have hhead : ∀ t ∈ namedField.head?, t.kind ≠ .semicolon := by decide
  obtain ⟨first, later, hfirst, hlater, hwhole, hreported, -⟩ :=
    @members_append_semicolon namelessField namedField ⟨.semicolon, ⟨15, 16⟩, ";"⟩
      (Token.endAt 23) (Token.endAt 16) hnested hplain rfl hrest hhead rfl rfl
      (.point 0) (.point 0) (.point 0)
  refine ⟨hnested, hplain, hrest, hhead, first, later, hfirst, hlater, hwhole, ?_, ?_, ?_⟩
  · have hnone : (members ⟨.point 0, namelessField ++
        [⟨.semicolon, ⟨15, 16⟩, ";"⟩, Token.endAt 16]⟩).result.toOption.map
          (·.length) = some 0 := by
      decide +kernel
    rw [hfirst] at hnone
    exact List.eq_nil_of_length_eq_zero (Option.some.inj hnone)
  · have hone : (members ⟨.point 0, namedField ++ [Token.endAt 23]⟩).result.toOption.map
        (·.length) = some 1 := by
      decide +kernel
    rw [hlater] at hone
    exact Option.some.inj hone
  · rw [hreported]
    decide +kernel

end Parser
end Companion
