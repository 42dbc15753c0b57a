import Companion.Proofs.Grammar.Budgets

/-!
Reading up to a `;`. Ahead of a guarded cursor stand tokens without braces in which every group that
is opened is closed, and a `;` behind them (`Cursor.Guarded`). A parser looks no further than that
`;` if it comes to the same outcome in every longer list of tokens (`Parser.Alike`), and it keeps
the `;` if it stops in front of it, with all groups still closed ahead (`Parser.Keeps`). Parsers
that do so one after the other do so together (`Parser.Alike.bind`, `Parser.Keeps.bind`); single
tokens other than the `;`, groups and lists with commas between do so.
-/

set_option autoImplicit false
set_option relaxedAutoImplicit false

namespace Companion

/-! ### Tokens up to a `;` -/

namespace Cursor

/-- The same cursor in a longer list of tokens. -/
def followedBy (c : Cursor) (ts : List Token) : Cursor := ⟨c.previous, c.rest ++ ts⟩

theorem closing_append {depth : Nat} {us rest : List Token} {t : Token}
    (h : closing depth us = some (t, rest)) (ts : List Token) :
    closing depth (us ++ ts) = some (t, rest ++ ts) := by
  fun_induction closing depth us with
  | case1 => cases h
  | case2 => cases h
  | case3 depth u us hkind hopener ih =>
    rw [List.cons_append, closing.eq_def]
    simp only [if_neg hkind, if_pos hopener]
    exact ih h
  | case4 u us hkind hopener hcloser =>
    obtain ⟨rfl, rfl⟩ := Prod.mk.inj (Option.some.inj h)
    rw [List.cons_append, closing, if_neg hkind, if_neg hopener, if_pos hcloser]
  | case5 u us hkind hopener hcloser outer ih =>
    rw [List.cons_append, closing, if_neg hkind, if_neg hopener, if_pos hcloser]
    exact ih h
  | case6 depth u us hkind hopener hcloser ih =>
    rw [List.cons_append, closing.eq_def]
    simp only [if_neg hkind, if_neg hopener, if_neg hcloser]
    exact ih h

end Cursor

/-- The kinds of token at which a member may end. -/
def Token.Kind.endsMember : Token.Kind → Bool
  | .lbrace | .rbrace | .semicolon | .eof => true
  | _ => false

/-- No token may end a member, and every group that is opened is closed. -/
def Token.Enclosed : List Token → Prop
  | [] => True
  | t :: ts => t.kind.endsMember = false ∧
      (t.kind.isOpener = true → (Cursor.closing 0 ts).isSome = true) ∧ Token.Enclosed ts

theorem Token.Enclosed.of_append {ts us : List Token} (h : Token.Enclosed (ts ++ us)) :
    Token.Enclosed us := by
  induction ts with
  | nil => exact h
  | cons t ts ih => exact ih h.2.2

/-- Ahead of the cursor are the rest of a member and the `;` behind it. -/
def Cursor.Guarded (c : Cursor) : Prop :=
  ∃ inside semi, c.rest = inside ++ [semi] ∧ Token.Enclosed inside ∧ semi.kind = .semicolon

/-- What may stand behind the `;`: the rest of a file, that goes on without another `;`. -/
structure Token.Goes (ts : List Token) : Prop where
  ended : ∀ previous, (Cursor.mk previous ts).Ended
  head : ∀ t ∈ ts.head?, t.kind ≠ .semicolon

namespace Cursor

variable {c : Cursor} {ts : List Token}

theorem Guarded.rest_ne_nil (h : c.Guarded) : c.rest ≠ [] := by
  obtain ⟨inside, semi, heq, -⟩ := h
  rw [heq]
  simp

theorem current_followedBy (h : c.rest ≠ []) (ts : List Token) :
    (c.followedBy ts).current = c.current := by
  obtain ⟨previous, rest⟩ := c
  cases rest with
  | nil => exact absurd rfl h
  | cons t ts => rfl

theorem Guarded.current_eq (h : c.Guarded) (ts : List Token) :
    (c.followedBy ts).current = c.current := current_followedBy h.rest_ne_nil ts

theorem Guarded.kind_eq (h : c.Guarded) (ts : List Token) : (c.followedBy ts).kind = c.kind :=
  congrArg Token.kind (h.current_eq ts)

/-- The token at the cursor stands in front of the `;`. It is passed in the same way in every longer
list, and the kind of the one behind it is seen there too. -/
structure Inside (c : Cursor) : Prop where
  endsMember : c.kind.endsMember = false
  next : c.next.Guarded
  length_next_lt : c.next.rest.length < c.rest.length
  next_eq : ∀ ts, (c.followedBy ts).next = c.next.followedBy ts
  kindAhead_eq : ∀ ts, (c.followedBy ts).kindAhead 1 = c.kindAhead 1

/-- In front of the `;` a token of the member is ahead, at the end the `;` itself. -/
theorem Guarded.cases (h : c.Guarded) :
    (c.kind = .semicolon ∧ ∃ semi, c.rest = [semi]) ∨ c.Inside := by
  obtain ⟨previous, rest⟩ := c
  obtain ⟨inside, semi, heq, hinside, hsemi⟩ := h
  obtain rfl : rest = inside ++ [semi] := heq
  cases inside with
  | nil => exact .inl ⟨hsemi, semi, rfl⟩
  | cons t inside =>
    obtain ⟨hends, -, hinside⟩ := hinside
    have hkind : t.kind ≠ .eof := fun h ↦ by rw [h] at hends; cases hends
    have hnext := next_cons hkind previous
    refine .inr ⟨hends, ?_, ?_, fun ts ↦ ?_, fun ts ↦ ?_⟩
    · rw [List.cons_append, hnext]
      exact ⟨inside, semi, rfl, hinside, hsemi⟩
    · rw [List.cons_append, hnext]
      exact Nat.lt_succ_self _
    · rw [followedBy, List.cons_append, List.cons_append, hnext, hnext, followedBy]
    · cases inside <;> rfl

theorem Guarded.kind_ne (h : c.Guarded) : c.kind ≠ .lbrace ∧ c.kind ≠ .rbrace ∧ c.kind ≠ .eof := by
  rcases h.cases with ⟨hkind, -⟩ | hinside
  · rw [hkind]
    decide
  · have hends := hinside.endsMember
    refine ⟨fun h ↦ ?_, fun h ↦ ?_, fun h ↦ ?_⟩ <;> rw [h] at hends <;> cases hends

/-- The token behind the next one is then the next. -/
theorem kind_next (h : c.kind ≠ .eof) : c.next.kind = c.kindAhead 1 := by
  obtain ⟨previous, rest⟩ := c
  cases rest with
  | nil => exact absurd rfl h
  | cons t ts =>
    rw [show next ⟨previous, t :: ts⟩ = _ from next_cons h previous ts]
    cases ts <;> rfl

/-- A token in front of the `;`. -/
theorem Guarded.inside (h : c.Guarded) (hkind : c.kind ≠ .semicolon) : c.Inside :=
  h.cases.resolve_left fun hsemi ↦ hkind hsemi.1

/-- In a longer list the same token is behind the one at the cursor. -/
theorem Inside.head?_append {previous : Span} {t : Token} {rest : List Token}
    (h : Inside ⟨previous, t :: rest⟩) (hkind : t.kind ≠ .eof) (ts : List Token) :
    (rest ++ ts).head? = rest.head? := by
  have hne := h.next.rest_ne_nil
  rw [next_cons hkind] at hne
  exact List.head?_append_of_ne_nil rest hne

/-- The `;` itself, behind which nothing is ahead. -/
theorem Guarded.past (h : c.Guarded) (hkind : c.kind = .semicolon) :
    c.next.rest = [] ∧ ∀ ts, (c.followedBy ts).next = c.next.followedBy ts := by
  rcases h.cases with ⟨-, semi, hrest⟩ | hinside
  · obtain ⟨previous, rest⟩ := c
    obtain rfl : rest = [semi] := hrest
    have heof : semi.kind ≠ .eof := by
      rw [show semi.kind = .semicolon from hkind]
      decide
    have hnext := next_cons heof previous
    exact ⟨by rw [hnext], fun ts ↦ by
      rw [followedBy, List.cons_append, hnext, hnext, followedBy]⟩
  · have hends := hinside.endsMember
    rw [hkind] at hends
    cases hends

/-- What is seen of a token and of the kind of the one behind it. -/
theorem Guarded.ahead_eq (h : c.Guarded) {k : Token.Kind} (hk : k ≠ .semicolon)
    (p : Token.Kind → Bool) (ts : List Token) :
    ((c.followedBy ts).kind == k && p ((c.followedBy ts).kindAhead 1)) =
      (c.kind == k && p (c.kindAhead 1)) := by
  rw [h.kind_eq]
  by_cases hkind : c.kind = k
  · rw [(h.inside (hkind ▸ hk)).kindAhead_eq]
  · rw [beq_false_of_ne hkind, Bool.false_and, Bool.false_and]

/-- A group that is opened in front of the `;` is closed there. -/
theorem Guarded.closing (h : c.Guarded) (hopener : c.kind.isOpener = true) :
    ∃ t rest, Cursor.Guarded ⟨t.span, rest⟩ ∧ rest.length < c.rest.length ∧
      ∀ ts, Cursor.closing 0 (c.next.rest ++ ts) = some (t, rest ++ ts) := by
  obtain ⟨previous, rest⟩ := c
  obtain ⟨inside, semi, heq, hinside, hsemi⟩ := h
  obtain rfl : rest = inside ++ [semi] := heq
  cases inside with
  | nil =>
    rw [show Cursor.kind ⟨previous, [] ++ [semi]⟩ = .semicolon from hsemi] at hopener
    cases hopener
  | cons t inside =>
    obtain ⟨hends, hclosed, hinside⟩ := hinside
    obtain ⟨⟨u, rest⟩, hfound⟩ := Option.isSome_iff_exists.mp (hclosed hopener)
    obtain ⟨read, hread⟩ := reads_closing t.span hfound
    have hrest : inside = read ++ rest := hread.rest_eq
    have heof : t.kind ≠ .eof := fun h ↦ by rw [h] at hends; cases hends
    refine ⟨u, rest ++ [semi], ⟨rest, semi, rfl, (hrest ▸ hinside).of_append, hsemi⟩, ?_, ?_⟩
    · simp only [hrest, List.length_append, List.length_cons]
      omega
    · intro ts
      rw [List.cons_append, next_cons heof, List.append_assoc, List.append_assoc]
      exact closing_append hfound _

theorem Guarded.ended (h : c.Guarded) (hts : Token.Goes ts) : (c.followedBy ts).Ended := by
  obtain ⟨front, e, heq, he, hfront⟩ := hts.ended c.previous
  obtain rfl : ts = front ++ [e] := heq
  refine ⟨c.rest ++ front, e, (List.append_assoc _ _ _).symm, he, fun t ht ↦ ?_⟩
  rcases List.mem_append.mp ht with ht | ht
  · obtain ⟨inside, semi, hrest, hinside, hsemi⟩ := h
    rw [hrest] at ht
    have hall : ∀ ts : List Token, Token.Enclosed ts → t ∈ ts → t.kind ≠ .eof := by
      intro ts hts ht heof
      obtain ⟨before, after, rfl⟩ := List.append_of_mem ht
      have hends := hts.of_append.1
      rw [heof] at hends
      cases hends
    rcases List.mem_append.mp ht with ht | ht
    · exact hall inside hinside ht
    · rw [List.mem_singleton.mp ht, hsemi]
      decide
  · exact hfront t ht

end Cursor

/-! ### Parsers that look no further -/

/-- An outcome in a longer list of tokens. -/
def Outcome.followedBy {α : Type} (o : Outcome α) (ts : List Token) : Outcome α :=
  ⟨o.result, o.cursor.followedBy ts, o.reported⟩

namespace Parser

variable {α β γ : Type} {c : Cursor}

/-- From a cursor a parser comes to the same outcome whatever stands behind the tokens that are
ahead of it. -/
def Alike (p : Parser α) (c : Cursor) (post : Except Diagnostic α → Cursor → Prop) : Prop :=
  ∀ ts us, Token.Goes ts → Token.Goes us → ∃ o : Outcome α, post o.result o.cursor ∧
    p (c.followedBy ts) = o.followedBy ts ∧ p (c.followedBy us) = o.followedBy us

/-- It comes to a value there. -/
def Yields (p : Parser α) (c : Cursor) (post : α → Cursor → Prop) : Prop :=
  p.Alike c fun r c' ↦ ∃ a, r = .ok a ∧ post a c'

/-- The parser does not read the `;`. -/
def Keeps (p : Parser α) : Prop := ∀ c, c.Guarded → p.Alike c fun _ c' ↦ c'.Guarded

section Steps

variable {post : Except Diagnostic α → Cursor → Prop}

theorem alike_of_eq {p : Parser α} (o : Outcome α) (hpost : post o.result o.cursor)
    (h : ∀ ts, Token.Goes ts → p (c.followedBy ts) = o.followedBy ts) : p.Alike c post :=
  fun ts us hts hus ↦ ⟨o, hpost, h ts hts, h us hus⟩

theorem Alike.mono {p : Parser α} {post' : Except Diagnostic α → Cursor → Prop}
    (h : p.Alike c post) (himp : ∀ r c', post r c' → post' r c') : p.Alike c post' := by
  intro ts us hts hus
  obtain ⟨o, hpost, heq⟩ := h ts us hts hus
  exact ⟨o, himp _ _ hpost, heq⟩

theorem Alike.congr {p q : Parser α} (h : q.Alike c post)
    (heq : ∀ ts, p (c.followedBy ts) = q (c.followedBy ts)) : p.Alike c post := by
  intro ts us hts hus
  rw [heq, heq]
  exact h ts us hts hus

theorem Alike.bind {mid : Except Diagnostic β → Cursor → Prop} {p : Parser β} {f : β → Parser α}
    (hp : p.Alike c mid) (herror : ∀ d c', mid (.error d) c' → post (.error d) c')
    (hok : ∀ b c', mid (.ok b) c' → (f b).Alike c' post) : (p >>= f).Alike c post := by
  intro ts us hts hus
  obtain ⟨o, hmid, hpts, hpus⟩ := hp ts us hts hus
  obtain ⟨result, c', reported⟩ := o
  cases result with
  | error d =>
    refine ⟨⟨.error d, c', reported⟩, herror d c' hmid, ?_, ?_⟩
    · rw [bind_apply_of_error (d := d) (by rw [hpts]; rfl), hpts]
      rfl
    · rw [bind_apply_of_error (d := d) (by rw [hpus]; rfl), hpus]
      rfl
  | ok b =>
    obtain ⟨o', hpost, hfts, hfus⟩ := hok b c' hmid ts us hts hus
    refine ⟨⟨o'.result, o'.cursor, reported ++ o'.reported⟩, hpost, ?_, ?_⟩
    · have hcursor : (p (c.followedBy ts)).cursor = c'.followedBy ts := by rw [hpts]; rfl
      rw [bind_apply_of_ok (a := b) (by rw [hpts]; rfl), hcursor, hfts, hpts]
      rfl
    · have hcursor : (p (c.followedBy us)).cursor = c'.followedBy us := by rw [hpus]; rfl
      rw [bind_apply_of_ok (a := b) (by rw [hpus]; rfl), hcursor, hfus, hpus]
      rfl

theorem yields_of_eq {p : Parser α} {mid : α → Cursor → Prop} (a : α) {c' : Cursor}
    (hmid : mid a c') (reported : List Diagnostic)
    (h : ∀ ts, Token.Goes ts → p (c.followedBy ts) = ⟨.ok a, c'.followedBy ts, reported⟩) :
    p.Yields c mid :=
  alike_of_eq ⟨.ok a, c', reported⟩ ⟨a, rfl, hmid⟩ h

theorem Yields.bind {mid : β → Cursor → Prop} {p : Parser β} {f : β → Parser α}
    (hp : p.Yields c mid) (hf : ∀ b c', mid b c' → (f b).Alike c' post) :
    (p >>= f).Alike c post := by
  refine Alike.bind hp (fun d c' h ↦ ?_) fun b c' h ↦ ?_
  · obtain ⟨_, h, -⟩ := h
    cases h
  · obtain ⟨b', h, hmid⟩ := h
    obtain rfl := Except.ok.inj h
    exact hf b c' hmid

theorem yields_pure {a : α} {mid : α → Cursor → Prop} (h : mid a c) :
    (pure a : Parser α).Yields c mid :=
  yields_of_eq a h [] fun _ _ ↦ rfl

/-- Something read off the cursor, which does not tell what stands behind. -/
theorem alike_look_bind {f : Cursor → β} {g : β → Parser α}
    (hf : ∀ ts, g (f (c.followedBy ts)) = g (f c)) (hg : (g (f c)).Alike c post) :
    (look f >>= g).Alike c post :=
  hg.congr fun ts ↦ by rw [look_bind, hf]

theorem alike_pure {a : α} (h : post (.ok a) c) : (pure a : Parser α).Alike c post :=
  alike_of_eq ⟨.ok a, c, []⟩ h fun _ _ ↦ rfl

theorem Alike.yields_attempt {p : Parser α} (hp : p.Alike c post) : (attempt p).Yields c post := by
  intro ts us hts hus
  obtain ⟨o, hpost, hpts, hpus⟩ := hp ts us hts hus
  refine ⟨⟨.ok o.result, o.cursor, o.reported⟩, ⟨_, rfl, hpost⟩, ?_, ?_⟩
  · rw [attempt, hpts]
    rfl
  · rw [attempt, hpus]
    rfl

/-- In front of the `;`, a parser that does not read it and another behind. -/
theorem Keeps.bind_alike {p : Parser β} {f : β → Parser α} (hp : p.Keeps) (hc : c.Guarded)
    (herror : ∀ d c', c'.Guarded → post (.error d) c')
    (hf : ∀ b c', c'.Guarded → (f b).Alike c' post) : (p >>= f).Alike c post :=
  (hp c hc).bind herror hf

theorem Keeps.ite {b : Prop} [Decidable b] {p q : Parser α} (hp : p.Keeps) (hq : q.Keeps) :
    (if b then p else q).Keeps := by
  split <;> assumption

theorem Keeps.bind {p : Parser β} {f : β → Parser α} (hp : p.Keeps) (hf : ∀ b, (f b).Keeps) :
    (p >>= f).Keeps :=
  fun _ hc ↦ hp.bind_alike hc (fun _ _ h ↦ h) fun b c' hc' ↦ hf b c' hc'

theorem Keeps.map {p : Parser β} (hp : p.Keeps) (f : β → α) : (f <$> p).Keeps :=
  hp.bind fun _ _ hc ↦ alike_pure hc

theorem keeps_pure (a : α) : (pure a : Parser α).Keeps := fun _ hc ↦ alike_pure hc

theorem keeps_look_bind {f : Cursor → β} {g : β → Parser α}
    (hf : ∀ c, c.Guarded → ∀ ts, f (c.followedBy ts) = f c) (hg : ∀ b, (g b).Keeps) :
    (look f >>= g).Keeps :=
  fun c hc ↦ alike_look_bind (fun ts ↦ by rw [hf c hc]) (hg _ c hc)

/-- A loop with a budget of as many steps as tokens are ahead. -/
theorem alike_of_settled {loop : Nat → Parser α} (hsettled : Settled loop) (hc : c.Guarded)
    {budget : Cursor → Nat} (hbudget : ∀ d : Cursor, d.rest.length ≤ budget d)
    (h : ∀ n, c.rest.length + 1 ≤ n → (loop n).Alike c post) :
    Parser.Alike (fun d ↦ loop (budget d) d) c post := by
  intro ts us hts hus
  have hlength (vs : List Token) : (c.followedBy vs).rest.length = c.rest.length + vs.length :=
    List.length_append
  obtain ⟨o, hpost, hpts, hpus⟩ := h (c.rest.length + 1 + ts.length + us.length) (by omega)
    ts us hts hus
  refine ⟨o, hpost, ?_, ?_⟩
  · rw [← hpts]
    exact hsettled (hbudget _) (by rw [hlength]; omega) _ (hc.ended hts) (Nat.le_refl _)
  · rw [← hpus]
    exact hsettled (hbudget _) (by rw [hlength]; omega) _ (hc.ended hus) (Nat.le_refl _)

theorem keeps_of_settled {loop : Nat → Parser α} (hsettled : Settled loop)
    {budget : Cursor → Nat} (hbudget : ∀ d : Cursor, d.rest.length ≤ budget d)
    (h : ∀ n, (loop n).Keeps) : Parser.Keeps fun d ↦ loop (budget d) d :=
  fun c hc ↦ alike_of_settled hsettled hc hbudget fun n _ ↦ h n c hc

end Steps

/-! ### Single tokens -/

/-- A token in front of the `;`, whatever it is. -/
theorem yields_advance (hc : c.Guarded) (hkind : c.kind ≠ .semicolon) :
    advance.Yields c fun _ c' ↦ c' = c.next :=
  yields_of_eq c.current rfl [] fun ts _ ↦ by
    rw [advance, hc.current_eq, (hc.inside hkind).next_eq]

theorem alike_advance_bind {f : Token → Parser α} {post : Except Diagnostic α → Cursor → Prop}
    (hc : c.Guarded) (hkind : c.kind ≠ .semicolon)
    (hf : ∀ t, c.next.Guarded → c.next.rest.length < c.rest.length → (f t).Alike c.next post) :
    (advance >>= f).Alike c post := by
  refine (yields_advance hc hkind).bind fun t c' h ↦ ?_
  have hinside := hc.inside hkind
  exact h ▸ hf t hinside.next hinside.length_next_lt

theorem expectedAt_followedBy (hc : c.Guarded) (code : Diagnostic.Code) (what : String)
    (ts : List Token) : expectedAt code what (c.followedBy ts) = expectedAt code what c := by
  rw [expectedAt, expectedAt, hc.kind_eq, hc.current_eq]

theorem alike_failExpected {post : Except Diagnostic α → Cursor → Prop} (code : Diagnostic.Code)
    (what : String) (hc : c.Guarded) (hpost : ∀ d, post (.error d) c) :
    (failExpected code what).Alike c post :=
  alike_of_eq ⟨.error (expectedAt code what c), c, []⟩ (hpost _) fun ts _ ↦ by
    rw [failExpected, expectedAt_followedBy hc]
    rfl

theorem keeps_failExpected (code : Diagnostic.Code) (what : String) :
    (failExpected code what : Parser α).Keeps :=
  fun _ hc ↦ alike_failExpected code what hc fun _ ↦ hc

theorem keeps_spanFrom (start : Span) : (spanFrom start).Keeps :=
  fun c hc ↦ alike_of_eq ⟨.ok (start.merge c.previous), c, []⟩ hc fun _ _ ↦ rfl

theorem keeps_check_bind {k : Token.Kind} {f : Bool → Parser α} (hf : ∀ b, (f b).Keeps) :
    (check k >>= f).Keeps :=
  keeps_look_bind (fun c hc ts ↦ by rw [hc.kind_eq]) hf

theorem keeps_checkWord_bind {w : String} {f : Bool → Parser α} (hf : ∀ b, (f b).Keeps) :
    (checkWord w >>= f).Keeps :=
  keeps_look_bind (fun c hc ts ↦ by rw [hc.current_eq]) hf

theorem missingCode_followedBy (hc : c.Guarded) (ts : List Token) :
    missingCode (c.followedBy ts) = missingCode c := by
  rw [missingCode, missingCode, hc.kind_eq]

theorem keeps_expect {k : Token.Kind} (hk : k ≠ .semicolon) : (expect k).Keeps := by
  intro c hc
  by_cases hkind : c.kind = k
  · have hinside := hc.inside (hkind ▸ hk)
    refine alike_of_eq ⟨.ok c.current, c.next, []⟩ hinside.next fun ts _ ↦ ?_
    rw [expect, if_pos ((hc.kind_eq ts).trans hkind), hc.current_eq, hinside.next_eq]
    rfl
  · refine alike_of_eq ⟨.error (expectedAt (missingCode c) k.display c), c, []⟩ hc fun ts _ ↦ ?_
    rw [expect, if_neg (by rwa [hc.kind_eq]), missingCode_followedBy hc, expectedAt_followedBy hc]
    rfl

theorem keeps_eat {k : Token.Kind} (hk : k ≠ .semicolon) : (eat k).Keeps := by
  intro c hc
  by_cases hkind : c.kind = k
  · have hinside := hc.inside (hkind ▸ hk)
    refine alike_of_eq ⟨.ok true, c.next, []⟩ hinside.next fun ts _ ↦ ?_
    rw [eat, if_pos ((hc.kind_eq ts).trans hkind), hinside.next_eq]
    rfl
  · refine alike_of_eq ⟨.ok false, c, []⟩ hc fun ts _ ↦ ?_
    rw [eat, if_neg (by rwa [hc.kind_eq])]
    rfl

theorem alike_identifier (hc : c.Guarded) :
    identifier.Alike c fun _ c' ↦ c'.Guarded ∧ (c.kind = .ident → c' = c.next) := by
  by_cases hkind : c.kind = .ident
  · have hinside := hc.inside (by rw [hkind]; decide)
    refine alike_of_eq ⟨.ok (c.current.name, c.current.span), c.next, []⟩
      ⟨hinside.next, fun _ ↦ rfl⟩ fun ts _ ↦ ?_
    rw [identifier, if_pos ((hc.kind_eq ts).trans hkind), hc.current_eq, hinside.next_eq]
    rfl
  · refine alike_of_eq ⟨.error (expectedAt .expectedIdentifier "identifier" c), c, []⟩
      ⟨hc, fun h ↦ absurd h hkind⟩ fun ts _ ↦ ?_
    rw [identifier, if_neg (by rwa [hc.kind_eq]), expectedAt_followedBy hc]
    rfl

theorem keeps_identifier : identifier.Keeps :=
  fun _ hc ↦ (alike_identifier hc).mono fun _ _ h ↦ h.1

/-- A group that is opened in front of the `;` is read whole. -/
theorem yields_group (hc : c.Guarded) (hopener : c.kind.isOpener = true) :
    group.Yields c fun _ c' ↦ c'.Guarded ∧ c'.rest.length < c.rest.length := by
  obtain ⟨t, rest, hguarded, hless, hclosing⟩ := hc.closing hopener
  have hkind : c.kind ≠ .semicolon := fun h ↦ by rw [h] at hopener; cases hopener
  refine yields_of_eq t.span ⟨hguarded, hless⟩ [] fun ts _ ↦ ?_
  have hopener' : (c.followedBy ts).current.kind.isOpener = true := by
    rw [hc.current_eq]
    exact hopener
  have hclosing' : Cursor.closing 0 (c.followedBy ts).next.rest = some (t, rest ++ ts) := by
    rw [(hc.inside hkind).next_eq]
    exact hclosing ts
  rw [group, if_pos hopener', hclosing']
  rfl

theorem alike_group_bind {f : Span → Parser α} {post : Except Diagnostic α → Cursor → Prop}
    (hc : c.Guarded) (hopener : c.kind.isOpener = true)
    (hf : ∀ s c', c'.Guarded → c'.rest.length < c.rest.length → (f s).Alike c' post) :
    (group >>= f).Alike c post :=
  (yields_group hc hopener).bind fun s c' h ↦ hf s c' h.1 h.2

/-- A group that may stand here. -/
theorem keeps_check_group {k : Token.Kind} (hk : k.isOpener = true) {f : Bool → Parser α}
    {g : Span → Parser α} (hf : f true = group >>= g) (hgroup : ∀ s, (g s).Keeps)
    (hnone : (f false).Keeps) : (check k >>= f).Keeps := by
  refine fun c hc ↦ alike_look_bind (fun ts ↦ by rw [hc.kind_eq]) ?_
  cases hkind : c.kind == k with
  | false => exact hnone c hc
  | true =>
    rw [hf]
    exact alike_group_bind hc ((beq_iff_eq.mp hkind).symm ▸ hk) fun s c' hc' _ ↦ hgroup s c' hc'

/-! ### Lists of things -/

theorem keeps_commaSeparated {item : Parser α} (hitem : item.Keeps) :
    ∀ budget, (commaSeparated item budget).Keeps
  | 0 => hitem.bind fun a ↦ keeps_pure [a]
  | budget + 1 => hitem.bind fun a ↦ (keeps_eat (by decide)).bind fun _ ↦
      .ite ((keeps_commaSeparated hitem budget).bind fun rest ↦ keeps_pure (a :: rest))
        (keeps_pure [a])

theorem keeps_manyAt {k : Token.Kind} {item : Parser α} (hitem : item.Keeps) :
    ∀ budget, (manyAt k item budget).Keeps
  | 0 => keeps_pure []
  | budget + 1 => keeps_check_bind fun _ ↦
      .ite (hitem.bind fun a ↦ (keeps_manyAt hitem budget).bind fun rest ↦ keeps_pure (a :: rest))
        (keeps_pure [])

end Parser
end Companion
