import Companion.Proofs.Grammar.Locality
import Companion.Proofs.Grammar.Recovery
import Companion.Proofs.Grammar.Relocation
import Companion.Proofs.Token.Located

/-!
What is read of a file is read of it inside another file. The tokens of a file stand further on in
another one (`Token.Embeds`), and behind them that one goes on with a closing brace or ends, too
(`Token.Closes`). Whatever a parser reads of the file without a report it reads there as well, to
the same with all places moved on (`Parser.Carries`). It is not so for what is reported, as the end
of a file is passed over in other ways than a brace; so a parser may complain instead
(`Parser.Complains`).
-/

set_option autoImplicit false
set_option relaxedAutoImplicit false

namespace Companion

/-! ### Tokens inside a longer list -/

/-- What may stand behind the tokens of a file inside another one: the rest of that one, which
closes a body there or is empty. -/
structure Token.Closes (rest : List Token) : Prop where
  ended : ∀ previous, (Cursor.mk previous rest).Ended
  head : ∀ t ∈ rest.head?, t.kind = .rbrace ∨ t.kind = .eof

/-- The second tokens are the first ones, moved on, up to the end of the file that those end with,
and the rest of another file behind them. Among the first ones there is no `extern alias`. -/
inductive Token.Embeds (n : Nat) (rest : List Token) : List Token → List Token → Prop
  | ends {e : Token} (he : e.kind = .eof) : Embeds n rest [e] rest
  | token {t : Token} {ts us : List Token} (ht : t.kind ≠ .eof)
      (halias : t.isWord "extern" = true → ∀ u ∈ ts.head?, u.isWord "alias" = false)
      (h : Embeds n rest ts us) : Embeds n rest (t :: ts) (t.moved n :: us)

/-- The tokens ahead of the first cursor, and what was read last, are so ahead of the second. -/
structure Cursor.Embeds (n : Nat) (rest : List Token) (c d : Cursor) : Prop where
  tokens : Token.Embeds n rest c.rest d.rest
  previous : d.previous = c.previous.moved n
  closes : Token.Closes rest

variable {n : Nat} {rest : List Token}

theorem Cursor.kind_ne_eof_of_isWord {c : Cursor} {w : String} (h : c.current.isWord w = true) :
    c.kind ≠ .eof := by
  intro heof
  rw [Token.isWord, show c.current.kind = .eof from heof] at h
  cases h

namespace Token.Embeds

variable {ts us : List Token}

theorem length_eq (h : Embeds n rest ts us) : us.length + 1 = ts.length + rest.length := by
  induction h with
  | ends _ => rw [List.length_singleton, Nat.add_comm]
  | token _ _ _ ih => rw [List.length_cons, List.length_cons, ih, Nat.add_right_comm]

theorem ended_left (h : Embeds n rest ts us) (previous : Span) : (Cursor.mk previous ts).Ended := by
  induction h with
  | @ends e he => exact ⟨[], e, rfl, he, fun _ h ↦ absurd h List.not_mem_nil⟩
  | @token t _ _ ht _ _ ih =>
    obtain ⟨front, e, heq, he, hfront⟩ := ih
    exact ⟨t :: front, e, congrArg (t :: ·) heq, he, List.forall_mem_cons.mpr ⟨ht, hfront⟩⟩

theorem ended_right (h : Embeds n rest ts us) (hrest : Closes rest) (previous : Span) :
    (Cursor.mk previous us).Ended := by
  induction h with
  | ends _ => exact hrest.ended previous
  | @token t _ _ ht _ _ ih =>
    obtain ⟨front, e, heq, he, hfront⟩ := ih
    exact ⟨t.moved n :: front, e, congrArg (t.moved n :: ·) heq, he,
      List.forall_mem_cons.mpr ⟨ht, hfront⟩⟩

/-- The kinds of the next tokens look the same to whoever takes the end of the file and a closing
brace for the same. -/
theorem kind_head? (h : Embeds n rest ts us) (hrest : Closes rest) {α : Type}
    {f : Token.Kind → α} (hf : f .rbrace = f .eof) :
    us.head?.map (fun t ↦ f t.kind) = ts.head?.map fun t ↦ f t.kind := by
  cases h with
  | ends he =>
    obtain ⟨front, e, heq, -, -⟩ := hrest.ended (.point 0)
    obtain rfl : rest = front ++ [e] := heq
    have hhead := hrest.head
    cases front with
    | nil => rcases hhead e rfl with hkind | hkind <;> simp [hkind, he, hf]
    | cons t front => rcases hhead t rfl with hkind | hkind <;> simp [hkind, he, hf]
  | token _ _ _ => rfl

end Token.Embeds

namespace Cursor.Embeds

variable {c d : Cursor}

theorem ended_left (h : c.Embeds n rest d) : c.Ended := h.tokens.ended_left c.previous

theorem ended_right (h : c.Embeds n rest d) : d.Ended := h.tokens.ended_right h.closes d.previous

theorem length_eq (h : c.Embeds n rest d) : d.rest.length + 1 = c.rest.length + rest.length :=
  h.tokens.length_eq

theorem kind_map (h : c.Embeds n rest d) {α : Type} {f : Token.Kind → α} (hf : f .rbrace = f .eof) :
    f d.kind = f c.kind := by
  have hhead := h.tokens.kind_head? h.closes hf
  obtain ⟨previous, ts⟩ := c
  obtain ⟨previous', us⟩ := d
  cases ts with
  | nil => cases h.tokens
  | cons t ts =>
    cases us with
    | nil => cases hhead
    | cons u us => exact Option.some.inj hhead

/-- A token other than the end of the file stands further on, too. -/
theorem of_kind (h : c.Embeds n rest d) (hkind : c.kind ≠ .eof) :
    d.current = c.current.moved n ∧ c.next.Embeds n rest d.next := by
  obtain ⟨previous, ts⟩ := c
  obtain ⟨previous', us⟩ := d
  obtain ⟨htokens, hprevious, hrest⟩ := h
  cases htokens with
  | ends he => exact absurd he hkind
  | @token t ts us ht _ h =>
    rw [show next ⟨previous, t :: ts⟩ = _ from next_cons ht previous ts,
      show next ⟨previous', t.moved n :: us⟩ = _ from next_cons (t := t.moved n) ht previous' us]
    exact ⟨rfl, h, rfl, hrest⟩

theorem current_eq (h : c.Embeds n rest d) (hkind : c.kind ≠ .eof) :
    d.current = c.current.moved n := (h.of_kind hkind).1

theorem kind_eq (h : c.Embeds n rest d) (hkind : c.kind ≠ .eof) : d.kind = c.kind := by
  rw [kind, h.current_eq hkind]
  rfl

theorem next (h : c.Embeds n rest d) (hkind : c.kind ≠ .eof) : c.next.Embeds n rest d.next :=
  (h.of_kind hkind).2

/-- Where the file ends, the other one goes on with its rest. -/
theorem of_eof (h : c.Embeds n rest d) (hkind : c.kind = .eof) : d.rest = rest := by
  obtain ⟨previous, ts⟩ := c
  obtain ⟨previous', us⟩ := d
  obtain ⟨htokens, -, -⟩ := h
  cases htokens with
  | ends _ => rfl
  | token ht _ _ => exact absurd hkind ht

theorem kind_of_eof (h : c.Embeds n rest d) (hkind : c.kind = .eof) :
    d.kind = .rbrace ∨ d.kind = .eof := by
  have heq := h.kind_map (f := fun k ↦ k = .rbrace ∨ k = .eof) (by simp)
  rw [heq]
  exact .inr hkind

theorem isWord_eq (h : c.Embeds n rest d) (w : String) :
    d.current.isWord w = c.current.isWord w := by
  by_cases hkind : c.kind = .eof
  · have hno {e : Cursor} (h : e.kind = .rbrace ∨ e.kind = .eof) : e.current.isWord w = false := by
      rcases h with h | h <;> rw [Token.isWord, show e.current.kind = _ from h] <;> rfl
    rw [hno (h.kind_of_eof hkind), hno (.inr hkind)]
  · rw [h.current_eq hkind]
    rfl

theorem isWordAhead_eq (h : c.Embeds n rest d) (hkind : c.kind ≠ .eof) (w : String) :
    d.isWordAhead 1 w = c.isWordAhead 1 w := by
  have hnext {c : Cursor} (hkind : c.kind ≠ .eof) :
      c.isWordAhead 1 w = c.next.current.isWord w := by
    obtain ⟨previous, ts⟩ := c
    cases ts with
    | nil => exact absurd rfl hkind
    | cons t ts =>
      rw [show Cursor.next ⟨previous, t :: ts⟩ = _ from next_cons hkind previous ts]
      cases ts <;> rfl
  rw [hnext hkind, hnext (h.kind_eq hkind ▸ hkind), (h.next hkind).isWord_eq]

theorem not_externAlias (h : c.Embeds n rest d) :
    (c.current.isWord "extern" && c.isWordAhead 1 "alias") = false := by
  obtain ⟨previous, ts⟩ := c
  obtain ⟨previous', us⟩ := d
  obtain ⟨htokens, -, -⟩ := h
  cases htokens with
  | ends _ => exact Bool.and_false _
  | @token t ts us ht halias h =>
    cases hextern : t.isWord "extern" with
    | false => exact congrArg (· && _) hextern
    | true =>
      have hhead := halias hextern
      cases ts with
      | nil => exact Bool.and_false _
      | cons u ts => exact congrArg₂ (· && ·) hextern (hhead u rfl)

theorem beq_kind (h : c.Embeds n rest d) {k : Token.Kind}
    (hk : (Token.Kind.rbrace == k) = (Token.Kind.eof == k)) : (d.kind == k) = (c.kind == k) :=
  h.kind_map (f := (· == k)) hk

/-- The kind behind a token that is not the end of the file. -/
theorem kindAhead_map (h : c.Embeds n rest d) (hkind : c.kind ≠ .eof) {α : Type}
    {f : Token.Kind → α} (hf : f .rbrace = f .eof) : f (d.kindAhead 1) = f (c.kindAhead 1) := by
  rw [← kind_next hkind, ← kind_next (h.kind_eq hkind ▸ hkind), (h.next hkind).kind_map hf]

/-- What is seen of a token and of the kind of the one behind it. -/
theorem ahead_eq (h : c.Embeds n rest d) {k : Token.Kind}
    (hk : k ≠ .eof ∧ k ≠ .rbrace) {p : Token.Kind → Bool} (hp : p .rbrace = p .eof) :
    (d.kind == k && p (d.kindAhead 1)) = (c.kind == k && p (c.kindAhead 1)) := by
  rw [h.beq_kind (by rw [beq_false_of_ne hk.1.symm, beq_false_of_ne hk.2.symm])]
  by_cases hkind : c.kind = k
  · rw [h.kindAhead_map (hkind ▸ hk.1) hp]
  · rw [beq_false_of_ne hkind, Bool.false_and, Bool.false_and]

end Cursor.Embeds

/-! ### Parsers in both places -/

namespace Parser

variable {α β : Type} {c d : Cursor}

/-- A parser fails, or it reports something. -/
def Complains (p : Parser α) (c : Cursor) : Prop := ∀ a c', p c ≠ ⟨.ok a, c', []⟩

/-- What one parser reads from the first cursor without a report, another one reads from the second,
and gives what a view makes of the value. -/
def CarriesAt (n : Nat) (rest : List Token) (view : α → α) (p q : Parser α) (c d : Cursor) : Prop :=
  ∀ a c', p c = ⟨.ok a, c', []⟩ → ∃ d', q d = ⟨.ok (view a), d', []⟩ ∧ c'.Embeds n rest d'

/-- They do so wherever the same tokens are ahead. -/
def Carries (n : Nat) (rest : List Token) (view : α → α) (p q : Parser α) : Prop :=
  ∀ c d, c.Embeds n rest d → p.CarriesAt n rest view q c d

section Steps

variable {view : α → α} {view' : β → β} {p q : Parser α} {f g : α → Parser β}

theorem Complains.bind (h : p.Complains c) (f : α → Parser β) : (p >>= f).Complains c := by
  intro b c' hok
  obtain ⟨a, e, hp, -⟩ := bind_eq_ok hok
  exact h a e hp

theorem complains_bind (h : ∀ a c', p c = ⟨.ok a, c', []⟩ → (f a).Complains c') :
    (p >>= f).Complains c := by
  intro b c' hok
  obtain ⟨a, e, hp, hf⟩ := bind_eq_ok hok
  exact h a e hp b c' hf

theorem complains_look_bind {h : Cursor → α} (hf : (f (h c)).Complains c) :
    (look h >>= f).Complains c := by
  intro b c' hok
  rw [look_bind] at hok
  exact hf b c' hok

theorem complains_report (d : Diagnostic) : (report d).Complains c := by
  intro a c' hok
  injection hok with _ _ hreported
  cases hreported

theorem complains_failExpected (code : Diagnostic.Code) (what : String) :
    (failExpected code what : Parser α).Complains c := by
  intro a c' hok
  injection hok with hresult
  cases hresult

theorem complains_expect {k : Token.Kind} (h : c.kind ≠ k) : (expect k).Complains c := by
  intro a c' hok
  rw [expect, if_neg h] at hok
  injection hok with hresult
  cases hresult

theorem Carries.carriesAt (hp : p.Carries n rest view q) (h : c.Embeds n rest d) :
    p.CarriesAt n rest view q c d := hp c d h

theorem complains_identifier (h : c.kind ≠ .ident) : identifier.Complains c := by
  intro a c' hok
  rw [identifier, if_neg h] at hok
  injection hok with hresult
  cases hresult

theorem Complains.carriesAt (h : p.Complains c) : p.CarriesAt n rest view q c d :=
  fun a c' hok ↦ absurd hok (h a c')

theorem carriesAt_pure {a a' : α} (h : c.Embeds n rest d) (ha : a' = view a) :
    (pure a : Parser α).CarriesAt n rest view (pure a') c d := by
  intro b c' hok
  injection hok with hresult hcursor
  obtain rfl := Except.ok.inj hresult
  obtain rfl := hcursor
  exact ⟨d, by rw [ha]; rfl, h⟩

theorem carries_pure {a a' : α} (ha : a' = view a) :
    (pure a : Parser α).Carries n rest view (pure a') :=
  fun _ _ h ↦ carriesAt_pure h ha

theorem CarriesAt.bind (hp : p.CarriesAt n rest view q c d)
    (hf : ∀ a c' d', p c = ⟨.ok a, c', []⟩ → c'.Embeds n rest d' →
      (f a).CarriesAt n rest view' (g (view a)) c' d') :
    (p >>= f).CarriesAt n rest view' (q >>= g) c d := by
  intro b c' hok
  obtain ⟨a, e, hpok, hfok⟩ := bind_eq_ok hok
  obtain ⟨e', hqok, he⟩ := hp a e hpok
  obtain ⟨d', hgok, hd'⟩ := hf a e e' hpok he b c' hfok
  exact ⟨d', by rw [bind_of_ok hqok, hgok], hd'⟩

theorem Carries.bind (hp : p.Carries n rest view q)
    (hf : ∀ a, (f a).Carries n rest view' (g (view a))) :
    (p >>= f).Carries n rest view' (q >>= g) :=
  fun c d h ↦ (hp c d h).bind fun a c' d' _ h' ↦ hf a c' d' h'

theorem Carries.map {f g : α → β} (hp : p.Carries n rest view q)
    (hf : ∀ a, g (view a) = view' (f a)) : (f <$> p).Carries n rest view' (g <$> q) :=
  hp.bind fun a ↦ carries_pure (hf a)

theorem CarriesAt.ite {b : Prop} [Decidable b] {p' q' : Parser α}
    (hp : b → p.CarriesAt n rest view q c d) (hp' : ¬b → p'.CarriesAt n rest view q' c d) :
    (if b then p else p').CarriesAt n rest view (if b then q else q') c d := by
  by_cases h : b
  · rw [if_pos h, if_pos h]
    exact hp h
  · rw [if_neg h, if_neg h]
    exact hp' h

theorem Carries.ite {b : Prop} [Decidable b] {p' q' : Parser α} (hp : p.Carries n rest view q)
    (hp' : p'.Carries n rest view q') :
    (if b then p else p').Carries n rest view (if b then q else q') :=
  fun c d h ↦ .ite (fun _ ↦ hp c d h) fun _ ↦ hp' c d h

/-- What is read off each cursor decides how to go on. -/
theorem carriesAt_look_bind {γ : Type} {h h' : Cursor → γ} {f g : γ → Parser α}
    (hf : (f (h c)).CarriesAt n rest view (g (h' d)) c d) :
    (look h >>= f).CarriesAt n rest view (look h' >>= g) c d := by
  intro a c' hok
  rw [look_bind] at hok ⊢
  exact hf a c' hok

/-- Something that is the same in both places. -/
theorem carries_look_bind {γ : Type} {h : Cursor → γ} {f g : γ → Parser α}
    (hsame : ∀ c d : Cursor, c.Embeds n rest d → h d = h c)
    (hf : ∀ a, (f a).Carries n rest view (g a)) :
    (look h >>= f).Carries n rest view (look h >>= g) := fun c d hcd ↦
  carriesAt_look_bind (by rw [hsame c d hcd]; exact hf _ c d hcd)

/-- A failure as a value, after which something is reported. -/
theorem attempt_bind_eq_ok {f : Except Diagnostic α → Parser β}
    (herror : ∀ e c', (f (.error e)).Complains c') {b : β} {c' : Cursor}
    (h : (attempt p >>= f) c = ⟨.ok b, c', []⟩) :
    ∃ a e, p c = ⟨.ok a, e, []⟩ ∧ f (.ok a) e = ⟨.ok b, c', []⟩ := by
  obtain ⟨r, e, hattempt, hfok⟩ := bind_eq_ok h
  injection hattempt with hresult hcursor hreported
  obtain rfl := Except.ok.inj hresult
  cases hp : (p c).result with
  | error x =>
    rw [hp] at hfok
    exact absurd hfok (herror x _ b c')
  | ok a =>
    rw [hp] at hfok
    exact ⟨a, e, by rw [← hp, ← hcursor, ← hreported], hfok⟩

theorem CarriesAt.attempt_bind {f g : Except Diagnostic α → Parser β}
    (hp : p.CarriesAt n rest view q c d)
    (hf : ∀ a c' d', p c = ⟨.ok a, c', []⟩ → c'.Embeds n rest d' →
      (f (.ok a)).CarriesAt n rest view' (g (.ok (view a))) c' d')
    (herror : ∀ e c', (f (.error e)).Complains c') :
    (attempt p >>= f).CarriesAt n rest view' (attempt q >>= g) c d := by
  intro b c' hok
  obtain ⟨a, e, hpok, hfok⟩ := attempt_bind_eq_ok herror hok
  obtain ⟨e', hqok, he⟩ := hp a e hpok
  obtain ⟨d', hgok, hd'⟩ := hf a e e' hpok he b c' hfok
  exact ⟨d', by rw [attempt_bind_of_ok hqok, hgok], hd'⟩

/-- Loops with budgets of as many steps as tokens are ahead. -/
theorem carriesAt_of_settled {loop loop' : Nat → Parser α} (hsettled : Settled loop)
    (hsettled' : Settled loop') (h : c.Embeds n rest d)
    (hloop : ∀ m, (loop m).CarriesAt n rest view (loop' m) c d) {m m' : Nat}
    (hm : c.rest.length ≤ m) (hm' : d.rest.length ≤ m') :
    (loop m).CarriesAt n rest view (loop' m') c d := by
  intro a c' hok
  rw [hsettled hm (Nat.le_add_right c.rest.length d.rest.length) c h.ended_left (Nat.le_refl _)]
    at hok
  rw [hsettled' hm' (Nat.le_add_left d.rest.length c.rest.length) d h.ended_right (Nat.le_refl _)]
  exact hloop _ a c' hok

theorem carries_of_settled {loop : Nat → Parser α} (hsettled : Settled loop) {budget : Cursor → Nat}
    (hbudget : ∀ e : Cursor, e.rest.length ≤ budget e)
    (h : ∀ m, (loop m).Carries n rest view (loop m)) :
    Parser.Carries n rest view (fun e ↦ loop (budget e) e) fun e ↦ loop (budget e) e :=
  fun c d hcd ↦ carriesAt_of_settled hsettled hsettled hcd (fun m ↦ h m c d hcd) (hbudget c)
    (hbudget d)

theorem carries_budget_bind {loop : Nat → Parser α} (hsettled : Settled loop)
    (hloop : ∀ m, (loop m).Carries n rest view (loop m))
    (hf : ∀ a, (f a).Carries n rest view' (g (view a))) :
    (look (·.rest.length) >>= fun m ↦ loop m >>= f).Carries n rest view'
      (look (·.rest.length) >>= fun m ↦ loop m >>= g) := by
  rw [budget_bind, budget_bind]
  exact (carries_of_settled hsettled (fun _ ↦ Nat.le_refl _) hloop).bind hf

end Steps

/-! ### Single tokens -/

theorem carriesAt_advance (h : c.Embeds n rest d) (hkind : c.kind ≠ .eof) :
    advance.CarriesAt n rest (Token.moved n) advance c d := by
  intro t c' hok
  injection hok with hresult hcursor
  obtain rfl := Except.ok.inj hresult
  obtain rfl := hcursor
  exact ⟨d.next, by rw [advance, h.current_eq hkind], h.next hkind⟩

theorem carriesAt_advance_bind {view : α → α} {f g : Token → Parser α} (h : c.Embeds n rest d)
    (hkind : c.kind ≠ .eof) (hf : ∀ t, c.next.Embeds n rest d.next →
      (f t).CarriesAt n rest view (g (t.moved n)) c.next d.next) :
    (advance >>= f).CarriesAt n rest view (advance >>= g) c d := by
  intro a c' hok
  have hnext := hf c.current (h.next hkind) a c' hok
  rw [← h.current_eq hkind] at hnext
  exact hnext

theorem carries_spanFrom {start start' : Span} (hstart : start' = start.moved n) :
    (spanFrom start).Carries n rest (Span.moved n) (spanFrom start') := by
  intro c d h span c' hok
  injection hok with hresult hcursor
  obtain rfl := Except.ok.inj hresult
  obtain rfl := hcursor
  refine ⟨d, ?_, h⟩
  rw [Span.moved_merge, ← h.previous, ← hstart]
  rfl

theorem carries_check_bind {view : α → α} {k : Token.Kind} {f g : Bool → Parser α}
    (hk : (Token.Kind.rbrace == k) = (Token.Kind.eof == k))
    (hf : ∀ b, (f b).Carries n rest view (g b)) :
    (check k >>= f).Carries n rest view (check k >>= g) :=
  carries_look_bind (fun _ _ h ↦ h.beq_kind hk) hf

theorem carries_check {k : Token.Kind} (hk : (Token.Kind.rbrace == k) = (Token.Kind.eof == k)) :
    (check k).Carries n rest id (check k) := by
  intro c d h b c' hok
  injection hok with hresult hcursor
  obtain rfl := Except.ok.inj hresult
  obtain rfl := hcursor
  exact ⟨d, congrArg (fun b ↦ (⟨.ok b, d, []⟩ : Outcome Bool)) (h.beq_kind hk), h⟩

/-- Something that is read if it is there, and has a value of its own if not. -/
theorem carries_optional {view : α → α} {view' : β → β} {there : Parser Bool} {p : Parser α} {a : α}
    {f g : α → Parser β} (hthere : there.Carries n rest id there) (hp : p.Carries n rest view p)
    (ha : view a = a) (hf : ∀ a, (f a).Carries n rest view' (g (view a))) :
    (there >>= fun b ↦ if b then p >>= f else pure a >>= f).Carries n rest view'
      (there >>= fun b ↦ if b then p >>= g else pure a >>= g) := by
  refine hthere.bind fun b ↦ .ite (hp.bind hf) ?_
  rw [pure_bind, pure_bind, ← congrArg g ha]
  exact hf a

theorem carries_checkWord_bind {view : α → α} {w : String} {f g : Bool → Parser α}
    (hf : ∀ b, (f b).Carries n rest view (g b)) :
    (checkWord w >>= f).Carries n rest view (checkWord w >>= g) :=
  carries_look_bind (fun _ _ h ↦ h.isWord_eq w) hf

theorem carries_expect {k : Token.Kind} (hk : k ≠ .eof) :
    (expect k).Carries n rest (Token.moved n) (expect k) := by
  intro c d h
  by_cases hkind : c.kind = k
  · have heof : c.kind ≠ .eof := hkind ▸ hk
    have hleft : expect k c = advance c := by rw [expect, if_pos hkind, advance]
    have hright : expect k d = advance d := by
      rw [expect, if_pos ((h.kind_eq heof).trans hkind), advance]
    intro a c' hok
    rw [hleft] at hok
    rw [hright]
    exact carriesAt_advance h heof a c' hok
  · exact (complains_expect hkind).carriesAt

theorem carries_eat {k : Token.Kind} (hk : k ≠ .eof ∧ k ≠ .rbrace) :
    (eat k).Carries n rest id (eat k) := by
  intro c d h a c' hok
  have hsame : (d.kind = k) = (c.kind = k) :=
    h.kind_map (f := (· = k)) (by simp [hk.1.symm, hk.2.symm])
  rw [eat] at hok ⊢
  split at hok
  · rename_i hkind
    injection hok with hresult hcursor
    obtain rfl := Except.ok.inj hresult
    obtain rfl := hcursor
    exact ⟨d.next, by rw [if_pos (hsame ▸ hkind), id], h.next (hkind ▸ hk.1)⟩
  · rename_i hkind
    injection hok with hresult hcursor
    obtain rfl := Except.ok.inj hresult
    obtain rfl := hcursor
    exact ⟨d, by rw [if_neg (hsame ▸ hkind), id], h⟩

/-- A name with its place. -/
def movedName (n : Nat) (named : String × Span) : String × Span := (named.1, named.2.moved n)

theorem carries_identifier : identifier.Carries n rest (movedName n) identifier := by
  intro c d h a c' hok
  rw [identifier] at hok
  split at hok
  · rename_i hkind
    have heof : c.kind ≠ .eof := by rw [hkind]; decide
    injection hok with hresult hcursor
    obtain rfl := Except.ok.inj hresult
    obtain rfl := hcursor
    refine ⟨d.next, ?_, h.next heof⟩
    rw [identifier, if_pos ((h.kind_eq heof).trans hkind), h.current_eq heof]
    rfl
  · injection hok with hresult
    cases hresult

/-- A brace that is there closes what was opened. -/
theorem carries_closingBrace (opened opened' : Span) (what : String) :
    (closingBrace opened what).Carries n rest id (closingBrace opened' what) := by
  intro c d h a c' hok
  rw [closingBrace] at hok
  split at hok
  · rename_i hkind
    have heof : c.kind ≠ .eof := by rw [hkind]; decide
    injection hok with hresult hcursor
    obtain rfl := hcursor
    exact ⟨d.next, by rw [closingBrace, if_pos ((h.kind_eq heof).trans hkind)], h.next heof⟩
  · injection hok with _ _ hreported
    cases hreported

/-- Tokens that are read if the kinds at the cursor and behind it are these. -/
theorem carries_ahead_advance {view : α → α} {k : Token.Kind} (hk : k ≠ .eof ∧ k ≠ .rbrace)
    {p : Token.Kind → Bool} (hp : p .rbrace = p .eof) {f f' : Bool → Parser α}
    {g g' : Token → Parser α} (hf : f true = advance >>= g) (hf' : f' true = advance >>= g')
    (hg : ∀ t, (g t).Carries n rest view (g' (t.moved n)))
    (hnone : (f false).Carries n rest view (f' false)) :
    (look (fun c ↦ c.kind == k && p (c.kindAhead 1)) >>= f).Carries n rest view
      (look (fun c ↦ c.kind == k && p (c.kindAhead 1)) >>= f') := by
  refine fun c d h ↦ carriesAt_look_bind ?_
  rw [h.ahead_eq hk hp]
  cases hahead : c.kind == k && p (c.kindAhead 1) with
  | false => exact hnone c d h
  | true =>
    have hkind : c.kind = k := beq_iff_eq.mp (Bool.and_eq_true_iff.mp hahead).1
    rw [hf, hf']
    exact carriesAt_advance_bind h (hkind ▸ hk.1) fun t hnext ↦ hg t _ _ hnext

/-! ### Groups and lists -/

/-- A group that is closed in the file is closed in the other one. -/
theorem closing_embeds {depth : Nat} {ts us : List Token} (h : Token.Embeds n rest ts us)
    {t : Token} {more : List Token} (hclosing : Cursor.closing depth ts = some (t, more)) :
    ∃ more', Cursor.closing depth us = some (t.moved n, more') ∧
      Token.Embeds n rest more more' := by
  induction h generalizing depth with
  | @ends e he =>
    rw [Cursor.closing.eq_def] at hclosing
    simp only [if_pos he] at hclosing
    cases hclosing
  | @token u ts us hu halias h ih =>
    have heof : (u.moved n).kind ≠ .eof := hu
    rw [Cursor.closing.eq_def] at hclosing ⊢
    simp only [if_neg hu, if_neg heof] at hclosing ⊢
    rw [show (u.moved n).kind = u.kind from rfl]
    split_ifs at hclosing ⊢
    · exact ih hclosing
    · cases depth with
      | zero =>
        obtain ⟨rfl, rfl⟩ := Prod.mk.inj (Option.some.inj hclosing)
        exact ⟨us, rfl, h⟩
      | succ depth => exact ih hclosing
    · exact ih hclosing

theorem carriesAt_group (h : c.Embeds n rest d) (hopener : c.kind.isOpener = true) :
    group.CarriesAt n rest (Span.moved n) group c d := by
  intro s c' hok
  have heof : c.kind ≠ .eof := fun heof ↦ by rw [heof] at hopener; cases hopener
  have hopener' : d.current.kind.isOpener = true := by rw [h.current_eq heof]; exact hopener
  rw [group, if_pos (show c.current.kind.isOpener = true from hopener)] at hok
  cases hclosing : Cursor.closing 0 c.next.rest with
  | none =>
    rw [hclosing] at hok
    injection hok with hresult
    cases hresult
  | some found =>
    obtain ⟨t, more⟩ := found
    rw [hclosing] at hok
    injection hok with hresult hcursor
    obtain rfl := Except.ok.inj hresult
    obtain rfl := hcursor
    obtain ⟨more', hclosing', hmore⟩ := closing_embeds (h.next heof).tokens hclosing
    refine ⟨⟨t.span.moved n, more'⟩, ?_, hmore, rfl, h.closes⟩
    rw [group, if_pos hopener', hclosing']
    rfl

theorem carriesAt_group_bind {view : α → α} {f g : Span → Parser α} (h : c.Embeds n rest d)
    (hopener : c.kind.isOpener = true)
    (hf : ∀ s, (f s).Carries n rest view (g (s.moved n))) :
    (group >>= f).CarriesAt n rest view (group >>= g) c d :=
  (carriesAt_group h hopener).bind fun s c' d' _ h' ↦ hf s c' d' h'

/-- A group that may stand here. -/
theorem carries_check_group {view : α → α} {k : Token.Kind} (hk : k.isOpener = true)
    {f f' : Bool → Parser α} {g g' : Span → Parser α} (hf : f true = group >>= g)
    (hf' : f' true = group >>= g') (hgroup : ∀ s, (g s).Carries n rest view (g' (s.moved n)))
    (hnone : (f false).Carries n rest view (f' false)) :
    (check k >>= f).Carries n rest view (check k >>= f') := by
  refine fun c d h ↦ carriesAt_look_bind ?_
  rw [h.beq_kind (k := k) (by cases k <;> first | rfl | cases hk)]
  cases hkind : c.kind == k with
  | false => exact hnone c d h
  | true =>
    rw [hf, hf']
    exact carriesAt_group_bind h ((beq_iff_eq.mp hkind).symm ▸ hk) hgroup

theorem carries_commaSeparated {view : α → α} {item item' : Parser α}
    (hitem : item.Carries n rest view item') :
    ∀ budget, (commaSeparated item budget).Carries n rest (List.map view)
      (commaSeparated item' budget)
  | 0 => hitem.bind fun _ ↦ carries_pure rfl
  | budget + 1 => hitem.bind fun _ ↦ (carries_eat (by decide)).bind fun _ ↦
      .ite ((carries_commaSeparated hitem budget).bind fun _ ↦ carries_pure rfl) (carries_pure rfl)

theorem carries_manyAt {view : α → α} {k : Token.Kind} {item : Parser α}
    (hk : (Token.Kind.rbrace == k) = (Token.Kind.eof == k))
    (hitem : item.Carries n rest view item) :
    ∀ budget, (manyAt k item budget).Carries n rest (List.map view) (manyAt k item budget)
  | 0 => carries_pure rfl
  | budget + 1 => carries_check_bind hk fun _ ↦
      .ite (hitem.bind fun _ ↦ (carries_manyAt hk hitem budget).bind fun _ ↦ carries_pure rfl)
        (carries_pure rfl)

end Parser
end Companion
