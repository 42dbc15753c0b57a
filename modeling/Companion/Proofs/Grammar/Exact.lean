import Companion.Grammar.SourceFile
import Companion.Proofs.Token.Spelling

/-!
What parsers do on tokens that are known up to their places. A parser takes some tokens in front of
others if, wherever these tokens stand, it reads exactly the first ones without a report, and gives
a value of which something is known. Sequences of parsers take their tokens one after the other.
-/

set_option autoImplicit false
set_option relaxedAutoImplicit false

namespace Companion

open Token

/-- The kind of the token at some place, or the end of the file behind all. -/
def Token.kindAt (bs : List Bare) (n : Nat) : Token.Kind := (bs[n]?.map Prod.fst).getD .eof

@[simp] theorem Token.kindAt_cons_zero (b : Bare) (bs : List Bare) : kindAt (b :: bs) 0 = b.1 := rfl

@[simp] theorem Token.kindAt_cons_succ (b : Bare) (bs : List Bare) (n : Nat) :
    kindAt (b :: bs) (n + 1) = kindAt bs n := by
  simp [kindAt]

theorem Token.kindAt_append {bs : List Bare} {k : Token.Kind} (h : kindAt bs 0 = k) (hk : k ≠ .eof)
    (rest : List Bare) : kindAt (bs ++ rest) 0 = k := by
  cases bs with
  | nil => exact absurd h.symm hk
  | cons b bs => exact h

/-- Whether the tokens start with the unescaped identifier `w`. -/
def Token.startsWith (bs : List Bare) (w : String) : Bool := bs.head? = some (.ident, w)

/-- A word is an identifier. -/
theorem Token.bare_of_isWord {t : Token} {w : String} (h : t.isWord w = true) :
    t.bare = (.ident, w) := by
  simp only [isWord, Bool.and_eq_true, decide_eq_true_eq] at h
  exact Prod.ext h.1 h.2

theorem Token.kind_of_isWord {t : Token} {w : String} (h : t.isWord w = true) : t.kind = .ident :=
  congrArg Prod.fst (bare_of_isWord h)

namespace Cursor

theorem next_cons {t : Token} (h : t.kind ≠ .eof) (previous : Span) (ts : List Token) :
    next ⟨previous, t :: ts⟩ = ⟨t.span, ts⟩ := if_neg h

/-- The tokens ahead are some tokens, wherever they stand. -/
def Spells (c : Cursor) (bs : List Bare) : Prop := c.rest.map bare = bs

variable {c : Cursor} {b : Bare} {bs : List Bare}

theorem Spells.kindAhead (h : c.Spells bs) (n : Nat) : c.kindAhead n = kindAt bs n := by
  rw [← h, kindAt, Cursor.kindAhead, List.getElem?_map, Option.map_map]
  rfl

theorem Spells.kind (h : c.Spells bs) : c.kind = kindAt bs 0 := by
  rw [← h.kindAhead]
  obtain ⟨previous, rest⟩ := c
  cases rest <;> rfl

theorem Spells.kind_cons (h : c.Spells (b :: bs)) : c.kind = b.1 := h.kind

theorem Spells.length_rest (h : c.Spells bs) : c.rest.length = bs.length := by
  rw [← h, List.length_map]

theorem Spells.bare_current (h : c.Spells (b :: bs)) : c.current.bare = b := by
  obtain ⟨previous, rest⟩ := c
  cases rest with
  | nil => cases h
  | cons t ts => exact (List.cons.inj h).1

theorem Spells.text (h : c.Spells (b :: bs)) : c.current.text = b.2 :=
  congrArg Prod.snd h.bare_current

theorem Spells.isWord (h : c.Spells (b :: bs)) (w : String) :
    c.current.isWord w = (decide (b.1 = .ident) && decide (b.2 = w)) := by
  rw [Token.isWord, ← Cursor.kind.eq_def, h.kind, h.text]
  rfl

theorem Spells.isWord_eq (h : c.Spells bs) (w : String) :
    c.current.isWord w = startsWith bs w := by
  cases bs with
  | nil =>
    obtain ⟨previous, rest⟩ := c
    cases rest with
    | nil => rfl
    | cons t ts => cases h
  | cons b bs => rw [h.isWord, startsWith, List.head?_cons, Bool.eq_iff_iff]; simp [Prod.ext_iff]

theorem Spells.next (h : c.Spells (b :: bs)) (hkind : b.1 ≠ .eof) : c.next.Spells bs := by
  obtain ⟨previous, rest⟩ := c
  cases rest with
  | nil => cases h
  | cons t ts =>
    obtain ⟨rfl, htail⟩ := List.cons.inj h
    rw [Cursor.next]
    dsimp only
    rw [if_neg (show t.kind ≠ .eof from hkind)]
    exact htail

end Cursor

namespace Parser

variable {α β : Type}

/-- In front of `rest` the parser reads exactly the tokens `bs`, reports nothing, and gives a value
of which `post` holds. -/
def Takes (p : Parser α) (bs rest : List Bare) (post : α → Prop) : Prop :=
  ∀ c : Cursor, c.Spells (bs ++ rest) →
    ∃ a c', p c = ⟨.ok a, c', []⟩ ∧ c'.Spells rest ∧ post a

variable {p : Parser α} {f : α → Parser β} {bs bs' rest : List Bare} {b : Bare}

theorem Takes.mono {post post' : α → Prop} (h : p.Takes bs rest post)
    (himp : ∀ a, post a → post' a) : p.Takes bs rest post' := by
  intro c hc
  obtain ⟨a, c', hp, hrest, ha⟩ := h c hc
  exact ⟨a, c', hp, hrest, himp a ha⟩

theorem takes_pure {a : α} {post : α → Prop} (h : post a) :
    (pure a : Parser α).Takes [] rest post :=
  fun c hc ↦ ⟨a, c, rfl, hc, h⟩

theorem takes_pure_self (a : α) : (pure a : Parser α).Takes [] rest (· = a) := takes_pure rfl

theorem bind_of_ok {c c' : Cursor} {a : α} (h : p c = ⟨.ok a, c', []⟩) : (p >>= f) c = f a c' := by
  show Parser.bind p f c = _
  simp only [Parser.bind, h, List.nil_append]

theorem attempt_bind_of_ok {f : Except Diagnostic α → Parser β} {c c' : Cursor} {a : α}
    (h : p c = ⟨.ok a, c', []⟩) : (attempt p >>= f) c = f (.ok a) c' :=
  bind_of_ok (by rw [attempt, h])

theorem advance_bind_cons {f : Token → Parser β} {t : Token} (ht : t.kind ≠ .eof) (s : Span)
    (ts : List Token) : (advance >>= f) ⟨s, t :: ts⟩ = f t ⟨t.span, ts⟩ := by
  refine bind_of_ok ?_
  rw [advance, Cursor.next_cons ht]
  rfl

theorem look_bind {γ : Type} (g : Cursor → γ) (f : γ → Parser β) (c : Cursor) :
    (look g >>= f) c = f (g c) c := bind_of_ok rfl

theorem check_bind (k : Token.Kind) (f : Bool → Parser β) (c : Cursor) :
    (check k >>= f) c = f (c.kind == k) c := bind_of_ok rfl

/-- A sequence of two parsers takes what one takes behind the other. -/
theorem Takes.bind {post : α → Prop} {post' : β → Prop} (hp : p.Takes bs (bs' ++ rest) post)
    (hf : ∀ a, post a → (f a).Takes bs' rest post') : (p >>= f).Takes (bs ++ bs') rest post' := by
  intro c hc
  rw [List.append_assoc] at hc
  obtain ⟨a, c', hok, hc', ha⟩ := hp c hc
  rw [bind_of_ok hok]
  exact hf a ha c' hc'

theorem Takes.cons_bind {post : α → Prop} {post' : β → Prop} (hp : p.Takes [b] (bs ++ rest) post)
    (hf : ∀ a, post a → (f a).Takes bs rest post') : (p >>= f).Takes (b :: bs) rest post' :=
  Takes.bind hp hf

theorem Takes.nil_bind {post : α → Prop} {post' : β → Prop} (hp : p.Takes [] (bs ++ rest) post)
    (hf : ∀ a, post a → (f a).Takes bs rest post') : (p >>= f).Takes bs rest post' :=
  Takes.bind hp hf

/-- What comes behind reads nothing more. -/
theorem Takes.bind_nil {post : α → Prop} {post' : β → Prop} (hp : p.Takes bs rest post)
    (hf : ∀ a, post a → (f a).Takes [] rest post') : (p >>= f).Takes bs rest post' := by
  have h : (p >>= f).Takes (bs ++ []) rest post' := Takes.bind hp hf
  rwa [List.append_nil] at h

theorem Takes.map {post : α → Prop} {post' : β → Prop} {g : α → β} (hp : p.Takes bs rest post)
    (hg : ∀ a, post a → post' (g a)) : (g <$> p).Takes bs rest post' :=
  hp.bind_nil fun a ha ↦ takes_pure (hg a ha)

/-- What is read off the cursor without moving. -/
theorem takes_look_bind {γ : Type} {g : Cursor → γ} {f : γ → Parser β} {post : β → Prop}
    (h : ∀ c : Cursor, c.Spells (bs ++ rest) → (f (g c)).Takes bs rest post) :
    (look g >>= f).Takes bs rest post :=
  fun c hc ↦ h c hc c hc

theorem takes_check_bind {k : Token.Kind} {f : Bool → Parser β} {post : β → Prop}
    (h : (f (kindAt (bs ++ rest) 0 == k)).Takes bs rest post) :
    (check k >>= f).Takes bs rest post := by
  refine takes_look_bind fun c hc ↦ ?_
  rw [hc.kind]
  exact h

theorem takes_checkWord_bind {w : String} {f : Bool → Parser β} {post : β → Prop}
    (h : (f (startsWith (bs ++ rest) w)).Takes bs rest post) :
    (checkWord w >>= f).Takes bs rest post := by
  refine takes_look_bind fun c hc ↦ ?_
  rw [hc.isWord_eq]
  exact h

theorem Takes.attempt {post : α → Prop} (h : p.Takes bs rest post) :
    (attempt p).Takes bs rest fun r ↦ ∃ a, r = .ok a ∧ post a := by
  intro c hc
  obtain ⟨a, c', hp, hrest, ha⟩ := h c hc
  exact ⟨.ok a, c', by rw [Parser.attempt, hp], hrest, a, rfl, ha⟩

theorem takes_advance (hkind : b.1 ≠ .eof) : advance.Takes [b] rest (·.bare = b) :=
  fun c hc ↦ ⟨c.current, c.next, rfl, hc.next hkind, hc.bare_current⟩

theorem takes_expect (hkind : b.1 ≠ .eof) : (expect b.1).Takes [b] rest (·.bare = b) := by
  intro c hc
  refine ⟨c.current, c.next, ?_, hc.next hkind, hc.bare_current⟩
  rw [expect, if_pos hc.kind_cons]

theorem takes_identifier (t : String) :
    identifier.Takes [(.ident, t)] rest (·.1 = unescape t) := by
  intro c hc
  refine ⟨(c.current.name, c.current.span), c.next, ?_, hc.next Kind.noConfusion, ?_⟩
  · rw [identifier, if_pos hc.kind_cons]
  · show unescape c.current.text = _
    rw [hc.text]

theorem takes_eat (hkind : b.1 ≠ .eof) : (eat b.1).Takes [b] rest (· = true) := by
  intro c hc
  refine ⟨true, c.next, ?_, hc.next hkind, rfl⟩
  rw [eat, if_pos hc.kind_cons]

theorem takes_spanFrom_bind {start : Span} {f : Span → Parser β} {post : β → Prop}
    (h : ∀ span, (f span).Takes bs rest post) : (spanFrom start >>= f).Takes bs rest post :=
  takes_look_bind fun _ _ ↦ h _

theorem takes_eat_bind_of_ne {k : Token.Kind} {f : Bool → Parser β} {post : β → Prop}
    (hkind : kindAt (bs ++ rest) 0 ≠ k) (h : (f false).Takes bs rest post) :
    (eat k >>= f).Takes bs rest post := by
  intro c hc
  have hno : eat k c = ⟨.ok false, c, []⟩ := by
    rw [eat, if_neg (by rw [hc.kind]; exact hkind)]
  rw [bind_of_ok hno]
  exact h c hc

theorem takes_commaSeparated_one {item : Parser α} {post : α → Prop} (h : item.Takes bs rest post)
    (hend : kindAt rest 0 ≠ .comma) (budget : Nat) :
    (commaSeparated item budget).Takes bs rest fun as ↦ ∃ a, as = [a] ∧ post a := by
  cases budget with
  | zero => exact h.bind_nil fun a ha ↦ takes_pure ⟨a, rfl, ha⟩
  | succ budget =>
    exact h.bind_nil fun a ha ↦ takes_eat_bind_of_ne hend (takes_pure ⟨a, rfl, ha⟩)

/-- Some things with commas between, if each is taken in front of what may follow it. -/
theorem takes_commaSeparated {γ : Type} {item : Parser α} {tokens : γ → List Bare}
    {post : γ → α → Prop} {follows : List Bare → Prop} {xs : List γ}
    (hitem : ∀ x ∈ xs, ∀ rest, follows rest → item.Takes (tokens x) rest (post x))
    (hcomma : ∀ rest, follows ((.comma, ",") :: rest)) (hne : xs ≠ []) (hrest : follows rest)
    (hend : kindAt rest 0 ≠ .comma) {budget : Nat} (hbudget : xs.length ≤ budget + 1) :
    (commaSeparated item budget).Takes ([(.comma, ",")].intercalate (xs.map tokens)) rest
      (List.Forall₂ post xs) := by
  induction xs generalizing budget with
  | nil => exact absurd rfl hne
  | cons x xs ih =>
    have hx := hitem x List.mem_cons_self
    cases xs with
    | nil =>
      rw [List.map_singleton, List.intercalate_singleton]
      cases budget with
      | zero => exact (hx rest hrest).bind_nil fun a ha ↦ takes_pure (.cons ha .nil)
      | succ budget =>
        exact (hx rest hrest).bind_nil fun a ha ↦
          takes_eat_bind_of_ne hend (takes_pure (.cons ha .nil))
    | cons y ys =>
      cases budget with
      | zero => simp at hbudget
      | succ budget =>
        have hmore := ih (fun z hz ↦ hitem z (List.mem_cons_of_mem _ hz)) (List.cons_ne_nil _ _)
          (show (y :: ys).length ≤ budget + 1 by simpa using hbudget)
        rw [List.map_cons, List.map_cons, List.intercalate_cons_cons, List.append_assoc]
        refine (hx _ (hcomma _)).bind fun a ha ↦ ?_
        refine (takes_eat (b := (.comma, ",")) Kind.noConfusion).bind fun more hcomma ↦ ?_
        rw [hcomma, if_pos rfl]
        exact hmore.bind_nil fun as has ↦ takes_pure (.cons ha has)

end Parser
end Companion
