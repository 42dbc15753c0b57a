import Companion.Grammar.SourceFile
import Mathlib.Data.List.Basic

/-!
How parsers move. Whatever a parser answers, it has read some tokens one by one, in order and
without the end of the file, and stands behind the last of them (`Cursor.Reads`, `Parser.Forward`).
What is known about its value is stated together with the tokens that were read for it
(`Parser.Gives`), so that a fact about a sequence of parsers is put together from facts about its
steps (`Parser.gives_bind`).
-/

set_option autoImplicit false
set_option relaxedAutoImplicit false

namespace Companion

/-! ### Reading tokens -/

namespace Cursor

/-- The second cursor is behind the tokens read from the first. -/
inductive Reads : Cursor → List Token → Cursor → Prop
  | nothing (c : Cursor) : Reads c [] c
  | token {previous : Span} {t : Token} {ts read : List Token} {c' : Cursor} (h : t.kind ≠ .eof)
      (hrest : Reads ⟨t.span, ts⟩ read c') : Reads ⟨previous, t :: ts⟩ (t :: read) c'

namespace Reads

variable {c c' c'' : Cursor} {read read' : List Token}

theorem trans (h : Reads c read c') (h' : Reads c' read' c'') : Reads c (read ++ read') c'' := by
  induction h with
  | nothing => exact h'
  | token hkind _ ih => exact .token hkind (ih h')

theorem rest_eq (h : Reads c read c') : c.rest = read ++ c'.rest := by
  induction h with
  | nothing => rfl
  | token _ _ ih => rw [List.cons_append, ← ih]

/-- A cursor keeps the span of the last token that was read. -/
theorem previous_mem (h : Reads c read c') (hne : read ≠ []) :
    c'.previous ∈ read.map (·.span) := by
  induction h with
  | nothing => exact absurd rfl hne
  | @token _ t _ read _ _ hrest ih =>
    by_cases hread : read = []
    · subst hread
      cases hrest
      exact List.mem_cons_self
    · exact List.mem_cons_of_mem _ (ih hread)

end Reads

theorem reads_next (c : Cursor) : ∃ read, c.Reads read c.next := by
  obtain ⟨previous, rest⟩ := c
  cases rest with
  | nil => exact ⟨[], .nothing _⟩
  | cons t ts =>
    rw [next]
    dsimp only
    split
    · exact ⟨[], .nothing _⟩
    · rename_i hkind
      exact ⟨[t], .token hkind (.nothing _)⟩

/-- A token that is not the end of the file is read. -/
theorem reads_next_of_kind {c : Cursor} (h : c.kind ≠ .eof) : c.Reads [c.current] c.next := by
  obtain ⟨previous, rest⟩ := c
  cases rest with
  | nil => exact absurd rfl h
  | cons t ts =>
    have hkind : t.kind ≠ .eof := h
    rw [next]
    simp only [if_neg hkind]
    exact .token hkind (.nothing _)

theorem reads_toEnd (previous : Span) (ts : List Token) :
    ∃ read, Reads ⟨previous, ts⟩ read (toEnd previous ts) := by
  fun_induction toEnd previous ts with
  | case1 => exact ⟨[], .nothing _⟩
  | case2 => exact ⟨[], .nothing _⟩
  | case3 previous t ts hkind ih =>
    obtain ⟨read, hread⟩ := ih
    exact ⟨t :: read, .token hkind hread⟩

theorem reads_closing {depth : Nat} {ts rest : List Token} {t : Token} (previous : Span)
    (h : closing depth ts = some (t, rest)) :
    ∃ read, Reads ⟨previous, ts⟩ read ⟨t.span, rest⟩ := by
  fun_induction closing depth ts generalizing previous with
  | case1 => cases h
  | case2 => cases h
  | case3 depth u us hkind _ ih =>
    obtain ⟨read, hread⟩ := ih u.span h
    exact ⟨u :: read, .token hkind hread⟩
  | case4 u us hkind _ _ =>
    obtain ⟨rfl, rfl⟩ := Prod.mk.inj (Option.some.inj h)
    exact ⟨[u], .token hkind (.nothing _)⟩
  | case5 u us hkind _ _ outer ih =>
    obtain ⟨read, hread⟩ := ih u.span h
    exact ⟨u :: read, .token hkind hread⟩
  | case6 depth u us hkind _ _ ih =>
    obtain ⟨read, hread⟩ := ih u.span h
    exact ⟨u :: read, .token hkind hread⟩

theorem reads_pastTypeArgs (depth : Nat) (previous : Span) (ts : List Token) :
    ∃ read, Reads ⟨previous, ts⟩ read (pastTypeArgs depth previous ts).2 := by
  fun_induction pastTypeArgs depth previous ts with
  | case1 => exact ⟨[], .nothing _⟩
  | case2 => exact ⟨[], .nothing _⟩
  | case3 depth previous t ts hkind _ ih =>
    obtain ⟨read, hread⟩ := ih
    exact ⟨t :: read, .token hkind hread⟩
  | case4 depth previous t ts hkind => exact ⟨[t], .token hkind (.nothing _)⟩
  | case5 depth previous t ts hkind _ _ _ ih =>
    obtain ⟨read, hread⟩ := ih
    exact ⟨t :: read, .token hkind hread⟩
  | case6 depth previous t ts hkind _ _ ih =>
    obtain ⟨read, hread⟩ := ih
    exact ⟨t :: read, .token hkind hread⟩

theorem reads_modifiersAt (previous : Span) (ts : List Token) :
    ∃ read, Reads ⟨previous, ts⟩ read (Parser.modifiersAt previous ts).2 := by
  fun_induction Parser.modifiersAt previous ts with
  | case1 => exact ⟨[], .nothing _⟩
  | case2 previous t ts m _ hword ms c hmore ih =>
    simp only [Bool.and_eq_true, decide_eq_true_eq] at hword
    obtain ⟨read, hread⟩ := ih
    rw [hmore] at hread
    exact ⟨t :: read, .token (by simp [hword.1]) hread⟩
  | case3 => exact ⟨[], .nothing _⟩
  | case4 => exact ⟨[], .nothing _⟩

end Cursor

/-! ### What parsers give -/

namespace Parser

variable {α β : Type}

/-- From a cursor a parser reads on; if it gives a value, something holds of the value, the tokens
that were read and the cursor behind them. -/
def Gives (p : Parser α) (c : Cursor) (post : α → List Token → Cursor → Prop) : Prop :=
  ∃ read, c.Reads read (p c).cursor ∧ ∀ a, (p c).result = .ok a → post a read (p c).cursor

/-- A parser only reads on, wherever it starts. -/
def Forward (p : Parser α) : Prop := ∀ c, p.Gives c fun _ _ _ ↦ True

theorem Forward.length_le {p : Parser α} (h : p.Forward) (c : Cursor) :
    (p c).cursor.rest.length ≤ c.rest.length := by
  obtain ⟨read, hread, -⟩ := h c
  rw [hread.rest_eq, List.length_append]
  omega

section Steps

variable {c : Cursor} {post : α → List Token → Cursor → Prop}

theorem Gives.mono {p : Parser α} {post' : α → List Token → Cursor → Prop} (h : p.Gives c post)
    (himp : ∀ a read c', c.Reads read c' → post a read c' → post' a read c') :
    p.Gives c post' := by
  obtain ⟨read, hread, hpost⟩ := h
  exact ⟨read, hread, fun a ha ↦ himp a read _ hread (hpost a ha)⟩

theorem Gives.of_eq {p q : Parser α} (hq : q.Gives c post) (h : p c = q c) : p.Gives c post := by
  rw [Gives, h]
  exact hq

theorem gives_pure {a : α} (h : post a [] c) : (pure a : Parser α).Gives c post := by
  refine ⟨[], .nothing _, fun a' ha ↦ ?_⟩
  obtain rfl : a = a' := Except.ok.inj ha
  exact h

theorem gives_look {f : Cursor → α} (h : post (f c) [] c) : (look f).Gives c post := by
  refine ⟨[], .nothing _, fun a ha ↦ ?_⟩
  obtain rfl : f c = a := Except.ok.inj ha
  exact h

/-- What a sequence of two parsers gives is what the second gives behind the first. -/
theorem gives_bind {p : Parser β} {f : β → Parser α}
    (h : p.Gives c fun b read c' ↦ (f b).Gives c' fun a read' c'' ↦ post a (read ++ read') c'') :
    (p >>= f).Gives c post := by
  obtain ⟨read, hread, hpost⟩ := h
  show Gives (Parser.bind p f) c post
  cases hp : p c with
  | mk result c' reported =>
    rw [hp] at hread hpost
    cases result with
    | error d =>
      refine ⟨read, ?_, fun a ha ↦ ?_⟩
      · simpa only [Parser.bind, hp] using hread
      · simp [Parser.bind, hp] at ha
    | ok b =>
      obtain ⟨read', hread', hpost'⟩ := hpost b rfl
      refine ⟨read ++ read', ?_, fun a ha ↦ ?_⟩
      · simpa only [Parser.bind, hp] using hread.trans hread'
      · simp only [Parser.bind, hp] at ha ⊢
        exact hpost' a ha

theorem gives_attempt {p : Parser β} {post : Except Diagnostic β → List Token → Cursor → Prop}
    (hok : p.Gives c fun b ↦ post (.ok b)) (herror : ∀ d read c', post (.error d) read c') :
    (attempt p).Gives c post := by
  obtain ⟨read, hread, hpost⟩ := hok
  refine ⟨read, hread, fun a ha ↦ ?_⟩
  obtain rfl : (p c).result = a := Except.ok.inj ha
  cases hresult : (p c).result with
  | ok b => exact hpost b hresult
  | error d => exact herror d read _

/-- A parser of which only the movement matters. -/
theorem Forward.gives {p : Parser α} (hp : p.Forward)
    (h : ∀ a read c', c.Reads read c' → post a read c') : p.Gives c post :=
  (hp c).mono fun a read c' hread _ ↦ h a read c' hread

/-- A parser of which only the movement matters, in front of another. -/
theorem Forward.gives_bind {p : Parser β} {f : β → Parser α} (hp : p.Forward)
    (h : ∀ b read c', c.Reads read c' →
      (f b).Gives c' fun a read' c'' ↦ post a (read ++ read') c'') :
    (p >>= f).Gives c post :=
  Parser.gives_bind ((hp c).mono fun b read c' hread _ ↦ h b read c' hread)

end Steps

/-! ### Parsers that only read on -/

namespace Forward

protected theorem pure (a : α) : (pure a : Parser α).Forward := fun _ ↦ gives_pure trivial

protected theorem bind {p : Parser α} {f : α → Parser β} (hp : p.Forward)
    (hf : ∀ a, (f a).Forward) : (p >>= f).Forward :=
  fun _ ↦ hp.gives_bind fun a _ c' _ ↦ hf a c'

protected theorem map (f : α → β) {p : Parser α} (hp : p.Forward) : (f <$> p).Forward :=
  hp.bind fun a ↦ .pure (f a)

protected theorem discard {p : Parser α} (hp : p.Forward) : (discard p).Forward := hp.map _

protected theorem look (f : Cursor → α) : (look f).Forward := fun _ ↦ gives_look trivial

protected theorem attempt {p : Parser α} (hp : p.Forward) : (attempt p).Forward :=
  fun c ↦ gives_attempt (hp c) fun _ _ _ ↦ trivial

protected theorem ite {b : Prop} [Decidable b] {p q : Parser α} (hp : p.Forward)
    (hq : q.Forward) : (if b then p else q).Forward := by
  split <;> assumption

end Forward

/-- Where the parser gives a value, it has read a token. -/
def Advances (p : Parser α) : Prop := ∀ c, p.Gives c fun _ read _ ↦ read ≠ []

theorem Advances.forward {p : Parser α} (h : p.Advances) : p.Forward :=
  fun c ↦ (h c).mono fun _ _ _ _ _ ↦ trivial

theorem Advances.bind {p : Parser α} {f : α → Parser β} (hp : p.Advances)
    (hf : ∀ a, (f a).Forward) : (p >>= f).Advances := by
  refine fun c ↦ gives_bind ((hp c).mono fun a read c' _ hread ↦ (hf a c').mono ?_)
  intro _ more _ _ _
  exact List.append_ne_nil_of_left_ne_nil hread more

theorem Advances.length_lt {p : Parser α} (h : p.Advances) {c : Cursor} {a : α}
    (ha : (p c).result = .ok a) : (p c).cursor.rest.length < c.rest.length := by
  obtain ⟨read, hread, hne⟩ := h c
  have hpos := List.length_pos_of_ne_nil (hne a ha)
  rw [hread.rest_eq, List.length_append]
  omega

/-- A parser that stays where it is. -/
theorem forward_of_cursor_eq {p : Parser α} (h : ∀ c, (p c).cursor = c) : p.Forward :=
  fun c ↦ ⟨[], (h c).symm ▸ .nothing c, fun _ _ ↦ trivial⟩

/-- A parser that stays where it is or reads one token. -/
theorem forward_of_cursor_eq_next {p : Parser α}
    (h : ∀ c, (p c).cursor = c ∨ (p c).cursor = c.next) : p.Forward := by
  intro c
  rcases h c with heq | heq
  · exact ⟨[], heq.symm ▸ .nothing c, fun _ _ ↦ trivial⟩
  · obtain ⟨read, hread⟩ := c.reads_next
    exact ⟨read, heq.symm ▸ hread, fun _ _ ↦ trivial⟩

theorem forward_report (d : Diagnostic) : (report d).Forward := forward_of_cursor_eq fun _ ↦ rfl

theorem forward_failExpected (code : Diagnostic.Code) (what : String) :
    (failExpected code what : Parser α).Forward := forward_of_cursor_eq fun _ ↦ rfl

theorem forward_advance : advance.Forward := forward_of_cursor_eq_next fun _ ↦ .inr rfl

theorem forward_check (k : Token.Kind) : (check k).Forward := .look _

theorem forward_checkWord (w : String) : (checkWord w).Forward := .look _

theorem forward_spanFrom (start : Span) : (spanFrom start).Forward := .look _

theorem forward_eat (k : Token.Kind) : (eat k).Forward :=
  forward_of_cursor_eq_next fun c ↦ by
    rw [eat]
    split
    · exact .inr rfl
    · exact .inl rfl

theorem forward_expect (k : Token.Kind) : (expect k).Forward :=
  forward_of_cursor_eq_next fun c ↦ by
    rw [expect]
    split
    · exact .inr rfl
    · exact .inl rfl

theorem advances_expect {k : Token.Kind} (hk : k ≠ .eof) : (expect k).Advances := by
  intro c
  rw [Gives, expect]
  split
  · rename_i hkind
    exact ⟨_, Cursor.reads_next_of_kind (hkind ▸ hk), fun _ _ ↦ List.cons_ne_nil _ _⟩
  · exact ⟨[], .nothing c, fun _ ha ↦ by cases ha⟩

/-- An identifier is one token, read with its name and its place. -/
theorem gives_identifier (c : Cursor) : identifier.Gives c fun named read _ ↦
    ∃ t : Token, t.kind = .ident ∧ read = [t] ∧ named = (t.name, t.span) := by
  rw [Gives, identifier]
  split
  · rename_i hkind
    have hne : c.kind ≠ .eof := by
      rw [hkind]
      decide
    exact ⟨_, Cursor.reads_next_of_kind hne, fun _ h ↦
      ⟨c.current, hkind, rfl, (Except.ok.inj h).symm⟩⟩
  · exact ⟨[], .nothing c, fun _ ha ↦ by cases ha⟩

theorem advances_identifier : identifier.Advances := by
  refine fun c ↦ (gives_identifier c).mono fun _ read _ _ h ↦ ?_
  obtain ⟨t, -, rfl, -⟩ := h
  exact List.cons_ne_nil _ _

theorem forward_identifier : identifier.Forward := advances_identifier.forward

theorem forward_closingBrace (opened : Span) (what : String) :
    (closingBrace opened what).Forward :=
  forward_of_cursor_eq_next fun c ↦ by
    rw [closingBrace]
    split
    · exact .inr rfl
    · exact .inl rfl

theorem forward_commaSeparated {item : Parser α} (hitem : item.Forward) :
    ∀ budget, (commaSeparated item budget).Forward
  | 0 => hitem.bind fun a ↦ .pure [a]
  | budget + 1 => hitem.bind fun a ↦ (forward_eat .comma).bind fun _ ↦
      .ite ((forward_commaSeparated hitem budget).bind fun rest ↦ .pure (a :: rest)) (.pure [a])

theorem forward_manyAt (k : Token.Kind) {item : Parser α} (hitem : item.Forward) :
    ∀ budget, (manyAt k item budget).Forward
  | 0 => .pure []
  | budget + 1 => (forward_check k).bind fun _ ↦
      .ite (hitem.bind fun a ↦ (forward_manyAt k hitem budget).bind fun rest ↦ .pure (a :: rest))
        (.pure [])

/-! ### Passing over -/

theorem forward_group : group.Forward := by
  intro c
  obtain ⟨read, hread⟩ := c.reads_next
  rw [Gives, group]
  dsimp only
  split
  · cases hclosing : Cursor.closing 0 c.next.rest with
    | some found =>
      obtain ⟨t, ts⟩ := found
      obtain ⟨inside, hinside⟩ := Cursor.reads_closing c.next.previous hclosing
      exact ⟨read ++ inside, hread.trans hinside, fun _ _ ↦ trivial⟩
    | none =>
      obtain ⟨inside, hinside⟩ := Cursor.reads_toEnd c.next.previous c.next.rest
      exact ⟨read ++ inside, hread.trans hinside, fun _ _ ↦ trivial⟩
  · exact ⟨read, hread, fun _ _ ↦ trivial⟩

theorem forward_memberRestWithin :
    ∀ (budget : Nat) (inExpression : Bool), (memberRestWithin budget inExpression).Forward
  | 0, _ => .pure ()
  | budget + 1, inExpression => by
    refine .bind (.look _) fun k ↦ ?_
    have hrest := forward_memberRestWithin budget
    split
    · exact forward_advance.discard
    · exact .pure ()
    · exact .pure ()
    · exact forward_group.bind fun _ ↦ (forward_check _).bind fun _ ↦
        .ite (hrest true) (forward_eat _).discard
    all_goals first
      | exact forward_group.bind fun _ ↦ hrest _
      | exact forward_advance.bind fun _ ↦ hrest _

theorem forward_memberRest : memberRest.Forward :=
  fun c ↦ (forward_memberRestWithin (c.rest.length + 1) false c).of_eq rfl

theorem forward_typeArgs : typeArgs.Forward := by
  intro c
  obtain ⟨read, hread⟩ := Cursor.reads_pastTypeArgs 0 c.previous c.rest
  exact ⟨read, hread, fun _ _ ↦ trivial⟩

theorem forward_initializerWithin :
    ∀ (budget : Nat) (last : Span), (initializerWithin budget last).Forward
  | 0, last => .pure last
  | budget + 1, last => by
    have hrest := forward_initializerWithin budget
    refine .bind (.look _) fun k ↦ .ite (.pure last) (.ite ?_ ?_)
    · exact forward_group.bind hrest
    · exact .bind (.look _) fun _ ↦ .ite (forward_typeArgs.bind hrest)
        (forward_advance.bind fun t ↦ hrest t.span)

theorem forward_initializer : initializer.Forward := by
  intro c
  by_cases hends : endsInitializer c.kind = true
  · exact (forward_failExpected _ _ c).of_eq (by rw [initializer, if_pos hends])
  · exact (((forward_initializerWithin _ c.current.span).map _) c).of_eq
      (by rw [initializer, if_neg hends])

theorem forward_recoverInBodyWithin : ∀ budget, (recoverInBodyWithin budget).Forward
  | 0 => .pure ()
  | budget + 1 => by
    have hrest := forward_recoverInBodyWithin budget
    refine .bind (.look _) fun k ↦ ?_
    split
    · exact forward_advance.discard
    · exact .pure ()
    · exact .pure ()
    · exact forward_group.attempt.discard
    · refine .ite (forward_group.attempt.bind fun r ↦ ?_) (forward_advance.bind fun _ ↦ hrest)
      cases r with
      | ok => exact hrest
      | error => exact .pure ()

theorem forward_recoverInBody : recoverInBody.Forward :=
  fun c ↦ (forward_recoverInBodyWithin (c.rest.length + 1) c).of_eq rfl

theorem forward_recoverToItemWithin : ∀ budget, (recoverToItemWithin budget).Forward
  | 0 => .pure ()
  | budget + 1 => by
    have hrest := forward_recoverToItemWithin budget
    refine .bind (.look _) fun k ↦ .ite forward_advance.discard (.ite (.pure ()) (.ite ?_ ?_))
    · refine forward_group.attempt.bind fun r ↦ ?_
      cases r with
      | ok => exact hrest
      | error => exact .pure ()
    · exact forward_advance.bind fun _ ↦ hrest

theorem forward_recoverToItem : recoverToItem.Forward := by
  intro c
  by_cases hstarts : startsItem c.kind = true
  · exact (forward_advance.discard c).of_eq (by rw [recoverToItem, if_pos hstarts])
  · exact (forward_recoverToItemWithin _ c).of_eq (by rw [recoverToItem, if_neg hstarts])

/-! ### Types, names and attributes -/

theorem forward_typeArgsWith {type : Parser TypeRef} (htype : type.Forward) (budget : Nat) :
    (typeArgsWith type budget).Forward := by
  have hclose (args : List TypeRef) :
      (do let _ ← expect .gt; pure args : Parser (List TypeRef)).Forward :=
    (forward_expect _).bind fun _ ↦ .pure args
  exact (forward_expect _).bind fun _ ↦ (forward_check _).bind fun _ ↦
    .ite (.bind (.pure []) hclose) ((forward_commaSeparated htype budget).bind hclose)

theorem forward_segmentWith {type : Parser TypeRef} (htype : type.Forward) (budget : Nat) :
    (segmentWith type budget).Forward := by
  refine forward_identifier.bind fun named ↦ (forward_check _).bind fun _ ↦ ?_
  have hend (args : List TypeRef) :
      (do let span ← spanFrom named.2; pure (Segment.mk named.1 args span)).Forward :=
    (forward_spanFrom named.2).bind fun _ ↦ .pure _
  exact .ite ((forward_typeArgsWith htype budget).bind hend) (.bind (.pure []) hend)

theorem forward_segmentsWith {segment : Parser Segment} (hsegment : segment.Forward) :
    ∀ budget, (segmentsWith segment budget).Forward
  | 0 => hsegment.bind fun s ↦ .pure [s]
  | budget + 1 => hsegment.bind fun s ↦ .bind (.look _) fun _ ↦
      .ite (forward_advance.bind fun _ ↦ (forward_segmentsWith hsegment budget).bind fun rest ↦
        .pure (s :: rest)) (.pure [s])

theorem forward_qualifier : qualifier.Forward :=
  .bind (.look _) fun _ ↦ .ite
    (forward_identifier.bind fun _ ↦ forward_advance.bind fun _ ↦
      .ite (.pure _) (.pure _)) (.pure _)

theorem forward_nameWith {type : Parser TypeRef} (htype : type.Forward) (budget : Nat) :
    (nameWith type budget).Forward :=
  .bind (.look _) fun start ↦ forward_qualifier.bind fun _ ↦
    (forward_segmentsWith (forward_segmentWith htype budget) budget).bind fun _ ↦
      (forward_spanFrom start).bind fun _ ↦ .pure _

theorem forward_tupleWith {type : Parser TypeRef} (htype : type.Forward) (budget : Nat) :
    (tupleWith type budget).Forward := by
  have helement : (tupleElementWith type).Forward :=
    htype.bind fun t ↦ (forward_eat _).bind fun _ ↦ .pure t
  exact (forward_expect _).bind fun _ ↦ (forward_commaSeparated helement budget).bind fun _ ↦
    (forward_expect _).bind fun _ ↦ .pure _

theorem forward_simpleTypeWith {type : Parser TypeRef} (htype : type.Forward) (budget : Nat) :
    (simpleTypeWith type budget).Forward := by
  refine .bind (.look _) fun t ↦ ?_
  split
  · exact forward_tupleWith htype budget
  · split
    · exact forward_advance.bind fun _ ↦ .pure _
    · exact (forward_nameWith htype budget).map _
  · exact forward_failExpected _ _

theorem forward_commas : ∀ budget, (commas budget).Forward
  | 0 => .pure 0
  | budget + 1 => (forward_eat _).bind fun _ ↦
      .ite ((forward_commas budget).bind fun n ↦ .pure (n + 1)) (.pure 0)

theorem forward_suffixesWithin :
    ∀ (budget : Nat) (t : TypeRef), (suffixesWithin budget t).Forward
  | 0, t => .pure t
  | budget + 1, t => by
    have hrest := forward_suffixesWithin budget
    refine .bind (.look _) fun brackets ↦ (forward_check _).bind fun _ ↦ .ite ?_ (.ite ?_ (.pure t))
    · exact forward_advance.bind fun mark ↦ hrest _
    · exact forward_advance.bind fun _ ↦ (forward_commas budget).bind fun n ↦
        (forward_expect _).bind fun closed ↦ hrest _

theorem forward_typeRefWithin (budget : Nat) : ∀ depth, (typeRefWithin budget depth).Forward
  | 0 => forward_failExpected _ _
  | depth + 1 => (forward_simpleTypeWith (forward_typeRefWithin budget depth) budget).bind
      (forward_suffixesWithin budget)

theorem forward_typeRef : typeRef.Forward :=
  fun c ↦ (forward_typeRefWithin (c.rest.length + 1) (c.rest.length + 1) c).of_eq rfl

theorem forward_name : name.Forward :=
  fun c ↦ (forward_nameWith (forward_typeRefWithin (c.rest.length + 1) (c.rest.length + 1))
    (c.rest.length + 1) c).of_eq rfl

theorem forward_attributeUse : attributeUse.Forward := by
  refine forward_name.bind fun n ↦ (forward_check _).bind fun _ ↦ ?_
  have hend (args : Option Span) :
      (do let span ← spanFrom n.span; pure (⟨n.render, n.span, args, span⟩ : Attribute)).Forward :=
    (forward_spanFrom n.span).bind fun _ ↦ .pure _
  exact .ite (.bind (.look _) fun _ ↦ forward_group.bind fun _ ↦ .bind (.pure _) hend)
    (.bind (.pure none) hend)

theorem forward_attributesWithin : ∀ budget, (attributesWithin budget).Forward
  | 0 => .pure []
  | budget + 1 => (forward_check _).bind fun _ ↦ .ite (.pure []) <|
      forward_attributeUse.bind fun a ↦ (forward_eat _).bind fun _ ↦
        .ite ((forward_attributesWithin budget).bind fun rest ↦ .pure (a :: rest)) (.pure [a])

theorem forward_attributeTarget : attributeTarget.Forward :=
  .bind (.look _) fun _ ↦ .ite
    (forward_advance.bind fun t ↦ forward_advance.bind fun _ ↦ .pure (some t.name)) (.pure none)

theorem advances_attributeList : attributeList.Advances :=
  (advances_expect (by decide)).bind fun _ ↦ forward_attributeTarget.bind fun _ ↦
    .bind (.look _) fun budget ↦ (forward_attributesWithin budget).bind fun _ ↦
      (forward_expect _).bind fun _ ↦ .pure _

theorem forward_attributeList : attributeList.Forward := advances_attributeList.forward

theorem forward_attributeLists : attributeLists.Forward :=
  fun c ↦ (forward_manyAt .lbracket forward_attributeList (c.rest.length + 1) c).of_eq rfl

theorem forward_modifiers : modifiers.Forward := by
  intro c
  obtain ⟨read, hread⟩ := Cursor.reads_modifiersAt c.previous c.rest
  exact ⟨read, hread, fun _ _ ↦ trivial⟩

theorem forward_typeParam : typeParam.Forward := by
  refine forward_attributeLists.bind fun _ ↦ .bind (.look _) fun _ ↦
    .ite (forward_advance.bind fun _ ↦ ?_) ?_
  all_goals exact forward_identifier.bind fun _ ↦ .pure _

theorem forward_typeParams : typeParams.Forward :=
  (forward_expect _).bind fun _ ↦ .bind (.look _) fun budget ↦
    (forward_commaSeparated forward_typeParam budget).bind fun params ↦
      (forward_expect _).bind fun _ ↦ .pure params

theorem forward_baseType : baseType.Forward :=
  forward_typeRef.bind fun t ↦ (forward_check _).bind fun _ ↦
    .ite (forward_group.bind fun _ ↦ .pure t) (.pure t)

theorem forward_baseList : baseList.Forward :=
  fun c ↦ (forward_commaSeparated forward_baseType c.rest.length c).of_eq rfl

/-! ### Directives and the heads of declarations -/

theorem forward_constraintsWithin : ∀ budget, (constraintsWithin budget).Forward
  | 0 => .pure ()
  | budget + 1 => by
    have hrest := forward_constraintsWithin budget
    refine .bind (.look _) fun k ↦ ?_
    split
    · exact .pure ()
    · exact .pure ()
    · exact .pure ()
    · exact forward_group.bind fun _ ↦ hrest
    · exact forward_advance.bind fun _ ↦ hrest

theorem forward_constraints : constraints.Forward :=
  (forward_checkWord _).bind fun _ ↦
    .ite (.bind (.look _) fun budget ↦ forward_constraintsWithin (budget + 1)) (.pure ())

/-- A using directive starts with its keyword. -/
theorem exists_usingDirective_eq (isGlobal : Bool) : ∃ f : Token → Parser Using,
    usingDirective isGlobal = expect .usingWord >>= f ∧ ∀ start, (f start).Forward := by
  refine ⟨_, rfl, fun start ↦ (forward_checkWord _).bind fun isStatic ↦ ?_⟩
  have htarget (aliasName : Option String) :
      (do
        let target ← typeRef
        let stop ← expect .semicolon
        pure (⟨aliasName, isStatic, isGlobal, target, start.span.merge stop.span⟩ :
          Using)).Forward :=
    forward_typeRef.bind fun _ ↦ (forward_expect _).bind fun _ ↦ .pure _
  refine .ite (forward_advance.bind fun _ ↦ .bind (.look _) fun _ ↦ ?_) (.bind (.look _) fun _ ↦ ?_)
  all_goals
    exact .ite (forward_identifier.bind fun _ ↦ forward_advance.bind fun _ ↦
      .bind (.pure _) htarget) (.bind (.pure none) htarget)

theorem advances_usingDirective (isGlobal : Bool) : (usingDirective isGlobal).Advances := by
  obtain ⟨f, heq, hf⟩ := exists_usingDirective_eq isGlobal
  rw [heq]
  exact (advances_expect (by decide)).bind hf

theorem forward_usingDirective (isGlobal : Bool) : (usingDirective isGlobal).Forward :=
  (advances_usingDirective isGlobal).forward

end Parser

/-- What a file holds is what is read of its tokens, if anything is. -/
theorem Parsed.file_cases (path source : String) :
    (∃ body, (Parser.namespaceBody .endOfFile
        (Cursor.ofTokens ((Token.ofSource source).filter (·.kind ≠ .error)))).result = .ok body ∧
      (ofSource path source).file = ⟨path, source, body.1, body.2⟩) ∨
    (ofSource path source).file = ⟨path, source, [], []⟩ := by
  rw [ofSource, ofLexed, ofTokens]
  cases (Parser.namespaceBody .endOfFile
      (Cursor.ofTokens ((Token.ofSource source).filter (·.kind ≠ .error)))).result with
  | ok body => exact .inl ⟨body, rfl, rfl⟩
  | error d => exact .inr rfl

end Companion
