import Companion.Proofs.Grammar.InitializerRuns

/-!
Variables that are created with type arguments. A comma between type arguments ends the initializer
exactly if the type splits it, that is, if a tuple is among the arguments that stand at the place of
the comma (`CreatedVariables.declarators_eq_iff`); then the variables behind the comma are not read
as they are written.
-/

set_option autoImplicit false
set_option relaxedAutoImplicit false

namespace Companion

open Token

/-! ### Variables that are created with type arguments -/

/-- The variables `x = new T(...), y;` of a field. -/
structure CreatedVariables where
  first : Token
  assign : Token
  new : Token
  type : TypeRef
  /-- The tokens of the type. -/
  written : List Token
  opened : Token
  /-- What stands between the brackets behind the type. -/
  inside : List Token
  closed : Token
  comma : Token
  second : Token
  semicolon : Token
  first_kind : first.kind = .ident
  assign_kind : assign.kind = .eq
  new_word : new.isWord "new" = true
  isType : ∃ s rest s' ds, Parser.typeRef ⟨s, written ++ rest⟩ = ⟨.ok type, ⟨s', rest⟩, ds⟩
  opened_kind : opened.kind = .lparen
  isNested : WellNested inside
  closed_kind : closed.kind = .rparen
  comma_kind : comma.kind = .comma
  second_kind : second.kind = .ident
  semicolon_kind : semicolon.kind = .semicolon

namespace CreatedVariables

variable (v : CreatedVariables)

/-- What stands behind the type. -/
def behind : List Token := v.opened :: (v.inside ++ [v.closed, v.comma, v.second, v.semicolon])

def tokens : List Token := v.first :: v.assign :: v.new :: (v.written ++ v.behind)

/-- The variables, of which the first has all of the initializer. -/
def declarators : List Declarator :=
  [⟨v.first.name, v.first.span, some (v.new.span.merge v.closed.span)⟩,
    ⟨v.second.name, v.second.span, none⟩]

end CreatedVariables

namespace Parser

variable {s : Span} {after : List Token}

/-! ### Variables with commas between -/

theorem identifier_cons {t : Token} {ts : List Token} (ht : t.kind = .ident) :
    identifier ⟨s, t :: ts⟩ = ⟨.ok (t.name, t.span), ⟨t.span, ts⟩, []⟩ := by
  rw [identifier, if_pos (show Cursor.kind ⟨s, t :: ts⟩ = .ident from ht),
    Cursor.next_cons (by simp [ht])]
  rfl

theorem eat_cons {k : Kind} {t : Token} {ts : List Token} (ht : t.kind = k) (hk : k ≠ .eof) :
    eat k ⟨s, t :: ts⟩ = ⟨.ok true, ⟨t.span, ts⟩, []⟩ := by
  rw [eat, if_pos (show Cursor.kind ⟨s, t :: ts⟩ = k from ht), Cursor.next_cons (ht ▸ hk)]

theorem eat_of_ne {k : Kind} {c : Cursor} (h : c.kind ≠ k) : eat k c = ⟨.ok false, c, []⟩ :=
  if_neg h

theorem commaSeparated_cons {α : Type} {item : Parser α} {budget : Nat} {c : Cursor} {a : α}
    {comma : Token} {ts : List Token} (hitem : item c = ⟨.ok a, ⟨s, comma :: ts⟩, []⟩)
    (hcomma : comma.kind = .comma) :
    commaSeparated item (budget + 1) c =
      (do let more ← commaSeparated item budget; pure (a :: more)) ⟨comma.span, ts⟩ := by
  rw [commaSeparated, bind_of_ok hitem, bind_of_ok (eat_cons hcomma (by decide))]
  rfl

theorem commaSeparated_one {α : Type} {item : Parser α} {budget : Nat} {c c' : Cursor} {a : α}
    (hitem : item c = ⟨.ok a, c', []⟩) (hcomma : c'.kind ≠ .comma) :
    commaSeparated item budget c = ⟨.ok [a], c', []⟩ := by
  cases budget with
  | zero => exact bind_of_ok hitem
  | succ budget => exact (bind_of_ok hitem).trans (bind_of_ok (eat_of_ne hcomma))

/-- What comes to the same is followed by the same. -/
theorem bind_of_same {α β : Type} {p q : Parser α} {f : α → Parser β} {c c' : Cursor}
    (h : p c = q c') : (p >>= f) c = (q >>= f) c' := by
  show Parser.bind p f c = Parser.bind q f c'
  rw [Parser.bind, Parser.bind, h]

theorem declarator_of_initializer {x assign : Token} {ts : List Token} {c : Cursor} {init : Span}
    (hx : x.kind = .ident) (hassign : assign.kind = .eq)
    (hinit : initializer ⟨assign.span, ts⟩ = ⟨.ok init, c, []⟩) :
    declarator ⟨s, x :: assign :: ts⟩ = ⟨.ok ⟨x.name, x.span, some init⟩, c, []⟩ := by
  have hsome : (some <$> initializer) ⟨assign.span, ts⟩ = ⟨.ok (some init), c, []⟩ :=
    bind_of_ok hinit
  rw [declarator, bind_of_ok (identifier_cons hx)]
  exact (bind_of_ok (eat_cons hassign (by decide))).trans (bind_of_ok hsome)

theorem declarator_bare {x t : Token} {ts : List Token} (hx : x.kind = .ident)
    (ht : t.kind ≠ .eq) :
    declarator ⟨s, x :: t :: ts⟩ = ⟨.ok ⟨x.name, x.span, none⟩, ⟨x.span, t :: ts⟩, []⟩ := by
  rw [declarator, bind_of_ok (identifier_cons hx)]
  exact bind_of_ok (eat_of_ne (show Cursor.kind ⟨x.span, t :: ts⟩ ≠ .eq from ht))

/-- A variable without an initializer is one token. -/
theorem gives_declarator (c : Cursor) :
    declarator.Gives c fun d read _ ↦ d.initializer = none → read.length = 1 := by
  refine gives_bind ((gives_word c).mono ?_)
  rintro _ _ c₁ - ⟨word, rfl, -, -, rfl⟩
  refine gives_bind ((gives_eat (by decide) c₁).mono ?_)
  rintro b _ c₂ - (⟨rfl, assign, rfl, -⟩ | ⟨rfl, rfl⟩)
  · have hsome : (some <$> initializer).Gives c₂ fun init _ _ ↦ init.isSome = true :=
      forward_initializer.gives_bind fun _ _ _ _ ↦ gives_pure rfl
    refine gives_bind (hsome.mono fun init _ _ _ hinit ↦ gives_pure fun hnone ↦ ?_)
    rw [show init = none from hnone] at hinit
    cases hinit
  · exact gives_bind (gives_pure (gives_pure fun _ ↦ rfl))

theorem gives_commaSeparated_ne_nil {α : Type} {item : Parser α} (hitem : item.Forward)
    (budget : Nat) (c : Cursor) :
    (commaSeparated item budget).Gives c fun as _ _ ↦ as ≠ [] := by
  cases budget with
  | zero => exact hitem.gives_bind fun a _ _ _ ↦ gives_pure (List.cons_ne_nil a [])
  | succ budget =>
    refine hitem.gives_bind fun a _ _ _ ↦ (forward_eat _).gives_bind fun b _ _ _ ↦ ?_
    split
    · exact (forward_commaSeparated hitem budget).gives_bind fun more _ _ _ ↦
        gives_pure (List.cons_ne_nil a more)
    · exact gives_pure (List.cons_ne_nil a [])

theorem gives_commaSeparated_declarator (budget : Nat) (c : Cursor) :
    (commaSeparated declarator budget).Gives c fun ds read _ ↦
      ∀ d, ds = [d] → d.initializer = none → read.length = 1 := by
  cases budget with
  | zero =>
    refine gives_bind ((gives_declarator c).mono fun d read _ _ hd ↦ gives_pure ?_)
    rintro _ ⟨⟩ hnone
    simpa using hd hnone
  | succ budget =>
    refine gives_bind ((gives_declarator c).mono fun d read c₁ _ hd ↦ ?_)
    refine gives_bind ((gives_eat (by decide) c₁).mono ?_)
    rintro b _ c₂ - (⟨rfl, comma, rfl, -⟩ | ⟨rfl, rfl⟩)
    · refine gives_bind ((gives_commaSeparated_ne_nil forward_declarator budget c₂).mono
        fun more _ _ _ hmore ↦ gives_pure ?_)
      rintro _ ⟨⟩
      exact absurd rfl hmore
    · refine gives_pure ?_
      rintro _ ⟨⟩ hnone
      simpa using hd hnone

end Parser

namespace CreatedVariables

open Companion.Parser

variable (v : CreatedVariables) {s : Span} {after : List Token}

theorem isWritten : Phrase.Written (.type v.type) v.written := by
  obtain ⟨s, rest, s', ds, h⟩ := v.isType
  exact written_of_typeRef h

/-- Reading the initializer ends among the tokens of the type if and only if the type splits it. -/
theorem scans (after : List Token) :
    Scans (v.type.splits true) (v.new :: v.written) (v.behind ++ after) := by
  have hfollowed : followed (v.behind ++ after) = true := by
    simp [behind, followed, v.opened_kind, Cursor.followsTypeArgs]
  have hnew : Scans false [v.new] (v.written ++ (v.behind ++ after)) :=
    scans_mark (by simp [Token.kind_of_isWord v.new_word])
  have htype : Scans (v.type.splits true) v.written (v.behind ++ after) :=
    hfollowed ▸ scans_of_written v.isWritten (by simp)
  exact hnew.append htype

theorem initializer_of_not_splits (h : v.type.splits true = false) :
    initializer ⟨s, v.new :: (v.written ++ (v.behind ++ after))⟩ =
      ⟨.ok (v.new.span.merge v.closed.span),
        ⟨v.closed.span, v.comma :: v.second :: v.semicolon :: after⟩, []⟩ := by
  have hscans := v.scans after
  rw [h] at hscans
  obtain ⟨budget, s', last, hbudget, heq⟩ :=
    hscans ((v.new :: (v.written ++ (v.behind ++ after))).length + 1) s v.new.span (by simp)
  obtain ⟨budget, rfl⟩ := Nat.exists_eq_succ_of_ne_zero (Nat.ne_zero_of_lt hbudget)
  have hpair : Kind.Pair v.opened.kind v.closed.kind :=
    .of_pair (.inl ⟨v.opened_kind, v.closed_kind⟩)
  have hbehind : v.behind ++ after =
      v.opened :: (v.inside ++ v.closed :: v.comma :: v.second :: v.semicolon :: after) := by
    simp [behind]
  rw [hbehind, initializerWithin_group hpair v.isNested,
    initializerWithin_of_ends (by rw [v.comma_kind]; rfl), ← hbehind] at heq
  have hkind : Cursor.kind ⟨s, v.new :: (v.written ++ (v.behind ++ after))⟩ = .ident :=
    Token.kind_of_isWord v.new_word
  rw [initializer, hkind, if_neg (by decide)]
  exact bind_of_ok heq

theorem initializer_of_splits (s : Span) (after : List Token) (h : v.type.splits true = true) :
    ∃ span s' comma back, comma.kind = .comma ∧
      initializer ⟨s, v.new :: (v.written ++ (v.behind ++ after))⟩ =
        ⟨.ok span, ⟨s', comma :: (back ++ (v.behind ++ after))⟩, []⟩ := by
  have hscans := v.scans after
  rw [h] at hscans
  obtain ⟨s', last, comma, back, hcomma, heq⟩ :=
    hscans ((v.new :: (v.written ++ (v.behind ++ after))).length + 1) s v.new.span (by simp)
  have hkind : Cursor.kind ⟨s, v.new :: (v.written ++ (v.behind ++ after))⟩ = .ident :=
    Token.kind_of_isWord v.new_word
  refine ⟨v.new.span.merge last, s', comma, back, hcomma, ?_⟩
  rw [initializer, hkind, if_neg (by decide)]
  exact bind_of_ok heq

theorem declarators_of_not_splits (h : v.type.splits true = false) :
    Parser.declarators ⟨s, v.tokens ++ after⟩ =
      ⟨.ok v.declarators, ⟨v.semicolon.span, after⟩, []⟩ := by
  have htokens : v.tokens ++ after =
      v.first :: v.assign :: v.new :: (v.written ++ (v.behind ++ after)) := by simp [tokens]
  have hfirst : declarator ⟨s, v.tokens ++ after⟩ =
      ⟨.ok ⟨v.first.name, v.first.span, some (v.new.span.merge v.closed.span)⟩,
        ⟨v.closed.span, v.comma :: v.second :: v.semicolon :: after⟩, []⟩ := by
    rw [htokens]
    exact declarator_of_initializer v.first_kind v.assign_kind (v.initializer_of_not_splits h)
  have hsecond (budget : Nat) :
      commaSeparated declarator budget ⟨v.comma.span, v.second :: v.semicolon :: after⟩ =
        ⟨.ok [⟨v.second.name, v.second.span, none⟩], ⟨v.second.span, v.semicolon :: after⟩, []⟩ :=
    commaSeparated_one (declarator_bare v.second_kind (by simp [v.semicolon_kind]))
      (show v.semicolon.kind ≠ .comma by simp [v.semicolon_kind])
  obtain ⟨budget, hbudget⟩ : ∃ budget, (v.tokens ++ after).length = budget + 1 := ⟨_, rfl⟩
  have hall : commaSeparated declarator (budget + 1) ⟨s, v.tokens ++ after⟩ =
      ⟨.ok v.declarators, ⟨v.second.span, v.semicolon :: after⟩, []⟩ :=
    (commaSeparated_cons hfirst v.comma_kind).trans (bind_of_ok (hsecond budget))
  have hexpect : expect .semicolon ⟨v.second.span, v.semicolon :: after⟩ =
      ⟨.ok v.semicolon, ⟨v.semicolon.span, after⟩, []⟩ := by
    rw [expect, if_pos (show Cursor.kind ⟨_, v.semicolon :: after⟩ = _ from v.semicolon_kind),
      Cursor.next_cons (by simp [v.semicolon_kind])]
    rfl
  rw [Parser.declarators, look_bind, hbudget, bind_of_ok hall]
  exact bind_of_ok hexpect

/-- If the initializer ends early, too much stands in front of the `;` for one more variable. -/
theorem declarators_ne_of_splits (h : v.type.splits true = true) :
    Parser.declarators ⟨s, v.tokens ++ after⟩ ≠
      ⟨.ok v.declarators, ⟨v.semicolon.span, after⟩, []⟩ := by
  intro hall
  obtain ⟨span, s', comma, back, hcomma, hinit⟩ :=
    v.initializer_of_splits v.assign.span after h
  have htokens : v.tokens ++ after =
      v.first :: v.assign :: v.new :: (v.written ++ (v.behind ++ after)) := by simp [tokens]
  have hfirst := declarator_of_initializer (s := s) v.first_kind v.assign_kind hinit
  rw [← htokens] at hfirst
  obtain ⟨budget, hbudget⟩ : ∃ budget, (v.tokens ++ after).length = budget + 1 := ⟨_, rfl⟩
  -- behind the comma one more variable and the `;` are read
  have hmore : (do
      let more ← commaSeparated declarator budget
      let _ ← expect .semicolon
      pure (⟨v.first.name, v.first.span, some span⟩ :: more) : Parser (List Declarator)).Gives
        ⟨comma.span, back ++ (v.behind ++ after)⟩ fun ds read _ ↦
          ds = v.declarators → read.length = 2 := by
    refine gives_bind ((gives_commaSeparated_declarator budget _).mono fun more read c' _ hone ↦ ?_)
    refine gives_bind ((gives_expect (by decide) c').mono ?_)
    rintro semicolon _ c'' - ⟨rfl, -⟩
    refine gives_pure fun hds ↦ ?_
    have hread := hone _ (List.cons.inj hds).2 rfl
    simp [hread]
  have heq : Parser.declarators ⟨s, v.tokens ++ after⟩ = (do
      let more ← commaSeparated declarator budget
      let _ ← expect .semicolon
      pure (⟨v.first.name, v.first.span, some span⟩ :: more) : Parser (List Declarator))
        ⟨comma.span, back ++ (v.behind ++ after)⟩ := by
    rw [Parser.declarators, look_bind, hbudget, bind_of_same (commaSeparated_cons hfirst hcomma),
      bind_assoc]
    rfl
  obtain ⟨read, hreads, hgives⟩ := hmore
  rw [← heq, hall] at hreads hgives
  have hlength := congrArg List.length hreads.rest_eq
  simp only [hgives _ rfl rfl, behind, List.length_append, List.length_cons] at hlength
  omega

/-- The two variables of `x = new T(...), y;` are read, the first with all of its initializer, if
and only if the type does not split it. A named type that has no tuple in it does not. -/
theorem declarators_eq_iff (v : CreatedVariables) (s : Span) (after : List Token) :
    (Parser.declarators ⟨s, v.tokens ++ after⟩ =
        ⟨.ok v.declarators, ⟨v.semicolon.span, after⟩, []⟩ ↔ v.type.splits true = false) ∧
      ∀ fromGlobal segs span, v.type = .named fromGlobal segs span → v.type.hasTuple = false →
        v.type.splits true = false := by
  constructor
  · constructor
    · intro hall
      by_contra hsplits
      exact v.declarators_ne_of_splits (Bool.eq_true_of_not_eq_false hsplits) hall
    · exact v.declarators_of_not_splits
  · intro fromGlobal segs span htype htuple
    rw [htype, TypeRef.hasTuple] at htuple
    rw [htype, TypeRef.splits]
    exact TypeRef.segmentsSplit_eq_false htuple

/-- The tokens of `N<(int,int),B>` from an offset on. -/
private def pairArguments (n : Nat) : List Token :=
  [⟨.ident, ⟨n, n + 1⟩, "N"⟩, ⟨.lt, ⟨n + 1, n + 2⟩, "<"⟩, ⟨.lparen, ⟨n + 2, n + 3⟩, "("⟩,
    ⟨.ident, ⟨n + 3, n + 6⟩, "int"⟩, ⟨.comma, ⟨n + 6, n + 7⟩, ","⟩,
    ⟨.ident, ⟨n + 7, n + 10⟩, "int"⟩, ⟨.rparen, ⟨n + 10, n + 11⟩, ")"⟩,
    ⟨.comma, ⟨n + 11, n + 12⟩, ","⟩, ⟨.ident, ⟨n + 12, n + 13⟩, "B"⟩, ⟨.gt, ⟨n + 13, n + 14⟩, ">"⟩]

/-- The tokens of `N<A[,]?,B>` from an offset on. -/
private def plainArguments (n : Nat) : List Token :=
  [⟨.ident, ⟨n, n + 1⟩, "N"⟩, ⟨.lt, ⟨n + 1, n + 2⟩, "<"⟩, ⟨.ident, ⟨n + 2, n + 3⟩, "A"⟩,
    ⟨.lbracket, ⟨n + 3, n + 4⟩, "["⟩, ⟨.comma, ⟨n + 4, n + 5⟩, ","⟩,
    ⟨.rbracket, ⟨n + 5, n + 6⟩, "]"⟩, ⟨.question, ⟨n + 6, n + 7⟩, "?"⟩,
    ⟨.comma, ⟨n + 7, n + 8⟩, ","⟩, ⟨.ident, ⟨n + 8, n + 9⟩, "B"⟩, ⟨.gt, ⟨n + 9, n + 10⟩, ">"⟩]

/-- The variables `x=new T(),y;` of a type that ends at an offset. -/
private def created (type : TypeRef) (written : List Token) (n : Nat)
    (isType : ∃ s rest s' ds, typeRef ⟨s, written ++ rest⟩ = ⟨.ok type, ⟨s', rest⟩, ds⟩) :
    CreatedVariables where
  first := ⟨.ident, ⟨0, 1⟩, "x"⟩
  assign := ⟨.eq, ⟨1, 2⟩, "="⟩
  new := ⟨.ident, ⟨2, 5⟩, "new"⟩
  type := type
  written := written
  opened := ⟨.lparen, ⟨n, n + 1⟩, "("⟩
  inside := []
  closed := ⟨.rparen, ⟨n + 1, n + 2⟩, ")"⟩
  comma := ⟨.comma, ⟨n + 2, n + 3⟩, ","⟩
  second := ⟨.ident, ⟨n + 3, n + 4⟩, "y"⟩
  semicolon := ⟨.semicolon, ⟨n + 4, n + 5⟩, ";"⟩
  first_kind := rfl
  assign_kind := rfl
  new_word := by decide
  isType := isType
  opened_kind := rfl
  isNested := .nil
  closed_kind := rfl
  comma_kind := rfl
  second_kind := rfl
  semicolon_kind := rfl

/-- The variables of `x=new N<A[,]?,B>(),y;` are read. -/
theorem declarators_eq_iff_plainArguments :
    ∃ v : CreatedVariables, v.written = plainArguments 6 ∧
      Parser.declarators ⟨.point 0, v.tokens ++ [Token.endAt 21]⟩ =
        ⟨.ok v.declarators, ⟨v.semicolon.span, [Token.endAt 21]⟩, []⟩ := by
  obtain ⟨type, s', ds, hread, hfacts⟩ := exists_typeRef_of (.point 0)
    (plainArguments 6 ++ [Token.endAt 16]) [Token.endAt 16]
    (fun t ↦ t.name?.isSome && !t.hasTuple) (by decide +kernel) (by decide +kernel)
  simp only [Bool.and_eq_true, Bool.not_eq_true'] at hfacts
  let v := created type (plainArguments 6) 16 ⟨_, _, s', ds, hread⟩
  obtain ⟨hiff, hnamed⟩ := declarators_eq_iff v (.point 0) [Token.endAt 21]
  refine ⟨v, rfl, hiff.mpr ?_⟩
  cases type with
  | named fromGlobal segs span => exact hnamed fromGlobal segs span rfl hfacts.2
  | _ => cases hfacts.1

/-- Of `x=new N<(int,int),B>(),y;` the variables are not read: the initializer ends at the comma
behind the tuple. -/
theorem not_forall_declarators_eq :
    ¬ ∀ (v : CreatedVariables) (s : Span) (after : List Token),
      Parser.declarators ⟨s, v.tokens ++ after⟩ =
        ⟨.ok v.declarators, ⟨v.semicolon.span, after⟩, []⟩ := by
  intro hall
  obtain ⟨type, s', ds, hread, hsplits⟩ := exists_typeRef_of (.point 0)
    (pairArguments 6 ++ [Token.endAt 20]) [Token.endAt 20] (TypeRef.splits true)
    (by decide +kernel) (by decide +kernel)
  let v := created type (pairArguments 6) 20 ⟨_, _, s', ds, hread⟩
  exact v.declarators_ne_of_splits hsplits (hall v (.point 0) [Token.endAt 25])

end CreatedVariables

end Companion
