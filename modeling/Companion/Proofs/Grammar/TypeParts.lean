import Companion.Proofs.Grammar.TypeSpelling

/-!
Reading the parts of a reference. Each of the parsers that make up the parser of types reads the
tokens of its part back, if the parser of the types inside does so: type arguments, segments and
names (`Parser.takes_nameWith`), tuples (`Parser.takes_tupleWith`), types without suffixes
(`Parser.takes_simpleTypeWith_named`), and the brackets and question marks behind them
(`Parser.suffixesWithin_brackets`, `Parser.suffixesWithin_question`). What is read is the same
reference at another place and without escapes (`TypeRef.ReadAs`).
-/

set_option autoImplicit false
set_option relaxedAutoImplicit false

namespace Companion

open Token

namespace TypeRef

/-! ### Reading -/

/-- A name does not go on with the tokens. -/
def EndsName (rest : List Bare) : Prop :=
  kindAt rest 0 ≠ .lt ∧ kindAt rest 0 ≠ .dot ∧ kindAt rest 0 ≠ .doubleColon

/-- A type does not go on with the tokens. -/
def EndsType (rest : List Bare) : Prop :=
  EndsName rest ∧ kindAt rest 0 ≠ .question ∧ kindAt rest 0 ≠ .lbracket

/-- The same reference at another place and without escapes. -/
def ReadAs (t t' : TypeRef) : Prop := t'.renamed id = t.renamed unescape

theorem renamedAll_of_forall₂ {ts ts' : List TypeRef} (h : List.Forall₂ ReadAs ts ts') :
    renamedAll id ts' = renamedAll unescape ts := by
  induction h with
  | nil => rfl
  | cons hhead _ ih => rw [renamedAll, renamedAll, hhead, ih]

theorem tokensOfSegment_eq_cons (s : Segment) :
    ∃ bs, tokensOfSegment s = (.ident, s.ident) :: bs := by
  obtain ⟨ident, args, span⟩ := s
  exact ⟨_, by rw [tokensOfSegment.eq_def]; rfl⟩

theorem intercalate_cons (b mark : Bare) (bs : List Bare) (lists : List (List Bare)) :
    ∃ bs', [mark].intercalate ((b :: bs) :: lists) = b :: bs' := by
  cases lists with
  | nil => exact ⟨bs, List.intercalate_singleton⟩
  | cons list lists => exact ⟨_, List.intercalate_cons_cons⟩

/-- A name starts with its first identifier. -/
theorem segmentTokens_cons_eq_cons (s : Segment) (segs : List Segment) :
    ∃ bs, [(.dot, ".")].intercalate (segmentTokens (s :: segs)) = (.ident, s.ident) :: bs := by
  obtain ⟨bs, hbs⟩ := tokensOfSegment_eq_cons s
  rw [segmentTokens, hbs]
  exact intercalate_cons _ _ _ _

/-- A type starts with an identifier or an opening parenthesis. -/
theorem Printable.tokens_eq_cons {t : TypeRef} (h : t.Printable) :
    ∃ b bs, t.tokens = b :: bs ∧ (b.1 = .ident ∨ b.1 = .lparen) := by
  induction h with
  | predefined p span => exact ⟨_, _, rfl, .inl rfl⟩
  | @named fromGlobal segs span hne hnames hplain hargs ih =>
    cases fromGlobal with
    | true => exact ⟨_, _, rfl, .inl rfl⟩
    | false =>
      cases segs with
      | nil => exact absurd rfl hne
      | cons s segs =>
        obtain ⟨bs, hbs⟩ := segmentTokens_cons_eq_cons s segs
        exact ⟨_, bs, by rw [tokens, hbs]; rfl, .inl rfl⟩
  | array helement hpos hrank ih =>
    obtain ⟨b, bs, hbs, hb⟩ := ih
    exact ⟨b, _, by rw [tokens, hbs]; rfl, hb⟩
  | nullable hinner hsingle ih =>
    obtain ⟨b, bs, hbs, hb⟩ := ih
    exact ⟨b, _, by rw [tokens, hbs]; rfl, hb⟩
  | tuple hne helements ih => exact ⟨_, _, rfl, .inr rfl⟩

theorem endsType_comma (rest : List Bare) : EndsType ((.comma, ",") :: rest) := by
  simp [EndsType, EndsName]

theorem endsType_gt (rest : List Bare) : EndsType ((.gt, ">") :: rest) := by
  simp [EndsType, EndsName]

theorem endsType_rparen (rest : List Bare) : EndsType ((.rparen, ")") :: rest) := by
  simp [EndsType, EndsName]

end TypeRef

namespace Parser

open TypeRef

variable {type : Parser TypeRef} {budget : Nat} {rest : List Bare}

theorem takes_typeArgsWith {args : List TypeRef} (hne : args ≠ [])
    (hprintable : ∀ a ∈ args, a.Printable)
    (htype : ∀ a ∈ args, ∀ rest, EndsType rest → type.Takes a.tokens rest (ReadAs a))
    (hbudget : args.length ≤ budget + 1) :
    (typeArgsWith type budget).Takes
      ((.lt, "<") :: ([(.comma, ",")].intercalate (args.map tokens) ++ [(.gt, ">")])) rest
      (List.Forall₂ ReadAs args) := by
  have hlist : (commaSeparated type budget).Takes ([(.comma, ",")].intercalate (args.map tokens))
      ((.gt, ">") :: rest) (List.Forall₂ ReadAs args) :=
    takes_commaSeparated htype endsType_comma hne (endsType_gt _) (by simp) hbudget
  have hstart : kindAt (([(.comma, ",")].intercalate (args.map tokens) ++ [(.gt, ">")]) ++ rest) 0 ≠
      .gt := by
    cases args with
    | nil => exact absurd rfl hne
    | cons a as =>
      obtain ⟨b, bs, hbs, hb⟩ := (hprintable a List.mem_cons_self).tokens_eq_cons
      obtain ⟨bs', hbs'⟩ := intercalate_cons b (.comma, ",") bs (as.map tokens)
      rw [List.map_cons, hbs, hbs', List.cons_append, List.cons_append, kindAt_cons_zero]
      rintro hgt
      rcases hb with hb | hb <;> rw [hgt] at hb <;> cases hb
  refine (takes_expect (b := (.lt, "<")) Kind.noConfusion).cons_bind fun _ _ ↦
    takes_check_bind ?_
  rw [beq_false_of_ne hstart, if_neg (by simp)]
  refine hlist.bind fun as has ↦ ?_
  exact (takes_expect (b := (.gt, ">")) Kind.noConfusion).bind_nil fun _ _ ↦ takes_pure has

theorem takes_segmentWith {s : Segment} (hprintable : ∀ a ∈ s.args, a.Printable)
    (htype : ∀ a ∈ s.args, ∀ rest, EndsType rest → type.Takes a.tokens rest (ReadAs a))
    (hbudget : s.args.length ≤ budget + 1) (hrest : kindAt rest 0 ≠ .lt) :
    (segmentWith type budget).Takes (tokensOfSegment s) rest
      fun s' ↦ renamedSegment id s' = renamedSegment unescape s := by
  obtain ⟨ident, args, span⟩ := s
  simp only [Segment.args] at hprintable htype hbudget
  have hend (named : String × Span) (hnamed : named.1 = unescape ident) (as : List TypeRef)
      (has : List.Forall₂ ReadAs args as) :
      (do let span ← spanFrom named.2; pure (Segment.mk named.1 as span)).Takes [] rest
        fun s' ↦ renamedSegment id s' = renamedSegment unescape (.mk ident args span) :=
    takes_spanFrom_bind fun _ ↦ takes_pure (by
      rw [renamedSegment, renamedSegment, renamedAll_of_forall₂ has, hnamed]; rfl)
  cases args with
  | nil =>
    refine (takes_identifier ident).bind_nil fun named hnamed ↦ takes_check_bind ?_
    rw [List.nil_append, beq_false_of_ne hrest, if_neg (by simp)]
    refine (takes_pure_self []).bind_nil fun as has ↦ hend named hnamed as ?_
    rw [has]
    exact .nil
  | cons a as =>
    rw [tokensOfSegment, tokensEach_eq_map]
    refine (takes_identifier ident).bind fun named hnamed ↦ takes_check_bind ?_
    rw [if_pos (by rfl)]
    exact (takes_typeArgsWith (List.cons_ne_nil a as) hprintable htype hbudget).bind_nil
      fun as has ↦ hend named hnamed as has

/-- A single name, with no point behind it. -/
theorem takes_segmentsWith_one {segment : Parser Segment} {s : Segment}
    (hs : segment.Takes (tokensOfSegment s) rest
      fun s' ↦ renamedSegment id s' = renamedSegment unescape s)
    (hrest : kindAt rest 0 ≠ .dot) (more : Nat) :
    (segmentsWith segment more).Takes (tokensOfSegment s) rest
      fun segs' ↦ renamedSegments id segs' = renamedSegments unescape [s] := by
  have hsingle (s' : Segment) (hs' : renamedSegment id s' = renamedSegment unescape s) :
      (pure [s'] : Parser (List Segment)).Takes [] rest
        fun segs' ↦ renamedSegments id segs' = renamedSegments unescape [s] :=
    takes_pure (by rw [renamedSegments, renamedSegments, hs']; rfl)
  cases more with
  | zero => exact hs.bind_nil hsingle
  | succ more =>
    refine hs.bind_nil fun s' hs' ↦ takes_look_bind fun c hc ↦ ?_
    rw [List.nil_append] at hc
    rw [hc.kind, beq_false_of_ne hrest, Bool.false_and, if_neg (by simp)]
    exact hsingle s' hs'

/-- Names with points between. -/
theorem takes_segmentsWith {segment : Parser Segment} {segs : List Segment}
    (hsegment : ∀ s ∈ segs, ∀ rest, kindAt rest 0 ≠ .lt → segment.Takes (tokensOfSegment s) rest
      fun s' ↦ renamedSegment id s' = renamedSegment unescape s)
    (hne : segs ≠ []) (hrest : EndsName rest) {more : Nat} (hmore : segs.length ≤ more + 1) :
    (segmentsWith segment more).Takes ([(.dot, ".")].intercalate (segs.map tokensOfSegment)) rest
      fun segs' ↦ renamedSegments id segs' = renamedSegments unescape segs := by
  induction segs generalizing more with
  | nil => exact absurd rfl hne
  | cons s segs ih =>
    obtain ⟨hs, hsegs⟩ := List.forall_mem_cons.mp hsegment
    cases segs with
    | nil =>
      rw [List.map_singleton, List.intercalate_singleton]
      exact takes_segmentsWith_one (hs rest hrest.1) hrest.2.1 more
    | cons next segs =>
      cases more with
      | zero => simp at hmore
      | succ more =>
        have hnext := ih hsegs (List.cons_ne_nil _ _) (Nat.le_of_succ_le_succ hmore)
        rw [List.map_cons, List.map_cons, List.intercalate_cons_cons, List.append_assoc,
          List.singleton_append, ← List.map_cons]
        refine (hs _ (by simp)).bind fun s' hs' ↦ takes_look_bind fun c hc ↦ ?_
        have hdot : (c.kind == .dot && c.kindAhead 1 == .ident) = true := by
          obtain ⟨bs, hbs⟩ := segmentTokens_cons_eq_cons next segs
          rw [hc.kind, hc.kindAhead, ← segmentTokens_eq_map, hbs]
          rfl
        rw [hdot, if_pos rfl]
        refine (takes_advance (b := (.dot, ".")) Kind.noConfusion).cons_bind fun _ _ ↦ ?_
        exact hnext.bind_nil fun segs' hsegs' ↦
          takes_pure (by rw [renamedSegments, renamedSegments, hs', hsegs'])

theorem takes_qualifier_global : qualifier.Takes [(.ident, "global"), (.doubleColon, "::")] rest
    (· = (true, [])) := by
  refine takes_look_bind fun c hc ↦ ?_
  rw [hc.kind, hc.kindAhead]
  refine (takes_identifier "global").cons_bind fun word hword ↦ ?_
  refine (takes_advance (b := (.doubleColon, "::")) Kind.noConfusion).bind_nil fun _ _ ↦ ?_
  rw [hword, if_pos (by decide)]
  exact takes_pure rfl

theorem takes_qualifier_none (hrest : kindAt rest 1 ≠ .doubleColon) :
    qualifier.Takes [] rest (· = (false, [])) := by
  refine takes_look_bind fun c hc ↦ ?_
  rw [List.nil_append] at hc
  rw [hc.kind, hc.kindAhead, beq_false_of_ne hrest, Bool.and_false, if_neg (by simp)]
  exact takes_pure rfl

/-- No `::` stands behind the first identifier of a name. -/
theorem kindAt_segmentTokens_one (s : Segment) (segs : List Segment) {rest : List Bare}
    (hrest : kindAt rest 0 ≠ .doubleColon) :
    kindAt ([(.dot, ".")].intercalate (segmentTokens (s :: segs)) ++ rest) 1 ≠ .doubleColon := by
  obtain ⟨ident, args, span⟩ := s
  cases args with
  | cons a as => cases segs <;> simp [segmentTokens, tokensOfSegment]
  | nil =>
    cases segs with
    | nil => simpa [segmentTokens, tokensOfSegment] using hrest
    | cons next segs => simp [segmentTokens, tokensOfSegment]

/-- A qualified name. -/
theorem takes_nameWith {fromGlobal : Bool} {segs : List Segment} {span : Span}
    (hprintable : ∀ s ∈ segs, ∀ a ∈ s.args, a.Printable)
    (htype : ∀ s ∈ segs, ∀ a ∈ s.args, ∀ rest, EndsType rest →
      type.Takes a.tokens rest (ReadAs a))
    (hbudget : ∀ s ∈ segs, s.args.length ≤ budget + 1) (hne : segs ≠ []) (hrest : EndsName rest)
    (hmore : segs.length ≤ budget + 1) :
    (nameWith type budget).Takes (TypeRef.named fromGlobal segs span).tokens rest
      fun n ↦ ReadAs (.named fromGlobal segs span) (TypeRef.ofName n) := by
  have hsegs := takes_segmentsWith (fun s hs _ ↦
    takes_segmentWith (hprintable s hs) (htype s hs) (hbudget s hs)) hne hrest hmore
  rw [← segmentTokens_eq_map] at hsegs
  have hend (start : Span) (segs' : List Segment)
      (hsegs' : renamedSegments id segs' = renamedSegments unescape segs) :
      (do
        let span ← spanFrom start
        pure (⟨fromGlobal, segs', span⟩ : Name)).Takes [] rest
        fun n ↦ ReadAs (.named fromGlobal segs span) (TypeRef.ofName n) :=
    takes_spanFrom_bind fun _ ↦ takes_pure (by
      rw [ReadAs, TypeRef.ofName, renamed, renamed, hsegs'])
  refine takes_look_bind fun c hc ↦ ?_
  cases fromGlobal with
  | true =>
    refine takes_qualifier_global.bind fun q hq ↦ ?_
    subst hq
    exact hsegs.bind_nil fun segs' hsegs' ↦ hend _ segs' hsegs'
  | false =>
    cases segs with
    | nil => exact absurd rfl hne
    | cons s segs =>
      refine (takes_qualifier_none (kindAt_segmentTokens_one s segs hrest.2.2)).nil_bind
        fun q hq ↦ ?_
      subst hq
      exact hsegs.bind_nil fun segs' hsegs' ↦ hend _ segs' hsegs'

theorem takes_tupleWith {es : List TypeRef} {span : Span} (hne : es ≠ [])
    (htype : ∀ e ∈ es, ∀ rest, EndsType rest → type.Takes e.tokens rest (ReadAs e))
    (hbudget : es.length ≤ budget + 1) :
    (tupleWith type budget).Takes (TypeRef.tuple es span).tokens rest
      (ReadAs (.tuple es span)) := by
  let follows (rest : List Bare) : Prop := EndsType rest ∧ kindAt rest 0 ≠ .ident
  have helement : ∀ e ∈ es, ∀ rest, follows rest →
      (tupleElementWith type).Takes e.tokens rest (ReadAs e) := by
    intro e he rest hrest
    exact (htype e he rest hrest.1).bind_nil fun t ht ↦
      takes_eat_bind_of_ne hrest.2 (takes_pure ht)
  have hlist := takes_commaSeparated helement (fun _ ↦ ⟨endsType_comma _, by simp⟩) hne
    ⟨endsType_rparen rest, by simp⟩ (by simp) hbudget
  rw [tokens, tokensEach_eq_map]
  refine (takes_expect (b := (.lparen, "(")) Kind.noConfusion).cons_bind fun opened _ ↦ ?_
  refine hlist.bind fun es' hes' ↦ ?_
  refine (takes_expect (b := (.rparen, ")")) Kind.noConfusion).bind_nil fun closed _ ↦ takes_pure ?_
  rw [ReadAs, renamed, renamed, renamedAll_of_forall₂ hes']

theorem takes_commas (n : Nat) (hrest : kindAt rest 0 ≠ .comma) {budget : Nat}
    (hbudget : n < budget) :
    (commas budget).Takes (List.replicate n (.comma, ",")) rest (· = n) := by
  induction n generalizing budget with
  | zero =>
    obtain ⟨budget, rfl⟩ := Nat.exists_eq_succ_of_ne_zero (by omega : budget ≠ 0)
    exact takes_eat_bind_of_ne hrest (takes_pure rfl)
  | succ n ih =>
    obtain ⟨budget, rfl⟩ := Nat.exists_eq_succ_of_ne_zero (by omega : budget ≠ 0)
    refine (takes_eat (b := (.comma, ",")) Kind.noConfusion).cons_bind fun more hmore ↦ ?_
    rw [hmore, if_pos rfl]
    exact (ih (by omega)).bind_nil fun m hm ↦ takes_pure (by rw [hm])

theorem takes_simpleTypeWith_predefined (p : Predefined) (span : Span) :
    (simpleTypeWith type budget).Takes (TypeRef.predefined p span).tokens rest
      (ReadAs (.predefined p span)) := by
  refine takes_look_bind fun c hc ↦ ?_
  have hkind : c.current.kind = .ident := hc.kind_cons
  have hword : predefined? c.current = some p := by
    rw [predefined?, Cursor.Spells.text hc]
    cases p <;> decide
  rw [hkind]
  dsimp only
  rw [hword]
  exact (takes_advance (b := (.ident, p.keyword)) Kind.noConfusion).bind_nil fun _ _ ↦
    takes_pure rfl

theorem takes_simpleTypeWith_named {fromGlobal : Bool} {segs : List Segment} {span : Span}
    (hfirst : fromGlobal = false → ∀ s ∈ segs.head?, Predefined.ofKeyword? s.ident = none)
    (hname : (nameWith type budget).Takes (TypeRef.named fromGlobal segs span).tokens rest
      fun n ↦ ReadAs (.named fromGlobal segs span) (TypeRef.ofName n)) (hne : segs ≠ []) :
    (simpleTypeWith type budget).Takes (TypeRef.named fromGlobal segs span).tokens rest
      (ReadAs (.named fromGlobal segs span)) := by
  have hstart : ∃ t bs, (TypeRef.named fromGlobal segs span).tokens = (.ident, t) :: bs ∧
      Predefined.ofKeyword? t = none := by
    cases fromGlobal with
    | true => exact ⟨"global", _, rfl, by decide⟩
    | false =>
      cases segs with
      | nil => exact absurd rfl hne
      | cons s segs =>
        obtain ⟨bs, hbs⟩ := segmentTokens_cons_eq_cons s segs
        exact ⟨s.ident, bs, hbs, hfirst rfl s rfl⟩
  obtain ⟨t, bs, hbs, hplain⟩ := hstart
  refine takes_look_bind fun c hc ↦ ?_
  rw [hbs, List.cons_append] at hc
  have hkind : c.current.kind = .ident := hc.kind_cons
  have hword : predefined? c.current = none := by rw [predefined?, hc.text, hplain]
  rw [hkind]
  dsimp only
  rw [hword]
  exact hname.map fun _ hn ↦ hn

theorem takes_simpleTypeWith_tuple {es : List TypeRef} {span : Span}
    (htuple : (tupleWith type budget).Takes (TypeRef.tuple es span).tokens rest
      (ReadAs (.tuple es span))) :
    (simpleTypeWith type budget).Takes (TypeRef.tuple es span).tokens rest
      (ReadAs (.tuple es span)) := by
  refine takes_look_bind fun c hc ↦ ?_
  have hkind : c.current.kind = .lparen := hc.kind_cons
  rw [hkind]
  exact htuple

theorem suffixesWithin_of_ends {budget : Nat} {t : TypeRef} (hrest : EndsType rest) {c : Cursor}
    (hc : c.Spells rest) : suffixesWithin budget t c = ⟨.ok t, c, []⟩ := by
  cases budget with
  | zero => rfl
  | succ budget =>
    have hquestion : (c.kind == .question) = false := by
      rw [hc.kind, beq_false_of_ne hrest.2.1]
    have hbrackets : (c.kind == .lbracket &&
        (c.kindAhead 1 == .rbracket || c.kindAhead 1 == .comma)) = false := by
      rw [hc.kind, beq_false_of_ne hrest.2.2, Bool.false_and]
    rw [suffixesWithin, look_bind, check_bind, hquestion, hbrackets]
    rfl

theorem suffixesWithin_question (budget : Nat) {t i : TypeRef} (span : Span) (ht : ReadAs i t)
    {c : Cursor} (hc : c.Spells ((.question, "?") :: rest)) :
    ∃ t' c', suffixesWithin (budget + 1) t c = suffixesWithin budget t' c' ∧ c'.Spells rest ∧
      ReadAs (.nullable i span) t' := by
  have hquestion : (c.kind == .question) = true := by rw [hc.kind_cons]; rfl
  obtain ⟨mark, c', hadvance, hc', -⟩ :=
    takes_advance (b := (.question, "?")) Kind.noConfusion c hc
  refine ⟨.nullable t (t.span.merge mark.span), c', ?_, hc', ?_⟩
  · rw [suffixesWithin, look_bind, check_bind, hquestion, if_pos rfl, bind_of_ok hadvance]
  · rw [ReadAs, renamed, renamed, ht]

theorem suffixesWithin_brackets {budget rank : Nat} {t e : TypeRef} (span : Span)
    (ht : ReadAs e t) (hpos : 1 ≤ rank) (hrank : rank ≤ maxRank) (hbudget : rank ≤ budget)
    {c : Cursor} (hc : c.Spells ((.lbracket, "[") ::
      (List.replicate (rank - 1) (.comma, ",") ++ (.rbracket, "]") :: rest))) :
    ∃ t' c', suffixesWithin (budget + 1) t c = suffixesWithin budget t' c' ∧ c'.Spells rest ∧
      ReadAs (.array e rank span) t' := by
  have hquestion : (c.kind == .question) = false := by rw [hc.kind_cons]; rfl
  have hbrackets : (c.kind == .lbracket &&
      (c.kindAhead 1 == .rbracket || c.kindAhead 1 == .comma)) = true := by
    rw [hc.kind_cons, hc.kindAhead]
    cases hcount : rank - 1 with
    | zero => rfl
    | succ n => rfl
  obtain ⟨_, c₁, hadvance, hc₁, -⟩ :=
    takes_advance (b := (.lbracket, "[")) Kind.noConfusion c hc
  obtain ⟨n, c₂, hcommas, hc₂, rfl⟩ :=
    takes_commas (rank - 1) (by simp) (by omega : rank - 1 < budget) c₁ hc₁
  obtain ⟨closed, c₃, hexpect, hc₃, -⟩ :=
    takes_expect (b := (.rbracket, "]")) Kind.noConfusion c₂ hc₂
  refine ⟨.array t (min (rank - 1 + 1) maxRank) (t.span.merge closed.span), c₃, ?_, hc₃, ?_⟩
  · rw [suffixesWithin, look_bind, check_bind, hquestion, hbrackets, if_neg (by simp), if_pos rfl,
      bind_of_ok hadvance, bind_of_ok hcommas, bind_of_ok hexpect]
  · have hsame : min (rank - 1 + 1) maxRank = rank := by
      rw [Nat.sub_add_cancel hpos, Nat.min_eq_left hrank]
    rw [ReadAs, renamed, renamed, ht, hsame]

end Parser

end Companion
