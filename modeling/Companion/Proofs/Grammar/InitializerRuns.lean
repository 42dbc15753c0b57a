import Companion.Proofs.Grammar.OpaqueMembers
import Companion.Proofs.Grammar.WrittenTypes

/-!
Types in the initializer of a variable. Where the tokens ahead are recognised as type arguments they
are passed over as a whole; they are not if a tuple is among them, and then a comma outside of its
brackets ends the initializer (`Parser.scans_args`). So it depends on the type and on what stands
behind it whether its tokens are passed over or split the initializer (`TypeRef.splits`,
`Parser.scans_of_written`).
-/

set_option autoImplicit false
set_option relaxedAutoImplicit false

namespace Companion

open Token

/-! ### Types that split an initializer -/

namespace TypeRef

mutual

/-- Whether a tuple is in a reference. -/
@[simp] def hasTuple : TypeRef → Bool
  | predefined _ _ => false
  | named _ segs _ => anySegmentHasTuple segs
  | array e _ _ => hasTuple e
  | nullable i _ => hasTuple i
  | tuple _ _ => true

@[simp] def anyHasTuple : List TypeRef → Bool
  | [] => false
  | t :: ts => hasTuple t || anyHasTuple ts

@[simp] def segmentHasTuple : Segment → Bool
  | .mk _ args _ => anyHasTuple args

@[simp] def anySegmentHasTuple : List Segment → Bool
  | [] => false
  | s :: ss => segmentHasTuple s || anySegmentHasTuple ss

end

mutual

/-- Whether a comma of a reference ends an initializer in which it is written. Type arguments are
recognised if no tuple is among them and something stands behind them that may follow type arguments
in an expression; `followed` says whether such a thing stands behind the reference. -/
def splits (followed : Bool) : TypeRef → Bool
  | predefined _ _ => false
  | named _ segs _ => segmentsSplit followed segs
  | array e _ _ => splits true e
  | nullable i _ => splits false i
  | tuple _ _ => false

/-- Of two type arguments that are not recognised, the comma between them is one that ends it. -/
def argsSplit : List TypeRef → Bool
  | [] => false
  | t :: ts => splits false t || !ts.isEmpty

def segmentSplits (followed : Bool) : Segment → Bool
  | .mk _ args _ => !(followed && !anyHasTuple args) && argsSplit args

def segmentsSplit (followed : Bool) : List Segment → Bool
  | [] => false
  | s :: ss => segmentSplits (followed || !ss.isEmpty) s || segmentsSplit followed ss

end

theorem segmentsSplit_eq_false {segs : List Segment} (h : anySegmentHasTuple segs = false) :
    segmentsSplit true segs = false := by
  induction segs with
  | nil => rfl
  | cons s ss ih =>
    obtain ⟨ident, args, span⟩ := s
    simp only [anySegmentHasTuple, segmentHasTuple, Bool.or_eq_false_iff] at h
    simp [segmentsSplit, segmentSplits, h.1, ih h.2]

end TypeRef

namespace Phrase

/-- Whether a tuple is in a phrase. -/
@[simp] def hasTuple : Phrase → Bool
  | type t => t.hasTuple
  | list _ ts => TypeRef.anyHasTuple ts
  | segment s => TypeRef.segmentHasTuple s
  | segments ss => TypeRef.anySegmentHasTuple ss

/-- Whether a comma of a phrase ends an initializer in which it is written. -/
def splits (followed : Bool) : Phrase → Bool
  | type t => t.splits followed
  | list _ ts => TypeRef.argsSplit ts
  | segment s => TypeRef.segmentSplits followed s
  | segments ss => TypeRef.segmentsSplit followed ss

end Phrase

/-! ### Brackets in types -/

namespace Token

variable {ts us : List Token} {t : Token}

theorem WellNested.append (h : WellNested ts) (h' : WellNested us) : WellNested (ts ++ us) := by
  induction h with
  | nil => exact h'
  | plain hopener hcloser heof _ ih => exact .plain hopener hcloser heof ih
  | group hpair hinside _ _ ih => simpa using WellNested.group hpair hinside ih

theorem WellNested.of_commas (h : ∀ t ∈ ts, t.kind = .comma) : WellNested ts := by
  induction ts with
  | nil => exact .nil
  | cons t ts ih =>
    obtain ⟨ht, hts⟩ := List.forall_mem_cons.mp h
    exact .plain (by rw [ht]; rfl) (by rw [ht]; rfl) (by simp [ht]) (ih hts)

/-- Angle brackets are nested among some tokens, and the end of the file is not among them. -/
inductive Angled : List Token → Prop
  | nil : Angled []
  | plain {t : Token} {ts : List Token} (heof : t.kind ≠ .eof) (hopened : t.kind ≠ .lt)
      (hclosed : t.kind ≠ .gt) (h : Angled ts) : Angled (t :: ts)
  | angle {opened closed : Token} {inside ts : List Token} (hopened : opened.kind = .lt)
      (hclosed : closed.kind = .gt) (hinside : Angled inside) (h : Angled ts) :
      Angled (opened :: (inside ++ closed :: ts))

theorem Angled.append (h : Angled ts) (h' : Angled us) : Angled (ts ++ us) := by
  induction h with
  | nil => exact h'
  | plain heof hopened hclosed _ ih => exact .plain heof hopened hclosed ih
  | angle hopened hclosed hinside _ _ ih => simpa using Angled.angle hopened hclosed hinside ih

/-- Whether a token may be among type arguments in an expression. -/
def isWithin (t : Token) : Bool := t.kind = .lt || t.kind = .gt || Cursor.withinTypeArgs t.kind

/-- Inside of type arguments, tokens with nested angle brackets are passed if all of them may be
there. -/
theorem Angled.typeArgsAhead_append (h : Angled ts) (depth : Nat) (rest : List Token) :
    Cursor.typeArgsAhead (depth + 1) (ts ++ rest) =
      (ts.all isWithin && Cursor.typeArgsAhead (depth + 1) rest) := by
  induction h generalizing depth rest with
  | nil => simp
  | @plain t ts _ hopened hclosed _ ih =>
    rw [List.cons_append, Cursor.typeArgsAhead, if_neg hopened, if_neg hclosed, ih]
    simp [isWithin, hopened, hclosed, Bool.and_assoc]
  | @angle opened closed inside ts hopened hclosed _ _ ihInside ih =>
    have hgt : closed.kind ≠ .lt := by simp [hclosed]
    have hdepth : ¬depth + 1 + 1 ≤ 1 := by omega
    rw [List.cons_append, Cursor.typeArgsAhead, if_pos hopened, List.append_assoc, ihInside,
      List.cons_append, Cursor.typeArgsAhead, if_neg hgt, if_pos hclosed, if_neg hdepth,
      Nat.add_sub_cancel, ih]
    simp [isWithin, hopened, hclosed, Bool.and_assoc]

/-- Passing over type arguments goes on behind tokens with nested angle brackets. -/
theorem Angled.pastTypeArgs_append (h : Angled ts) (depth : Nat) (s : Span) (rest : List Token) :
    ∃ s', Cursor.pastTypeArgs (depth + 1) s (ts ++ rest) =
      Cursor.pastTypeArgs (depth + 1) s' rest := by
  induction h generalizing depth s rest with
  | nil => exact ⟨s, rfl⟩
  | @plain t ts heof hopened hclosed _ ih =>
    rw [List.cons_append, Cursor.pastTypeArgs, if_neg heof, if_neg hopened, if_neg hclosed]
    exact ih depth t.span rest
  | @angle opened closed inside ts hopened hclosed _ _ ihInside ih =>
    have heof : opened.kind ≠ .eof := by simp [hopened]
    have hgt : closed.kind ≠ .eof ∧ closed.kind ≠ .lt := by simp [hclosed]
    have hdepth : ¬depth + 1 + 1 ≤ 1 := by omega
    obtain ⟨s', hs'⟩ := ihInside (depth + 1) opened.span (closed :: (ts ++ rest))
    rw [List.cons_append, Cursor.pastTypeArgs, if_neg heof, if_pos hopened, List.append_assoc,
      List.cons_append, hs', Cursor.pastTypeArgs, if_neg hgt.1, if_neg hgt.2, if_pos hclosed,
      if_neg hdepth, Nat.add_sub_cancel]
    exact ih depth closed.span rest

end Token

namespace Phrase

variable {p : Phrase} {ts : List Token}

/-- The brackets of a written phrase are nested. -/
theorem Written.wellNested (h : p.Written ts) : WellNested ts := by
  have hplain {t : Token} {us : List Token}
      (ht : t.kind ∈ [Kind.ident, .dot, .comma, .question, .doubleColon, .lt, .gt])
      (hus : WellNested us) : WellNested (t :: us) := by
    refine .plain ?_ ?_ ?_ hus
    all_goals
      revert ht
      cases t.kind <;> decide
  refine h.of_brackets .nil (fun _ _ ↦ .append) (fun ht ↦ hplain (by simp at ht ⊢; tauto) .nil) ?_
  rintro opened closed inside hkinds hinside
  simp only [List.mem_cons, Prod.mk.injEq, List.not_mem_nil, or_false] at hkinds
  obtain hround | hsquare | ⟨hlt, hgt⟩ := hkinds
  · exact .group (.of_pair (.inl hround)) hinside .nil
  · exact .group (.of_pair (.inr hsquare)) hinside .nil
  · exact hplain (by simp [hlt]) (hinside.append (hplain (by simp [hgt]) .nil))

/-- So are its angle brackets. -/
theorem Written.angled (h : p.Written ts) : Angled ts := by
  have hplain {t : Token} {us : List Token}
      (ht : t.kind ∈ [Kind.ident, .dot, .comma, .question, .doubleColon, .lparen, .rparen,
        .lbracket, .rbracket]) (hus : Angled us) : Angled (t :: us) := by
    refine .plain ?_ ?_ ?_ hus
    all_goals
      revert ht
      cases t.kind <;> decide
  refine h.of_brackets .nil (fun _ _ ↦ .append) (fun ht ↦ hplain (by simp at ht ⊢; tauto) .nil) ?_
  rintro opened closed inside hkinds hinside
  simp only [List.mem_cons, Prod.mk.injEq, List.not_mem_nil, or_false] at hkinds
  obtain ⟨hopened, hclosed⟩ | ⟨hopened, hclosed⟩ | ⟨hlt, hgt⟩ := hkinds
  · exact hplain (by simp [hopened]) (hinside.append (hplain (by simp [hclosed]) .nil))
  · exact hplain (by simp [hopened]) (hinside.append (hplain (by simp [hclosed]) .nil))
  · exact .angle hlt hgt hinside .nil

/-- Only the round bracket of a tuple may not be among type arguments in an expression. -/
theorem Written.all_isWithin (h : p.Written ts) : ts.all isWithin = !p.hasTuple := by
  have hmarks {marks : List Token} (h : ∀ m ∈ marks, m.kind = .comma) :
      marks.all isWithin = true := by
    simpa [isWithin, Cursor.withinTypeArgs] using fun m hm ↦ by simp [h m hm]
  have hlabel {inTuple : Bool} {label : List Token} (h : IsLabel inTuple label) :
      label.all isWithin = true := by
    obtain rfl | ⟨-, n, hn, rfl⟩ := h
    · rfl
    · simp [isWithin, hn, Cursor.withinTypeArgs]
  induction h with
  | predefined hword => simp [isWithin, hword, Cursor.withinTypeArgs]
  | named _ _ ih => simpa using ih
  | fromGlobal hword _ hmark _ ih =>
    simpa [isWithin, hword, hmark, Cursor.withinTypeArgs] using ih
  | aliased hword _ _ hmark _ ih =>
    simpa [isWithin, hword, hmark, Cursor.withinTypeArgs] using ih
  | array hopened hcommas hclosed _ ih =>
    simpa [isWithin, hopened, hclosed, Cursor.withinTypeArgs, hmarks hcommas] using ih
  | nullable hmark _ ih => simpa [isWithin, hmark, Cursor.withinTypeArgs] using ih
  | tuple hopened _ _ _ => simp [isWithin, hopened, Cursor.withinTypeArgs]
  | last hname _ ih => simpa [hlabel hname] using ih
  | more hname hcomma _ _ ih ih' =>
    simp only [hasTuple] at ih ih' ⊢
    simp [hlabel hname, ih, ih', isWithin, hcomma, Cursor.withinTypeArgs]
  | bare hword => simp [isWithin, hword, Cursor.withinTypeArgs]
  | noArgs hword hopened hclosed =>
    simp [isWithin, hword, hopened, hclosed, Cursor.withinTypeArgs]
  | generic hword hopened hclosed _ ih =>
    simpa [isWithin, hword, hopened, hclosed, Cursor.withinTypeArgs] using ih
  | one _ ih => simpa using ih
  | dotted hdot _ _ ih ih' =>
    simp only [hasTuple] at ih ih' ⊢
    simp [ih, ih', isWithin, hdot, Cursor.withinTypeArgs]

end Phrase

namespace Parser

variable {budget : Nat} {s last : Span} {t opened closed : Token} {ts us inside rest : List Token}

/-! ### One step over an initializer -/

theorem initializerWithin_plain (hends : endsInitializer t.kind = false)
    (hopener : t.kind.isOpener = false)
    (hlt : t.kind = .lt → Cursor.typeArgsAhead 0 (t :: ts) = false) :
    initializerWithin (budget + 1) last ⟨s, t :: ts⟩ =
      initializerWithin budget t.span ⟨t.span, ts⟩ := by
  have hkind : Cursor.kind ⟨s, t :: ts⟩ = t.kind := rfl
  have heof : t.kind ≠ .eof := fun h ↦ by
    rw [h] at hends
    cases hends
  have hgeneric : (t.kind == .lt && Cursor.typeArgsAhead 0 (t :: ts)) = false := by
    by_cases h : t.kind = .lt
    · rw [hlt h, Bool.and_false]
    · rw [beq_false_of_ne h, Bool.false_and]
  rw [initializerWithin, look_bind, hkind, hends, if_neg Bool.false_ne_true, hopener,
    if_neg Bool.false_ne_true, look_bind, hgeneric, if_neg Bool.false_ne_true,
    advance_bind_cons heof]

theorem initializerWithin_group (hpair : Kind.Pair opened.kind closed.kind)
    (hinside : WellNested inside) :
    initializerWithin (budget + 1) last ⟨s, opened :: (inside ++ closed :: ts)⟩ =
      initializerWithin budget closed.span ⟨closed.span, ts⟩ := by
  have hkind : Cursor.kind ⟨s, opened :: (inside ++ closed :: ts)⟩ = opened.kind := rfl
  have hends : endsInitializer opened.kind = false := by
    have hopener := hpair.shapes.1
    revert hopener
    cases opened.kind <;> decide
  rw [initializerWithin, look_bind, hkind, hends, if_neg Bool.false_ne_true,
    if_pos hpair.shapes.1, group_bind_cons hpair hinside]

theorem initializerWithin_generic (hopened : opened.kind = .lt) (hclosed : closed.kind = .gt)
    (hinside : Angled inside)
    (hahead : Cursor.typeArgsAhead 0 (opened :: (inside ++ closed :: ts)) = true) :
    initializerWithin (budget + 1) last ⟨s, opened :: (inside ++ closed :: ts)⟩ =
      initializerWithin budget closed.span ⟨closed.span, ts⟩ := by
  have hkind : Cursor.kind ⟨s, opened :: (inside ++ closed :: ts)⟩ = .lt := hopened
  have hargs : typeArgs ⟨s, opened :: (inside ++ closed :: ts)⟩ =
      ⟨.ok closed.span, ⟨closed.span, ts⟩, []⟩ := by
    have heof : opened.kind ≠ .eof := by simp [hopened]
    have hgt : closed.kind ≠ .eof ∧ closed.kind ≠ .lt := by simp [hclosed]
    obtain ⟨s', hs'⟩ := hinside.pastTypeArgs_append 0 opened.span (closed :: ts)
    rw [typeArgs, Cursor.pastTypeArgs, if_neg heof, if_pos hopened, hs', Cursor.pastTypeArgs,
      if_neg hgt.1, if_neg hgt.2, if_pos hclosed, if_pos (Nat.le_refl _)]
  rw [initializerWithin, look_bind, hkind, if_neg (by decide), if_neg (by decide), look_bind,
    if_pos (by simpa using hahead), bind_of_ok hargs]

theorem initializerWithin_of_ends (hends : endsInitializer t.kind = true) :
    initializerWithin budget last ⟨s, t :: ts⟩ = ⟨.ok last, ⟨s, t :: ts⟩, []⟩ := by
  cases budget with
  | zero => rfl
  | succ budget =>
    rw [initializerWithin, look_bind, show Cursor.kind ⟨s, t :: ts⟩ = t.kind from rfl, if_pos hends]
    rfl

/-! ### Runs over an initializer -/

/-- Reading an initializer gets past some tokens. -/
def Passes (read rest : List Token) : Prop :=
  ∀ budget s last, (read ++ rest).length < budget → ∃ budget' s' last', rest.length < budget' ∧
    initializerWithin budget last ⟨s, read ++ rest⟩ = initializerWithin budget' last' ⟨s', rest⟩

/-- Reading an initializer ends at a comma among some tokens. -/
def Stops (read rest : List Token) : Prop :=
  ∀ budget s last, (read ++ rest).length < budget → ∃ s' last' comma back,
    comma.kind = .comma ∧ initializerWithin budget last ⟨s, read ++ rest⟩ =
      ⟨.ok last', ⟨s', comma :: (back ++ rest)⟩, []⟩

/-- Whether reading an initializer ends among some tokens. -/
def Scans (ends : Bool) (read rest : List Token) : Prop :=
  if ends then Stops read rest else Passes read rest

theorem Scans.append {ends ends' : Bool} (h : Scans ends ts (us ++ rest))
    (h' : Scans ends' us rest) : Scans (ends || ends') (ts ++ us) rest := by
  cases ends with
  | true =>
    intro budget s last hbudget
    rw [List.append_assoc] at hbudget ⊢
    obtain ⟨s', last', comma, back, hcomma, heq⟩ := h budget s last hbudget
    exact ⟨s', last', comma, back ++ us, hcomma, by rw [heq, List.append_assoc]⟩
  | false =>
    cases ends' with
    | true =>
      intro budget s last hbudget
      rw [List.append_assoc] at hbudget ⊢
      obtain ⟨budget', s', last', hbudget', heq⟩ := h budget s last hbudget
      obtain ⟨s'', last'', comma, back, hcomma, heq'⟩ := h' budget' s' last' hbudget'
      exact ⟨s'', last'', comma, back, hcomma, heq.trans heq'⟩
    | false =>
      intro budget s last hbudget
      rw [List.append_assoc] at hbudget ⊢
      obtain ⟨budget', s', last', hbudget', heq⟩ := h budget s last hbudget
      obtain ⟨budget'', s'', last'', hbudget'', heq'⟩ := h' budget' s' last' hbudget'
      exact ⟨budget'', s'', last'', hbudget'', heq.trans heq'⟩

theorem scans_nil : Scans false [] rest :=
  fun budget s last hbudget ↦ ⟨budget, s, last, hbudget, rfl⟩

theorem scans_plain (hends : endsInitializer t.kind = false) (hopener : t.kind.isOpener = false)
    (hlt : t.kind = .lt → Cursor.typeArgsAhead 0 (t :: rest) = false) : Scans false [t] rest := by
  intro budget s last hbudget
  obtain ⟨budget, rfl⟩ := Nat.exists_eq_succ_of_ne_zero (Nat.ne_zero_of_lt hbudget)
  exact ⟨budget, t.span, t.span, Nat.lt_of_succ_lt_succ hbudget,
    initializerWithin_plain hends hopener hlt⟩

/-- A word or a mark of a type, or what closes type arguments. -/
theorem scans_mark (ht : t.kind ∈ [Kind.ident, .dot, .doubleColon, .question, .gt]) :
    Scans false [t] rest := by
  refine scans_plain ?_ ?_ fun h ↦ absurd ht (by rw [h]; decide)
  all_goals
    revert ht
    cases t.kind <;> decide

theorem scans_group (hpair : Kind.Pair opened.kind closed.kind) (hinside : WellNested inside) :
    Scans false (opened :: (inside ++ [closed])) rest := by
  intro budget s last hbudget
  obtain ⟨budget, rfl⟩ := Nat.exists_eq_succ_of_ne_zero (Nat.ne_zero_of_lt hbudget)
  refine ⟨budget, closed.span, closed.span, ?_, ?_⟩
  · simp only [List.length_append, List.length_cons] at hbudget
    omega
  · simpa using initializerWithin_group hpair hinside

theorem scans_generic (hopened : opened.kind = .lt) (hclosed : closed.kind = .gt)
    (hinside : Angled inside)
    (hahead : Cursor.typeArgsAhead 0 (opened :: (inside ++ closed :: rest)) = true) :
    Scans false (opened :: (inside ++ [closed])) rest := by
  intro budget s last hbudget
  obtain ⟨budget, rfl⟩ := Nat.exists_eq_succ_of_ne_zero (Nat.ne_zero_of_lt hbudget)
  refine ⟨budget, closed.span, closed.span, ?_, ?_⟩
  · simp only [List.length_append, List.length_cons] at hbudget
    omega
  · simpa using initializerWithin_generic hopened hclosed hinside hahead

/-- The words in front of a name: `global::`, or an alias. -/
theorem scans_qualifier {word mark : Token} (hword : word.kind = .ident)
    (hmark : mark.kind = .doubleColon) : Scans false [word, mark] rest :=
  have hword' : Scans false [word] ([mark] ++ rest) := scans_mark (by simp [hword])
  hword'.append (scans_mark (by simp [hmark]))

/-- The brackets behind the elements of an array. -/
theorem scans_brackets {marks : List Token} (hopened : opened.kind = .lbracket)
    (hmarks : ∀ m ∈ marks, m.kind = .comma) (hclosed : closed.kind = .rbracket) :
    Scans false (opened :: (marks ++ [closed])) rest :=
  scans_group (.of_pair (.inr ⟨hopened, hclosed⟩)) (.of_commas hmarks)

theorem scans_comma (ht : t.kind = .comma) : Scans true [t] rest := by
  intro budget s last hbudget
  refine ⟨s, last, t, [], ht, ?_⟩
  exact initializerWithin_of_ends (by rw [ht]; rfl)

/-- Whether what comes behind type arguments may follow them in an expression. -/
def followed (rest : List Token) : Bool :=
  (rest.head?.map fun t ↦ Cursor.followsTypeArgs t.kind).getD false

/-- Type arguments are recognised if they are followed by what may follow them and no tuple is among
them. -/
theorem typeArgsAhead_of_written {args : List TypeRef} (hopened : opened.kind = .lt)
    (hclosed : closed.kind = .gt) (h : Phrase.Written (.list false args) ts) :
    Cursor.typeArgsAhead 0 (opened :: (ts ++ closed :: rest)) =
      (!TypeRef.anyHasTuple args && followed rest) := by
  have hgt : closed.kind ≠ .lt := by simp [hclosed]
  rw [Cursor.typeArgsAhead, if_pos hopened, h.angled.typeArgsAhead_append, h.all_isWithin,
    Cursor.typeArgsAhead, if_neg hgt, if_pos hclosed, if_pos (Nat.le_refl _)]
  rfl

/-- Type arguments that are not recognised are read like other tokens. -/
theorem scans_args {ends : Bool} (hopened : opened.kind = .lt) (hclosed : closed.kind = .gt)
    (hangled : Angled ts) (hinside : Scans ends ts (closed :: rest)) :
    Scans (!Cursor.typeArgsAhead 0 (opened :: (ts ++ closed :: rest)) && ends)
      (opened :: (ts ++ [closed])) rest := by
  cases hahead : Cursor.typeArgsAhead 0 (opened :: (ts ++ closed :: rest)) with
  | true => exact scans_generic hopened hclosed hangled hahead
  | false =>
    have hlt : Scans false [opened] (ts ++ [closed] ++ rest) :=
      scans_plain (by rw [hopened]; rfl) (by rw [hopened]; rfl) fun _ ↦ by simpa using hahead
    have hgt : Scans false [closed] rest := scans_mark (by simp [hclosed])
    simpa using hlt.append (hinside.append hgt)

theorem scans_label {inTuple : Bool} {label : List Token} (h : Phrase.IsLabel inTuple label) :
    Scans false label rest := by
  obtain rfl | ⟨-, n, hn, rfl⟩ := h
  · exact scans_nil
  · exact scans_mark (by simp [hn])

theorem followed_label {inTuple : Bool} {label : List Token} (h : Phrase.IsLabel inTuple label)
    (hrest : followed rest = false) : followed (label ++ rest) = false := by
  obtain rfl | ⟨-, n, hn, rfl⟩ := h
  · exact hrest
  · simp [followed, hn, Cursor.followsTypeArgs]

theorem ne_nil_of_written {inTuple : Bool} {args : List TypeRef}
    (h : Phrase.Written (.list inTuple args) ts) : args ≠ [] := by
  cases h <;> simp

theorem segments_ne_nil_of_written {segs : List Segment}
    (h : Phrase.Written (.segments segs) ts) : segs ≠ [] := by
  cases h <;> simp

/-- Reading an initializer ends within a written phrase if and only if the phrase splits it. What
stands behind a list of types may not follow type arguments. -/
theorem scans_of_written {p : Phrase} (h : p.Written ts)
    (hrest : ∀ inTuple us, p = .list inTuple us → followed rest = false) :
    Scans (p.splits (followed rest)) ts rest := by
  induction h generalizing rest with
  | predefined hword => exact scans_mark (by simp [hword])
  | named _ _ ih => exact ih (by simp)
  | @fromGlobal word mark segs ts span hword _ hmark _ ih =>
    exact (scans_qualifier hword hmark).append (ih (by simp))
  | @aliased word mark segs ts place span hword _ _ hmark _ ih =>
    have hsplits : TypeRef.segmentsSplit (followed rest) (.mk word.name [] place :: segs) =
        TypeRef.segmentsSplit (followed rest) segs := by
      simp [TypeRef.segmentsSplit, TypeRef.segmentSplits, TypeRef.argsSplit]
    show Scans (TypeRef.segmentsSplit (followed rest) (.mk word.name [] place :: segs)) _ rest
    rw [hsplits]
    exact (scans_qualifier hword hmark).append (ih (by simp))
  | @array opened closed marks ts e span hopened hmarks hclosed _ ih =>
    have hfollowed : followed (opened :: (marks ++ [closed]) ++ rest) = true := by
      simp [followed, hopened, Cursor.followsTypeArgs]
    have helement : Scans (e.splits true) ts (opened :: (marks ++ [closed]) ++ rest) :=
      hfollowed ▸ ih (by simp)
    simpa [Phrase.splits, TypeRef.splits] using helement.append
      (scans_brackets hopened hmarks hclosed)
  | @nullable mark ts i span hmark _ ih =>
    have hfollowed : followed ([mark] ++ rest) = false := by
      simp [followed, hmark, Cursor.followsTypeArgs]
    have hinner : Scans (i.splits false) ts ([mark] ++ rest) := hfollowed ▸ ih (by simp)
    simpa [Phrase.splits, TypeRef.splits] using hinner.append (scans_mark (by simp [hmark]))
  | tuple hopened hclosed hwritten _ =>
    exact scans_group (.of_pair (.inl ⟨hopened, hclosed⟩)) hwritten.wellNested
  | @last inTuple ts label t hname _ ih =>
    have htype : Scans (t.splits false) ts (label ++ rest) :=
      followed_label hname (hrest inTuple [t] rfl) ▸ ih (by simp)
    simpa [Phrase.splits, TypeRef.argsSplit] using htype.append (scans_label hname)
  | @more inTuple comma ts label ts' t us hname hcomma _ hwritten ih ih' =>
    have hmore : Scans true (label ++ ([comma] ++ ts')) rest :=
      (scans_label hname).append
        ((scans_comma hcomma).append (ih' fun _ _ _ ↦ hrest inTuple (t :: us) rfl))
    have hends : Phrase.splits (followed rest) (.list inTuple (t :: us)) = true := by
      simp [Phrase.splits, TypeRef.argsSplit, ne_nil_of_written hwritten]
    have htype : Scans (t.splits (followed (label ++ ([comma] ++ ts') ++ rest))) ts
        (label ++ ([comma] ++ ts') ++ rest) := ih (by simp)
    rw [hends]
    simpa using htype.append hmore
  | @bare word span hword =>
    have hscans : Scans false [word] rest := scans_mark (by simp [hword])
    simpa [Phrase.splits, TypeRef.segmentSplits, TypeRef.argsSplit] using hscans
  | @noArgs word opened closed span hword hopened hclosed =>
    have hnone : Scans false [] (closed :: rest) := scans_nil
    have hargs := scans_args hopened hclosed .nil hnone
    rw [Bool.and_false] at hargs
    simpa [Phrase.splits, TypeRef.segmentSplits, TypeRef.argsSplit] using
      (scans_mark (t := word) (by simp [hword])).append hargs
  | @generic word opened closed ts args span hword hopened hclosed hwritten ih =>
    have hfollowed : followed (closed :: rest) = false := by
      simp [followed, hclosed, Cursor.followsTypeArgs]
    have hinside : Scans (TypeRef.argsSplit args) ts (closed :: rest) := ih fun _ _ _ ↦ hfollowed
    have hargs := scans_args hopened hclosed hwritten.angled hinside
    rw [typeArgsAhead_of_written hopened hclosed hwritten] at hargs
    simpa [Phrase.splits, TypeRef.segmentSplits, Bool.and_comm] using
      (scans_mark (t := word) (by simp [hword])).append hargs
  | one _ ih => simpa [Phrase.splits, TypeRef.segmentsSplit] using ih (by simp)
  | @dotted dot s ss ts ts' hdot _ hwritten ih ih' =>
    have hfollowed : followed ([dot] ++ ts' ++ rest) = true := by
      simp [followed, hdot, Cursor.followsTypeArgs]
    have hsegment : Scans (TypeRef.segmentSplits true s) ts ([dot] ++ ts' ++ rest) :=
      hfollowed ▸ ih (by simp)
    have hmore : Scans (TypeRef.segmentsSplit (followed rest) ss) ([dot] ++ ts') rest :=
      (scans_mark (t := dot) (by simp [hdot])).append (ih' (by simp))
    have hne : ss.isEmpty = false := by simpa using segments_ne_nil_of_written hwritten
    simpa [Phrase.splits, TypeRef.segmentsSplit, hne] using hsegment.append hmore

end Parser

end Companion
