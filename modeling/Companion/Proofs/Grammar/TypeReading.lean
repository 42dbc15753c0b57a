import Companion.Proofs.Grammar.TypeParts

/-!
Reading references back. The parser of types reads the tokens of a printable reference back to the
reference, whatever stands behind them that no type goes on with
(`TypeRef.Printable.takes_typeRef`); so does the parser of names (`TypeRef.Printable.takes_name`).
The induction is on the reference: a type is read up to its suffixes, and the loop over suffixes
goes on with what stands behind (`TypeRef.Printable.readsOn_typeRefWithin`). Its budget is enough
because every part of a reference has fewer tokens than the whole. Dotted names are references
without arguments (`TypeRef.plain`).
-/

set_option autoImplicit false
set_option relaxedAutoImplicit false

namespace Companion

open Token

namespace TypeRef

open Companion.Parser

/-- The brackets and question marks behind a type. -/
def suffixes : TypeRef → Nat
  | array e _ _ => suffixes e + 1
  | nullable i _ => suffixes i + 1
  | _ => 0

theorem suffixes_le (t : TypeRef) : t.suffixes ≤ t.tokens.length := by
  fun_induction suffixes t with
  | case1 e rank span ih =>
    simp only [tokens, List.length_append, List.length_cons]
    omega
  | case2 i span ih =>
    simp only [tokens, List.length_append, List.length_cons]
    omega
  | case3 => exact Nat.zero_le _

theorem length_le_intercalate (mark : Bare) {lists : List (List Bare)} {list : List Bare}
    (h : list ∈ lists) : list.length ≤ ([mark].intercalate lists).length := by
  induction lists with
  | nil => cases h
  | cons first lists ih =>
    cases lists with
    | nil => simp_all
    | cons second lists =>
      rw [List.intercalate_cons_cons]
      simp only [List.length_append]
      rcases List.mem_cons.mp h with rfl | h
      · omega
      · have hle := ih h
        omega

theorem length_lists_le_intercalate (mark : Bare) (lists : List (List Bare)) :
    lists.length ≤ ([mark].intercalate lists).length + 1 := by
  induction lists with
  | nil => exact Nat.zero_le _
  | cons first lists ih =>
    cases lists with
    | nil => simp
    | cons second lists =>
      rw [List.intercalate_cons_cons]
      simp only [List.length_append, List.length_cons, List.length_nil] at *
      omega

theorem length_tokens_lt_segment {s : Segment} {a : TypeRef} (h : a ∈ s.args) :
    a.tokens.length < (tokensOfSegment s).length := by
  obtain ⟨ident, args, span⟩ := s
  cases args with
  | nil => cases h
  | cons b bs =>
    have hmem : tokens a ∈ (b :: bs).map tokens := List.mem_map_of_mem h
    have hle := length_le_intercalate (.comma, ",") hmem
    rw [tokensOfSegment, tokensEach_eq_map, ← List.map_cons, List.length_cons, List.length_cons,
      List.length_append]
    omega

theorem length_args_le_segment (s : Segment) : s.args.length ≤ (tokensOfSegment s).length := by
  obtain ⟨ident, args, span⟩ := s
  cases args with
  | nil => exact Nat.zero_le _
  | cons b bs =>
    have hle := length_lists_le_intercalate (.comma, ",") ((b :: bs).map tokens)
    rw [List.length_map] at hle
    rw [tokensOfSegment, tokensEach_eq_map, ← List.map_cons]
    simp only [List.length_cons, List.length_append, Segment.args] at *
    omega

theorem length_segment_le_tokens (fromGlobal : Bool) (span : Span) {segs : List Segment}
    {s : Segment} (h : s ∈ segs) :
    (tokensOfSegment s).length ≤ (TypeRef.named fromGlobal segs span).tokens.length := by
  have hle := length_le_intercalate (.dot, ".") (List.mem_map_of_mem (f := tokensOfSegment) h)
  rw [tokens, segmentTokens_eq_map, List.length_append]
  omega

theorem length_segments_le_tokens (fromGlobal : Bool) (segs : List Segment) (span : Span) :
    segs.length ≤ (TypeRef.named fromGlobal segs span).tokens.length + 1 := by
  have hle := length_lists_le_intercalate (.dot, ".") (segs.map tokensOfSegment)
  rw [List.length_map] at hle
  rw [tokens, segmentTokens_eq_map, List.length_append]
  omega

/-- A parser reads a type up to its end and goes on with what may stand behind it. -/
def ReadsOn (p : Parser TypeRef) (budget : Nat) (t : TypeRef) (rest : List Bare) : Prop :=
  ∀ c : Cursor, c.Spells (t.tokens ++ rest) →
    ∃ t' c', p c = suffixesWithin (budget - t.suffixes) t' c' ∧ c'.Spells rest ∧ ReadAs t t'

namespace ReadsOn

variable {p : Parser TypeRef} {budget : Nat} {t : TypeRef} {rest : List Bare}

/-- Where no suffix follows, the type itself is read. -/
theorem takes (h : ReadsOn p budget t rest) (hrest : EndsType rest) :
    p.Takes t.tokens rest (ReadAs t) := by
  intro c hc
  obtain ⟨t', c', heq, hc', ht'⟩ := h c hc
  exact ⟨t', c', heq.trans (suffixesWithin_of_ends hrest hc'), hc', ht'⟩

theorem of_simple {depth : Nat} (hnone : t.suffixes = 0)
    (h : (simpleTypeWith (typeRefWithin budget depth) budget).Takes t.tokens rest (ReadAs t)) :
    ReadsOn (typeRefWithin budget (depth + 1)) budget t rest := by
  intro c hc
  obtain ⟨t', c', hok, hc', ht'⟩ := h c hc
  refine ⟨t', c', ?_, hc', ht'⟩
  rw [typeRefWithin, typeRefWith, bind_of_ok hok, hnone]
  rfl

theorem array {rank : Nat} (span : Span) (hpos : 1 ≤ rank) (hrank : rank ≤ maxRank)
    (hbudget : t.suffixes + rank < budget)
    (h : ReadsOn p budget t ((.lbracket, "[") ::
      (List.replicate (rank - 1) (.comma, ",") ++ (.rbracket, "]") :: rest))) :
    ReadsOn p budget (.array t rank span) rest := by
  intro c hc
  simp only [tokens, List.append_assoc, List.cons_append, List.nil_append] at hc
  obtain ⟨t', c', heq, hc', ht'⟩ := h c hc
  obtain ⟨t₂, c₂, heq₂, hc₂, ht₂⟩ := suffixesWithin_brackets span ht' hpos hrank
    (show rank ≤ budget - (t.suffixes + 1) by omega) hc'
  refine ⟨t₂, c₂, ?_, hc₂, ht₂⟩
  rw [heq, show budget - t.suffixes = budget - (t.suffixes + 1) + 1 by omega, heq₂]
  rfl

theorem nullable (span : Span) (hbudget : t.suffixes < budget)
    (h : ReadsOn p budget t ((.question, "?") :: rest)) :
    ReadsOn p budget (.nullable t span) rest := by
  intro c hc
  simp only [tokens, List.append_assoc, List.cons_append, List.nil_append] at hc
  obtain ⟨t', c', heq, hc', ht'⟩ := h c hc
  obtain ⟨t₂, c₂, heq₂, hc₂, ht₂⟩ :=
    suffixesWithin_question (budget - (t.suffixes + 1)) span ht' hc'
  refine ⟨t₂, c₂, ?_, hc₂, ht₂⟩
  rw [heq, show budget - t.suffixes = budget - (t.suffixes + 1) + 1 by omega, heq₂]
  rfl

end ReadsOn

theorem Printable.readsOn_typeRefWithin {t : TypeRef} (h : t.Printable) {budget depth : Nat}
    (hbudget : t.tokens.length ≤ budget) (hdepth : t.tokens.length ≤ depth) {rest : List Bare}
    (hrest : EndsName rest) : ReadsOn (typeRefWithin budget depth) budget t rest := by
  induction h generalizing budget depth rest with
  | predefined p span =>
    obtain ⟨depth, rfl⟩ := Nat.exists_eq_add_of_le' hdepth
    exact .of_simple rfl (takes_simpleTypeWith_predefined p span)
  | @named fromGlobal segs span hne hnames hplain hargs ih =>
    have hprintable : (TypeRef.named fromGlobal segs span).Printable :=
      .named hne hnames hplain hargs
    obtain ⟨b, bs, hbs, -⟩ := hprintable.tokens_eq_cons
    obtain ⟨depth, rfl⟩ : ∃ d, depth = d + 1 :=
      Nat.exists_eq_succ_of_ne_zero fun h0 ↦ by simp [hbs, h0] at hdepth
    refine .of_simple rfl (takes_simpleTypeWith_named hplain ?_ hne)
    refine takes_nameWith hargs (fun s hs a ha rest' hrest' ↦ ?_) (fun s hs ↦ ?_) hne hrest ?_
    · have hsegment := length_segment_le_tokens fromGlobal span hs
      have harg := length_tokens_lt_segment ha
      exact (ih s hs a ha (by omega) (by omega) hrest'.1).takes hrest'
    · have hsegment := length_segment_le_tokens fromGlobal span hs
      have hargs := length_args_le_segment s
      omega
    · have hle := length_segments_le_tokens fromGlobal segs span
      omega
  | @array e rank span helement hpos hrank ih =>
    have hmore := e.suffixes_le
    simp only [tokens, List.length_append, List.length_cons, List.length_replicate,
      List.length_nil] at hbudget hdepth
    exact (ih (by omega) (by omega) ⟨by simp, by simp, by simp⟩).array span hpos hrank (by omega)
  | @nullable i span hinner hsingle ih =>
    have hmore := i.suffixes_le
    simp only [tokens, List.length_append, List.length_cons, List.length_nil] at hbudget hdepth
    exact (ih (by omega) (by omega) ⟨by simp, by simp, by simp⟩).nullable span (by omega)
  | @tuple es span hne helements ih =>
    obtain ⟨depth, rfl⟩ : ∃ d, depth = d + 1 :=
      Nat.exists_eq_succ_of_ne_zero fun h0 ↦ by simp [tokens, h0] at hdepth
    have hlist := length_lists_le_intercalate (.comma, ",") (es.map tokens)
    simp only [tokens, tokensEach_eq_map, List.length_append, List.length_cons, List.length_nil,
      List.length_map] at hbudget hdepth hlist
    refine .of_simple rfl (takes_simpleTypeWith_tuple
      (takes_tupleWith hne (fun e he rest' hrest' ↦ ?_) (by omega)))
    have helement := length_le_intercalate (.comma, ",") (List.mem_map_of_mem (f := tokens) he)
    exact (ih e he (by omega) (by omega) hrest'.1).takes hrest'

/-- The parser of types reads the tokens of a type back to the type. -/
theorem Printable.takes_typeRefWithin {t : TypeRef} (h : t.Printable) {budget depth : Nat}
    (hbudget : t.tokens.length ≤ budget) (hdepth : t.tokens.length ≤ depth) {rest : List Bare}
    (hrest : EndsType rest) : (typeRefWithin budget depth).Takes t.tokens rest (ReadAs t) :=
  (h.readsOn_typeRefWithin hbudget hdepth hrest.1).takes hrest

theorem Printable.takes_typeRef {t : TypeRef} (h : t.Printable) {rest : List Bare}
    (hrest : EndsType rest) : typeRef.Takes t.tokens rest (ReadAs t) := by
  intro c hc
  have hlength : t.tokens.length ≤ c.rest.length + 1 := by
    rw [hc.length_rest, List.length_append]
    omega
  exact h.takes_typeRefWithin hlength hlength hrest c hc

theorem Printable.takes_name {fromGlobal : Bool} {segs : List Segment} {span : Span}
    (h : (TypeRef.named fromGlobal segs span).Printable) {rest : List Bare}
    (hrest : EndsName rest) :
    name.Takes (TypeRef.named fromGlobal segs span).tokens rest
      fun n ↦ ReadAs (.named fromGlobal segs span) (.ofName n) := by
  cases h with
  | named hne hnames hplain hargs =>
    intro c hc
    have hlength := hc.length_rest
    rw [List.length_append] at hlength
    refine takes_nameWith hargs (fun s hs a ha rest' hrest' ↦ ?_) (fun s hs ↦ ?_) hne hrest ?_ c hc
    · have hsegment := length_segment_le_tokens fromGlobal span hs
      have harg := length_tokens_lt_segment ha
      exact (hargs s hs a ha).takes_typeRefWithin (by omega) (by omega) hrest'
    · have hsegment := length_segment_le_tokens fromGlobal span hs
      have hcount := length_args_le_segment s
      omega
    · have hcount := length_segments_le_tokens fromGlobal segs span
      omega

/-- A name without type arguments. -/
def plain (ns : List String) : TypeRef :=
  .named false (ns.map fun n ↦ .mk n [] (Span.point 0)) (Span.point 0)

theorem tokens_plain (ns : List String) :
    (plain ns).tokens = [(.dot, ".")].intercalate (ns.map fun n ↦ [(.ident, n)]) := by
  rw [plain, tokens, segmentTokens_eq_map, List.map_map]
  rfl

theorem mem_intercalate {α : Type} {mark x : α} {lists : List (List α)}
    (h : x ∈ [mark].intercalate lists) : x = mark ∨ ∃ list ∈ lists, x ∈ list := by
  induction lists with
  | nil => cases h
  | cons list lists ih =>
    cases lists with
    | nil =>
      rw [List.intercalate_singleton] at h
      exact .inr ⟨list, List.mem_cons_self, h⟩
    | cons next lists =>
      rw [List.intercalate_cons_cons, List.append_assoc] at h
      rcases List.mem_append.mp h with h | h
      · exact .inr ⟨list, List.mem_cons_self, h⟩
      · rcases List.mem_append.mp h with h | h
        · exact .inl (List.mem_singleton.mp h)
        · rcases ih h with rfl | ⟨list', hmem, hx⟩
          · exact .inl rfl
          · exact .inr ⟨list', List.mem_cons_of_mem _ hmem, hx⟩

/-! ### Dotted names -/

theorem mem_tokens_plain {ns : List String} {b : Bare} (h : b ∈ (plain ns).tokens) :
    b.1 = .ident ∨ b.1 = .dot := by
  rw [tokens_plain] at h
  rcases mem_intercalate h with rfl | ⟨list, hmem, h⟩
  · exact .inr rfl
  · obtain ⟨n, -, rfl⟩ := List.mem_map.mp hmem
    exact .inl (congrArg Prod.fst (List.mem_singleton.mp h))

theorem legible_plain {ns : List String} (hne : ns ≠ []) (h : ∀ n ∈ ns, IsIdentifier n) :
    (plain ns).Legible := by
  refine .named (by simpa using hne) (fun s hs ↦ ?_) (fun s hs a ha ↦ ?_)
  all_goals obtain ⟨n, hn, rfl⟩ := List.mem_map.mp hs
  · exact h n hn
  · cases ha

theorem renamed_plain (f : String → String) (ns : List String) :
    (plain ns).renamed f = plain (ns.map f) := by
  rw [plain, plain, renamed, renamedSegments_eq_map, List.map_map, List.map_map]
  rfl

theorem render_plain (ns : List String) : (plain ns).render = joinWith "." ns := by
  have hsegments (ms : List String) :
      renderSegments (ms.map fun n ↦ .mk n [] (Span.point 0)) = ms := by
    induction ms with
    | nil => rfl
    | cons m ms ih => rw [List.map_cons, renderSegments, ih]; rfl
  rw [plain, render, hsegments]
  exact String.empty_append

theorem kindAt_plain_one {ns : List String} (rest : List Bare) (hne : ns ≠ []) :
    kindAt ((plain ns).tokens ++ rest) 1 = .dot ∨
      kindAt ((plain ns).tokens ++ rest) 1 = kindAt rest 0 := by
  rw [tokens_plain]
  cases ns with
  | nil => exact absurd rfl hne
  | cons n ns =>
    cases ns with
    | nil => exact .inr (by simp)
    | cons n' ns => exact .inl (by simp)

theorem kindAt_plain_zero {ns : List String} {rest : List Bare} (hne : ns ≠ []) :
    kindAt ((plain ns).tokens ++ rest) 0 = .ident := by
  rw [tokens_plain]
  cases ns with
  | nil => exact absurd rfl hne
  | cons n ns => cases ns <;> simp

end TypeRef
end Companion
