import Companion.Proofs.Grammar.Recovery

/-!
How types are written. Wherever the parser of types gives a type, the tokens that it read are those
of the type (`Phrase.Written`): a word, or names with points and type arguments, a tuple, or a type
with brackets or a question mark behind it. So whatever holds of the tokens of every written type
holds of what the parser reads (`Parser.written_of_typeRef`).
-/

set_option autoImplicit false
set_option relaxedAutoImplicit false

namespace Companion

open Token

/-- A type, or a part of one that is read by a parser of its own. -/
inductive Phrase where
  | type (t : TypeRef)
  /-- Types with commas between; those in a tuple may have names. -/
  | list (inTuple : Bool) (ts : List TypeRef)
  | segment (s : Segment)
  | segments (ss : List Segment)

namespace Phrase

/-- What may stand behind a type in a list: in a tuple, the name of the element. -/
def IsLabel (inTuple : Bool) (label : List Token) : Prop :=
  label = [] ∨ inTuple = true ∧ ∃ n, n.kind = .ident ∧ label = [n]

/-- The tokens of a phrase, wherever they are in a file. -/
inductive Written : Phrase → List Token → Prop
  | predefined {word : Token} {p : Predefined} {span : Span} (hword : word.kind = .ident)
      (hp : Parser.predefined? word = some p) : Written (.type (.predefined p span)) [word]
  | named {segs : List Segment} {ts : List Token} {span : Span}
      (hplain : ∀ t ∈ ts.head?, Parser.predefined? t = none) (h : Written (.segments segs) ts) :
      Written (.type (.named false segs span)) ts
  | fromGlobal {word mark : Token} {segs : List Segment} {ts : List Token} {span : Span}
      (hword : word.kind = .ident) (hglobal : word.name = "global")
      (hmark : mark.kind = .doubleColon)
      (h : Written (.segments segs) ts) :
      Written (.type (.named true segs span)) (word :: mark :: ts)
  | aliased {word mark : Token} {segs : List Segment} {ts : List Token} {place span : Span}
      (hword : word.kind = .ident) (hplain : Parser.predefined? word = none)
      (hglobal : word.name ≠ "global") (hmark : mark.kind = .doubleColon)
      (h : Written (.segments segs) ts) :
      Written (.type (.named false (.mk word.name [] place :: segs) span)) (word :: mark :: ts)
  | array {opened closed : Token} {marks ts : List Token} {e : TypeRef} {span : Span}
      (hopened : opened.kind = .lbracket) (hmarks : ∀ m ∈ marks, m.kind = .comma)
      (hclosed : closed.kind = .rbracket) (h : Written (.type e) ts) :
      Written (.type (.array e (min (marks.length + 1) Parser.maxRank) span))
        (ts ++ opened :: (marks ++ [closed]))
  | nullable {mark : Token} {ts : List Token} {i : TypeRef} {span : Span}
      (hmark : mark.kind = .question) (h : Written (.type i) ts) :
      Written (.type (.nullable i span)) (ts ++ [mark])
  | tuple {opened closed : Token} {ts : List Token} {es : List TypeRef} {span : Span}
      (hopened : opened.kind = .lparen) (hclosed : closed.kind = .rparen)
      (h : Written (.list true es) ts) :
      Written (.type (.tuple es span)) (opened :: (ts ++ [closed]))
  | last {inTuple : Bool} {ts label : List Token} {t : TypeRef} (hlabel : IsLabel inTuple label)
      (h : Written (.type t) ts) : Written (.list inTuple [t]) (ts ++ label)
  | more {inTuple : Bool} {comma : Token} {ts label ts' : List Token} {t : TypeRef}
      {us : List TypeRef} (hlabel : IsLabel inTuple label) (hcomma : comma.kind = .comma)
      (h : Written (.type t) ts) (h' : Written (.list inTuple us) ts') :
      Written (.list inTuple (t :: us)) (ts ++ (label ++ comma :: ts'))
  | bare {word : Token} {span : Span} (hword : word.kind = .ident) :
      Written (.segment (.mk word.name [] span)) [word]
  | noArgs {word opened closed : Token} {span : Span} (hword : word.kind = .ident)
      (hopened : opened.kind = .lt) (hclosed : closed.kind = .gt) :
      Written (.segment (.mk word.name [] span)) [word, opened, closed]
  | generic {word opened closed : Token} {ts : List Token} {args : List TypeRef} {span : Span}
      (hword : word.kind = .ident) (hopened : opened.kind = .lt) (hclosed : closed.kind = .gt)
      (h : Written (.list false args) ts) :
      Written (.segment (.mk word.name args span)) (word :: opened :: (ts ++ [closed]))
  | one {s : Segment} {ts : List Token} (h : Written (.segment s) ts) : Written (.segments [s]) ts
  | dotted {dot : Token} {s : Segment} {ss : List Segment} {ts ts' : List Token}
      (hdot : dot.kind = .dot) (h : Written (.segment s) ts) (h' : Written (.segments ss) ts') :
      Written (.segments (s :: ss)) (ts ++ dot :: ts')

variable {p : Phrase} {ts : List Token}

/-- What holds of the words and marks in a phrase, and goes on to longer lists of tokens and to
groups in brackets, holds of the phrase. -/
theorem Written.of_brackets {P : List Token → Prop} (hnil : P [])
    (happend : ∀ (us : List Token) {vs : List Token}, P us → P vs → P (us ++ vs))
    (hmark : ∀ {t : Token},
      t.kind ∈ [Kind.ident, .dot, .comma, .question, .doubleColon] → P [t])
    (hgroup : ∀ {opened closed : Token} {inside : List Token},
      (opened.kind, closed.kind) ∈ [(Kind.lparen, Kind.rparen), (.lbracket, .rbracket),
        (.lt, .gt)] →
        P inside → P (opened :: (inside ++ [closed])))
    (h : p.Written ts) : P ts := by
  have hcommas {marks : List Token} (h : ∀ m ∈ marks, m.kind = .comma) : P marks := by
    induction marks with
    | nil => exact hnil
    | cons m marks ih =>
      obtain ⟨hm, hmarks⟩ := List.forall_mem_cons.mp h
      exact happend [m] (hmark (by simp [hm])) (ih hmarks)
  have hlabel {inTuple : Bool} {label : List Token} (h : IsLabel inTuple label) : P label := by
    obtain rfl | ⟨-, n, hn, rfl⟩ := h
    · exact hnil
    · exact hmark (by simp [hn])
  have hqualified {word mark : Token} {us : List Token} (hword : word.kind = .ident)
      (hcolons : mark.kind = .doubleColon) (h : P us) : P (word :: mark :: us) :=
    happend [word] (hmark (by simp [hword]))
      (happend [mark] (hmark (by simp [hcolons])) h)
  induction h with
  | predefined hword => exact hmark (by simp [hword])
  | named _ _ ih => exact ih
  | fromGlobal hword _ hcolons _ ih => exact hqualified hword hcolons ih
  | aliased hword _ _ hcolons _ ih => exact hqualified hword hcolons ih
  | array hopened hmarks hclosed _ ih =>
    exact happend _ ih (hgroup (by simp [hopened, hclosed]) (hcommas hmarks))
  | nullable hquestion _ ih => exact happend _ ih (hmark (by simp [hquestion]))
  | tuple hopened hclosed _ ih => exact hgroup (by simp [hopened, hclosed]) ih
  | last hname _ ih => exact happend _ ih (hlabel hname)
  | @more _ comma _ _ _ _ _ hname hcomma _ _ ih ih' =>
    exact happend _ ih (happend _ (hlabel hname) (happend [comma] (hmark (by simp [hcomma])) ih'))
  | bare hword => exact hmark (by simp [hword])
  | @noArgs word opened closed _ hword hopened hclosed =>
    exact happend [word] (hmark (by simp [hword]))
      (@hgroup opened closed [] (by simp [hopened, hclosed]) hnil)
  | @generic word _ _ _ _ _ hword hopened hclosed _ ih =>
    exact happend [word] (hmark (by simp [hword]))
      (hgroup (by simp [hopened, hclosed]) ih)
  | one _ ih => exact ih
  | @dotted dot _ _ _ _ hdot _ _ ih ih' =>
    exact happend _ ih (happend [dot] (hmark (by simp [hdot])) ih')

end Phrase

theorem Cursor.Reads.kindAhead_one {c c' : Cursor} {t : Token} (h : c.Reads [t] c') :
    c.kindAhead 1 = c'.kind := by
  obtain ⟨previous, rest⟩ := c'
  rw [Cursor.kindAhead, h.rest_eq]
  cases rest <;> rfl

namespace Parser

open Phrase

variable {k : Kind} {c : Cursor}

/-! ### Single tokens -/

theorem gives_advance (h : c.kind ≠ .eof) :
    advance.Gives c fun t read _ ↦ t = c.current ∧ read = [c.current] := by
  refine ⟨[c.current], Cursor.reads_next_of_kind h, fun t ht ↦ ?_⟩
  obtain rfl := Except.ok.inj ht
  exact ⟨rfl, rfl⟩

theorem gives_expect (hk : k ≠ .eof) (c : Cursor) :
    (expect k).Gives c fun t read _ ↦ read = [t] ∧ t.kind = k := by
  unfold Gives expect
  split
  · rename_i hkind
    refine ⟨[c.current], Cursor.reads_next_of_kind (hkind ▸ hk), fun t ht ↦ ?_⟩
    obtain rfl := Except.ok.inj ht
    exact ⟨rfl, hkind⟩
  · exact ⟨[], .nothing c, fun _ ht ↦ by cases ht⟩

theorem gives_eat (hk : k ≠ .eof) (c : Cursor) :
    (eat k).Gives c fun b read _ ↦
      b = true ∧ (∃ t, read = [t] ∧ t.kind = k) ∨ b = false ∧ read = [] := by
  unfold Gives eat
  split
  · rename_i hkind
    refine ⟨[c.current], Cursor.reads_next_of_kind (hkind ▸ hk), fun b hb ↦ ?_⟩
    obtain rfl := Except.ok.inj hb
    exact .inl ⟨rfl, c.current, rfl, hkind⟩
  · refine ⟨[], .nothing c, fun b hb ↦ ?_⟩
    obtain rfl := Except.ok.inj hb
    exact .inr ⟨rfl, rfl⟩

theorem gives_word (c : Cursor) :
    identifier.Gives c fun named read _ ↦
      ∃ t : Token, read = [t] ∧ t = c.current ∧ t.kind = .ident ∧ named = (t.name, t.span) := by
  unfold Gives identifier
  split
  · rename_i hkind
    refine ⟨[c.current], Cursor.reads_next_of_kind (by simp [hkind]), fun named hnamed ↦ ?_⟩
    obtain rfl := Except.ok.inj hnamed
    exact ⟨c.current, rfl, rfl, hkind, rfl⟩
  · exact ⟨[], .nothing c, fun _ h ↦ by cases h⟩

/-! ### Types -/

/-- Where the parser gives a type, it has read the tokens of that type. -/
def ReadsTypes (type : Parser TypeRef) : Prop :=
  ∀ c, type.Gives c fun t read _ ↦ Written (.type t) read

theorem gives_commaSeparated {item : Parser TypeRef} {inTuple : Bool}
    (hitem : ∀ c, item.Gives c fun t read _ ↦
      ∃ ts label, read = ts ++ label ∧ IsLabel inTuple label ∧ Written (.type t) ts) (budget : Nat)
    (c : Cursor) :
    (commaSeparated item budget).Gives c fun us read _ ↦ Written (.list inTuple us) read := by
  induction budget generalizing c with
  | zero =>
    refine gives_bind ((hitem c).mono ?_)
    rintro t _ c' - ⟨ts, label, rfl, hlabel, ht⟩
    exact gives_pure (by simpa using Written.last hlabel ht)
  | succ budget ih =>
    refine gives_bind ((hitem c).mono ?_)
    rintro t _ c' - ⟨ts, label, rfl, hlabel, ht⟩
    refine gives_bind ((gives_eat (by decide) c').mono ?_)
    rintro b _ c'' - (⟨rfl, comma, rfl, hcomma⟩ | ⟨rfl, rfl⟩)
    · refine gives_bind ((ih c'').mono fun us read _ _ hus ↦ gives_pure ?_)
      simpa using Written.more hlabel hcomma ht hus
    · exact gives_pure (by simpa using Written.last hlabel ht)

section Nested

variable {type : Parser TypeRef} (htype : type.ReadsTypes) (budget : Nat)

include htype

theorem gives_typeArgsWith (c : Cursor) :
    (typeArgsWith type budget).Gives c fun args read _ ↦ ∃ opened closed : Token,
      opened.kind = .lt ∧ closed.kind = .gt ∧
        (args = [] ∧ read = [opened, closed] ∨
          ∃ ts, Written (.list false args) ts ∧ read = opened :: (ts ++ [closed])) := by
  refine gives_bind ((gives_expect (by decide) c).mono ?_)
  rintro opened _ c₁ - ⟨rfl, hopened⟩
  refine gives_bind (gives_look ?_)
  split
  · refine gives_bind (gives_pure (gives_bind ((gives_expect (by decide) c₁).mono ?_)))
    rintro closed _ c₂ - ⟨rfl, hclosed⟩
    exact gives_pure ⟨opened, closed, hopened, hclosed, .inl ⟨rfl, rfl⟩⟩
  · have hitem (c : Cursor) : type.Gives c fun t read _ ↦
        ∃ ts label, read = ts ++ label ∧ IsLabel false label ∧ Written (.type t) ts :=
      (htype c).mono fun t read _ _ ht ↦ ⟨read, [], (List.append_nil _).symm, .inl rfl, ht⟩
    refine gives_bind ((gives_commaSeparated hitem budget c₁).mono fun args ts c₂ _ hargs ↦ ?_)
    refine gives_bind ((gives_expect (by decide) c₂).mono ?_)
    rintro closed _ c₃ - ⟨rfl, hclosed⟩
    exact gives_pure ⟨opened, closed, hopened, hclosed, .inr ⟨ts, hargs, by simp⟩⟩

theorem gives_segmentWith (c : Cursor) :
    (segmentWith type budget).Gives c fun s read _ ↦
      Written (.segment s) read ∧ read.head? = some c.current := by
  refine gives_bind ((gives_word c).mono ?_)
  rintro _ _ c₁ - ⟨word, rfl, hcurrent, hword, rfl⟩
  refine gives_bind (gives_look ?_)
  split
  · refine gives_bind ((gives_typeArgsWith htype budget c₁).mono ?_)
    rintro args _ c₂ - ⟨opened, closed, hopened, hclosed, ⟨rfl, rfl⟩ | ⟨ts, hargs, rfl⟩⟩
    · exact gives_bind (gives_look (gives_pure
        ⟨.noArgs hword hopened hclosed, congrArg some hcurrent⟩))
    · refine gives_bind (gives_look (gives_pure ⟨?_, congrArg some hcurrent⟩))
      simpa using Written.generic hword hopened hclosed hargs
  · exact gives_bind (gives_pure (gives_bind (gives_look (gives_pure
      ⟨.bare hword, congrArg some hcurrent⟩))))

theorem gives_segmentsWith (bound : Nat) (c : Cursor) :
    (segmentsWith (segmentWith type budget) bound).Gives c fun ss read _ ↦
      Written (.segments ss) read ∧ read.head? = some c.current := by
  induction bound generalizing c with
  | zero =>
    refine gives_bind ((gives_segmentWith htype budget c).mono ?_)
    rintro s read c₁ - ⟨hs, hhead⟩
    exact gives_pure (by simpa using ⟨Written.one hs, hhead⟩)
  | succ bound ih =>
    refine gives_bind ((gives_segmentWith htype budget c).mono ?_)
    rintro s read c₁ - ⟨hs, hhead⟩
    refine gives_bind (gives_look ?_)
    split
    · rename_i hmore
      have hdot : c₁.kind = .dot := beq_iff_eq.mp (Bool.and_eq_true_iff.mp hmore).1
      refine gives_bind ((gives_advance (by simp [hdot])).mono ?_)
      rintro dot _ c₂ - ⟨rfl, rfl⟩
      refine gives_bind ((ih c₂).mono fun ss read' _ _ hss ↦ gives_pure ⟨?_, ?_⟩)
      · simpa using Written.dotted hdot hs hss.1
      · simp [hhead]
    · exact gives_pure (by simpa using ⟨Written.one hs, hhead⟩)

/-- A name that does not start with the keyword of a type. -/
theorem gives_nameWith (hplain : predefined? c.current = none) :
    (nameWith type budget).Gives c fun n read _ ↦ Written (.type (.ofName n)) read := by
  refine gives_bind (gives_look (gives_bind ?_))
  unfold qualifier
  refine gives_bind (gives_look ?_)
  split
  · rename_i hqualified
    refine gives_bind ((gives_word c).mono ?_)
    rintro _ _ c₁ hread ⟨word, rfl, rfl, hword, rfl⟩
    have hmark : c₁.kind = .doubleColon := by
      rw [← hread.kindAhead_one]
      exact beq_iff_eq.mp (Bool.and_eq_true_iff.mp hqualified).2
    refine gives_bind ((gives_advance (by simp [hmark])).mono ?_)
    rintro mark _ c₂ - ⟨rfl, rfl⟩
    have hsegments (leading : List Segment) (isGlobal : Bool) (start : Span)
        (hwritten : ∀ ss ts span, Written (.segments ss) ts →
          Written (.type (.named isGlobal (leading ++ ss) span)) (c.current :: c₁.current :: ts)) :
        (do
          let segments ← segmentsWith (segmentWith type budget) budget
          let span ← spanFrom start
          pure (⟨isGlobal, leading ++ segments, span⟩ : Name)).Gives c₂ fun n read _ ↦
            Written (.type (.ofName n)) (c.current :: c₁.current :: read) := by
      refine gives_bind ((gives_segmentsWith htype budget budget c₂).mono ?_)
      rintro ss read c₃ - ⟨hss, -⟩
      refine gives_bind (gives_look (gives_pure ?_))
      rw [List.append_nil, List.append_nil]
      exact hwritten ss read _ hss
    dsimp only
    split
    · rename_i hglobal
      exact gives_pure (hsegments [] true _ fun ss ts span h ↦ .fromGlobal hword hglobal hmark h)
    · rename_i hglobal
      exact gives_pure (hsegments [.mk c.current.name [] c.current.span] false _
        fun ss ts span h ↦ .aliased hword hplain hglobal hmark h)
  · refine gives_pure (gives_bind ((gives_segmentsWith htype budget budget c).mono ?_))
    rintro ss read c₁ - ⟨hss, hhead⟩
    refine gives_bind (gives_look (gives_pure ?_))
    refine .named ?_ (by simpa using hss)
    simpa [hhead] using hplain

theorem gives_tupleWith (c : Cursor) :
    (tupleWith type budget).Gives c fun t read _ ↦ Written (.type t) read := by
  refine gives_bind ((gives_expect (by decide) c).mono ?_)
  rintro opened _ c₁ - ⟨rfl, hopened⟩
  have hitem (c : Cursor) : (tupleElementWith type).Gives c fun t read _ ↦
      ∃ ts label, read = ts ++ label ∧ IsLabel true label ∧ Written (.type t) ts := by
    refine gives_bind ((htype c).mono fun t ts c' _ ht ↦ gives_bind ?_)
    refine (gives_eat (by decide) c').mono ?_
    rintro b label c'' - (⟨-, n, rfl, hn⟩ | ⟨-, rfl⟩)
    · exact gives_pure ⟨ts, [n], by simp, .inr ⟨rfl, n, hn, rfl⟩, ht⟩
    · exact gives_pure ⟨ts, [], by simp, .inl rfl, ht⟩
  refine gives_bind ((gives_commaSeparated hitem budget c₁).mono fun es ts c₂ _ hes ↦ ?_)
  refine gives_bind ((gives_expect (by decide) c₂).mono ?_)
  rintro closed _ c₃ - ⟨rfl, hclosed⟩
  exact gives_pure (by simpa using Written.tuple hopened hclosed hes)

theorem gives_simpleTypeWith (c : Cursor) :
    (simpleTypeWith type budget).Gives c fun t read _ ↦ Written (.type t) read := by
  refine gives_bind (gives_look ?_)
  split
  · exact gives_tupleWith htype budget c
  · rename_i hword
    split
    · rename_i p hp
      refine gives_bind ((gives_advance (by simp [Cursor.kind, hword])).mono ?_)
      rintro _ _ c₁ - ⟨rfl, rfl⟩
      exact gives_pure (.predefined hword hp)
    · rename_i hplain
      exact gives_bind ((gives_nameWith htype budget hplain).mono fun n read _ _ hn ↦
        gives_pure (by simpa using hn))
  · exact ⟨[], .nothing c, fun _ h ↦ by cases h⟩

end Nested

theorem gives_commas (budget : Nat) (c : Cursor) :
    (commas budget).Gives c fun n read _ ↦ n = read.length ∧ ∀ m ∈ read, m.kind = .comma := by
  induction budget generalizing c with
  | zero => exact gives_pure ⟨rfl, by simp⟩
  | succ budget ih =>
    refine gives_bind ((gives_eat (by decide) c).mono ?_)
    rintro b _ c' - (⟨rfl, comma, rfl, hcomma⟩ | ⟨rfl, rfl⟩)
    · refine gives_bind ((ih c').mono ?_)
      rintro n read _ - ⟨rfl, hread⟩
      exact gives_pure (by simpa [hcomma] using hread)
    · exact gives_pure (by simp)

theorem gives_suffixesWithin (budget : Nat) (t : TypeRef) (c : Cursor) :
    (suffixesWithin budget t).Gives c fun t' read _ ↦
      ∀ ts, Written (.type t) ts → Written (.type t') (ts ++ read) := by
  induction budget generalizing t c with
  | zero => exact gives_pure (by simp)
  | succ budget ih =>
    refine gives_bind (gives_look (gives_bind (gives_look ?_)))
    split
    · rename_i hquestion
      have hmark : c.kind = .question := beq_iff_eq.mp hquestion
      refine gives_bind ((gives_advance (by simp [hmark])).mono ?_)
      rintro mark _ c₁ - ⟨rfl, rfl⟩
      refine (ih _ c₁).mono fun t' read _ _ hread ts ht ↦ ?_
      simpa using hread _ (.nullable hmark ht)
    · split
      · rename_i hbrackets
        have hopened : c.kind = .lbracket := beq_iff_eq.mp (Bool.and_eq_true_iff.mp hbrackets).1
        refine gives_bind ((gives_advance (by simp [hopened])).mono ?_)
        rintro opened _ c₁ - ⟨rfl, rfl⟩
        refine gives_bind ((gives_commas budget c₁).mono ?_)
        rintro n marks c₂ - ⟨rfl, hmarks⟩
        refine gives_bind ((gives_expect (by decide) c₂).mono ?_)
        rintro closed _ c₃ - ⟨rfl, hclosed⟩
        refine (ih _ c₃).mono fun t' read _ _ hread ts ht ↦ ?_
        simpa using hread _ (.array hopened hmarks hclosed ht)
      · exact gives_pure (by simp)

theorem readsTypes_typeRefWithin (budget depth : Nat) :
    (typeRefWithin budget depth).ReadsTypes := by
  induction depth with
  | zero => exact fun c ↦ ⟨[], .nothing c, fun _ h ↦ by cases h⟩
  | succ depth ih =>
    intro c
    refine gives_bind ((gives_simpleTypeWith ih budget c).mono fun t ts c' _ ht ↦ ?_)
    exact (gives_suffixesWithin budget t c').mono fun t' read _ _ hread ↦ hread ts ht

theorem readsTypes_typeRef : typeRef.ReadsTypes :=
  fun c ↦ (readsTypes_typeRefWithin (c.rest.length + 1) (c.rest.length + 1) c).of_eq rfl

/-- The tokens between two places at which a type was read are those of the type. -/
theorem written_of_typeRef {s s' : Span} {read rest : List Token} {t : TypeRef}
    {ds : List Diagnostic} (h : typeRef ⟨s, read ++ rest⟩ = ⟨.ok t, ⟨s', rest⟩, ds⟩) :
    Written (.type t) read := by
  obtain ⟨read', hreads, hwritten⟩ := readsTypes_typeRef ⟨s, read ++ rest⟩
  rw [h] at hreads hwritten
  obtain rfl : read = read' := List.append_cancel_right hreads.rest_eq
  exact hwritten t rfl

/-- A type that is read up to some tokens, with what can be computed of it. -/
theorem exists_typeRef_of (s : Span) (ts rest : List Token) (p : TypeRef → Bool)
    (hrest : (typeRef ⟨s, ts⟩).cursor.rest = rest)
    (hresult : (typeRef ⟨s, ts⟩).result.toOption.map p = some true) :
    ∃ t s' ds, typeRef ⟨s, ts⟩ = ⟨.ok t, ⟨s', rest⟩, ds⟩ ∧ p t = true := by
  rcases heq : typeRef ⟨s, ts⟩ with ⟨result, ⟨s', rest'⟩, ds⟩
  rw [heq] at hrest hresult
  obtain rfl : rest' = rest := hrest
  cases result with
  | error d => cases hresult
  | ok t => exact ⟨t, s', ds, rfl, Option.some.inj hresult⟩

end Parser
end Companion
