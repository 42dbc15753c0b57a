import Companion.Proofs.Grammar.FileReading
import Companion.Proofs.Grammar.Reading

/-!
What is read alone is read everywhere. A parser of attributes or of a directive looks no further
than the token that ends what it reads. So if it reads some tokens alone, up to the end of the file,
it reads them in front of whatever else; only the places differ (`Parser.Follows`). The two runs are
compared cursor by cursor (`Aligned`), and the relation is kept by sequences of parsers
(`Parser.Follows.look_bind`), loops (`Parser.Follows.of_budget`) and lists with commas between
(`Parser.follows_commaSeparated`).
-/

set_option autoImplicit false
set_option relaxedAutoImplicit false

namespace Companion

open Token

/-- The same tokens are ahead of two cursors, and behind them the same one that ends them; then the
file ends for the first cursor and goes on for the second. -/
structure Aligned (stop : Bare) (rest bs : List Bare) (c d : Cursor) : Prop where
  alone : c.Spells (bs ++ [stop, (.eof, "")])
  among : d.Spells (bs ++ stop :: rest)
  inside : ∀ b ∈ bs, b.1 ≠ .eof
  ends : stop.1 ≠ .eof

namespace Aligned

variable {stop : Bare} {rest bs : List Bare} {c d : Cursor}

theorem bare_eq (h : Aligned stop rest bs c d) : d.current.bare = c.current.bare := by
  have halone := h.alone
  have hamong := h.among
  cases bs with
  | nil => rw [halone.bare_current, hamong.bare_current]
  | cons b bs => rw [halone.bare_current, hamong.bare_current]

theorem kind_eq (h : Aligned stop rest bs c d) : d.kind = c.kind := congrArg Prod.fst h.bare_eq

theorem isWord_eq (h : Aligned stop rest bs c d) (w : String) :
    d.current.isWord w = c.current.isWord w := by
  obtain ⟨hkind, htext⟩ := Prod.mk.inj h.bare_eq
  rw [Token.isWord, Token.isWord, hkind, htext]

/-- The token behind one that does not end the tokens is the same, too. -/
theorem kindAhead_eq (h : Aligned stop rest bs c d) {k : Token.Kind} (hk : stop.1 ≠ k)
    (j : Token.Kind) :
    (d.kind == k && d.kindAhead 1 == j) = (c.kind == k && c.kindAhead 1 == j) := by
  have halone := h.alone
  have hamong := h.among
  rw [h.kind_eq]
  cases bs with
  | nil =>
    have hkind : c.kind = stop.1 := halone.kind_cons
    rw [hkind, beq_false_of_ne hk, Bool.false_and, Bool.false_and]
  | cons b bs =>
    rw [halone.kindAhead, hamong.kindAhead, List.cons_append, List.cons_append, kindAt_cons_succ,
      kindAt_cons_succ]
    cases bs <;> rfl

/-- The next token is read in both places, unless it is the one that ends the tokens. -/
theorem next (h : Aligned stop rest bs c d) (hlength : 2 ≤ c.next.rest.length) :
    ∃ b bs', bs = b :: bs' ∧ Aligned stop rest bs' c.next d.next := by
  have halone := h.alone
  have hamong := h.among
  cases bs with
  | nil =>
    have hspells : c.next.Spells [(.eof, "")] := halone.next h.ends
    rw [hspells.length_rest] at hlength
    cases Nat.not_succ_le_self 1 hlength
  | cons b bs =>
    obtain ⟨hb, hbs⟩ := List.forall_mem_cons.mp h.inside
    exact ⟨b, bs, rfl, halone.next hb, hamong.next hb, hbs, h.ends⟩

theorem length_rest (h : Aligned stop rest bs c d) : c.rest.length = bs.length + 2 := by
  rw [h.alone.length_rest, List.length_append]
  rfl

theorem length_rest_le (h : Aligned stop rest bs c d) : bs.length + 1 ≤ d.rest.length := by
  rw [h.among.length_rest, List.length_append, List.length_cons]
  omega

end Aligned

namespace Parser

variable {α β γ δ : Type}

/-- What one parser reads alone the other reads where more comes behind: if fewer than `bound`
tokens are ahead and the first parser stops before the one that ends them, the second stops there
too, and its value looks the same. At least `least` tokens are read. -/
structure Follows (stop : Bare) (rest : List Bare) (bound least : Nat) (view : α → γ)
    (p q : Parser α) : Prop where
  forward : p.Forward
  ok : ∀ {bs : List Bare} {c d c' : Cursor} {a : α}, bs.length < bound →
    Aligned stop rest bs c d → p c = ⟨.ok a, c', []⟩ → 2 ≤ c'.rest.length →
    ∃ bs' a' d', q d = ⟨.ok a', d', []⟩ ∧ view a' = view a ∧ Aligned stop rest bs' c' d' ∧
      bs'.length + least ≤ bs.length

theorem bind_eq_ok {p : Parser α} {f : α → Parser β} {c c' : Cursor} {b : β}
    (h : (p >>= f) c = ⟨.ok b, c', []⟩) :
    ∃ a e, p c = ⟨.ok a, e, []⟩ ∧ f a e = ⟨.ok b, c', []⟩ := by
  replace h : Parser.bind p f c = ⟨.ok b, c', []⟩ := h
  rw [Parser.bind] at h
  split at h
  · rename_i a e ds heq
    injection h with hresult hcursor hreported
    obtain ⟨rfl, hmore⟩ := List.append_eq_nil_iff.mp hreported
    refine ⟨a, e, heq, ?_⟩
    rw [← hresult, ← hcursor, ← hmore]
  · cases h

namespace Follows

variable {stop : Bare} {rest : List Bare} {bound least : Nat} {view : α → γ} {p q : Parser α}

theorem mono {bound' least' : Nat} (h : Follows stop rest bound least view p q)
    (hbound : bound' ≤ bound) (hleast : least' ≤ least) :
    Follows stop rest bound' least' view p q where
  forward := h.forward
  ok hbs haligned hp hlength := by
    obtain ⟨bs', a', d', hq, ha, haligned', hfew⟩ :=
      h.ok (Nat.lt_of_lt_of_le hbs hbound) haligned hp hlength
    exact ⟨bs', a', d', hq, ha, haligned', by omega⟩

/-- Where nothing is ahead, a parser has only to read on. -/
theorem of_forward (h : p.Forward) : Follows stop rest 0 least view p q :=
  ⟨h, fun hbs ↦ absurd hbs (Nat.not_lt_zero _)⟩

protected theorem pure {a a' : α} (h : view a' = view a) :
    Follows stop rest bound 0 view (pure a) (pure a') where
  forward := .pure a
  ok {bs} {c} {d} {c'} {b} _ haligned hp _ := by
    injection hp with hresult hcursor
    obtain rfl := Except.ok.inj hresult
    obtain rfl := hcursor
    exact ⟨bs, a', d, rfl, h, haligned, Nat.le_refl _⟩

/-- A sequence follows a sequence, step by step. -/
protected theorem bind {view' : β → δ} {f g : α → Parser β}
    (hp : Follows stop rest bound least view p q)
    (hf : ∀ a a', view a' = view a → Follows stop rest (bound - least) 0 view' (f a) (g a')) :
    Follows stop rest bound 0 view' (p >>= f) (q >>= g) where
  forward := hp.forward.bind fun a ↦ (hf a a rfl).forward
  ok {bs} {c} {d} {c'} {b} hbs haligned hok hlength := by
    obtain ⟨a, e, hpok, hfok⟩ := bind_eq_ok hok
    have hshrink := (hf a a rfl).forward.length_le e
    rw [hfok] at hshrink
    obtain ⟨bs₁, a', e', hq, ha, halignedₑ, hfew⟩ :=
      hp.ok hbs haligned hpok (Nat.le_trans hlength hshrink)
    obtain ⟨bs₂, b', d', hg, hb, haligned', hfewer⟩ :=
      (hf a a' ha).ok (by omega) halignedₑ hfok hlength
    exact ⟨bs₂, b', d', by rw [bind_of_ok hq, hg], hb, haligned', by omega⟩

protected theorem map {view' : β → δ} {f g : α → β} (hp : Follows stop rest bound least view p q)
    (hf : ∀ a a', view a' = view a → view' (g a') = view' (f a)) :
    Follows stop rest bound 0 view' (f <$> p) (g <$> q) :=
  hp.bind fun a a' ha ↦ .pure (hf a a' ha)

protected theorem ite {b b' : Prop} [Decidable b] [Decidable b'] {p' q' : Parser α} (hb : b' ↔ b)
    (hp : Follows stop rest bound least view p q)
    (hq : Follows stop rest bound least view p' q') :
    Follows stop rest bound least view (if b then p else p') (if b' then q else q') := by
  by_cases h : b
  · rw [if_pos h, if_pos (hb.mpr h)]
    exact hp
  · rw [if_neg h, if_neg (mt hb.mp h)]
    exact hq

/-- Something that is read off the cursor and looks the same in both places. -/
protected theorem look {f g : Cursor → α}
    (h : ∀ {bs : List Bare} {c d : Cursor}, Aligned stop rest bs c d → view (g d) = view (f c)) :
    Follows stop rest bound 0 view (look f) (look g) where
  forward := .look f
  ok {bs} {c} {d} {c'} {b} _ haligned hp _ := by
    injection hp with hresult hcursor
    obtain rfl := Except.ok.inj hresult
    obtain rfl := hcursor
    exact ⟨bs, g d, d, rfl, h haligned, haligned, Nat.le_refl _⟩

/-- Something that is read off the cursor and is the same in both places. -/
theorem look_bind {view' : β → δ} {f : Cursor → α} {g h : α → Parser β}
    (hsame : ∀ {bs : List Bare} {c d : Cursor}, Aligned stop rest bs c d → f d = f c)
    (hg : ∀ a, Follows stop rest bound 0 view' (g a) (h a)) :
    Follows stop rest bound 0 view' (look f >>= g) (look f >>= h) := by
  have hlook : Follows stop rest bound 0 id (look f) (look f) := .look hsame
  exact hlook.bind fun a a' ha ↦ by
    obtain rfl : a' = a := ha
    exact hg a'

/-- Something that is read off the cursor and does not matter. -/
theorem ignore_bind {view' : β → δ} {f : Cursor → α} {g h : α → Parser β}
    (hg : ∀ a a', Follows stop rest bound 0 view' (g a) (h a')) :
    Follows stop rest bound 0 view' (look f >>= g) (look f >>= h) := by
  have hlook : Follows stop rest bound 0 (fun _ ↦ ()) (look f) (look f) := .look fun _ ↦ rfl
  exact hlook.bind fun a a' _ ↦ hg a a'

/-- A parser that gets a budget of as many steps as there are tokens. -/
theorem of_budget {f : Nat → Parser α} (hp : ∀ c, p c = f c.rest.length c)
    (hforward : ∀ n, (f n).Forward)
    (h : ∀ n m bound', bound' ≤ n → bound' ≤ m →
      Follows stop rest bound' least view (f n) (f m)) :
    Follows stop rest bound least view p p where
  forward c := (hforward c.rest.length c).of_eq (hp c)
  ok {bs} {c} {d} {c'} {a} _ haligned hok hlength := by
    have halone := haligned.length_rest
    have hamong := haligned.length_rest_le
    rw [hp] at hok ⊢
    exact (h c.rest.length d.rest.length (bs.length + 1) (by omega) (by omega)).ok
      (Nat.lt_succ_self _) haligned hok hlength

/-- A parser that reads the next token, for what it is, and does nothing else. -/
theorem of_next (hforward : p.Forward)
    (h : ∀ {c c' : Cursor} {a : α}, p c = ⟨.ok a, c', []⟩ → c' = c.next ∧
      ∀ d : Cursor, d.current.bare = c.current.bare →
        ∃ a', p d = ⟨.ok a', d.next, []⟩ ∧ view a' = view a) :
    Follows stop rest bound 1 view p p where
  forward := hforward
  ok {bs} {c} {d} {c'} {a} _ haligned hp hlength := by
    obtain ⟨rfl, hsame⟩ := h hp
    obtain ⟨a', hq, ha⟩ := hsame d haligned.bare_eq
    obtain ⟨b, bs', rfl, haligned'⟩ := haligned.next hlength
    exact ⟨bs', a', d.next, hq, ha, haligned', Nat.le_refl _⟩

end Follows

section Steps

variable {stop : Bare} {rest : List Bare} {bound : Nat}

theorem follows_advance : Follows stop rest bound 1 Token.bare advance advance := by
  refine .of_next forward_advance fun {c c' a} h ↦ ?_
  injection h with hresult hcursor
  obtain rfl := Except.ok.inj hresult
  exact ⟨hcursor.symm, fun d hd ↦ ⟨d.current, rfl, hd⟩⟩

theorem follows_expect (k : Token.Kind) :
    Follows stop rest bound 1 Token.bare (expect k) (expect k) := by
  refine .of_next (forward_expect k) fun {c c' a} h ↦ ?_
  rw [expect] at h
  split at h
  · rename_i hkind
    injection h with hresult hcursor
    obtain rfl := Except.ok.inj hresult
    refine ⟨hcursor.symm, fun d hd ↦ ⟨d.current, ?_, hd⟩⟩
    have hsame : d.kind = k := (congrArg Prod.fst hd).trans hkind
    rw [expect, if_pos hsame]
  · cases h

theorem follows_identifier :
    Follows stop rest bound 1 (Prod.fst : String × Span → String) identifier identifier := by
  refine .of_next forward_identifier fun {c c' a} h ↦ ?_
  rw [identifier] at h
  split at h
  · rename_i hkind
    injection h with hresult hcursor
    obtain rfl := Except.ok.inj hresult
    refine ⟨hcursor.symm, fun d hd ↦ ⟨(d.current.name, d.current.span), ?_, ?_⟩⟩
    · have hsame : d.kind = .ident := (congrArg Prod.fst hd).trans hkind
      rw [identifier, if_pos hsame]
    · exact congrArg (fun b : Bare ↦ unescape b.2) hd
  · cases h

theorem follows_check_bind {view : β → δ} {k : Token.Kind} {f g : Bool → Parser β}
    (h : ∀ b, Follows stop rest bound 0 view (f b) (g b)) :
    Follows stop rest bound 0 view (check k >>= f) (check k >>= g) :=
  .look_bind (fun h ↦ congrArg (· == k) h.kind_eq) h

theorem follows_spanFrom (start start' : Span) :
    Follows stop rest bound 0 (fun _ ↦ ()) (spanFrom start) (spanFrom start') := .look fun _ ↦ rfl

/-- Whether a token is read decides how to go on. -/
theorem follows_eat_bind {view : β → δ} {k : Token.Kind} {f g : Bool → Parser β}
    (hread : Follows stop rest (bound - 1) 0 view (f true) (g true))
    (hleft : Follows stop rest bound 0 view (f false) (g false)) :
    Follows stop rest bound 0 view (eat k >>= f) (eat k >>= g) where
  forward := (forward_eat k).bind fun b ↦ by
    cases b with
    | true => exact hread.forward
    | false => exact hleft.forward
  ok {bs} {c} {d} {c'} {b} hbs haligned hok hlength := by
    obtain ⟨eaten, e, heat, hf⟩ := bind_eq_ok hok
    rw [eat] at heat
    split at heat
    · rename_i hkind
      injection heat with hresult hcursor
      obtain rfl := Except.ok.inj hresult
      obtain rfl := hcursor
      have hshrink := hread.forward.length_le c.next
      rw [hf] at hshrink
      obtain ⟨t, bs', rfl, haligned'⟩ := haligned.next (Nat.le_trans hlength hshrink)
      rw [List.length_cons] at hbs
      obtain ⟨bs₂, b', d', hg, hb, haligned₂, hfew⟩ := hread.ok (by omega) haligned' hf hlength
      have hq : eat k d = ⟨.ok true, d.next, []⟩ := by
        rw [eat, if_pos (haligned.kind_eq.trans hkind)]
      refine ⟨bs₂, b', d', by rw [bind_of_ok hq, hg], hb, haligned₂, ?_⟩
      rw [List.length_cons]
      omega
    · rename_i hkind
      injection heat with hresult hcursor
      obtain rfl := Except.ok.inj hresult
      obtain rfl := hcursor
      obtain ⟨bs₂, b', d', hg, hb, haligned₂, hfew⟩ := hleft.ok hbs haligned hf hlength
      have hq : eat k d = ⟨.ok false, d, []⟩ := by
        rw [eat, if_neg (by rwa [haligned.kind_eq])]
      exact ⟨bs₂, b', d', by rw [bind_of_ok hq, hg], hb, haligned₂, hfew⟩

/-- Some things with commas between. The budgets may differ if both are large enough. -/
theorem follows_commaSeparated {view : α → γ} {item item' : Parser α}
    (hitem : Follows stop rest bound 0 view item item') {budget budget' : Nat}
    (hbudget : bound ≤ budget) (hbudget' : bound ≤ budget') :
    Follows stop rest bound 0 (List.map view) (commaSeparated item budget)
      (commaSeparated item' budget') := by
  induction budget generalizing bound budget' with
  | zero =>
    obtain rfl := Nat.le_zero.mp hbudget
    exact .of_forward (forward_commaSeparated hitem.forward 0)
  | succ budget ih =>
    cases budget' with
    | zero =>
      obtain rfl := Nat.le_zero.mp hbudget'
      exact .of_forward (forward_commaSeparated hitem.forward _)
    | succ budget' =>
      refine hitem.bind fun a a' ha ↦ follows_eat_bind ?_ ?_
      · rw [if_pos rfl, if_pos rfl]
        exact (ih (hitem.mono (by omega) (Nat.le_refl _)) (by omega) (by omega)).bind
          fun as as' has ↦ .pure (congrArg₂ List.cons ha has)
      · rw [if_neg (by simp), if_neg (by simp)]
        exact .pure (congrArg (fun x ↦ [x]) ha)

end Steps

/-! ### Types and names -/

open TypeRef

/-- A token that ends something, and of which no parser asks what stands behind it. -/
def IsStop (k : Token.Kind) : Prop := k ≠ .ident ∧ k ≠ .dot ∧ k ≠ .lbracket

/-- A segment without its place. -/
def Segment.placeless (s : Segment) : Segment := renamedSegment id s

theorem Segment.placeless_eq {ident : String} {as as' : List TypeRef} {place place' : Span}
    (h : as'.map TypeRef.placeless = as.map TypeRef.placeless) :
    Segment.placeless (.mk ident as' place') = Segment.placeless (.mk ident as place) := by
  rw [placeless, placeless, renamedSegment, renamedSegment, renamedAll_eq_map, renamedAll_eq_map]
  exact congrArg (fun as ↦ Segment.mk ident as (Span.point 0)) h

section Types

variable {stop : Bare} {rest : List Bare} {bound budget budget' : Nat} {type type' : Parser TypeRef}

theorem follows_typeArgsWith
    (htype : Follows stop rest (bound - 1) 0 TypeRef.placeless type type')
    (hbudget : bound - 1 ≤ budget) (hbudget' : bound - 1 ≤ budget') :
    Follows stop rest bound 0 (List.map TypeRef.placeless) (typeArgsWith type budget)
      (typeArgsWith type' budget') := by
  have hclose (as as' : List TypeRef)
      (has : as'.map TypeRef.placeless = as.map TypeRef.placeless) :
      Follows stop rest (bound - 1) 0 (List.map TypeRef.placeless)
        (expect .gt >>= fun _ ↦ pure as) (expect .gt >>= fun _ ↦ pure as') :=
    (follows_expect .gt).bind fun _ _ _ ↦ .pure has
  exact (follows_expect .lt).bind fun _ _ _ ↦ follows_check_bind fun b ↦
    .ite Iff.rfl (hclose [] [] rfl)
      ((follows_commaSeparated htype hbudget hbudget').bind hclose)

theorem follows_segmentWith
    (htype : Follows stop rest (bound - 1) 0 TypeRef.placeless type type')
    (hbudget : bound - 1 ≤ budget) (hbudget' : bound - 1 ≤ budget') :
    Follows stop rest bound 0 Segment.placeless (segmentWith type budget)
      (segmentWith type' budget') := by
  refine follows_identifier.bind fun named named' hnamed ↦ ?_
  obtain ⟨ident, place⟩ := named
  obtain ⟨ident', place'⟩ := named'
  obtain rfl : ident' = ident := hnamed
  have hend (as as' : List TypeRef) (has : as'.map TypeRef.placeless = as.map TypeRef.placeless) :
      Follows stop rest (bound - 1) 0 Segment.placeless
        (spanFrom place >>= fun span ↦ pure (.mk ident' as span))
        (spanFrom place' >>= fun span ↦ pure (.mk ident' as' span)) :=
    (follows_spanFrom place place').bind fun _ _ _ ↦ .pure (Segment.placeless_eq has)
  have hargs := follows_typeArgsWith (htype.mono (show bound - 1 - 1 ≤ bound - 1 by omega)
    (Nat.le_refl _)) (show _ ≤ budget by omega) (show _ ≤ budget' by omega)
  exact follows_check_bind fun b ↦ .ite Iff.rfl (hargs.bind hend) (hend [] [] rfl)

theorem follows_segmentsWith (hstop : IsStop stop.1) {segment segment' : Parser Segment}
    (hsegment : Follows stop rest bound 0 Segment.placeless segment segment')
    (hbudget : bound ≤ budget) (hbudget' : bound ≤ budget') :
    Follows stop rest bound 0 (List.map Segment.placeless) (segmentsWith segment budget)
      (segmentsWith segment' budget') := by
  induction budget generalizing bound budget' with
  | zero =>
    obtain rfl := Nat.le_zero.mp hbudget
    exact .of_forward (forward_segmentsWith hsegment.forward 0)
  | succ budget ih =>
    cases budget' with
    | zero =>
      obtain rfl := Nat.le_zero.mp hbudget'
      exact .of_forward (forward_segmentsWith hsegment.forward _)
    | succ budget' =>
      refine hsegment.bind fun s s' hs ↦ ?_
      refine .look_bind (fun h ↦ h.kindAhead_eq hstop.2.1 .ident) fun b ↦ .ite Iff.rfl ?_ ?_
      · refine follows_advance.bind fun _ _ _ ↦ ?_
        exact (ih (hsegment.mono (by omega) (Nat.le_refl _)) (by omega) (by omega)).bind
          fun ss ss' hss ↦ .pure (congrArg₂ List.cons hs hss)
      · exact .pure (congrArg (fun s ↦ [s]) hs)

theorem follows_qualifier (hstop : IsStop stop.1) :
    Follows stop rest bound 0 (Prod.map id (List.map Segment.placeless)) qualifier qualifier := by
  refine .look_bind (fun h ↦ h.kindAhead_eq hstop.1 .doubleColon) fun b ↦
    .ite Iff.rfl ?_ (.pure rfl)
  refine follows_identifier.bind fun named named' hnamed ↦ follows_advance.bind fun _ _ _ ↦ ?_
  obtain ⟨word, place⟩ := named
  obtain ⟨word', place'⟩ := named'
  obtain rfl : word' = word := hnamed
  exact .ite Iff.rfl (.pure rfl) (.pure rfl)

theorem follows_nameWith (hstop : IsStop stop.1)
    (htype : Follows stop rest (bound - 1) 0 TypeRef.placeless type type')
    (hbudget : bound ≤ budget) (hbudget' : bound ≤ budget') :
    Follows stop rest bound 0 (fun n ↦ (TypeRef.ofName n).placeless) (nameWith type budget)
      (nameWith type' budget') := by
  refine .ignore_bind fun start start' ↦ ?_
  refine (follows_qualifier hstop).bind fun q q' hq ↦ ?_
  obtain ⟨fromGlobal, leading⟩ := q
  obtain ⟨fromGlobal', leading'⟩ := q'
  obtain ⟨hglobal, hleading⟩ := Prod.mk.inj hq
  obtain rfl : fromGlobal' = fromGlobal := hglobal
  refine (follows_segmentsWith hstop (follows_segmentWith htype (by omega) (by omega)) hbudget
    hbudget').bind fun segs segs' hsegs ↦ (follows_spanFrom start start').bind fun _ _ _ ↦ .pure ?_
  rw [placeless, placeless, ofName, ofName, renamed, renamed, renamedSegments_eq_map,
    renamedSegments_eq_map, List.map_append, List.map_append]
  exact congrArg₂ (fun front back ↦ TypeRef.named fromGlobal' (front ++ back) (Span.point 0))
    hleading hsegs

theorem follows_tupleElementWith (htype : Follows stop rest bound 0 TypeRef.placeless type type') :
    Follows stop rest bound 0 TypeRef.placeless (tupleElementWith type) (tupleElementWith type') :=
  htype.bind fun _ _ ht ↦ follows_eat_bind (.pure ht) (.pure ht)

theorem follows_tupleWith (htype : Follows stop rest (bound - 1) 0 TypeRef.placeless type type')
    (hbudget : bound - 1 ≤ budget) (hbudget' : bound - 1 ≤ budget') :
    Follows stop rest bound 0 TypeRef.placeless (tupleWith type budget)
      (tupleWith type' budget') := by
  refine (follows_expect .lparen).bind fun _ _ _ ↦ ?_
  refine (follows_commaSeparated (follows_tupleElementWith htype) hbudget hbudget').bind
    fun es es' hes ↦ (follows_expect .rparen).bind fun _ _ _ ↦ .pure ?_
  rw [placeless, placeless, renamed, renamed, renamedAll_eq_map, renamedAll_eq_map]
  exact congrArg (fun es ↦ TypeRef.tuple es (Span.point 0)) hes

theorem follows_simpleTypeWith (hstop : IsStop stop.1)
    (htype : Follows stop rest (bound - 1) 0 TypeRef.placeless type type')
    (hbudget : bound ≤ budget) (hbudget' : bound ≤ budget') :
    Follows stop rest bound 0 TypeRef.placeless (simpleTypeWith type budget)
      (simpleTypeWith type' budget') := by
  have hlook : Follows stop rest bound 0 Token.bare (look Cursor.current) (look Cursor.current) :=
    .look Aligned.bare_eq
  refine hlook.bind fun t t' ht ↦ ?_
  obtain ⟨hkind, htext⟩ := Prod.mk.inj ht
  rw [hkind, show predefined? t' = predefined? t from congrArg Predefined.ofKeyword? htext]
  split
  · exact follows_tupleWith htype (by omega) (by omega)
  · split
    · exact follows_advance.bind fun _ _ _ ↦ .pure rfl
    · exact (follows_nameWith hstop htype hbudget hbudget').map fun _ _ h ↦ h
  · exact ⟨forward_failExpected _ _, fun _ _ h ↦ by cases h⟩

theorem follows_commas (hbudget : bound ≤ budget) (hbudget' : bound ≤ budget') :
    Follows stop rest bound 0 id (commas budget) (commas budget') := by
  induction budget generalizing bound budget' with
  | zero =>
    obtain rfl := Nat.le_zero.mp hbudget
    exact .of_forward (forward_commas 0)
  | succ budget ih =>
    cases budget' with
    | zero =>
      obtain rfl := Nat.le_zero.mp hbudget'
      exact .of_forward (forward_commas _)
    | succ budget' =>
      refine follows_eat_bind ?_ ?_
      · rw [if_pos rfl, if_pos rfl]
        exact (ih (by omega) (by omega)).bind fun n n' hn ↦ .pure (congrArg (· + 1) hn)
      · rw [if_neg (by simp), if_neg (by simp)]
        exact .pure rfl

theorem follows_suffixesWithin (hstop : IsStop stop.1) {t t' : TypeRef}
    (ht : t'.placeless = t.placeless) (hbudget : bound ≤ budget) (hbudget' : bound ≤ budget') :
    Follows stop rest bound 0 TypeRef.placeless (suffixesWithin budget t)
      (suffixesWithin budget' t') := by
  induction budget generalizing bound budget' t t' with
  | zero =>
    obtain rfl := Nat.le_zero.mp hbudget
    exact .of_forward (forward_suffixesWithin 0 t)
  | succ budget ih =>
    cases budget' with
    | zero =>
      obtain rfl := Nat.le_zero.mp hbudget'
      exact .of_forward (forward_suffixesWithin _ t)
    | succ budget' =>
      refine .look_bind (fun h ↦ ?_) fun brackets ↦ follows_check_bind fun b ↦
        .ite Iff.rfl ?_ (.ite Iff.rfl ?_ (.pure ht))
      · rw [Bool.and_or_distrib_left, Bool.and_or_distrib_left,
          h.kindAhead_eq hstop.2.2, h.kindAhead_eq hstop.2.2]
      · refine follows_advance.bind fun mark mark' _ ↦ ih ?_ (by omega) (by omega)
        rw [placeless, placeless, renamed, renamed]
        exact congrArg (fun t ↦ TypeRef.nullable t (Span.point 0)) ht
      · refine follows_advance.bind fun _ _ _ ↦ ?_
        refine (follows_commas (by omega) (by omega)).bind fun n n' hn ↦ ?_
        obtain rfl : n' = n := hn
        refine (follows_expect .rbracket).bind fun _ _ _ ↦ ih ?_ (by omega) (by omega)
        rw [placeless, placeless, renamed, renamed]
        exact congrArg (fun t ↦ TypeRef.array t (min (n' + 1) maxRank) (Span.point 0)) ht

theorem follows_typeRefWithin (hstop : IsStop stop.1) {depth depth' : Nat}
    (hbudget : bound ≤ budget)
    (hbudget' : bound ≤ budget') (hdepth : bound ≤ depth) (hdepth' : bound ≤ depth') :
    Follows stop rest bound 0 TypeRef.placeless (typeRefWithin budget depth)
      (typeRefWithin budget' depth') := by
  induction depth generalizing bound depth' with
  | zero =>
    obtain rfl := Nat.le_zero.mp hdepth
    exact .of_forward (forward_typeRefWithin budget 0)
  | succ depth ih =>
    cases depth' with
    | zero =>
      obtain rfl := Nat.le_zero.mp hdepth'
      exact .of_forward (forward_typeRefWithin budget _)
    | succ depth' =>
      have hinner : Follows stop rest (bound - 1) 0 TypeRef.placeless (typeRefWithin budget depth)
          (typeRefWithin budget' depth') := ih (by omega) (by omega) (by omega) (by omega)
      exact (follows_simpleTypeWith hstop hinner hbudget hbudget').bind fun t t' ht ↦
        follows_suffixesWithin hstop ht hbudget hbudget'

theorem follows_typeRef (hstop : IsStop stop.1) :
    Follows stop rest bound 0 TypeRef.placeless typeRef typeRef :=
  .of_budget (fun _ ↦ rfl) (fun n ↦ forward_typeRefWithin (n + 1) (n + 1)) fun _ _ _ hn hm ↦
    follows_typeRefWithin hstop (by omega) (by omega) (by omega) (by omega)

theorem follows_name (hstop : IsStop stop.1) :
    Follows stop rest bound 0 (fun n ↦ (TypeRef.ofName n).placeless) name name :=
  .of_budget (fun _ ↦ rfl)
    (fun n ↦ forward_nameWith (forward_typeRefWithin (n + 1) (n + 1)) (n + 1)) fun _ _ _ hn hm ↦
      follows_nameWith hstop
        (follows_typeRefWithin hstop (by omega) (by omega) (by omega) (by omega)) (by omega)
        (by omega)

end Types

/-! ### Groups -/

end Parser

theorem Cursor.closing_shorter {depth : Nat} {ts ts' : List Token} {t : Token}
    (h : closing depth ts = some (t, ts')) : ts'.length < ts.length := by
  fun_induction closing depth ts with
  | case1 => cases h
  | case2 => cases h
  | case3 depth u us _ _ ih => exact Nat.lt_succ_of_lt (ih h)
  | case4 u us =>
    obtain ⟨-, rfl⟩ := Prod.mk.inj (Option.some.inj h)
    exact Nat.lt_succ_self _
  | case5 u us _ _ _ outer ih => exact Nat.lt_succ_of_lt (ih h)
  | case6 depth u us _ _ _ ih => exact Nat.lt_succ_of_lt (ih h)

/-- Where tokens are ahead, two tokens of one kind are next. -/
theorem Aligned.exists_cons {stop b : Bare} {rest bs : List Bare} {c d : Cursor}
    (h : Aligned stop rest (b :: bs) c d) :
    ∃ t ts u us, c.rest = t :: ts ∧ d.rest = u :: us ∧ u.kind = t.kind ∧
      Aligned stop rest bs ⟨t.span, ts⟩ ⟨u.span, us⟩ := by
  obtain ⟨t, ts, hc, ht, htail⟩ := List.map_eq_cons_iff.mp h.alone
  obtain ⟨u, us, hd, hu, hutail⟩ := List.map_eq_cons_iff.mp h.among
  exact ⟨t, ts, u, us, hc, hd, congrArg Prod.fst (hu.trans ht.symm), htail, hutail,
    (List.forall_mem_cons.mp h.inside).2, h.ends⟩

/-- A group that is closed in front of the token that ends the tokens is closed there in both
places. -/
theorem Aligned.closing_eq {stop : Bare} {rest bs : List Bare} {c d : Cursor} {depth : Nat}
    {t : Token} {ts : List Token} (h : Aligned stop rest bs c d)
    (hclosing : Cursor.closing depth c.rest = some (t, ts)) (hlength : 2 ≤ ts.length) :
    ∃ u us bs', Cursor.closing depth d.rest = some (u, us) ∧
      Aligned stop rest bs' ⟨t.span, ts⟩ ⟨u.span, us⟩ ∧ bs'.length ≤ bs.length := by
  induction bs generalizing c d depth with
  | nil =>
    have hshort := Cursor.closing_shorter hclosing
    rw [h.length_rest] at hshort
    exact absurd hlength (Nat.not_le_of_lt hshort)
  | cons b bs ih =>
    obtain ⟨t₁, ts₁, u₁, us₁, hc, hd, hkind, hnext⟩ := h.exists_cons
    have hmore {inner : Nat} (hinner : Cursor.closing inner ts₁ = some (t, ts)) :
        ∃ u us bs', Cursor.closing inner us₁ = some (u, us) ∧
          Aligned stop rest bs' ⟨t.span, ts⟩ ⟨u.span, us⟩ ∧ bs'.length ≤ (b :: bs).length := by
      obtain ⟨u, us, bs', hfound, haligned, hfew⟩ := ih hnext hinner
      exact ⟨u, us, bs', hfound, haligned, Nat.le_succ_of_le hfew⟩
    rw [hc, Cursor.closing.eq_def] at hclosing
    rw [hd, Cursor.closing.eq_def]
    dsimp only at hclosing ⊢
    rw [hkind]
    split_ifs at hclosing ⊢
    · exact hmore hclosing
    · cases depth with
      | zero =>
        obtain ⟨rfl, rfl⟩ := Prod.mk.inj (Option.some.inj hclosing)
        exact ⟨u₁, us₁, bs, rfl, hnext, Nat.le_succ _⟩
      | succ outer => exact hmore hclosing
    · exact hmore hclosing

namespace Parser

section Attributes

variable {stop : Bare} {rest : List Bare} {bound : Nat}

theorem follows_group : Follows stop rest bound 0 (fun _ ↦ ()) group group where
  forward := forward_group
  ok {bs} {c} {d} {c'} {a} _ haligned hok hlength := by
    have hkind : d.current.kind = c.current.kind := haligned.kind_eq
    rw [group] at hok ⊢
    rw [hkind]
    split at hok
    · rename_i hopener
      rw [if_pos hopener]
      cases hclosing : Cursor.closing 0 c.next.rest with
      | none =>
        rw [hclosing] at hok
        cases hok
      | some found =>
        obtain ⟨t, ts⟩ := found
        rw [hclosing] at hok
        injection hok with _ hcursor
        obtain rfl := hcursor
        have hshort := Cursor.closing_shorter hclosing
        obtain ⟨b, bs', rfl, hnext⟩ :=
          haligned.next (Nat.le_trans hlength (Nat.le_of_lt hshort))
        obtain ⟨u, us, bs₂, hfound, haligned₂, hfew⟩ := hnext.closing_eq hclosing hlength
        rw [hfound]
        exact ⟨bs₂, u.span, ⟨u.span, us⟩, rfl, rfl, haligned₂, Nat.le_succ_of_le hfew⟩
    · rename_i hopener
      rw [if_neg hopener]
      injection hok with _ hcursor
      obtain rfl := hcursor
      obtain ⟨b, bs', rfl, hnext⟩ := haligned.next hlength
      exact ⟨bs', d.current.span, d.next, rfl, rfl, hnext, Nat.le_succ _⟩

theorem follows_attributeUse (hstop : IsStop stop.1) :
    Follows stop rest bound 0 Attribute.placeless attributeUse attributeUse := by
  refine (follows_name hstop).bind fun n n' hn ↦ follows_check_bind fun b ↦ ?_
  have hend (args args' : Option Span)
      (hargs : args'.map (fun _ ↦ nowhere) = args.map fun _ ↦ nowhere) :
      Follows stop rest bound 0 Attribute.placeless
        (spanFrom n.span >>= fun span ↦ pure ⟨n.render, n.span, args, span⟩)
        (spanFrom n'.span >>= fun span ↦ pure ⟨n'.render, n'.span, args', span⟩) :=
    (follows_spanFrom n.span n'.span).bind fun _ _ _ ↦ .pure (by
      rw [Attribute.placeless, Attribute.placeless, hargs, Name.render_eq_of_placeless hn])
  refine .ite Iff.rfl ?_ (hend none none rfl)
  exact .ignore_bind fun _ _ ↦ follows_group.bind fun _ _ _ ↦ hend (some _) (some _) rfl

theorem follows_attributesWithin (hstop : IsStop stop.1) {budget budget' : Nat}
    (hbudget : bound ≤ budget) (hbudget' : bound ≤ budget') :
    Follows stop rest bound 0 (List.map Attribute.placeless) (attributesWithin budget)
      (attributesWithin budget') := by
  induction budget generalizing bound budget' with
  | zero =>
    obtain rfl := Nat.le_zero.mp hbudget
    exact .of_forward (forward_attributesWithin 0)
  | succ budget ih =>
    cases budget' with
    | zero =>
      obtain rfl := Nat.le_zero.mp hbudget'
      exact .of_forward (forward_attributesWithin _)
    | succ budget' =>
      refine follows_check_bind fun b ↦ .ite Iff.rfl (.pure rfl) ?_
      refine (follows_attributeUse hstop).bind fun a a' ha ↦ follows_eat_bind ?_ ?_
      · rw [if_pos rfl, if_pos rfl]
        exact (ih (by omega) (by omega)).bind fun as as' has ↦ .pure (congrArg₂ List.cons ha has)
      · rw [if_neg (by simp), if_neg (by simp)]
        exact .pure (congrArg (fun a ↦ [a]) ha)

theorem follows_attributeTarget (hstop : IsStop stop.1) :
    Follows stop rest bound 0 id attributeTarget attributeTarget := by
  refine .look_bind (fun h ↦ h.kindAhead_eq hstop.1 .colon) fun b ↦ .ite Iff.rfl ?_ (.pure rfl)
  refine follows_advance.bind fun t t' ht ↦ follows_advance.bind fun _ _ _ ↦ .pure ?_
  exact congrArg (fun b : Bare ↦ some (unescape b.2)) ht

end Attributes

end Parser
end Companion
