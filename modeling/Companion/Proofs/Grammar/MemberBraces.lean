import Companion.Proofs.Grammar.Progress

/-!
Closing braces in the rest of a member. What is passed over for a member that is not looked into is
a run of tokens and groups, and a group ends where as many brackets have been closed as were opened,
whatever their shapes. So every closing brace in the run closes a bracket of the run, and reading
stops in front of one that would close none. But that bracket may be a round or a square one, and
then the brace can be the one that ends the type around the member.
-/

set_option autoImplicit false
set_option relaxedAutoImplicit false

namespace Companion

/-! ### The brackets that are open -/

namespace Token

/-- The brackets open behind a token, the innermost first. A closing bracket closes the innermost
one, whatever the shapes of both. -/
def openBehind (opened : List Token) (t : Token) : List Token :=
  if t.kind.isOpener then t :: opened else if t.kind.isCloser then opened.tail else opened

/-- The brackets open behind some tokens. -/
def openAfter (opened ts : List Token) : List Token := ts.foldl openBehind opened

/-- Every closing brace among the tokens closes a bracket of which something holds, where some
brackets are open in front of the tokens. -/
def BracesClose (p : Token → Prop) (opened : List Token) : List Token → Prop
  | [] => True
  | t :: ts => (t.kind = .rbrace → ∃ o ∈ opened.head?, p o) ∧ BracesClose p (openBehind opened t) ts

/-- Opening brackets, as many as groups are open. -/
structure AreOpen (depth : Nat) (opened : List Token) : Prop where
  length : opened.length = depth
  openers : ∀ o ∈ opened, o.kind.isOpener = true

variable {p q : Token → Prop} {opened ts us : List Token} {t : Token} {depth : Nat}

theorem openAfter_append : openAfter opened (ts ++ us) = openAfter (openAfter opened ts) us :=
  List.foldl_append

theorem bracesClose_append : BracesClose p opened (ts ++ us) ↔
    BracesClose p opened ts ∧ BracesClose p (openAfter opened ts) us := by
  induction ts generalizing opened with
  | nil => exact (true_and _).symm.to_iff
  | cons t ts ih =>
    rw [List.cons_append, BracesClose, BracesClose, ih, and_assoc]
    rfl

theorem bracesClose_and : BracesClose (fun o ↦ p o ∧ q o) opened ts ↔
    BracesClose p opened ts ∧ BracesClose q opened ts := by
  induction ts generalizing opened with
  | nil => exact (and_self_iff).symm
  | cons t ts ih =>
    have hhead : (∃ o ∈ opened.head?, p o ∧ q o) ↔
        (∃ o ∈ opened.head?, p o) ∧ ∃ o ∈ opened.head?, q o := by
      cases opened <;> simp
    simp only [BracesClose, ih, hhead]
    tauto

/-- A run of tokens in which every closing brace closes a bracket ends in front of one that closes
none. -/
theorem prefix_of_bracesClose {run rest inside after : List Token}
    (h : BracesClose p [] run) (hrest : run ++ rest = inside ++ t :: after)
    (ht : t.kind = .rbrace) (hinside : openAfter [] inside = []) : run <+: inside := by
  rcases List.append_eq_append_iff.mp hrest with ⟨more, rfl, -⟩ | ⟨more, rfl, hmore⟩
  · exact List.prefix_append run more
  · cases more with
    | nil => exact ⟨[], by rw [List.append_nil, List.append_nil]⟩
    | cons u more =>
      obtain ⟨rfl, -⟩ := List.cons.inj hmore
      obtain ⟨o, ho, -⟩ := (bracesClose_append.mp h).2.1 ht
      rw [hinside] at ho
      cases ho

theorem areOpen_nil : AreOpen 0 [] := ⟨rfl, fun _ h ↦ absurd h List.not_mem_nil⟩

theorem AreOpen.eq_nil (h : AreOpen 0 opened) : opened = [] :=
  List.eq_nil_of_length_eq_zero h.length

/-- Where a group is open, a closing brace closes a bracket. -/
theorem AreOpen.exists_head (h : AreOpen (depth + 1) opened) :
    ∃ o ∈ opened.head?, o.kind.isOpener = true := by
  cases opened with
  | nil => cases h.length
  | cons o opened => exact ⟨o, rfl, h.openers o List.mem_cons_self⟩

theorem AreOpen.opener (h : AreOpen depth opened) (ht : t.kind.isOpener = true) :
    AreOpen (depth + 1) (openBehind opened t) := by
  rw [openBehind, if_pos ht]
  exact ⟨congrArg (· + 1) h.length, List.forall_mem_cons.mpr ⟨ht, h.openers⟩⟩

theorem AreOpen.closer (h : AreOpen depth opened) (hopener : t.kind.isOpener = false)
    (ht : t.kind.isCloser = true) : AreOpen (depth - 1) (openBehind opened t) := by
  rw [openBehind, if_neg (by simp [hopener]), if_pos ht]
  exact ⟨by rw [List.length_tail, h.length], fun o ho ↦ h.openers o (List.mem_of_mem_tail ho)⟩

theorem AreOpen.plain (h : AreOpen depth opened) (hopener : t.kind.isOpener = false)
    (ht : t.kind.isCloser = false) : AreOpen depth (openBehind opened t) := by
  rwa [openBehind, if_neg (by simp [hopener]), if_neg (by simp [ht])]

end Token

namespace Cursor

open Token

variable {depth : Nat} {ts opened : List Token}

/-- What is read behind an open group up to the end of it, or of the file. If the group is closed,
nothing is left open. -/
theorem reads_closing_bracesClose (previous : Span) (h : AreOpen (depth + 1) opened) :
    ∃ read, Reads ⟨previous, ts⟩ read (((closing depth ts).map fun found ↦
        ⟨found.1.span, found.2⟩).getD (toEnd previous ts)) ∧
      BracesClose (·.kind.isOpener = true) opened read ∧
      ((closing depth ts).isSome = true → AreOpen 0 (openAfter opened read)) := by
  fun_induction closing depth ts generalizing previous opened with
  | case1 => exact ⟨[], .nothing _, trivial, fun hsome ↦ by cases hsome⟩
  | case2 depth u us hkind =>
    rw [toEnd, if_pos hkind]
    exact ⟨[], .nothing _, trivial, fun hsome ↦ by cases hsome⟩
  | case3 depth u us hkind hopener ih =>
    obtain ⟨read, hread, hbraces, hopen⟩ := ih u.span (h.opener hopener)
    rw [toEnd, if_neg hkind]
    exact ⟨u :: read, .token hkind hread, ⟨fun _ ↦ h.exists_head, hbraces⟩, hopen⟩
  | case4 u us hkind hopener hcloser =>
    exact ⟨[u], .token hkind (.nothing _), ⟨fun _ ↦ h.exists_head, trivial⟩,
      fun _ ↦ h.closer (Bool.eq_false_iff.mpr hopener) hcloser⟩
  | case5 u us hkind hopener hcloser outer ih =>
    obtain ⟨read, hread, hbraces, hopen⟩ :=
      ih u.span (h.closer (Bool.eq_false_iff.mpr hopener) hcloser)
    rw [toEnd, if_neg hkind]
    exact ⟨u :: read, .token hkind hread, ⟨fun _ ↦ h.exists_head, hbraces⟩, hopen⟩
  | case6 depth u us hkind hopener hcloser ih =>
    obtain ⟨read, hread, hbraces, hopen⟩ := ih u.span
      (h.plain (Bool.eq_false_iff.mpr hopener) (Bool.eq_false_iff.mpr hcloser))
    rw [toEnd, if_neg hkind]
    exact ⟨u :: read, .token hkind hread, ⟨fun _ ↦ h.exists_head, hbraces⟩, hopen⟩

end Cursor

/-! ### Parsers that close what they open -/

namespace Parser

open Token

variable {α β : Type} {c : Cursor} {p : Parser α} {f : α → Parser β}

/-- From a cursor a parser reads tokens of which every closing brace closes a bracket that was read
with them; and where it gives a value, no bracket is left open. -/
def Encloses (p : Parser α) (c : Cursor) : Prop :=
  ∃ read, c.Reads read (p c).cursor ∧ BracesClose (·.kind.isOpener = true) [] read ∧
    ∀ a, (p c).result = .ok a → AreOpen 0 (openAfter [] read)

theorem encloses_of_cursor_eq (h : (p c).cursor = c) : p.Encloses c :=
  ⟨[], h.symm ▸ .nothing c, trivial, fun _ _ ↦ areOpen_nil⟩

theorem Encloses.bind (hp : p.Encloses c) (hf : ∀ a, (f a).Encloses (p c).cursor) :
    (p >>= f).Encloses c := by
  obtain ⟨read, hread, hbraces, hopen⟩ := hp
  cases hresult : (p c).result with
  | error d =>
    rw [Encloses, bind_apply_of_error hresult]
    exact ⟨read, hread, hbraces, fun _ h ↦ by cases h⟩
  | ok a =>
    obtain ⟨more, hmore, hbraces', hopen'⟩ := hf a
    have hnone : openAfter [] read = [] := (hopen a hresult).eq_nil
    rw [Encloses, bind_apply_of_ok hresult]
    refine ⟨read ++ more, hread.trans hmore, bracesClose_append.mpr ⟨hbraces, ?_⟩, fun b hb ↦ ?_⟩
    · rwa [hnone]
    · rw [openAfter_append, hnone]
      exact hopen' b hb

theorem Encloses.map (hp : p.Encloses c) (g : α → β) : (g <$> p).Encloses c :=
  hp.bind fun _ ↦ encloses_of_cursor_eq rfl

/-- A token that opens no group and is no closing brace, or the end of the file. -/
theorem encloses_advance (hopener : c.kind.isOpener = false) (hbrace : c.kind ≠ .rbrace) :
    advance.Encloses c := by
  by_cases heof : c.kind = .eof
  · refine encloses_of_cursor_eq ?_
    obtain ⟨previous, rest⟩ := c
    cases rest with
    | nil => rfl
    | cons t ts => exact if_pos heof
  · refine ⟨[c.current], Cursor.reads_next_of_kind heof, ⟨fun h ↦ absurd h hbrace, trivial⟩, ?_⟩
    intro _ _
    cases hcloser : c.current.kind.isCloser with
    | true => exact areOpen_nil.closer hopener hcloser
    | false => exact areOpen_nil.plain hopener hcloser

theorem encloses_eat {k : Token.Kind} (hk : k.isOpener = false) (hbrace : k ≠ .rbrace) :
    (eat k).Encloses c := by
  by_cases hkind : c.kind = k
  · obtain ⟨read, hread, hbraces, hopen⟩ :=
      encloses_advance (c := c) (hkind ▸ hk) (hkind ▸ hbrace)
    rw [Encloses, eat, if_pos hkind]
    exact ⟨read, hread, hbraces, fun _ _ ↦ hopen _ rfl⟩
  · exact encloses_of_cursor_eq (by rw [eat, if_neg hkind])

/-- A group, also one that is not closed. -/
theorem encloses_group (hopener : c.kind.isOpener = true) : group.Encloses c := by
  have heof : c.kind ≠ .eof := fun h ↦ by
    rw [h] at hopener
    cases hopener
  have hfirst := Cursor.reads_next_of_kind heof
  have hbrace : c.current.kind ≠ .rbrace := fun h ↦ by
    rw [Cursor.kind, h] at hopener
    cases hopener
  have hopened : AreOpen 1 (openBehind [] c.current) := areOpen_nil.opener hopener
  obtain ⟨read, hread, hbraces, hopen⟩ :=
    Cursor.reads_closing_bracesClose c.next.previous hopened
  have hall : BracesClose (·.kind.isOpener = true) [] (c.current :: read) :=
    ⟨fun h ↦ absurd h hbrace, hbraces⟩
  rw [Encloses, group, if_pos (show c.current.kind.isOpener = true from hopener)]
  cases hclosing : Cursor.closing 0 c.next.rest with
  | some found =>
    rw [hclosing] at hread hopen
    exact ⟨c.current :: read, hfirst.trans hread, hall, fun _ _ ↦ hopen rfl⟩
  | none =>
    rw [hclosing] at hread
    exact ⟨c.current :: read, hfirst.trans hread, hall, fun _ h ↦ by cases h⟩

/-! ### The rest of a member -/

theorem encloses_memberRestWithin (budget : Nat) (inExpression : Bool) (c : Cursor) :
    (memberRestWithin budget inExpression).Encloses c := by
  induction budget generalizing inExpression c with
  | zero => exact encloses_of_cursor_eq rfl
  | succ budget ih =>
    rw [Encloses, memberRestWithin, look_bind, ← Encloses]
    have hadvance {β : Type} {f : Token → Parser β} (hopener : c.kind.isOpener = false)
        (hbrace : c.kind ≠ .rbrace) (hf : ∀ t, (f t).Encloses (advance c).cursor) :
        (advance >>= f).Encloses c := (encloses_advance hopener hbrace).bind hf
    cases hkind : c.kind
    case semicolon =>
      exact (encloses_advance (by rw [hkind]; rfl) (by rw [hkind]; decide)).map _
    case rbrace => exact encloses_of_cursor_eq rfl
    case eof => exact encloses_of_cursor_eq rfl
    case lbrace =>
      refine (encloses_group (by rw [hkind]; rfl)).bind fun _ ↦
        Encloses.bind (encloses_of_cursor_eq rfl) fun assigned ↦ ?_
      split
      · exact ih true _
      · exact (encloses_eat rfl (by decide)).map _
    case lparen => exact (encloses_group (by rw [hkind]; rfl)).bind fun _ ↦ ih _ _
    case lbracket => exact (encloses_group (by rw [hkind]; rfl)).bind fun _ ↦ ih _ _
    all_goals exact hadvance (by rw [hkind]; rfl) (by rw [hkind]; decide) fun _ ↦ ih _ _

/-- In the tokens that are passed over for a member, whether or not that fails, every closing brace
closes a bracket that was opened among them; so reading stops at the latest in front of a closing
brace at which all brackets have been closed. Every closing brace closes an opening brace if and
only if none closes a bracket of another shape. -/
theorem memberRest_bracesClose (c : Cursor) :
    ∃ run, c.Reads run (memberRest c).cursor ∧ BracesClose (·.kind.isOpener = true) [] run ∧
      (∀ inside t after, c.rest = inside ++ t :: after → t.kind = .rbrace →
        openAfter [] inside = [] → run <+: inside) ∧
      (BracesClose (·.kind = .lbrace) [] run ↔
        BracesClose (fun o ↦ o.kind ≠ .lparen ∧ o.kind ≠ .lbracket) [] run) := by
  obtain ⟨run, hrun, hbraces, -⟩ := encloses_memberRestWithin (c.rest.length + 1) false c
  refine ⟨run, hrun, hbraces, fun inside t after hrest ht hinside ↦ ?_, ?_⟩
  · exact prefix_of_bracesClose hbraces (hrun.rest_eq.symm.trans hrest) ht hinside
  · have hshape (o : Token) : o.kind = .lbrace ↔
        o.kind.isOpener = true ∧ o.kind ≠ .lparen ∧ o.kind ≠ .lbracket := by
      cases o.kind <;> decide
    simp only [hshape, bracesClose_and, hbraces, true_and]

/-- The tokens of `M(}class D{int x;}` from an offset on, with the end of the file. -/
private def openMethod (n : Nat) : List Token :=
  [⟨.ident, ⟨n, n + 1⟩, "M"⟩, ⟨.lparen, ⟨n + 1, n + 2⟩, "("⟩, ⟨.rbrace, ⟨n + 2, n + 3⟩, "\x7d"⟩,
    ⟨.classWord, ⟨n + 3, n + 8⟩, "class"⟩, ⟨.ident, ⟨n + 9, n + 10⟩, "D"⟩,
    ⟨.lbrace, ⟨n + 10, n + 11⟩, "\x7b"⟩, ⟨.ident, ⟨n + 11, n + 14⟩, "int"⟩,
    ⟨.ident, ⟨n + 15, n + 16⟩, "x"⟩, ⟨.semicolon, ⟨n + 16, n + 17⟩, ";"⟩,
    ⟨.rbrace, ⟨n + 17, n + 18⟩, "\x7d"⟩, Token.endAt (n + 18)]

/-- The tokens of `M(]`. -/
private def crossedMethod : List Token :=
  [⟨.ident, ⟨13, 14⟩, "M"⟩, ⟨.lparen, ⟨14, 15⟩, "("⟩, ⟨.rbracket, ⟨15, 16⟩, "]"⟩]

/-- The round bracket counts as closed, and the member ends in front of the brace. -/
theorem memberRest_bracesClose_crossed :
    ∃ run, (Cursor.mk ⟨8, 12⟩ (crossedMethod ++ ⟨.rbrace, ⟨16, 17⟩, "\x7d"⟩ :: openMethod 17)).Reads
        run (memberRest ⟨⟨8, 12⟩, crossedMethod ++ ⟨.rbrace, ⟨16, 17⟩, "\x7d"⟩ ::
          openMethod 17⟩).cursor ∧
      run <+: crossedMethod := by
  obtain ⟨run, hrun, -, hends, -⟩ :=
    memberRest_bracesClose ⟨⟨8, 12⟩, crossedMethod ++ ⟨.rbrace, ⟨16, 17⟩, "\x7d"⟩ :: openMethod 17⟩
  exact ⟨run, hrun, hends crossedMethod _ _ rfl rfl rfl⟩

/-- A closing brace is passed over in front of which no brace was opened, and the class behind it
with it. -/
theorem not_forall_memberRest_bracesClose :
    ¬ ∀ (c : Cursor) (run : List Token), c.Reads run (memberRest c).cursor →
      ∀ front t back, run = front ++ t :: back → t.kind = .rbrace →
        ∃ o ∈ front, o.kind = .lbrace := by
  intro hall
  have hcursor : (memberRest ⟨⟨8, 12⟩, openMethod 13⟩).cursor.rest = [Token.endAt 31] := by
    decide +kernel
  obtain ⟨run, hrun, -⟩ := forward_memberRest ⟨⟨8, 12⟩, openMethod 13⟩
  have hread : run = (openMethod 13).dropLast := by
    have hrest := hrun.rest_eq
    rw [hcursor] at hrest
    rw [show openMethod 13 = run ++ [Token.endAt 31] from hrest, List.dropLast_concat]
  obtain ⟨o, ho, hkind⟩ := hall _ run hrun ((openMethod 13).take 2) _ _ hread rfl
  revert o
  decide

end Parser
end Companion
