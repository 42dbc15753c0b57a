import Companion.Proofs.Grammar.Budgets
import Companion.Proofs.Grammar.Quiet
import Companion.Proofs.Token.Spelling

/-!
Reading a whole file. The loops of reading go on to the end of the file and stop there, whatever the
tokens are; and what is reported on the way is paid for with tokens (`Parser.Owes`): a report of a
loop with a token that its step reads, and the report of a missing brace with the brace that was
opened. So reading ends in front of the last token, with no more reports than tokens
(`Parsed.reads_whole_file`).
-/

set_option autoImplicit false
set_option relaxedAutoImplicit false

namespace Companion

namespace Parser

variable {α β : Type}

/-! ### Paying for reports -/

/-- From a cursor at most `debt` diagnostics more are reported than tokens are read; and where the
parser fails, it has reported nothing. -/
def OwesAt (debt : Nat) (p : Parser α) (c : Cursor) : Prop :=
  (p c).reported.length + (p c).cursor.rest.length ≤ c.rest.length + debt ∧
    ∀ d, (p c).result = .error d → (p c).reported = []

/-- Wherever a file is read on, at most `debt` diagnostics more are reported than tokens read. -/
def Owes (debt : Nat) (p : Parser α) : Prop := ∀ c : Cursor, c.Ended → p.OwesAt debt c

section Owes

variable {debt k : Nat} {p : Parser α} {f : α → Parser β} {c : Cursor}

theorem Quiet.owes (hquiet : p.Quiet) (hforward : p.Forward) : p.Owes 0 := by
  intro c _
  have hlength := hforward.length_le c
  refine ⟨?_, fun _ _ ↦ hquiet c⟩
  rw [hquiet c, List.length_nil]
  omega

/-- Two parsers owe what each owes, if the second does not fail. -/
theorem OwesAt.bind (hp : p.OwesAt debt c)
    (hf : ∀ a, (p c).result = .ok a → (f a).OwesAt k (p c).cursor)
    (hsucceeds : ∀ a, (f a).Succeeds) : (p >>= f).OwesAt (debt + k) c := by
  obtain ⟨hlength, hquiet⟩ := hp
  cases hresult : (p c).result with
  | error d =>
    rw [OwesAt, bind_apply_of_error hresult]
    exact ⟨by simp only; omega, fun _ _ ↦ hquiet d hresult⟩
  | ok a =>
    obtain ⟨hlength', -⟩ := hf a hresult
    obtain ⟨b, hb⟩ := hsucceeds a (p c).cursor
    rw [OwesAt, bind_apply_of_ok hresult]
    refine ⟨?_, fun d hd ↦ by cases hb.symm.trans hd⟩
    simp only [List.length_append]
    omega

/-- What is read in silence pays for reports behind it. -/
theorem OwesAt.quiet_bind {n : Nat} (hquiet : p.Quiet) (hforward : p.Forward)
    (hf : ∀ a, (p c).result = .ok a → (p c).cursor.rest.length + n ≤ c.rest.length ∧
      (f a).OwesAt (debt + n) (p c).cursor) : (p >>= f).OwesAt debt c := by
  have hreported := hquiet c
  have hlength := hforward.length_le c
  cases hresult : (p c).result with
  | error d =>
    rw [OwesAt, bind_apply_of_error hresult]
    exact ⟨by simp only [hreported, List.length_nil]; omega, fun _ _ ↦ hreported⟩
  | ok a =>
    obtain ⟨hpaid, hless, hfails⟩ := hf a hresult
    rw [OwesAt, bind_apply_of_ok hresult, hreported]
    exact ⟨by simp only [List.nil_append]; omega, hfails⟩

namespace Owes

protected theorem bind (hp : p.Owes debt) (hforward : p.Forward) (hf : ∀ a, (f a).Owes k)
    (hsucceeds : ∀ a, (f a).Succeeds) : (p >>= f).Owes (debt + k) :=
  fun c hc ↦ (hp c hc).bind (fun a _ ↦ hf a _ (hforward.ended hc)) hsucceeds

theorem quiet_bind (hquiet : p.Quiet) (hforward : p.Forward) (hf : ∀ a, (f a).Owes debt) :
    (p >>= f).Owes debt :=
  fun _ hc ↦ .quiet_bind (n := 0) hquiet hforward fun a _ ↦
    ⟨hforward.length_le _, hf a _ (hforward.ended hc)⟩

/-- A parser that reads a token pays for one report. -/
theorem advances_bind (hquiet : p.Quiet) (hadvances : p.Advances)
    (hf : ∀ a, (f a).Owes (debt + 1)) : (p >>= f).Owes debt :=
  fun _ hc ↦ .quiet_bind hquiet hadvances.forward fun a ha ↦
    ⟨hadvances.length_lt ha, hf a _ (hadvances.forward.ended hc)⟩

protected theorem pure (a : α) : (pure a : Parser α).Owes 0 := (Quiet.pure a).owes (.pure a)

theorem look_bind {f : Cursor → α} {g : α → Parser β} (hg : ∀ a, (g a).Owes debt) :
    (look f >>= g).Owes debt := quiet_bind (.look f) (.look f) hg

protected theorem ite {b : Prop} [Decidable b] {q : Parser α} (hp : p.Owes debt)
    (hq : q.Owes debt) : (if b then p else q).Owes debt := by
  split <;> assumption

end Owes

theorem owes_closingBrace (opened : Span) (what : String) : (closingBrace opened what).Owes 1 := by
  intro c _
  have hlength := (forward_closingBrace opened what).length_le c
  obtain ⟨_, hresult⟩ := succeeds_closingBrace opened what c
  refine ⟨?_, fun _ hd ↦ by cases hresult.symm.trans hd⟩
  have hreported : (closingBrace opened what c).reported.length ≤ 1 := by
    rw [closingBrace]
    split <;> simp
  omega

end Owes

/-! ### Reports of the loops -/

theorem OwesAt.of_eq {debt : Nat} {p q : Parser α} {c : Cursor} (hq : q.OwesAt debt c)
    (h : p c = q c) : p.OwesAt debt c := by
  rw [OwesAt, h]
  exact hq

section Members

variable {members : Parser (List Member)} (hmembers : members.Owes 0) (hforward : members.Forward)

include hmembers hforward

/-- The brace that is missing at the end of a body is paid for with the one that opens it. -/
theorem owes_typeBodyWith (kind : TypeKind) : (typeBodyWith members kind).Owes 0 := by
  refine .quiet_bind (quiet_eat _) (forward_eat _) fun _ ↦ .ite (.pure _) (.ite ?_ ?_)
  · refine .look_bind fun _ ↦ .ite ?_ ?_
    · exact .quiet_bind quiet_group forward_group fun _ ↦ .pure _
    · exact .quiet_bind (quiet_expect _) (forward_expect _) fun _ ↦ .pure _
  · refine .advances_bind (quiet_expect _) (advances_expect (by decide)) fun opened ↦
      hmembers.bind (k := 1) hforward (fun ms ↦ ?_) fun ms ↦
        (succeeds_closingBrace _ _).bind fun _ ↦ .pure ms
    exact (owes_closingBrace _ _).bind (forward_closingBrace _ _) (fun _ ↦ .pure ms) fun _ ↦
      .pure ms

theorem owes_typeDeclWith (kind : TypeKind) (attributes : List AttributeList)
    (mods : List Modifier) (start : Span) :
    (typeDeclWith members kind attributes mods start).Owes 0 := by
  rw [typeDeclWith_eq]
  refine .quiet_bind (quiet_typeHead kind) (forward_typeHead kind) fun head ↦
    (owes_typeBodyWith hmembers hforward kind).bind (k := 0)
      (forward_typeBodyWith hforward kind) (fun ms ↦ ?_) fun ms ↦ ?_
  · exact .quiet_bind (quiet_eat _) (forward_eat _) fun _ ↦ .look_bind fun _ ↦ .pure _
  · exact (succeeds_eat _).bind fun _ ↦ (Succeeds.look _).bind fun _ ↦ .pure _

theorem owes_memberWith : (memberWith members).Owes 0 := by
  refine .look_bind fun start ↦ .quiet_bind quiet_attributeLists forward_attributeLists fun ls ↦
    .quiet_bind quiet_modifiers forward_modifiers fun mods ↦ .look_bind fun c ↦ ?_
  split
  · rename_i kind _
    exact (owes_typeDeclWith hmembers hforward kind ls mods start).bind
      (forward_typeDeclWith hforward kind ls mods start) (fun _ ↦ .pure _) fun _ ↦ .pure _
  · refine .ite (.quiet_bind quiet_advance forward_advance fun _ ↦ .pure _) <| .ite (.pure _) <|
      .ite ((quiet_otherMember start).owes (forward_otherMember start)) ?_
    exact (quiet_typedMember ls mods start).owes (forward_typedMember ls mods start)

end Members

/-- Behind a member that was read nothing is reported; a failure is reported once. -/
theorem reported_memberStep (member : Parser (Option Member)) (c : Cursor) :
    (memberStep member c).reported = (member c).reported ++
      (match (member c).result with
        | .ok _ => []
        | .error d => [d]) := by
  have hunstuck : (unstick c >>= fun _ ↦ pure (member c).result : Parser _).Quiet :=
    .bind (.bind (.look _) fun _ ↦ .ite (quiet_advance.bind fun _ ↦ .pure ()) (.pure ())) fun _ ↦
      .pure _
  obtain ⟨_, hpassed⟩ := succeeds_passFailure (member c).result (attempt member c).cursor
  rw [memberStep, look_bind, bind_apply_of_ok (p := attempt member) rfl, bind_apply_of_ok hpassed]
  refine congrArg ((member c).reported ++ ·) ?_
  refine (congrArg _ (hunstuck _)).trans ((List.append_nil _).trans ?_)
  cases (member c).result with
  | ok m => rfl
  | error d => exact congrArg (d :: ·) (quiet_recoverInBody _)

/-- The report of a failure is paid for by the step that it belongs to. -/
theorem owesAt_memberStep {member : Parser (Option Member)} (hmember : member.Owes 0)
    (hforward : member.Forward) {c : Cursor} (hc : c.Ended) (heof : c.kind ≠ .eof) :
    (memberStep member).OwesAt 0 c := by
  obtain ⟨hpaid, hquiet⟩ := hmember c hc
  have hless := length_memberStep_lt hforward heof
  have hreported := reported_memberStep member c
  obtain ⟨_, hok⟩ := succeeds_memberStep member c
  refine ⟨?_, fun d hd ↦ by cases hok.symm.trans hd⟩
  cases hresult : (member c).result with
  | ok m =>
    have hrest : (memberStep member c).cursor.rest.length ≤ (member c).cursor.rest.length := by
      rw [memberStep, look_bind, cursor_bind_of_ok (p := attempt member) rfl]
      exact ((forward_passFailure _).bind fun _ ↦ (forward_unstick c).bind fun _ ↦
        .pure _).length_le (attempt member c).cursor
    rw [hresult, List.append_nil] at hreported
    rw [hreported]
    omega
  | error d =>
    rw [hresult, hquiet d hresult] at hreported
    rw [hreported, List.nil_append, List.length_singleton]
    omega

theorem succeeds_keepRead (r : Except Diagnostic (Option Member)) (rest : List Member) :
    (keepRead r rest).Succeeds := by
  obtain ⟨kept, hkept⟩ := exists_keepRead_eq_append r
  rw [hkept]
  exact .pure _

theorem succeeds_membersWith (member : Parser (Option Member)) :
    ∀ budget, (membersWith member budget).Succeeds
  | 0 => .pure []
  | budget + 1 => by
    rw [membersWith_succ]
    exact .bind (.look _) fun _ ↦ .ite (.pure []) <| (succeeds_memberStep member).bind fun r ↦
      (succeeds_membersWith member budget).bind (succeeds_keepRead r)

theorem owes_keepRead (r : Except Diagnostic (Option Member)) (rest : List Member) :
    (keepRead r rest).Owes 0 := by
  obtain ⟨kept, hkept⟩ := exists_keepRead_eq_append r
  rw [hkept]
  exact .pure _

theorem owes_membersWith {member : Parser (Option Member)} (hmember : member.Owes 0)
    (hforward : member.Forward) : ∀ budget, (membersWith member budget).Owes 0
  | 0 => .pure []
  | budget + 1 => by
    intro c hc
    have hrest := owes_membersWith hmember hforward budget
    rw [membersWith_succ]
    refine .quiet_bind (n := 0) (.look _) (.look _) fun a ha ↦ ⟨Nat.le_refl _, ?_⟩
    obtain rfl : c = a := Except.ok.inj ha
    split
    · exact Owes.pure [] c hc
    · rename_i hgoes
      have heof : c.kind ≠ .eof := fun h ↦ hgoes (by simp [h])
      refine (owesAt_memberStep hmember hforward hc heof).bind (k := 0) (fun r _ ↦ ?_) fun r ↦ ?_
      · exact hrest.bind (forward_membersWith hforward budget) (owes_keepRead r)
          (succeeds_keepRead r) _ ((forward_memberStep hforward).ended hc)
      · exact (succeeds_membersWith member budget).bind (succeeds_keepRead r)

theorem owes_membersWithin (budget : Nat) : ∀ depth, (membersWithin budget depth).Owes 0
  | 0 => .pure []
  | depth + 1 => owes_membersWith (owes_memberWith (owes_membersWithin budget depth)
      (forward_membersWithin budget depth)) (forward_memberWith (forward_membersWithin _ _)) budget

theorem owes_members : members.Owes 0 :=
  fun c hc ↦ (owes_membersWithin (c.rest.length + 1) (c.rest.length + 1) c hc).of_eq rfl

theorem owes_declarationEntry : declarationEntry.Owes 0 := by
  refine .look_bind fun start ↦ .quiet_bind quiet_attributeLists forward_attributeLists fun ls ↦
    .quiet_bind quiet_modifiers forward_modifiers fun mods ↦ .look_bind fun c ↦ ?_
  split
  · rename_i kind _
    exact (owes_typeDeclWith owes_members forward_members kind ls mods start).bind
      (forward_typeDeclWith forward_members kind ls mods start) (fun _ ↦ .pure _) fun _ ↦ .pure _
  · exact .ite (.quiet_bind quiet_memberRest forward_memberRest fun _ ↦ .pure _) <|
      .ite (.pure _) ((quiet_failExpected _ _).owes (forward_failExpected _ _))

theorem succeeds_keepEntry (e : Entry) (rest : List Using × List Item) :
    (keepEntry e rest).Succeeds := by
  cases e <;> exact .pure _

theorem succeeds_entriesWith (body : BodyEnd → Parser (List Using × List Item))
    (bodyEnd : BodyEnd) :
    ∀ budget, (entriesWith body bodyEnd budget).Succeeds
  | 0 => .pure _
  | budget + 1 => by
    rw [entriesWith_succ]
    exact .bind (.look _) fun _ ↦ .ite (.pure _) <| (succeeds_stepWith body).bind fun e ↦
      (succeeds_entriesWith body bodyEnd budget).bind (succeeds_keepEntry e)

theorem owes_keepEntry (e : Entry) (rest : List Using × List Item) : (keepEntry e rest).Owes 0 := by
  cases e <;> exact .pure _

section Body

variable {body : BodyEnd → Parser (List Using × List Item)}
  (hbody : ∀ bodyEnd, (body bodyEnd).Owes 0)
  (hforward : ∀ bodyEnd, (body bodyEnd).Forward)

include hbody hforward

/-- The brace that is missing behind a namespace is paid for with the one that opens it. -/
theorem owes_namespaceWith : (namespaceWith body).Owes 0 := by
  refine .quiet_bind (quiet_expect _) (forward_expect _) fun start ↦
    .quiet_bind quiet_name forward_name fun n ↦ .quiet_bind (quiet_eat _) (forward_eat _) fun _ ↦
      .ite ?_ ?_
  · exact (hbody _).bind (k := 0) (hforward _) (fun _ ↦ .look_bind fun _ ↦ .pure _) fun _ ↦
      (Succeeds.look _).bind fun _ ↦ .pure _
  · refine .advances_bind (quiet_expect _) (advances_expect (by decide)) fun opened ↦
      (hbody _).bind (k := 1) (hforward _) (fun read ↦ ?_) fun read ↦ ?_
    · refine (owes_closingBrace _ _).bind (k := 0) (forward_closingBrace _ _) (fun _ ↦ ?_)
        fun _ ↦ ?_
      · exact .quiet_bind (quiet_eat _) (forward_eat _) fun _ ↦ .look_bind fun _ ↦ .pure _
      · exact (succeeds_eat _).bind fun _ ↦ (Succeeds.look _).bind fun _ ↦ .pure _
    · exact (succeeds_closingBrace _ _).bind fun _ ↦ (succeeds_eat _).bind fun _ ↦
        (Succeeds.look _).bind fun _ ↦ .pure _

theorem owes_entryWith : (entryWith body).Owes 0 := by
  refine .look_bind fun c ↦ .ite ?_ (.ite ?_ (.ite ?_ (.ite ?_ owes_declarationEntry)))
  · exact ((quiet_usingDirective false).map _).owes ((forward_usingDirective false).map _)
  · exact .quiet_bind quiet_advance forward_advance fun _ ↦
      ((quiet_usingDirective true).map _).owes ((forward_usingDirective true).map _)
  · exact .quiet_bind quiet_recoverToItem forward_recoverToItem fun _ ↦ .pure _
  · exact (owes_namespaceWith hbody hforward).bind (k := 0) (forward_namespaceWith hforward)
      (fun _ ↦ .pure _) fun _ ↦ .pure _

theorem owesAt_stepWith {c : Cursor} (hc : c.Ended) (heof : c.kind ≠ .eof) :
    (stepWith body).OwesAt 0 c := by
  obtain ⟨hpaid, hquiet⟩ := owes_entryWith hbody hforward c hc
  have hless := length_stepWith_lt hforward heof
  obtain ⟨_, hok⟩ := succeeds_stepWith body c
  refine ⟨?_, fun d hd ↦ by cases hok.symm.trans hd⟩
  rw [stepWith, look_bind] at hless ⊢
  dsimp only [id] at hless ⊢
  split at hless
  · rename_i hbrace
    rw [if_pos hbrace]
    rw [bind_apply_of_ok (p := report _) rfl] at hless ⊢
    have hreported : (advance >>= fun _ ↦ pure Entry.nothing : Parser Entry).Quiet :=
      quiet_advance.bind fun _ ↦ .pure _
    simp only [hreported _, report] at hless ⊢
    simp only [List.append_nil, List.length_singleton]
    omega
  · rename_i hbrace
    rw [if_neg hbrace]
    split at hless
    · rename_i hsemicolon
      rw [if_pos hsemicolon]
      exact ((quiet_advance.bind fun _ ↦ .pure Entry.nothing).owes
        (forward_advance.bind fun _ ↦ .pure _) c hc).1
    · rename_i hsemicolon
      rw [if_neg hsemicolon]
      rw [bind_apply_of_ok (p := attempt (entryWith body)) rfl] at hless ⊢
      cases hresult : (entryWith body c).result with
      | ok e =>
        show ((entryWith body c).reported ++ []).length + (entryWith body c).cursor.rest.length ≤ _
        rw [List.append_nil]
        exact hpaid
      | error d =>
        have hrecovered : (recoverToItem >>= fun _ ↦ pure Entry.nothing : Parser Entry).Quiet :=
          quiet_recoverToItem.bind fun _ ↦ .pure _
        rw [hresult] at hless
        have hreported : (attempt (entryWith body) c).reported = [] := hquiet d hresult
        simp only [hreported, bind_apply_of_ok (p := report d) rfl, hrecovered _, report] at hless ⊢
        simp only [List.nil_append, List.append_nil, List.length_singleton]
        omega

theorem owes_entriesWith (bodyEnd : BodyEnd) :
    ∀ budget, (entriesWith body bodyEnd budget).Owes 0
  | 0 => .pure _
  | budget + 1 => by
    intro c hc
    have hrest := owes_entriesWith bodyEnd budget
    rw [entriesWith_succ]
    refine .quiet_bind (n := 0) (.look _) (.look _) fun k hk ↦ ⟨Nat.le_refl _, ?_⟩
    obtain rfl : c.kind = k := Except.ok.inj hk
    split
    · exact Owes.pure _ c hc
    · rename_i hgoes
      have heof : c.kind ≠ .eof := fun h ↦ hgoes (by simp [h])
      refine (owesAt_stepWith hbody hforward hc heof).bind (k := 0) (fun e _ ↦ ?_) fun e ↦ ?_
      · exact hrest.bind (forward_entriesWith hforward bodyEnd budget) (owes_keepEntry e)
          (succeeds_keepEntry e) _ ((forward_stepWith hforward).ended hc)
      · exact (succeeds_entriesWith body bodyEnd budget).bind (succeeds_keepEntry e)

end Body

theorem owes_namespaceBodyWithin (budget : Nat) :
    ∀ depth bodyEnd, (namespaceBodyWithin budget depth bodyEnd).Owes 0
  | 0, _ => .pure _
  | depth + 1, bodyEnd => owes_entriesWith (owes_namespaceBodyWithin budget depth)
      (forward_namespaceBodyWithin budget depth) bodyEnd budget

theorem owes_namespaceBody (bodyEnd : BodyEnd) : (namespaceBody bodyEnd).Owes 0 := fun c hc ↦
  (owes_namespaceBodyWithin (c.rest.length + 1) (c.rest.length + 1) bodyEnd c hc).of_eq rfl

theorem succeeds_namespaceBody (bodyEnd : BodyEnd) : (namespaceBody bodyEnd).Succeeds :=
  fun c ↦ succeeds_entriesWith _ bodyEnd (c.rest.length + 1) c

/-! ### The end of the file -/

/-- The loop that reads up to the end of the file gets there. -/
theorem kind_entriesWith {body : BodyEnd → Parser (List Using × List Item)}
    (hforward : ∀ bodyEnd, (body bodyEnd).Forward) {budget : Nat} {c : Cursor} (hc : c.Ended)
    (hlength : c.rest.length ≤ budget) :
    (entriesWith body .endOfFile budget c).cursor.kind = .eof := by
  induction budget generalizing c with
  | zero => exact absurd hc.length_pos (Nat.not_lt.mpr hlength)
  | succ budget ih =>
    rw [entriesWith_succ, look_bind]
    split
    · rename_i hstop
      exact show c.kind = .eof by simpa using hstop
    · rename_i hgoes
      have heof : c.kind ≠ .eof := fun h ↦ hgoes (by simp [h])
      have hless := length_stepWith_lt hforward heof
      obtain ⟨e, he⟩ := succeeds_stepWith body c
      obtain ⟨rest, hrest⟩ := succeeds_entriesWith body .endOfFile budget (stepWith body c).cursor
      rw [cursor_bind_of_ok he, cursor_bind_of_ok hrest]
      refine Eq.trans (congrArg Cursor.kind ?_)
        (ih ((forward_stepWith hforward).ended hc) (by omega))
      cases e <;> rfl

theorem kind_namespaceBody {c : Cursor} (hc : c.Ended) :
    (namespaceBody .endOfFile c).cursor.kind = .eof :=
  kind_entriesWith (forward_namespaceBodyWithin _ _) hc (Nat.le_succ _)

end Parser

/-! ### Whole files -/

theorem Token.kind_ne_eof_of_mem_locate {t : Token} {cs : List Char}
    (h : t ∈ locate 0 (Lexeme.all cs)) : t.kind ≠ .eof := by
  have hspelled : t.bare ∈ spell cs := by
    rw [spell_eq_filterMap_all, ← map_bare_locate 0]
    exact List.mem_map_of_mem h
  exact ne_eof_of_mem_spell hspelled

/-- What the parser, rather than the lexer, reports: codes that start with the digit 1. -/
def Diagnostic.isSyntactic (d : Diagnostic) : Bool := d.code.number / 1000 = 1

namespace Parsed

/-- The tokens of a source that are read: all but the errors among them. -/
def readable (source : String) : List Token := (Token.ofSource source).filter (·.kind ≠ .error)

theorem readable_eq (source : String) :
    readable source = (Token.locate 0 (Token.Lexeme.all source.toList)).filter (·.kind ≠ .error) ++
      [Token.endAt (Text.byteLength source.toList)] := by
  rw [readable, Token.ofSource, List.filter_append]
  rfl

theorem ended_readable (source : String) : (Cursor.ofTokens (readable source)).Ended :=
  ⟨_, _, readable_eq source, rfl, fun _ ht ↦
    Token.kind_ne_eof_of_mem_locate (List.mem_of_mem_filter ht)⟩

theorem length_readable_le (source : String) :
    (readable source).length ≤ (Token.ofSource source).countP (·.kind ≠ .eof) + 1 := by
  have hfront : (Token.locate 0 (Token.Lexeme.all source.toList)).countP (·.kind ≠ .eof) =
      (Token.locate 0 (Token.Lexeme.all source.toList)).length :=
    List.countP_eq_length.mpr fun t ht ↦ by simpa using Token.kind_ne_eof_of_mem_locate ht
  have hfilter := List.length_filter_le (fun t : Token ↦ decide (t.kind ≠ .error))
    (Token.locate 0 (Token.Lexeme.all source.toList))
  rw [readable_eq, List.length_append, List.length_singleton, Token.ofSource, List.countP_append,
    hfront]
  omega

theorem countP_isSyntactic_le (path source : String) :
    (ofSource path source).diagnostics.countP (·.isSyntactic) ≤
      (ofTokens (readable source)).reported.length := by
  have hlexical (ts : List Token) : (ts.map unrecognized).countP (·.isSyntactic) = 0 :=
    List.countP_eq_zero.mpr fun d hd ↦ by
      obtain ⟨t, -, rfl⟩ := List.mem_map.mp hd
      simp [Diagnostic.isSyntactic, unrecognized, Diagnostic.error, Diagnostic.Code.number]
  have hsame : (·.isSyntactic) ∘ (fun d : Diagnostic ↦ d.inFile path) = (·.isSyntactic) := rfl
  rw [ofSource, ofLexed, Diagnostic.sortByPlace, (List.mergeSort_perm _ _).countP_eq,
    List.countP_map, hsame, List.countP_append, hlexical, Nat.zero_add]
  exact List.countP_le_length

/-- Reading a file is total, also in that nothing of the file is left over: no loop of it stops for
want of budget, each step of its two main loops reads a token, it gives a value and stops in front
of the end of the file; and there are no more reports of the parser than tokens. -/
theorem reads_whole_file (path source : String) :
    Parser.BudgetsSuffice ∧ Parser.LoopsAdvance ∧
      (∃ body, (ofTokens (readable source)).result = .ok body) ∧
      (∃ e, (ofTokens (readable source)).cursor.rest = [e] ∧ e.kind = .eof) ∧
      (ofTokens (readable source)).reported.length ≤
        (Token.ofSource source).countP (·.kind ≠ .eof) ∧
      (ofSource path source).diagnostics.countP (·.isSyntactic) ≤
        (Token.ofSource source).countP (·.kind ≠ .eof) := by
  have hended := ended_readable source
  have hend := (Parser.forward_namespaceBody .endOfFile).ended hended
  obtain ⟨e, hrest, he⟩ := hend.rest_eq (Parser.kind_namespaceBody hended)
  have hpaid : (ofTokens (readable source)).reported.length ≤
      (Token.ofSource source).countP (·.kind ≠ .eof) := by
    have hlength := length_readable_le source
    have howed := (Parser.owes_namespaceBody .endOfFile _ hended).1
    rw [hrest] at howed
    exact Nat.le_of_succ_le_succ (howed.trans hlength)
  exact ⟨Parser.budgetsSuffice, Parser.loopsAdvance, Parser.succeeds_namespaceBody _ _,
    ⟨e, hrest, he⟩, hpaid, (countP_isSyntactic_le path source).trans hpaid⟩

end Parsed
end Companion
