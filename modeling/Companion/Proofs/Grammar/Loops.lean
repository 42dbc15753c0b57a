import Companion.Proofs.Grammar.Exact
import Companion.Proofs.Grammar.Reading

/-!
The loops over members and over what stands in a namespace, step by step. A step attempts to read
one thing, passes over it if that fails, and does not stay where it is. Parsers are a lawful monad,
so steps can be taken apart; and whatever a parser does, it only moves forward
(`Parser.forward_memberWith`, `Parser.forward_namespaceBody`).
-/

set_option autoImplicit false
set_option relaxedAutoImplicit false

namespace Companion

/-! ### Cursors in a file -/

namespace Cursor

/-- The end of the file is ahead, as the last token and no other. -/
def Ended (c : Cursor) : Prop :=
  ∃ front e, c.rest = front ++ [e] ∧ e.kind = .eof ∧ ∀ t ∈ front, t.kind ≠ .eof

variable {c c' : Cursor} {read : List Token}

theorem Ended.of_reads (h : c.Ended) (hread : c.Reads read c') : c'.Ended := by
  induction hread with
  | nothing => exact h
  | @token _ t ts _ _ hkind _ ih =>
    obtain ⟨front, e, heq, he, hfront⟩ := h
    cases front with
    | nil =>
      obtain ⟨rfl, -⟩ := List.cons.inj heq
      exact absurd he hkind
    | cons u us =>
      obtain ⟨-, hts⟩ := List.cons.inj heq
      exact ih ⟨us, e, hts, he, fun v hv ↦ hfront v (List.mem_cons_of_mem _ hv)⟩

theorem Ended.length_pos (h : c.Ended) : 0 < c.rest.length := by
  obtain ⟨front, e, heq, -⟩ := h
  rw [heq, List.length_append]
  exact Nat.succ_pos _

/-- At the end of the file nothing else is ahead. -/
theorem Ended.rest_eq (h : c.Ended) (hkind : c.kind = .eof) :
    ∃ e, c.rest = [e] ∧ e.kind = .eof := by
  obtain ⟨front, e, heq, he, hfront⟩ := h
  cases front with
  | nil => exact ⟨e, heq, he⟩
  | cons t ts =>
    rw [kind, current, heq] at hkind
    exact absurd hkind (hfront t List.mem_cons_self)

theorem Reads.length_eq (h : c.Reads read c') : c.rest.length = read.length + c'.rest.length := by
  rw [h.rest_eq, List.length_append]

/-- A cursor in front of which as much is ahead as before has not moved. -/
theorem Reads.eq_of_length (h : c.Reads read c') (hlength : c'.rest.length = c.rest.length) :
    c' = c := by
  cases h with
  | nothing => rfl
  | token _ hrest =>
    have hless := hrest.length_eq
    simp only [List.length_cons] at hless hlength
    omega

/-- Behind a token that is not the end of the file fewer tokens are ahead. -/
theorem length_next (h : c.kind ≠ .eof) : c.next.rest.length < c.rest.length := by
  rw [(reads_next_of_kind h).length_eq, List.length_singleton]
  omega

end Cursor

namespace Parser

variable {α β : Type}

theorem Forward.ended {p : Parser α} (h : p.Forward) {c : Cursor} (hc : c.Ended) :
    (p c).cursor.Ended := by
  obtain ⟨read, hread, -⟩ := h c
  exact hc.of_reads hread

theorem Forward.eq_of_length {p : Parser α} (h : p.Forward) {c : Cursor}
    (hlength : (p c).cursor.rest.length = c.rest.length) : (p c).cursor = c := by
  obtain ⟨read, hread, -⟩ := h c
  exact hread.eq_of_length hlength

/-! ### Parsers as steps -/

instance : LawfulMonad Parser :=
  .mk' _
    (fun p ↦ by
      funext c
      show Parser.bind p _ c = p c
      rw [Parser.bind]
      cases h : p c with
      | mk result c' reported =>
        cases result with
        | error d => rfl
        | ok a =>
          show (⟨.ok a, c', reported ++ []⟩ : Outcome _) = _
          rw [List.append_nil])
    (fun _ _ ↦ rfl)
    (fun p f g ↦ by
      funext c
      show Parser.bind (Parser.bind p f) g c = Parser.bind p (fun a ↦ Parser.bind (f a) g) c
      simp only [Parser.bind]
      cases h : p c with
      | mk result c' reported =>
        cases result with
        | error d => rfl
        | ok a =>
          simp only
          cases h' : f a c' with
          | mk result' c'' reported' =>
            cases result' with
            | error d => rfl
            | ok b => simp only [List.append_assoc])

theorem ite_bind {b : Prop} [Decidable b] (p q : Parser α) (f : α → Parser β) :
    (if b then p else q) >>= f = if b then p >>= f else q >>= f := by
  split <;> rfl

theorem bind_congr_at {p q : Parser α} {f g : α → Parser β} {c : Cursor} (hp : p c = q c)
    (hf : ∀ a, (p c).result = .ok a → f a (p c).cursor = g a (p c).cursor) :
    (p >>= f) c = (q >>= g) c := by
  show Parser.bind p f c = Parser.bind q g c
  rw [Parser.bind, Parser.bind, ← hp]
  cases h : p c with
  | mk result c' reported =>
    rw [h] at hf
    cases result with
    | error d => rfl
    | ok a =>
      have heq := hf a rfl
      simp only at heq
      simp only [heq]

/-- What stands in front of the body of a type declaration: the name with its place, the type
parameters and the bases. -/
def typeHead (kind : TypeKind) : Parser ((String × Span) × List TypeParam × List TypeRef) := do
  kindWords kind
  let named ← identifier
  let params ← do
    if ← check .lt then typeParams
    else pure []
  if ← check .lparen then
    let _ ← group
  let bases ← do
    if ← eat .colon then baseList
    else pure []
  constraints
  pure (named, params, bases)

/-- Type parameters, if there are any. -/
def optionalTypeParams : Parser (List TypeParam) := do
  if ← check .lt then typeParams
  else pure []

/-- The parameters of a record, which are not looked into. -/
def optionalGroup : Parser Unit := do
  if ← check .lparen then
    let _ ← group

/-- Bases, if there are any. -/
def optionalBases : Parser (List TypeRef) := do
  if ← eat .colon then baseList
  else pure []

/-- What stands between the name of a type declaration and its body. -/
def headParts : Parser (List TypeParam × List TypeRef) := do
  let params ← optionalTypeParams
  optionalGroup
  let bases ← optionalBases
  constraints
  pure (params, bases)

theorem typeHead_eq (kind : TypeKind) :
    typeHead kind = (do
      kindWords kind
      let named ← identifier
      let parts ← headParts
      pure (named, parts)) := by
  simp only [typeHead, headParts, optionalTypeParams, optionalGroup, optionalBases, bind_assoc,
    ite_bind, pure_bind]

theorem typeDeclWith_eq (members : Parser (List Member)) (kind : TypeKind)
    (attributes : List AttributeList) (mods : List Modifier) (start : Span) :
    typeDeclWith members kind attributes mods start = (do
      let head ← typeHead kind
      let ms ← typeBodyWith members kind
      let _ ← eat .semicolon
      let span ← spanFrom start
      pure (.mk ⟨kind, attributes, mods, head.1.1, head.1.2, head.2.1, head.2.2, span⟩ ms)) := by
  simp only [typeDeclWith, typeHead, bind_assoc, ite_bind, pure_bind]

/-- Behind a member that could not be read: it is reported, and the rest of it passed over. -/
def passFailure : Except Diagnostic (Option Member) → Parser Unit
  | .ok _ => pure ()
  | .error d => do
    report d
    recoverInBody

/-- Read a token if the cursor has not moved since `c`. -/
def unstick (c : Cursor) : Parser Unit := do
  let stuck ← look fun c' => c'.rest.length == c.rest.length
  if stuck then
    let _ ← advance

/-- One step of the loop over members: a member, or what is passed over in its place. A step that
would stay where it is reads one token. -/
def memberStep (member : Parser (Option Member)) : Parser (Except Diagnostic (Option Member)) := do
  let c ← look id
  let read ← attempt member
  passFailure read
  unstick c
  pure read

/-- What was read last, in front of the members that come behind it, if it is a member. -/
def keepRead (r : Except Diagnostic (Option Member)) (rest : List Member) : Parser (List Member) :=
  match r with
  | .ok (some m) => pure (m :: rest)
  | _ => pure rest

theorem exists_keepRead_eq_append (r : Except Diagnostic (Option Member)) :
    ∃ kept, ∀ rest, keepRead r rest = pure (kept ++ rest) := by
  rcases r with d | _ | m
  · exact ⟨[], fun _ ↦ rfl⟩
  · exact ⟨[], fun _ ↦ rfl⟩
  · exact ⟨[m], fun _ ↦ rfl⟩

/-- The loop over members, as far as its first step. -/
theorem membersWith_succ (member : Parser (Option Member)) (budget : Nat) :
    membersWith member (budget + 1) = (do
      let c ← look id
      if c.kind = .rbrace || c.kind = .eof then pure []
      else
        let read ← memberStep member
        let rest ← membersWith member budget
        keepRead read rest) := by
  rw [membersWith]
  funext c
  rw [look_bind, look_bind]
  split
  · rfl
  · rw [memberStep, bind_assoc, look_bind]
    simp only [bind_assoc]
    refine bind_congr_at rfl fun r _ ↦ ?_
    cases r with
    | ok m =>
      simp only [passFailure, unstick, bind_assoc, pure_bind, ite_bind]
      rfl
    | error d => simp only [passFailure, unstick, bind_assoc, pure_bind, ite_bind, keepRead]

/-- What was read last, in front of what comes behind it. -/
def keepEntry (e : Entry) (rest : List Using × List Item) : Parser (List Using × List Item) :=
  match e with
  | .using u => pure (u :: rest.1, rest.2)
  | .item i => pure (rest.1, i :: rest.2)
  | .nothing => pure rest

/-- The loop over entries, as far as its first step. -/
theorem entriesWith_succ (body : BodyEnd → Parser (List Using × List Item)) (bodyEnd : BodyEnd)
    (budget : Nat) :
    entriesWith body bodyEnd (budget + 1) = (do
      let k ← look Cursor.kind
      if k = .eof || (k = .rbrace && bodyEnd = .closingBrace) then pure ([], [])
      else
        let e ← stepWith body
        let rest ← entriesWith body bodyEnd budget
        keepEntry e rest) := by
  rw [entriesWith]
  rfl

/-! ### Movement -/

theorem forward_otherMember (start : Span) : (otherMember start).Forward :=
  forward_memberRest.bind fun _ ↦ (forward_spanFrom start).bind fun _ ↦ .pure _

theorem forward_declarator : declarator.Forward :=
  forward_identifier.bind fun _ ↦ (forward_eat _).bind fun _ ↦
    .ite ((forward_initializer.map _).bind fun _ ↦ .pure _) (.bind (.pure none) fun _ ↦ .pure _)

theorem forward_declarators : declarators.Forward :=
  .bind (.look _) fun budget ↦ (forward_commaSeparated forward_declarator budget).bind fun ds ↦
    (forward_expect _).bind fun _ ↦ .pure ds

theorem forward_typedMember (attributes : List AttributeList) (mods : List Modifier)
    (start : Span) : (typedMember attributes mods start).Forward :=
  forward_typeRef.bind fun _ ↦ .bind (.look _) fun _ ↦ .ite (forward_failExpected _ _) <|
    .ite (forward_otherMember start) <|
      .ite (forward_declarators.bind fun _ ↦ (forward_spanFrom start).bind fun _ ↦ .pure _) <|
        .ite (forward_otherMember start) (forward_failExpected _ _)

theorem forward_kindWords (kind : TypeKind) : (kindWords kind).Forward :=
  forward_advance.bind fun _ ↦ .bind (.look _) fun _ ↦
    .ite (forward_advance.bind fun _ ↦ .pure ()) (.pure ())

theorem kind_ne_eof_of_declaredKind {c : Cursor} {kind : TypeKind}
    (h : declaredKind c = some kind) : c.kind ≠ .eof := by
  intro heof
  simp [declaredKind, heof] at h

/-- The keyword of a declaration is read. -/
theorem gives_kindWords (kind : TypeKind) {c : Cursor} (h : c.kind ≠ .eof) :
    (kindWords kind).Gives c fun _ read _ ↦ ∃ more, read = c.current :: more := by
  refine gives_bind ⟨[c.current], Cursor.reads_next_of_kind h, fun _ _ ↦ ?_⟩
  refine gives_bind (gives_look ?_)
  split
  · exact forward_advance.gives_bind fun _ more _ _ ↦ gives_pure ⟨more ++ [], rfl⟩
  · exact gives_pure ⟨[], rfl⟩

theorem forward_optionalGroup : optionalGroup.Forward :=
  (forward_check _).bind fun _ ↦ .ite (forward_group.bind fun _ ↦ .pure ()) (.pure ())

theorem forward_headParts : headParts.Forward := by
  have hparams : optionalTypeParams.Forward :=
    (forward_check _).bind fun _ ↦ .ite forward_typeParams (.pure [])
  have hbases : optionalBases.Forward :=
    (forward_eat _).bind fun _ ↦ .ite forward_baseList (.pure [])
  exact hparams.bind fun _ ↦ forward_optionalGroup.bind fun _ ↦ hbases.bind fun _ ↦
    forward_constraints.bind fun _ ↦ .pure _

theorem forward_typeHead (kind : TypeKind) : (typeHead kind).Forward := by
  rw [typeHead_eq]
  exact (forward_kindWords kind).bind fun _ ↦ forward_identifier.bind fun _ ↦
    forward_headParts.bind fun _ ↦ .pure _

/-- In front of the end of the file a type declaration starts with a token. -/
theorem gives_typeHead (kind : TypeKind) (c : Cursor) :
    (typeHead kind).Gives c fun _ read _ ↦ c.kind ≠ .eof → read ≠ [] := by
  by_cases hkind : c.kind = .eof
  · exact (forward_typeHead kind).gives fun _ _ _ _ h ↦ absurd hkind h
  rw [typeHead_eq]
  refine gives_bind ((gives_kindWords kind hkind).mono ?_)
  rintro _ _ c' - ⟨more, rfl⟩
  have hrest : (do
      let named ← identifier
      let parts ← headParts
      pure (named, parts)).Forward :=
    forward_identifier.bind fun _ ↦ forward_headParts.bind fun _ ↦ .pure _
  exact hrest.gives fun _ _ _ _ _ ↦ List.cons_ne_nil _ _

section Members

variable {members : Parser (List Member)} (hmembers : members.Forward)

include hmembers

theorem forward_typeBodyWith (kind : TypeKind) : (typeBodyWith members kind).Forward := by
  refine (forward_eat _).bind fun _ ↦ .ite (.pure []) (.ite ?_ ?_)
  · exact (forward_check _).bind fun _ ↦ .ite (forward_group.bind fun _ ↦ .pure [])
      ((forward_expect _).bind fun _ ↦ .pure [])
  · exact (forward_expect _).bind fun _ ↦ hmembers.bind fun ms ↦
      (forward_closingBrace _ _).bind fun _ ↦ .pure ms

theorem forward_typeDeclWith (kind : TypeKind) (attributes : List AttributeList)
    (mods : List Modifier) (start : Span) :
    (typeDeclWith members kind attributes mods start).Forward := by
  rw [typeDeclWith_eq]
  exact (forward_typeHead kind).bind fun _ ↦ (forward_typeBodyWith hmembers kind).bind fun _ ↦
    (forward_eat _).bind fun _ ↦ (forward_spanFrom start).bind fun _ ↦ .pure _

theorem forward_memberWith : (memberWith members).Forward := by
  refine .bind (.look _) fun start ↦ forward_attributeLists.bind fun attributes ↦
    forward_modifiers.bind fun mods ↦ .bind (.look _) fun c ↦ ?_
  split
  · exact (forward_typeDeclWith hmembers _ attributes mods start).bind fun _ ↦ .pure _
  · exact .ite (forward_advance.bind fun _ ↦ .pure none) <| .ite (.pure none) <|
      .ite (forward_otherMember start) (forward_typedMember attributes mods start)

end Members

theorem forward_passFailure (r : Except Diagnostic (Option Member)) : (passFailure r).Forward := by
  cases r with
  | ok m => exact .pure ()
  | error d => exact (forward_report d).bind fun _ ↦ forward_recoverInBody

theorem forward_unstick (c : Cursor) : (unstick c).Forward :=
  .bind (.look _) fun _ ↦ .ite (forward_advance.bind fun _ ↦ .pure ()) (.pure ())

theorem forward_memberStep {member : Parser (Option Member)} (hmember : member.Forward) :
    (memberStep member).Forward :=
  .bind (.look _) fun c ↦ hmember.attempt.bind fun r ↦ (forward_passFailure r).bind fun _ ↦
    (forward_unstick c).bind fun _ ↦ .pure r

theorem forward_keepRead (r : Except Diagnostic (Option Member)) (rest : List Member) :
    (keepRead r rest).Forward := by
  obtain ⟨kept, hkept⟩ := exists_keepRead_eq_append r
  rw [hkept]
  exact .pure _

theorem forward_membersWith {member : Parser (Option Member)} (hmember : member.Forward) :
    ∀ budget, (membersWith member budget).Forward
  | 0 => .pure []
  | budget + 1 => by
    rw [membersWith_succ]
    exact .bind (.look _) fun _ ↦ .ite (.pure []) <| (forward_memberStep hmember).bind fun r ↦
      (forward_membersWith hmember budget).bind (forward_keepRead r)

theorem forward_membersWithin (budget : Nat) : ∀ depth, (membersWithin budget depth).Forward
  | 0 => .pure []
  | depth + 1 => forward_membersWith (forward_memberWith (forward_membersWithin budget depth))
    budget

theorem forward_members : members.Forward :=
  fun c ↦ (forward_membersWithin (c.rest.length + 1) (c.rest.length + 1) c).of_eq rfl

theorem forward_declarationEntry : declarationEntry.Forward := by
  refine .bind (.look _) fun start ↦ forward_attributeLists.bind fun attributes ↦
    forward_modifiers.bind fun mods ↦ .bind (.look _) fun c ↦ ?_
  split
  · exact (forward_typeDeclWith forward_members _ attributes mods start).bind fun _ ↦ .pure _
  · exact .ite (forward_memberRest.bind fun _ ↦ .pure _) <|
      .ite (.pure _) (forward_failExpected _ _)

theorem forward_keepEntry (e : Entry) (rest : List Using × List Item) :
    (keepEntry e rest).Forward := by
  cases e <;> exact .pure _

section Body

variable {body : BodyEnd → Parser (List Using × List Item)}
  (hbody : ∀ bodyEnd, (body bodyEnd).Forward)

include hbody

/-- A namespace starts with its keyword. -/
theorem exists_namespaceWith_eq : ∃ f : Token → Parser Item,
    namespaceWith body = expect .namespaceWord >>= f ∧ ∀ start, (f start).Forward := by
  refine ⟨_, rfl, fun start ↦ forward_name.bind fun n ↦ (forward_eat _).bind fun _ ↦ .ite ?_ ?_⟩
  · exact (hbody _).bind fun _ ↦ (forward_spanFrom _).bind fun _ ↦ .pure _
  · exact (forward_expect _).bind fun _ ↦ (hbody _).bind fun _ ↦
      (forward_closingBrace _ _).bind fun _ ↦ (forward_eat _).bind fun _ ↦
        (forward_spanFrom _).bind fun _ ↦ .pure _

theorem advances_namespaceWith : (namespaceWith body).Advances := by
  obtain ⟨f, heq, hf⟩ := exists_namespaceWith_eq hbody
  rw [heq]
  exact (advances_expect (by decide)).bind hf

theorem forward_namespaceWith : (namespaceWith body).Forward :=
  (advances_namespaceWith hbody).forward

theorem forward_entryWith : (entryWith body).Forward :=
  .bind (.look _) fun _ ↦ .ite ((forward_usingDirective _).map _) <|
    .ite (forward_advance.bind fun _ ↦ (forward_usingDirective _).map _) <|
      .ite (forward_recoverToItem.bind fun _ ↦ .pure _) <|
        .ite ((forward_namespaceWith hbody).map _) forward_declarationEntry

theorem forward_stepWith : (stepWith body).Forward := by
  refine .bind (.look _) fun c ↦ .ite ?_ (.ite ?_ ?_)
  · exact (forward_report _).bind fun _ ↦ forward_advance.bind fun _ ↦ .pure _
  · exact forward_advance.bind fun _ ↦ .pure _
  · refine (forward_entryWith hbody).attempt.bind fun r ↦ ?_
    cases r with
    | ok e => exact .pure e
    | error d => exact (forward_report d).bind fun _ ↦ forward_recoverToItem.bind fun _ ↦ .pure _

theorem forward_entriesWith (bodyEnd : BodyEnd) :
    ∀ budget, (entriesWith body bodyEnd budget).Forward
  | 0 => .pure _
  | budget + 1 => by
    rw [entriesWith_succ]
    exact .bind (.look _) fun _ ↦ .ite (.pure _) <| (forward_stepWith hbody).bind fun e ↦
      (forward_entriesWith bodyEnd budget).bind (forward_keepEntry e)

end Body

theorem forward_namespaceBodyWithin (budget : Nat) :
    ∀ depth bodyEnd, (namespaceBodyWithin budget depth bodyEnd).Forward
  | 0, _ => .pure _
  | depth + 1, bodyEnd =>
    forward_entriesWith (forward_namespaceBodyWithin budget depth) bodyEnd budget

theorem forward_namespaceBody (bodyEnd : BodyEnd) : (namespaceBody bodyEnd).Forward := fun c ↦
  (forward_namespaceBodyWithin (c.rest.length + 1) (c.rest.length + 1) bodyEnd c).of_eq rfl

end Parser
end Companion
