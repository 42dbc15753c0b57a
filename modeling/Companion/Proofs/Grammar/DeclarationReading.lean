import Companion.Proofs.Grammar.MemberReading

/-!
Type declarations and what is in them. Members are read one by one, each up to the next (`IsMember`,
`takes_membersWith`), and a type is read to its head and its members (`takes_typeDeclWith`); so the
trees that are read off the tokens of nested types are known from the members of the innermost one
(`takes_declarationEntry`).
-/

set_option autoImplicit false
set_option relaxedAutoImplicit false

namespace Companion.Parser

open Token TypeRef

variable {bs rest : List Bare}

/-! ### Members -/

/-- A member starts with a type: with an identifier that is not taken for anything else. -/
def OpensTyped (bs : List Bare) : Prop :=
  ∃ w more, bs = (.ident, w) :: more ∧ Modifier.ofKeyword? w = none ∧ w ≠ "record" ∧ w ≠ "event" ∧
    kindAt more 0 ≠ .lparen

/-- What may stand behind a member. -/
def FollowsMember (rest : List Bare) : Prop :=
  kindAt rest 0 = .ident ∨ kindAt rest 0 = .lbracket ∨ kindAt rest 0 = .rbrace

theorem FollowsMember.ne {k : Token.Kind} (h : FollowsMember rest)
    (hk : k ≠ .ident ∧ k ≠ .lbracket ∧ k ≠ .rbrace) : kindAt rest 0 ≠ k := by
  rintro rfl
  rcases h with h | h | h
  · exact hk.1 h
  · exact hk.2.1 h
  · exact hk.2.2 h

namespace OpensTyped

theorem endsModifiers (h : OpensTyped bs) : EndsModifiers bs := by
  obtain ⟨w, more, rfl, hw, -⟩ := h
  exact ⟨rfl, by simpa using hw⟩

variable {c : Cursor}

theorem kind_eq (h : OpensTyped bs) (hc : c.Spells bs) : c.kind = .ident := by
  obtain ⟨w, more, rfl, -⟩ := h
  exact hc.kind_cons

theorem declaredKind_eq (h : OpensTyped bs) (hc : c.Spells bs) : declaredKind c = none := by
  have hkind := h.kind_eq hc
  obtain ⟨w, more, rfl, -, hrecord, -⟩ := h
  have hword : c.current.isWord "record" = false := by simp [hc.isWord, hrecord]
  rw [declaredKind, hkind, hword]
  rfl

theorem startsOther_eq (h : OpensTyped bs) (hc : c.Spells bs) : startsOther c = false := by
  have hkind := h.kind_eq hc
  obtain ⟨w, more, rfl, -, -, hevent, hparen⟩ := h
  have hword : c.current.isWord "event" = false := by simp [hc.isWord, hevent]
  have hnext : (c.kindAhead 1 == .lparen) = false := by
    rw [hc.kindAhead, kindAt_cons_succ, beq_false_of_ne hparen]
  rw [startsOther, hkind, hword, hnext]
  rfl

end OpensTyped

section Typed

variable {members : Parser (List Member)} {lists : List (List Bare)} {ls : List AttributeList}
  {ms : List Modifier} {post : Option Member → Prop}

/-- The first token behind the attributes of a member is one of its modifiers or starts its type. -/
theorem kindAt_modifierTokens (ms : List Modifier) (h : kindAt bs 0 = .ident) :
    kindAt (modifierTokens ms ++ bs) 0 = .ident := by
  cases ms with
  | nil => exact h
  | cons m ms => rfl

/-- A member that starts with a type behind its attributes and modifiers. -/
theorem takes_memberWith_typed (hlists : List.Forall₂ IsAttributeList lists ls)
    (hopens : OpensTyped (bs ++ rest))
    (htyped : ∀ attributes start, attributes.map AttributeList.placeless = ls →
      (typedMember attributes ms start).Takes bs rest post) :
    (memberWith members).Takes (lists.flatten ++ (modifierTokens ms ++ bs)) rest post := by
  have hident : kindAt (bs ++ rest) 0 = .ident := by
    obtain ⟨w, more, heq, -⟩ := hopens
    rw [heq, kindAt_cons_zero]
  refine takes_look_bind fun c _ ↦ ?_
  refine (takes_attributeLists hlists ?_).bind fun attributes hattributes ↦ ?_
  · rw [List.append_assoc, kindAt_modifierTokens ms hident]
    simp
  refine (takes_modifiers hopens.endsModifiers).bind fun mods hmods ↦
    takes_look_bind fun c' hc' ↦ ?_
  have hkind := hopens.kind_eq hc'
  rw [id, hopens.declaredKind_eq hc', hmods]
  dsimp only
  rw [if_neg (by simp [hkind]), if_neg (by simp [hkind]), hopens.startsOther_eq hc',
    if_neg (by simp)]
  exact htyped attributes _ hattributes

end Typed

theorem not_showsField_of_showsOther {k : Token.Kind} (h : showsOther k = true) :
    showsField k = false := by
  cases k <;> first | rfl | cases h

/-- A method: its type, its name and what is not looked into. -/
theorem takes_typedMember_method {attributes : List AttributeList} {ms : List Modifier}
    {start : Span} {t : TypeRef} (ht : t.Legible) {n : String} (hn : n ≠ "operator" ∧ n ≠ "this")
    {front params body : List Bare} (hfront : ∀ b ∈ front, isQuiet b.1 = true)
    (hshows : showsOther (kindAt (methodRest front params body) 0) = true)
    (hparams : Balanced params) (hbody : Balanced body) (hrest : FollowsMember rest) :
    (typedMember attributes ms start).Takes
      (t.tokens ++ methodRest ((.ident, n) :: front) params body) rest
      (·.map Member.placeless = some (.other nowhere)) := by
  have hquiet : ∀ b ∈ (Kind.ident, n) :: front, isQuiet b.1 = true :=
    List.forall_mem_cons.mpr ⟨rfl, hfront⟩
  have hshown : showsOther (kindAt (methodRest ((.ident, n) :: front) params body ++ rest) 1) =
      true := by
    rw [← hshows]
    cases front <;> rfl
  refine (ht.printable.takes_typeRef ⟨⟨by simp [methodRest], by simp [methodRest],
    by simp [methodRest]⟩, by simp [methodRest], by simp [methodRest]⟩).bind
    fun type _ ↦ takes_look_bind fun c hc ↦ ?_
  have hkind : c.kind = .ident := hc.kind_cons
  have hwords : (c.current.isWord "operator" || c.current.isWord "this") = false := by
    rw [hc.isWord_eq, hc.isWord_eq]
    simp [startsWith, methodRest, hn]
  have hshow : showsOther (c.kindAhead 1) = true := by rw [hc.kindAhead, hshown]
  rw [id, if_neg (by simp [hkind]), hwords, if_neg (by simp), not_showsField_of_showsOther hshow,
    if_neg (by simp), if_pos hshow]
  refine (takes_memberRest hquiet hparams hbody (hrest.ne (by simp)) (hrest.ne (by simp))).bind_nil
    fun _ _ ↦ takes_spanFrom_bind fun _ ↦ takes_pure rfl

/-! ### Fields -/

/-- The tokens of a variable with its initializer, if there is one. -/
def variableTokens (n : String) (init : Option (List Bare)) : List Bare :=
  (.ident, n) :: init.elim [] ((.eq, "=") :: ·)

section Field

variable {n : String} {init : Option (List Bare)}

theorem takes_declarator
    (hinit : ∀ bs ∈ init, initializer.Takes bs rest fun _ ↦ True) (hrest : kindAt rest 0 ≠ .eq) :
    declarator.Takes (variableTokens n init) rest
      (·.placeless = ⟨unescape n, nowhere, init.map fun _ ↦ nowhere⟩) := by
  cases init with
  | none =>
    refine (takes_identifier n).bind_nil fun named hnamed ↦ takes_eat_bind_of_ne hrest ?_
    refine (takes_pure_self none).bind_nil fun place hplace ↦ takes_pure ?_
    rw [hplace, Declarator.placeless, hnamed]
    rfl
  | some bs =>
    refine (takes_identifier n).cons_bind fun named hnamed ↦ ?_
    refine (takes_eat (b := (.eq, "=")) Kind.noConfusion).cons_bind fun assigned hassigned ↦ ?_
    rw [hassigned, if_pos rfl]
    have hsome : (some <$> initializer).Takes bs rest (·.isSome = true) :=
      (hinit bs rfl).map fun _ _ ↦ rfl
    refine hsome.bind_nil fun place hplace ↦ takes_pure ?_
    obtain ⟨span, rfl⟩ := Option.isSome_iff_exists.mp hplace
    rw [Declarator.placeless, hnamed]
    rfl

theorem takes_declarators
    (hinit : ∀ bs ∈ init, initializer.Takes bs ((.semicolon, ";") :: rest) fun _ ↦ True) :
    declarators.Takes (variableTokens n init ++ [(.semicolon, ";")]) rest
      (·.map Declarator.placeless = [⟨unescape n, nowhere, init.map fun _ ↦ nowhere⟩]) := by
  refine takes_look_bind fun c _ ↦ ?_
  refine (takes_commaSeparated_one (takes_declarator hinit (by simp)) (by simp) _).bind
    fun ds hds ↦ ?_
  obtain ⟨d, rfl, hd⟩ := hds
  exact (takes_expect (b := (.semicolon, ";")) Kind.noConfusion).bind_nil
    fun _ _ ↦ takes_pure (by rw [List.map_singleton, hd])

/-- A field with one variable. -/
theorem takes_typedMember_field {attributes : List AttributeList} {ls : List AttributeList}
    {ms : List Modifier} {start : Span} {t : TypeRef}
    (hattributes : attributes.map AttributeList.placeless = ls) (ht : t.Legible)
    (hn : n ≠ "operator" ∧ n ≠ "this")
    (hinit : ∀ bs ∈ init, initializer.Takes bs ((.semicolon, ";") :: rest) fun _ ↦ True) :
    (typedMember attributes ms start).Takes
      (t.tokens ++ (variableTokens n init ++ [(.semicolon, ";")])) rest
      (·.map Member.placeless = some (.field ⟨ls, ms, t.renamed unescape,
        [⟨unescape n, nowhere, init.map fun _ ↦ nowhere⟩], nowhere⟩)) := by
  refine (ht.printable.takes_typeRef ⟨⟨by simp [variableTokens], by simp [variableTokens],
    by simp [variableTokens]⟩, by simp [variableTokens], by simp [variableTokens]⟩).bind
    fun type htype ↦ takes_look_bind fun c hc ↦ ?_
  have hkind : c.kind = .ident := hc.kind_cons
  have hwords : (c.current.isWord "operator" || c.current.isWord "this") = false := by
    rw [hc.isWord_eq, hc.isWord_eq]
    simp [startsWith, variableTokens, hn]
  have hshow : showsField (c.kindAhead 1) = true := by
    rw [hc.kindAhead]
    cases init <;> rfl
  rw [id, if_neg (by simp [hkind]), hwords, if_neg (by simp), if_pos hshow]
  refine (takes_declarators hinit).bind_nil fun ds hds ↦ takes_spanFrom_bind fun _ ↦ takes_pure ?_
  rw [Option.map_some, Member.placeless, Field.placeless, hattributes, hds]
  exact congrArg (fun type ↦ some (Member.field ⟨ls, ms, type, _, nowhere⟩)) htype

end Field

/-! ### Bodies -/

/-- The tokens are read to a member, wherever another member or the end of the body follows. -/
structure IsMember (member : Parser (Option Member)) (bs : List Bare) (m : Member) : Prop where
  opens : kindAt bs 0 = .ident ∨ kindAt bs 0 = .lbracket
  takes : ∀ rest, FollowsMember rest → member.Takes bs rest (·.map Member.placeless = some m)

namespace IsMember

variable {member : Parser (Option Member)} {m : Member}

theorem ne_nil (h : IsMember member bs m) : bs ≠ [] := by
  rintro rfl
  rcases h.opens with h | h <;> cases h

theorem opens_append (h : IsMember member bs m) (rest : List Bare) :
    kindAt (bs ++ rest) 0 = .ident ∨ kindAt (bs ++ rest) 0 = .lbracket :=
  h.opens.imp (kindAt_append · (by simp) rest) (kindAt_append · (by simp) rest)

theorem followsMember (h : IsMember member bs m) (rest : List Bare) :
    FollowsMember (bs ++ rest) := (h.opens_append rest).imp_right .inl

end IsMember

/-- A member that fails reports it and goes on; one that is read is kept. -/
theorem takes_membersWith {member : Parser (Option Member)} {lists : List (List Bare)}
    {ms : List Member} (h : List.Forall₂ (IsMember member) lists ms) {budget : Nat}
    (hbudget : lists.length < budget) :
    (membersWith member budget).Takes lists.flatten ((.rbrace, "\x7d") :: rest)
      (·.map Member.placeless = ms) := by
  induction h generalizing budget with
  | nil =>
    obtain ⟨budget, rfl⟩ := Nat.exists_eq_succ_of_ne_zero (by omega : budget ≠ 0)
    refine takes_look_bind fun c hc ↦ ?_
    rw [id, if_pos (by simp [show c.kind = .rbrace from hc.kind_cons])]
    exact takes_pure rfl
  | @cons bs m lists ms hm hms ih =>
    obtain ⟨budget, rfl⟩ := Nat.exists_eq_succ_of_ne_zero (by omega : budget ≠ 0)
    have hmore := ih (by simpa using hbudget)
    have hfollows : FollowsMember (lists.flatten ++ (.rbrace, "\x7d") :: rest) := by
      cases hms with
      | nil => exact .inr (.inr rfl)
      | cons hnext =>
        rw [List.flatten_cons, List.append_assoc]
        exact hnext.followsMember _
    rw [List.flatten_cons]
    intro c hc
    rw [List.append_assoc] at hc
    have hkind : (c.kind = .rbrace || c.kind = .eof) = false := by
      rw [hc.kind]
      rcases hm.opens_append (lists.flatten ++ (.rbrace, "\x7d") :: rest) with h | h <;> simp [h]
    obtain ⟨r, c', hattempt, hc', m', rfl, hm'⟩ := (hm.takes _ hfollows).attempt c hc
    obtain ⟨read, rfl, hread⟩ := Option.map_eq_some_iff.mp hm'
    have hstuck : (c'.rest.length == c.rest.length) = false := by
      have hpos := List.length_pos_of_ne_nil hm.ne_nil
      refine beq_false_of_ne ?_
      rw [hc.length_rest, hc'.length_rest]
      simp only [List.length_append]
      omega
    obtain ⟨more, c'', hrest, hc'', hpost⟩ := hmore c' hc'
    refine ⟨read :: more, c'', ?_, hc'', congrArg₂ List.cons hread hpost⟩
    rw [membersWith, look_bind, id, hkind, if_neg (by simp), bind_of_ok hattempt]
    dsimp only
    rw [look_bind, hstuck, if_neg (by simp), bind_of_ok hrest]
    rfl

/-! ### Types -/

/-- What introduces a partial type: its kind, its name with type parameters, and a base if it has
one. -/
structure Head where
  kind : TypeKind
  name : String
  params : List String
  base : Option (List String)

/-- The words for a kind of type. -/
def kindTokens : TypeKind → List Bare
  | .classType => [(.classWord, "class")]
  | .structType => [(.structWord, "struct")]
  | .interfaceType => [(.interfaceWord, "interface")]
  | .enumType => [(.enumWord, "enum")]
  | .recordType => [(.ident, "record")]
  | .recordStruct => [(.ident, "record"), (.structWord, "struct")]

/-- Type parameters in angle brackets; nothing if there are none. -/
def paramTokens (params : List String) : List Bare :=
  if params.isEmpty then []
  else (.lt, "<") ::
    ([(.comma, ",")].intercalate (params.map fun n ↦ [(.ident, n)]) ++ [(.gt, ">")])

def baseTokens (base : Option (List String)) : List Bare :=
  base.elim [] fun ns ↦ (.colon, ":") :: (plain ns).tokens

namespace Head

/-- The tokens behind the words for the kind of type. -/
def tokensBehind (h : Head) : List Bare :=
  (.ident, h.name) :: (paramTokens h.params ++ baseTokens h.base)

/-- The type that is read behind the head. -/
def decl (h : Head) (ms : List Member) : TypeDecl :=
  .mk ⟨h.kind, [], [.partialDecl], unescape h.name, nowhere,
    h.params.map fun n ↦ ⟨unescape n, nowhere⟩,
    (h.base.map fun ns ↦ plain (ns.map unescape)).toList, nowhere⟩ ms

/-- The type has a body with members, and its base is a name. -/
structure Valid (h : Head) : Prop where
  kind : h.kind ≠ .enumType
  base : ∀ ns ∈ h.base, ns ≠ [] ∧ ∀ n ∈ ns, IsIdentifier n

end Head

/-- The tokens of a body in braces. -/
def bodyTokens (bs : List Bare) : List Bare := (.lbrace, "\x7b") :: (bs ++ [(.rbrace, "\x7d")])

theorem takes_typeParam (n : String) (hrest : kindAt rest 0 ≠ .ident) :
    typeParam.Takes [(.ident, n)] rest (·.placeless = ⟨unescape n, nowhere⟩) := by
  refine (takes_attributeLists .nil (by simp)).nil_bind fun _ _ ↦ takes_look_bind fun c hc ↦ ?_
  have hnext : (c.kindAhead 1 == .ident) = false := by
    rw [hc.kindAhead]
    exact beq_false_of_ne hrest
  rw [hnext, Bool.and_false, if_neg (by simp)]
  refine (takes_identifier n).bind_nil fun named hnamed ↦ takes_pure ?_
  rw [TypeParam.placeless, hnamed]

theorem takes_typeParams {params : List String} (hne : params ≠ []) :
    typeParams.Takes (paramTokens params) rest
      (·.map TypeParam.placeless = params.map fun n ↦ ⟨unescape n, nowhere⟩) := by
  rw [paramTokens, if_neg (by simpa using hne)]
  refine (takes_expect (b := (.lt, "<")) Kind.noConfusion).cons_bind fun _ _ ↦
    takes_look_bind fun c hc ↦ ?_
  have hlength := length_lists_le_intercalate (.comma, ",")
    (params.map fun n ↦ [((.ident, n) : Bare)])
  have hbudget : params.length ≤ c.rest.length + 1 := by
    rw [List.length_map] at hlength
    rw [hc.length_rest]
    simp only [List.length_append, List.length_cons]
    omega
  have hlist : (commaSeparated typeParam c.rest.length).Takes
      ([(.comma, ",")].intercalate (params.map fun n ↦ [(.ident, n)])) ((.gt, ">") :: rest)
      (List.Forall₂ (fun n p ↦ p.placeless = ⟨unescape n, nowhere⟩) params) :=
    takes_commaSeparated
      (fun n _ rest (hrest : kindAt rest 0 ≠ .ident) ↦ takes_typeParam n hrest) (by simp) hne
      (by simp) (by simp) hbudget
  refine hlist.bind fun ps hps ↦ (takes_expect (b := (.gt, ">")) Kind.noConfusion).bind_nil
    fun _ _ ↦ takes_pure ?_
  clear hlist hlength hbudget hne hc
  induction hps with
  | nil => rfl
  | cons hp _ ih => rw [List.map_cons, List.map_cons, hp, ih]

/-- Type parameters, if there are any, in front of something else. -/
theorem takes_optionalTypeParams_bind {β : Type} {f : List TypeParam → Parser β} {post : β → Prop}
    {params : List String} (hrest : kindAt (bs ++ rest) 0 ≠ .lt)
    (hf : ∀ ps : List TypeParam,
      ps.map TypeParam.placeless = params.map (fun n ↦ ⟨unescape n, nowhere⟩) →
        (f ps).Takes bs rest post) :
    (check .lt >>= fun b ↦ if b then typeParams >>= f else pure [] >>= f).Takes
      (paramTokens params ++ bs) rest post := by
  refine takes_check_bind ?_
  cases params with
  | nil =>
    rw [show paramTokens [] = [] from rfl, List.nil_append, beq_false_of_ne hrest,
      if_neg (by simp)]
    exact (takes_pure_self []).nil_bind fun ps hps ↦ hf ps (by rw [hps]; rfl)
  | cons n params =>
    rw [List.append_assoc,
      show kindAt (paramTokens (n :: params) ++ (bs ++ rest)) 0 = .lt from rfl, if_pos (by rfl)]
    exact (takes_typeParams (List.cons_ne_nil _ _)).bind hf

theorem takes_baseList_one {ns : List String} (hne : ns ≠ []) (hns : ∀ n ∈ ns, IsIdentifier n) :
    baseList.Takes (plain ns).tokens ((.lbrace, "\x7b") :: rest)
      (·.map TypeRef.placeless = [plain (ns.map unescape)]) := by
  have hone : baseType.Takes (plain ns).tokens ((.lbrace, "\x7b") :: rest)
      (·.placeless = plain (ns.map unescape)) := by
    refine ((legible_plain hne hns).printable.takes_typeRef
      ⟨⟨by simp, by simp, by simp⟩, by simp, by simp⟩).bind_nil fun t ht ↦ takes_check_bind ?_
    rw [List.nil_append, kindAt_cons_zero, if_neg (by simp)]
    refine takes_pure ?_
    rw [placeless, ht, renamed_plain]
  intro c hc
  obtain ⟨ts, c', hok, hc', t, rfl, ht⟩ :=
    takes_commaSeparated_one hone (by simp) c.rest.length c hc
  exact ⟨[t], c', hok, hc', congrArg (fun t ↦ [t]) ht⟩

/-- Bases, if there are any, in front of the body. -/
theorem takes_optionalBases_bind {β : Type} {f : List TypeRef → Parser β} {post : β → Prop}
    {base : Option (List String)} (hbase : ∀ ns ∈ base, ns ≠ [] ∧ ∀ n ∈ ns, IsIdentifier n)
    (hf : ∀ ts : List TypeRef,
      ts.map TypeRef.placeless = (base.map fun ns ↦ plain (ns.map unescape)).toList →
        (f ts).Takes (bodyTokens bs) rest post) :
    (eat .colon >>= fun b ↦ if b then baseList >>= f else pure [] >>= f).Takes
      (baseTokens base ++ bodyTokens bs) rest post := by
  cases base with
  | none =>
    refine takes_eat_bind_of_ne (by simp [baseTokens, bodyTokens]) ?_
    exact (takes_pure_self []).nil_bind fun ts hts ↦ hf ts (by rw [hts]; rfl)
  | some ns =>
    obtain ⟨hne, hns⟩ := hbase ns rfl
    refine (takes_eat (b := (.colon, ":")) Kind.noConfusion).cons_bind fun found hfound ↦ ?_
    rw [hfound, if_pos rfl]
    exact (takes_baseList_one hne hns).bind hf

theorem takes_constraints_none (hrest : startsWith rest "where" = false) :
    constraints.Takes [] rest fun _ ↦ True := by
  refine takes_checkWord_bind ?_
  rw [List.nil_append, hrest, if_neg (by simp)]
  exact takes_pure trivial

theorem takes_closingBrace (opened : Span) (what : String) :
    (closingBrace opened what).Takes [(.rbrace, "\x7d")] rest fun _ ↦ True := by
  intro c hc
  exact ⟨(), c.next, by rw [closingBrace, if_pos hc.kind_cons], hc.next Kind.noConfusion, trivial⟩

theorem takes_typeBodyWith {members : Parser (List Member)} {kind : TypeKind}
    {post : List Member → Prop} (hkind : kind ≠ .enumType)
    (hmembers : members.Takes bs ((.rbrace, "\x7d") :: rest) post) :
    (typeBodyWith members kind).Takes (bodyTokens bs) rest post := by
  refine takes_eat_bind_of_ne (by simp [bodyTokens]) ?_
  rw [if_neg (by simp), if_neg hkind]
  refine (takes_expect (b := (.lbrace, "\x7b")) Kind.noConfusion).cons_bind fun opened _ ↦ ?_
  refine hmembers.bind fun ms hms ↦ ?_
  exact (takes_closingBrace _ _).bind_nil fun _ _ ↦ takes_pure hms

theorem takes_kindWords (kind : TypeKind) (hrest : kindAt rest 0 = .ident) :
    (kindWords kind).Takes (kindTokens kind) rest fun _ ↦ True := by
  have hsecond (c : Cursor) (hc : c.Spells rest) :
      (c.kind == .classWord || c.kind == .structWord) = false := by
    rw [hc.kind, hrest]
    rfl
  cases kind with
  | recordStruct =>
    refine (takes_advance (b := (.ident, "record")) Kind.noConfusion).cons_bind fun _ _ ↦
      takes_look_bind fun c hc ↦ ?_
    rw [show c.kind = .structWord from hc.kind_cons, if_pos (by decide)]
    exact (takes_advance (b := (.structWord, "struct")) Kind.noConfusion).bind_nil
      fun _ _ ↦ takes_pure trivial
  | _ =>
    refine (takes_advance Kind.noConfusion).bind_nil fun _ _ ↦ takes_look_bind fun c hc ↦ ?_
    rw [hsecond c hc, Bool.and_false, if_neg (by simp)]
    exact takes_pure trivial

/-- A type behind its attributes and modifiers. -/
theorem takes_typeDeclWith {members : Parser (List Member)} {h : Head} (hvalid : h.Valid)
    {attributes : List AttributeList} {modifiers : List Modifier} {start : Span}
    (hattributes : attributes = []) (hmodifiers : modifiers = [.partialDecl]) {ms : List Member}
    (hmembers : members.Takes bs ((.rbrace, "\x7d") :: rest) (·.map Member.placeless = ms))
    (hrest : kindAt rest 0 ≠ .semicolon) :
    (typeDeclWith members h.kind attributes modifiers start).Takes
      (kindTokens h.kind ++ (h.tokensBehind ++ bodyTokens bs)) rest (·.placeless = h.decl ms) := by
  obtain ⟨kind, name, params, base⟩ := h
  refine (takes_kindWords kind rfl).bind fun _ _ ↦ ?_
  rw [Head.tokensBehind, List.cons_append, List.append_assoc]
  refine (takes_identifier name).cons_bind fun named hnamed ↦ ?_
  obtain ⟨ident, place⟩ := named
  refine takes_optionalTypeParams_bind (by cases base <;> simp [baseTokens, bodyTokens])
    fun typeParams htypeParams ↦ takes_check_bind ?_
  have hparen : (kindAt ((baseTokens base ++ bodyTokens bs) ++ rest) 0 == .lparen) = false := by
    cases base <;> rfl
  rw [hparen, if_neg (by simp)]
  refine takes_optionalBases_bind hvalid.base fun bases hbases ↦ ?_
  refine (takes_constraints_none rfl).nil_bind fun _ _ ↦ ?_
  refine (takes_typeBodyWith hvalid.kind hmembers).bind_nil fun ms' hms' ↦ ?_
  refine takes_eat_bind_of_ne hrest (takes_spanFrom_bind fun span ↦ takes_pure ?_)
  rw [TypeDecl.placeless, TypeHeader.placeless, Member.allPlaceless_eq_map, htypeParams, hbases,
    hms', hattributes, hmodifiers, Head.decl, show ident = unescape name from hnamed]
  rfl

/-- The tokens of a partial type. -/
def typeTokens (h : Head) (bs : List Bare) : List Bare :=
  (.ident, "partial") :: (kindTokens h.kind ++ (h.tokensBehind ++ bodyTokens bs))

theorem typeTokens_eq (h : Head) (bs : List Bare) :
    typeTokens h bs =
      modifierTokens [.partialDecl] ++ (kindTokens h.kind ++ (h.tokensBehind ++ bodyTokens bs)) :=
  rfl

theorem declaredKind_eq {h : Head} {c : Cursor}
    (hc : c.Spells (kindTokens h.kind ++ (h.tokensBehind ++ bs))) :
    declaredKind c = some h.kind := by
  have hkind := hc.kind
  have hnext := hc.kindAhead 1
  have hword := hc.isWord_eq "record"
  rw [declaredKind, hkind, hword, hnext]
  cases h.kind <;> rfl

theorem endsModifiers_kindTokens (h : Head) : EndsModifiers (kindTokens h.kind ++ bs) := by
  constructor <;> cases h.kind <;> simp [kindTokens, followsModifier] <;> decide

/-- A type among the members of another. -/
theorem takes_memberWith_type {members : Parser (List Member)} {h : Head} (hvalid : h.Valid)
    {ms : List Member}
    (hmembers : members.Takes bs ((.rbrace, "\x7d") :: rest) (·.map Member.placeless = ms))
    (hrest : kindAt rest 0 ≠ .semicolon) :
    (memberWith members).Takes (typeTokens h bs) rest
      (·.map Member.placeless = some (.type (h.decl ms))) := by
  refine takes_look_bind fun c _ ↦ ?_
  refine (takes_attributeLists .nil (by simp [typeTokens])).nil_bind fun attributes hattributes ↦ ?_
  have hmodifiers : EndsModifiers
      ((kindTokens h.kind ++ (h.tokensBehind ++ bodyTokens bs)) ++ rest) := by
    rw [List.append_assoc]
    exact endsModifiers_kindTokens h
  rw [typeTokens_eq]
  refine (takes_modifiers hmodifiers).bind fun mods hmods ↦
    takes_look_bind fun c' hc' ↦ ?_
  rw [List.append_assoc, List.append_assoc] at hc'
  rw [id, declaredKind_eq hc']
  dsimp only
  refine (takes_typeDeclWith hvalid (List.map_eq_nil_iff.mp hattributes) hmods hmembers
    hrest).bind_nil fun d hd ↦ takes_pure ?_
  rw [Option.map_some, Member.placeless, hd]

/-! ### Nested types -/

/-- The tokens of types one in the other, outermost first, around some members. -/
def nestedTokens (heads : List Head) (bs : List Bare) : List Bare := heads.foldr typeTokens bs

/-- What is read off types one in the other around some members. -/
def nestedMembers (heads : List Head) (ms : List Member) : List Member :=
  heads.foldr (fun h ms ↦ [.type (h.decl ms)]) ms

theorem length_nestedTokens (heads : List Head) (bs : List Bare) :
    heads.length + bs.length ≤ (nestedTokens heads bs).length := by
  induction heads with
  | nil => exact Nat.le_of_eq (Nat.zero_add _)
  | cons h heads ih =>
    show _ ≤ (typeTokens h (nestedTokens heads bs)).length
    simp only [typeTokens, bodyTokens, List.length_cons, List.length_append]
    omega

/-- Members of types one in the other are read in the innermost. -/
theorem takes_membersWithin {heads : List Head} (hvalid : ∀ h ∈ heads, h.Valid)
    {lists : List (List Bare)} {ms : List Member}
    (hms : List.Forall₂ (fun bs m ↦ ∀ members, IsMember (memberWith members) bs m) lists ms)
    {budget depth : Nat} (hbudget : lists.length < budget) (hone : 1 < budget)
    (hdepth : heads.length < depth) (rest : List Bare) :
    (membersWithin budget depth).Takes (nestedTokens heads lists.flatten)
      ((.rbrace, "\x7d") :: rest) (·.map Member.placeless = nestedMembers heads ms) := by
  obtain ⟨depth, rfl⟩ := Nat.exists_eq_succ_of_ne_zero (by omega : depth ≠ 0)
  induction heads generalizing depth rest with
  | nil => exact takes_membersWith (hms.imp fun _ _ h ↦ h _) hbudget
  | cons h heads ih =>
    obtain ⟨hh, hheads⟩ := List.forall_mem_cons.mp hvalid
    rw [List.length_cons] at hdepth
    obtain ⟨depth, rfl⟩ := Nat.exists_eq_succ_of_ne_zero (by omega : depth ≠ 0)
    have hmember : IsMember (memberWith (membersWithin budget (depth + 1)))
        (typeTokens h (nestedTokens heads lists.flatten))
          (.type (h.decl (nestedMembers heads ms))) :=
      ⟨.inl rfl, fun rest hrest ↦ takes_memberWith_type hh (ih hheads rest depth (by omega))
        (hrest.ne (by simp))⟩
    have hbody : (membersWithin budget (depth + 2)).Takes
        [typeTokens h (nestedTokens heads lists.flatten)].flatten ((.rbrace, "\x7d") :: rest)
        (·.map Member.placeless = nestedMembers (h :: heads) ms) :=
      takes_membersWith (.cons hmember .nil) hone
    rwa [List.flatten_singleton] at hbody

/-- Types one in the other, of which the outermost stands in a namespace or a file. -/
theorem takes_declarationEntry {h : Head} {heads : List Head} (hvalid : ∀ x ∈ h :: heads, x.Valid)
    {lists : List (List Bare)} {ms : List Member}
    (hms : List.Forall₂ (fun bs m ↦ ∀ members, IsMember (memberWith members) bs m) lists ms)
    (hrest : kindAt rest 0 ≠ .semicolon) :
    declarationEntry.Takes (nestedTokens (h :: heads) lists.flatten) rest
      fun e ↦ ∃ d, e = .item (.typeDecl d) ∧ d.placeless = h.decl (nestedMembers heads ms) := by
  obtain ⟨hh, hheads⟩ := List.forall_mem_cons.mp hvalid
  have hcount : lists.length ≤ lists.flatten.length := by
    clear hrest
    induction hms with
    | nil => exact Nat.le_refl _
    | @cons bs m lists ms hm _ ih =>
      have hpos := List.length_pos_of_ne_nil (hm (pure [])).ne_nil
      simp only [List.flatten_cons, List.length_cons, List.length_append]
      omega
  have hlength := length_nestedTokens heads lists.flatten
  have hmembers : members.Takes (nestedTokens heads lists.flatten) ((.rbrace, "\x7d") :: rest)
      (·.map Member.placeless = nestedMembers heads ms) := by
    intro c hc
    have hall := hc.length_rest
    simp only [List.length_append, List.length_cons] at hall
    exact takes_membersWithin hheads hms (by omega) (by omega) (by omega) rest c hc
  have hmodifiers : EndsModifiers ((kindTokens h.kind ++
      (h.tokensBehind ++ bodyTokens (nestedTokens heads lists.flatten))) ++ rest) := by
    rw [List.append_assoc]
    exact endsModifiers_kindTokens h
  show declarationEntry.Takes (typeTokens h (nestedTokens heads lists.flatten)) rest _
  rw [typeTokens_eq]
  refine takes_look_bind fun c _ ↦ ?_
  refine (takes_attributeLists .nil (by simp [modifierTokens])).nil_bind
    fun attributes hattributes ↦ ?_
  refine (takes_modifiers hmodifiers).bind fun mods hmods ↦ takes_look_bind fun c' hc' ↦ ?_
  rw [List.append_assoc, List.append_assoc] at hc'
  rw [id, declaredKind_eq hc']
  dsimp only
  exact (takes_typeDeclWith hh (List.map_eq_nil_iff.mp hattributes) hmods hmembers
    hrest).bind_nil fun d hd ↦ takes_pure ⟨d, rfl, hd⟩

end Companion.Parser
