import Companion.Proofs.Symbol.Addition

/-!
The identifiers of trees. Every name in a tree is that of an identifier that was read for it: names
of types and type parameters, pieces of namespaces, aliases, and the names in the types that a file
refers to (`Parser.Tells`). An identifier stands for a word (`Token.isWordName_of_mem_ofSource`), so
whatever its source is, a file has only words for names (`Parsed.isWordName_of_mem_names`).
-/

set_option autoImplicit false
set_option relaxedAutoImplicit false

namespace Companion

/-! ### Trees with names of a kind -/

section Trees

variable (p : String → Prop)

/-- All names in a type are of a kind. -/
def TypeRef.Named (r : TypeRef) : Prop := ∀ n ∈ r.names, p n

/-- All names in a piece of a name are of a kind. -/
def Segment.Named (s : Segment) : Prop := p s.ident ∧ ∀ r ∈ s.args, r.Named p

/-- All names in a directive are of a kind. -/
def Using.Named (u : Using) : Prop := (∀ n ∈ u.aliasName, p n) ∧ u.target.Named p

/-- All names in a declaration are of a kind, those in nested ones aside. -/
def TypeDecl.Named (d : TypeDecl) : Prop :=
  (∀ n ∈ d.declaredNames, p n) ∧ ∀ r ∈ d.references, r.Named p

/-- All names in a member are of a kind. -/
def Member.Named (m : Member) : Prop :=
  match m with
  | .field f => f.type.Named p
  | .type d => ∀ e ∈ d.all, e.Named p
  | .other _ => True

/-- All names in an item are of a kind. -/
structure Item.Named (i : Item) : Prop where
  pieces : ∀ n ∈ i.pieces, p n
  usings : ∀ u ∈ i.usings, u.Named p
  types : ∀ d ∈ i.types, d.Named p

end Trees

variable {p : String → Prop}

namespace TypeRef

theorem mem_namesOfAll {n : String} {rs : List TypeRef} :
    n ∈ namesOfAll rs ↔ ∃ r ∈ rs, n ∈ r.names := by
  induction rs with
  | nil => simp [namesOfAll]
  | cons r rs ih => simp [namesOfAll, ih]

theorem mem_namesOfSegments {n : String} {ss : List Segment} :
    n ∈ namesOfSegments ss ↔ ∃ s ∈ ss, n = s.ident ∨ ∃ r ∈ s.args, n ∈ r.names := by
  induction ss with
  | nil => simp [namesOfSegments]
  | cons s ss ih =>
    obtain ⟨ident, args, span⟩ := s
    rw [namesOfSegments, List.cons_append, List.mem_cons, List.mem_append, mem_namesOfAll, ih]
    simp [Segment.ident, Segment.args, or_assoc]

theorem named_named_iff {fromGlobal : Bool} {segs : List Segment} {span : Span} :
    (named fromGlobal segs span).Named p ↔ ∀ s ∈ segs, s.Named p := by
  unfold Named names Segment.Named
  constructor
  · intro h s hs
    constructor
    · exact h _ (mem_namesOfSegments.mpr ⟨s, hs, .inl rfl⟩)
    · exact fun r hr n hn ↦ h n (mem_namesOfSegments.mpr ⟨s, hs, .inr ⟨r, hr, hn⟩⟩)
  · intro h n hn
    obtain ⟨s, hs, rfl | ⟨r, hr, hn⟩⟩ := mem_namesOfSegments.mp hn
    · exact (h s hs).1
    · exact (h s hs).2 r hr n hn

theorem named_tuple_iff {es : List TypeRef} {span : Span} :
    (tuple es span).Named p ↔ ∀ e ∈ es, e.Named p := by
  show (∀ n ∈ namesOfAll es, p n) ↔ ∀ e ∈ es, ∀ n ∈ e.names, p n
  constructor
  · exact fun h e he n hn ↦ h n (mem_namesOfAll.mpr ⟨e, he, hn⟩)
  · intro h n hn
    obtain ⟨e, he, hn⟩ := mem_namesOfAll.mp hn
    exact h e he n hn

end TypeRef

theorem Member.named_of_mem_allTypes {ms : List Member} (h : ∀ m ∈ ms, m.Named p) :
    ∀ d ∈ Member.allTypes ms, d.Named p := by
  induction ms with
  | nil => exact fun d hd ↦ absurd hd List.not_mem_nil
  | cons m ms ih =>
    obtain ⟨hm, hms⟩ := List.forall_mem_cons.mp h
    cases m with
    | type d => exact List.forall_mem_append.mpr ⟨hm, ih hms⟩
    | field _ => exact ih hms
    | other _ => exact ih hms

theorem TypeDecl.named_mk {header : TypeHeader} {ms : List Member} (hname : p header.name)
    (hparams : ∀ t ∈ header.typeParams, p t.name) (hbases : ∀ r ∈ header.bases, r.Named p)
    (hms : ∀ m ∈ ms, m.Named p) : ∀ d ∈ (TypeDecl.mk header ms).all, d.Named p := by
  rw [TypeDecl.all, List.forall_mem_cons]
  refine ⟨⟨?names, ?references⟩, Member.named_of_mem_allTypes hms⟩
  case names => exact List.forall_mem_cons.mpr ⟨hname, List.forall_mem_map.mpr hparams⟩
  case references =>
    refine List.forall_mem_append.mpr ⟨hbases, List.forall_mem_map.mpr fun f hf ↦ ?_⟩
    obtain ⟨m, hm, hfield⟩ := List.mem_filterMap.mp hf
    cases m with
    | field g =>
      obtain rfl := Option.some.inj hfield
      exact hms _ hm
    | type _ => cases hfield
    | other _ => cases hfield

section Items

variable {items : List Item} (h : ∀ i ∈ items, i.Named p)
include h

theorem Item.named_of_mem_allPieces : ∀ n ∈ Item.allPieces items, p n := by
  induction items with
  | nil => exact fun n hn ↦ absurd hn List.not_mem_nil
  | cons i is ih =>
    obtain ⟨hi, his⟩ := List.forall_mem_cons.mp h
    exact List.forall_mem_append.mpr ⟨hi.pieces, ih his⟩

theorem Item.named_of_mem_allUsings : ∀ u ∈ Item.allUsings items, u.Named p := by
  induction items with
  | nil => exact fun u hu ↦ absurd hu List.not_mem_nil
  | cons i is ih =>
    obtain ⟨hi, his⟩ := List.forall_mem_cons.mp h
    exact List.forall_mem_append.mpr ⟨hi.usings, ih his⟩

theorem Item.named_of_mem_allTypes : ∀ d ∈ Item.allTypes items, d.Named p := by
  induction items with
  | nil => exact fun d hd ↦ absurd hd List.not_mem_nil
  | cons i is ih =>
    obtain ⟨hi, his⟩ := List.forall_mem_cons.mp h
    exact List.forall_mem_append.mpr ⟨hi.types, ih his⟩

/-- All names in a namespace are of a kind if those of its name, its directives and its items
are. -/
theorem Item.named_namespaceDecl {header : NamespaceHeader} (hparts : ∀ n ∈ header.parts, p n)
    (husings : ∀ u ∈ header.usings, u.Named p) : (Item.namespaceDecl header items).Named p := by
  constructor
  · exact List.forall_mem_append.mpr ⟨hparts, Item.named_of_mem_allPieces h⟩
  · exact List.forall_mem_append.mpr ⟨husings, Item.named_of_mem_allUsings h⟩
  · exact Item.named_of_mem_allTypes h

end Items

/-! ### Names that parsers give -/

/-- The identifiers ahead have names of a kind. -/
def Cursor.Named (p : String → Prop) (c : Cursor) : Prop :=
  ∀ t ∈ c.rest, t.kind = .ident → p t.name

theorem Cursor.Named.of_reads {c c' : Cursor} {read : List Token} (h : c.Named p)
    (hread : c.Reads read c') : c'.Named p := by
  intro t ht
  refine h t ?_
  rw [hread.rest_eq]
  exact List.mem_append_right _ ht

namespace Parser

variable {α β : Type} {good : α → Prop}

/-- Where the identifiers ahead have names of a kind, something holds of the value of a parser. -/
def Tells (p : String → Prop) (good : α → Prop) (q : Parser α) : Prop :=
  ∀ c, c.Named p → q.Gives c fun a _ _ ↦ good a

section Steps

theorem Forward.tells {q : Parser α} (h : q.Forward) (hgood : ∀ a, good a) : q.Tells p good :=
  fun _ _ ↦ h.gives fun a _ _ _ ↦ hgood a

theorem tells_pure {a : α} (h : good a) : (pure a : Parser α).Tells p good :=
  fun _ _ ↦ gives_pure h

theorem tells_nil : (pure [] : Parser (List α)).Tells p fun l ↦ ∀ a ∈ l, good a :=
  tells_pure fun _ h ↦ absurd h List.not_mem_nil

theorem tells_failExpected (code : Diagnostic.Code) (what : String) :
    (failExpected code what : Parser α).Tells p good :=
  fun c _ ↦ ⟨[], .nothing c, fun _ ha ↦ by cases ha⟩

/-- What is known of the first value is known where the second parser starts. -/
theorem Tells.bind {good' : β → Prop} {q : Parser β} {f : β → Parser α} (hq : q.Tells p good')
    (hf : ∀ b, good' b → (f b).Tells p good) : (q >>= f).Tells p good := by
  intro c hc
  refine gives_bind ((hq c hc).mono fun b read c' hread hb ↦ ?_)
  exact (hf b hb c' (hc.of_reads hread)).mono fun _ _ _ _ ha ↦ ha

theorem Forward.bind_tells {q : Parser β} {f : β → Parser α} (hq : q.Forward)
    (hf : ∀ b, (f b).Tells p good) : (q >>= f).Tells p good := by
  have hnothing : q.Tells p fun _ ↦ True := hq.tells fun _ ↦ trivial
  exact hnothing.bind fun b _ ↦ hf b

theorem Tells.map {good' : β → Prop} {q : Parser β} {f : β → α} (hq : q.Tells p good')
    (hf : ∀ b, good' b → good (f b)) : (f <$> q).Tells p good :=
  hq.bind fun b hb ↦ tells_pure (hf b hb)

theorem Tells.ite {b : Prop} [Decidable b] {q r : Parser α} (hq : q.Tells p good)
    (hr : r.Tells p good) : (if b then q else r).Tells p good := by
  split <;> assumption

theorem Tells.attempt {q : Parser α} (hq : q.Tells p good) :
    (attempt q).Tells p fun r ↦ ∀ a, r = .ok a → good a := by
  refine fun c hc ↦ gives_attempt ((hq c hc).mono fun a _ _ _ ha b hb ↦ ?_) ?_
  · exact Except.ok.inj hb ▸ ha
  · exact fun d _ _ b hb ↦ by cases hb

end Steps

theorem tells_identifier : identifier.Tells p fun a ↦ p a.1 := by
  refine fun c hc ↦ (gives_identifier c).mono fun _ read c' hread h ↦ ?_
  obtain ⟨t, hkind, rfl, rfl⟩ := h
  exact hc t (hread.rest_eq ▸ List.mem_cons_self) hkind

theorem tells_commaSeparated {item : Parser α} (hitem : item.Tells p good) :
    ∀ budget, (commaSeparated item budget).Tells p fun l ↦ ∀ a ∈ l, good a
  | 0 => hitem.bind fun a ha ↦ tells_pure (List.forall_mem_singleton.mpr ha)
  | budget + 1 => by
    refine hitem.bind fun a ha ↦ (forward_eat _).bind_tells fun _ ↦ .ite ?_ ?_
    · refine (tells_commaSeparated hitem budget).bind fun rest hrest ↦ tells_pure ?_
      exact List.forall_mem_cons.mpr ⟨ha, hrest⟩
    · exact tells_pure (List.forall_mem_singleton.mpr ha)

/-! ### Types -/

section Types

variable {type : Parser TypeRef} (htype : type.Tells p (TypeRef.Named p))

include htype

theorem tells_typeArgsWith (budget : Nat) :
    (typeArgsWith type budget).Tells p fun args ↦ ∀ r ∈ args, r.Named p := by
  have hclose (args : List TypeRef) (h : ∀ r ∈ args, r.Named p) :
      (do let _ ← expect .gt; pure args : Parser (List TypeRef)).Tells p
        fun args ↦ ∀ r ∈ args, r.Named p :=
    (forward_expect _).bind_tells fun _ ↦ tells_pure h
  refine (forward_expect _).bind_tells fun _ ↦ (forward_check _).bind_tells fun _ ↦ .ite ?_ ?_
  · exact tells_nil.bind hclose
  · exact (tells_commaSeparated htype budget).bind hclose

theorem tells_segmentWith (budget : Nat) : (segmentWith type budget).Tells p (Segment.Named p) := by
  refine tells_identifier.bind fun named hnamed ↦ (forward_check _).bind_tells fun _ ↦ ?_
  have hend (args : List TypeRef) (h : ∀ r ∈ args, r.Named p) :
      (do let span ← spanFrom named.2; pure (.mk named.1 args span) : Parser Segment).Tells p
        (Segment.Named p) :=
    (forward_spanFrom _).bind_tells fun _ ↦ tells_pure ⟨hnamed, h⟩
  exact .ite ((tells_typeArgsWith htype budget).bind hend) (tells_nil.bind hend)

theorem tells_segmentsWith (budget : Nat) :
    ∀ n, (segmentsWith (segmentWith type budget) n).Tells p fun ss ↦ ∀ s ∈ ss, s.Named p
  | 0 => (tells_segmentWith htype budget).bind fun s hs ↦
      tells_pure (List.forall_mem_singleton.mpr hs)
  | n + 1 => by
    refine (tells_segmentWith htype budget).bind fun s hs ↦
      (Forward.look _).bind_tells fun _ ↦ .ite ?_ ?_
    · refine forward_advance.bind_tells fun _ ↦ (tells_segmentsWith budget n).bind
        fun rest hrest ↦ tells_pure ?_
      exact List.forall_mem_cons.mpr ⟨hs, hrest⟩
    · exact tells_pure (List.forall_mem_singleton.mpr hs)

omit htype in
theorem tells_qualifier : qualifier.Tells p fun q ↦ ∀ s ∈ q.2, s.Named p := by
  refine (Forward.look _).bind_tells fun _ ↦ .ite (tells_identifier.bind fun named hnamed ↦ ?_)
    (tells_pure fun s hs ↦ absurd hs List.not_mem_nil)
  refine forward_advance.bind_tells fun _ ↦ .ite (tells_pure fun s hs ↦ absurd hs List.not_mem_nil)
    (tells_pure ?_)
  exact List.forall_mem_singleton.mpr ⟨hnamed, fun r hr ↦ absurd hr List.not_mem_nil⟩

theorem tells_nameWith (budget : Nat) :
    (nameWith type budget).Tells p fun n ↦ ∀ s ∈ n.segments, s.Named p := by
  refine (Forward.look _).bind_tells fun start ↦ tells_qualifier.bind fun q hq ↦
    (tells_segmentsWith htype budget budget).bind fun ss hss ↦
      (forward_spanFrom _).bind_tells fun _ ↦ tells_pure ?_
  exact List.forall_mem_append.mpr ⟨hq, hss⟩

theorem tells_tupleWith (budget : Nat) : (tupleWith type budget).Tells p (TypeRef.Named p) := by
  have helement : (tupleElementWith type).Tells p (TypeRef.Named p) :=
    htype.bind fun t ht ↦ (forward_eat _).bind_tells fun _ ↦ tells_pure ht
  refine (forward_expect _).bind_tells fun opened ↦
    (tells_commaSeparated helement budget).bind fun elements helements ↦
      (forward_expect _).bind_tells fun closed ↦ tells_pure ?_
  exact TypeRef.named_tuple_iff.mpr helements

theorem tells_simpleTypeWith (budget : Nat) :
    (simpleTypeWith type budget).Tells p (TypeRef.Named p) := by
  refine (Forward.look _).bind_tells fun t ↦ ?_
  split
  · exact tells_tupleWith htype budget
  · split
    · refine forward_advance.bind_tells fun _ ↦ tells_pure ?_
      exact fun n hn ↦ absurd hn List.not_mem_nil
    · exact (tells_nameWith htype budget).map fun n hn ↦ TypeRef.named_named_iff.mpr hn
  · exact tells_failExpected _ _

end Types

/-- Brackets and question marks bring no names. -/
theorem tells_suffixesWithin : ∀ (budget : Nat) (t : TypeRef), t.Named p →
    (suffixesWithin budget t).Tells p (TypeRef.Named p)
  | 0, _, ht => tells_pure ht
  | budget + 1, t, ht => by
    refine (Forward.look _).bind_tells fun _ ↦ (forward_check _).bind_tells fun _ ↦
      .ite ?_ (.ite ?_ (tells_pure ht))
    · exact forward_advance.bind_tells fun _ ↦ tells_suffixesWithin budget _ ht
    · exact forward_advance.bind_tells fun _ ↦ (forward_commas _).bind_tells fun _ ↦
        (forward_expect _).bind_tells fun _ ↦ tells_suffixesWithin budget _ ht

theorem tells_typeRefWithin (budget : Nat) :
    ∀ depth, (typeRefWithin budget depth).Tells p (TypeRef.Named p)
  | 0 => tells_failExpected _ _
  | depth + 1 => (tells_simpleTypeWith (tells_typeRefWithin budget depth) budget).bind
      fun t ht ↦ tells_suffixesWithin budget t ht

theorem tells_typeRef : typeRef.Tells p (TypeRef.Named p) := fun c hc ↦
  (tells_typeRefWithin (c.rest.length + 1) (c.rest.length + 1) c hc).of_eq rfl

theorem tells_name : name.Tells p fun n ↦ ∀ s ∈ n.segments, s.Named p := fun c hc ↦
  (tells_nameWith (tells_typeRefWithin (c.rest.length + 1) (c.rest.length + 1))
    (c.rest.length + 1) c hc).of_eq rfl

/-! ### Declarations -/

theorem tells_typeParam : typeParam.Tells p fun t ↦ p t.name := by
  refine forward_attributeLists.bind_tells fun _ ↦ (Forward.look _).bind_tells fun _ ↦ ?_
  have hend : (do let named ← identifier; pure ⟨named.1, named.2⟩ : Parser TypeParam).Tells p
      fun t ↦ p t.name :=
    tells_identifier.bind fun named hnamed ↦ tells_pure hnamed
  exact .ite (forward_advance.bind_tells fun _ ↦ hend) hend

theorem tells_typeParams : typeParams.Tells p fun ts ↦ ∀ t ∈ ts, p t.name :=
  (forward_expect _).bind_tells fun _ ↦ (Forward.look _).bind_tells fun budget ↦
    (tells_commaSeparated tells_typeParam budget).bind fun _ hts ↦
      (forward_expect _).bind_tells fun _ ↦ tells_pure hts

theorem tells_baseList : baseList.Tells p fun rs ↦ ∀ r ∈ rs, r.Named p := by
  have hbase : baseType.Tells p (TypeRef.Named p) :=
    tells_typeRef.bind fun t ht ↦ (forward_check _).bind_tells fun _ ↦
      .ite (forward_group.bind_tells fun _ ↦ tells_pure ht) (tells_pure ht)
  exact fun c hc ↦ (tells_commaSeparated hbase c.rest.length c hc).of_eq rfl

section Members

variable {members : Parser (List Member)} (hmembers : members.Tells p fun ms ↦ ∀ m ∈ ms, m.Named p)

include hmembers

theorem tells_typeBodyWith (kind : TypeKind) :
    (typeBodyWith members kind).Tells p fun ms ↦ ∀ m ∈ ms, m.Named p := by
  refine (forward_eat _).bind_tells fun _ ↦ .ite tells_nil (.ite ?_ ?_)
  · exact (forward_check _).bind_tells fun _ ↦ .ite (forward_group.bind_tells fun _ ↦ tells_nil)
      ((forward_expect _).bind_tells fun _ ↦ tells_nil)
  · exact (forward_expect _).bind_tells fun _ ↦ hmembers.bind fun ms hms ↦
      (forward_closingBrace _ _).bind_tells fun _ ↦ tells_pure hms

omit hmembers in
/-- The name of a type, its parameters and its bases are read as names. -/
theorem tells_typeHead (kind : TypeKind) :
    (typeHead kind).Tells p fun head ↦
      p head.1.1 ∧ (∀ t ∈ head.2.1, p t.name) ∧ ∀ r ∈ head.2.2, r.Named p := by
  have hparams : optionalTypeParams.Tells p fun ts ↦ ∀ t ∈ ts, p t.name :=
    (forward_check _).bind_tells fun _ ↦ .ite tells_typeParams tells_nil
  have hbases : optionalBases.Tells p fun rs ↦ ∀ r ∈ rs, r.Named p :=
    (forward_eat _).bind_tells fun _ ↦ .ite tells_baseList tells_nil
  have hparts : headParts.Tells p fun parts ↦
      (∀ t ∈ parts.1, p t.name) ∧ ∀ r ∈ parts.2, r.Named p :=
    hparams.bind fun _ hts ↦ forward_optionalGroup.bind_tells fun _ ↦ hbases.bind fun _ hrs ↦
      forward_constraints.bind_tells fun _ ↦ tells_pure ⟨hts, hrs⟩
  rw [typeHead_eq]
  exact (forward_kindWords kind).bind_tells fun _ ↦ tells_identifier.bind fun _ hnamed ↦
    hparts.bind fun _ h ↦ tells_pure ⟨hnamed, h⟩

theorem tells_typeDeclWith (kind : TypeKind) (attributes : List AttributeList)
    (mods : List Modifier) (start : Span) :
    (typeDeclWith members kind attributes mods start).Tells p fun d ↦ ∀ e ∈ d.all, e.Named p := by
  rw [typeDeclWith_eq]
  refine (tells_typeHead kind).bind fun head ⟨hnamed, hparams, hbases⟩ ↦ ?_
  exact (tells_typeBodyWith hmembers kind).bind fun ms hms ↦
    (forward_eat _).bind_tells fun _ ↦ (forward_spanFrom _).bind_tells fun _ ↦
      tells_pure (TypeDecl.named_mk hnamed hparams hbases hms)

omit hmembers in
theorem tells_otherMember (start : Span) :
    (otherMember start).Tells p fun o ↦ ∀ m ∈ o, m.Named p :=
  forward_memberRest.bind_tells fun _ ↦ (forward_spanFrom _).bind_tells fun _ ↦
    tells_pure fun _ hm ↦ by
      obtain rfl := Option.some.inj hm
      trivial

omit hmembers in
theorem tells_typedMember (attributes : List AttributeList) (mods : List Modifier) (start : Span) :
    (typedMember attributes mods start).Tells p fun o ↦ ∀ m ∈ o, m.Named p := by
  refine tells_typeRef.bind fun type htype ↦ (Forward.look _).bind_tells fun _ ↦
    .ite (tells_failExpected _ _) <| .ite (tells_otherMember start) <| .ite ?_ <|
      .ite (tells_otherMember start) (tells_failExpected _ _)
  refine forward_declarators.bind_tells fun _ ↦ (forward_spanFrom _).bind_tells fun _ ↦
    tells_pure fun m hm ↦ ?_
  obtain rfl := Option.some.inj hm
  exact htype

theorem tells_memberWith : (memberWith members).Tells p fun o ↦ ∀ m ∈ o, m.Named p := by
  have hnone : (pure none : Parser (Option Member)).Tells p fun o ↦ ∀ m ∈ o, m.Named p :=
    tells_pure fun _ hm ↦ by cases hm
  refine (Forward.look _).bind_tells fun start ↦ forward_attributeLists.bind_tells fun attributes ↦
    forward_modifiers.bind_tells fun mods ↦ (Forward.look _).bind_tells fun c ↦ ?_
  split
  · refine (tells_typeDeclWith hmembers _ attributes mods start).bind fun d hd ↦
      tells_pure fun m hm ↦ ?_
    obtain rfl := Option.some.inj hm
    exact hd
  · exact .ite (forward_advance.bind_tells fun _ ↦ hnone) <| .ite hnone <|
      .ite (tells_otherMember start) (tells_typedMember attributes mods start)

end Members

theorem tells_memberStep {member : Parser (Option Member)}
    (hmember : member.Tells p fun o ↦ ∀ m ∈ o, m.Named p) :
    (memberStep member).Tells p fun r ↦ ∀ o, r = .ok o → ∀ m ∈ o, m.Named p :=
  (Forward.look _).bind_tells fun c ↦ hmember.attempt.bind fun r hr ↦
    (forward_passFailure r).bind_tells fun _ ↦ (forward_unstick c).bind_tells fun _ ↦ tells_pure hr

theorem tells_membersWith {member : Parser (Option Member)}
    (hmember : member.Tells p fun o ↦ ∀ m ∈ o, m.Named p) :
    ∀ budget, (membersWith member budget).Tells p fun ms ↦ ∀ m ∈ ms, m.Named p
  | 0 => tells_nil
  | budget + 1 => by
    rw [membersWith_succ]
    refine (Forward.look _).bind_tells fun _ ↦ .ite tells_nil ?_
    refine (tells_memberStep hmember).bind fun r hr ↦
      (tells_membersWith hmember budget).bind fun rest hrest ↦ ?_
    rcases r with d | _ | m
    · exact tells_pure hrest
    · exact tells_pure hrest
    · exact tells_pure (List.forall_mem_cons.mpr ⟨hr _ rfl m rfl, hrest⟩)

theorem tells_membersWithin (budget : Nat) :
    ∀ depth, (membersWithin budget depth).Tells p fun ms ↦ ∀ m ∈ ms, m.Named p
  | 0 => tells_nil
  | depth + 1 => tells_membersWith (tells_memberWith (tells_membersWithin budget depth)) budget

theorem tells_members : members.Tells p fun ms ↦ ∀ m ∈ ms, m.Named p := fun c hc ↦
  (tells_membersWithin (c.rest.length + 1) (c.rest.length + 1) c hc).of_eq rfl

/-! ### Namespaces -/

theorem tells_usingDirective (isGlobal : Bool) :
    (usingDirective isGlobal).Tells p (Using.Named p) := by
  have hend (isStatic : Bool) (aliasName : Option String) (h : ∀ n ∈ aliasName, p n)
      (start : Token) :
      (do
        let target ← typeRef
        let stop ← expect .semicolon
        pure ⟨aliasName, isStatic, isGlobal, target, start.span.merge stop.span⟩ :
        Parser Using).Tells p (Using.Named p) :=
    tells_typeRef.bind fun target htarget ↦ (forward_expect _).bind_tells fun _ ↦
      tells_pure ⟨h, htarget⟩
  have hsome (n : String) (h : p n) :
      (pure (some n) : Parser (Option String)).Tells p fun a ↦ ∀ m ∈ a, p m :=
    tells_pure fun _ hm ↦ Option.some.inj hm ▸ h
  have hnone : (pure none : Parser (Option String)).Tells p fun a ↦ ∀ m ∈ a, p m :=
    tells_pure fun _ hm ↦ by cases hm
  refine (forward_expect _).bind_tells fun start ↦ (Forward.look _).bind_tells fun isStatic ↦
    .ite (forward_advance.bind_tells fun _ ↦ (Forward.look _).bind_tells fun _ ↦ .ite ?_ ?_)
      ((Forward.look _).bind_tells fun _ ↦ .ite ?_ ?_)
  · exact tells_identifier.bind fun named hnamed ↦ forward_advance.bind_tells fun _ ↦
      (hsome named.1 hnamed).bind fun a ha ↦ hend _ a ha start
  · exact hnone.bind fun a ha ↦ hend _ a ha start
  · exact tells_identifier.bind fun named hnamed ↦ forward_advance.bind_tells fun _ ↦
      (hsome named.1 hnamed).bind fun a ha ↦ hend _ a ha start
  · exact hnone.bind fun a ha ↦ hend _ a ha start

/-- All names in the body of a namespace are of a kind. -/
def NamedBody (p : String → Prop) (body : List Using × List Item) : Prop :=
  (∀ u ∈ body.1, u.Named p) ∧ ∀ i ∈ body.2, i.Named p

/-- All names in an entry are of a kind. -/
def Entry.Named (p : String → Prop) : Entry → Prop
  | .using u => u.Named p
  | .item i => i.Named p
  | .nothing => True

theorem namedBody_nil : NamedBody p ([], []) :=
  ⟨fun _ h ↦ absurd h List.not_mem_nil, fun _ h ↦ absurd h List.not_mem_nil⟩

theorem tells_declarationEntry : declarationEntry.Tells p (Entry.Named p) := by
  refine (Forward.look _).bind_tells fun start ↦ forward_attributeLists.bind_tells fun attributes ↦
    forward_modifiers.bind_tells fun mods ↦ (Forward.look _).bind_tells fun c ↦ ?_
  split
  · refine (tells_typeDeclWith tells_members _ attributes mods start).bind fun d hd ↦
      tells_pure ⟨?_, ?_, hd⟩
    · exact fun n hn ↦ absurd hn List.not_mem_nil
    · exact fun u hu ↦ absurd hu List.not_mem_nil
  · exact .ite (forward_memberRest.bind_tells fun _ ↦ tells_pure trivial) <|
      .ite (tells_pure trivial) (tells_failExpected _ _)

section Body

variable {body : BodyEnd → Parser (List Using × List Item)}
  (hbody : ∀ bodyEnd, (body bodyEnd).Tells p (NamedBody p))

include hbody

theorem tells_namespaceWith : (namespaceWith body).Tells p (Item.Named p) := by
  refine (forward_expect _).bind_tells fun start ↦ tells_name.bind fun n hn ↦ ?_
  have hparts : ∀ part ∈ n.parts, p part := List.forall_mem_map.mpr fun s hs ↦ (hn s hs).1
  refine (forward_eat _).bind_tells fun _ ↦ .ite ?_ ?_
  · exact (hbody _).bind fun inside hinside ↦ (forward_spanFrom _).bind_tells fun _ ↦
      tells_pure (Item.named_namespaceDecl hinside.2 hparts hinside.1)
  · exact (forward_expect _).bind_tells fun _ ↦ (hbody _).bind fun inside hinside ↦
      (forward_closingBrace _ _).bind_tells fun _ ↦ (forward_eat _).bind_tells fun _ ↦
        (forward_spanFrom _).bind_tells fun _ ↦
          tells_pure (Item.named_namespaceDecl hinside.2 hparts hinside.1)

theorem tells_entryWith : (entryWith body).Tells p (Entry.Named p) := by
  refine (Forward.look _).bind_tells fun c ↦ .ite ?_ (.ite ?_ (.ite ?_ (.ite ?_ ?_)))
  · exact (tells_usingDirective _).map fun u hu ↦ hu
  · exact forward_advance.bind_tells fun _ ↦ (tells_usingDirective _).map fun u hu ↦ hu
  · exact forward_recoverToItem.bind_tells fun _ ↦ tells_pure trivial
  · exact (tells_namespaceWith hbody).map fun i hi ↦ hi
  · exact tells_declarationEntry

theorem tells_stepWith : (stepWith body).Tells p (Entry.Named p) := by
  refine (Forward.look _).bind_tells fun c ↦ .ite ?_ (.ite ?_ ?_)
  · exact (forward_report _).bind_tells fun _ ↦ forward_advance.bind_tells fun _ ↦
      tells_pure trivial
  · exact forward_advance.bind_tells fun _ ↦ tells_pure trivial
  · refine (tells_entryWith hbody).attempt.bind fun r hr ↦ ?_
    cases r with
    | ok e => exact tells_pure (hr e rfl)
    | error d =>
      exact (forward_report d).bind_tells fun _ ↦ forward_recoverToItem.bind_tells fun _ ↦
        tells_pure trivial

theorem tells_entriesWith (bodyEnd : BodyEnd) :
    ∀ budget, (entriesWith body bodyEnd budget).Tells p (NamedBody p)
  | 0 => tells_pure namedBody_nil
  | budget + 1 => by
    rw [entriesWith_succ]
    refine (Forward.look _).bind_tells fun k ↦ .ite (tells_pure namedBody_nil) ?_
    refine (tells_stepWith hbody).bind fun e he ↦
      (tells_entriesWith bodyEnd budget).bind fun rest hrest ↦ ?_
    obtain ⟨husings, hitems⟩ := hrest
    rcases e with u | i | _
    · exact tells_pure ⟨List.forall_mem_cons.mpr ⟨he, husings⟩, hitems⟩
    · exact tells_pure ⟨husings, List.forall_mem_cons.mpr ⟨he, hitems⟩⟩
    · exact tells_pure ⟨husings, hitems⟩

end Body

theorem tells_namespaceBodyWithin (budget : Nat) :
    ∀ depth bodyEnd, (namespaceBodyWithin budget depth bodyEnd).Tells p (NamedBody p)
  | 0, _ => tells_pure namedBody_nil
  | depth + 1, bodyEnd => tells_entriesWith (tells_namespaceBodyWithin budget depth) bodyEnd budget

theorem tells_namespaceBody (bodyEnd : BodyEnd) :
    (namespaceBody bodyEnd).Tells p (NamedBody p) := fun c hc ↦
  (tells_namespaceBodyWithin (c.rest.length + 1) (c.rest.length + 1) bodyEnd c hc).of_eq rfl

end Parser

/-! ### Words -/

/-- A text that is a word. -/
def IsWordName (n : String) : Prop := Token.isWordText n.toList = true

/-- An identifier of a source stands for a word. -/
theorem Token.isWordName_of_mem_ofSource {source : String} {t : Token} (ht : t ∈ ofSource source)
    (hkind : t.kind = .ident) : IsWordName t.name := by
  have hname := isNameText_of_mem_ofSource ht hkind
  unfold IsWordName Token.name unescape
  by_cases hescape : ∃ w, t.text.toList = '@' :: w
  · obtain ⟨w, hw⟩ := hescape
    rw [hw, isNameText] at hname
    rw [hw]
    show isWordText (String.ofList w).toList = true
    rw [String.toList_ofList]
    exact hname
  · have hplain (w : List Char) : ¬t.text.toList = '@' :: w := fun hw ↦ hescape ⟨w, hw⟩
    rw [isNameText.eq_2 _ hplain] at hname
    split
    · rename_i w hw
      exact absurd hw (hplain w)
    · exact hname

/-- Whatever its source is, a file has only words for names. -/
theorem Parsed.isWordName_of_mem_names {path source n : String}
    (h : n ∈ (ofSource path source).file.names) : IsWordName n := by
  have hcursor : (Cursor.ofTokens ((Token.ofSource source).filter (·.kind ≠ .error))).Named
      IsWordName := fun t ht hkind ↦
    Token.isWordName_of_mem_ofSource (List.mem_of_mem_filter ht) hkind
  obtain ⟨read, -, hnamed⟩ := Parser.tells_namespaceBody .endOfFile _ hcursor
  have hbody : Parser.NamedBody IsWordName
      ((ofSource path source).file.usings, (ofSource path source).file.items) := by
    rcases file_cases path source with ⟨body, hresult, hfile⟩ | hfile <;> rw [hfile]
    · exact hnamed body hresult
    · exact Parser.namedBody_nil
  obtain ⟨husings, hitems⟩ := hbody
  have hall : ∀ u ∈ (ofSource path source).file.allUsings, u.Named IsWordName :=
    List.forall_mem_append.mpr ⟨husings, Item.named_of_mem_allUsings hitems⟩
  have htypes := Item.named_of_mem_allTypes hitems
  rcases List.mem_append.mp h with h | h
  · rcases List.mem_append.mp h with h | h
    · rcases List.mem_append.mp h with h | h
      · exact Item.named_of_mem_allPieces hitems n h
      · obtain ⟨d, hd, hn⟩ := List.mem_flatMap.mp h
        exact (htypes d hd).1 n hn
    · obtain ⟨u, hu, hn⟩ := List.mem_filterMap.mp h
      exact (hall u hu).1 n hn
  · obtain ⟨r, hr, hn⟩ := List.mem_flatMap.mp h
    rcases List.mem_append.mp hr with hr | hr
    · obtain ⟨u, hu, rfl⟩ := List.mem_map.mp hr
      exact (hall u hu).2 n hn
    · obtain ⟨d, hd, hr⟩ := List.mem_flatMap.mp hr
      exact (htypes d hd).2 r hr n hn

end Companion
