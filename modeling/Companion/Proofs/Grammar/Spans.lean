import Companion.Proofs.Grammar.TypeSpans

/-!
The spans of whole files. Members and type declarations lie one behind the other in the bodies that
they stand in (`Parser.lays_members`), and so do using directives and items in the bodies of
namespaces and files, each kind in a row of its own (`Parser.leads_namespaceBody`). So the tree of
every source, well formed or not, has a sound outline: every span is in order and between characters
of the text, lies in the span around it, and ends before the next one starts
(`Parsed.row_outlines`).
-/

set_option autoImplicit false
set_option relaxedAutoImplicit false

namespace Companion

open Outline (Row)

namespace Parser

open Cursor (Tiles Laid Filled)

variable {α β : Type} {cs : List Char} {c c₀ : Cursor}

/-! ### Type declarations and members -/

theorem lays_typeParams : typeParams.Lays cs (List.map TypeParam.outline) := by
  have hname : (identifier >>= fun named ↦ pure ⟨named.1, named.2⟩ : Parser TypeParam).Fills cs
      fun p ↦ [p.outline] :=
    fun c hc ↦ (fills_identifier c hc).bind fun named c' h ↦ leads_pure h
  have hparam : typeParam.Lays cs fun p ↦ [p.outline] := fun c hc ↦
    forward_attributeLists.bind_laid hc.laid fun _ c' h ↦ leads_look_bind <| .ite
      (fun _ ↦ forward_advance.bind_laid h fun _ c' h ↦
        (hname c' h.ahead).mono fun p _ _ hp ↦ h.trans hp.toLaid)
      fun _ ↦ (hname c' h.ahead).mono fun p _ _ hp ↦ h.trans hp.toLaid
  have hparams (budget : Nat) :
      (commaSeparated typeParam budget).Lays cs (List.map TypeParam.outline) :=
    (lays_commaSeparated hparam budget).congr fun _ ↦ List.map_eq_flatMap.symm
  exact fun c hc ↦ (forward_expect _).bind_laid hc.laid fun _ c' h ↦ leads_look_bind <|
    (hparams _).bind_laid h fun params c' h ↦
      (forward_expect _).bind_laid h fun _ c' h ↦ leads_pure h

theorem lays_baseList : baseList.Lays cs (List.map TypeRef.outline) := by
  have hbase : baseType.Lays cs fun t ↦ [t.outline] := fun c hc ↦
    (fills_typeRef c hc).bind fun t c' h ↦ leads_look_bind <| .ite
      (fun _ ↦ forward_group.bind_filled h fun _ c' h ↦ leads_pure h.toLaid)
      fun _ ↦ leads_pure h.toLaid
  have hbases (budget : Nat) :
      (commaSeparated baseType budget).Lays cs (List.map TypeRef.outline) :=
    (lays_commaSeparated hbase budget).congr fun _ ↦ List.map_eq_flatMap.symm
  exact fun c hc ↦ Gives.of_eq (hbases c.rest.length c hc) rfl

/-- The outlines of what stands in front of the body of a type declaration. -/
def headOutlines (head : (String × Span) × List TypeParam × List TypeRef) : List Outline :=
  .leaf head.1.2 :: (head.2.1.map TypeParam.outline ++ head.2.2.map TypeRef.outline)

theorem lays_headParts : headParts.Lays cs fun parts ↦
    parts.1.map TypeParam.outline ++ parts.2.map TypeRef.outline := by
  have hparams : optionalTypeParams.Lays cs (List.map TypeParam.outline) := fun c hc ↦
    leads_look_bind (.ite (fun _ ↦ lays_typeParams c hc) fun _ ↦ leads_pure hc.laid)
  have hbases : optionalBases.Lays cs (List.map TypeRef.outline) := fun c hc ↦
    (forward_eat _).bind_laid hc.laid fun _ c' h ↦
      .ite (fun _ ↦ (lays_baseList c' h.ahead).mono fun _ _ _ hb ↦ h.trans hb)
        fun _ ↦ leads_pure h
  exact fun c hc ↦ hparams.bind_laid hc.laid fun params c₁ h ↦
    forward_optionalGroup.bind_laid h fun _ c₂ h ↦ hbases.bind_laid h fun bases c₃ h ↦
      forward_constraints.bind_laid h fun _ _ h ↦ leads_pure h

theorem fills_typeHead (kind : TypeKind) : (typeHead kind).Fills cs headOutlines := by
  rw [typeHead_eq]
  exact fun c hc ↦ (forward_kindWords kind).bind_laid hc.laid fun _ c₁ h ↦
    fills_identifier.bind_laid h fun named c₂ h ↦
      lays_headParts.bind_filled h fun parts _ h ↦ leads_pure h

theorem lays_typeBodyWith {members : Parser (List Member)}
    (hmembers : members.Lays cs Member.outlines) (kind : TypeKind) :
    (typeBodyWith members kind).Lays cs Member.outlines := by
  refine fun c hc ↦ (forward_eat _).bind_laid hc.laid fun _ c' h ↦
    .ite (fun _ ↦ leads_pure h) fun _ ↦ .ite (fun _ ↦ leads_look_bind ?_) fun _ ↦ ?_
  · exact .ite (fun _ ↦ forward_group.bind_laid h fun _ _ h ↦ leads_pure h)
      fun _ ↦ (forward_expect _).bind_laid h fun _ _ h ↦ leads_pure h
  · exact (forward_expect _).bind_laid h fun opened c' h ↦ hmembers.bind_laid h fun ms c' h ↦
      (forward_closingBrace _ _).bind_laid h fun _ c' h ↦ leads_pure h

/-- A type declaration starts with its attributes. -/
theorem leads_typeDeclWith {members : Parser (List Member)}
    (hmembers : members.Lays cs Member.outlines) (kind : TypeKind)
    {attributes : List AttributeList} (mods : List Modifier)
    (h : Laid cs c₀ (attributes.map AttributeList.outline) c) :
    (typeDeclWith members kind attributes mods c₀.current.span).Leads c fun d c' ↦
      Filled cs c₀ [d.outline] c' := by
  rw [typeDeclWith_eq]
  refine (fills_typeHead kind).bind_laid h fun head c' h ↦ ?_
  refine (lays_typeBodyWith hmembers kind).bind_filled h fun ms c' h ↦ ?_
  refine (forward_eat _).bind_filled h fun _ c' h ↦ leads_look_bind (leads_pure ?_)
  rw [List.append_assoc] at h
  exact h.node_row

theorem length_memberRest_lt_of_startsOther (h : startsOther c = true) :
    (memberRest c).cursor.rest.length < c.rest.length := by
  refine length_memberRest_lt (fun hkind ↦ ?_) fun hkind ↦ ?_ <;>
  · rw [startsOther, hkind] at h
    cases h

theorem leads_otherMember {os : List Outline}
    (h : memberRest.Leads c fun _ c' ↦ Filled cs c₀ os c') :
    (otherMember c₀.current.span).Leads c fun m c' ↦
      Filled cs c₀ (m.toList.map Member.outline) c' :=
  h.bind fun _ _ h ↦ leads_look_bind (leads_pure (h.node fun _ hrow ↦ absurd hrow List.not_mem_nil))

theorem leads_typedMember {attributes : List AttributeList} (mods : List Modifier)
    (h : Laid cs c₀ (attributes.map AttributeList.outline) c) :
    (typedMember attributes mods c₀.current.span).Leads c fun m c' ↦
      Filled cs c₀ (m.toList.map Member.outline) c' := by
  refine fills_typeRef.bind_laid h fun type c' h ↦ leads_look_bind ?_
  have hother : (otherMember c₀.current.span).Leads c' fun m c' ↦
      Filled cs c₀ (m.toList.map Member.outline) c' :=
    leads_otherMember (forward_memberRest.leads.mono fun _ _ _ hread ↦ h.forward hread)
  refine .ite (fun _ ↦ leads_of_error rfl) fun _ ↦ .ite (fun _ ↦ hother) fun _ ↦
    .ite (fun _ ↦ ?_) fun _ ↦ .ite (fun _ ↦ hother) fun _ ↦ leads_of_error rfl
  refine lays_declarators.bind_filled h fun ds c'' h ↦ leads_look_bind (leads_pure ?_)
  rw [List.append_assoc] at h
  exact h.node_row

theorem lays_memberWith {members : Parser (List Member)}
    (hmembers : members.Lays cs Member.outlines) :
    (memberWith members).Lays cs fun m ↦ m.toList.map Member.outline := by
  refine fun c hc ↦ leads_look_bind (lays_attributeLists.bind_laid hc.laid fun attributes c₁ h ↦ ?_)
  refine forward_modifiers.bind_laid h fun mods c₂ h ↦ leads_look_bind ?_
  dsimp only [id]
  split
  · exact (leads_typeDeclWith hmembers _ mods h).bind fun d c' h ↦ leads_pure h.toLaid
  · refine .ite (fun _ ↦ forward_advance.bind_laid h fun _ c' h ↦ leads_pure h.nothing) fun _ ↦
      .ite (fun _ ↦ leads_pure h.nothing) fun _ ↦ .ite (fun hstarts ↦ ?_) fun _ ↦ ?_
    · have hrest : memberRest.Leads c₂ fun _ c' ↦ Filled cs c [] c' := by
        obtain ⟨read, hread, -⟩ := forward_memberRest c₂
        refine ⟨read, hread, fun _ _ ↦ h.nothing.trans_filled ⟨?_, ?_⟩⟩
        · exact h.ahead.laid.forward ⟨read, hread⟩
        · exact length_memberRest_lt_of_startsOther hstarts
      exact (leads_otherMember hrest).mono fun _ _ _ h ↦ h.toLaid
    · exact (leads_typedMember mods h).mono fun _ _ _ h ↦ h.toLaid

/-- The outline of a member that was read; there may be none. -/
def keptOutlines : Except Diagnostic (Option Member) → List Outline
  | .ok (some m) => [m.outline]
  | _ => []

theorem lays_memberStep {member : Parser (Option Member)}
    (hmember : member.Lays cs fun m ↦ m.toList.map Member.outline) :
    (memberStep member).Lays cs keptOutlines := by
  intro c hc
  have hattempt : (attempt member).Leads c fun r c' ↦ Laid cs c (keptOutlines r) c' := by
    obtain ⟨read, hread, hpost⟩ := hmember c hc
    refine ⟨read, hread, fun r hr ↦ ?_⟩
    obtain rfl : (member c).result = r := Except.ok.inj hr
    have hnothing := hc.laid.forward ⟨read, hread⟩
    cases hresult : (member c).result with
    | error d => exact hnothing
    | ok m =>
      have hm := hpost m hresult
      cases m with
      | none => exact hnothing
      | some m => exact hm
  refine leads_look_bind (hattempt.bind fun r c' h ↦ ?_)
  refine (forward_passFailure r).bind_laid h fun _ c' h ↦ ?_
  exact (forward_unstick c).bind_laid h fun _ c' h ↦ leads_pure h

theorem lays_membersWith {member : Parser (Option Member)}
    (hmember : member.Lays cs fun m ↦ m.toList.map Member.outline) :
    ∀ budget, (membersWith member budget).Lays cs Member.outlines
  | 0 => fun c hc ↦ leads_pure hc.laid
  | budget + 1 => by
    intro c hc
    rw [membersWith_succ]
    refine leads_look_bind (.ite (fun _ ↦ leads_pure hc.laid) fun _ ↦ ?_)
    refine (lays_memberStep hmember).bind_laid hc.laid fun r c' h ↦ ?_
    refine (lays_membersWith hmember budget).bind_laid h fun rest c' h ↦ ?_
    rcases r with d | _ | m <;> exact leads_pure h

theorem lays_membersWithin (budget : Nat) :
    ∀ depth, (membersWithin budget depth).Lays cs Member.outlines
  | 0 => fun _ hc ↦ leads_pure hc.laid
  | depth + 1 => lays_membersWith (lays_memberWith (lays_membersWithin budget depth)) budget

theorem lays_members : members.Lays cs Member.outlines := fun c hc ↦
  Gives.of_eq (lays_membersWithin (c.rest.length + 1) (c.rest.length + 1) c hc) rfl

/-! ### Namespaces -/

theorem fills_usingDirective (isGlobal : Bool) :
    (usingDirective isGlobal).Fills cs fun u ↦ [u.outline] := by
  refine fun c hc ↦ (leads_expect hc (by decide)).bind fun start _ hstart ↦ ?_
  obtain ⟨rfl, -, h⟩ := hstart
  have htarget (isStatic : Bool) (aliasName : Option String) (c' : Cursor)
      (h : Filled cs c [] c') :
      (do
        let target ← typeRef
        let stop ← expect .semicolon
        pure ⟨aliasName, isStatic, isGlobal, target, c.current.span.merge stop.span⟩ :
        Parser Using).Leads c' fun u c'' ↦ Filled cs c [u.outline] c'' := by
    refine fills_typeRef.lays.bind_filled h fun target c' h ↦ ?_
    refine (leads_expect h.ahead (by decide)).bind fun stop c'' hstop ↦ leads_pure ?_
    obtain ⟨rfl, hprevious, hread⟩ := hstop
    rw [← hprevious]
    exact (h.forward hread.reads).node_row
  refine leads_look_bind (.ite (fun _ ↦ forward_advance.bind_filled h fun _ c₂ h ↦
    leads_look_bind ?_) fun _ ↦ leads_look_bind ?_)
  all_goals
    refine .ite (fun _ ↦ ?_) fun _ ↦ leads_pure_bind (htarget _ none _ h)
    exact forward_identifier.bind_filled h fun named _ h ↦ forward_advance.bind_filled h fun _ _ h ↦
      leads_pure_bind (htarget _ (some named.1) _ h)

/-- From one cursor to another the usings and the items of a body have been laid, each in a row of
their own. -/
def LaidBody (cs : List Char) (c : Cursor) (rest : List Using × List Item) (c' : Cursor) : Prop :=
  Laid cs c (rest.1.map Using.outline) c' ∧ Laid cs c (Item.outlines rest.2) c'

/-- The outline of an entry, if it is a using directive. -/
def Entry.usingOutlines : Entry → List Outline
  | .using u => [u.outline]
  | _ => []

/-- The outline of an entry, if it is an item. -/
def Entry.itemOutlines : Entry → List Outline
  | .item i => [i.outline]
  | _ => []

/-- From one cursor to another an entry has been laid. -/
def LaidEntry (cs : List Char) (c : Cursor) (e : Entry) (c' : Cursor) : Prop :=
  Laid cs c e.usingOutlines c' ∧ Laid cs c e.itemOutlines c'

theorem laidEntry_nothing {c' : Cursor} {os : List Outline} (h : Laid cs c os c') :
    LaidEntry cs c .nothing c' := ⟨h.nothing, h.nothing⟩

theorem laidEntry_using {c' : Cursor} {u : Using} (h : Laid cs c [u.outline] c') :
    LaidEntry cs c (.using u) c' := ⟨h, h.nothing⟩

theorem laidEntry_item {c' : Cursor} {i : Item} (h : Laid cs c [i.outline] c') :
    LaidEntry cs c (.item i) c' := ⟨h.nothing, h⟩

theorem leads_declarationEntry (hc : c.Tiles cs) : declarationEntry.Leads c (LaidEntry cs c) := by
  refine leads_look_bind (lays_attributeLists.bind_laid hc.laid fun attributes c₁ h ↦ ?_)
  refine forward_modifiers.bind_laid h fun mods c₂ h ↦ leads_look_bind ?_
  dsimp only [id]
  split
  · exact (leads_typeDeclWith lays_members _ mods h).bind fun d c' h ↦
      leads_pure (laidEntry_item h.toLaid)
  · refine .ite (fun _ ↦ ?_) fun _ ↦ .ite (fun _ ↦ leads_pure (laidEntry_nothing h)) fun _ ↦
      leads_of_error rfl
    exact forward_memberRest.bind_laid h fun _ c' h ↦ leads_pure (laidEntry_nothing h)

section Body

variable {body : BodyEnd → Parser (List Using × List Item)}
  (hbody : ∀ e c, c.Tiles cs → (body e).Leads c (LaidBody cs c))

include hbody

theorem leads_namespaceWith (hc : c.Tiles cs) :
    (namespaceWith body).Leads c fun i c' ↦ Laid cs c [i.outline] c' := by
  refine (leads_expect hc (by decide)).bind fun start c₁ hstart ↦ ?_
  obtain ⟨rfl, -, h⟩ := hstart
  refine fills_name.lays.bind_filled h fun n c₂ h ↦ ?_
  have hname : Filled cs c [.leaf n.span] c₂ := h.leaf
  have hend {fileScoped : Bool} {usings : List Using} {items : List Item} {c₃ c₄ : Cursor}
      (h : Filled cs c [.leaf n.span] c₃) (hbody : LaidBody cs c₃ (usings, items) c₄) :
      (do
        let span ← spanFrom c.current.span
        pure (.namespaceDecl ⟨n.parts, n.span, fileScoped, usings, span⟩ items) :
        Parser Item).Leads c₄ fun i c' ↦ Laid cs c [i.outline] c' := by
    refine leads_look_bind (leads_pure (Filled.node (h.trans hbody.1) fun row hrow ↦ ?_).toLaid)
    rcases List.mem_cons.mp hrow with rfl | hrow
    · exact (h.trans hbody.1).toLaid
    · exact List.mem_singleton.mp hrow ▸ (h.trans hbody.2).toLaid
  refine (forward_eat _).bind_filled hname fun _ c₃ h ↦ .ite (fun _ ↦ ?_) fun _ ↦ ?_
  · exact (hbody .endOfFile c₃ h.ahead).bind fun rest c₄ hrest ↦ hend h hrest
  · refine (forward_expect _).bind_filled h fun opened c₄ h ↦ ?_
    refine (hbody .closingBrace c₄ h.ahead).bind fun rest c₅ hrest ↦ ?_
    refine (forward_closingBrace _ _).leads.bind fun _ c₆ hclosed ↦ ?_
    refine (forward_eat _).leads.bind fun _ c₇ heaten ↦ hend h ⟨?_, ?_⟩
    · exact (hrest.1.forward hclosed).forward heaten
    · exact (hrest.2.forward hclosed).forward heaten

theorem leads_entryWith (hc : c.Tiles cs) : (entryWith body).Leads c (LaidEntry cs c) := by
  refine leads_look_bind (.ite (fun _ ↦ ?_) fun _ ↦ .ite (fun _ ↦ ?_) fun _ ↦ .ite (fun _ ↦ ?_)
    fun _ ↦ .ite (fun _ ↦ ?_) fun _ ↦ leads_declarationEntry hc)
  · exact (fills_usingDirective false c hc).bind fun u c' h ↦ leads_pure (laidEntry_using h.toLaid)
  · refine forward_advance.bind_laid hc.laid fun _ c₁ h ↦ ?_
    exact (fills_usingDirective true).lays.bind_laid h fun u c' h ↦ leads_pure (laidEntry_using h)
  · exact forward_recoverToItem.bind_laid hc.laid fun _ c' h ↦ leads_pure (laidEntry_nothing h)
  · exact (leads_namespaceWith hbody hc).bind fun i c' h ↦ leads_pure (laidEntry_item h)

theorem leads_stepWith (hc : c.Tiles cs) : (stepWith body).Leads c (LaidEntry cs c) := by
  refine leads_look_bind (.ite (fun _ ↦ ?_) fun _ ↦ .ite (fun _ ↦ ?_) fun _ ↦ ?_)
  · exact (forward_report _).bind_laid hc.laid fun _ c' h ↦
      forward_advance.bind_laid h fun _ c' h ↦ leads_pure (laidEntry_nothing h)
  · exact forward_advance.bind_laid hc.laid fun _ c' h ↦ leads_pure (laidEntry_nothing h)
  · have hattempt : (attempt (entryWith body)).Leads c fun r c' ↦
        Laid cs c [] c' ∧ ∀ e, r = .ok e → LaidEntry cs c e c' := by
      obtain ⟨read, hread, hpost⟩ := leads_entryWith hbody hc
      refine ⟨read, hread, fun r hr ↦ ?_⟩
      obtain rfl : (entryWith body c).result = r := Except.ok.inj hr
      exact ⟨hc.laid.forward ⟨read, hread⟩, fun e he ↦ hpost e he⟩
    refine hattempt.bind fun r c' h ↦ ?_
    cases r with
    | ok e => exact leads_pure (h.2 e rfl)
    | error d =>
      exact (forward_report d).bind_laid h.1 fun _ c' h ↦
        forward_recoverToItem.bind_laid h fun _ c' h ↦ leads_pure (laidEntry_nothing h)

theorem leads_entriesWith (bodyEnd : BodyEnd) :
    ∀ (budget : Nat) {c : Cursor}, c.Tiles cs →
      (entriesWith body bodyEnd budget).Leads c (LaidBody cs c)
  | 0, c, hc => leads_pure ⟨hc.laid, hc.laid⟩
  | budget + 1, c, hc => by
    rw [entriesWith_succ]
    refine leads_look_bind (.ite (fun _ ↦ leads_pure ⟨hc.laid, hc.laid⟩) fun _ ↦ ?_)
    refine (leads_stepWith hbody hc).bind fun e c₁ he ↦ ?_
    refine (leads_entriesWith bodyEnd budget he.1.ahead).bind fun rest c₂ hrest ↦ ?_
    have husings := he.1.trans hrest.1
    have hitems := he.2.trans hrest.2
    cases e <;> exact leads_pure ⟨husings, hitems⟩

end Body

theorem leads_namespaceBodyWithin (budget : Nat) :
    ∀ (depth : Nat) (bodyEnd : BodyEnd) (c : Cursor), c.Tiles cs →
      (namespaceBodyWithin budget depth bodyEnd).Leads c (LaidBody cs c)
  | 0, _, _, hc => leads_pure ⟨hc.laid, hc.laid⟩
  | depth + 1, bodyEnd, _, hc =>
    leads_entriesWith (leads_namespaceBodyWithin budget depth) bodyEnd budget hc

theorem leads_namespaceBody (bodyEnd : BodyEnd) (hc : c.Tiles cs) :
    (namespaceBody bodyEnd).Leads c (LaidBody cs c) :=
  Gives.of_eq (leads_namespaceBodyWithin (c.rest.length + 1) (c.rest.length + 1) bodyEnd c hc) rfl

end Parser

/-! ### Whole files -/

namespace Parsed

theorem tiles_readable {source : String}
    (hsize : Text.byteLength source.toList ≤ Span.maxOffset) :
    (Cursor.ofTokens (readable source)).Tiles source.toList := by
  have htiles := Token.tiles_ofSource hsize
  refine ⟨ended_readable source, fun t ht ↦ (htiles.fits t (List.mem_of_mem_filter ht)).1,
    (htiles.ordered.imp And.right).filter _, ?_, fun _ _ ↦ Nat.zero_le _⟩
  exact .of_cuts (Nat.le_refl _) (Text.isCut_zero _) (Text.isCut_zero _)

/-- In the tree of every source below four gigabytes, also where something in it could not be read,
all spans are sound: each is in order, lies within the text and has both ends between characters,
and lies within the span of what it stands in; and whatever stands side by side comes in the order
of the text, one thing ending before the next one starts. -/
theorem row_outlines (path : String) {source : String}
    (hsize : Text.byteLength source.toList ≤ Span.maxOffset) :
    Row source.toList 0 (Text.byteLength source.toList)
        ((ofSource path source).file.usings.map Using.outline) ∧
      Row source.toList 0 (Text.byteLength source.toList)
        (Item.outlines (ofSource path source).file.items) := by
  obtain ⟨read, hread, hlaid⟩ := Parser.leads_namespaceBody .endOfFile (tiles_readable hsize)
  have hstop := ((tiles_readable hsize).of_reads hread).previous_fits.stop_le
  rcases file_cases path source with ⟨body, hresult, hfile⟩ | hfile <;> rw [hfile]
  · obtain ⟨husings, hitems⟩ := hlaid body hresult
    exact ⟨husings.row.mono (Nat.zero_le _) hstop, hitems.row.mono (Nat.zero_le _) hstop⟩
  · exact ⟨.nil, .nil⟩

/-- A source that ends inside the attributes of a field. -/
private def brokenSource : String := "using U;class C\x7bint x=1,y;[A(typeof(B<C"

theorem row_outlines_broken :
    Text.byteLength brokenSource.toList ≤ Span.maxOffset ∧
      Row brokenSource.toList 0 (Text.byteLength brokenSource.toList)
        ((ofSource "C.cs" brokenSource).file.usings.map Using.outline) ∧
      Row brokenSource.toList 0 (Text.byteLength brokenSource.toList)
        (Item.outlines (ofSource "C.cs" brokenSource).file.items) := by
  have hsize : Text.byteLength brokenSource.toList ≤ Span.maxOffset := by decide
  exact ⟨hsize, row_outlines "C.cs" hsize⟩

end Parsed
end Companion
