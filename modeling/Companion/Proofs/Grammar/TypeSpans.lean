import Companion.Proofs.Grammar.Laying

/-!
The spans of types, attributes and variables. Whatever a parser of these gives, its node starts with
a token that was read for it and ends with one, and its parts lie one behind the other between the
two: so types fill the way between two cursors (`Parser.fills_typeRef`), and so do names
(`Parser.fills_name`), attribute lists (`Parser.fills_attributeList`) and declarators with their
initializers (`Parser.fills_declarator`).
-/

set_option autoImplicit false
set_option relaxedAutoImplicit false

namespace Companion

open Outline (Row)

namespace Parser

open Cursor (Tiles Laid Filled)

variable {α β : Type} {cs : List Char} {c c₀ : Cursor}

/-! ### Types -/

section Types

variable {type : Parser TypeRef} (htype : type.Lays cs fun t ↦ [t.outline])

include htype

theorem lays_types (budget : Nat) : (commaSeparated type budget).Lays cs TypeRef.outlines :=
  (lays_commaSeparated htype budget).congr fun ts ↦
    (List.map_eq_flatMap.symm).trans (TypeRef.outlines_eq_map ts).symm

theorem lays_typeArgsWith (budget : Nat) : (typeArgsWith type budget).Lays cs TypeRef.outlines := by
  intro c hc
  have hclose (args : List TypeRef) (c' : Cursor) (h : Laid cs c (TypeRef.outlines args) c') :
      (do let _ ← expect .gt; pure args : Parser (List TypeRef)).Leads c' fun as c'' ↦
        Laid cs c (TypeRef.outlines as) c'' :=
    (forward_expect _).bind_laid h fun _ _ h ↦ leads_pure h
  refine (forward_expect _).bind_laid hc.laid fun _ c' h ↦ leads_look_bind ?_
  exact .ite (fun _ ↦ leads_pure_bind (hclose [] c' h))
    fun _ ↦ (lays_types htype budget).bind_laid h hclose

theorem fills_segmentWith (budget : Nat) :
    (segmentWith type budget).Fills cs fun s ↦ [s.outline] := by
  refine fun c hc ↦ (leads_identifier hc).bind fun named c₁ hnamed ↦ ?_
  obtain ⟨hplace, -, h⟩ := hnamed
  have hend (args : List TypeRef) (c₂ : Cursor) (h : Filled cs c (TypeRef.outlines args) c₂) :
      (do let span ← spanFrom named.2; pure (.mk named.1 args span) : Parser Segment).Leads c₂
        fun s c' ↦ Filled cs c [s.outline] c' :=
    leads_look_bind (leads_pure (hplace ▸ h.node_row))
  refine leads_look_bind (.ite (fun _ ↦ ?_) fun _ ↦ leads_pure_bind (hend [] c₁ h))
  exact (lays_typeArgsWith htype budget).bind_filled h hend

theorem fills_segmentsWith (budget : Nat) :
    ∀ n, (segmentsWith (segmentWith type budget) n).Fills cs Segment.outlines
  | 0 => fun c hc ↦ (fills_segmentWith htype budget c hc).bind fun s c' h ↦ leads_pure h
  | n + 1 => by
    refine fun c hc ↦ (fills_segmentWith htype budget c hc).bind fun s c' h ↦ leads_look_bind ?_
    refine .ite (fun _ ↦ ?_) fun _ ↦ leads_pure h
    refine forward_advance.bind_filled h fun _ c' h ↦ ?_
    exact (fills_segmentsWith budget n).lays.bind_filled h fun rest c' h ↦ leads_pure h

omit htype in
theorem lays_qualifier : qualifier.Lays cs fun q ↦ Segment.outlines q.2 := by
  refine fun c hc ↦ leads_look_bind (.ite (fun _ ↦ ?_) fun _ ↦ leads_pure hc.laid)
  refine (leads_identifier hc).bind fun named c₁ hnamed ↦ ?_
  obtain ⟨hplace, hprevious, h⟩ := hnamed
  have hsegment : Filled cs c [(Segment.mk named.1 [] named.2).outline] c₁ :=
    hplace ▸ h.token hprevious fun _ hrow ↦ List.mem_singleton.mp hrow
  refine forward_advance.leads.bind fun _ c' hread ↦ .ite (fun _ ↦ ?_) fun _ ↦ ?_
  · exact leads_pure (h.forward hread).toLaid
  · exact leads_pure (hsegment.forward hread).toLaid

theorem fills_nameWith (budget : Nat) :
    (nameWith type budget).Fills cs fun n ↦ [(TypeRef.ofName n).outline] := by
  refine fun c hc ↦ leads_look_bind (lays_qualifier.bind_laid hc.laid fun q c' h ↦ ?_)
  refine (fills_segmentsWith htype budget budget).bind_laid h fun segments c' h ↦ ?_
  refine leads_look_bind (leads_pure ?_)
  have hsegments := Segment.outlines_append q.2 segments
  exact (hsegments ▸ h : Filled cs c (Segment.outlines (q.2 ++ segments)) c').node_row

theorem fills_tupleWith (budget : Nat) :
    (tupleWith type budget).Fills cs fun t ↦ [t.outline] := by
  have helement : (tupleElementWith type).Lays cs fun t ↦ [t.outline] := fun c hc ↦
    (htype c hc).bind fun t c' h ↦ (forward_eat _).bind_laid h fun _ c' h ↦ leads_pure h
  refine fun c hc ↦ (leads_expect hc (by decide)).bind fun opened c₁ hopened ↦ ?_
  obtain ⟨rfl, -, h⟩ := hopened
  refine (lays_types helement budget).bind_filled h fun elements c₂ h ↦ ?_
  refine (leads_expect h.ahead (by decide)).bind fun closed c₃ hclosed ↦ leads_pure ?_
  obtain ⟨rfl, hprevious, hread⟩ := hclosed
  rw [← hprevious]
  exact (h.forward hread.reads).node_row

theorem fills_simpleTypeWith (budget : Nat) :
    (simpleTypeWith type budget).Fills cs fun t ↦ [t.outline] := by
  refine fun c hc ↦ leads_look_bind ?_
  split
  · exact fills_tupleWith htype budget c hc
  · rename_i hkind
    split
    · have hreads : c.kind ≠ .eof := by
        rw [Cursor.kind, hkind]
        decide
      refine (leads_advance hc hreads).bind fun t c' ht ↦ leads_pure ?_
      obtain ⟨rfl, hprevious, h⟩ := ht
      exact h.token hprevious fun _ h ↦ absurd h List.not_mem_nil
    · exact (fills_nameWith htype budget c hc).bind fun n c' h ↦ leads_pure h
  · exact leads_of_error rfl

end Types

/-- What stands behind a type makes a type around it. -/
theorem leads_suffixesWithin : ∀ (budget : Nat) (t : TypeRef) {c₀ c : Cursor},
    Filled cs c₀ [t.outline] c →
      (suffixesWithin budget t).Leads c fun t' c' ↦ Filled cs c₀ [t'.outline] c'
  | 0, t, _, _, h => leads_pure h
  | budget + 1, t, c₀, c, h => by
    have hwrap {c' : Cursor} {s : Span} (h' : Filled cs c₀ [t.outline] c') (hs : c'.previous = s) :
        Filled cs c₀ [.node (t.span.merge s) [[t.outline]]] c' := by
      have hnode := h'.extend
      rwa [TypeRef.span_outline, hs] at hnode
    refine leads_look_bind (leads_look_bind (.ite (fun hquestion ↦ ?_) fun _ ↦
      .ite (fun _ ↦ ?_) fun _ ↦ leads_pure h))
    · have hkind : c.kind = .question := beq_iff_eq.mp hquestion
      refine (leads_advance h.ahead (by rw [hkind]; decide)).bind fun mark c' hmark ↦ ?_
      obtain ⟨rfl, hprevious, hread⟩ := hmark
      exact leads_suffixesWithin budget _ (hwrap (h.forward hread.reads) hprevious)
    · refine forward_advance.bind_filled h fun _ c₁ h ↦ ?_
      refine (forward_commas budget).bind_filled h fun n c₂ h ↦ ?_
      refine (leads_expect h.ahead (by decide)).bind fun closed c₃ hclosed ↦ ?_
      obtain ⟨rfl, hprevious, hread⟩ := hclosed
      exact leads_suffixesWithin budget _ (hwrap (h.forward hread.reads) hprevious)

theorem fills_typeRefWithin (budget : Nat) :
    ∀ depth, (typeRefWithin budget depth).Fills cs fun t ↦ [t.outline]
  | 0 => fun _ _ ↦ leads_of_error rfl
  | depth + 1 => fun c hc ↦
      (fills_simpleTypeWith (fills_typeRefWithin budget depth).lays budget c hc).bind
        fun t _ h ↦ leads_suffixesWithin budget t h

theorem fills_typeRef : typeRef.Fills cs fun t ↦ [t.outline] := fun c hc ↦
  Gives.of_eq (fills_typeRefWithin (c.rest.length + 1) (c.rest.length + 1) c hc) rfl

theorem fills_name : name.Fills cs fun n ↦ [(TypeRef.ofName n).outline] := fun c hc ↦
  Gives.of_eq (fills_nameWith (fills_typeRefWithin (c.rest.length + 1) (c.rest.length + 1)).lays
    (c.rest.length + 1) c hc) rfl

/-! ### Attributes -/

/-- A group ends with the last token that was read, behind the one that opens it. -/
theorem leads_group (hc : c.Tiles cs) (hopener : c.kind.isOpener = true) :
    group.Leads c fun s c' ↦ s = c'.previous ∧ c.current.span.stop ≤ s.start ∧
      Filled cs c [] c' := by
  have hkind : c.kind ≠ .eof := fun h ↦ by rw [h] at hopener; cases hopener
  obtain ⟨hnext, hprevious⟩ := hc.filled_next hkind
  cases hclosing : Cursor.closing 0 c.next.rest with
  | none =>
    obtain ⟨read, hread, -⟩ := forward_group c
    refine ⟨read, hread, fun s hs ↦ ?_⟩
    have hopener' : c.current.kind.isOpener = true := hopener
    rw [group, if_pos hopener', hclosing] at hs
    cases hs
  | some found =>
    obtain ⟨t, rest⟩ := found
    obtain ⟨inside, hinside⟩ := Cursor.reads_closing c.next.previous hclosing
    have hgroup : group c = ⟨.ok t.span, ⟨t.span, rest⟩, []⟩ := by
      have hopener' : c.current.kind.isOpener = true := hopener
      rw [group, if_pos hopener', hclosing]
    have hfilled : Filled cs c [] ⟨t.span, rest⟩ := hnext.forward ⟨inside, hinside⟩
    refine Gives.of_eq (q := fun _ ↦ ⟨.ok t.span, ⟨t.span, rest⟩, []⟩) ?_ hgroup
    refine ⟨_, (Cursor.reads_next_of_kind hkind).trans hinside, fun s hs ↦ ?_⟩
    obtain rfl := Except.ok.inj hs
    refine ⟨rfl, ?_, hfilled⟩
    rw [← hprevious]
    exact hnext.ahead.behind t (Cursor.mem_of_closing hclosing)

theorem fills_attributeUse : attributeUse.Fills cs fun a ↦ [a.outline] := by
  refine fun c hc ↦ (fills_name c hc).bind fun n c₁ h ↦ leads_look_bind ?_
  have hname : Filled cs c [.leaf n.span] c₁ := h.leaf
  have hend (args : Option Span) (c₂ : Cursor)
      (h : Filled cs c (.leaf n.span :: args.toList.map .leaf) c₂) :
      (do let span ← spanFrom n.span; pure ⟨n.render, n.span, args, span⟩ :
        Parser Attribute).Leads c₂ fun a c' ↦ Filled cs c [a.outline] c' :=
    leads_look_bind (leads_pure h.extend)
  refine .ite (fun hparen ↦ leads_look_bind ?_) fun _ ↦ leads_pure_bind (hend none c₁ hname)
  have hkind : c₁.kind = .lparen := beq_iff_eq.mp hparen
  refine (leads_group h.ahead (by rw [hkind]; rfl)).bind fun closed c₂ hclosed ↦ ?_
  obtain ⟨rfl, hbehind, hread⟩ := hclosed
  have hopened := h.ahead.fits _ h.ahead.current_mem
  have hstop := hread.ahead.previous_fits
  have hargs : Laid cs c₁ [.leaf ⟨c₁.current.span.stop, c₂.previous.start⟩] c₂ := by
    refine ⟨h.ahead, hread.reads, .singleton (Outline.sound_leaf ?_) ?_ ?_⟩
    · exact .of_cuts hbehind hopened.stop_cut hstop.start_cut
    · exact hopened.start_le_stop
    · exact hstop.start_le_stop
  exact leads_pure_bind (hend (some _) c₂ (hname.trans hargs))

theorem lays_attributesWithin :
    ∀ budget, (attributesWithin budget).Lays cs (List.map Attribute.outline)
  | 0 => fun c hc ↦ leads_pure hc.laid
  | budget + 1 => by
    refine fun c hc ↦ leads_look_bind (.ite (fun _ ↦ leads_pure hc.laid) fun _ ↦ ?_)
    refine (fills_attributeUse c hc).bind fun a c' h ↦ ?_
    refine (forward_eat _).bind_filled h fun _ c' h ↦ .ite (fun _ ↦ ?_) fun _ ↦ leads_pure h.toLaid
    exact (lays_attributesWithin budget).bind_filled h fun rest c' h ↦ leads_pure h.toLaid

theorem fills_attributeList : attributeList.Fills cs fun l ↦ [l.outline] := by
  refine fun c hc ↦ (leads_expect hc (by decide)).bind fun opened c₁ hopened ↦ ?_
  obtain ⟨rfl, -, h⟩ := hopened
  refine forward_attributeTarget.bind_filled h fun target c₂ h ↦ leads_look_bind ?_
  refine (lays_attributesWithin _).bind_filled h fun attributes c₃ h ↦ ?_
  refine (leads_expect h.ahead (by decide)).bind fun closed c₄ hclosed ↦ leads_pure ?_
  obtain ⟨rfl, hprevious, hread⟩ := hclosed
  rw [← hprevious]
  exact (h.forward hread.reads).node_row

theorem lays_attributeLists : attributeLists.Lays cs (List.map AttributeList.outline) := by
  have hlists (budget : Nat) :
      (manyAt .lbracket attributeList budget).Lays cs (List.map AttributeList.outline) :=
    (lays_manyAt fills_attributeList.lays budget).congr fun ls ↦ List.map_eq_flatMap.symm
  exact fun c hc ↦ Gives.of_eq (hlists (c.rest.length + 1) c hc) rfl

/-! ### Variables -/

/-- A step through an initializer, behind which the last span is that of the last token read. -/
theorem leads_initializerWithin_succ {budget : Nat} {last : Span} {post : Span → Cursor → Prop}
    (hc : c.Tiles cs) (hends : endsInitializer c.kind = false)
    (h : ∀ c', Filled cs c [] c' → (initializerWithin budget c'.previous).Leads c' post) :
    (initializerWithin (budget + 1) last).Leads c post := by
  have hkind : c.kind ≠ .eof := fun heof ↦ by rw [heof] at hends; cases hends
  refine leads_look_bind ?_
  rw [hends, if_neg Bool.false_ne_true]
  refine .ite (fun hopener ↦ ?_) fun _ ↦ leads_look_bind (.ite (fun hgeneric ↦ ?_) fun _ ↦ ?_)
  · refine (leads_group hc hopener).bind fun stop c' hgroup ↦ ?_
    obtain ⟨rfl, -, hread⟩ := hgroup
    exact h c' hread
  · have hahead := (Bool.and_eq_true_iff.mp hgeneric).2
    have hstop : (typeArgs c).cursor.previous = (Cursor.pastTypeArgs 0 c.previous c.rest).1 :=
      Cursor.previous_pastTypeArgs c.previous hahead
    have htypeArgs : typeArgs.Leads c fun s c' ↦ s = c'.previous ∧ Filled cs c [] c' := by
      obtain ⟨read, hread, -⟩ := forward_typeArgs c
      refine ⟨read, hread, fun s hs ↦ ⟨?_, hc.laid.forward ⟨read, hread⟩, length_typeArgs_lt hkind⟩⟩
      obtain rfl := Except.ok.inj hs
      exact hstop.symm
    refine htypeArgs.bind fun stop c' hread ↦ ?_
    obtain ⟨rfl, hread⟩ := hread
    exact h c' hread
  · refine (leads_advance hc hkind).bind fun t c' ht ↦ ?_
    obtain ⟨rfl, hprevious, hread⟩ := ht
    rw [← hprevious]
    exact h c' hread

theorem leads_initializerWithin : ∀ (budget : Nat) {c₀ c : Cursor}, Filled cs c₀ [] c →
    (initializerWithin budget c.previous).Leads c fun s c' ↦ s = c'.previous ∧ Filled cs c₀ [] c'
  | 0, _, _, h => leads_pure ⟨rfl, h⟩
  | budget + 1, c₀, c, h => by
    cases hends : endsInitializer c.kind with
    | true =>
      refine leads_look_bind ?_
      rw [hends, if_pos rfl]
      exact leads_pure ⟨rfl, h⟩
    | false =>
      exact leads_initializerWithin_succ h.ahead hends fun c' hread ↦
        leads_initializerWithin budget (h.forward hread.reads)

theorem fills_initializer : initializer.Fills cs fun s ↦ [.leaf s] := by
  intro c hc
  cases hends : endsInitializer c.kind with
  | true => exact leads_of_error (if_pos hends)
  | false =>
    have hwithin : (c.current.span.merge <$> initializerWithin (c.rest.length + 1) c.current.span :
        Parser Span).Leads c fun s c' ↦ Filled cs c [.leaf s] c' := by
      refine (leads_initializerWithin_succ hc hends fun c' hread ↦
        leads_initializerWithin c.rest.length hread).bind fun s c' hs ↦ leads_pure ?_
      obtain ⟨rfl, hread⟩ := hs
      exact hread.node fun _ hrow ↦ absurd hrow List.not_mem_nil
    exact Gives.of_eq hwithin (if_neg (by rw [hends]; decide))

theorem fills_declarator : declarator.Fills cs Declarator.outlines := by
  refine fun c hc ↦ (fills_identifier c hc).bind fun named c' h ↦ ?_
  refine (forward_eat _).bind_filled h fun _ c' h ↦ .ite (fun _ ↦ ?_) fun _ ↦ ?_
  · have hinit : (some <$> initializer : Parser (Option Span)).Lays cs
        fun init ↦ init.toList.map .leaf := fun c hc ↦
      (fills_initializer c hc).bind fun s c' h ↦ leads_pure h.toLaid
    exact hinit.bind_filled h fun init c' h ↦ leads_pure h
  · exact leads_pure_bind (leads_pure h)

theorem lays_declarators : declarators.Lays cs (List.flatMap Declarator.outlines) :=
  fun _ hc ↦ leads_look_bind <|
    (lays_commaSeparated fills_declarator.lays _).bind_laid hc.laid fun _ _ h ↦
      (forward_expect _).bind_laid h fun _ _ h ↦ leads_pure h

end Parser
end Companion
