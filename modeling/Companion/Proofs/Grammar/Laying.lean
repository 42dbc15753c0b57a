import Companion.Proofs.Grammar.Totality
import Companion.Proofs.Syntax.Outline
import Companion.Proofs.Token.Tiling

/-!
Parsers that lay outlines. The tokens ahead of a cursor tile a text if they stand one behind the
other, each between two of its characters, and behind what was read last (`Cursor.Tiles`); reading
keeps it so (`Cursor.Tiles.of_reads`). Outlines have been laid between two cursors if they make up a
row between the places of the two (`Cursor.Laid`), and what is laid in turn makes up one row
(`Cursor.Laid.trans`); around what fills the way between two cursors a node can be put
(`Cursor.Filled.node`). A parser that lays what it gives (`Parser.Lays`) is put together from
parsers that do so; so are lists with commas between and runs of things of one kind.
-/

set_option autoImplicit false
set_option relaxedAutoImplicit false

namespace Companion

open Outline (Row)

/-! ### Tokens of a text -/

namespace Cursor

/-- The tokens ahead fit the text and stand one behind the other, all behind the last one that was
read. -/
structure Tiles (cs : List Char) (c : Cursor) : Prop where
  ended : c.Ended
  fits : ∀ t ∈ c.rest, t.span.Fits cs
  ordered : c.rest.Pairwise fun t u ↦ t.span.stop ≤ u.span.start
  previous_fits : c.previous.Fits cs
  behind : ∀ t ∈ c.rest, c.previous.stop ≤ t.span.start

variable {cs : List Char} {c c' c'' : Cursor} {read : List Token}

theorem Tiles.of_reads (h : c.Tiles cs) (hread : c.Reads read c') : c'.Tiles cs := by
  induction hread with
  | nothing => exact h
  | @token previous t ts _ _ hkind _ ih =>
    obtain ⟨hbehind, hordered⟩ := List.pairwise_cons.mp h.ordered
    exact ih ⟨h.ended.of_reads (.token hkind (.nothing _)),
      fun u hu ↦ h.fits u (List.mem_cons_of_mem t hu), hordered, h.fits t List.mem_cons_self,
      hbehind⟩

theorem Tiles.current_mem (h : c.Tiles cs) : c.current ∈ c.rest := by
  obtain ⟨previous, rest⟩ := c
  cases rest with
  | nil => exact absurd h.ended.length_pos (Nat.lt_irrefl _)
  | cons t ts => exact List.mem_cons_self

theorem Tiles.previous_le (h : c.Tiles cs) : c.previous.stop ≤ c.current.span.start :=
  h.behind _ h.current_mem

/-- Reading goes on behind what was read. -/
theorem Tiles.start_le (h : c.Tiles cs) (hread : c.Reads read c') :
    c.current.span.start ≤ c'.current.span.start := by
  induction hread with
  | nothing => exact Nat.le_refl _
  | @token previous t ts _ c' hkind _ ih =>
    have hnext : Tiles cs ⟨t.span, ts⟩ := h.of_reads (.token hkind (.nothing _))
    have hle := (h.fits t List.mem_cons_self).start_le_stop
    exact Nat.le_trans hle (Nat.le_trans hnext.previous_le (ih hnext))

/-- The last token that was read is not in front of the one before. -/
theorem Tiles.previous_stop_le (h : c.Tiles cs) (hread : c.Reads read c') :
    c.previous.stop ≤ c'.previous.stop := by
  induction hread with
  | nothing => exact Nat.le_refl _
  | @token previous t ts _ c' hkind _ ih =>
    have hbehind : previous.stop ≤ t.span.start := h.behind t List.mem_cons_self
    have hle := (h.fits t List.mem_cons_self).start_le_stop
    exact Nat.le_trans hbehind (Nat.le_trans hle (ih (h.of_reads (.token hkind (.nothing _)))))

/-- If something was read, then the token at which reading started, and the last one behind it. -/
theorem Tiles.first_le (h : c.Tiles cs) (hread : c.Reads read c')
    (hmoved : c'.rest.length < c.rest.length) :
    c.current.span.start ≤ c'.previous.start ∧ c.current.span.stop ≤ c'.previous.stop := by
  cases hread with
  | nothing => exact absurd hmoved (Nat.lt_irrefl _)
  | @token previous t ts read _ hkind hrest =>
    have hnext : Tiles cs ⟨t.span, ts⟩ := h.of_reads (.token hkind (.nothing _))
    refine ⟨?_, hnext.previous_stop_le hrest⟩
    show t.span.start ≤ _
    by_cases hread : read = []
    · subst hread
      cases hrest
      exact Nat.le_refl _
    · obtain ⟨u, hu, heq⟩ := List.mem_map.mp (hrest.previous_mem hread)
      have hmem : u ∈ ts := by
        rw [show ts = read ++ c'.rest from hrest.rest_eq]
        exact List.mem_append_left _ hu
      rw [← heq]
      exact Nat.le_trans (h.fits t List.mem_cons_self).start_le_stop
        ((List.pairwise_cons.mp h.ordered).1 u hmem)

/-- What closes a group is among the tokens. -/
theorem mem_of_closing {depth : Nat} {ts rest : List Token} {t : Token}
    (h : closing depth ts = some (t, rest)) : t ∈ ts := by
  fun_induction closing depth ts with
  | case1 => cases h
  | case2 => cases h
  | case3 _ u us _ _ ih => exact List.mem_cons_of_mem u (ih h)
  | case4 u us =>
    obtain ⟨rfl, rfl⟩ := Prod.mk.inj (Option.some.inj h)
    exact List.mem_cons_self
  | case5 u us _ _ _ _ ih => exact List.mem_cons_of_mem u (ih h)
  | case6 _ u us _ _ _ ih => exact List.mem_cons_of_mem u (ih h)

/-- Generic arguments that have been looked for end with the token that was read last. -/
theorem previous_pastTypeArgs {depth : Nat} {ts : List Token} (previous : Span)
    (h : typeArgsAhead depth ts = true) :
    (pastTypeArgs depth previous ts).2.previous = (pastTypeArgs depth previous ts).1 := by
  induction ts generalizing depth previous with
  | nil => cases h
  | cons t ts ih =>
    rw [typeArgsAhead] at h
    by_cases heof : t.kind = .eof
    · rw [heof] at h
      cases h
    · rw [pastTypeArgs, if_neg heof]
      by_cases hlt : t.kind = .lt
      · rw [if_pos hlt] at h ⊢
        exact ih _ h
      · rw [if_neg hlt] at h ⊢
        by_cases hgt : t.kind = .gt
        · rw [if_pos hgt] at h ⊢
          by_cases hdepth : depth ≤ 1
          · rw [if_pos hdepth]
          · rw [if_neg hdepth] at h ⊢
            exact ih _ h
        · rw [if_neg hgt] at h ⊢
          exact ih _ (Bool.and_eq_true_iff.mp h).2

/-! ### What has been laid -/

/-- From one cursor to another outlines have been laid one behind the other. -/
structure Laid (cs : List Char) (c : Cursor) (os : List Outline) (c' : Cursor) : Prop where
  tiles : c.Tiles cs
  reads : ∃ read, c.Reads read c'
  row : Row cs c.current.span.start c'.previous.stop os

/-- Something has been read on the way. -/
structure Filled (cs : List Char) (c : Cursor) (os : List Outline) (c' : Cursor) : Prop
    extends Laid cs c os c' where
  moved : c'.rest.length < c.rest.length

variable {os os' : List Outline}

theorem Tiles.laid (h : c.Tiles cs) : Laid cs c [] c := ⟨h, ⟨[], .nothing c⟩, .nil⟩

theorem Laid.ahead (h : Laid cs c os c') : c'.Tiles cs := by
  obtain ⟨read, hread⟩ := h.reads
  exact h.tiles.of_reads hread

theorem Laid.forward (h : Laid cs c os c') (hread : ∃ read, c'.Reads read c'') :
    Laid cs c os c'' := by
  obtain ⟨read, hbefore⟩ := h.reads
  obtain ⟨more, hmore⟩ := hread
  exact ⟨h.tiles, ⟨_, hbefore.trans hmore⟩,
    h.row.mono (Nat.le_refl _) (h.ahead.previous_stop_le hmore)⟩

theorem Laid.trans (h : Laid cs c os c') (h' : Laid cs c' os' c'') :
    Laid cs c (os ++ os') c'' := by
  obtain ⟨read, hread⟩ := h.reads
  obtain ⟨more, hmore⟩ := h'.reads
  exact ⟨h.tiles, ⟨_, hread.trans hmore⟩, h.row.append h'.row h'.tiles.previous_le
    (h.tiles.start_le hread) (h'.tiles.previous_stop_le hmore)⟩

/-- What has been laid, forgotten. -/
theorem Laid.nothing (h : Laid cs c os c') : Laid cs c [] c' := h.tiles.laid.forward h.reads

theorem Filled.forward (h : Filled cs c os c') (hread : ∃ read, c'.Reads read c'') :
    Filled cs c os c'' := by
  obtain ⟨more, hmore⟩ := hread
  have hlength := hmore.length_eq
  have hmoved := h.moved
  exact ⟨h.toLaid.forward ⟨more, hmore⟩, by omega⟩

theorem Filled.trans (h : Filled cs c os c') (h' : Laid cs c' os' c'') :
    Filled cs c (os ++ os') c'' :=
  ⟨h.toLaid.trans h', (h.forward h'.reads).moved⟩

theorem Laid.trans_filled (h : Laid cs c os c') (h' : Filled cs c' os' c'') :
    Filled cs c (os ++ os') c'' := by
  obtain ⟨read, hread⟩ := h.reads
  have hlength := hread.length_eq
  have hmoved := h'.moved
  exact ⟨h.trans h'.toLaid, by omega⟩

/-- The token at the cursor. -/
theorem Tiles.filled_next (h : c.Tiles cs) (hkind : c.kind ≠ .eof) :
    Filled cs c [] c.next ∧ c.next.previous = c.current.span := by
  have hread := reads_next_of_kind hkind
  refine ⟨⟨h.laid.forward ⟨_, hread⟩, length_next hkind⟩, ?_⟩
  simpa using hread.previous_mem (List.cons_ne_nil _ _)

/-- A node around what has been laid: from the token at which that began to the last one read. -/
theorem Filled.node (h : Filled cs c os c') {rows : List (List Outline)}
    (hrows : ∀ row ∈ rows, Laid cs c row c') :
    Filled cs c [.node (c.current.span.merge c'.previous) rows] c' := by
  obtain ⟨read, hread⟩ := h.reads
  obtain ⟨hstart, hstop⟩ := h.tiles.first_le hread h.moved
  have hfits := (h.tiles.fits _ h.tiles.current_mem).merge h.ahead.previous_fits
  have hspan : c.current.span.merge c'.previous = ⟨c.current.span.start, c'.previous.stop⟩ := by
    rw [Span.merge, Nat.min_eq_left hstart, Nat.max_eq_right hstop]
  rw [hspan] at hfits ⊢
  refine ⟨⟨h.tiles, h.reads, .singleton ?_ (Nat.le_refl _) (Nat.le_refl _)⟩, h.moved⟩
  exact Outline.sound_node hfits fun row hrow ↦ (hrows row hrow).row

theorem Filled.node_row (h : Filled cs c os c') :
    Filled cs c [.node (c.current.span.merge c'.previous) [os]] c' :=
  h.node fun _ hrow ↦ List.mem_singleton.mp hrow ▸ h.toLaid

/-- A node for the one token that was read. -/
theorem Filled.token (h : Filled cs c [] c') (hprevious : c'.previous = c.current.span)
    {rows : List (List Outline)} (hrows : ∀ row ∈ rows, row = []) :
    Filled cs c [.node c.current.span rows] c' := by
  have hnode : Filled cs c [.node (c.current.span.merge c'.previous) rows] c' :=
    h.node fun row hrow ↦ hrows row hrow ▸ h.toLaid
  rwa [hprevious, Span.merge, Nat.min_self, Nat.max_self] at hnode

/-- A node around what has been laid, from the first part to the last token read. -/
theorem Filled.extend {o : Outline} (h : Filled cs c (o :: os) c') :
    Filled cs c [.node (o.span.merge c'.previous) [o :: os]] c' := by
  obtain ⟨read, hread⟩ := h.reads
  have hstart := (h.tiles.first_le hread h.moved).1
  obtain ⟨hlower, hupper⟩ := h.row.within o List.mem_cons_self
  have hfits := (h.row.sound o List.mem_cons_self).fits
  have hrow : Row cs (o.span.merge c'.previous).start (o.span.merge c'.previous).stop
      (o :: os) := by
    refine ⟨h.row.sound, fun x hx ↦ ⟨?_, ?_⟩, h.row.ordered⟩
    · refine Nat.le_trans (Nat.min_le_left _ _) ?_
      rcases List.mem_cons.mp hx with rfl | hx
      · exact Nat.le_refl _
      · exact Nat.le_trans hfits.start_le_stop ((List.pairwise_cons.mp h.row.ordered).1 x hx)
    · exact Nat.le_trans (h.row.within x hx).2 (Nat.le_max_right _ _)
  refine ⟨⟨h.tiles, h.reads, .singleton ?_ (Nat.le_min.mpr ⟨hlower, hstart⟩)
    (Nat.max_le.mpr ⟨hupper, Nat.le_refl _⟩)⟩, h.moved⟩
  exact Outline.sound_node (hfits.merge h.ahead.previous_fits) fun _ h ↦
    List.mem_singleton.mp h ▸ hrow

/-- Of what has been laid only the span. -/
theorem Filled.leaf {o : Outline} (h : Filled cs c [o] c') : Filled cs c [.leaf o.span] c' := by
  obtain ⟨hlower, hupper⟩ := h.row.within o List.mem_cons_self
  exact ⟨⟨h.tiles, h.reads, .singleton
    (Outline.sound_leaf (h.row.sound o List.mem_cons_self).fits) hlower hupper⟩, h.moved⟩

end Cursor

namespace Parser

open Cursor (Tiles Laid Filled)

variable {α β : Type} {cs : List Char} {c c₀ : Cursor}

/-! ### Parsers that lay outlines -/

/-- From a cursor a parser reads on, and where it gives a value something holds of the value and of
the cursor behind it. -/
def Leads (p : Parser α) (c : Cursor) (post : α → Cursor → Prop) : Prop :=
  p.Gives c fun a _ c' ↦ post a c'

/-- Wherever it starts, a parser lays the outlines of the value it gives. -/
def Lays (cs : List Char) (outlines : α → List Outline) (p : Parser α) : Prop :=
  ∀ c, c.Tiles cs → p.Leads c fun a c' ↦ Laid cs c (outlines a) c'

/-- It does so and reads something. -/
def Fills (cs : List Char) (outlines : α → List Outline) (p : Parser α) : Prop :=
  ∀ c, c.Tiles cs → p.Leads c fun a c' ↦ Filled cs c (outlines a) c'

section Steps

variable {post : α → Cursor → Prop} {outlines : α → List Outline} {os : List Outline}

theorem Leads.mono {p : Parser α} {post' : α → Cursor → Prop} (h : p.Leads c post)
    (himp : ∀ a c', (∃ read, c.Reads read c') → post a c' → post' a c') : p.Leads c post' :=
  Gives.mono h fun a read c' hread ha ↦ himp a c' ⟨read, hread⟩ ha

theorem Leads.bind {mid : β → Cursor → Prop} {p : Parser β} {f : β → Parser α}
    (hp : p.Leads c mid) (hf : ∀ b c', mid b c' → (f b).Leads c' post) : (p >>= f).Leads c post :=
  gives_bind (Gives.mono hp fun b _ c' _ hb ↦ hf b c' hb)

theorem Forward.leads {p : Parser α} (hp : p.Forward) :
    p.Leads c fun _ c' ↦ ∃ read, c.Reads read c' :=
  hp.gives fun _ read _ hread ↦ ⟨read, hread⟩

theorem leads_pure {a : α} (h : post a c) : (pure a : Parser α).Leads c post := gives_pure h

theorem leads_pure_bind {b : β} {f : β → Parser α} (h : (f b).Leads c post) :
    (pure b >>= f).Leads c post := gives_bind (gives_pure h)

theorem leads_look_bind {f : Cursor → β} {g : β → Parser α} (h : (g (f c)).Leads c post) :
    (look f >>= g).Leads c post := gives_bind (gives_look h)

theorem Leads.ite {b : Prop} [Decidable b] {p q : Parser α} (hp : b → p.Leads c post)
    (hq : ¬b → q.Leads c post) : (if b then p else q).Leads c post := by
  split
  · exact hp ‹_›
  · exact hq ‹_›

theorem Fills.lays {p : Parser α} (hp : p.Fills cs outlines) : p.Lays cs outlines :=
  fun c hc ↦ (hp c hc).mono fun _ _ _ h ↦ h.toLaid

theorem Lays.bind_laid {p : Parser β} {outlines : β → List Outline} {f : β → Parser α}
    (hp : p.Lays cs outlines) (h : Laid cs c₀ os c)
    (hf : ∀ b c', Laid cs c₀ (os ++ outlines b) c' → (f b).Leads c' post) :
    (p >>= f).Leads c post :=
  (hp c h.ahead).bind fun b c' hb ↦ hf b c' (h.trans hb)

theorem Forward.bind_laid {p : Parser β} {f : β → Parser α} (hp : p.Forward)
    (h : Laid cs c₀ os c) (hf : ∀ b c', Laid cs c₀ os c' → (f b).Leads c' post) :
    (p >>= f).Leads c post :=
  hp.leads.bind fun b c' hread ↦ hf b c' (h.forward hread)

/-- Something more, behind what has been laid already. -/
theorem Lays.bind_filled {p : Parser β} {outlines : β → List Outline} {f : β → Parser α}
    (hp : p.Lays cs outlines) (h : Filled cs c₀ os c)
    (hf : ∀ b c', Filled cs c₀ (os ++ outlines b) c' → (f b).Leads c' post) :
    (p >>= f).Leads c post :=
  (hp c h.ahead).bind fun b c' hb ↦ hf b c' (h.trans hb)

theorem Fills.bind_laid {p : Parser β} {outlines : β → List Outline} {f : β → Parser α}
    (hp : p.Fills cs outlines) (h : Laid cs c₀ os c)
    (hf : ∀ b c', Filled cs c₀ (os ++ outlines b) c' → (f b).Leads c' post) :
    (p >>= f).Leads c post :=
  (hp c h.ahead).bind fun b c' hb ↦ hf b c' (h.trans_filled hb)

/-- What is only passed, behind what has been laid already. -/
theorem Forward.bind_filled {p : Parser β} {f : β → Parser α} (hp : p.Forward)
    (h : Filled cs c₀ os c) (hf : ∀ b c', Filled cs c₀ os c' → (f b).Leads c' post) :
    (p >>= f).Leads c post :=
  hp.leads.bind fun b c' hread ↦ hf b c' (h.forward hread)

theorem Lays.congr {outlines' : α → List Outline} {p : Parser α} (hp : p.Lays cs outlines)
    (h : ∀ a, outlines a = outlines' a) : p.Lays cs outlines' :=
  fun c hc ↦ (hp c hc).mono fun a _ _ ha ↦ h a ▸ ha

end Steps

/-! ### Single tokens -/

/-- A parser that reads the token at the cursor and nothing else. -/
theorem leads_next {p : Parser α} {a : α} (hc : c.Tiles cs) (hkind : c.kind ≠ .eof)
    (hp : p c = ⟨.ok a, c.next, []⟩) :
    p.Leads c fun b c' ↦ b = a ∧ c'.previous = c.current.span ∧ Filled cs c [] c' := by
  refine Gives.of_eq (q := fun _ ↦ ⟨.ok a, c.next, []⟩) ?_ hp
  refine ⟨[c.current], Cursor.reads_next_of_kind hkind, fun b hb ↦ ?_⟩
  obtain rfl := Except.ok.inj hb
  obtain ⟨hfilled, hprevious⟩ := hc.filled_next hkind
  exact ⟨rfl, hprevious, hfilled⟩

/-- A parser that fails where it is. -/
theorem leads_of_error {p : Parser α} {d : Diagnostic} {post : α → Cursor → Prop}
    (hp : p c = ⟨.error d, c, []⟩) : p.Leads c post :=
  Gives.of_eq (q := fun c ↦ ⟨.error d, c, []⟩) ⟨[], .nothing c, fun _ h ↦ by cases h⟩ hp

theorem leads_advance (hc : c.Tiles cs) (hkind : c.kind ≠ .eof) :
    advance.Leads c fun t c' ↦ t = c.current ∧ c'.previous = c.current.span ∧ Filled cs c [] c' :=
  leads_next hc hkind rfl

theorem leads_expect {k : Token.Kind} (hc : c.Tiles cs) (hk : k ≠ .eof) :
    (expect k).Leads c fun t c' ↦ t = c.current ∧ c'.previous = c.current.span ∧
      Filled cs c [] c' := by
  by_cases hkind : c.kind = k
  · exact leads_next hc (hkind ▸ hk) (if_pos hkind)
  · exact leads_of_error (if_neg hkind)

theorem leads_identifier (hc : c.Tiles cs) :
    identifier.Leads c fun named c' ↦ named.2 = c.current.span ∧
      c'.previous = c.current.span ∧ Filled cs c [] c' := by
  by_cases hkind : c.kind = .ident
  · refine (leads_next hc (by rw [hkind]; decide) (if_pos hkind)).mono fun named c' _ h ↦ ?_
    exact ⟨h.1 ▸ rfl, h.2⟩
  · exact leads_of_error (if_neg hkind)

/-- An identifier is a leaf. -/
theorem fills_identifier : identifier.Fills cs fun named ↦ [.leaf named.2] := by
  refine fun c hc ↦ (leads_identifier hc).mono fun named c' _ h ↦ ?_
  obtain ⟨hplace, hprevious, hfilled⟩ := h
  show Filled cs c [.leaf named.2] c'
  rw [hplace]
  exact hfilled.token hprevious fun _ h ↦ absurd h List.not_mem_nil

/-! ### Lists of things -/

theorem lays_commaSeparated {outlines : α → List Outline} {item : Parser α}
    (hitem : item.Lays cs outlines) :
    ∀ budget, (commaSeparated item budget).Lays cs fun as ↦ as.flatMap outlines
  | 0 => fun c hc ↦ (hitem c hc).bind fun a c' h ↦ leads_pure (by simpa using h)
  | budget + 1 => by
    refine fun c hc ↦ (hitem c hc).bind fun a c' h ↦ (forward_eat _).bind_laid h fun _ c' h ↦ ?_
    refine .ite (fun _ ↦ ?_) fun _ ↦ leads_pure (by simpa using h)
    exact (lays_commaSeparated hitem budget).bind_laid h fun rest c' h ↦
      leads_pure (by simpa using h)

theorem lays_manyAt {outlines : α → List Outline} {k : Token.Kind} {item : Parser α}
    (hitem : item.Lays cs outlines) :
    ∀ budget, (manyAt k item budget).Lays cs fun as ↦ as.flatMap outlines
  | 0 => fun c hc ↦ leads_pure hc.laid
  | budget + 1 => by
    refine fun c hc ↦ leads_look_bind (.ite (fun _ ↦ ?_) fun _ ↦ leads_pure hc.laid)
    refine (hitem c hc).bind fun a c' h ↦ ?_
    exact (lays_manyAt hitem budget).bind_laid h fun rest c' h ↦ leads_pure (by simpa using h)

end Parser
end Companion
