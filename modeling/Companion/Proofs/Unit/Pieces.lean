import Companion.Proofs.Token.Spelling
import Companion.Unit.Layout

/-!
Generated text in pieces. A line is made of pieces that spell their tokens one by one, and a layout
of whole lines spells what its lines spell: indentation, empty lines and braces never join pieces
of different lines. So the tokens of a unit are those of its pieces, in order.
-/

set_option autoImplicit false
set_option relaxedAutoImplicit false

namespace Companion

open Token Token.Lexeme

/-- A piece of generated text. -/
inductive Piece where
  /-- Text that is the same in every unit, or is taken over from elsewhere. -/
  | text (t : String)
  /-- A name that a declaration gives to something. -/
  | name (n : String)
  deriving DecidableEq, Repr

namespace Piece

def string : Piece → String
  | text t => t
  | name n => n

/-- The tokens of a piece: a name is one token. -/
def tokens : Piece → List Bare
  | text t => spell t.toList
  | name n => [(nameKind n.toList, n)]

def chars (ps : List Piece) : List Char := ps.flatMap (·.string.toList)

def tokensOf (ps : List Piece) : List Bare := ps.flatMap tokens

/-- The pieces of a block. -/
def block (header body : List Piece) : List Piece :=
  header ++ .text "\x7b" :: (body ++ [.text "\x7d"])

@[simp] theorem chars_nil : chars [] = [] := rfl

@[simp] theorem chars_cons (p : Piece) (ps : List Piece) :
    chars (p :: ps) = p.string.toList ++ chars ps := rfl

@[simp] theorem chars_append (ps qs : List Piece) : chars (ps ++ qs) = chars ps ++ chars qs :=
  List.flatMap_append

@[simp] theorem tokensOf_nil : tokensOf [] = [] := rfl

@[simp] theorem tokensOf_cons (p : Piece) (ps : List Piece) :
    tokensOf (p :: ps) = p.tokens ++ tokensOf ps := rfl

@[simp] theorem tokensOf_append (ps qs : List Piece) :
    tokensOf (ps ++ qs) = tokensOf ps ++ tokensOf qs := List.flatMap_append

end Piece

open Piece

/-- In front of some text, pieces spell their tokens one by one. -/
def Apart (r : List Char) (ps : List Piece) : Prop :=
  spell (chars ps ++ r) = tokensOf ps ++ spell r

namespace Apart

variable {r : List Char} {ps qs : List Piece} {t n : String}

theorem nil : Apart r [] := rfl

theorem append (hps : Apart (chars qs ++ r) ps) (hqs : Apart r qs) : Apart r (ps ++ qs) := by
  rw [Apart, chars_append, tokensOf_append, List.append_assoc, hps, hqs, List.append_assoc]

theorem text (ht : spell (t.toList ++ (chars ps ++ r)) = spell t.toList ++ spell (chars ps ++ r))
    (hps : Apart r ps) : Apart r (.text t :: ps) := by
  rw [Apart, chars_cons, tokensOf_cons, List.append_assoc]
  exact ht.trans (by rw [hps, List.append_assoc]; rfl)

/-- Text that ends in a separator never joins what comes behind it. -/
theorem fixed (ht : settles t.toList = true) (hps : Apart r ps) : Apart r (.text t :: ps) :=
  .text (settled_of_settles ht _) hps

theorem name (hn : isNameText n.toList = true) (hbreaks : breaks (chars ps ++ r) = true)
    (hps : Apart r ps) : Apart r (.name n :: ps) := by
  rw [Apart, chars_cons, tokensOf_cons, List.append_assoc]
  show spell (n.toList ++ (chars ps ++ r)) = [(nameKind n.toList, n)] ++ _ ++ _
  rw [spell_name hn hbreaks, hps, String.ofList_toList]
  rfl

end Apart

/-- Some text ends in something else than a line end. -/
def EndsVisibly (cs : List Char) : Prop := ∃ front c, cs = front ++ [c] ∧ c ≠ '\n'

/-- A text is a line of some pieces. -/
structure IsLine (t : String) (ps : List Piece) : Prop where
  chars : t.toList = chars ps
  apart : ∀ r, Apart ('\n' :: r) ps
  last : EndsVisibly t.toList

/-- A text that can stand on a line of its own: everything in it stops at the end of the line, and
it does not end the line itself. -/
structure IsLineText (t : String) : Prop where
  stops : ∀ l ∈ visible t.toList, l.StopsAt '\n'
  last : EndsVisibly t.toList

theorem newline_mem_separators : '\n' ∈ separators := by decide

theorem IsLineText.isLine {t : String} (h : IsLineText t) : IsLine t [.text t] where
  chars := (List.append_nil _).symm
  apart r := .text (spell_append_separator newline_mem_separators h.stops r) .nil
  last := h.last

namespace Layout

/-- Whole lines have been written, which spell some tokens whatever comes behind them. -/
def Spells (l : Layout) (bs : List Bare) : Prop :=
  ∃ empties front, l.reversed = List.replicate empties '\n' ++ front ∧
    ¬ ['\n', '\n'] <+: front ∧ Settled front.reverse ∧ spell front.reverse = bs

/-- What `f` writes are lines of some pieces. -/
def Writes (f : Layout → Layout) (ps : List Piece) : Prop :=
  ∀ l bs, l.Spells bs → (f l).Spells (bs ++ tokensOf ps)

variable {f g : Layout → Layout} {ps qs : List Piece}

theorem spells_empty : empty.Spells [] := ⟨0, [], rfl, by decide, settled_nil, rfl⟩

theorem writes_id : Writes id [] := fun l bs h ↦ by simpa using h

theorem Writes.congr (h : Writes f ps) (hpieces : ps = qs) : Writes f qs := hpieces ▸ h

theorem Writes.comp (hg : Writes g qs) (hf : Writes f ps) :
    Writes (fun l ↦ g (f l)) (ps ++ qs) := by
  intro l bs h
  rw [tokensOf_append, ← List.append_assoc]
  exact hg _ _ (hf _ _ h)

theorem writes_foldl {α : Type} {f : Layout → α → Layout} {pieces : α → List Piece}
    {items : List α} (h : ∀ a ∈ items, Writes (fun l ↦ f l a) (pieces a)) :
    Writes (fun l ↦ items.foldl f l) (items.flatMap pieces) := by
  induction items with
  | nil => exact writes_id
  | cons a items ih =>
    exact (ih fun x hx ↦ h x (List.mem_cons_of_mem _ hx)).comp (h a List.mem_cons_self)

theorem settled_replicate {c : Char} (hc : c ∈ separators) (n : Nat) :
    Settled (List.replicate n c) := by
  induction n with
  | zero => exact settled_nil
  | succ n ih => exact (settled_separator hc).append ih

theorem spell_replicate {c : Char} (hc : Lexeme.isSkipped c = true) (n : Nat) :
    spell (List.replicate n c) = [] := by
  induction n with
  | zero => rfl
  | succ n ih => rw [List.replicate_succ, spell_cons_skipped hc, ih]

/-- Text has been written that spells some tokens, whatever comes behind it. -/
def Starts (l : Layout) (bs : List Bare) : Prop :=
  Settled l.reversed.reverse ∧ spell l.reversed.reverse = bs

theorem Spells.starts {l : Layout} {bs : List Bare} (h : l.Spells bs) : l.Starts bs := by
  obtain ⟨empties, front, hwritten, -, hsettled, rfl⟩ := h
  rw [Starts, hwritten, List.reverse_append, List.reverse_replicate]
  refine ⟨hsettled.append (settled_replicate newline_mem_separators empties), ?_⟩
  rw [hsettled, spell_replicate (by decide), List.append_nil]

namespace Starts

variable {l : Layout} {bs : List Bare} {t : String}

theorem reverse_line (l : Layout) (t : String) :
    ∃ spaces, (line t l).reversed.reverse =
      l.reversed.reverse ++ (List.replicate spaces ' ' ++ (t.toList ++ ['\n'])) :=
  ⟨if t = "" then 0 else l.depth * indentWidth, by simp [line]⟩

/-- What a line adds, if it is settled with its line end. -/
theorem line (h : l.Starts bs) {more : List Bare}
    (hmore : ∀ r, spell (t.toList ++ '\n' :: r) = more ++ spell r) :
    (line t l).Starts (bs ++ more) := by
  obtain ⟨hsettled, rfl⟩ := h
  obtain ⟨spaces, hreverse⟩ := reverse_line l t
  have halone : spell (t.toList ++ ['\n']) = more := by
    rw [hmore, show spell [] = [] from rfl, List.append_nil]
  have hend : Settled (t.toList ++ ['\n']) := by
    intro r
    rw [halone, List.append_assoc, List.singleton_append, hmore]
  have hspaces := settled_replicate (c := ' ') (by decide) spaces
  rw [Starts, hreverse]
  refine ⟨hsettled.append (hspaces.append hend), ?_⟩
  rw [hsettled, hspaces, halone, spell_replicate (by decide), List.nil_append]

/-- A text that is taken over may end the line itself. -/
theorem takenOver (h : l.Starts bs) (ht : ∀ x ∈ visible t.toList, x.StopsAt '\n') :
    (Layout.line t l).Starts (bs ++ spell t.toList) :=
  h.line fun r ↦ by
    rw [spell_append_separator newline_mem_separators ht, spell_cons_skipped (by decide)]

theorem takenOverLines {texts : List String} (h : l.Starts bs)
    (htexts : ∀ t ∈ texts, ∀ x ∈ visible t.toList, x.StopsAt '\n') :
    (Layout.lines texts l).Starts (bs ++ tokensOf (texts.map .text)) := by
  induction texts generalizing l bs with
  | nil =>
    rw [List.map_nil, tokensOf_nil, List.append_nil]
    exact h
  | cons t texts ih =>
    obtain ⟨ht, htexts⟩ := List.forall_mem_cons.mp htexts
    rw [List.map_cons, tokensOf_cons, ← List.append_assoc]
    exact ih (h.takenOver ht) htexts

theorem blank (h : l.Starts bs) : l.blank.Starts bs := by
  rw [Layout.blank]
  split
  · exact h
  · obtain ⟨hsettled, rfl⟩ := h
    have hend := settled_separator newline_mem_separators
    rw [Starts, List.reverse_cons]
    refine ⟨hsettled.append hend, ?_⟩
    rw [hsettled, spell_cons_skipped (by decide)]
    exact List.append_nil _

/-- A line of pieces does not end in an empty line. -/
theorem piecesLine (h : l.Starts bs) (ht : IsLine t ps) :
    (Layout.line t l).Spells (bs ++ tokensOf ps) := by
  have hline : (Layout.line t l).Starts (bs ++ tokensOf ps) :=
    h.line fun r ↦ by rw [ht.chars, ht.apart r, spell_cons_skipped (by decide)]
  obtain ⟨content, c, htext, hc⟩ := ht.last
  obtain ⟨more, hmore⟩ : ∃ more, (Layout.line t l).reversed = '\n' :: c :: more := by
    simp [Layout.line, htext]
  refine ⟨0, (Layout.line t l).reversed, rfl, ?_, hline⟩
  rw [hmore]
  simp only [List.cons_prefix_cons, true_and, not_and]
  exact fun hnewline ↦ absurd hnewline.symm hc

end Starts

theorem writes_line {t : String} (h : IsLine t ps) : Writes (line t) ps :=
  fun _ _ hl ↦ hl.starts.piecesLine h

theorem writes_lines {texts : List String} (h : ∀ t ∈ texts, IsLine t [.text t]) :
    Writes (lines texts) (texts.map .text) := by
  have hwrites : Writes (lines texts) (texts.flatMap fun t ↦ [.text t]) :=
    writes_foldl fun t ht ↦ writes_line (h t ht)
  rwa [← List.map_eq_flatMap] at hwrites

theorem writes_blank : Writes blank [] := by
  rintro l bs ⟨empties, front, hwritten, hfront, hsettled, rfl⟩
  rw [tokensOf_nil, List.append_nil, blank]
  split
  · exact ⟨empties, front, hwritten, hfront, hsettled, rfl⟩
  · exact ⟨empties + 1, front, by rw [hwritten]; rfl, hfront, hsettled, rfl⟩

theorem writes_deeper : Writes deeper [] := fun l bs h ↦ by simpa [Spells, deeper] using h

theorem writes_shallower : Writes shallower [] := fun l bs h ↦ by simpa [Spells, shallower] using h

theorem writes_indented {t : String} (h : IsLine t ps) : Writes (indented t) ps := by
  have hwrites := writes_shallower.comp ((writes_line h).comp writes_deeper)
  rwa [List.nil_append, List.append_nil] at hwrites

theorem isLine_brace {t : String} (h : t = "\x7b" ∨ t = "\x7d") : IsLine t [.text t] := by
  rcases h with rfl | rfl
  all_goals
    exact ⟨(List.append_nil _).symm, fun r ↦ .fixed (by decide) .nil, [], _, rfl, by decide⟩

/-- An empty line in front of a closing brace is taken back. -/
theorem writes_closed : Writes closed [.text "\x7d"] := by
  rintro l bs ⟨empties, front, hwritten, hfront, hsettled, hspell⟩
  refine writes_line (isLine_brace (.inr rfl)) _ bs ?_
  show (if l.endsBlank then { l with reversed := l.reversed.tail } else l).Spells bs
  split
  · rename_i hblank
    cases empties with
    | zero =>
      rw [List.replicate_zero, List.nil_append] at hwritten
      rw [endsBlank, hwritten] at hblank
      split at hblank
      · exact absurd (by simp) hfront
      · cases hblank
    | succ empties =>
      exact ⟨empties, front, by rw [hwritten]; rfl, hfront, hsettled, hspell⟩
  · exact ⟨empties, front, hwritten, hfront, hsettled, hspell⟩

theorem Starts.block {header : String} {body : Layout → Layout} {l : Layout} {bs : List Bare}
    (h : l.Starts bs) (hheader : IsLine header ps) (hbody : Writes body qs) :
    (block header body l).Spells (bs ++ tokensOf (Piece.block ps qs)) := by
  have hwrites := writes_closed.comp
    (hbody.comp (writes_deeper.comp (writes_line (isLine_brace (.inl rfl)))))
  have hspells := hwrites _ _ (h.piecesLine hheader)
  rwa [List.append_assoc, ← tokensOf_append, List.append_nil, List.append_assoc] at hspells

theorem writes_block {header : String} {body : Layout → Layout} (hheader : IsLine header ps)
    (hbody : Writes body qs) : Writes (block header body) (Piece.block ps qs) :=
  fun _ _ hl ↦ hl.starts.block hheader hbody

theorem trimEnd_replicate {front : List Char} (hfront : ¬ ['\n', '\n'] <+: front) (n : Nat) :
    ∃ m, trimEnd (List.replicate n '\n' ++ front) = List.replicate m '\n' ++ front := by
  have hcut : trimEnd front = front := by
    rw [trimEnd.eq_def]
    split
    · exact absurd (by simp) hfront
    · rfl
  induction n with
  | zero => exact ⟨0, hcut⟩
  | succ n ih =>
    rw [List.replicate_succ, List.cons_append, trimEnd.eq_def]
    split
    · rename_i rest heq
      rw [← (List.cons.inj heq).2]
      exact ih
    · exact ⟨n + 1, rfl⟩

/-- The text spells what has been written. -/
theorem spell_text {l : Layout} {bs : List Bare} (h : l.Spells bs) : spell l.text.toList = bs := by
  obtain ⟨empties, front, hwritten, hfront, hsettled, rfl⟩ := h
  obtain ⟨left, hleft⟩ := trimEnd_replicate hfront empties
  have hlines (n : Nat) : spell (List.replicate n '\n' ++ front).reverse = spell front.reverse := by
    rw [List.reverse_append, List.reverse_replicate, hsettled, spell_replicate (by decide),
      List.append_nil]
  rw [text, hwritten, hleft]
  split
  · rename_i rest heq
    rw [← heq, String.toList_ofList, hlines]
  · rw [String.toList_ofList]
    exact hlines (left + 1)

end Layout
end Companion
