import Companion.Proofs.Grammar.Placeless
import Companion.Proofs.Grammar.SpaceNames
import Companion.Proofs.Grammar.WrittenTypes

/-!
The text of a type that was read. It is read back to the type, whatever aliases, brackets and empty
type arguments were in the source, if all names that were read are read again as they are printed,
and no two question marks stand side by side.
-/

set_option autoImplicit false
set_option relaxedAutoImplicit false

namespace Companion

open Token

namespace TypeRef

mutual

/-- The canonical text has a comma and a blank between type arguments. -/
theorem textWith_eq_render : ∀ t : TypeRef, t.textWith ", " = t.render
  | .predefined _ _ => rfl
  | .named _ segs _ => by rw [textWith, render, segmentTexts_eq_render segs]
  | .array e _ _ => by rw [textWith, render, textWith_eq_render e]
  | .nullable i _ => by rw [textWith, render, textWith_eq_render i]
  | .tuple es _ => by rw [textWith, render, textEach_eq_render es]

theorem textEach_eq_render : ∀ ts : List TypeRef, textEach ", " ts = renderAll ts
  | [] => rfl
  | t :: ts => by rw [textEach, renderAll, textWith_eq_render t, textEach_eq_render ts]

theorem textOfSegment_eq_render : ∀ s : Segment, textOfSegment ", " s = renderSegment s
  | .mk _ [] _ => rfl
  | .mk _ (a :: as) _ => by
    rw [textOfSegment, renderSegment, textWith_eq_render a, textEach_eq_render as]

theorem segmentTexts_eq_render : ∀ ss : List Segment, segmentTexts ", " ss = renderSegments ss
  | [] => rfl
  | s :: ss => by
    rw [segmentTexts, renderSegments, textOfSegment_eq_render s, segmentTexts_eq_render ss]

end

def isNullable : TypeRef → Bool
  | nullable _ _ => true
  | _ => false

mutual

/-- Whether no two question marks stand side by side in a reference. -/
def singleMarks : TypeRef → Bool
  | predefined _ _ => true
  | named _ segs _ => segmentsSingleMarks segs
  | array e _ _ => singleMarks e
  | nullable i _ => !isNullable i && singleMarks i
  | tuple es _ => allSingleMarks es

def allSingleMarks : List TypeRef → Bool
  | [] => true
  | t :: ts => singleMarks t && allSingleMarks ts

def segmentSingleMarks : Segment → Bool
  | .mk _ args _ => allSingleMarks args

def segmentsSingleMarks : List Segment → Bool
  | [] => true
  | s :: ss => segmentSingleMarks s && segmentsSingleMarks ss

end

end TypeRef

/-! ### Printable phrases -/

namespace Phrase

/-- Whether no two question marks stand side by side in a phrase. -/
def singleMarks : Phrase → Bool
  | type t => t.singleMarks
  | list _ ts => TypeRef.allSingleMarks ts
  | segment s => TypeRef.segmentSingleMarks s
  | segments ss => TypeRef.segmentsSingleMarks ss

/-- A segment that is read back from its text. -/
def IsPrintable (s : Segment) : Prop := TypeRef.IsWord s.ident ∧ ∀ a ∈ s.args, a.Printable

/-- A phrase that is read back from its text and has no escaped names in it. -/
def Printable : Phrase → Prop
  | type t => t.Printable ∧ t.renamed unescape = t.renamed id
  | list _ ts => ts ≠ [] ∧ (∀ t ∈ ts, t.Printable) ∧
      TypeRef.renamedAll unescape ts = TypeRef.renamedAll id ts
  | segment s => IsPrintable s ∧ TypeRef.renamedSegment unescape s = TypeRef.renamedSegment id s
  | segments ss => ss ≠ [] ∧ (∀ s ∈ ss, IsPrintable s) ∧
      TypeRef.renamedSegments unescape ss = TypeRef.renamedSegments id ss

variable {p : Phrase} {ts : List Token}

/-- A word that is read again as it is printed. -/
def IsKept (w : Token) : Prop := TypeRef.IsWord w.text ∧ unescape w.text = w.text

/-- The first token of a name is its first identifier. -/
theorem head_of_written {segs : List Segment} (h : Written (.segments segs) ts) :
    ∃ w s, ts.head? = some w ∧ w.kind = .ident ∧ segs.head? = some s ∧ s.ident = w.name := by
  have hsegment {s : Segment} {us : List Token} (h : Written (.segment s) us) :
      ∃ w more, us = w :: more ∧ w.kind = .ident ∧ s.ident = w.name := by
    cases h with
    | bare hword => exact ⟨_, _, rfl, hword, rfl⟩
    | noArgs hword => exact ⟨_, _, rfl, hword, rfl⟩
    | generic hword => exact ⟨_, _, rfl, hword, rfl⟩
  cases h with
  | one h =>
    obtain ⟨w, more, rfl, hword, hident⟩ := hsegment h
    exact ⟨w, _, rfl, hword, rfl, hident⟩
  | dotted _ h _ =>
    obtain ⟨w, more, rfl, hword, hident⟩ := hsegment h
    exact ⟨w, _, rfl, hword, rfl, hident⟩

/-- A name that is kept, with type arguments that are printable. -/
theorem printable_segment {word : Token} {args : List TypeRef} (span : Span) (h : IsKept word)
    (hargs : ∀ a ∈ args, a.Printable)
    (hrenamed : TypeRef.renamedAll unescape args = TypeRef.renamedAll id args) :
    Printable (.segment (.mk word.name args span)) := by
  have hname : word.name = word.text := h.2
  refine ⟨⟨?_, hargs⟩, ?_⟩
  · rw [Segment.ident, hname]
    exact h.1
  · rw [TypeRef.renamedSegment, TypeRef.renamedSegment, hrenamed, hname, h.2, id]

theorem printable_segments_cons {s : Segment} {ss : List Segment} (h : Printable (.segment s))
    (hmore : ∀ s ∈ ss, IsPrintable s)
    (hrenamed : TypeRef.renamedSegments unescape ss = TypeRef.renamedSegments id ss) :
    Printable (.segments (s :: ss)) :=
  ⟨List.cons_ne_nil _ _, List.forall_mem_cons.mpr ⟨h.1, hmore⟩,
    by rw [TypeRef.renamedSegments, TypeRef.renamedSegments, h.2, hrenamed]⟩

theorem printable_list_cons (inTuple : Bool) {t : TypeRef} {ts : List TypeRef}
    (h : Printable (.type t)) (hmore : ∀ t ∈ ts, t.Printable)
    (hrenamed : TypeRef.renamedAll unescape ts = TypeRef.renamedAll id ts) :
    Printable (.list inTuple (t :: ts)) :=
  ⟨List.cons_ne_nil _ _, List.forall_mem_cons.mpr ⟨h.1, hmore⟩,
    by rw [TypeRef.renamedAll, TypeRef.renamedAll, h.2, hrenamed]⟩

/-- A name whose first identifier is no keyword of a type, unless it comes behind `global::`. -/
theorem printable_named {fromGlobal : Bool} {segs : List Segment} (span : Span)
    (h : Printable (.segments segs))
    (hplain : fromGlobal = false → ∀ s ∈ segs.head?, Predefined.ofKeyword? s.ident = none) :
    Printable (.type (.named fromGlobal segs span)) := by
  obtain ⟨hne, hsegments, hrenamed⟩ := h
  exact ⟨.named hne (fun s hs ↦ (hsegments s hs).1) hplain fun s hs ↦ (hsegments s hs).2,
    by rw [TypeRef.renamed, TypeRef.renamed, hrenamed]⟩

/-- What was read for a phrase is printable if its words are read again as they are printed. -/
theorem Written.printable (h : p.Written ts) (hwords : ∀ w ∈ ts, w.kind = .ident → IsKept w)
    (hmarks : p.singleMarks = true) : p.Printable := by
  induction h with
  | @predefined word p span hword hp => exact ⟨.predefined p span, rfl⟩
  | @named segs ts span hplain hwritten ih =>
    refine printable_named span (ih hwords hmarks) fun _ s hs ↦ ?_
    obtain ⟨w, s', hw, hword, hs', hident⟩ := head_of_written hwritten
    obtain rfl : s' = s := Option.some.inj (hs'.symm.trans hs)
    have hkept := hwords w (List.mem_of_mem_head? hw) hword
    rw [hident, Token.name, hkept.2]
    exact hplain w hw
  | @fromGlobal word mark segs ts span hword hglobal hmark _ ih =>
    exact printable_named span (ih (fun w hw ↦ hwords w (by simp [hw])) hmarks) (by simp)
  | @aliased word mark segs ts place span hword hplain hglobal hmark _ ih =>
    have hkept : IsKept word := hwords word (by simp) hword
    obtain ⟨-, hsegments, hrenamed⟩ := ih (fun w hw ↦ hwords w (by simp [hw])) hmarks
    have hfirst : Printable (.segment (.mk word.name [] place)) :=
      printable_segment place hkept (by simp) rfl
    refine printable_named span (printable_segments_cons hfirst hsegments hrenamed) fun _ s hs ↦ ?_
    obtain rfl : Segment.mk word.name [] place = s := Option.some.inj hs
    rw [Segment.ident, Token.name, hkept.2]
    exact hplain
  | @array opened closed marks ts e span hopened hcommas hclosed _ ih =>
    obtain ⟨hprintable, hrenamed⟩ := ih (fun w hw ↦ hwords w (by simp [hw])) hmarks
    exact ⟨.array hprintable (by simp [Parser.maxRank]) (Nat.min_le_right _ _),
      by rw [TypeRef.renamed, TypeRef.renamed, hrenamed]⟩
  | @nullable mark ts i span hmark _ ih =>
    simp only [singleMarks, TypeRef.singleMarks, Bool.and_eq_true, Bool.not_eq_true'] at hmarks
    obtain ⟨hprintable, hrenamed⟩ := ih (fun w hw ↦ hwords w (by simp [hw])) hmarks.2
    refine ⟨.nullable hprintable ?_, by rw [TypeRef.renamed, TypeRef.renamed, hrenamed]⟩
    rintro j span rfl
    cases hmarks.1
  | tuple hopened hclosed _ ih =>
    obtain ⟨hne, hprintable, hrenamed⟩ := ih (fun w hw ↦ hwords w (by simp [hw])) hmarks
    exact ⟨.tuple hne hprintable, by rw [TypeRef.renamed, TypeRef.renamed, hrenamed]⟩
  | @last inTuple _ _ _ hlabel _ ih =>
    simp only [singleMarks, TypeRef.allSingleMarks, Bool.and_true] at hmarks
    exact printable_list_cons inTuple (ih (fun w hw ↦ hwords w (by simp [hw])) hmarks) (by simp) rfl
  | @more inTuple _ _ _ _ _ _ hlabel hcomma _ _ ih ih' =>
    simp only [singleMarks, TypeRef.allSingleMarks, Bool.and_eq_true] at hmarks
    obtain ⟨-, hall, hrenamed⟩ := ih' (fun w hw ↦ hwords w (by simp [hw])) hmarks.2
    exact printable_list_cons inTuple (ih (fun w hw ↦ hwords w (by simp [hw])) hmarks.1) hall
      hrenamed
  | @bare word span hword =>
    exact printable_segment span (hwords word (by simp) hword) (by simp) rfl
  | @noArgs word opened closed span hword hopened hclosed =>
    exact printable_segment span (hwords word (by simp) hword) (by simp) rfl
  | @generic word opened closed ts args span hword hopened hclosed _ ih =>
    obtain ⟨-, hall, hrenamed⟩ := ih (fun w hw ↦ hwords w (by simp [hw])) hmarks
    exact printable_segment span (hwords word (by simp) hword) hall hrenamed
  | one _ ih =>
    simp only [singleMarks, TypeRef.segmentsSingleMarks, Bool.and_true] at hmarks
    exact printable_segments_cons (ih hwords hmarks) (by simp) rfl
  | dotted hdot _ _ ih ih' =>
    simp only [singleMarks, TypeRef.segmentsSingleMarks, Bool.and_eq_true] at hmarks
    obtain ⟨-, hall, hrenamed⟩ := ih' (fun w hw ↦ hwords w (by simp [hw])) hmarks.2
    exact printable_segments_cons (ih (fun w hw ↦ hwords w (by simp [hw])) hmarks.1) hall hrenamed

end Phrase

/-! ### Reading printed types -/

namespace Parser

end Parser
end Companion
