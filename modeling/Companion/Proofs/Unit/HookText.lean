import Companion.Unit.Text
import Mathlib.Data.List.Infix

/-!
The hook that companions along a chain of classes share, as it stands in their texts. Whatever is
written behind a line leaves it in place: only empty lines are ever taken back. So the header of the
hook, once written, is in the unit, and behind it in a companion that extends another the call that
it starts with.
-/

set_option autoImplicit false
set_option relaxedAutoImplicit false

namespace Companion

namespace Layout

/-- Lines as they stand in a text, each with the number of levels that it is indented by. -/
def rendered (lines : List (Nat × String)) : List Char :=
  lines.flatMap fun (depth, text) ↦
    List.replicate (depth * indentWidth) ' ' ++ text.toList ++ ['\n']

/-- Some characters have been written, one directly after the other. -/
def Holds (piece : List Char) (l : Layout) : Prop := piece.reverse <:+: l.reversed

/-- Characters that end in a line end which no empty line owns. -/
def EndsLine (piece : List Char) : Prop := ∃ front c, piece = front ++ [c, '\n'] ∧ c ≠ '\n'

/-- What has been written up to the end of a line is still there after `f`. -/
def Keeps (f : Layout → Layout) : Prop :=
  ∀ piece, EndsLine piece → ∀ l, Holds piece l → Holds piece (f l)

theorem keeps_of_suffix {f : Layout → Layout} (h : ∀ l, l.reversed <:+ (f l).reversed) : Keeps f :=
  fun _ _ l hl ↦ hl.trans (h l).isInfix

theorem keeps_id : Keeps id := fun _ _ _ hl ↦ hl

theorem Keeps.comp {f g : Layout → Layout} (hg : Keeps g) (hf : Keeps f) :
    Keeps fun l ↦ g (f l) :=
  fun piece hpiece l hl ↦ hg piece hpiece _ (hf piece hpiece l hl)

theorem keeps_foldl {α : Type} {f : Layout → α → Layout} (h : ∀ a, Keeps fun l ↦ f l a)
    (items : List α) : Keeps fun l ↦ items.foldl f l := by
  induction items with
  | nil => exact keeps_id
  | cons a rest ih => exact ih.comp (h a)

theorem reversed_line (text : String) (l : Layout) :
    (l.line text).reversed = (rendered [(if text = "" then 0 else l.depth, text)]).reverse ++
      l.reversed := by
  by_cases h : text = "" <;> simp [line, rendered, h]

theorem keeps_line (text : String) : Keeps (line text) :=
  keeps_of_suffix fun l ↦ ⟨_, (reversed_line text l).symm⟩

theorem keeps_blank : Keeps blank :=
  keeps_of_suffix fun l ↦ by
    rw [blank]
    split
    · exact List.suffix_rfl
    · exact List.suffix_cons _ _

theorem keeps_deeper : Keeps deeper := fun _ _ _ hl ↦ hl

theorem keeps_shallower : Keeps shallower := fun _ _ _ hl ↦ hl

theorem keeps_indented (text : String) : Keeps (indented text) :=
  keeps_shallower.comp ((keeps_line text).comp keeps_deeper)

theorem keeps_opened (header : String) : Keeps (opened header) :=
  keeps_deeper.comp ((keeps_line _).comp (keeps_line header))

/-- A line end that is taken back belongs to an empty line. -/
theorem infix_tail_of_endsLine {piece rest : List Char} (hpiece : EndsLine piece)
    (h : piece.reverse <:+: '\n' :: '\n' :: rest) : piece.reverse <:+: '\n' :: rest := by
  obtain ⟨front, c, rfl, hc⟩ := hpiece
  rcases List.infix_cons_iff.mp h with hhead | htail
  · simp only [List.reverse_append, List.reverse_cons, List.reverse_nil, List.nil_append,
      List.cons_append, List.cons_prefix_cons] at hhead
    exact absurd hhead.2.1 hc
  · exact htail

theorem keeps_closed : Keeps closed := by
  intro piece hpiece l hl
  refine keeps_line _ piece hpiece _ ?_
  show piece.reverse <:+:
    (if l.endsBlank then { l with reversed := l.reversed.tail } else l).reversed
  split
  · rename_i hblank
    rw [endsBlank] at hblank
    split at hblank
    · rename_i rest heq
      rw [Holds, heq] at hl
      rw [heq]
      exact infix_tail_of_endsLine hpiece hl
    · cases hblank
  · exact hl

theorem keeps_block (header : String) {body : Layout → Layout} (hbody : Keeps body) :
    Keeps (block header body) :=
  keeps_closed.comp (hbody.comp (keeps_opened header))

theorem infix_trimEnd {piece : List Char} (hpiece : EndsLine piece) (reversed : List Char)
    (h : piece.reverse <:+: reversed) : piece.reverse <:+: trimEnd reversed := by
  fun_induction trimEnd reversed with
  | case1 rest ih => exact ih (infix_tail_of_endsLine hpiece h)
  | case2 => exact h

/-- What was written up to the end of a line is in the text. -/
theorem infix_text {piece : List Char} (hpiece : EndsLine piece) {l : Layout} (h : Holds piece l) :
    piece <:+: l.text.toList := by
  have htrim := infix_trimEnd hpiece l.reversed h
  rw [text]
  split
  · rename_i rest heq
    rw [heq] at htrim
    simpa using List.reverse_infix.mpr htrim
  · rename_i rest _
    have hlonger : piece.reverse <:+: '\n' :: trimEnd l.reversed :=
      htrim.trans (List.suffix_cons _ _).isInfix
    simpa using List.reverse_infix.mpr hlonger

/-! ### Blocks -/

theorem holds_opened (header : String) (h : header ≠ "") (l : Layout) :
    Holds (rendered [(l.depth, header), (l.depth, "\x7b")]) (l.opened header) := by
  refine List.IsPrefix.isInfix ⟨l.reversed, ?_⟩
  show _ = ((l.line header).line "\x7b").reversed
  rw [reversed_line, reversed_line, if_neg h, if_neg (by decide)]
  simp [rendered, line]

theorem holds_line_opened (header first : String) (h : header ≠ "") (hfirst : first ≠ "")
    (l : Layout) :
    Holds (rendered [(l.depth, header), (l.depth, "\x7b"), (l.depth + 1, first)])
      ((l.opened header).line first) := by
  refine List.IsPrefix.isInfix ⟨l.reversed, ?_⟩
  show _ = ((l.opened header).line first).reversed
  rw [reversed_line, if_neg hfirst]
  show _ = _ ++ ((l.line header).line "\x7b").reversed
  rw [reversed_line, reversed_line, if_neg h, if_neg (by decide)]
  simp [rendered, line, opened, deeper]

theorem endsLine_rendered (lines : List (Nat × String)) (depth : Nat) {text : String}
    {front : List Char} {c : Char} (htext : text.toList = front ++ [c]) (hc : c ≠ '\n') :
    EndsLine (rendered (lines ++ [(depth, text)])) :=
  ⟨rendered lines ++ (List.replicate (depth * indentWidth) ' ' ++ front), c,
    by simp [rendered, htext], hc⟩

end Layout

/-! ### The hook in a unit -/

open Layout

/-- The lines that open the hook which other companions extend. -/
def rootHookLines (depth : Nat) : List (Nat × String) :=
  [(depth, "protected virtual void " ++ chainedHook ++ "()"), (depth, "\x7b")]

/-- The lines that open a hook which extends that of a base class, with the call of it. -/
def overrideHookLines (depth : Nat) : List (Nat × String) :=
  [(depth, "protected override void " ++ chainedHook ++ "()"), (depth, "\x7b"),
    (depth + 1, "base." ++ chainedHook ++ "();")]

/-- A text declares the hook for others to extend. -/
def DeclaresRootHook (text : String) : Prop :=
  ∃ depth, rendered (rootHookLines depth) <:+: text.toList

/-- A text extends the hook of a base class, which it calls first. -/
def ExtendsBaseHook (text : String) : Prop :=
  ∃ depth, rendered (overrideHookLines depth) <:+: text.toList

theorem endsLine_rootHookLines (depth : Nat) : EndsLine (rendered (rootHookLines depth)) :=
  endsLine_rendered [_] depth (show "\x7b".toList = [] ++ ['\x7b'] by decide) (by decide)

theorem endsLine_overrideHookLines (depth : Nat) : EndsLine (rendered (overrideHookLines depth)) :=
  endsLine_rendered [_, _] (depth + 1)
    (show _ = ("base." ++ chainedHook ++ "()").toList ++ [';'] by simp) (by decide)

namespace Settings

variable (s : Settings)

theorem keeps_addIfCast (target element : String) (mismatch : List String) :
    Keeps (addIfCast target element mismatch) := by
  have hstart : Keeps fun l ↦ ((l.line ("var element = obj as " ++ element ++ ";")).line
      "if (element != null)").indented (target ++ ".Add(element);") :=
    (keeps_indented _).comp ((keeps_line _).comp (keeps_line _))
  cases mismatch with
  | nil => exact hstart
  | cons warning _ => exact (keeps_indented warning).comp ((keeps_line _).comp hstart)

theorem keeps_restore (className : String) (shape : FieldShape) :
    Keeps (s.restore className shape) := by
  intro piece hpiece l hl
  rw [restore]
  cases shape.container with
  | single =>
    have hassigned := keeps_line
      (shape.fieldName ++ " = " ++ shape.backingName ++ " as " ++ shape.elementName ++ ";")
      piece hpiece l hl
    dsimp only
    split
    · exact hassigned
    · exact keeps_indented _ piece hpiece _ (keeps_line _ piece hpiece _ hassigned)
  | list =>
    dsimp only
    split
    · exact keeps_line _ piece hpiece l hl
    · refine keeps_block _ (keeps_addIfCast _ _ _) piece hpiece _ ?_
      exact keeps_line _ piece hpiece _
        (keeps_indented _ piece hpiece _ (keeps_line _ piece hpiece l hl))

theorem keeps_restoreAll (a : ClassAnalysis) : Keeps (s.restoreAll a) :=
  keeps_foldl (fun shape ↦ s.keeps_restore a.className shape) a.shapes

theorem keeps_repopulateHelper (element : String) : Keeps (s.repopulateHelper element) := by
  intro piece hpiece l hl
  rw [repopulateHelper]
  refine keeps_block _ (fun piece hpiece l hl ↦ ?_) piece hpiece l hl
  have hguarded := keeps_block "if (target == null)"
    ((keeps_line "return;").comp (keeps_line (s.host.debugLog
      ++ ".LogWarning(fieldName + \": readonly list is null, nothing to repopulate.\");")))
    piece hpiece l hl
  refine keeps_block _ (keeps_addIfCast _ _ _) piece hpiece _ ?_
  exact keeps_indented _ piece hpiece _
    (keeps_line _ piece hpiece _ (keeps_line _ piece hpiece _ hguarded))

theorem keeps_instantiateHelper (element : String) : Keeps (s.instantiateHelper element) := by
  intro piece hpiece l hl
  rw [instantiateHelper]
  refine keeps_block _ (keeps_block _ fun piece hpiece l hl ↦ ?_) piece hpiece l hl
  have hcase := keeps_indented
    ("return " ++ s.host.engineObject ++ ".Instantiate(engineObject) as " ++ element ++ ";")
    piece hpiece _
      (keeps_line ("case " ++ s.host.engineObject ++ " engineObject:") piece hpiece l hl)
  exact keeps_indented _ piece hpiece _
    (keeps_indented _ piece hpiece _ (keeps_line _ piece hpiece _ hcase))

/-- A hook that is written wherever the hooks of a class are written, at whatever depth, is in the
text of its companion. -/
theorem exists_infix_companionText (a : ClassAnalysis) {piece : Nat → List Char}
    (hpiece : ∀ depth, EndsLine (piece depth))
    (h : ∀ l, ∃ depth, Holds (piece depth) (s.hooks a l)) :
    ∃ depth, piece depth <:+: (s.companionText a).toList := by
  have hrepopulate (elements : List String) :
      Keeps fun l ↦ elements.foldl (fun l element ↦ (s.repopulateHelper element l).blank) l :=
    keeps_foldl (fun element ↦ keeps_blank.comp (s.keeps_repopulateHelper element)) elements
  have hinstantiate (elements : List String) :
      Keeps fun l ↦ elements.foldl (fun l element ↦ (s.instantiateHelper element l).blank) l :=
    keeps_foldl (fun element ↦ keeps_blank.comp (s.keeps_instantiateHelper element)) elements
  have hbody : ∀ l, ∃ depth, Holds (piece depth) (s.classBody a l) := by
    intro l
    rw [classBody]
    obtain ⟨depth, hhooks⟩ :=
      h (a.shapes.foldl (fun l shape ↦ (s.backingField shape l).blank) l)
    refine ⟨depth, ?_⟩
    split
    · exact hinstantiate _ _ (hpiece _) _ (hrepopulate _ _ (hpiece _) _ hhooks)
    · exact hrepopulate _ _ (hpiece _) _ hhooks
  have hnested : ∀ (headers : List String) (l : Layout),
      ∃ depth, Holds (piece depth) (nested headers (s.classBody a) l) := by
    intro headers
    induction headers with
    | nil => exact hbody
    | cons header rest ih =>
      intro l
      obtain ⟨depth, hrest⟩ := ih (l.opened header)
      exact ⟨depth, keeps_closed _ (hpiece depth) _ hrest⟩
  obtain ⟨depth, hunit⟩ := hnested (enclosingHeaders a ++ [s.classHeader a])
    ((Layout.empty.line "// <auto-generated/>").lines a.unitUsings).blank
  exact ⟨depth, infix_text (hpiece depth) hunit⟩

/-- The companion at the top of a chain declares the hook that the others extend. -/
theorem declaresRootHook_companionText {a : ClassAnalysis} (hrole : a.hookRole = .root) :
    DeclaresRootHook (s.companionText a) := by
  refine s.exists_infix_companionText a endsLine_rootHookLines fun l ↦ ?_
  simp only [hooks, hrole]
  exact ⟨_, keeps_blank _ (endsLine_rootHookLines _) _ (keeps_closed _ (endsLine_rootHookLines _) _
    (s.keeps_restoreAll a _ (endsLine_rootHookLines _) _ (holds_opened _ (by simp) _)))⟩

/-- The companion of a class below it extends the hook, and calls that of its base first. -/
theorem extendsBaseHook_companionText {a : ClassAnalysis} (hrole : a.hookRole = .override) :
    ExtendsBaseHook (s.companionText a) := by
  refine s.exists_infix_companionText a endsLine_overrideHookLines fun l ↦ ?_
  simp only [hooks, hrole]
  exact ⟨l.depth, keeps_blank _ (endsLine_overrideHookLines _) _
    (keeps_closed _ (endsLine_overrideHookLines _) _ (s.keeps_restoreAll a _
      (endsLine_overrideHookLines _) _ (holds_line_opened _ _ (by simp) (by simp) l)))⟩

end Settings
end Companion
