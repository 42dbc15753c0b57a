import Companion.Proofs.Field.Serializable
import Companion.Proofs.Symbol.FullNames
import Companion.Proofs.Symbol.KeptTexts
import Companion.Proofs.Unit.Components

/-!
The names of helpers. A readonly list is filled by a method whose name is made from the full name of
its elements: points, commas and opening brackets become parts of a word, closing brackets, question
marks and spaces are left out. This makes one identifier of all that symbols bring to a full name,
be it arrays, tuples or nullable types of them. A reference to what nothing declares is part of the
full name as it is written, and the colons of `global::` and the parentheses of tuples in it stay
in the name of the helper.
-/

set_option autoImplicit false
set_option relaxedAutoImplicit false

namespace Companion

open Token Lexeme

/-- A text is one identifier from its start to its end, and nothing else. -/
def IsOneIdentifier (n : String) : Prop :=
  ofSource n =
    [⟨.ident, .ofRange 0 (Text.byteLength n.toList), n⟩, endAt (Text.byteLength n.toList)]

/-! ### Names and identifiers -/

theorem ofSource_of_isWordText {n : String} (h : isWordText n.toList = true) :
    ofSource n = [⟨nameKind n.toList, .ofRange 0 (Text.byteLength n.toList), n⟩,
      endAt (Text.byteLength n.toList)] := by
  obtain ⟨cs, rfl⟩ : ∃ cs, n = String.ofList cs := ⟨n.toList, String.ofList_toList.symm⟩
  rw [String.toList_ofList] at h ⊢
  cases cs with
  | nil => cases h
  | cons c cs =>
    obtain ⟨hstart, hrest⟩ := Bool.and_eq_true_iff.mp h
    have hrun := run_of_breaks (r := []) hrest rfl
    rw [List.append_nil] at hrun
    have hscan : Lexeme.scan c cs = (.token (nameKind (c :: cs)), cs.length) := by
      rw [Lexeme.scan_of_startsWord hstart, Lexeme.word, hrun, List.take_length, List.drop_length,
        wordKind_of_breaks rfl]
    rw [ofSource_eq, String.toList_ofList, tokensFrom_cons, hscan, List.take_length,
      List.drop_length, locate, Nat.zero_add]
    rfl

/-- The name of a helper is one identifier exactly if nothing stays in it that is no part of a
word. -/
theorem isOneIdentifier_repopulateName_iff (t : String) :
    IsOneIdentifier (repopulateName t) ↔ t.toList.all isHelperChar = true := by
  rw [← isNameText_repopulateName]
  constructor
  · intro h
    have hbare := congrArg (List.map bare) h
    rw [map_bare_ofSource, List.map_cons, ← List.singleton_append] at hbare
    exact (isNameText_of_spell (List.append_cancel_right hbare)).1
  · intro h
    have hword : isWordText (repopulateName t).toList = true := by
      rw [toList_repopulateName] at h ⊢
      exact h
    unfold IsOneIdentifier
    rw [ofSource_of_isWordText hword, nameKind_repopulateName]

/-! ### Characters of references and of full names -/

/-- A character of a reference that the names of helpers keep though it is no part of a word. -/
def isLeftOver (c : Char) : Bool := c = ':' || c = '(' || c = ')'

def isReferenceChar (c : Char) : Bool := isHelperChar c || isLeftOver c

theorem all_replicate {p : Char → Bool} {c : Char} (h : p c = true) (n : Nat) :
    (List.replicate n c).all p = true := by
  rw [List.all_replicate, h, ite_self]

/-- No character is turned into a word and kept. -/
theorem isHelperChar_of_isReferenceChar {c : Char} (h : isReferenceChar c = true) :
    isHelperChar c = !isLeftOver c := by
  unfold isReferenceChar at h
  by_cases hc : isLeftOver c = true
  · rw [hc]
    simp only [isLeftOver, Bool.or_eq_true, decide_eq_true_eq] at hc
    obtain (rfl | rfl) | rfl := hc <;> decide
  · rw [Bool.not_eq_true] at hc
    rw [hc, Bool.or_false] at h
    rw [h, hc]
    rfl

theorem IsWordName.all_isHelperChar {n : String} (h : IsWordName n) :
    n.toList.all isHelperChar = true := by
  refine all_of_isWordText (fun c hc ↦ ?_) h
  rw [isHelperChar, isTypeChar, hc]
  rfl

namespace TypeRef

theorem all_keyword (p : Predefined) : p.keyword.toList.all isReferenceChar = true := by
  cases p <;> decide

mutual

/-- Besides what names of helpers turn into words, a reference is written with colons and
parentheses only. -/
theorem all_render : ∀ r : TypeRef, r.Named IsWordName →
    r.render.toList.all isReferenceChar = true
  | .predefined p _, _ => all_keyword p
  | .named fromGlobal segs _, h => by
    have hglobal : (if fromGlobal then "global::" else "").toList.all isReferenceChar = true := by
      cases fromGlobal <;> decide
    rw [render, String.toList_append, List.all_append, hglobal, Bool.true_and]
    exact all_joinWith (by decide) (all_renderSegments segs (named_named_iff.mp h))
  | .array e rank _, h => by
    have hcommas := all_replicate (show isReferenceChar ',' = true by decide) (rank - 1)
    simp only [render, String.toList_append, String.toList_ofList, List.all_append, hcommas,
      all_render e h]
    decide
  | .nullable i _, h => by
    simp only [render, String.toList_append, List.all_append, all_render i h]
    decide
  | .tuple es _, h => by
    have hes := @all_joinWith _ ", " _ (by decide) (all_renderAll es (named_tuple_iff.mp h))
    simp only [render, String.toList_append, List.all_append, hes]
    decide

theorem all_renderAll : ∀ rs : List TypeRef, (∀ r ∈ rs, r.Named IsWordName) →
    ∀ t ∈ renderAll rs, t.toList.all isReferenceChar = true
  | [], _ => fun _ h ↦ absurd h List.not_mem_nil
  | r :: rs, h => by
    obtain ⟨hr, hrs⟩ := List.forall_mem_cons.mp h
    exact List.forall_mem_cons.mpr ⟨all_render r hr, all_renderAll rs hrs⟩

theorem all_renderSegments : ∀ segs : List Segment, (∀ s ∈ segs, s.Named IsWordName) →
    ∀ t ∈ renderSegments segs, t.toList.all isReferenceChar = true
  | [], _ => fun _ h ↦ absurd h List.not_mem_nil
  | .mk ident args span :: segs, h => by
    obtain ⟨⟨hident, hargs⟩, hsegs⟩ := List.forall_mem_cons.mp h
    have hlist := all_renderAll args hargs
    refine List.forall_mem_cons.mpr ⟨?_, all_renderSegments segs hsegs⟩
    have hname : ident.toList.all isReferenceChar = true := by
      have hall := hident.all_isHelperChar
      rw [List.all_eq_true] at hall ⊢
      exact fun c hc ↦ Bool.or_eq_true_iff.mpr (.inl (hall c hc))
    cases args with
    | nil => exact hname
    | cons a rest =>
      have hjoined := @all_joinWith _ ", " _ (by decide) hlist
      rw [renderAll] at hjoined
      simp only [renderSegment, String.toList_append, List.all_append, hname, hjoined]
      decide

end

/-- What names of helpers keep of a reference as it is are its colons and parentheses. -/
theorem all_isHelperChar_render_iff {r : TypeRef} (h : r.Named IsWordName) :
    r.render.toList.all isHelperChar = true ↔ ∀ c ∈ r.render.toList, isLeftOver c = false := by
  have hall := List.all_eq_true.mp (all_render r h)
  rw [List.all_eq_true]
  refine forall₂_congr fun c hc ↦ ?_
  rw [isHelperChar_of_isReferenceChar (hall c hc), Bool.not_eq_true']

end TypeRef

namespace Compilation

section FullNames

variable {c : Compilation}

mutual

/-- Of a type without parameters, only the kept texts can bring something to the full name that
names of helpers keep as it is. -/
theorem all_fullName_iff
    (hnames : ∀ id, (c.qualifiedName id).toList.all isHelperChar = true) :
    ∀ t : Ty, Settled t →
    ((c.fullName t).toList.all isHelperChar = true ↔
      ∀ text ∈ t.keptTexts, text.toList.all isHelperChar = true)
  | .named id args, h => by
    rw [fullName_named, String.toList_append, List.all_append, hnames, Bool.true_and]
    exact all_fullArgs_iff hnames args fun name owner hmem ↦
      h name owner (List.mem_cons_of_mem _ hmem)
  | .param name owner, h => absurd (List.mem_singleton_self _) (h name owner)
  | .array e rank, h => by
    have hcommas := all_replicate (show isHelperChar ',' = true by decide) (rank - 1)
    have hmarks : "[".toList.all isHelperChar = true ∧ "]".toList.all isHelperChar = true := by
      decide
    rw [Ty.keptTexts, ← all_fullName_iff hnames e h]
    simp only [fullName_array, String.toList_append, String.toList_ofList, List.all_append, hcommas,
      hmarks, Bool.and_true]
  | .nullable i, h => by
    have hmark : "?".toList.all isHelperChar = true := by decide
    rw [Ty.keptTexts, ← all_fullName_iff hnames i h, fullName_nullable, String.toList_append,
      List.all_append, hmark, Bool.and_true]
  | .tuple es, h => by
    have hname : "System.ValueTuple".toList.all isHelperChar = true := by decide
    rw [fullName_tuple, String.toList_append, List.all_append, hname, Bool.true_and]
    exact all_fullArgs_iff hnames es h
  | .unresolved text, _ => by
    rw [Ty.keptTexts, List.forall_mem_singleton]
    rfl

theorem all_fullArgs_iff
    (hnames : ∀ id, (c.qualifiedName id).toList.all isHelperChar = true) :
    ∀ ts : List Ty, (∀ name owner, Ty.param name owner ∉ namesInAll ts) →
    ((c.fullArgs ts).toList.all isHelperChar = true ↔
      ∀ text ∈ Ty.keptTextsAll ts, text.toList.all isHelperChar = true)
  | [], _ => iff_of_true rfl fun _ h ↦ absurd h List.not_mem_nil
  | t :: ts, h => by
    have hmarks : "<".toList.all isHelperChar = true ∧ ">".toList.all isHelperChar = true := by
      decide
    have ht := all_fullName_iff hnames t fun name owner hmem ↦
      h name owner (List.mem_append_left _ hmem)
    have hts := all_fullTail_iff hnames ts fun name owner hmem ↦
      h name owner (List.mem_append_right _ hmem)
    rw [Ty.keptTextsAll, List.forall_mem_append, ← ht, ← hts]
    simp only [fullArgs_cons, String.toList_append, List.all_append, hmarks, Bool.true_and,
      Bool.and_true, Bool.and_eq_true]

theorem all_fullTail_iff
    (hnames : ∀ id, (c.qualifiedName id).toList.all isHelperChar = true) :
    ∀ ts : List Ty, (∀ name owner, Ty.param name owner ∉ namesInAll ts) →
    ((c.fullTail ts).toList.all isHelperChar = true ↔
      ∀ text ∈ Ty.keptTextsAll ts, text.toList.all isHelperChar = true)
  | [], _ => iff_of_true rfl fun _ h ↦ absurd h List.not_mem_nil
  | t :: ts, h => by
    have hmark : ",".toList.all isHelperChar = true := by decide
    have ht := all_fullName_iff hnames t fun name owner hmem ↦
      h name owner (List.mem_append_left _ hmem)
    have hts := all_fullTail_iff hnames ts fun name owner hmem ↦
      h name owner (List.mem_append_right _ hmem)
    rw [Ty.keptTextsAll, List.forall_mem_append, ← ht, ← hts]
    simp only [fullTail_cons, String.toList_append, List.all_append, hmark, Bool.true_and,
      Bool.and_eq_true]

end

end FullNames

/-! ### Elements of shapes -/

section Elements

variable {texts : List (String × String)} {s : Settings} {id : TypeId} {v : MarkedVariable}
  {shape : FieldShape}

theorem isWordName_of_mem_names :
    ∀ f ∈ (Sources.ofTexts texts).files, ∀ n ∈ f.names, IsWordName n :=
  Sources.forall_files (fun _ _ _ hn ↦ Parsed.isWordName_of_mem_names hn) texts

/-- Namespaces and types have words for names, so dots are the only marks between them. -/
theorem all_qualifiedName (id : TypeId) : ((ofFiles (Sources.ofTexts texts).files).qualifiedName
    id).toList.all isHelperChar = true := by
  have hknown : ∀ s ∈ Table.initial.symbols, IsWordName s.name ∧ ∀ n ∈ s.space, IsWordName n := by
    unfold IsWordName
    decide
  have hsymbol {id : TypeId} {symbol : Symbol}
      (h : (ofFiles (Sources.ofTexts texts).files).symbol? id = some symbol) :=
    named_symbol isWordName_of_mem_names hknown h
  have hname (id : TypeId) : ((ofFiles (Sources.ofTexts texts).files).nameOf
      id).toList.all isHelperChar = true := by
    unfold nameOf
    cases h : (ofFiles (Sources.ofTexts texts).files).symbol? id with
    | none => rfl
    | some symbol => exact (hsymbol h).1.all_isHelperChar
  have hspace : ∀ n ∈ (ofFiles (Sources.ofTexts texts).files).spaceOf id,
      n.toList.all isHelperChar = true := by
    unfold spaceOf
    cases h : (ofFiles (Sources.ofTexts texts).files).symbol? id with
    | none => exact fun _ hn ↦ absurd hn List.not_mem_nil
    | some symbol => exact fun n hn ↦ ((hsymbol h).2 n hn).all_isHelperChar
  unfold qualifiedName
  refine all_joinWith (by decide) ?_
  rw [List.forall_mem_append, List.forall_mem_append, List.forall_mem_singleton]
  exact ⟨⟨hspace, List.forall_mem_map.mpr fun id _ ↦ hname id⟩, hname id⟩

theorem keptFrom_of_holdsInterface {c : Compilation} {p : String → Prop} {t i : Ty} {k : Container}
    (h : c.HoldsInterface t k i) (ht : t.KeptFrom p) : i.KeptFrom p := by
  cases h with
  | single _ => exact ht.stripNullable
  | list hlist _ =>
    have hargs := ht.stripNullable
    rw [hlist, Ty.keptFrom_named_iff, List.forall_mem_singleton] at hargs
    exact hargs.stripNullable

theorem keptFrom_fieldType
    (hv : v ∈ (ofFiles (Sources.ofTexts texts).files).markedVariables s id) :
    (v.site.fieldType (ofFiles (Sources.ofTexts texts).files) v.field).KeptFrom IsWordName := by
  obtain ⟨symbol, hsymbol⟩ := exists_symbol_of_mem_markedVariables hv
  obtain ⟨hsite, hf, -⟩ := (mem_markedVariables_iff hsymbol).mp hv
  refine keptFrom_resolve_site (t := (ofFiles (Sources.ofTexts texts).files).table)
    isWordName_of_mem_names rfl hsymbol hsite ?_
  exact List.mem_append_right _ (List.mem_map_of_mem (List.mem_filter.mp hf).1)

/-- The arguments of a base are written in the class, and so are the texts that they keep. -/
theorem keptFrom_substituteBase {base t : Ty}
    (hbase : (ofFiles (Sources.ofTexts texts).files).base? id = some base)
    (ht : t.KeptFrom IsWordName) :
    ((ofFiles (Sources.ofTexts texts).files).substituteBase base t).KeptFrom IsWordName := by
  have hkept := keptFrom_base? isWordName_of_mem_names hbase
  unfold substituteBase
  split
  · exact ht.substitute (Ty.keptFrom_named_iff.mp hkept)
  · exact ht

/-- The interface of a shape is settled and keeps nothing but references. -/
theorem Holds.settled_and_keptFrom {element : Ty}
    (h : (ofFiles (Sources.ofTexts texts).files).Holds s id shape element) :
    Settled element ∧ element.KeptFrom IsWordName := by
  cases h with
  | own hmade helement =>
    obtain ⟨hholds, hsettled⟩ := holdsInterface_of_elementOf helement
    exact ⟨hsettled, keptFrom_of_holdsInterface hholds
      (keptFrom_fieldType (of_mem_ownBackings hmade).1)⟩
  | inherited hclosed hmade helement =>
    obtain ⟨hholds, hsettled⟩ := holdsInterface_of_elementOf helement
    exact ⟨hsettled, keptFrom_of_holdsInterface hholds
      (keptFrom_substituteBase (closedBase?_eq_some_iff.mp hclosed).1
        (keptFrom_fieldType (inherits_of_mem_inheritedBackings hclosed hmade).declared))⟩

/-- The helper for a shape has an identifier for a name exactly if no reference that is kept as it
is written, for want of a declaration, has a colon or a parenthesis in it. -/
theorem isOneIdentifier_repopulateName_of_analyze {a : ClassAnalysis} {reports : List Diagnostic}
    (ha : (ofFiles (Sources.ofTexts texts).files).analyze s id = some (a, reports))
    (hshape : shape ∈ a.shapes) :
    (∃ element, (ofFiles (Sources.ofTexts texts).files).Holds s id shape element) ∧
      ∀ element, (ofFiles (Sources.ofTexts texts).files).Holds s id shape element →
        (IsOneIdentifier (repopulateName shape.elementName) ↔
          ∀ text ∈ element.keptTexts, ∀ c ∈ text.toList, isLeftOver c = false) := by
  refine ⟨exists_holds_of_analyze ha hshape, fun element hholds ↦ ?_⟩
  obtain ⟨hsettled, hkept⟩ := hholds.settled_and_keptFrom
  rw [isOneIdentifier_repopulateName_iff, hholds.elementName_eq,
    all_fullName_iff all_qualifiedName element hsettled]
  refine forall₂_congr fun text htext ↦ ?_
  obtain ⟨r, hr, rfl⟩ := hkept text htext
  exact TypeRef.all_isHelperChar_render_iff hr

end Elements

/-- A readonly list of an interface whose argument is written with `global::` and not declared. -/
private def foreignTexts : List (String × String) :=
  [("Foreign.cs", "using System.Collections.Generic;interface I<T>{}" ++
    "partial class C{[SerializeInterface]readonly List<I<global::X>> f=new();}")]

private theorem foreign_facts : (Sources.ofTexts foreignTexts).diagnostics = [] ∧
    ((ofFiles (Sources.ofTexts foreignTexts).files).analyze {} 20).map (fun r ↦ r.1.shapes.map
      fun shape ↦ (shape.elementName, shape.container, shape.isReadOnly)) =
        some [("I<global::X>", .list, true)] := by
  decide +kernel

private theorem foreign_setting : ∃ a reports shape,
    (ofFiles (Sources.ofTexts foreignTexts).files).analyze {} 20 = some (a, reports) ∧
      shape ∈ a.shapes ∧ shape.elementName = "I<global::X>" ∧ shape.container = .list ∧
      shape.isReadOnly = true := by
  obtain ⟨⟨a, reports⟩, ha, hshapes⟩ := Option.map_eq_some_iff.mp foreign_facts.2
  have hmem := List.mem_singleton_self ("I<global::X>", Container.list, true)
  rw [← hshapes] at hmem
  obtain ⟨shape, hshape, heq⟩ := List.mem_map.mp hmem
  obtain ⟨hname, hcontainer, hreadonly⟩ := by simpa only [Prod.mk.injEq] using heq
  exact ⟨a, reports, shape, ha, hshape, hname, hcontainer, hreadonly⟩

theorem isOneIdentifier_repopulateName_foreign : ∃ a reports shape element,
    (ofFiles (Sources.ofTexts foreignTexts).files).analyze {} 20 = some (a, reports) ∧
      shape ∈ a.shapes ∧ shape.elementName = "I<global::X>" ∧
      (ofFiles (Sources.ofTexts foreignTexts).files).Holds {} 20 shape element ∧
      (IsOneIdentifier (repopulateName shape.elementName) ↔
        ∀ text ∈ element.keptTexts, ∀ c ∈ text.toList, isLeftOver c = false) := by
  obtain ⟨a, reports, shape, ha, hshape, hname, -⟩ := foreign_setting
  obtain ⟨⟨element, hholds⟩, hall⟩ := isOneIdentifier_repopulateName_of_analyze ha hshape
  exact ⟨a, reports, shape, element, ha, hshape, hname, hholds, hall element hholds⟩

/-- The helper for a readonly list in files without mistakes need not have an identifier for a
name. -/
theorem not_forall_isOneIdentifier_repopulateName :
    ¬ ∀ (texts : List (String × String)) (s : Settings) (id : TypeId) (a : ClassAnalysis)
      (reports : List Diagnostic) (shape : FieldShape),
      (Sources.ofTexts texts).diagnostics = [] →
      (ofFiles (Sources.ofTexts texts).files).analyze s id = some (a, reports) →
      shape ∈ a.shapes → shape.container = .list → shape.isReadOnly = true →
      IsOneIdentifier (repopulateName shape.elementName) := by
  intro hall
  obtain ⟨a, reports, shape, ha, hshape, hname, hcontainer, hreadonly⟩ := foreign_setting
  have hone :=
    hall foreignTexts {} 20 a reports shape foreign_facts.1 ha hshape hcontainer hreadonly
  rw [isOneIdentifier_repopulateName_iff, hname] at hone
  exact absurd hone (by decide)

end Compilation
end Companion
