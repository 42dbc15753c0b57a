import Companion.Proofs.Class.Renaming
import Companion.Proofs.Symbol.Known

/-!
Compilations in which classes look alike. Another compilation may hold more types, and it may hold
the same declarations at other places, in other files and with other directives around them. As far
as every type of the first has a counterpart of the same number, made of declarations whose names,
texts and field types are the same (`Compilation.Like`), a class and its counterpart have one
analysis up to places (`Compilation.Like.analyze`). Only the part that its companion plays may
differ, because more classes may be derived from it (`HookRole.Grows`).
-/

set_option autoImplicit false
set_option relaxedAutoImplicit false

namespace Companion

/-! ### Places through a view -/

/-- A shape with its place as it is seen. -/
def FieldShape.seen (view : Span → Span) (shape : FieldShape) : FieldShape :=
  { shape with span := view shape.span }

def InheritedField.seen (view : Span → Span) (i : InheritedField) : InheritedField :=
  { i with shape := i.shape.seen view }

/-- An analysis with its places as they are seen. -/
def ClassAnalysis.seen (view : Span → Span) (a : ClassAnalysis) : ClassAnalysis :=
  { a with
    ownShapes := a.ownShapes.map (FieldShape.seen view)
    inherited := a.inherited.map (InheritedField.seen view)
    span := view a.span }

theorem FieldShape.seen_id : FieldShape.seen id = id := rfl

theorem InheritedField.seen_id : InheritedField.seen id = id := rfl

theorem ClassAnalysis.seen_id (a : ClassAnalysis) : a.seen id = a := by
  rw [seen, FieldShape.seen_id, InheritedField.seen_id, List.map_id, List.map_id]
  rfl

/-- What the part of a companion may become when there are more classes. -/
inductive HookRole.Grows : HookRole → HookRole → Prop
  | same (role : HookRole) : Grows role role
  | extended : Grows .standalone .root

/-- The field that an inherited variable becomes, if it has a shape. -/
def Inheritance.field? : Inheritance → Option InheritedField
  | kept field => some field
  | hidden _ => none
  | skipped _ _ _ => none

theorem Compilation.inheritedFields_eq (c : Compilation) (s : Settings) (id : TypeId) :
    c.inheritedFields s id = (c.inheritances s id).filterMap fun p ↦ p.2.field? := by
  rw [inheritedFields]
  refine List.filterMap_congr fun p _ ↦ ?_
  obtain ⟨site, i⟩ := p
  cases i <;> rfl

/-! ### Declarations that look alike -/

section Likeness

variable (view : Span → Span) (s : Settings) (c c' : Compilation)

structure Declarator.Like (d d' : Declarator) : Prop where
  name : d'.name = d.name
  initializer : d'.initializer.isSome = d.initializer.isSome
  nameSpan : view d'.nameSpan = view d.nameSpan

/-- Fields at two sites that tell the same. -/
structure Field.Like (site site' : Site) (f f' : Field) : Prop where
  isMarked : f'.isMarked s = f.isMarked s
  modifiers : f'.modifiers = f.modifiers
  carried : f'.carriedAttributes c' s site'.file = f.carriedAttributes c s site.file
  openIdentifier : f'.openIdentifier = f.openIdentifier
  type : site'.fieldType c' f' = site.fieldType c f
  declarators : List.Forall₂ (Declarator.Like view) f.declarators f'.declarators

/-- Declarations that tell the same. -/
structure Site.Like (site site' : Site) : Prop where
  path : c'.path site'.file = c.path site.file
  isPartial : site'.decl.header.isPartial = site.decl.header.isPartial
  nameSpan : view site'.decl.header.nameSpan = view site.decl.header.nameSpan
  usings : (site'.body.usings.map fun u ↦ c'.text site'.file u.span) =
    site.body.usings.map fun u ↦ c.text site.file u.span
  fields : List.Forall₂ (Field.Like view s c c' site site') site.decl.fields site'.decl.fields

/-- Types of which everything but their places is the same. -/
structure Symbol.Like (symbol symbol' : Symbol) : Prop where
  name : symbol'.name = symbol.name
  kind : symbol'.kind = symbol.kind
  space : symbol'.space = symbol.space
  enclosing : symbol'.enclosing = symbol.enclosing
  typeParams : symbol'.typeParams = symbol.typeParams
  base : symbol'.base = symbol.base
  interfaces : symbol'.interfaces = symbol.interfaces
  sites : List.Forall₂ (Site.Like view s c c') symbol.sites symbol'.sites

/-- Every type of one compilation has its like in another one. -/
structure Compilation.Like : Prop where
  contained : c.Contained
  symbol? : ∀ id symbol, c.symbol? id = some symbol →
    ∃ symbol', c'.symbol? id = some symbol' ∧ symbol.Like view s c c' symbol'

end Likeness

theorem map_eq_of_forall₂ {α β γ : Type} {R : α → β → Prop} {as : List α} {bs : List β}
    (h : List.Forall₂ R as bs) {f : α → γ} {g : β → γ} (hfg : ∀ a b, R a b → g b = f a) :
    bs.map g = as.map f := by
  induction h with
  | nil => rfl
  | cons hhead _ ih => rw [List.map_cons, List.map_cons, hfg _ _ hhead, ih]

theorem flatMap_eq_of_forall₂ {α β γ : Type} {R : α → β → Prop} {as : List α} {bs : List β}
    (h : List.Forall₂ R as bs) {f : α → List γ} {g : β → List γ} (hfg : ∀ a b, R a b → g b = f a) :
    bs.flatMap g = as.flatMap f := by
  rw [List.flatMap_def, List.flatMap_def, map_eq_of_forall₂ h hfg]

theorem filterMap_eq_of_forall₂ {α β γ : Type} {R : α → β → Prop} {as : List α} {bs : List β}
    (h : List.Forall₂ R as bs) {f : α → Option γ} {g : β → Option γ}
    (hfg : ∀ a b, R a b → g b = f a) : bs.filterMap g = as.filterMap f := by
  rw [← Function.id_comp g, ← Function.id_comp f, ← List.filterMap_map, ← List.filterMap_map,
    map_eq_of_forall₂ h hfg]

theorem head?_map_eq_of_forall₂ {α β γ : Type} {R : α → β → Prop} {as : List α} {bs : List β}
    (h : List.Forall₂ R as bs) {f : α → γ} {g : β → γ} (hfg : ∀ a b, R a b → g b = f a) :
    bs.head?.map g = as.head?.map f := by
  rw [← List.head?_map, ← List.head?_map, map_eq_of_forall₂ h hfg]

namespace Compilation

/-! ### More budget finds no more ancestors -/

theorem base_lt {c : Compilation} (hc : c.Contained) {id base : TypeId}
    (h : (c.base? id).bind Ty.id? = some base) : base < c.table.symbols.length := by
  obtain ⟨ty, hty, hbase⟩ := Option.bind_eq_some_iff.mp h
  obtain ⟨symbol, hsymbol, hsome⟩ := Option.bind_eq_some_iff.mp hty
  have hbelow := hc.base id symbol hsymbol ty hsome
  cases ty with
  | named i args => exact Option.some.inj hbase ▸ hbelow.1
  | _ => cases hbase

/-- A walk along base classes visits no class twice, so it ends before as many steps as there are
types that it has not visited. -/
theorem ancestorsWithin_add {c : Compilation} (hc : c.Contained) (more : Nat) :
    ∀ (budget : Nat) (current : TypeId) (seen : List TypeId), seen.Nodup →
      (∀ id ∈ seen, id < c.table.symbols.length) →
      c.table.symbols.length ≤ budget + seen.length →
      c.ancestorsWithin (budget + more) current seen = c.ancestorsWithin budget current seen
  | 0, current, seen, hnodup, hlt, hlength => by
    -- every type has been visited
    have hall : ∀ base < c.table.symbols.length, base ∈ seen := by
      have hsub : seen ⊆ List.range c.table.symbols.length :=
        fun id hid ↦ List.mem_range.mpr (hlt id hid)
      have hperm : seen.Perm (List.range c.table.symbols.length) :=
        (hnodup.subperm hsub).perm_of_length_le (by rw [List.length_range]; omega)
      exact fun base hbase ↦ hperm.mem_iff.mpr (List.mem_range.mpr hbase)
    cases more with
    | zero => rfl
    | succ more =>
      rw [Nat.zero_add, ancestorsWithin, ancestorsWithin]
      cases hbase : (c.base? current).bind Ty.id? with
      | none => rfl
      | some base =>
        simp only [List.contains_iff_mem.mpr (hall base (base_lt hc hbase)), if_true]
  | budget + 1, current, seen, hnodup, hlt, hlength => by
    rw [Nat.add_right_comm, ancestorsWithin, ancestorsWithin]
    cases hbase : (c.base? current).bind Ty.id? with
    | none => rfl
    | some base =>
      simp only
      split
      · rfl
      · rename_i hnew
        rw [ancestorsWithin_add hc more budget base (base :: seen)
          (List.nodup_cons.mpr ⟨fun hmem ↦ hnew (List.contains_iff_mem.mpr hmem), hnodup⟩)
          (List.forall_mem_cons.mpr ⟨base_lt hc hbase, hlt⟩)
          (by rw [List.length_cons]; omega)]

/-! ### Symbols and names -/

namespace Like

variable {view : Span → Span} {s : Settings} {c c' : Compilation} (h : c.Like view s c')
include h

theorem exists_like {id : TypeId} (hid : id < c.table.symbols.length) :
    ∃ symbol symbol', c.symbol? id = some symbol ∧ c'.symbol? id = some symbol' ∧
      symbol.Like view s c c' symbol' := by
  have hsymbol : c.symbol? id = some c.table.symbols[id] := List.getElem?_eq_getElem hid
  obtain ⟨symbol', hsymbol', hlike⟩ := h.symbol? id _ hsymbol
  exact ⟨_, symbol', hsymbol, hsymbol', hlike⟩

theorem length_le : c.table.symbols.length ≤ c'.table.symbols.length := by
  rw [← Nat.not_lt]
  intro hlt
  obtain ⟨symbol', hsymbol', -⟩ := h.symbol? _ _ (List.getElem?_eq_getElem hlt)
  exact Nat.lt_irrefl _ (lt_length_of_symbol? hsymbol')

section Known

variable {id : TypeId} (hid : id < c.table.symbols.length)
include hid

/-- What a type and its like tell alike. -/
theorem map_symbol? {α : Type} {f : Symbol → α}
    (hf : ∀ symbol symbol', symbol.Like view s c c' symbol' → f symbol' = f symbol) :
    (c'.symbol? id).map f = (c.symbol? id).map f := by
  obtain ⟨symbol, symbol', hsymbol, hsymbol', hlike⟩ := h.exists_like hid
  rw [hsymbol, hsymbol', Option.map_some, Option.map_some, hf _ _ hlike]

theorem base? : c'.base? id = c.base? id := by
  obtain ⟨symbol, symbol', hsymbol, hsymbol', hlike⟩ := h.exists_like hid
  rw [Compilation.base?, Compilation.base?, hsymbol, hsymbol', Option.bind_some, Option.bind_some,
    hlike.base]

theorem enclosing : c'.enclosing id = c.enclosing id := by
  rw [Compilation.enclosing, Compilation.enclosing,
    h.map_symbol? hid fun _ _ hlike ↦ hlike.enclosing]

theorem nameOf : c'.nameOf id = c.nameOf id := by
  rw [Compilation.nameOf, Compilation.nameOf, h.map_symbol? hid fun _ _ hlike ↦ hlike.name]

theorem spaceOf : c'.spaceOf id = c.spaceOf id := by
  rw [Compilation.spaceOf, Compilation.spaceOf, h.map_symbol? hid fun _ _ hlike ↦ hlike.space]

omit h in
theorem lt_of_mem_enclosing (hc : c.Contained) :
    ∀ outer ∈ c.enclosing id, outer < c.table.symbols.length := by
  have hsymbol : c.symbol? id = some c.table.symbols[id] := List.getElem?_eq_getElem hid
  rw [Compilation.enclosing, hsymbol]
  exact hc.enclosing id _ hsymbol

theorem qualifiedName : c'.qualifiedName id = c.qualifiedName id := by
  have houter : (c.enclosing id).map c'.nameOf = (c.enclosing id).map c.nameOf :=
    List.map_congr_left fun outer houter ↦
      h.nameOf (lt_of_mem_enclosing hid h.contained outer houter)
  rw [Compilation.qualifiedName, Compilation.qualifiedName, h.spaceOf hid, h.enclosing hid, houter,
    h.nameOf hid]

end Known

omit h in
mutual

theorem fullName (h : c.Like view s c') :
    ∀ t : Ty, t.Below c.table.symbols.length → c'.fullName t = c.fullName t
  | .named id args, hbelow => by
    rw [fullName_named, fullName_named, h.qualifiedName hbelow.1, fullArgs h args hbelow.2]
  | .param _ _, _ => rfl
  | .array e rank, hbelow => by rw [fullName_array, fullName_array, fullName h e hbelow]
  | .nullable i, hbelow => by rw [fullName_nullable, fullName_nullable, fullName h i hbelow]
  | .tuple es, hbelow => congrArg ("System.ValueTuple" ++ ·) (fullArgs h es hbelow)
  | .unresolved _, _ => rfl

theorem fullArgs (h : c.Like view s c') :
    ∀ ts : List Ty, Ty.AllBelow c.table.symbols.length ts → c'.fullArgs ts = c.fullArgs ts
  | [], _ => rfl
  | t :: ts, hbelow => by
    rw [fullArgs_cons, fullArgs_cons, fullName h t hbelow.1, fullTail h ts hbelow.2]

theorem fullTail (h : c.Like view s c') :
    ∀ ts : List Ty, Ty.AllBelow c.table.symbols.length ts → c'.fullTail ts = c.fullTail ts
  | [], _ => rfl
  | t :: ts, hbelow => by
    rw [fullTail_cons, fullTail_cons, fullName h t hbelow.1, fullTail h ts hbelow.2]

end

theorem isInterface {t : Ty} (ht : t.Below c.table.symbols.length) :
    c'.isInterface t = c.isInterface t :=
  Table.isInterface_congr ht fun _ hid ↦ h.map_symbol? hid fun _ _ hlike ↦ hlike.kind

theorem substituteBase {base : Ty} (hbase : base.Below c.table.symbols.length) (t : Ty) :
    c'.substituteBase base t = c.substituteBase base t := by
  cases base with
  | named id args =>
    rw [Compilation.substituteBase, Compilation.substituteBase,
      h.map_symbol? hbase.1 fun _ _ hlike ↦ hlike.typeParams]
  | _ => rfl

omit h in
theorem below_substituteBase {base t : Ty} (hbase : base.Below c.table.symbols.length)
    (ht : t.Below c.table.symbols.length) :
    (c.substituteBase base t).Below c.table.symbols.length := by
  cases base with
  | named id args => exact ht.substitute hbase.2
  | _ => exact ht

/-! ### Fields -/

theorem elementWithin (container : Container) {element : Ty}
    (helement : element.Below c.table.symbols.length) :
    c'.elementWithin container element = c.elementWithin container element := by
  cases element with
  | named id args =>
    rw [Compilation.elementWithin, Compilation.elementWithin, h.isInterface helement]
  | _ => rfl

omit h in
theorem below_of_listElement {t e : Ty} (ht : t.Below c.table.symbols.length)
    (he : c.listElement t = some e) : e.Below c.table.symbols.length := by
  have hbelow := Ty.Below.stripNullable t ht
  rw [Compilation.listElement] at he
  split at he
  · rename_i hstrip
    rw [hstrip] at hbelow
    split at he
    · exact Option.some.inj he ▸ hbelow.2.1
    · cases he
  · cases he

theorem elementOf {t : Ty} (ht : t.Below c.table.symbols.length) :
    c'.elementOf t = c.elementOf t := by
  rw [elementOf_eq, elementOf_eq, show c'.listElement t = c.listElement t from rfl]
  cases he : c.listElement t with
  | none => exact h.elementWithin .single (Ty.Below.stripNullable t ht)
  | some e => exact h.elementWithin .list (Ty.Below.stripNullable e (below_of_listElement ht he))

omit h in
theorem below_of_elementWithin {container : Container} {element : Ty} {found : Container × Ty}
    (helement : element.Below c.table.symbols.length)
    (hfound : c.elementWithin container element = .ok found) :
    found.2.Below c.table.symbols.length := by
  cases element with
  | named id args =>
    rw [Compilation.elementWithin] at hfound
    split at hfound
    · cases hfound
    split at hfound
    · cases hfound
    · exact Except.ok.inj hfound ▸ helement
  | _ => cases hfound

omit h in
theorem below_of_elementOf {t : Ty} {found : Container × Ty}
    (ht : t.Below c.table.symbols.length) (hfound : c.elementOf t = .ok found) :
    found.2.Below c.table.symbols.length := by
  rw [elementOf_eq] at hfound
  cases he : c.listElement t with
  | none =>
    rw [he] at hfound
    exact below_of_elementWithin (Ty.Below.stripNullable t ht) hfound
  | some e =>
    rw [he] at hfound
    exact below_of_elementWithin (Ty.Below.stripNullable e (below_of_listElement ht he)) hfound

variable {site site' : Site} {f f' : Field} {d d' : Declarator}

omit h in
theorem restriction (hf : f.Like view s c c' site site' f') (hd : d.Like view d')
    (container : Container) : f'.restriction d' container = f.restriction d container := by
  have hnone : d'.initializer.isNone = d.initializer.isNone := by
    rw [← Option.not_isSome, ← Option.not_isSome, hd.initializer]
  simp only [Field.restriction, hf.modifiers, hnone]

/-- Variables of fields that look alike have the same outcome. -/
theorem classify (hf : f.Like view s c c' site site' f') (hd : d.Like view d') {t : Ty}
    (ht : t.Below c.table.symbols.length) :
    (f'.classify c' s site'.file d' t).map (FieldShape.seen view) =
      (f.classify c s site.file d t).map (FieldShape.seen view) := by
  rw [Field.classify, Field.classify, h.elementOf ht]
  cases hfound : c.elementOf t with
  | error reason => rfl
  | ok found =>
    obtain ⟨container, element⟩ := found
    simp only [restriction hf hd]
    cases f.restriction d container with
    | some reason => rfl
    | none =>
      simp only [Except.map, FieldShape.seen, h.fullName _ (below_of_elementOf ht hfound),
        hf.modifiers, hf.carried, hd.name, hd.initializer, hd.nameSpan]

variable {symbol symbol' : Symbol}

omit h in
theorem fieldNames (hsymbol : symbol.Like view s c c' symbol') :
    symbol'.fieldNames = symbol.fieldNames :=
  flatMap_eq_of_forall₂ hsymbol.sites fun _ _ hsite ↦
    flatMap_eq_of_forall₂ hsite.fields fun _ _ hf ↦
      map_eq_of_forall₂ hf.declarators fun _ _ hd ↦ hd.name

omit h in
theorem markedFields (hsite : site.Like view s c c' site') :
    List.Forall₂ (Field.Like view s c c' site site') (site.markedFields s)
      (site'.markedFields s) :=
  List.rel_filter (fun _ _ hf ↦ iff_of_eq (congrArg (· = true) hf.isMarked.symm)) hsite.fields

omit h in
theorem below_fieldType (hc : c.Contained) (site : Site) (f : Field) :
    (site.fieldType c f).Below c.table.symbols.length := hc.resolve site.body f.type

omit h in
/-- Outcomes that are seen alike give shapes that are seen alike. -/
theorem toOption_withoutClash {o o' : Except SkipReason FieldShape} {names : List String}
    (ho : o'.map (FieldShape.seen view) = o.map (FieldShape.seen view)) :
    (Symbol.withoutClash names o').toOption.map (FieldShape.seen view) =
      (Symbol.withoutClash names o).toOption.map (FieldShape.seen view) := by
  cases o with
  | error reason =>
    cases o' with
    | error reason' => rfl
    | ok shape' => cases ho
  | ok shape =>
    cases o' with
    | error reason' => cases ho
    | ok shape' =>
      have hshape : shape'.seen view = shape.seen view := Except.ok.inj ho
      have hname : (shape'.seen view).backingName = (shape.seen view).backingName := by rw [hshape]
      rw [FieldShape.seen, FieldShape.seen] at hname
      rw [Symbol.withoutClash, Symbol.withoutClash, hname]
      split
      · rfl
      · exact congrArg some hshape

theorem ownShapes (hsymbol : symbol.Like view s c c' symbol') :
    (symbol'.ownShapes c' s).map (FieldShape.seen view) =
      (symbol.ownShapes c s).map (FieldShape.seen view) := by
  simp only [Symbol.ownShapes, Symbol.ownOutcomes, List.filterMap_flatMap, List.map_flatMap,
    List.filterMap_map, List.map_filterMap, fieldNames hsymbol]
  refine flatMap_eq_of_forall₂ hsymbol.sites fun site site' hsite ↦ ?_
  refine flatMap_eq_of_forall₂ (markedFields hsite) fun f f' hf ↦ ?_
  simp only [Site.classify, List.filterMap_map]
  refine filterMap_eq_of_forall₂ hf.declarators fun d d' hd ↦ toOption_withoutClash ?_
  simp only
  rw [hf.type]
  exact h.classify hf hd (below_fieldType h.contained site f)

section Inherited

variable {id : TypeId} (hid : id < c.table.symbols.length)
include hid

theorem closedBase? : c'.closedBase? id = c.closedBase? id := by
  rw [Compilation.closedBase?, Compilation.closedBase?, h.base? hid]

omit h hid in
theorem below_of_closedBase? (hc : c.Contained) {below : TypeId} {base : Ty}
    (hclosed : c.closedBase? id = some (below, base)) :
    below < c.table.symbols.length ∧ base.Below c.table.symbols.length := by
  obtain ⟨hbase, hbelow, -⟩ := closedBase?_eq_some_iff.mp hclosed
  obtain ⟨symbol, hsymbol, hsome⟩ := Option.bind_eq_some_iff.mp hbase
  exact ⟨base_lt hc (by rw [hbase]; exact hbelow), hc.base id symbol hsymbol base hsome⟩

theorem openFields : List.Forall₂ (fun p p' : Site × Field ↦
      p.2.Like view s c c' p.1 p'.1 p'.2)
    (c.openFields s id) (c'.openFields s id) := by
  obtain ⟨symbol, symbol', hsymbol, hsymbol', hlike⟩ := h.exists_like hid
  rw [Compilation.openFields, Compilation.openFields, hsymbol, hsymbol']
  refine List.rel_flatMap hlike.sites fun site site' hsite ↦ ?_
  refine List.forall₂_map_left_iff.2 (List.forall₂_map_right_iff.2
    (List.rel_filter (fun f f' hf ↦ ?_) (markedFields hsite)))
  exact iff_of_eq (congrArg (Ty.mentionsParamsOf id · = true) hf.type.symm)

end Inherited

/-- The inherited field, if a variable becomes one. -/
theorem inherit {base : Ty} (hbase : base.Below c.table.symbols.length)
    (hf : f.Like view s c c' site site' f') (hd : d.Like view d') :
    ((c'.inherit s base site' f' d').field?).map (InheritedField.seen view) =
      ((c.inherit s base site f d).field?).map (InheritedField.seen view) := by
  have hclassify := h.classify hf hd
    (below_substituteBase hbase (below_fieldType h.contained site f))
  rw [Compilation.inherit, Compilation.inherit, hf.modifiers, hf.type, h.substituteBase hbase,
    h.fullName base hbase, hf.openIdentifier]
  split
  · rfl
  · dsimp only
    revert hclassify
    cases f'.classify c' s site'.file d' (c.substituteBase base (site.fieldType c f)) with
    | error reason' =>
      cases f.classify c s site.file d (c.substituteBase base (site.fieldType c f)) with
      | error reason => exact fun _ ↦ rfl
      | ok shape => exact fun hclassify ↦ by cases hclassify
    | ok shape' =>
      cases f.classify c s site.file d (c.substituteBase base (site.fieldType c f)) with
      | error reason => exact fun hclassify ↦ by cases hclassify
      | ok shape =>
        intro hclassify
        have hshape : shape'.seen view = shape.seen view := Except.ok.inj hclassify
        simp only [Inheritance.field?, Option.map_some, InheritedField.seen, hshape]

theorem inheritedFields {id : TypeId} (hid : id < c.table.symbols.length) :
    (c'.inheritedFields s id).map (InheritedField.seen view) =
      (c.inheritedFields s id).map (InheritedField.seen view) := by
  rw [inheritedFields_eq, inheritedFields_eq, Compilation.inheritances, Compilation.inheritances,
    h.closedBase? hid]
  cases hclosed : c.closedBase? id with
  | none => rfl
  | some closed =>
    obtain ⟨below, base⟩ := closed
    obtain ⟨hbelow, hbase⟩ := below_of_closedBase? h.contained hclosed
    simp only [List.filterMap_flatMap, List.map_flatMap, List.map_filterMap, List.filterMap_map]
    refine flatMap_eq_of_forall₂ (h.openFields hbelow) fun p p' hp ↦ ?_
    exact filterMap_eq_of_forall₂ hp.declarators fun d d' hd ↦ h.inherit hbase hp hd

/-! ### Classes -/

theorem listsCallback {id : TypeId} (hid : c.symbol? id = some symbol)
    (hsymbol : symbol.Like view s c c' symbol') :
    symbol'.listsCallback c' s = symbol.listsCallback c s := by
  have hnames : (symbol.base.toList ++ symbol.interfaces).map c'.fullName =
      (symbol.base.toList ++ symbol.interfaces).map c.fullName := by
    refine List.map_congr_left fun t ht ↦ h.fullName t ?_
    rcases List.mem_append.1 ht with hbase | hinterface
    · exact h.contained.base id symbol hid t (Option.mem_toList.1 hbase)
    · exact h.contained.interfaces id symbol hid t hinterface
  have hany (c : Compilation) : symbol.listsCallback c s =
      ((symbol.base.toList ++ symbol.interfaces).map c.fullName).any s.host.isCallback := by
    rw [List.any_map]
    rfl
  rw [Symbol.listsCallback, hsymbol.base, hsymbol.interfaces, hany c, ← hnames]
  exact hany c'

omit h in
theorem usingTexts (hsymbol : symbol.Like view s c c' symbol') :
    symbol'.usingTexts c' = symbol.usingTexts c :=
  congrArg distinct (flatMap_eq_of_forall₂ hsymbol.sites fun _ _ hsite ↦ hsite.usings)

omit h in
theorem isPartial (hsymbol : symbol.Like view s c c' symbol') :
    symbol'.isPartial = symbol.isPartial := by
  have hmap (symbol : Symbol) : symbol.isPartial =
      (!(symbol.sites.map (·.decl.header.isPartial)).isEmpty &&
        (symbol.sites.map (·.decl.header.isPartial)).all id) := by
    rw [List.isEmpty_map, List.all_map]
    rfl
  rw [hmap, hmap, map_eq_of_forall₂ hsymbol.sites fun _ _ hsite ↦ hsite.isPartial]

section Known

variable {id : TypeId} (hid : id < c.table.symbols.length)
include hid

theorem isPartialType : c'.isPartialType id = c.isPartialType id := by
  rw [Compilation.isPartialType, Compilation.isPartialType,
    h.map_symbol? hid fun _ _ hlike ↦ isPartial hlike]

theorem isPartialChain : c'.isPartialChain id = c.isPartialChain id := by
  rw [Compilation.isPartialChain, Compilation.isPartialChain, h.isPartialType hid, h.enclosing hid]
  congr 1
  rw [Bool.eq_iff_iff, List.all_eq_true, List.all_eq_true]
  refine forall₂_congr fun outer houter ↦ ?_
  rw [h.isPartialType (lt_of_mem_enclosing hid h.contained outer houter)]

theorem hasCompanion : c'.hasCompanion s id = c.hasCompanion s id := by
  obtain ⟨symbol, symbol', hsymbol, hsymbol', hlike⟩ := h.exists_like hid
  have hown : (symbol'.ownShapes c' s).isEmpty = (symbol.ownShapes c s).isEmpty := by
    rw [← List.isEmpty_map (f := FieldShape.seen view), h.ownShapes hlike, List.isEmpty_map]
  have hinherited : (c'.inheritedFields s id).isEmpty = (c.inheritedFields s id).isEmpty := by
    rw [← List.isEmpty_map (f := InheritedField.seen view), h.inheritedFields hid,
      List.isEmpty_map]
  simp only [Compilation.hasCompanion, hsymbol, hsymbol', h.isPartialChain hid, hown, hinherited,
    Symbol.isClass, hlike.kind]

end Known

theorem ancestorsWithin (budget : Nat) {current : TypeId}
    (hcurrent : current < c.table.symbols.length) (seen : List TypeId) :
    c'.ancestorsWithin budget current seen = c.ancestorsWithin budget current seen := by
  induction budget generalizing current seen with
  | zero => rfl
  | succ budget ih =>
    rw [Compilation.ancestorsWithin, Compilation.ancestorsWithin, h.base? hcurrent]
    cases hbase : (c.base? current).bind Ty.id? with
    | none => rfl
    | some base => simp only [ih (base_lt h.contained hbase)]

section Known

variable {id : TypeId} (hid : id < c.table.symbols.length)
include hid

theorem ancestors : c'.ancestors id = c.ancestors id := by
  obtain ⟨more, hmore⟩ := Nat.exists_eq_add_of_le h.length_le
  rw [Compilation.ancestors, Compilation.ancestors, h.ancestorsWithin _ hid, hmore]
  exact ancestorsWithin_add h.contained more _ id [id] (List.nodup_singleton id)
    (fun i hi ↦ List.mem_singleton.1 hi ▸ hid) (Nat.le_add_right _ _)

end Known

omit h in
theorem lt_of_mem_ancestorsWithin (hc : c.Contained) {id : TypeId} :
    ∀ (budget : Nat) (current : TypeId) (seen : List TypeId),
      id ∈ c.ancestorsWithin budget current seen → id < c.table.symbols.length
  | 0, _, _, hid => by cases hid
  | budget + 1, current, seen, hid => by
    rw [Compilation.ancestorsWithin] at hid
    cases hbase : (c.base? current).bind Ty.id? with
    | none =>
      rw [hbase] at hid
      cases hid
    | some base =>
      rw [hbase] at hid
      simp only at hid
      split at hid
      · cases hid
      · rcases List.mem_cons.1 hid with rfl | hfar
        · exact base_lt hc hbase
        · exact lt_of_mem_ancestorsWithin hc budget base _ hfar

theorem above : ∀ ids : List TypeId, (∀ id ∈ ids, id < c.table.symbols.length) →
    c'.above s ids = c.above s ids
  | [], _ => rfl
  | id :: ids, hids => by
    have hid := hids id List.mem_cons_self
    have hlists : (c'.symbol? id).map (·.listsCallback c' s) =
        (c.symbol? id).map (·.listsCallback c s) := by
      obtain ⟨symbol, symbol', hsymbol, hsymbol', hlike⟩ := h.exists_like hid
      rw [hsymbol, hsymbol', Option.map_some, Option.map_some, h.listsCallback hsymbol hlike]
    rw [Compilation.above, Compilation.above, h.hasCompanion hid, hlists,
      above ids fun i hi ↦ hids i (List.mem_cons_of_mem _ hi)]

/-- Classes that are extended stay so. -/
theorem isExtended {id : TypeId} (hextended : c.isExtended s id = true) :
    c'.isExtended s id = true := by
  obtain ⟨⟨other, symbol⟩, hdeclared, hother⟩ := List.any_eq_true.1 hextended
  obtain ⟨hfirst, hsymbol⟩ := mem_declared_iff.mp hdeclared
  obtain ⟨symbol', hsymbol', hlike⟩ := h.symbol? other symbol hsymbol
  have hid := lt_length_of_symbol? hsymbol
  refine List.any_eq_true.2 ⟨(other, symbol'), mem_declared_iff.mpr ⟨hfirst, hsymbol'⟩, ?_⟩
  simpa only [h.ancestors hid, h.hasCompanion hid, Symbol.isClass, hlike.kind] using hother

theorem hookRole {id : TypeId} (hid : id < c.table.symbols.length) :
    (c.hookRole s id).Grows (c'.hookRole s id) := by
  have habove : c'.above s (c.ancestors id) = c.above s (c.ancestors id) :=
    h.above _ fun _ ↦ lt_of_mem_ancestorsWithin h.contained _ _ _
  rw [Compilation.hookRole, Compilation.hookRole, h.ancestors hid, habove]
  have hrole : HookRole.Grows (if c.isExtended s id then .root else .standalone)
      (if c'.isExtended s id then .root else .standalone) := by
    by_cases hextended : c.isExtended s id = true
    · rw [if_pos hextended, if_pos (h.isExtended hextended)]
      exact .same _
    · rw [if_neg hextended]
      split
      · exact .extended
      · exact .same _
  cases c.above s (c.ancestors id) with
  | companion => exact .same _
  | handWritten base => exact hrole
  | nothing => exact hrole

theorem containingTypes {id : TypeId} (hid : id < c.table.symbols.length) :
    (c'.enclosing id).filterMap c'.containingType =
      (c.enclosing id).filterMap c.containingType := by
  rw [h.enclosing hid]
  refine List.filterMap_congr fun outer houter ↦ ?_
  refine h.map_symbol? (lt_of_mem_enclosing hid h.contained outer houter) fun _ _ hlike ↦ ?_
  rw [hlike.name, hlike.kind, hlike.typeParams]

/-- A class and its like have one analysis up to places and up to the part of the companion, which
may grow. -/
theorem analysisOf {id : TypeId} (hid : c.symbol? id = some symbol)
    (hsymbol : symbol.Like view s c c' symbol') :
    (c.analysisOf s id symbol).hookRole.Grows (c'.analysisOf s id symbol').hookRole ∧
      (c'.analysisOf s id symbol').seen view =
        { (c.analysisOf s id symbol).seen view with
          hookRole := (c'.analysisOf s id symbol').hookRole } := by
  have hlt := lt_length_of_symbol? hid
  have hown : (symbol'.ownShapes c' s).isEmpty = (symbol.ownShapes c s).isEmpty := by
    rw [← List.isEmpty_map (f := FieldShape.seen view), h.ownShapes hsymbol, List.isEmpty_map]
  have hinherited : (c'.inheritedFields s id).isEmpty = (c.inheritedFields s id).isEmpty := by
    rw [← List.isEmpty_map (f := InheritedField.seen view), h.inheritedFields hlt,
      List.isEmpty_map]
  have hfile : (symbol'.sites.head?.map fun site ↦ c'.path site.file) =
      symbol.sites.head?.map fun site ↦ c.path site.file :=
    head?_map_eq_of_forall₂ hsymbol.sites fun _ _ hsite ↦ hsite.path
  have hspan : symbol'.sites.head?.map (fun site ↦ view site.decl.header.nameSpan) =
      symbol.sites.head?.map fun site ↦ view site.decl.header.nameSpan :=
    head?_map_eq_of_forall₂ hsymbol.sites fun _ _ hsite ↦ hsite.nameSpan
  have hview : view ((symbol'.sites.head?.map (·.decl.header.nameSpan)).getD (Span.point 0)) =
      view ((symbol.sites.head?.map (·.decl.header.nameSpan)).getD (Span.point 0)) := by
    cases hsites : symbol.sites.head? with
    | none =>
      rw [hsites] at hspan
      cases hsites' : symbol'.sites.head? with
      | none => rfl
      | some site' => rw [hsites'] at hspan; cases hspan
    | some site =>
      rw [hsites] at hspan
      cases hsites' : symbol'.sites.head? with
      | none => rw [hsites'] at hspan; cases hspan
      | some site' => rw [hsites'] at hspan; exact Option.some.inj hspan
  constructor
  · simp only [Compilation.analysisOf, hown, hinherited, h.isPartialChain hlt]
    split
    · exact h.hookRole hlt
    · exact .same _
  · simp only [Compilation.analysisOf, ClassAnalysis.seen, h.ownShapes hsymbol,
      h.inheritedFields hlt, hown, hinherited, h.isPartialChain hlt, hsymbol.name, hsymbol.space,
      hsymbol.typeParams, h.containingTypes hlt, h.listsCallback hid hsymbol, usingTexts hsymbol,
      hfile, hview]

/-- The analysis of a class that has its like. -/
theorem analyze {id : TypeId} {a : ClassAnalysis} {reports : List Diagnostic}
    (ha : c.analyze s id = some (a, reports)) :
    ∃ a' reports', c'.analyze s id = some (a', reports') ∧ a.hookRole.Grows a'.hookRole ∧
      a'.seen view = { a.seen view with hookRole := a'.hookRole } := by
  obtain ⟨symbol, hsymbol, heq⟩ := Option.map_eq_some_iff.mp ha
  obtain ⟨rfl, -⟩ := Prod.mk.inj heq
  obtain ⟨symbol', hsymbol', hlike⟩ := h.symbol? id symbol hsymbol
  have hanalyze : (c'.analyze s id).map Prod.fst = some (c'.analysisOf s id symbol') := by
    rw [Compilation.analyze, hsymbol']
    rfl
  obtain ⟨⟨a', reports'⟩, ha', rfl⟩ := Option.map_eq_some_iff.mp hanalyze
  exact ⟨_, reports', ha', h.analysisOf hsymbol hlike⟩

end Like
end Compilation
end Companion
