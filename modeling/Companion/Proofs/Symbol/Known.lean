import Companion.Proofs.Run.Candidates
import Companion.Proofs.Symbol.Structure
import Companion.Proofs.Symbol.WellFormed

/-!
A compilation refers to nothing but its own types. Types are numbered by their places in the table,
so a type is known if all numbers in it are below the number of symbols; whatever a reference stands
for is known, and so are the bases of every symbol and the types around it.
-/

set_option autoImplicit false
set_option relaxedAutoImplicit false

namespace Companion

namespace Ty

mutual

/-- The numbers of all types that are named inside are below a bound. -/
def Below (bound : Nat) : Ty → Prop
  | named id args => id < bound ∧ AllBelow bound args
  | param _ _ => True
  | array e _ => Below bound e
  | nullable i => Below bound i
  | tuple es => AllBelow bound es
  | unresolved _ => True

def AllBelow (bound : Nat) : List Ty → Prop
  | [] => True
  | t :: ts => Below bound t ∧ AllBelow bound ts

end

variable {bound : Nat}

theorem allBelow_iff {ts : List Ty} : AllBelow bound ts ↔ ∀ t ∈ ts, t.Below bound := by
  induction ts with
  | nil => exact ⟨fun _ _ h ↦ absurd h List.not_mem_nil, fun _ ↦ trivial⟩
  | cons t ts ih => rw [AllBelow, ih, List.forall_mem_cons]

mutual

theorem WellFormed.below {t : Table} {around : List TypeId} :
    ∀ ty : Ty, ty.WellFormed t around → ty.Below t.symbols.length
  | named _ args, h => by
    obtain ⟨⟨s, hs, -⟩, hargs⟩ := h
    exact ⟨(List.getElem?_eq_some_iff.mp hs).1, AllWellFormed.below args hargs⟩
  | param _ _, _ => trivial
  | array e _, h => WellFormed.below e h
  | nullable i, h => WellFormed.below i h
  | tuple es, h => AllWellFormed.below es h
  | unresolved _, _ => trivial

theorem AllWellFormed.below {t : Table} {around : List TypeId} :
    ∀ tys : List Ty, AllWellFormed t around tys → AllBelow t.symbols.length tys
  | [], _ => trivial
  | ty :: tys, h => ⟨WellFormed.below ty h.1, AllWellFormed.below tys h.2⟩

end

mutual

theorem Below.replaceParams {f : String → TypeId → Option Ty}
    (hf : ∀ name owner ty, f name owner = some ty → ty.Below bound) :
    ∀ ty : Ty, ty.Below bound → (ty.replaceParams f).Below bound
  | named _ args, ⟨hid, hargs⟩ => ⟨hid, AllBelow.replaceParams hf args hargs⟩
  | param name owner, _ => by
    rw [Ty.replaceParams]
    cases hfound : f name owner with
    | none => trivial
    | some ty => exact hf name owner ty hfound
  | array e _, h => Below.replaceParams hf e h
  | nullable i, h => Below.replaceParams hf i h
  | tuple es, h => AllBelow.replaceParams hf es h
  | unresolved _, _ => trivial

theorem AllBelow.replaceParams {f : String → TypeId → Option Ty}
    (hf : ∀ name owner ty, f name owner = some ty → ty.Below bound) :
    ∀ tys : List Ty, AllBelow bound tys → AllBelow bound (replaceParamsAll f tys)
  | [], _ => trivial
  | ty :: tys, h => ⟨Below.replaceParams hf ty h.1, AllBelow.replaceParams hf tys h.2⟩

end

theorem Below.substitute {owner : TypeId} {params : List String} {args : List Ty} {ty : Ty}
    (hargs : AllBelow bound args) (h : ty.Below bound) :
    (ty.substitute owner params args).Below bound := by
  refine Below.replaceParams (fun name other a ha ↦ ?_) ty h
  by_cases hother : other = owner
  · rw [if_pos hother] at ha
    exact allBelow_iff.1 hargs a (mem_of_argumentFor ha)
  · rw [if_neg hother] at ha
    cases ha

theorem Below.stripNullable : ∀ ty : Ty, ty.Below bound → ty.stripNullable.Below bound
  | nullable i, h => Below.stripNullable i h
  | named _ _, h | param _ _, h | array _ _, h | tuple _, h | unresolved _, h => h

end Ty

namespace Table

variable {t : Table} {symbol : Symbol}

/-- The interfaces of a type stand in the base lists of its declarations. -/
theorem exists_of_mem_interfaces {ty : Ty} (h : ty ∈ (t.basesOf symbol).2) :
    ∃ site ∈ symbol.sites, ∃ r ∈ site.decl.header.bases, t.resolve site.body r = ty := by
  have hfold : ∀ (written : List (Ty × Bool)) (taken : Option Ty × List Ty),
      ty ∈ (written.foldl (t.takeBase symbol) taken).2 →
        ty ∈ taken.2 ∨ ∃ first, (ty, first) ∈ written := by
    intro written
    induction written with
    | nil => exact fun _ htaken ↦ .inl htaken
    | cons w ws ih =>
      intro taken htaken
      rcases ih _ htaken with hhere | ⟨first, hlater⟩
      · obtain ⟨base, interfaces⟩ := taken
        rw [takeBase] at hhere
        split at hhere
        · exact .inl hhere
        · split at hhere
          · exact .inl hhere
          · rcases List.mem_append.1 hhere with hbefore | hnew
            · exact .inl hbefore
            · rw [List.mem_singleton.1 hnew]
              exact .inr ⟨w.2, List.mem_cons_self⟩
      · exact .inr ⟨first, List.mem_cons_of_mem _ hlater⟩
  rcases hfold _ _ h with hnone | ⟨first, hmem⟩
  · cases hnone
  obtain ⟨site, hsite, hwritten⟩ := List.mem_flatMap.mp hmem
  obtain ⟨i, hi, heq⟩ := List.mem_mapIdx.mp hwritten
  exact ⟨site, hsite, _, List.getElem_mem hi, (Prod.mk.inj heq).1⟩

/-- Whether a type is an interface depends on the symbols that it names. -/
theorem isInterface_congr {t t' : Table} {bound : Nat} {ty : Ty} (hty : ty.Below bound)
    (h : ∀ id < bound, (t'.symbol? id).map (·.kind) = (t.symbol? id).map (·.kind)) :
    t'.isInterface ty = t.isInterface ty := by
  have hkind : t'.kindOf ty = t.kindOf ty := by
    have hbelow := Ty.Below.stripNullable ty hty
    rw [kindOf, kindOf]
    cases hstrip : ty.stripNullable with
    | named id args =>
      rw [hstrip] at hbelow
      exact h id hbelow.1
    | _ => rfl
  rw [isInterface, isInterface, hkind]

theorem length_withBases : t.withBases.symbols.length = t.symbols.length := List.length_map _

end Table

namespace Compilation

/-- A compilation refers to nothing but its own types. -/
structure Contained (c : Compilation) : Prop where
  enclosing : ∀ id symbol, c.symbol? id = some symbol →
    ∀ outer ∈ symbol.enclosing, outer < c.table.symbols.length
  base : ∀ id symbol, c.symbol? id = some symbol →
    ∀ ty, symbol.base = some ty → ty.Below c.table.symbols.length
  interfaces : ∀ id symbol, c.symbol? id = some symbol →
    ∀ ty ∈ symbol.interfaces, ty.Below c.table.symbols.length
  resolve : ∀ scope r, (c.resolve scope r).Below c.table.symbols.length

variable {files : List SourceFile}

theorem lt_length_of_symbol? {c : Compilation} {id : TypeId} {symbol : Symbol}
    (h : c.symbol? id = some symbol) : id < c.table.symbols.length :=
  (List.getElem?_eq_some_iff.mp h).1

theorem lt_of_mem_enclosing (id : TypeId) : ∀ outer ∈ (ofFiles files).enclosing id, outer < id := by
  induction id using Nat.strong_induction_on with
  | h id ih =>
    intro outer houter
    rw [enclosing] at houter
    cases hsymbol : (ofFiles files).symbol? id with
    | none =>
      rw [hsymbol] at houter
      cases houter
    | some symbol =>
      rw [hsymbol, Option.map_some, Option.getD_some] at houter
      rcases enclosing_cases hsymbol with hnil | ⟨direct, hlt, heq⟩
      · rw [hnil] at houter
        cases houter
      · rw [heq, List.mem_append, List.mem_singleton] at houter
        rcases houter with hfar | rfl
        · exact Nat.lt_trans (ih direct hlt outer hfar) hlt
        · exact hlt

theorem contained_ofFiles (files : List SourceFile) : (ofFiles files).Contained := by
  have hlength : (ofFiles files).table.symbols.length = (Table.ofFiles files).symbols.length :=
    Table.length_withBases
  -- bases are resolved before the table has any
  have hbare : ∀ scope r,
      ((Table.ofFiles files).resolve scope r).Below (ofFiles files).table.symbols.length :=
    fun scope r ↦ hlength ▸
      Ty.WellFormed.below _ (Table.wellFormed_resolve (knowsPredefined_ofFiles files) scope r)
  refine ⟨?enclosing, ?base, ?interfaces, ?resolve⟩
  case enclosing =>
    intro id symbol hsymbol outer houter
    have hmem : outer ∈ (ofFiles files).enclosing id := by rw [enclosing, hsymbol]; exact houter
    exact Nat.lt_trans (lt_of_mem_enclosing id outer hmem) (lt_length_of_symbol? hsymbol)
  case base =>
    intro id symbol hsymbol ty hty
    rw [symbol?_ofFiles, Option.map_eq_some_iff] at hsymbol
    obtain ⟨s, -, rfl⟩ := hsymbol
    obtain ⟨site, -, r, -, rfl⟩ := Table.exists_head_of_basesOf hty
    exact hbare _ _
  case interfaces =>
    intro id symbol hsymbol ty hty
    rw [symbol?_ofFiles, Option.map_eq_some_iff] at hsymbol
    obtain ⟨s, -, rfl⟩ := hsymbol
    obtain ⟨site, -, r, -, rfl⟩ := Table.exists_of_mem_interfaces hty
    exact hbare _ _
  case resolve => exact fun scope r ↦
    Ty.WellFormed.below _ (Table.wellFormed_resolve knowsPredefined scope r)

end Compilation
end Companion
