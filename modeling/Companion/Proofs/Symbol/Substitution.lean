import Companion.Proofs.Symbol.FullNames

/-!
Laws of substitution. Replacing the parameters of one owner leaves those of all others where they
are; if there is an argument for each of them, and none that mentions the owner again, no parameter
of the owner is left, and what parameters there are come from the type or from an argument that was
put into it. Parameters of two owners can be replaced in either order, as long as what is put in for
the second does not mention the first.
-/

set_option autoImplicit false
set_option relaxedAutoImplicit false

namespace Companion

namespace Ty

open Compilation (namesIn)

/-! ### Replacing parameters -/

theorem replaceParamsAll_eq_map (f : String → TypeId → Option Ty) (ts : List Ty) :
    replaceParamsAll f ts = ts.map (replaceParams f) := by
  induction ts with
  | nil => rfl
  | cons t ts ih => rw [replaceParamsAll, ih, List.map_cons]

mutual

/-- A parameter occurs behind a replacement where it was left, or in what was put in. -/
theorem anyParam_replaceParams (p : String → TypeId → Bool) (f : String → TypeId → Option Ty) :
    ∀ t : Ty, (t.replaceParams f).anyParam p =
      t.anyParam fun name owner ↦ ((f name owner).map (anyParam p)).getD (p name owner)
  | named _ args => anyParamAll_replaceParams p f args
  | param name owner => by
    rw [replaceParams, anyParam]
    cases f name owner <;> rfl
  | array e _ => anyParam_replaceParams p f e
  | nullable i => anyParam_replaceParams p f i
  | tuple es => anyParamAll_replaceParams p f es
  | unresolved _ => rfl

theorem anyParamAll_replaceParams (p : String → TypeId → Bool)
    (f : String → TypeId → Option Ty) :
    ∀ ts : List Ty, anyParamAll p (replaceParamsAll f ts) =
      anyParamAll (fun name owner ↦ ((f name owner).map (anyParam p)).getD (p name owner)) ts
  | [] => rfl
  | t :: ts => by
    rw [replaceParamsAll, anyParamAll, anyParamAll, anyParam_replaceParams p f t,
      anyParamAll_replaceParams p f ts]

end

mutual

/-- Two replacements one after the other are one replacement. -/
theorem replaceParams_replaceParams (f g : String → TypeId → Option Ty) :
    ∀ t : Ty, (t.replaceParams f).replaceParams g =
      t.replaceParams fun name owner ↦ ((f name owner).map (replaceParams g)).or (g name owner)
  | named _ args => congrArg (named _) (replaceParamsAll_replaceParamsAll f g args)
  | param name owner => by
    rw [replaceParams, replaceParams]
    cases f name owner with
    | none => rw [Option.getD_none, Option.map_none, Option.none_or, replaceParams]
    | some a => rw [Option.getD_some, Option.map_some, Option.some_or, Option.getD_some]
  | array e rank => congrArg (array · rank) (replaceParams_replaceParams f g e)
  | nullable i => congrArg nullable (replaceParams_replaceParams f g i)
  | tuple es => congrArg tuple (replaceParamsAll_replaceParamsAll f g es)
  | unresolved _ => rfl

theorem replaceParamsAll_replaceParamsAll (f g : String → TypeId → Option Ty) :
    ∀ ts : List Ty, replaceParamsAll g (replaceParamsAll f ts) =
      replaceParamsAll
        (fun name owner ↦ ((f name owner).map (replaceParams g)).or (g name owner)) ts
  | [] => rfl
  | t :: ts => by
    rw [replaceParamsAll, replaceParamsAll, replaceParamsAll, replaceParams_replaceParams f g t,
      replaceParamsAll_replaceParamsAll f g ts]

end

mutual

/-- A type in which no parameter is replaced stays as it is. -/
theorem replaceParams_eq_self {f : String → TypeId → Option Ty} :
    ∀ t : Ty, (t.anyParam fun name owner ↦ (f name owner).isSome) = false → t.replaceParams f = t
  | named _ args, h => congrArg (named _) (replaceParamsAll_eq_self args h)
  | param name owner, h => by
    rw [anyParam, Option.isSome_eq_false_iff, Option.isNone_iff_eq_none] at h
    rw [replaceParams, h, Option.getD_none]
  | array e rank, h => congrArg (array · rank) (replaceParams_eq_self e h)
  | nullable i, h => congrArg nullable (replaceParams_eq_self i h)
  | tuple es, h => congrArg tuple (replaceParamsAll_eq_self es h)
  | unresolved _, _ => rfl

theorem replaceParamsAll_eq_self {f : String → TypeId → Option Ty} :
    ∀ ts : List Ty, anyParamAll (fun name owner ↦ (f name owner).isSome) ts = false →
      replaceParamsAll f ts = ts
  | [], _ => rfl
  | t :: ts, h => by
    rw [anyParamAll, Bool.or_eq_false_iff] at h
    rw [replaceParamsAll, replaceParams_eq_self t h.1, replaceParamsAll_eq_self ts h.2]

end

/-! ### Arguments by position -/

/-- The argument for a name stands where the name first stands among the parameters. -/
theorem argumentFor_eq (params : List String) (args : List Ty) (name : String) :
    argumentFor params args name = (params.findIdx? (· = name)).bind fun i ↦ args[i]? := by
  induction params generalizing args with
  | nil => rfl
  | cons p ps ih =>
    rw [List.findIdx?_cons]
    cases args with
    | nil =>
      rw [argumentFor]
      · simp
      · exact nofun
    | cons a as =>
      rw [argumentFor, ih]
      by_cases hname : p = name
      · simp [hname]
      · rw [if_neg hname, if_neg (by simpa using hname), Option.bind_map]
        rfl

theorem argumentFor_map (f : Ty → Ty) (params : List String) (args : List Ty) (name : String) :
    argumentFor params (args.map f) name = (argumentFor params args name).map f := by
  simp only [argumentFor_eq, List.getElem?_map, Option.map_bind, Function.comp_def]

theorem mem_of_argumentFor {params : List String} {args : List Ty} {name : String} {a : Ty}
    (h : argumentFor params args name = some a) : a ∈ args := by
  rw [argumentFor_eq] at h
  obtain ⟨i, -, hi⟩ := Option.bind_eq_some_iff.mp h
  exact List.mem_of_getElem? hi

/-- Each of the first parameters has an argument, if there are that many. -/
theorem exists_argumentFor_of_mem_take {params : List String} {args : List Ty} {name : String}
    (h : name ∈ params.take args.length) : ∃ a ∈ args, argumentFor params args name = some a := by
  induction params generalizing args with
  | nil =>
    rw [List.take_nil] at h
    cases h
  | cons p ps ih =>
    cases args with
    | nil => cases h
    | cons a as =>
      rw [argumentFor]
      by_cases hname : p = name
      · exact ⟨a, List.mem_cons_self, if_pos hname⟩
      · rw [List.length_cons, List.take_succ_cons] at h
        obtain ⟨a', ha', heq⟩ := ih ((List.mem_cons.mp h).resolve_left (Ne.symm hname))
        exact ⟨a', List.mem_cons_of_mem _ ha', (if_neg hname).trans heq⟩

/-! ### Substitution -/

/-- An argument is put into a type for a parameter of `owner`. -/
def IsPutInto (a t : Ty) (owner : TypeId) (params : List String) (args : List Ty) : Prop :=
  ∃ name i, param name owner ∈ namesIn t ∧ params.findIdx? (· = name) = some i ∧ args[i]? = some a

/-- The parameters in a type when those of `owner` have been replaced. -/
structure Closes (result t : Ty) (owner : TypeId) (params : List String) (args : List Ty) :
    Prop where
  /-- No parameter of the owner is left. -/
  not_mentions : result.mentionsParamsOf owner = false
  /-- Parameters are those of other owners, or come with an argument that was put in. -/
  hasParam_iff : result.hasParam = true ↔
    (∃ name other, other ≠ owner ∧ param name other ∈ namesIn t) ∨
      ∃ a : Ty, a.IsPutInto t owner params args ∧ a.hasParam = true

variable {t : Ty} {owner other : TypeId} {params params' : List String} {args args' : List Ty}

theorem isPutInto_iff {a : Ty} : a.IsPutInto t owner params args ↔
    ∃ name, param name owner ∈ namesIn t ∧ argumentFor params args name = some a := by
  simp only [IsPutInto, argumentFor_eq, Option.bind_eq_some_iff, exists_and_left]

theorem mentionsParamsOf_iff : t.mentionsParamsOf owner = true ↔
    ∃ name, param name owner ∈ namesIn t := by
  rw [mentionsParamsOf, Compilation.anyParam_iff]
  constructor
  · rintro ⟨name, other, hmem, heq⟩
    exact ⟨name, beq_iff_eq.mp heq ▸ hmem⟩
  · rintro ⟨name, hmem⟩
    exact ⟨name, owner, hmem, beq_self_eq_true owner⟩

/-- What occurs in a type behind a substitution: what occurs in the type outside of the parameters
of the owner, and what occurs in what stands for these. -/
theorem anyParam_substitute_iff (p : String → TypeId → Bool)
    (hcovered : ∀ name, param name owner ∈ namesIn t → name ∈ params.take args.length) :
    (t.substitute owner params args).anyParam p = true ↔
      (∃ name other, other ≠ owner ∧ param name other ∈ namesIn t ∧ p name other = true) ∨
        ∃ a : Ty, a.IsPutInto t owner params args ∧ a.anyParam p = true := by
  rw [substitute, anyParam_replaceParams, Compilation.anyParam_iff]
  constructor
  · rintro ⟨name, other, hmem, hp⟩
    by_cases hother : other = owner
    · subst hother
      obtain ⟨a, -, ha⟩ := exists_argumentFor_of_mem_take (hcovered name hmem)
      rw [if_pos rfl, ha] at hp
      exact .inr ⟨a, isPutInto_iff.mpr ⟨name, hmem, ha⟩, hp⟩
    · rw [if_neg hother] at hp
      exact .inl ⟨name, other, hother, hmem, hp⟩
  · rintro (⟨name, other, hother, hmem, hp⟩ | ⟨a, hput, hp⟩)
    · refine ⟨name, other, hmem, ?_⟩
      rwa [if_neg hother]
    · obtain ⟨name, hmem, ha⟩ := isPutInto_iff.mp hput
      refine ⟨name, owner, hmem, ?_⟩
      rwa [if_pos rfl, ha]

/-- With an argument for each parameter of the owner in a type, none of which mentions the owner,
substitution closes the type. -/
theorem closes_substitute (hargs : ∀ a ∈ args, a.mentionsParamsOf owner = false)
    (hcovered : ∀ name, param name owner ∈ namesIn t → name ∈ params.take args.length) :
    (t.substitute owner params args).Closes t owner params args := by
  constructor
  case not_mentions =>
    rw [← Bool.not_eq_true, mentionsParamsOf, anyParam_substitute_iff _ hcovered]
    rintro (⟨name, other, hother, -, hsame⟩ | ⟨a, ⟨name, i, -, -, hi⟩, hmentions⟩)
    · exact hother (beq_iff_eq.mp hsame)
    · have hfree := hargs a (List.mem_of_getElem? hi)
      exact Bool.false_ne_true (hfree.symm.trans hmentions)
  case hasParam_iff =>
    rw [hasParam, anyParam_substitute_iff _ hcovered]
    simp only [and_true]
    rfl

/-- A type that does not mention an owner has nothing to be replaced. -/
theorem substitute_eq_self (h : t.mentionsParamsOf owner = false) (params : List String)
    (args : List Ty) : t.substitute owner params args = t := by
  refine replaceParams_eq_self t ?_
  rw [← Bool.not_eq_true, Compilation.anyParam_iff]
  rintro ⟨name, other, hmem, hsome⟩
  by_cases hother : other = owner
  · subst hother
    exact Bool.false_ne_true (h.symm.trans (mentionsParamsOf_iff.mpr ⟨name, hmem⟩))
  · rw [if_neg hother] at hsome
    cases hsome

/-- Parameters of two owners are replaced in either order. -/
theorem substitute_comm (t : Ty) (hne : owner ≠ other)
    (hargs' : ∀ b ∈ args', b.mentionsParamsOf owner = false) :
    (t.substitute owner params args).substitute other params' args' =
      (t.substitute other params' args').substitute owner params
        (args.map fun a ↦ a.substitute other params' args') := by
  rw [substitute, substitute, substitute, substitute, replaceParams_replaceParams,
    replaceParams_replaceParams]
  congr 1
  funext name o
  by_cases howner : o = owner
  · subst howner
    rw [if_pos rfl, if_neg hne, if_pos rfl, Option.map_none, Option.none_or, Option.or_none,
      argumentFor_map]
    rfl
  · rw [if_neg howner, if_neg howner, Option.map_none, Option.none_or, Option.or_none]
    by_cases hother : o = other
    · rw [if_pos hother]
      cases hfound : argumentFor params' args' name with
      | none => rfl
      | some b =>
        rw [Option.map_some]
        exact congrArg some (substitute_eq_self (hargs' b (mem_of_argumentFor hfound)) _ _).symm
    · rw [if_neg hother, Option.map_none]

/-- Substitution closes a type for the owner it replaces, and substitutions for two owners can be
exchanged. -/
theorem closes_and_exchanges_substitute (t : Ty) {owner other : TypeId} (hne : owner ≠ other)
    (params params' : List String) (args args' : List Ty) :
    ((∀ a ∈ args, a.mentionsParamsOf owner = false) →
      (∀ name, param name owner ∈ namesIn t → name ∈ params.take args.length) →
      (t.substitute owner params args).Closes t owner params args) ∧
    ((∀ b ∈ args', b.mentionsParamsOf owner = false) →
      (t.substitute owner params args).substitute other params' args' =
        (t.substitute other params' args').substitute owner params
          (args.map fun a ↦ a.substitute other params' args')) :=
  ⟨closes_substitute, substitute_comm t hne⟩

/-- A type with parameters of two owners, at several depths. -/
def entangled : Ty :=
  .named 30 [.param "T" 20, .array (.param "U" 21) 1, .nullable (.tuple [.param "S" 20])]

/-- One argument is a parameter of the other owner, and one name stands twice among the
parameters, the second time without an argument. -/
theorem closes_and_exchanges_substitute_entangled :
    20 ≠ 21 ∧ (∀ a ∈ [Ty.param "U" 21, .named 3 []], a.mentionsParamsOf 20 = false) ∧
      (∀ name, param name 20 ∈ namesIn entangled → name ∈ ["T", "S", "T"].take 2) ∧
      (∀ b ∈ [Ty.named 4 []], b.mentionsParamsOf 20 = false) ∧
      (entangled.substitute 20 ["T", "S", "T"] [.param "U" 21, .named 3 []]).Closes entangled 20
        ["T", "S", "T"] [.param "U" 21, .named 3 []] ∧
      (entangled.substitute 20 ["T", "S", "T"] [.param "U" 21, .named 3 []]).substitute 21 ["U"]
          [.named 4 []] =
        (entangled.substitute 21 ["U"] [.named 4 []]).substitute 20 ["T", "S", "T"]
          [.named 4 [], .named 3 []] ∧
      (entangled.substitute 20 ["T", "S", "T"] [.param "U" 21, .named 3 []]).substitute 21 ["U"]
          [.named 4 []] =
        .named 30 [.named 4 [], .array (.named 4 []) 1, .nullable (.tuple [.named 3 []])] := by
  have hargs : ∀ a ∈ [Ty.param "U" 21, .named 3 []], a.mentionsParamsOf 20 = false := by decide
  have hcovered : ∀ name, param name 20 ∈ namesIn entangled → name ∈ ["T", "S", "T"].take 2 := by
    intro name h
    simpa [entangled, Compilation.namesIn, Compilation.namesInAll] using h
  have hargs' : ∀ b ∈ [Ty.named 4 []], b.mentionsParamsOf 20 = false := by decide
  obtain ⟨hcloses, hexchanges⟩ := closes_and_exchanges_substitute entangled (by decide : 20 ≠ 21)
    ["T", "S", "T"] ["U"] [.param "U" 21, .named 3 []] [.named 4 []]
  exact ⟨by decide, hargs, hcovered, hargs', hcloses hargs hcovered, hexchanges hargs', by decide⟩

end Ty

namespace Compilation

/-- A base and then the base of that: what a body says is seen from a class at once if the base is
seen from the class first. -/
theorem substituteBase_substituteBase (c : Compilation) {id other : TypeId} (hne : id ≠ other)
    {args args' : List Ty} (hargs' : ∀ b ∈ args', b.mentionsParamsOf id = false) (t : Ty) :
    c.substituteBase (.named other args') (c.substituteBase (.named id args) t) =
      c.substituteBase (c.substituteBase (.named other args') (.named id args))
        (c.substituteBase (.named other args') t) := by
  have hbase : c.substituteBase (.named other args') (.named id args) =
      .named id (args.map fun a ↦ c.substituteBase (.named other args') a) := by
    rw [substituteBase, Ty.substitute, Ty.replaceParams, Ty.replaceParamsAll_eq_map]
    rfl
  rw [hbase]
  exact Ty.substitute_comm t hne hargs'

end Compilation
end Companion
