import Companion.Syntax.Predefined

/-!
Types that references stand for. A type is a declared type with arguments, a type parameter of its
owner, an array, a nullable type, a tuple, or a text that nothing declares. Substitution replaces
the parameters of one owner, by position.
-/

set_option autoImplicit false

namespace Companion

/-- The place of a type in the table of symbols. -/
abbrev TypeId := Nat

/-- The number of predefined types. They come first in every table. -/
def TypeId.list : TypeId := Predefined.all.length

/-- The first type that is declared in a source. -/
def TypeId.firstDeclared : TypeId := TypeId.list + 1

/-- Whether the type is known before any source is read. -/
def TypeId.isWellKnown (id : TypeId) : Bool := decide (id < TypeId.firstDeclared)

inductive Ty where
  | named (id : TypeId) (args : List Ty)
  | param (name : String) (owner : TypeId)
  | array (element : Ty) (rank : Nat)
  | nullable (inner : Ty)
  | tuple (elements : List Ty)
  | unresolved (text : String)
  deriving Repr, Inhabited

namespace Ty

/-! Equality. -/

mutual

def beq : Ty → Ty → Bool
  | named i as, named j bs => i == j && beqAll as bs
  | param x i, param y j => x == y && i == j
  | array a r, array b s => beq a b && r == s
  | nullable a, nullable b => beq a b
  | tuple as, tuple bs => beqAll as bs
  | unresolved x, unresolved y => x == y
  | _, _ => false

def beqAll : List Ty → List Ty → Bool
  | [], [] => true
  | a :: as, b :: bs => beq a b && beqAll as bs
  | _, _ => false

end

mutual

theorem beq_refl : ∀ a : Ty, beq a a = true
  | named _ as => by simp [beq, beqAll_refl as]
  | param _ _ => by simp [beq]
  | array a _ => by simp [beq, beq_refl a]
  | nullable a => by simp [beq, beq_refl a]
  | tuple as => by simp [beq, beqAll_refl as]
  | unresolved _ => by simp [beq]

theorem beqAll_refl : ∀ as : List Ty, beqAll as as = true
  | [] => by simp [beqAll]
  | a :: as => by simp [beqAll, beq_refl a, beqAll_refl as]

end

mutual

theorem eq_of_beq : ∀ a b : Ty, beq a b = true → a = b
  | named i as, b, h => by
    cases b <;> simp only [beq, Bool.and_eq_true, beq_iff_eq, Bool.false_eq_true] at h
    obtain ⟨rfl, h⟩ := h
    rw [eq_of_beqAll as _ h]
  | param _ _, b, h => by
    cases b <;> simp only [beq, Bool.and_eq_true, beq_iff_eq, Bool.false_eq_true] at h
    obtain ⟨rfl, rfl⟩ := h
    rfl
  | array a _, b, h => by
    cases b <;> simp only [beq, Bool.and_eq_true, beq_iff_eq, Bool.false_eq_true] at h
    obtain ⟨h, rfl⟩ := h
    rw [eq_of_beq a _ h]
  | nullable a, b, h => by
    cases b <;> simp only [beq, Bool.false_eq_true] at h
    rw [eq_of_beq a _ h]
  | tuple as, b, h => by
    cases b <;> simp only [beq, Bool.false_eq_true] at h
    rw [eq_of_beqAll as _ h]
  | unresolved _, b, h => by
    cases b <;> simp only [beq, beq_iff_eq, Bool.false_eq_true] at h
    rw [h]

theorem eq_of_beqAll : ∀ as bs : List Ty, beqAll as bs = true → as = bs
  | [], bs, h => by
    cases bs <;> simp only [beqAll, Bool.false_eq_true] at h
    rfl
  | a :: as, bs, h => by
    cases bs <;> simp only [beqAll, Bool.and_eq_true, Bool.false_eq_true] at h
    rw [eq_of_beq a _ h.1, eq_of_beqAll as _ h.2]

end

instance : DecidableEq Ty := fun a b =>
  decidable_of_iff (beq a b = true) ⟨eq_of_beq a b, fun h => h ▸ beq_refl a⟩

/-! Parts of a type. -/

/-- The type of a predefined keyword. -/
def ofPredefined (p : Predefined) : Ty := named p.index []

/-- The symbol of a named type. -/
def id? : Ty → Option TypeId
  | named id _ => some id
  | _ => none

/-- The arguments of a named type. -/
def args : Ty → List Ty
  | named _ as => as
  | _ => []

/-- The type without the question marks around it. -/
def stripNullable : Ty → Ty
  | nullable inner => stripNullable inner
  | t => t

mutual

/-- Whether a type parameter for which `p` holds occurs anywhere inside. -/
def anyParam (p : String → TypeId → Bool) : Ty → Bool
  | named _ as => anyParamAll p as
  | param name owner => p name owner
  | array e _ => anyParam p e
  | nullable i => anyParam p i
  | tuple es => anyParamAll p es
  | unresolved _ => false

def anyParamAll (p : String → TypeId → Bool) : List Ty → Bool
  | [] => false
  | t :: ts => anyParam p t || anyParamAll p ts

end

/-- Whether any type parameter occurs inside. -/
def hasParam (t : Ty) : Bool := t.anyParam fun _ _ => true

/-- Whether a type parameter of `owner` occurs inside. -/
def mentionsParamsOf (owner : TypeId) (t : Ty) : Bool := t.anyParam fun _ o => o == owner

/-- Whether the type is generic with every argument settled. -/
def isClosedGeneric : Ty → Bool
  | named id as => !as.isEmpty && !(named id as).hasParam
  | _ => false

mutual

/-- The type with every parameter replaced for which `f` has something else. -/
def replaceParams (f : String → TypeId → Option Ty) : Ty → Ty
  | named id as => named id (replaceParamsAll f as)
  | param name owner => (f name owner).getD (param name owner)
  | array e rank => array (replaceParams f e) rank
  | nullable i => nullable (replaceParams f i)
  | tuple es => tuple (replaceParamsAll f es)
  | unresolved text => unresolved text

def replaceParamsAll (f : String → TypeId → Option Ty) : List Ty → List Ty
  | [] => []
  | t :: ts => replaceParams f t :: replaceParamsAll f ts

end

/-- The argument at the place where a name first stands among the parameters. -/
def argumentFor : List String → List Ty → String → Option Ty
  | p :: ps, a :: as, name => if p = name then some a else argumentFor ps as name
  | _, _, _ => none

/-- The type with the parameters of `owner` replaced by arguments. A parameter without an argument
stays. -/
def substitute (owner : TypeId) (params : List String) (args : List Ty) (t : Ty) : Ty :=
  t.replaceParams fun name o => if o = owner then argumentFor params args name else none

end Ty
end Companion
