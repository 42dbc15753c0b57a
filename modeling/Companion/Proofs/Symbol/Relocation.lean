import Companion.Proofs.Grammar.Relocation
import Companion.Proofs.Symbol.Declarations
import Companion.Proofs.Symbol.Placeless

/-!
Declarations at other places. What a text declares where it stands elsewhere is declared again, in
the same namespaces and under the same paths.
-/

set_option autoImplicit false
set_option relaxedAutoImplicit false

namespace Companion

variable (g : Span → Span)

/-- A level with the places of its directives changed. -/
def Level.relocated : Level → Level
  | type id => type id
  | space name usings => space name (usings.map (Using.relocated g))
  | unit usings => unit (usings.map (Using.relocated g))

/-- A declaration with every place changed, in a scope with every place changed. -/
def Declaration.relocated (d : Declaration) : Declaration :=
  ⟨d.file, d.decl.relocated g, d.path, d.outside.map (Level.relocated g)⟩

theorem Level.relocated_nowhere (l : Level) : l.relocated (fun _ ↦ nowhere) = l.placeless := by
  have husings : Using.relocated (fun _ ↦ nowhere) = Using.placeless :=
    funext Using.relocated_nowhere
  cases l <;> simp only [relocated, placeless, husings]

theorem Level.relocated_id (l : Level) : l.relocated id = l := by
  have husing : Using.relocated id = id := funext Using.relocated_id
  cases l <;> simp only [relocated, husing, List.map_id]

theorem Declaration.relocated_id (d : Declaration) : d.relocated id = d := by
  have hlevel : Level.relocated id = id := funext Level.relocated_id
  rw [relocated, TypeDecl.relocated_id, hlevel, List.map_id]

/-! ### Declarations of a tree at other places -/

variable {g}

theorem TypeHeader.arity_relocated (h : TypeHeader) : (h.relocated g).arity = h.arity :=
  List.length_map _

mutual

theorem TypeDecl.declarations_relocated (file : Nat) (outside : Scope) (space : Space) :
    ∀ (d : TypeDecl) (chain : List (String × Nat)),
      (d.relocated g).declarations file (outside.map (Level.relocated g)) space chain =
        (d.declarations file outside space chain).map (Declaration.relocated g)
  | .mk h ms, chain => by
    rw [TypeDecl.relocated, TypeDecl.declarations, TypeDecl.declarations, List.map_cons,
      h.arity_relocated, Declaration.relocated, TypeDecl.relocated]
    exact congrArg _ (Member.declarations_relocated file outside space ms _)

theorem Member.declarations_relocated (file : Nat) (outside : Scope) (space : Space) :
    ∀ (ms : List Member) (chain : List (String × Nat)),
      Member.declarations file (outside.map (Level.relocated g)) space chain
          (Member.allRelocated g ms) =
        (Member.declarations file outside space chain ms).map (Declaration.relocated g)
  | [], _ => rfl
  | .type d :: ms, chain => by
    rw [Member.allRelocated, Member.relocated, Member.declarations, Member.declarations,
      List.map_append, TypeDecl.declarations_relocated file outside space d,
      Member.declarations_relocated file outside space ms]
  | .field _ :: ms, chain => Member.declarations_relocated file outside space ms chain
  | .other _ :: ms, chain => Member.declarations_relocated file outside space ms chain

end

theorem Table.openSpace_cons_cons (scope : Scope) (outer : Space) (usings : List Using)
    (part next : String) (rest : List String) :
    openSpace scope outer usings (part :: next :: rest) =
      ((outer ++ [part]) ::
        (openSpace (.space (outer ++ [part]) [] :: scope) (outer ++ [part]) usings
          (next :: rest)).1,
        (openSpace (.space (outer ++ [part]) [] :: scope) (outer ++ [part]) usings
          (next :: rest)).2) := rfl

/-- Opening a namespace around places that are changed. -/
theorem Table.openSpace_relocated (usings : List Using) :
    ∀ (parts : List String) (scope : Scope) (outer : Space),
      openSpace (scope.map (Level.relocated g)) outer (usings.map (Using.relocated g)) parts =
        ((openSpace scope outer usings parts).1,
          (openSpace scope outer usings parts).2.1.map (Level.relocated g),
          (openSpace scope outer usings parts).2.2)
  | [], _, _ => rfl
  | [_], _, _ => rfl
  | part :: next :: rest, scope, outer => by
    have ih := openSpace_relocated usings (next :: rest)
      (.space (outer ++ [part]) [] :: scope) (outer ++ [part])
    rw [List.map_cons, Level.relocated, List.map_nil] at ih
    rw [openSpace_cons_cons, openSpace_cons_cons, ih]

mutual

theorem Item.declarations_relocated (file : Nat) :
    ∀ (i : Item) (scope : Scope) (space : Space),
      (i.relocated g).declarations file (scope.map (Level.relocated g)) space =
        (i.declarations file scope space).map (Declaration.relocated g)
  | .namespaceDecl h items, scope, space => by
    rw [Item.relocated, Item.declarations, Item.declarations, NamespaceHeader.relocated,
      Table.openSpace_relocated]
    exact Item.allDeclarations_relocated file items _ _
  | .typeDecl d, scope, space => d.declarations_relocated file scope space []

theorem Item.allDeclarations_relocated (file : Nat) :
    ∀ (is : List Item) (scope : Scope) (space : Space),
      Item.allDeclarations file (scope.map (Level.relocated g)) space (Item.allRelocated g is) =
        (Item.allDeclarations file scope space is).map (Declaration.relocated g)
  | [], _, _ => rfl
  | i :: is, scope, space => by
    rw [Item.allRelocated, Item.allDeclarations, Item.allDeclarations, List.map_append,
      Item.declarations_relocated file i, Item.allDeclarations_relocated file is]

end

mutual

theorem Item.spaces_relocated : ∀ (i : Item) (scope : Scope) (space : Space),
    (i.relocated g).spaces (scope.map (Level.relocated g)) space = i.spaces scope space
  | .namespaceDecl h items, scope, space => by
    rw [Item.relocated, Item.spaces, Item.spaces, NamespaceHeader.relocated,
      Table.openSpace_relocated]
    exact congrArg _ (Item.allSpaces_relocated items _ _)
  | .typeDecl _, _, _ => rfl

theorem Item.allSpaces_relocated : ∀ (is : List Item) (scope : Scope) (space : Space),
    Item.allSpaces (scope.map (Level.relocated g)) space (Item.allRelocated g is) =
      Item.allSpaces scope space is
  | [], _, _ => rfl
  | i :: is, scope, space => by
    rw [Item.allRelocated, Item.allSpaces, Item.allSpaces, Item.spaces_relocated i,
      Item.allSpaces_relocated is]

end

end Companion
