import Companion.Proofs.Grammar.Placeless
import Companion.Proofs.Symbol.Arguments

/-!
What the full names of types denote. The full name of a type is read back as a reference with the
namespace, the types around and the name of every named type in it, where only the last name has
arguments (`Compilation.written`). Such a reference stands for the type again exactly if each of
these paths leads to its type from where it is looked up
(`Compilation.Speakable.denotes_fullName_iff`); so the full name of a type inside a generic type is
lost, as the arguments of the types around are no part of it.
-/

set_option autoImplicit false
set_option relaxedAutoImplicit false

namespace Companion

open Token

/-! ### Places do not matter to look-ups -/

namespace Table

open TypeRef

variable {t : Table} {l : Lookup}

mutual

theorem resolveWith_renamed_id :
    ∀ r : TypeRef, t.resolveWith l (r.renamed id) = t.resolveWith l r
  | .predefined p _ => rfl
  | .named fromGlobal segs place => by
    have hrender := render_placeless (.named fromGlobal segs place)
    rw [renamed] at hrender ⊢
    rw [resolveWith, resolveWith, resolveSegments_renamed_id segs, hrender]
  | .array e rank _ => by rw [renamed, resolveWith, resolveWith, resolveWith_renamed_id e]
  | .nullable i _ => by rw [renamed, resolveWith, resolveWith, resolveWith_renamed_id i]
  | .tuple es _ => by rw [renamed, resolveWith, resolveWith, resolveAll_renamed_id es]

theorem resolveAll_renamed_id :
    ∀ rs : List TypeRef, t.resolveAll l (renamedAll id rs) = t.resolveAll l rs
  | [] => rfl
  | r :: rs => by
    rw [renamedAll, resolveAll, resolveAll, resolveWith_renamed_id r, resolveAll_renamed_id rs]

theorem resolveSegment_renamed_id :
    ∀ s : Segment, t.resolveSegment l (renamedSegment id s) = t.resolveSegment l s
  | .mk ident args _ => by
    rw [renamedSegment, resolveSegment, resolveSegment, resolveAll_renamed_id args]
    rfl

theorem resolveSegments_renamed_id :
    ∀ ss : List Segment, t.resolveSegments l (renamedSegments id ss) = t.resolveSegments l ss
  | [] => rfl
  | s :: ss => by
    rw [renamedSegments, resolveSegments, resolveSegments, resolveSegment_renamed_id s,
      resolveSegments_renamed_id ss]

end

/-- A reference that is read at another place and whose names are not escaped stands for the
same. -/
theorem resolve_eq_of_readAs {scope : Scope} {r r' : TypeRef} (h : r.ReadAs r')
    (hplain : r.renamed unescape = r.renamed id) : t.resolve scope r' = t.resolve scope r := by
  rw [resolve, resolve, ← resolveWith_renamed_id r', ← resolveWith_renamed_id r, h, hplain]

end Table

namespace Compilation

variable {c : Compilation}

/-! ### Full names as references -/

/-- The names of the namespace of a type and of the types around it. -/
def namesAround (c : Compilation) (id : TypeId) : List String :=
  c.spaceOf id ++ (c.enclosing id).map c.nameOf

mutual

/-- The reference that the full name of a type is. -/
def written (c : Compilation) : Ty → TypeRef
  | .named id args =>
    .named false ((c.namesAround id).map (Segment.mk · [] (Span.point 0)) ++
      [.mk (c.nameOf id) (writtenAll c args) (Span.point 0)]) (Span.point 0)
  | .param name _ => .named false [.mk name [] (Span.point 0)] (Span.point 0)
  | .array e rank => .array (written c e) rank (Span.point 0)
  | .nullable i => .nullable (written c i) (Span.point 0)
  | .tuple es => .tuple (writtenAll c es) (Span.point 0)
  | .unresolved text => .named false [.mk text [] (Span.point 0)] (Span.point 0)

def writtenAll (c : Compilation) : List Ty → List TypeRef
  | [] => []
  | t :: ts => written c t :: writtenAll c ts

end

theorem writtenAll_eq_map (ts : List Ty) : c.writtenAll ts = ts.map c.written := by
  induction ts with
  | nil => rfl
  | cons t ts ih => rw [writtenAll, ih, List.map_cons]

/-- An identifier that is written without an escape. -/
def IsUnescaped (name : String) : Prop := TypeRef.IsIdentifier name ∧ unescape name = name

/-- A type whose full name can be read: it is made of declared types and type parameters, all names
in it are plain identifiers, and no question marks stand side by side. -/
inductive Speakable (c : Compilation) : Ty → Prop
  | named {id : TypeId} {args : List Ty} (haround : ∀ name ∈ c.namesAround id, IsUnescaped name)
      (hname : IsUnescaped (c.nameOf id)) (hargs : ∀ a ∈ args, Speakable c a) :
      Speakable c (.named id args)
  | param {name : String} {owner : TypeId} (hname : IsUnescaped name) :
      Speakable c (.param name owner)
  | array {e : Ty} {rank : Nat} (helement : Speakable c e) (hpos : 1 ≤ rank)
      (hrank : rank ≤ Parser.maxRank) : Speakable c (.array e rank)
  | nullable {i : Ty} (hinner : Speakable c i) (hsingle : ∀ j, i ≠ .nullable j) :
      Speakable c (.nullable i)

theorem joinWith_concat (separator last : String) (texts : List String) (more : String) :
    joinWith separator (texts ++ [last ++ more]) =
      joinWith separator (texts ++ [last]) ++ more := by
  induction texts with
  | nil => rfl
  | cons text texts ih =>
    cases texts <;> simp_all [joinWith, String.append_assoc]

theorem fullName_named (id : TypeId) (args : List Ty) :
    c.fullName (.named id args) = c.qualifiedName id ++ c.fullArgs args := rfl

theorem fullName_array (e : Ty) (rank : Nat) : c.fullName (.array e rank) =
    c.fullName e ++ "[" ++ String.ofList (List.replicate (rank - 1) ',') ++ "]" := rfl

theorem fullName_nullable (i : Ty) : c.fullName (.nullable i) = c.fullName i ++ "?" := rfl

theorem fullName_tuple (es : List Ty) :
    c.fullName (.tuple es) = "System.ValueTuple" ++ c.fullArgs es := rfl

theorem fullArgs_cons (t : Ty) (ts : List Ty) :
    c.fullArgs (t :: ts) = "<" ++ c.fullName t ++ c.fullTail ts ++ ">" := rfl

theorem fullTail_cons (t : Ty) (ts : List Ty) :
    c.fullTail (t :: ts) = "," ++ c.fullName t ++ c.fullTail ts := rfl

theorem fullName_append_fullTail (t : Ty) (ts : List Ty) :
    c.fullName t ++ c.fullTail ts = joinWith "," ((t :: ts).map c.fullName) := by
  induction ts generalizing t with
  | nil => exact String.append_empty
  | cons u us ih =>
    rw [List.map_cons, List.map_cons, joinWith, ← List.map_cons, ← ih u, fullTail_cons]
    simp only [String.append_assoc]

theorem segmentTexts_plain (comma : String) (names : List String) (last : Segment) :
    TypeRef.segmentTexts comma (names.map (Segment.mk · [] (Span.point 0)) ++ [last]) =
      names ++ [TypeRef.textOfSegment comma last] := by
  rw [TypeRef.segmentTexts_eq_map, List.map_append, List.map_map]
  simp [Function.comp_def, TypeRef.textOfSegment]

theorem textOfSegment_writtenAll {args : List Ty}
    (hargs : ∀ a ∈ args, c.fullName a = (c.written a).textWith ",") (name : String) :
    TypeRef.textOfSegment "," (.mk name (c.writtenAll args) (Span.point 0)) =
      name ++ c.fullArgs args := by
  cases args with
  | nil => exact String.append_empty.symm
  | cons a as =>
    have hlist : c.fullName a ++ c.fullTail as =
        joinWith "," (TypeRef.textEach "," (c.writtenAll (a :: as))) := by
      rw [fullName_append_fullTail, TypeRef.textEach_eq_map, writtenAll_eq_map, List.map_map]
      exact congrArg _ (List.map_congr_left hargs)
    rw [writtenAll, TypeRef.textEach] at hlist
    simp only [fullArgs_cons, writtenAll, TypeRef.textOfSegment, ← hlist, String.append_assoc]

theorem Speakable.fullName_eq {t : Ty} (h : c.Speakable t) :
    c.fullName t = (c.written t).textWith "," := by
  induction h with
  | @named id args haround hname hargs ih =>
    have hlast := textOfSegment_writtenAll ih (c.nameOf id)
    have hjoin := joinWith_concat "." (c.nameOf id) (c.namesAround id) (c.fullArgs args)
    rw [fullName_named, written, TypeRef.textWith, segmentTexts_plain, hlast, hjoin]
    exact String.empty_append.symm
  | param hname => exact String.empty_append.symm
  | array helement hpos hrank ih => rw [fullName_array, written, TypeRef.textWith, ih]
  | nullable hinner hsingle ih => rw [fullName_nullable, written, TypeRef.textWith, ih]

theorem Speakable.legible {t : Ty} (h : c.Speakable t) : (c.written t).Legible := by
  induction h with
  | @named id args haround hname hargs ih =>
    rw [written]
    refine .named (by simp) (fun s hs ↦ ?_) fun s hs a ha ↦ ?_
    · rcases List.mem_append.mp hs with hs | hs
      · obtain ⟨name, hmem, rfl⟩ := List.mem_map.mp hs
        exact (haround name hmem).1
      · obtain rfl := List.mem_singleton.mp hs
        exact hname.1
    · rcases List.mem_append.mp hs with hs | hs
      · obtain ⟨name, -, rfl⟩ := List.mem_map.mp hs
        cases ha
      · obtain rfl := List.mem_singleton.mp hs
        rw [Segment.args, writtenAll_eq_map] at ha
        obtain ⟨t, ht, rfl⟩ := List.mem_map.mp ha
        exact ih t ht
  | param hname =>
    refine .named (by simp) (fun s hs ↦ ?_) fun s hs a ha ↦ ?_ <;>
      obtain rfl := List.mem_singleton.mp hs
    · exact hname.1
    · cases ha
  | array helement hpos hrank ih => exact .array ih hpos hrank
  | @nullable i hinner hsingle ih =>
    refine .nullable ih fun j s hj ↦ ?_
    cases i with
    | nullable j => exact hsingle j rfl
    | _ => simp [written] at hj

theorem Speakable.renamed_written {t : Ty} (h : c.Speakable t) :
    (c.written t).renamed unescape = (c.written t).renamed id := by
  induction h with
  | @named i args haround hname hargs ih =>
    have hall : TypeRef.renamedAll unescape (c.writtenAll args) =
        TypeRef.renamedAll id (c.writtenAll args) := by
      simp only [TypeRef.renamedAll_eq_map, writtenAll_eq_map, List.map_map]
      exact List.map_congr_left ih
    simp only [written, TypeRef.renamed, TypeRef.renamedSegments_eq_map, List.map_append,
      List.map_map, List.map_singleton, TypeRef.renamedSegment, hname.2, hall, id_eq]
    congr 2
    refine List.map_congr_left fun name hmem ↦ ?_
    simp [TypeRef.renamedSegment, (haround name hmem).2, TypeRef.renamedAll]
  | param hname =>
    simp [written, TypeRef.renamed, TypeRef.renamedSegments, TypeRef.renamedSegment,
      TypeRef.renamedAll, hname.2]
  | array helement hpos hrank ih => rw [written, TypeRef.renamed, TypeRef.renamed, ih]
  | nullable hinner hsingle ih => rw [written, TypeRef.renamed, TypeRef.renamed, ih]

/-! ### Denotation -/

/-- Read as a type up to its end, and looked up in a scope, the text stands for the type. -/
def Denotes (c : Compilation) (scope : Scope) (text : String) (t : Ty) : Prop :=
  ∃ r stop, Parser.typeRef (Cursor.ofTokens (Token.ofSource text)) = ⟨.ok r, stop, []⟩ ∧
    stop.kind = .eof ∧ c.resolve scope r = t

/-- The path to a type by its full name, with arguments at its end. -/
def pathTo (c : Compilation) : Ty → List (String × List Ty)
  | .named id args => (c.namesAround id).map (·, []) ++ [(c.nameOf id, args)]
  | .param name _ => [(name, [])]
  | _ => []

/-- In a scope, the path to a type by its full name leads to the type. -/
def Reached (c : Compilation) (scope : Scope) (t : Ty) : Prop :=
  c.table.resolvePath (c.table.lookup scope) (c.pathTo t) = some t

mutual

/-- The types in a type that have a name. -/
def namesIn : Ty → List Ty
  | .named id args => .named id args :: namesInAll args
  | .param name owner => [.param name owner]
  | .array e _ => namesIn e
  | .nullable i => namesIn i
  | .tuple es => namesInAll es
  | .unresolved _ => []

def namesInAll : List Ty → List Ty
  | [] => []
  | t :: ts => namesIn t ++ namesInAll ts

end

theorem mem_namesInAll {ts : List Ty} {part : Ty} :
    part ∈ namesInAll ts ↔ ∃ t ∈ ts, part ∈ namesIn t := by
  induction ts with
  | nil => simp [namesInAll]
  | cons t ts ih => simp [namesInAll, ih]

mutual

/-- A parameter of some kind occurs in a type if it is among the names there. -/
theorem anyParam_iff {p : String → TypeId → Bool} :
    ∀ t : Ty, t.anyParam p = true ↔
      ∃ name owner, Ty.param name owner ∈ namesIn t ∧ p name owner = true
  | .named id args => by simp [Ty.anyParam, namesIn, anyParamAll_iff args]
  | .param name owner => by simp [Ty.anyParam, namesIn]
  | .array e _ => by simp only [Ty.anyParam, namesIn, anyParam_iff e]
  | .nullable i => by simp only [Ty.anyParam, namesIn, anyParam_iff i]
  | .tuple es => by simp only [Ty.anyParam, namesIn, anyParamAll_iff es]
  | .unresolved _ => by simp [Ty.anyParam, namesIn]

theorem anyParamAll_iff {p : String → TypeId → Bool} :
    ∀ ts : List Ty, Ty.anyParamAll p ts = true ↔
      ∃ name owner, Ty.param name owner ∈ namesInAll ts ∧ p name owner = true
  | [] => by simp [Ty.anyParamAll, namesInAll]
  | t :: ts => by
    simp only [Ty.anyParamAll, namesInAll, Bool.or_eq_true, anyParam_iff t, anyParamAll_iff ts,
      List.mem_append]
    constructor
    · rintro (⟨name, owner, hmem, hp⟩ | ⟨name, owner, hmem, hp⟩)
      · exact ⟨name, owner, .inl hmem, hp⟩
      · exact ⟨name, owner, .inr hmem, hp⟩
    · rintro ⟨name, owner, hmem | hmem, hp⟩
      · exact .inl ⟨name, owner, hmem, hp⟩
      · exact .inr ⟨name, owner, hmem, hp⟩

end

theorem map_eq_self_iff {f : Ty → Ty} {ts : List Ty} : ts.map f = ts ↔ ∀ t ∈ ts, f t = t := by
  have h := List.map_inj_left (l := ts) (f := f) (g := id)
  rwa [List.map_id] at h

theorem resolveAll_eq_map (t : Table) (l : Lookup) (rs : List TypeRef) :
    t.resolveAll l rs = rs.map (t.resolveWith l) := by
  induction rs with
  | nil => rfl
  | cons r rs ih => rw [Table.resolveAll, ih, List.map_cons]

theorem resolve_written_named (scope : Scope) (id : TypeId) (args : List Ty) :
    c.resolve scope (c.written (.named id args)) =
      (c.table.resolvePath (c.table.lookup scope)
        (c.pathTo (.named id (args.map fun a ↦ c.resolve scope (c.written a))))).getD
          (.unresolved (c.written (.named id args)).render) := by
  have hargs : c.table.resolveAll (c.table.lookup scope) (c.writtenAll args) =
      args.map fun a ↦ c.resolve scope (c.written a) := by
    rw [resolveAll_eq_map, writtenAll_eq_map, List.map_map]
    rfl
  have hpath : c.table.resolveSegments (c.table.lookup scope)
      ((c.namesAround id).map (Segment.mk · [] (Span.point 0)) ++
        [.mk (c.nameOf id) (c.writtenAll args) (Span.point 0)]) =
      c.pathTo (.named id (args.map fun a ↦ c.resolve scope (c.written a))) := by
    rw [Table.resolveSegments_eq_map, List.map_append, List.map_map, List.map_singleton,
      Table.resolveSegment, hargs, pathTo]
    rfl
  rw [resolve, Table.resolve, written, Table.resolveWith, hpath]
  rfl

/-- A path that leads to a type by its full name has the arguments of the type: an alias is written
without arguments. -/
theorem args_of_pathTo {scope : Scope} {id : TypeId} {args args' : List Ty}
    (h : c.table.resolvePath (c.table.lookup scope) (c.pathTo (.named id args')) =
      some (.named id args))
    (hlength : args'.length = args.length) : args' = args := by
  have hlast : (c.pathTo (.named id args')).getLast? = some (c.nameOf id, args') := by
    simp [pathTo]
  rcases Table.args_of_resolvePath h hlast with hargs | ⟨halias, -⟩
  · exact hargs.symm
  · obtain ⟨-, rfl⟩ : c.namesAround id = [] ∧ args' = [] := by
      simpa [pathTo, List.append_eq_singleton_iff] using halias
    exact (List.eq_nil_of_length_eq_zero hlength.symm).symm

/-- The full name of a type, read as a reference, stands for the type exactly if every type in it
is reached by its path. -/
theorem Speakable.resolve_written_iff {t : Ty} (h : c.Speakable t) (scope : Scope) :
    c.resolve scope (c.written t) = t ↔ ∀ part ∈ namesIn t, c.Reached scope part := by
  induction h with
  | @named id args haround hname hargs ih =>
    have hsame : (args.map fun a ↦ c.resolve scope (c.written a)) = args ↔
        ∀ part ∈ namesInAll args, c.Reached scope part := by
      simp only [mem_namesInAll, map_eq_self_iff]
      constructor
      · rintro hall part ⟨a, ha, hpart⟩
        exact (ih a ha).mp (hall a ha) part hpart
      · exact fun hall a ha ↦ (ih a ha).mpr fun part hpart ↦ hall part ⟨a, ha, hpart⟩
    rw [namesIn, List.forall_mem_cons, ← hsame, resolve_written_named]
    constructor
    · intro heq
      rcases Option.getD_eq_iff.mp heq with hsome | ⟨-, hunresolved⟩
      · have hargs := args_of_pathTo hsome (List.length_map _)
        rw [hargs] at hsome
        exact ⟨hsome, hargs⟩
      · cases hunresolved
    · rintro ⟨hreached, hargs⟩
      rw [hargs, hreached]
      rfl
  | @param name owner hname =>
    rw [namesIn, List.forall_mem_singleton]
    show (c.table.resolvePath _ [(name, [])]).getD _ = _ ↔ c.table.resolvePath _ [(name, [])] = _
    refine ⟨fun heq ↦ ?_, fun heq ↦ by rw [heq]; rfl⟩
    rcases Option.getD_eq_iff.mp heq with hsome | ⟨-, hunresolved⟩
    · exact hsome
    · cases hunresolved
  | @array e rank helement hpos hrank ih =>
    rw [namesIn, ← ih]
    exact ⟨fun heq ↦ (Ty.array.inj heq).1, fun heq ↦ congrArg (Ty.array · rank) heq⟩
  | @nullable i hinner hsingle ih =>
    rw [namesIn, ← ih]
    exact ⟨fun heq ↦ Ty.nullable.inj heq, fun heq ↦ congrArg Ty.nullable heq⟩

theorem Speakable.denotes_fullName_iff {t : Ty} (h : c.Speakable t) (scope : Scope) :
    c.Denotes scope (c.fullName t) t ↔ ∀ part ∈ namesIn t, c.Reached scope part := by
  have hspells : (Cursor.ofTokens (Token.ofSource (c.fullName t))).Spells
      ((c.written t).tokens ++ [(.eof, "")]) := by
    have hspell := h.legible.printable.spell_text (.inl (rfl : "," = ",")) (r := []) rfl (by simp)
    rw [List.append_nil] at hspell
    show (Token.ofSource (c.fullName t)).map bare = _
    rw [map_bare_ofSource, h.fullName_eq, hspell]
    simp [spell, Lexeme.visible, Lexeme.all, Lexeme.allWithin]
  have hends : TypeRef.EndsType [(.eof, "")] := ⟨⟨by simp, by simp, by simp⟩, by simp, by simp⟩
  obtain ⟨r, stop, hread, hstop, hr⟩ := h.legible.printable.takes_typeRef hends _ hspells
  have hresolve : c.resolve scope r = c.resolve scope (c.written t) :=
    Table.resolve_eq_of_readAs hr h.renamed_written
  rw [← h.resolve_written_iff, ← hresolve]
  constructor
  · rintro ⟨r', stop', hread', -, hdenoted⟩
    rw [hread] at hread'
    cases hread'
    exact hdenoted
  · exact fun hdenoted ↦ ⟨r, stop, hread, hstop.kind_cons, hdenoted⟩

end Compilation
end Companion
