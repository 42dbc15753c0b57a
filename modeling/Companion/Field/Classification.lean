import Companion.Field.Shape
import Companion.Settings
import Companion.Symbol.Compilation

/-!
Which shape a field has. What counts is the type without question marks: an interface, or a list
of one, in which no type parameter occurs. A constant or static field has no shape, and a readonly
field only if it is a list that is initialized where it is declared.
-/

set_option autoImplicit false

namespace Companion

namespace Compilation

/-- The path of a file. -/
def path (c : Compilation) (file : Nat) : String := ((c.files[file]?).map (·.path)).getD ""

/-- The text that a span covers in a file. -/
def text (c : Compilation) (file : Nat) (s : Span) : String :=
  ((c.files[file]?).map (·.text s)).getD ""

/-- The container and the interface of a field type. -/
def elementOf (c : Compilation) (t : Ty) : Except SkipReason (Container × Ty) :=
  let (container, element) := match c.listElement t with
    | some e => (Container.list, e.stripNullable)
    | none => (Container.single, t.stripNullable)
  match element with
  | .param _ _ => .error .openGeneric
  | .unresolved _ => .error .unresolved
  | .named _ _ =>
    if !c.isInterface element then .error .notInterface
    else if element.hasParam then .error .openGeneric
    else .ok (container, element)
  | _ => .error .notInterface

end Compilation

namespace Field

def isMarked (s : Settings) (f : Field) : Bool := f.allAttributes.any s.isMarker

/-- The texts of the attributes other than the marker, in source order. -/
def carriedAttributes (f : Field) (c : Compilation) (s : Settings) (file : Nat) : List String :=
  (f.allAttributes.filter fun a => !s.isMarker a).map fun a => c.text file a.span

/-- Whether the modifiers and the initializer of a field allow a shape. -/
def restriction (f : Field) (d : Declarator) (container : Container) : Option SkipReason :=
  if f.modifiers.contains .const then some .const
  else if f.modifiers.contains .static then some .static
  else if f.modifiers.contains .readonly then
    match container with
    | .single => some .readonlyScalar
    | .list => if d.initializer.isNone then some .readonlyListWithoutInitializer else none
  else none

/-- The shape of one variable of a field, given the type of the field. -/
def classify (f : Field) (c : Compilation) (s : Settings) (file : Nat) (d : Declarator) (t : Ty) :
    Except SkipReason FieldShape :=
  match c.elementOf t with
  | .error reason => .error reason
  | .ok (container, element) =>
    match f.restriction d container with
    | some reason => .error reason
    | none =>
      .ok
        { fieldName := d.name
          backingName := s.backingName d.name
          elementName := c.fullName element
          container := container
          isReadOnly := f.modifiers.contains .readonly
          isInitializedInline := d.initializer.isSome
          carriedAttributes := f.carriedAttributes c s file
          span := d.nameSpan }

end Field

namespace Site

/-- The type of a field that is declared at a site. -/
def fieldType (site : Site) (c : Compilation) (f : Field) : Ty := c.resolve site.body f.type

/-- The variables of a field with their shapes. -/
def classify (site : Site) (c : Compilation) (s : Settings) (f : Field) :
    List (Declarator × Except SkipReason FieldShape) :=
  f.declarators.map fun d => (d, f.classify c s site.file d (site.fieldType c f))

/-- The marked fields of a declaration. -/
def markedFields (site : Site) (s : Settings) : List Field :=
  site.decl.fields.filter (Field.isMarked s)

end Site
end Companion
