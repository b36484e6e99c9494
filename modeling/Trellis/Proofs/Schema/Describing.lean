import Trellis.Schema.Registration

/-!
Descriptions that declarations lead to.

A description stands for a type literal once the type inside it has a name. What a schema may have
to name are the descriptions that its declarations mention, and those that are met on the way
through fields.
-/

namespace Trellis

namespace TypeRef

/-- The type literal of a description, with a name for the type inside: named types are non-null, a
nullable type drops the outermost mark, and a list is non-null. -/
def literal (name : String) : TypeRef → TypeLiteral
  | .nullable _ inner => (inner.literal name).nullable
  | .list _ inner => .list (inner.literal name) true
  | _ => .named name true

@[simp] theorem innermost_literal (name : String) (ref : TypeRef) :
    (ref.literal name).innermost = name := by
  induction ref with
  | nullable _ inner ih => rw [literal, TypeLiteral.innermost_nullable, ih]
  | list _ inner ih => rw [literal, TypeLiteral.innermost, ih]
  | scalar | enumeration | object | inputObject | union | function | generic => rfl

end TypeRef

namespace Declarations

/-- What is described: all that declarations mention, what is inside of lists and nullable types, and
the types of fields. -/
inductive Describes (d : Declarations) (catalogue : Catalogue) : TypeRef → Prop
  | mention {ref : TypeRef} : ref ∈ d.mentions → Describes d catalogue ref
  | customized {host : HostType} {e : EnumDeclaration} : (host, e) ∈ d.enums →
    Describes d catalogue e.type
  | nullable {host : HostType} {inner : TypeRef} : Describes d catalogue (.nullable host inner) →
    Describes d catalogue inner
  | list {host : HostType} {inner : TypeRef} : Describes d catalogue (.list host inner) →
    Describes d catalogue inner
  | field {host outline : HostType} {f : ObjectField} :
    Describes d catalogue (.object host outline) → f ∈ (catalogue.object outline).fields →
    Describes d catalogue f.type
  | inputField {host outline : HostType} {f : InputField} :
    Describes d catalogue (.inputObject host outline) → f ∈ (catalogue.input outline).fields →
    Describes d catalogue f.type

/-- No host type is described as an enum and also as an object or an input object. -/
structure Unambiguous (d : Declarations) (catalogue : Catalogue) : Prop where
  object : ∀ host shape outline, d.Describes catalogue (.enumeration host shape) →
    ¬ d.Describes catalogue (.object host outline)
  inputObject : ∀ host shape outline, d.Describes catalogue (.enumeration host shape) →
    ¬ d.Describes catalogue (.inputObject host outline)

variable {d : Declarations} {catalogue : Catalogue}

theorem Describes.innermost {ref : TypeRef} (h : d.Describes catalogue ref) :
    d.Describes catalogue ref.innermost := by
  induction ref with
  | nullable _ inner ih => exact ih h.nullable
  | list _ inner ih => exact ih h.list
  | scalar | enumeration | object | inputObject | union | function | generic => exact h

end Declarations

end Trellis
