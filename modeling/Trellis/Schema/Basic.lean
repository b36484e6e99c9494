import Trellis.Schema.Registration

/-!
Schemas: type graphs together with the settings of their execution.
-/

namespace Trellis

structure Schema where
  graph : TypeGraph
  configuration : Configuration

namespace Schema

def text (s : Schema) : String :=
  s!"Schema \x7b types: {s.graph.types.length}, configuration: {s.configuration.text}, .. \x7d"

end Schema

namespace SchemaBuilder

/-- Builds a schema of everything declared, and gives the builder to go on with. A remembered error
leaves the declarations in place; otherwise they are used up, and the settings with them if they
make up a schema. -/
def build (b : SchemaBuilder) (catalogue : Catalogue) : Except Stop Schema × SchemaBuilder :=
  match b.errors with
  | e :: _ => (.error (.refused e), { b with errors := [] })
  | [] =>
    match b.declarations.register catalogue with
    | .error stop => (.error stop, { b with declarations := .empty })
    | .ok graph => (.ok ⟨graph, b.configuration⟩, .new)

end SchemaBuilder

end Trellis
