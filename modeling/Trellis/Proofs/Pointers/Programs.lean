import Trellis.Proofs.Pointers.Walks
import Trellis.Proofs.Schema.Termination

/-!
Programs with the pointers elsewhere.

Two programs are alike if their calls of a builder declare the same without pointers. They build the
same schema without pointers, or are refused with the same error; only a transformation that is
spelled otherwise than the type of its property makes a difference.
-/

namespace Trellis

/-- Two calls declare the same without pointers. -/
inductive BuilderCall.Alike : BuilderCall → BuilderCall → Prop
  | query {p p' : PropertyDeclaration} : p.bare = p'.bare → Alike (.query p) (.query p')
  | mutation {p p' : PropertyDeclaration} : p.bare = p'.bare → Alike (.mutation p) (.mutation p')
  | type {ref ref' : TypeRef} {c c' : Customization} : ref.bare = ref'.bare →
    (∀ d d', d.bare = d'.bare → (c.change d).bare = (c'.change d').bare) →
    Alike (.type ref c) (.type ref' c')
  | enumeration {ref ref' : TypeRef} (name description : Option String) : ref.bare = ref'.bare →
    Alike (.enumeration ref name description) (.enumeration ref' name description)
  | union (name : String) {d d' : UnionDeclaration} : d.bare = d'.bare →
    Alike (.union name d) (.union name d')
  | scalar (d : ScalarDeclaration) : Alike (.scalar d) (.scalar d)
  | input {ref ref' : TypeRef} : ref.bare = ref'.bare → Alike (.input ref) (.input ref')

namespace SchemaBuilder

/-- Two builders have collected the same without pointers. -/
structure Alike (b b' : SchemaBuilder) : Prop where
  declarations : b.declarations.Alike b'.declarations
  configuration : b.configuration = b'.configuration
  errors : b.errors.map SchemaError.anonymous = b'.errors.map SchemaError.anonymous

namespace Alike

variable {b b' : SchemaBuilder}

theorem refuse (h : b.Alike b') {e e' : SchemaError} (he : e.anonymous = e'.anonymous) :
    (b.refuse e).Alike (b'.refuse e') := { h with
  errors := by
    rw [SchemaBuilder.refuse, SchemaBuilder.refuse, List.map_append, List.map_append, h.errors,
      List.map_singleton, List.map_singleton, he] }

theorem type (h : b.Alike b') {ref ref' : TypeRef} (href : ref.bare = ref'.bare)
    {change change' : TypeDeclaration → TypeDeclaration}
    (hchange : ∀ d d', d.bare = d'.bare → (change d).bare = (change' d').bare) :
    (b.type ref change).Alike (b'.type ref' change') := by
  cases TypeRef.alike_of_bare href with
  | object host outline =>
    have hearlier := hchange _ _ (Entries.getD_lookup_congr h.declarations.types host
      (.plain (.object host outline)))
    exact { h with declarations := { h.declarations with
      types := map_concat_congr (Entries.filter_congr h.declarations.types host)
        (congrArg (Prod.mk host) hearlier) } }
  | _ => exact h.refuse rfl

theorem enumeration (h : b.Alike b') {ref ref' : TypeRef} (href : ref.bare = ref'.bare)
    (name description : Option String) :
    (b.enumeration ref name description).Alike (b'.enumeration ref' name description) := by
  cases TypeRef.alike_of_bare href with
  | enumeration host shape =>
    exact { h with declarations := { h.declarations with
      enums := congrArg
        (Entries.put host (EnumDeclaration.mk (.enumeration host shape) name description))
        h.declarations.enums } }
  | _ => exact h.refuse rfl

theorem union (h : b.Alike b') (name : String) {d d' : UnionDeclaration} (hd : d.bare = d'.bare) :
    (b.union name d).Alike (b'.union name d') := by
  rw [SchemaBuilder.union, SchemaBuilder.union, Entries.isSome_lookup_congr h.declarations.unions]
  split
  · exact h.refuse rfl
  · exact { h with declarations := { h.declarations with
      unions := map_concat_congr h.declarations.unions (congrArg (Prod.mk name) hd) } }

theorem scalar (h : b.Alike b') (d : ScalarDeclaration) : (b.scalar d).Alike (b'.scalar d) := by
  rw [SchemaBuilder.scalar, SchemaBuilder.scalar]
  split
  · rename_i s _
    exact { h with declarations := { h.declarations with
      scalars := congrArg (· ++ [s]) h.declarations.scalars } }
  · exact h.refuse rfl

/-- Calls that are alike keep builders alike. -/
theorem call (h : b.Alike b') {c c' : BuilderCall} (hc : c.Alike c') :
    (b.call c).Alike (b'.call c') := by
  cases hc with
  | query hp =>
    exact { h with declarations := { h.declarations with
      queries := map_concat_congr h.declarations.queries hp } }
  | mutation hp =>
    exact { h with declarations := { h.declarations with
      mutations := map_concat_congr h.declarations.mutations hp } }
  | type href hchange => exact h.type href hchange
  | enumeration name description href => exact h.enumeration href name description
  | union name hd => exact h.union name hd
  | scalar d => exact h.scalar d
  | input href =>
    exact { h with declarations := { h.declarations with
      inputs := map_concat_congr h.declarations.inputs href } }

end Alike

theorem alike_ofCalls {calls calls' : List BuilderCall}
    (h : List.Forall₂ BuilderCall.Alike calls calls') : (ofCalls calls).Alike (ofCalls calls') := by
  have hfrom {b b' : SchemaBuilder} (hb : b.Alike b') :
      (calls.foldl call b).Alike (calls'.foldl call b') := by
    induction h generalizing b b' with
    | nil => exact hb
    | cons hc _ ih => exact ih (hb.call hc)
  exact hfrom ⟨⟨rfl, rfl, rfl, rfl, rfl, rfl, rfl⟩, rfl, rfl⟩

/-- Two builds come to the same without pointers, or differ because a transformation is refused for
its spelling alone. -/
inductive BuildAlike : Except Stop Schema → Except Stop Schema → Prop
  | built {s s' : Schema} : s.graph.bare = s'.graph.bare → s.configuration = s'.configuration →
    BuildAlike (.ok s) (.ok s')
  | refused {e e' : SchemaError} : e.anonymous = e'.anonymous →
    BuildAlike (.error (.refused e)) (.error (.refused e'))
  | first {e : SchemaError} (outcome : Except Stop Schema) : e.Misspells →
    BuildAlike (.error (.refused e)) outcome
  | second {e : SchemaError} (outcome : Except Stop Schema) : e.Misspells →
    BuildAlike outcome (.error (.refused e))

end SchemaBuilder

theorem Registry.Alike.bare_graph {r r' : Registry} (h : r.Alike r') (mutation : Option String) :
    (r.graph mutation).bare = (r'.graph mutation).bare := by
  have htypes (types : List (String × Option TypeNode)) :
      (types.filterMap fun entry => entry.2.map (entry.1, ·)).map (Prod.map id TypeNode.bare) =
        (types.map (Prod.map id (Option.map TypeNode.bare))).filterMap fun entry =>
          entry.2.map (entry.1, ·) := by
    rw [List.map_filterMap, List.filterMap_map]
    congr 1
    funext entry
    obtain ⟨name, node⟩ := entry
    cases node <;> rfl
  simp only [Registry.graph, TypeGraph.bare, htypes, h.types, h.outputs, h.inputs, h.scalarNames]

theorem Declarations.Alike.start {d d' : Declarations} (h : d.Alike d') :
    (Registry.start d).Alike (.start d') where
  types := rfl
  outputs := rfl
  inputs := rfl
  scalarNames := rfl
  typeDeclarations := h.types
  enumDeclarations := h.enums
  unionNames := by
    have hnames (unions : List (String × UnionDeclaration)) :
        unions.map (·.1) = (unions.map (Prod.map id UnionDeclaration.bare)).map (·.1) := by
      rw [List.map_map]
      rfl
    rw [Registry.start, Registry.start, hnames, h.unions, ← hnames]

namespace SchemaBuilder

/-- Builders that have collected the same without pointers build the same without pointers. -/
theorem Alike.build {b b' : SchemaBuilder} (h : b.Alike b') (catalogue : Catalogue)
    (hp : b.declarations.Proper) : BuildAlike (b.build catalogue).1 (b'.build catalogue).1 := by
  rw [SchemaBuilder.build, SchemaBuilder.build]
  have herrors := h.errors
  cases hb : b.errors with
  | cons e errors =>
    cases hb' : b'.errors with
    | nil => simp [hb, hb'] at herrors
    | cons e' errors' =>
      rw [hb, hb', List.map_cons, List.map_cons] at herrors
      exact .refused (List.cons.inj herrors).1
  | nil =>
    cases hb' : b'.errors with
    | cons e' errors' => simp [hb, hb'] at herrors
    | nil =>
      have halike := (Registering.Agrees.addAll catalogue (b.declarations.depth catalogue)
        h.declarations).endsAlike h.declarations.start
      have hmutations : b.declarations.mutations.isEmpty = b'.declarations.mutations.isEmpty := by
        rw [← List.isEmpty_map, h.declarations.mutations, List.isEmpty_map]
      have hends : b.declarations.register catalogue ≠ .error .tooDeep :=
        Declarations.register_ne_tooDeep hp
      rw [Declarations.register] at hends
      rw [Declarations.register, Declarations.register, ← h.declarations.depth_eq, ← hmutations,
        h.configuration]
      generalize (Registering.addAll catalogue (b.declarations.depth catalogue) b.declarations).run
        (.start b.declarations) = outcome, (Registering.addAll catalogue
          (b.declarations.depth catalogue) b'.declarations).run (.start b'.declarations) = outcome'
        at *
      cases halike with
      | done _ hr => exact .built (hr.bare_graph _) rfl
      | refused he => exact .refused he
      | tooDeep => exact absurd rfl hends
      | first _ he => exact .first _ he
      | second _ he => exact .second _ he

end SchemaBuilder

end Trellis
