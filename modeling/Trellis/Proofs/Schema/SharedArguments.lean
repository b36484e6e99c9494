import Trellis.Proofs.Execution.Answering
import Trellis.Proofs.Execution.Invoking
import Trellis.Proofs.Schema.PropertyTables

/-!
Arguments that functions share.

Behind a property there are a resolver and any number of transformations, each of which names its own
arguments. The property publishes each name once, with a type that all functions agree on, and a query
may pass exactly these names.
-/

namespace Trellis

theorem Property.argument?_of_mem {p : Property} (h : (p.arguments.map (·.name)).Nodup)
    {a : Argument} (hmem : a ∈ p.arguments) : p.argument? a.name = some a := by
  cases hfound : p.argument? a.name with
  | none => exact absurd (beq_self_eq_true a.name) (List.find?_eq_none.mp hfound a hmem)
  | some found =>
    have hname : found.name = a.name := by simpa using List.find?_some hfound
    rw [List.inj_on_of_nodup_map h (List.mem_of_find?_eq_some hfound) hmem hname]

theorem Property.argument?_isNone {p : Property} {name : String} :
    (p.argument? name).isNone ↔ name ∉ p.arguments.map (·.name) := by
  rw [Option.isNone_iff_eq_none, Property.argument?, List.find?_eq_none]
  simp

theorem Property.declaredArguments_eq (p : Property) :
    p.declaredArguments = p.parameters.flatMap (·.arguments) := by
  rw [declaredArguments, parameters, List.flatMap_cons, List.flatMap_map]

theorem Parameters.map_fst_arguments {f : Parameters} (h : f.names.length = f.argumentCount) :
    f.arguments.map (·.1) = f.names := List.map_fst_zip (le_of_eq h)

/-- Two descriptions agree if a type may be the translation of both, as that of an argument. -/
def TypeRef.Agrees (ref other : TypeRef) : Prop :=
  ref.isInput = true ∧ other.isInput = true ∧ ∃ name i, ref.literal name = other.literal name ∧
    Identity.Serves i ref.innermost ∧ Identity.Serves i other.innermost

/-! ### Uses of names -/

/-- Names and descriptions of the arguments of a declared property. -/
def PropertyDeclaration.uses (declaration : PropertyDeclaration) : List (String × TypeRef) :=
  declaration.resolver.elim [] fun r => Parameters.arguments ⟨r.parameters.kinds, declaration.arguments⟩

/-- Names and descriptions of the arguments of a declared transformation. -/
def TransformationDeclaration.uses (declaration : TransformationDeclaration) :
    List (String × TypeRef) :=
  declaration.transformation.elim [] fun t =>
    Parameters.arguments ⟨t.parameters.kinds, declaration.arguments⟩

/-- Names and descriptions of all arguments that are declared for a property. -/
def TypeDeclaration.uses (declaration : TypeDeclaration) (property : String) :
    List (String × TypeRef) :=
  (declaration.properties.filter (·.name = property)).flatMap (·.uses) ++
    (declaration.transformations.filter (·.property = property)).flatMap (·.uses)

theorem PropertySource.Resolves.uses {declaration : PropertyDeclaration} {r : Resolver}
    (h : PropertySource.Resolves (.declared declaration) r) :
    declaration.uses = r.parameters.arguments := by
  cases h with
  | declared hresolver _ => rw [PropertyDeclaration.uses, hresolver, Option.elim_some]

theorem PropertySource.Resolves.named {source : PropertySource} {r : Resolver}
    (h : source.Resolves r) : r.parameters.names.length = r.parameters.argumentCount := by
  cases h with
  | field => rfl
  | declared _ hcount => exact hcount

theorem TransformationDeclaration.Attaches.uses {r : Resolver} {t : Transformation}
    {declaration : TransformationDeclaration} (h : declaration.Attaches r t) :
    declaration.uses = t.parameters.arguments := by
  cases h with
  | declared ht _ _ => rw [TransformationDeclaration.uses, ht, Option.elim_some]

theorem TransformationDeclaration.Attaches.named {r : Resolver} {t : Transformation}
    {declaration : TransformationDeclaration} (h : declaration.Attaches r t) :
    t.parameters.names.length = t.parameters.argumentCount := by
  cases h with
  | declared _ hcount _ => exact hcount

/-- The transformations that are declared for a property of an object, or of a root. -/
def Declarations.attachments (d : Declarations) (host : Option HostType) (property : String) :
    List TransformationDeclaration :=
  host.elim [] fun host =>
    ((d.types.lookup host).elim [] (·.transformations)).filter (·.property = property)

theorem Declarations.attachments_some (d : Declarations) (host outline : HostType)
    (property : String) : d.attachments (some host) property =
      (d.customization host outline).transformations.filter (·.property = property) := by
  rw [attachments, Option.elim_some, customization]
  cases d.types.lookup host <;> rfl

namespace Ledger

variable {L : Ledger} {d : Declarations} {sources : List PropertySource}
  {transformations : List TransformationDeclaration} {properties : List Property} {p : Property}

/-- All descriptions of an argument agree. -/
theorem Shares.agrees (hL : (L.map (·.1)).Nodup) {arguments : List Argument}
    {declared : List (String × TypeRef)} (h : L.Shares arguments declared) {name : String}
    {ref other : TypeRef} (href : (name, ref) ∈ declared) (hother : (name, other) ∈ declared) :
    ref.Agrees other := by
  have hnames : (arguments.map (·.name)).Nodup := h.names ▸ nodup_eraseDups _
  obtain ⟨a, ha, hname, hinput, stood, htype, i, hi, hserves⟩ := h.types name ref href
  obtain ⟨b, hb, hname', hinput', stood', htype', j, hj, hserves'⟩ := h.types name other hother
  obtain rfl : a = b := List.inj_on_of_nodup_map hnames ha hb (hname.trans hname'.symm)
  have hliteral : ref.literal stood = other.literal stood' := htype.symm.trans htype'
  obtain rfl : stood = stood' := by
    have hinnermost := congrArg TypeLiteral.innermost hliteral
    rwa [TypeRef.innermost_literal, TypeRef.innermost_literal] at hinnermost
  obtain rfl : i = j := (Prod.mk.inj (List.inj_on_of_nodup_map hL hi hj rfl)).2
  exact ⟨hinput, hinput', stood, i, hliteral, hserves, hserves'⟩

namespace Tabulates

theorem named (h : L.Tabulates d sources transformations properties) (hp : p ∈ properties)
    {f : Parameters} (hf : f ∈ p.parameters) : f.names.length = f.argumentCount := by
  rcases List.mem_cons.mp hf with rfl | hf
  · obtain ⟨source, -, hpresents⟩ := exists_of_forall₂ h.presents.flip hp
    exact hpresents.resolver.named
  · obtain ⟨t, ht, rfl⟩ := List.mem_map.mp hf
    obtain ⟨declaration, -, hattaches⟩ := exists_of_forall₂ (h.transformations p hp).flip ht
    exact hattaches.named

/-- What a declared property uses is declared as arguments of the property that it stands for. -/
theorem exists_of_mem_uses (h : L.Tabulates d sources transformations properties)
    {declaration : PropertyDeclaration} (hsource : .declared declaration ∈ sources)
    {use : String × TypeRef} (huse : use ∈ declaration.uses) :
    ∃ p ∈ properties, p.name = declaration.name ∧ use ∈ p.declaredArguments := by
  obtain ⟨p, hp, hpresents⟩ := exists_of_forall₂ h.presents hsource
  refine ⟨p, hp, hpresents.name, ?_⟩
  rw [hpresents.resolver.uses] at huse
  exact List.mem_append_left _ huse

/-- What a customization uses for a property is declared as arguments of that property. -/
theorem exists_of_uses {declaration : TypeDeclaration} {host : HostType} {fields : List ObjectField}
    (h : L.Tabulates d (declaration.sources host fields) declaration.transformations properties)
    (hsuits : declaration.Suits host fields) {property : String} {use : String × TypeRef}
    (huse : use ∈ declaration.uses property) :
    ∃ p ∈ properties, p.name = property ∧ use ∈ p.declaredArguments := by
  rcases List.mem_append.mp huse with huse | huse
  · obtain ⟨declared, hdeclared, huse⟩ := List.mem_flatMap.mp huse
    obtain ⟨hmem, hname⟩ := List.mem_filter.mp hdeclared
    rw [← of_decide_eq_true hname]
    exact h.exists_of_mem_uses (List.mem_append_right _ (List.mem_map_of_mem hmem)) huse
  · obtain ⟨t, ht, hused⟩ := List.mem_flatMap.mp huse
    obtain ⟨hmem, hname⟩ := List.mem_filter.mp ht
    have hproperty := hsuits.transformations t hmem
    rw [of_decide_eq_true hname, ← h.names_eq] at hproperty
    obtain ⟨p, hp, rfl⟩ := List.mem_map.mp hproperty
    obtain ⟨attached, hattached, hattaches⟩ := exists_of_forall₂ (h.transformations p hp) ht
    refine ⟨p, hp, rfl, List.mem_append_right _ (List.mem_flatMap.mpr ⟨attached, hattached, ?_⟩)⟩
    exact hattaches.uses ▸ hused

end Tabulates

end Ledger

namespace TypeGraph

variable (g : TypeGraph)

def names : Names where
  outputs host := g.outputs.lookup host
  inputs host := g.inputs.lookup host
  scalars host := g.scalarNames.lookup host
  isUnion name := (g.union? name).isSome

/-- A type literal is the translation of a description of an argument: it is of the same shape, and
names a type that stands for what is described. -/
def Accepts (ref : TypeRef) (type : TypeLiteral) : Prop :=
  ref.isInput = true ∧ ∃ name node, type = ref.literal name ∧ g.type? name = some node ∧
    node.identity.Serves ref.innermost

/-- The arguments of a property are those of the functions behind it: each name once, where a function
has it first, with the translation of each description that a function has for it. The translation is
the one by the names of the type graph, unless a type is described as an input object and as an enum,
where it depends on the moment. -/
structure Publishes (d : Declarations) (catalogue : Catalogue) (p : Property) : Prop where
  named : ∀ f ∈ p.parameters, f.names.length = f.argumentCount
  names : p.arguments.map (·.name) = (p.parameters.flatMap (·.names)).eraseDups
  types : ∀ f ∈ p.parameters, ∀ name ref, (name, ref) ∈ f.arguments →
    ∃ a, p.argument? name = some a ∧ g.Accepts ref a.type ∧
      ((∀ host outline shape, ref.innermost = .inputObject host outline →
        ¬ d.Describes catalogue (.enumeration host shape)) → g.names.inputType ref = some a.type)

end TypeGraph

namespace Declarations.Completes

variable {d : Declarations} {catalogue : Catalogue} {L : Ledger} {r : Registry}

/-- What stands for a description is its translation by the names at the end. -/
theorem inputType_eq (h : d.Completes catalogue L r) (mutation : Option String) {ref : TypeRef}
    {type : TypeLiteral} (htakes : L.Takes ref type)
    (hplain : ∀ host outline shape, ref.innermost = .inputObject host outline →
      ¬ d.Describes catalogue (.enumeration host shape)) :
    (r.graph mutation).names.inputType ref = some type := by
  obtain ⟨hinput, name, rfl, i, hmem, hserves⟩ := htakes
  induction ref with
  | nullable _ inner ih => exact congrArg (TypeLiteral.nullable <$> ·) (ih hplain hinput hserves)
  | list _ inner ih => exact congrArg ((TypeLiteral.list · true) <$> ·) (ih hplain hinput hserves)
  | scalar host =>
    obtain rfl := Identity.serves_scalar.mp hserves
    exact congrArg _ (h.scalarNames.mpr hmem)
  | enumeration host shape =>
    refine congrArg _ (h.outputs.mpr ?_)
    rcases Identity.serves_enumeration.mp hserves with rfl | rfl
    · exact .inl hmem
    · exact .inr hmem
  | inputObject host outline =>
    have hnone {other : String} : (other, .enumeration host) ∉ L := fun hother => by
      obtain ⟨shape, hdescribes⟩ := h.enums hother
      exact hplain host outline shape rfl hdescribes
    refine congrArg _ (h.inputs.mpr (.inr ⟨?_, fun _ => hnone⟩))
    rcases Identity.serves_inputObject.mp hserves with rfl | rfl
    · exact absurd hmem hnone
    · exact hmem
  | object | union | function | generic => cases hinput

theorem accepts (h : d.Completes catalogue L r) (mutation : Option String) {ref : TypeRef}
    {type : TypeLiteral} (htakes : L.Takes ref type) : (r.graph mutation).Accepts ref type := by
  obtain ⟨hinput, name, htype, i, hmem, hserves⟩ := htakes
  obtain ⟨node, hnode, -, -, rfl⟩ := h.exists_type? mutation hmem
  exact ⟨hinput, name, node, htype, hnode, hserves⟩

/-- A property of a table publishes what the functions behind it name. -/
theorem publishes (h : d.Completes catalogue L r) (mutation : Option String)
    {sources : List PropertySource} {transformations : List TransformationDeclaration}
    {properties : List Property} (htable : L.Tabulates d sources transformations properties)
    {p : Property} (hp : p ∈ properties) : (r.graph mutation).Publishes d catalogue p := by
  have hshares := htable.arguments p hp
  have hflat : p.declaredArguments.map (·.1) = p.parameters.flatMap (·.names) := by
    rw [Property.declaredArguments_eq, List.map_flatMap]
    exact List.flatMap_congr fun f hf => Parameters.map_fst_arguments (htable.named hp hf)
  have hnames : (p.arguments.map (·.name)).Nodup := hshares.names ▸ nodup_eraseDups _
  refine ⟨fun f hf => htable.named hp hf, hflat ▸ hshares.names, fun f hf name ref hmem => ?_⟩
  have hdeclared : (name, ref) ∈ p.declaredArguments := by
    rw [Property.declaredArguments_eq]
    exact List.mem_flatMap.mpr ⟨f, hf, hmem⟩
  obtain ⟨a, ha, rfl, htakes⟩ := hshares.types name ref hdeclared
  exact ⟨a, Property.argument?_of_mem hnames ha, h.accepts mutation htakes,
    fun hplain => h.inputType_eq mutation htakes hplain⟩

end Declarations.Completes

/-- The first argument that a property does not have is refused; else all are taken as they are, with
variables replaced by their values. -/
theorem Scope.argumentsOf_eq (scope : Scope) (o : ObjectType) (p : Property)
    (given : List (String × Literal)) : scope.argumentsOf o p given =
      match given.find? (·.1 ∉ p.arguments.map (·.name)) with
      | some a => .error (.ofMessage (s!"Unknown argument \"{a.1}\" on field " ++
          s!"\"{p.name}\" of type \"{o.name}\""))
      | none => .ok (scope.resolved given) := by
  induction given with
  | nil => rfl
  | cons a given ih =>
    obtain ⟨name, value⟩ := a
    rw [argumentsOf]
    cases hargument : p.argument? name with
    | none =>
      have hunknown := Property.argument?_isNone.mp (Option.isNone_iff_eq_none.mpr hargument)
      rw [List.find?_cons_of_pos (by simpa using hunknown)]
    | some argument =>
      have hknown : name ∈ p.arguments.map (·.name) := by
        by_contra hunknown
        rw [← Property.argument?_isNone, hargument] at hunknown
        cases hunknown
      rw [List.find?_cons_of_neg (by simpa using hknown), ih]
      cases given.find? (·.1 ∉ p.arguments.map (·.name)) <;> rfl

namespace SchemaBuilder

variable {catalogue : Catalogue} {b : SchemaBuilder} {s : Schema}

/-- A property of a schema publishes what the functions behind it name, and its transformations are
those that are declared for it. -/
theorem publishes_of_build (h : (b.build catalogue).1 = .ok s) {name : String} {o : ObjectType}
    (ho : (name, .object o) ∈ s.graph.types) {p : Property} (hp : p ∈ o.properties) :
    s.graph.Publishes b.declarations catalogue p ∧
      List.Forall₂ (TransformationDeclaration.Attaches p.resolver)
        (b.declarations.attachments o.host p.name) p.transformations := by
  obtain ⟨L, r, mutation, hcompletes, hgraph⟩ := completes_of_build h
  rw [hgraph] at ho ⊢
  cases hcompletes.objects (Declarations.Sound.mem_graph_types.mp ho) with
  | object _ _ htable =>
    refine ⟨hcompletes.publishes mutation htable hp, ?_⟩
    rw [Declarations.objectWith, Declarations.attachments_some]
    exact htable.transformations p hp
  | root _ htable =>
    exact ⟨hcompletes.publishes mutation htable hp, htable.transformations p hp⟩

/-- All descriptions under one name agree, of a property of a customized object. -/
theorem agrees_of_customized (hb : b.Arises catalogue) (h : (b.build catalogue).1 = .ok s)
    {host : HostType} {declaration : TypeDeclaration}
    (hlookup : b.declarations.types.lookup host = some declaration)
    (hobject : ∀ shape, ¬ b.declarations.Describes catalogue (.enumeration host shape))
    {property name : String} {ref other : TypeRef} (href : (name, ref) ∈ declaration.uses property)
    (hother : (name, other) ∈ declaration.uses property) : ref.Agrees other := by
  obtain ⟨label, o, ho, hhost⟩ := exists_customized hb h
    (List.mem_map_of_mem (Entries.mem_of_lookup hlookup)) hobject
  obtain ⟨L, r, mutation, hcompletes, hgraph⟩ := completes_of_build h
  rw [hgraph] at ho
  obtain ⟨outline, -, hsuits, htable⟩ := hcompletes.table_of_host ho hhost
  have hdeclaration : b.declarations.customization host outline = declaration := by
    rw [Declarations.customization, hlookup, Option.getD_some]
  rw [hdeclaration] at hsuits htable
  obtain ⟨p, hp, hname, hdeclared⟩ := htable.exists_of_uses hsuits href
  obtain ⟨q, hq, hname', hdeclared'⟩ := htable.exists_of_uses hsuits hother
  obtain rfl := List.inj_on_of_nodup_map htable.names hp hq (hname.trans hname'.symm)
  exact (htable.arguments p hp).agrees hcompletes.nodup hdeclared hdeclared'

theorem agrees_of_root (h : (b.build catalogue).1 = .ok s) {root : String × List PropertyDeclaration}
    (hroot : root ∈ b.declarations.roots) {declaration : PropertyDeclaration}
    (hmem : declaration ∈ root.2) {name : String} {ref other : TypeRef}
    (href : (name, ref) ∈ declaration.uses) (hother : (name, other) ∈ declaration.uses) :
    ref.Agrees other := by
  obtain ⟨L, r, mutation, hcompletes, -⟩ := completes_of_build h
  obtain ⟨o, -, -, htable⟩ := hcompletes.table_of_root mutation hroot
  have hsource := List.mem_map_of_mem (f := PropertySource.declared) hmem
  obtain ⟨p, hp, hname, hdeclared⟩ := htable.exists_of_mem_uses hsource href
  obtain ⟨q, hq, hname', hdeclared'⟩ := htable.exists_of_mem_uses hsource hother
  obtain rfl := List.inj_on_of_nodup_map htable.names hp hq (hname.trans hname'.symm)
  exact (htable.arguments p hp).agrees hcompletes.nodup hdeclared hdeclared'

/-- A property publishes its arguments as all functions behind it name and describe them, resolver
first, and a query may pass exactly these. Where two descriptions under one name do not agree, for a
property of an object that is customized or for a field of a root, nothing is built. -/
theorem build_arguments (hb : b.Arises catalogue) :
    (∀ s, (b.build catalogue).1 = .ok s → ∀ name o, (name, .object o) ∈ s.graph.types →
      ∀ p ∈ o.properties, s.graph.Publishes b.declarations catalogue p ∧
        List.Forall₂ (TransformationDeclaration.Attaches p.resolver)
          (b.declarations.attachments o.host p.name) p.transformations ∧
        ∀ (scope : Scope) (given : List (String × Literal)), scope.argumentsOf o p given =
          match given.find? (·.1 ∉ p.parameters.flatMap (·.names)) with
          | some a => .error (.ofMessage (s!"Unknown argument \"{a.1}\" on field " ++
              s!"\"{p.name}\" of type \"{o.name}\""))
          | none => .ok (scope.resolved given)) ∧
    (∀ host declaration, b.declarations.types.lookup host = some declaration →
      (∀ shape, ¬ b.declarations.Describes catalogue (.enumeration host shape)) →
      ∀ property name ref other, (name, ref) ∈ declaration.uses property →
        (name, other) ∈ declaration.uses property → ¬ ref.Agrees other →
        ∃ stop, (b.build catalogue).1 = .error stop) ∧
    ∀ root ∈ b.declarations.roots, ∀ declaration ∈ root.2, ∀ name ref other,
      (name, ref) ∈ declaration.uses → (name, other) ∈ declaration.uses → ¬ ref.Agrees other →
      ∃ stop, (b.build catalogue).1 = .error stop := by
  refine ⟨fun s hs name o ho p hp => ?_, fun host declaration hlookup hobject property name ref other
      href hother hclash => exists_error fun s hs =>
        hclash (agrees_of_customized hb hs hlookup hobject href hother),
    fun root hroot declaration hmem name ref other href hother hclash => exists_error fun s hs =>
      hclash (agrees_of_root hs hroot hmem href hother)⟩
  obtain ⟨hpublishes, hattached⟩ := publishes_of_build hs ho hp
  refine ⟨hpublishes, hattached, fun scope given => ?_⟩
  have hknown : (fun a : String × Literal => decide (a.1 ∉ p.arguments.map (·.name))) =
      fun a => decide (a.1 ∉ p.parameters.flatMap (·.names)) := by
    funext a
    exact decide_eq_decide.mpr (by rw [hpublishes.names, List.mem_eraseDups])
  rw [Scope.argumentsOf_eq, hknown]

namespace Sharing

open Declarations.Sample

def rating : PropertyDeclaration :=
  { PropertyDeclaration.extension "rating" with
    arguments := ["scale"]
    resolver := some ⟨.ofKinds [.argument (.scalar .int) fun _ _ => .ok .nothing], .scalar .int,
      .blocking (some film) fun _ _ => .answer (.ok .null)⟩ }

def rescaled : TransformationDeclaration :=
  ⟨"rating", ["genre", "scale"], some ⟨.int, .int, .ofKinds [.argument genre fun _ _ => .ok .nothing,
    .argument (.scalar .int) fun _ _ => .ok .nothing], fun _ => none, fun v _ => .ok v,
    fun v => .single .int v⟩⟩

def clashing : PropertyDeclaration :=
  { films with
    arguments := ["filter", "filter"]
    resolver := some ⟨.ofKinds [.argument (.inputObject filter filter) fun _ _ => .ok .nothing,
      .argument (.scalar .text) fun _ _ => .ok .nothing], .list (.sequence film) (.object film film),
      .suspending none fun _ _ => .answer (.ok .null)⟩ }

theorem not_agrees : ¬ TypeRef.Agrees (.inputObject filter filter) (.scalar .text) := by
  rintro ⟨-, -, name, i, -, hfilter, htext⟩
  obtain rfl := Identity.serves_scalar.mp htext
  rcases Identity.serves_inputObject.mp hfilter with h | h <;> cases h

def calls : List BuilderCall :=
  [.query films, .type (.object film film) ⟨fun t => { t with
    properties := t.properties ++ [rating], transformations := t.transformations ++ [rescaled] },
    fun _ => rfl⟩]

theorem exists_schema : ∃ s, ((ofCalls calls).build Declarations.Sample.catalogue).1 = .ok s ∧
    ∃ o, s.graph.type? "Film" = some (.object o) ∧ ∃ p, o.property? "rating" = some p ∧
      p.parameters.map (·.names) = [["scale"], ["genre", "scale"]] := ⟨_, rfl, _, rfl, _, rfl, rfl⟩

end Sharing

open Declarations.Sample Sharing in
/-- Ratings have a scale and a genre, and no other argument. With a clash in a root field there is no
schema. -/
theorem build_arguments_sample : (ofCalls Sharing.calls).Arises Declarations.Sample.catalogue ∧
    (∃ s o p, ((ofCalls Sharing.calls).build Declarations.Sample.catalogue).1 = .ok s ∧
      p ∈ o.properties ∧ p.arguments.map (·.name) = ["scale", "genre"] ∧ ∀ scope : Scope,
        scope.argumentsOf o p [("scale", .null), ("depth", .null)] =
          .error (.ofMessage ("Unknown argument \"depth\" on field " ++
            (s!"\"{p.name}\" of type \"{o.name}\"")))) ∧
    ∃ stop, ((ofCalls [.query clashing]).build Declarations.Sample.catalogue).1 = .error stop := by
  obtain ⟨s, hs, o, ho, p, hfound, hnames⟩ := exists_schema
  have hp : p ∈ o.properties := List.mem_of_find?_eq_some hfound
  have harises := arises_ofCalls Declarations.Sample.catalogue Sharing.calls
  obtain ⟨hpublished, -⟩ := build_arguments harises
  obtain ⟨hpublishes, -, htakes⟩ := hpublished s hs "Film" o (Entries.mem_of_lookup ho) p hp
  have hflat : p.parameters.flatMap (·.names) = ["scale", "genre", "scale"] := by
    rw [List.flatMap_def, hnames]
    rfl
  refine ⟨harises, ⟨s, o, p, hs, hp, ?_, fun scope => ?_⟩, ?_⟩
  · rw [hpublishes.names, hflat]
    rfl
  · rw [htakes, hflat]
    rfl
  · obtain ⟨-, -, hclash⟩ :=
      build_arguments (arises_ofCalls Declarations.Sample.catalogue [.query clashing])
    exact hclash ("Query", [clashing]) List.mem_cons_self clashing List.mem_cons_self "filter"
      (.inputObject filter filter) (.scalar .text) List.mem_cons_self
      (List.mem_cons_of_mem _ List.mem_cons_self) not_agrees

namespace Sharing

open Declarations.Sample

/-- Films are described as an enum first, and then customized as objects with a clashing property. -/
def overlooked : List BuilderCall :=
  [.query { PropertyDeclaration.extension "kind" with
      resolver := some ⟨.ofKinds [], .enumeration film ⟨"Kind", ["FEATURE"], fun _ => "FEATURE"⟩,
        .suspending none fun _ _ => .answer (.ok .null)⟩ },
    .type (.object film film) ⟨fun t => { t with properties := [clashing] }, fun _ => rfl⟩]

theorem build_overlooked :
    ∃ s, ((ofCalls overlooked).build Declarations.Sample.catalogue).1 = .ok s := ⟨_, rfl⟩

def counter : Resolver :=
  ⟨.ofKinds [.argument (.scalar .int) fun _ _ => .ok .nothing], .scalar .int,
    .suspending none fun _ _ => .answer (.ok (.single .int (.int 7)))⟩

def count : List BuilderCall :=
  [.query { PropertyDeclaration.extension "count" with
    arguments := ["limit"]
    resolver := some counter }]

def countProperty : Property :=
  ⟨"count", none, .current, .named "Int" true, [⟨"limit", .named "Int" true⟩], .extension,
    { counter with parameters := ⟨counter.parameters.kinds, ["limit"]⟩ }, []⟩

def countSchema : Schema where
  graph := ⟨ScalarType.builtin.map (fun s => (s.name, .scalar s)) ++
      [("Query", .object ⟨"Query", none, none, [countProperty]⟩)], [], [],
    ScalarType.builtin.map (fun s => (s.coercion.host, s.name)), "Query", none⟩
  configuration := .default

theorem build_count :
    ((ofCalls count).build Declarations.Sample.catalogue).1 = .ok countSchema := rfl

def counting (argument : String) : Document.Field :=
  ⟨⟨0, 2⟩, none, "count", [(argument, .scalar (.int 9))], [], none⟩

def countTwice : Request :=
  ⟨[.operation ⟨.origin, .query, none, [], [],
    [.field (counting "limit"), .field (counting "depth")]⟩], none, [], []⟩

def counted : Outcome := ⟨.object [("count", .scalar (.int 7))], [], []⟩

theorem execute_countTwice : countSchema.execute? 1 countTwice = some (.ok counted) := by cbv

end Sharing

open Declarations.Sample Sharing in
/-- A clash of arguments is overlooked if its object is described as an enum before. And an argument
that no function names is not refused in a field that is merged into another one. -/
theorem clash_overlooked :
    (∃ s declaration, ((ofCalls overlooked).build Declarations.Sample.catalogue).1 = .ok s ∧
      (ofCalls overlooked).declarations.types.lookup film = some declaration ∧
      ("filter", .inputObject filter filter) ∈ declaration.uses "films" ∧
      ("filter", .scalar .text) ∈ declaration.uses "films" ∧
      ¬ TypeRef.Agrees (.inputObject filter filter) (.scalar .text)) ∧
    ((ofCalls count).build Declarations.Sample.catalogue).1 = .ok countSchema ∧
    countSchema.graph.type? "Query" = some (.object ⟨"Query", none, none, [countProperty]⟩) ∧
    "depth" ∉ countProperty.parameters.flatMap (·.names) ∧
    countSchema.execute? 1 countTwice = some (.ok counted) ∧ counted.errors = [] := by
  obtain ⟨s, hs⟩ := build_overlooked
  exact ⟨⟨s, _, hs, rfl, List.mem_cons_self, List.mem_cons_of_mem _ List.mem_cons_self, not_agrees⟩,
    build_count, rfl, by simp [countProperty, Property.parameters], execute_countTwice, rfl⟩

end SchemaBuilder

end Trellis
