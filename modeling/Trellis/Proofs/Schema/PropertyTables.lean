import Trellis.Proofs.Schema.Lookups
import Trellis.Proofs.Schema.ReachableTypes
import Trellis.Proofs.Schema.TableWalks

/-!
Property tables of built objects.

Customizations of one host type are put together call by call. The properties of the object are its
fields that no call ignores, and then what the calls declare, call after call; those of a root are what
is declared for it. What returns members of a union is marked so, and nothing else is. A customization
that does not suit its object keeps a schema from being built.
-/

namespace Trellis

theorem TypeNode.eq_object {node : TypeNode} {host : Option HostType}
    (h : node.identity = .object host) : ∃ o, node = .object o ∧ o.host = host := by
  cases node with
  | object o => exact ⟨o, rfl, Identity.object.inj h⟩
  | scalar | enumeration | union | inputObject => cases h

namespace TypeGraph

variable (g : TypeGraph)

/-- A property is what its source says. It is marked as one of a union exactly if the name inside its
type is that of a union, and then this is the union that was declared. -/
structure Row (source : PropertySource) (p : Property) : Prop where
  name : p.name = source.name
  resolver : source.Resolves p.resolver
  origin : p.origin = source.origin
  /-- A declared property is not marked as a field unless it is declared so. -/
  native : p.origin = .native → ∀ declaration, source = .declared declaration →
    declaration.origin = .native
  union : p.origin = .union ↔ (g.union? p.type.innermost).isSome
  declared : p.origin = .union → source.union? = some p.type.innermost

/-- Properties come from their sources, in order, and their names are distinct. -/
structure Lists (sources : List PropertySource) (properties : List Property) : Prop where
  rows : List.Forall₂ g.Row sources properties
  names : (properties.map (·.name)).Nodup

variable {g}

theorem Lists.names_eq {sources : List PropertySource} {properties : List Property}
    (h : g.Lists sources properties) : properties.map (·.name) = sources.map (·.name) :=
  PropertySource.names_eq h.rows fun _ _ hp => hp.name

end TypeGraph

namespace Declarations.Completes

variable {d : Declarations} {catalogue : Catalogue} {L : Ledger} {r : Registry}

theorem row (h : d.Completes catalogue L r) (mutation : Option String) {source : PropertySource}
    {p : Property} (hp : L.Presents d source p) : (r.graph mutation).Row source p := by
  have hnative (horigin : p.origin = .native) (declaration : PropertyDeclaration)
      (hsource : source = .declared declaration) : declaration.origin = .native := by
    rw [hp.origin, hsource, PropertySource.origin] at horigin
    split at horigin
    · cases horigin
    · exact horigin
  cases hunion : source.union? with
  | some union =>
    obtain ⟨hmem, htype⟩ := hp.union union hunion
    obtain ⟨entry, hentry, rfl⟩ := List.mem_map.mp hmem
    have hinnermost : p.type.innermost = entry.1 := by rw [htype, TypeRef.innermost_literal]
    have horigin : p.origin = .union := by
      rw [hp.origin]
      cases source with
      | field => cases hunion
      | declared declaration => exact if_pos (Option.isSome_iff_exists.mpr ⟨_, hunion⟩)
    refine ⟨hp.name, hp.resolver, hp.origin, hnative, iff_of_true horigin ?_, fun _ => ?_⟩
    · rw [h.union?_isSome_iff, hinnermost]
      exact h.unions entry hentry
    · rw [hinnermost]
      exact hunion
  | none =>
    obtain ⟨horigin, name, htype, i, hmem, hserves⟩ := hp.type hunion
    rw [← hp.origin] at horigin
    have hinnermost : p.type.innermost = name := by rw [htype, TypeRef.innermost_literal]
    refine ⟨hp.name, hp.resolver, hp.origin, hnative, iff_of_false horigin fun hsome => ?_,
      fun he => absurd he horigin⟩
    rw [h.union?_isSome_iff, hinnermost] at hsome
    obtain rfl := h.identity_unique hmem hsome
    exact hserves

theorem lists (h : d.Completes catalogue L r) (mutation : Option String)
    {sources : List PropertySource} {transformations : List TransformationDeclaration}
    {properties : List Property} (htable : L.Tabulates d sources transformations properties) :
    (r.graph mutation).Lists sources properties :=
  ⟨htable.presents.imp fun _ _ => h.row mutation, htable.names⟩

/-- The object of a host type is what the host type is described and customized as. -/
theorem table_of_host (h : d.Completes catalogue L r) {mutation : Option String} {name : String}
    {o : ObjectType} (ho : (name, .object o) ∈ (r.graph mutation).types) {host : HostType}
    (hhost : o.host = some host) : ∃ outline, d.Describes catalogue (.object host outline) ∧
      (d.customization host outline).Suits host (catalogue.object outline).fields ∧
      L.Tabulates d ((d.customization host outline).sources host (catalogue.object outline).fields)
        (d.customization host outline).transformations o.properties := by
  cases h.objects (Sound.mem_graph_types.mp ho) with
  | @object key outline properties hdescribes hsuits htable =>
    cases hhost
    exact ⟨outline, hdescribes, hsuits, htable⟩
  | root => cases hhost

theorem table_of_root (h : d.Completes catalogue L r) (mutation : Option String)
    {root : String × List PropertyDeclaration} (hroot : root ∈ d.roots) :
    ∃ o, (root.1, .object o) ∈ (r.graph mutation).types ∧ o.host = none ∧
      L.Tabulates d (root.2.map .declared) [] o.properties := by
  obtain ⟨node, -, hstored, hname, hidentity⟩ := h.exists_type? mutation (h.roots root hroot)
  obtain ⟨o, rfl, hhost⟩ := TypeNode.eq_object hidentity
  refine ⟨o, hstored, hhost, ?_⟩
  cases h.objects (Sound.mem_graph_types.mp hstored) with
  | object => cases hhost
  | @root other properties hother htable =>
    obtain rfl : other = root := List.inj_on_of_nodup_map (Proper.roots_nodup _) hother hroot hname
    exact htable

end Declarations.Completes

/-! ### Customizations put together -/

/-- A customization declares some properties after those that were declared before. -/
def Customization.Declares (c : Customization) (properties : List PropertyDeclaration) : Prop :=
  ∀ declaration, (c.change declaration).properties = declaration.properties ++ properties

/-- How a call customizes the object of a host type. -/
def BuilderCall.customizes? (host : HostType) : BuilderCall → Option (TypeRef × Customization)
  | .type (.object key outline) c => if key = host then some (.object key outline, c) else none
  | _ => none

namespace SchemaBuilder

/-- The customizations of a host type, in the order of the calls. -/
def customizations (calls : List BuilderCall) (host : HostType) : List (TypeRef × Customization) :=
  calls.filterMap (·.customizes? host)

/-- A declaration after one more customization; the first one begins with what is described. -/
def customizeFurther (earlier : Option TypeDeclaration) (c : TypeRef × Customization) :
    Option TypeDeclaration :=
  some (c.2.change (earlier.getD (.plain c.1)))

/-- The customizations of a host type put together: each one goes on from those before it. -/
def merged (calls : List BuilderCall) (host : HostType) : Option TypeDeclaration :=
  (customizations calls host).foldl customizeFurther none

/-- What an object is customized as; without a customization it is left as it is. -/
def customized (calls : List BuilderCall) (host outline : HostType) : TypeDeclaration :=
  (merged calls host).getD (.plain (.object host outline))

theorem merged_concat (calls : List BuilderCall) (c : BuilderCall) (host : HostType) :
    merged (calls ++ [c]) host =
      (c.customizes? host).toList.foldl customizeFurther (merged calls host) := by
  rw [merged, customizations, List.filterMap_append, List.foldl_append]
  cases hc : c.customizes? host <;> simp [hc, merged, customizations]

/-- A builder keeps the customizations of each host type put together. -/
theorem types_ofCalls (calls : List BuilderCall) (host : HostType) :
    (ofCalls calls).declarations.types.lookup host = merged calls host := by
  induction calls using List.reverseRecOn with
  | nil => rfl
  | append_singleton calls c ih =>
    rw [ofCalls_concat, merged_concat, ← ih]
    cases c with
    | query | mutation | input => rfl
    | enumeration ref => cases ref <;> rfl
    | type ref customization =>
      cases ref with
      | object key outline =>
        rw [call, type, declare, Entries.lookup_refresh, BuilderCall.customizes?]
        by_cases hkey : key = host
        · rw [if_pos hkey.symm, if_pos hkey, hkey]
          rfl
        · rw [if_neg (Ne.symm hkey), if_neg hkey]
          rfl
      | scalar | enumeration | inputObject | union | list | nullable | function | generic => rfl
    | union name d =>
      rw [call, union]
      split <;> rfl
    | scalar d =>
      rw [call, scalar]
      split <;> rfl

theorem customization_ofCalls (calls : List BuilderCall) (host outline : HostType) :
    (ofCalls calls).declarations.customization host outline = customized calls host outline := by
  rw [Declarations.customization, types_ofCalls, customized]

/-- Properties that are declared call after call stand one after the other. -/
theorem properties_foldl {customizations : List (TypeRef × Customization)}
    {declared : List (List PropertyDeclaration)} (h : List.Forall₂
      (fun c properties => c.2.Declares properties) customizations declared) (type : TypeRef)
    (earlier : Option TypeDeclaration) :
    ((customizations.foldl customizeFurther earlier).getD (.plain type)).properties =
      (earlier.getD (.plain type)).properties ++ declared.flatten := by
  induction h generalizing earlier with
  | nil => rw [List.flatten_nil, List.append_nil, List.foldl_nil]
  | @cons c properties _ _ hc _ ih =>
    have hfirst : ((customizeFurther earlier c).getD (.plain type)).properties =
        (earlier.getD (.plain type)).properties ++ properties := by
      refine (hc _).trans ?_
      cases earlier <;> rfl
    rw [List.foldl_cons, ih, hfirst, List.flatten_cons, List.append_assoc]

/-- What a call declares depends on what was declared, and on nothing else of a builder. -/
theorem declarations_call {b b' : SchemaBuilder} (h : b.declarations = b'.declarations)
    (c : BuilderCall) : (b.call c).declarations = (b'.call c).declarations := by
  cases c with
  | query | mutation | input => simp only [call, query, mutation, input, declare, h]
  | type ref => cases ref <;> simp only [call, type, declare, refuse, h]
  | enumeration ref => cases ref <;> simp only [call, enumeration, declare, refuse, h]
  | union name d =>
    simp only [call, union, declare, refuse, h]
    split <;> rfl
  | scalar d =>
    simp only [call, scalar, declare, refuse]
    split <;> simp only [h]

/-- A program's builder has what was declared since it was last used up. -/
theorem Arises.exists_calls {catalogue : Catalogue} {b : SchemaBuilder} (h : Arises catalogue b) :
    ∃ calls, b.declarations = (ofCalls calls).declarations := by
  induction h with
  | new => exact ⟨[], rfl⟩
  | @call b c _ ih =>
    obtain ⟨calls, hcalls⟩ := ih
    refine ⟨calls ++ [c], ?_⟩
    rw [ofCalls_concat]
    exact declarations_call hcalls c
  | configure _ _ ih => exact ih
  | @build b _ ih =>
    rcases declarations_build b catalogue with h | h
    · exact h ▸ ih
    · exact ⟨[], h⟩

/-! ### Tables -/

variable {catalogue : Catalogue} {b : SchemaBuilder} {s : Schema}

theorem completes_of_build (h : (b.build catalogue).1 = .ok s) :
    ∃ L r mutation, b.declarations.Completes catalogue L r ∧ s.graph = r.graph mutation := by
  obtain ⟨r, hruns, hgraph⟩ := Declarations.register_eq_ok.mp (register_of_build h)
  obtain ⟨L, hcompletes⟩ := Declarations.completes_of_runs hruns
  exact ⟨L, r, _, hcompletes, hgraph⟩

theorem exists_error (h : ∀ s, (b.build catalogue).1 ≠ .ok s) :
    ∃ stop, (b.build catalogue).1 = .error stop := by
  cases hbuild : (b.build catalogue).1 with
  | error stop => exact ⟨stop, rfl⟩
  | ok s => exact absurd hbuild (h s)

/-- The object of a host type has the table that its description and its customization lay out. -/
theorem table_of_object (h : (b.build catalogue).1 = .ok s) {name : String} {o : ObjectType}
    (ho : (name, .object o) ∈ s.graph.types) {host : HostType} (hhost : o.host = some host) :
    ∃ outline, b.declarations.Describes catalogue (.object host outline) ∧
      (b.declarations.customization host outline).Suits host (catalogue.object outline).fields ∧
      s.graph.Lists ((b.declarations.customization host outline).sources host
        (catalogue.object outline).fields) o.properties := by
  obtain ⟨L, r, mutation, hcompletes, hgraph⟩ := completes_of_build h
  rw [hgraph] at ho ⊢
  obtain ⟨outline, hdescribes, hsuits, htable⟩ := hcompletes.table_of_host ho hhost
  exact ⟨outline, hdescribes, hsuits, hcompletes.lists mutation htable⟩

theorem table_of_root (h : (b.build catalogue).1 = .ok s) {root : String × List PropertyDeclaration}
    (hroot : root ∈ b.declarations.roots) :
    ∃ o, (root.1, .object o) ∈ s.graph.types ∧ o.host = none ∧
      s.graph.Lists (root.2.map .declared) o.properties := by
  obtain ⟨L, r, mutation, hcompletes, hgraph⟩ := completes_of_build h
  rw [hgraph]
  obtain ⟨o, ho, hhost, htable⟩ := hcompletes.table_of_root mutation hroot
  exact ⟨o, ho, hhost, hcompletes.lists mutation htable⟩

/-- The object of a host type is there as soon as the host type is customized, unless an enum is
described for it too. -/
theorem exists_customized (hb : b.Arises catalogue) (h : (b.build catalogue).1 = .ok s)
    {host : HostType} (hcustomized : host ∈ b.declarations.types.map (·.1))
    (hobject : ∀ shape, ¬ b.declarations.Describes catalogue (.enumeration host shape)) :
    ∃ name o, (name, .object o) ∈ s.graph.types ∧ o.host = some host := by
  obtain ⟨L, r, mutation, hcompletes, hgraph⟩ := completes_of_build h
  rw [hgraph]
  obtain ⟨declaration, hlookup⟩ : ∃ declaration,
      b.declarations.types.lookup host = some declaration :=
    Option.ne_none_iff_exists'.mp fun hnone => Entries.notMem_of_lookup hnone hcustomized
  obtain ⟨outline, htype⟩ := hb.proper.types host declaration (Entries.mem_of_lookup hlookup)
  obtain ⟨name, i, hmem, hserves⟩ := hcompletes.customized host outline declaration hlookup htype
  obtain ⟨node, -, hstored, -, hidentity⟩ := hcompletes.exists_type? mutation hmem
  rcases Identity.serves_object.mp hserves with rfl | rfl
  · obtain ⟨o, rfl, hhost⟩ := TypeNode.eq_object hidentity
    exact ⟨name, o, hstored, hhost⟩
  · obtain ⟨shape, hdescribes⟩ := hcompletes.enums hmem
    exact absurd hdescribes (hobject shape)

/-- The object of a host type is there as soon as it can be reached, if every host type is described in
one way. -/
theorem exists_reached (hb : b.Arises catalogue) (h : (b.build catalogue).1 = .ok s)
    (hd : b.declarations.Coherent catalogue) {host outline : HostType}
    (hreaches : b.declarations.Reaches catalogue (fun _ => True) (.object host outline)) :
    ∃ name o, (name, .object o) ∈ s.graph.types ∧ o.host = some host := by
  obtain ⟨r, hruns, hgraph⟩ := Declarations.register_eq_ok.mp (register_of_build h)
  obtain ⟨taken, hexplored, hentrances⟩ := Registering.addAll_explored hb.proper hruns
  have htaken := hexplored.mem_of_reaches hentrances hd.consistent
    (hexplored.reaches_taken hentrances hd.consistent hreaches) rfl
  have hidentity : .object (some host) ∈ s.graph.identities := by
    rw [hgraph]
    exact (hexplored.mem_identities _).mpr ⟨_, htaken, rfl⟩
  obtain ⟨⟨name, node⟩, hstored, hnode⟩ := List.mem_map.mp (List.mem_filter.mp hidentity).1
  obtain ⟨o, rfl, hhost⟩ := TypeNode.eq_object hnode
  exact ⟨name, o, hstored, hhost⟩

/-- The property table of a built object is exact. A builder has the customizations that it was called
with, put together call by call. An object has its fields that are not ignored, then the declared
properties, call after call, and a root what is declared for it; their names are distinct, and exactly
the properties with the type of a union are marked as such, with the union that they declare. If a
customization does not suit an object that is customized or can be reached, or if two fields of a root
have one name, then nothing is built. -/
theorem build_tables (hb : b.Arises catalogue) :
    (∃ calls, b.declarations = (ofCalls calls).declarations) ∧
    (∀ calls, b.declarations = (ofCalls calls).declarations → ∀ host outline,
      b.declarations.customization host outline = customized calls host outline ∧
      ∀ declared, List.Forall₂ (fun c properties => c.2.Declares properties)
        (customizations calls host) declared →
          (b.declarations.customization host outline).properties = declared.flatten) ∧
    (∀ s, (b.build catalogue).1 = .ok s →
      (∀ name o host, (name, .object o) ∈ s.graph.types → o.host = some host →
        ∃ outline, b.declarations.Describes catalogue (.object host outline) ∧
          (b.declarations.customization host outline).Suits host (catalogue.object outline).fields ∧
          s.graph.Lists ((b.declarations.customization host outline).sources host
            (catalogue.object outline).fields) o.properties) ∧
      ∀ root ∈ b.declarations.roots, ∃ o, (root.1, .object o) ∈ s.graph.types ∧ o.host = none ∧
        s.graph.Lists (root.2.map .declared) o.properties) ∧
    (∀ host ∈ b.declarations.types.map (·.1),
      (∀ shape, ¬ b.declarations.Describes catalogue (.enumeration host shape)) →
      (∀ outline, b.declarations.Describes catalogue (.object host outline) →
        ¬ (b.declarations.customization host outline).Suits host (catalogue.object outline).fields) →
      ∃ stop, (b.build catalogue).1 = .error stop) ∧
    (b.declarations.Coherent catalogue → ∀ host outline,
      b.declarations.Reaches catalogue (fun _ => True) (.object host outline) →
      ¬ (b.declarations.customization host outline).Suits host (catalogue.object outline).fields →
      ∃ stop, (b.build catalogue).1 = .error stop) ∧
    ∀ root ∈ b.declarations.roots, ¬ (root.2.map (·.name)).Nodup →
      ∃ stop, (b.build catalogue).1 = .error stop := by
  refine ⟨hb.exists_calls, fun calls hcalls host outline => ?_,
    fun s hs => ⟨fun name o host ho hhost => table_of_object hs ho hhost,
      fun root hroot => table_of_root hs hroot⟩, fun host hcustomized hobject hunsuited => ?_,
    fun hd host outline hreaches hunsuited => ?_, fun root hroot hnames => ?_⟩
  · rw [hcalls, customization_ofCalls]
    exact ⟨rfl, fun declared hdeclared => properties_foldl hdeclared _ none⟩
  · refine exists_error fun s hs => ?_
    obtain ⟨name, o, ho, hhost⟩ := exists_customized hb hs hcustomized hobject
    obtain ⟨outline, hdescribes, hsuits, -⟩ := table_of_object hs ho hhost
    exact hunsuited outline hdescribes hsuits
  · refine exists_error fun s hs => ?_
    obtain ⟨name, o, ho, hhost⟩ := exists_reached hb hs hd hreaches
    obtain ⟨other, hdescribes, hsuits, -⟩ := table_of_object hs ho hhost
    rw [hd.outlines host other outline hdescribes hreaches.describes] at hsuits
    exact hunsuited hsuits
  · refine exists_error fun s hs => hnames ?_
    obtain ⟨o, -, -, hlists⟩ := table_of_root hs hroot
    have hdistinct := hlists.names
    rwa [hlists.names_eq, List.map_map] at hdistinct

namespace Extending

open Declarations.Sample

def rating : PropertyDeclaration :=
  { PropertyDeclaration.extension "rating" with
    resolver := some ⟨.ofKinds [], .scalar .int,
      .blocking (some film) fun _ _ => .answer (.ok .null)⟩ }

def related : PropertyDeclaration :=
  { PropertyDeclaration.ofUnion "related" with
    resolver := some ⟨.ofKinds [], .list (.sequence .member) (.union .member),
      .blocking (some film) fun _ _ => .answer (.ok .null)⟩
    union := some "Media" }

/-- One customization of films ignores their makers and declares a property, a later one declares
another property. -/
def calls : List BuilderCall :=
  [.query films,
    .type (.object film film) ⟨fun t => { t with
      ignored := t.ignored ++ ["maker"], properties := t.properties ++ [rating] }, fun _ => rfl⟩,
    .union "Media" ⟨none, [.object film film]⟩,
    .type (.object film film) ⟨fun t => { t with properties := t.properties ++ [related] },
      fun _ => rfl⟩]

theorem exists_schema : ∃ s, ((ofCalls calls).build Ignoring.catalogue).1 = .ok s ∧
    ∃ o, s.graph.type? "Film" = some (.object o) ∧ o.host = some film := ⟨_, rfl, _, rfl, rfl⟩

end Extending

open Declarations.Sample Extending in
/-- Films have the properties that both calls declare, after their own; the field of the query root
stands alone. -/
theorem build_tables_sample : (ofCalls Extending.calls).Arises Ignoring.catalogue ∧
    ∃ s o outline, ((ofCalls Extending.calls).build Ignoring.catalogue).1 = .ok s ∧
      s.graph.type? "Film" = some (.object o) ∧ (o.properties.map (·.name)).Nodup ∧
      o.properties.map (·.name) = (((Ignoring.catalogue.object outline).fields.filter
        (·.name ∉ ["maker"])).map (·.name)) ++ ["rating", "related"] ∧
      ∃ query, ("Query", .object query) ∈ s.graph.types ∧
        query.properties.map (·.name) = ["films"] := by
  obtain ⟨s, hs, o, ho, hhost⟩ := exists_schema
  have harises := arises_ofCalls Ignoring.catalogue Extending.calls
  obtain ⟨-, -, htables, -⟩ := build_tables harises
  obtain ⟨hobjects, hroots⟩ := htables s hs
  obtain ⟨outline, -, -, hlists⟩ := hobjects "Film" o film (Entries.mem_of_lookup ho) hhost
  obtain ⟨query, hquery, -, hfields⟩ := hroots ("Query", [films]) List.mem_cons_self
  refine ⟨harises, s, o, outline, hs, ho, hlists.names, ?_, query, hquery, hfields.names_eq⟩
  rw [hlists.names_eq, TypeDeclaration.sources, List.map_append, List.map_map, List.map_map]
  rfl

namespace Extending

open Declarations.Sample

/-- Films are described as an enum first, and then customized as objects without a field that they
do not have. -/
def unsuited : List BuilderCall :=
  [.query { PropertyDeclaration.extension "kind" with
      resolver := some ⟨.ofKinds [], .enumeration film ⟨"Kind", ["FEATURE"], fun _ => "FEATURE"⟩,
        .suspending none fun _ _ => .answer (.ok .null)⟩ },
    .type (.object film film) ⟨fun t => { t with ignored := ["colour"] }, fun _ => rfl⟩]

theorem build_unsuited :
    ∃ s, ((ofCalls unsuited).build Ignoring.catalogue).1 = .ok s := ⟨_, rfl⟩

theorem not_suits : ¬ ((ofCalls unsuited).declarations.customization film film).Suits film
    (Ignoring.catalogue.object film).fields := by
  intro h
  have hignored := h.ignored "colour" List.mem_cons_self
  simp [Ignoring.catalogue, Catalogue.object] at hignored

/-- Films with the property of the later call, on a builder that has built a schema with both. -/
def extendedAgain : SchemaBuilder :=
  ((ofCalls Extending.calls).build Ignoring.catalogue).2.call
    (.type (.object film film) ⟨fun t => { t with properties := t.properties ++ [rating] },
      fun _ => rfl⟩)

theorem arises_extendedAgain : extendedAgain.Arises Ignoring.catalogue :=
  (arises_ofCalls _ _).build.call _

theorem build_extendedAgain : ∃ s, (extendedAgain.build Ignoring.catalogue).1 = .ok s ∧
    ∃ o, s.graph.type? "Film" = some (.object o) ∧ o.host = some film ∧
      o.properties.map (·.name) = ["title", "maker", "sequels", "rating"] :=
  ⟨_, rfl, _, rfl, rfl, rfl⟩

end Extending

open Declarations.Sample Extending in
/-- A schema is built although a customization does not suit its object, if the host type is described
as an enum before. And what calls declared for one schema is not a property of the next. -/
theorem unsuited_built :
    (∃ s, ((ofCalls unsuited).build Ignoring.catalogue).1 = .ok s ∧
      ¬ ((ofCalls unsuited).declarations.customization film film).Suits film
        (Ignoring.catalogue.object film).fields) ∧
    related ∈ (customized Extending.calls film film).properties ∧
    extendedAgain.Arises Ignoring.catalogue ∧
    ∃ s o, (extendedAgain.build Ignoring.catalogue).1 = .ok s ∧
      s.graph.type? "Film" = some (.object o) ∧ o.host = some film ∧
      related.name ∉ o.properties.map (·.name) := by
  obtain ⟨s, hs⟩ := build_unsuited
  obtain ⟨s', hs', o, ho, hhost, hnames⟩ := build_extendedAgain
  refine ⟨⟨s, hs, not_suits⟩, ?_, arises_extendedAgain, s', o, hs', ho, hhost, ?_⟩
  · exact List.mem_cons_of_mem _ List.mem_cons_self
  · rw [hnames]
    simp [related, PropertyDeclaration.ofUnion]

end SchemaBuilder

end Trellis
