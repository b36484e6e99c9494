import Trellis.Proofs.Pointers.Agreement

/-!
Walks over declarations that are the same without pointers.

Every walk of a registration agrees with itself over declarations with the pointers elsewhere:
types are found and named by host types that have no pointers in them, and the host types of
nullable types and lists are asked for by transformations alone.
-/

namespace Trellis

namespace Registering

namespace Agrees

theorem reserve (name : String) :
    Agrees id (Registering.reserve name) (Registering.reserve name) := by
  refine .get_bind fun r r' h => ?_
  rw [Entries.isSome_lookup_congr h.types]
  split
  · exact .refuse rfl
  · exact .modifies fun r r' h => { h with
      types := by rw [List.map_append, List.map_append, h.types] }

theorem fill {node node' : TypeNode} (h : node.bare = node'.bare) :
    Agrees id (Registering.fill node) (Registering.fill node') := by
  have hname : node.name = node'.name := by
    rw [← TypeNode.name_bare, h, TypeNode.name_bare]
  refine .modifies fun r r' hr => { hr with types := ?_ }
  rw [List.map_map, List.map_map, map_eq_map_iff_forall₂]
  refine (map_eq_map_iff_forall₂.mp hr.types).imp fun (name, slot) (name', slot') hentry => ?_
  obtain ⟨hkey, hslot⟩ := Prod.mk.inj hentry
  change name = name' at hkey
  subst hkey
  simp only [Function.comp_apply, ← hname]
  split
  · simp only [Prod.map_apply, Option.map_some, h]
  · exact hentry

theorem addScalar (scalar : ScalarType) :
    Agrees id (Registering.addScalar scalar) (Registering.addScalar scalar) := by
  refine .get_bind fun r r' h => ?_
  rw [h.scalarNames]
  split
  · exact .refuse rfl
  · refine (Agrees.reserve _).bind fun _ _ _ => ?_
    exact .modify_bind (fun r r' h => { h with scalarNames := by rw [h.scalarNames] }) (.fill rfl)

theorem scalarName (host : HostType) :
    Agrees id (Registering.scalarName host) (Registering.scalarName host) := by
  refine .get_bind fun r r' h => ?_
  rw [h.scalarNames]
  split
  · exact .pure rfl
  · exact .refuse rfl

theorem registerEnum (host : HostType) (shape : EnumShape) :
    Agrees id (Registering.registerEnum host shape) (Registering.registerEnum host shape) := by
  refine .get_bind fun r r' h => ?_
  rw [h.outputs]
  split
  · exact .pure rfl
  · refine .get_bind fun r r' h => ?_
    rw [h.enumDeclarations]
    refine .modify_bind (fun r r' h => { h with
      enumDeclarations := by rw [h.enumDeclarations] }) ?_
    refine (Agrees.reserve _).bind fun _ _ _ => .modify_bind (fun r r' h => { h with
      outputs := by rw [h.outputs]
      inputs := by rw [h.inputs] }) ?_
    exact (Agrees.fill rfl).bind fun _ _ _ => .pure rfl

/-! ### Types of arguments and of values -/

/-- A walk of host types that agrees with itself. -/
def Walk (walk : HostType → HostType → Registering String) : Prop :=
  ∀ host outline, Agrees id (walk host outline) (walk host outline)

theorem inputType {walk : HostType → HostType → Registering String} (hwalk : Walk walk)
    {ref ref' : TypeRef} (h : ref.Alike ref') :
    Agrees id (Registering.inputType walk ref) (Registering.inputType walk ref') := by
  induction h with
  | scalar host => exact (Agrees.scalarName host).map fun _ _ => congrArg nonNull
  | enumeration host shape => exact (Agrees.registerEnum host shape).map fun _ _ => congrArg nonNull
  | inputObject host outline => exact (hwalk host outline).map fun _ _ => congrArg nonNull
  | list _ _ ih => exact ih.map fun _ _ => congrArg (TypeLiteral.list · true)
  | nullable _ _ ih => exact ih.map fun _ _ => congrArg TypeLiteral.nullable
  | object | union | function | generic => exact .refuse rfl

variable (catalogue : Catalogue)

theorem registerInput (depth : Nat) : Walk (Registering.registerInput catalogue depth) := by
  induction depth with
  | zero => exact fun _ _ => .tooDeep
  | succ depth ih =>
    intro host outline
    refine .get_bind fun r r' h => ?_
    rw [h.inputs]
    split
    · exact .pure rfl
    · refine (Agrees.reserve _).bind fun _ _ _ =>
        .modify_bind (fun r r' h => { h with inputs := by rw [h.inputs] }) ?_
      refine Agrees.bind (Agrees.mapM (List.forall₂_same.mpr fun field _ => ?_) :
        Agrees (List.map id) _ _) fun fields fields' hfields => ?_
      · exact (Agrees.inputType ih (.refl _)).bind fun _ _ htype =>
          .pure (congrArg (field.name, ·) htype)
      · rw [List.map_id, List.map_id] at hfields
        subst hfields
        exact (Agrees.fill rfl).bind fun _ _ _ => .pure rfl

theorem outputType {walk : HostType → HostType → Registering String} (hwalk : Walk walk)
    (site : Site) {ref ref' : TypeRef} (h : ref.Alike ref') :
    Agrees id (Registering.outputType walk site ref) (Registering.outputType walk site ref') := by
  induction h with
  | scalar host => exact (Agrees.scalarName host).map fun _ _ => congrArg nonNull
  | enumeration host shape => exact (Agrees.registerEnum host shape).map fun _ _ => congrArg nonNull
  | object host outline => exact (hwalk host outline).map fun _ _ => congrArg nonNull
  | list _ _ ih => exact ih.map fun _ _ => congrArg (TypeLiteral.list · true)
  | nullable _ _ ih => exact ih.map fun _ _ => congrArg TypeLiteral.nullable
  | union host =>
    rw [Registering.outputType]
    split
    · exact .pure rfl
    · exact .refuse rfl
  | inputObject | function | generic => exact .refuse rfl

theorem mergeArguments (depth : Nat) (owner property : String) (arguments : List Argument)
    {declared declared' : List (String × TypeRef)}
    (h : declared.map (Prod.map id TypeRef.bare) = declared'.map (Prod.map id TypeRef.bare)) :
    Agrees id (Registering.mergeArguments catalogue depth owner property arguments declared)
      (Registering.mergeArguments catalogue depth owner property arguments declared') := by
  rw [map_eq_map_iff_forall₂] at h
  induction h generalizing arguments with
  | nil => exact .pure rfl
  | @cons argument argument' _ _ hargument _ ih =>
    obtain ⟨name, ref⟩ := argument
    obtain ⟨name', ref'⟩ := argument'
    obtain ⟨hname, href⟩ := Prod.mk.inj hargument
    change name = name' at hname
    subst hname
    refine (Agrees.inputType (Agrees.registerInput catalogue depth)
      (TypeRef.alike_of_bare href)).bind fun type type' htype => ?_
    obtain rfl : type = type' := htype
    split
    · exact ih _
    · split
      · exact ih _
      · exact .refuse rfl

/-! ### Properties -/

theorem checkUnion (owner : String) {d d' : PropertyDeclaration} (hname : d.name = d'.name)
    (hunion : d.union = d'.union) {returns returns' : TypeRef} (h : returns.Alike returns') :
    Agrees id (Registering.checkUnion owner d returns)
      (Registering.checkUnion owner d' returns') := by
  rw [Registering.checkUnion, Registering.checkUnion, hname, hunion, h.isUnion]
  split
  · exact .refuse rfl
  · refine .get_bind fun r r' hr => ?_
    rw [hr.unionNames]
    split
    · exact .refuse rfl
    · split
      · exact .pure rfl
      · exact .refuse rfl

/-- The property of a resolver whose arguments have names. -/
theorem resolvedProperty (depth : Nat) {walk : HostType → HostType → Registering String}
    (hwalk : Walk walk) (site : Site) (description : Option String) (deprecation : Deprecation)
    (origin : Origin) {r r' : Resolver} (h : r.bare = r'.bare) :
    Agrees Property.bare
      (Registering.outputType walk site r.returns >>= fun type =>
        Registering.mergeArguments catalogue depth site.owner site.property []
          r.parameters.arguments >>= fun arguments =>
        Pure.pure ⟨site.property, description, deprecation, type, arguments, origin, r, []⟩)
      (Registering.outputType walk site r'.returns >>= fun type =>
        Registering.mergeArguments catalogue depth site.owner site.property []
          r'.parameters.arguments >>= fun arguments =>
        Pure.pure ⟨site.property, description, deprecation, type, arguments, origin, r', []⟩) := by
  obtain ⟨hparameters, hreturns, -⟩ := Resolver.mk.inj h
  refine (Agrees.outputType hwalk _ (TypeRef.alike_of_bare hreturns)).bind fun type type' htype =>
    (Agrees.mergeArguments catalogue depth _ _ [] (Parameters.arguments_congr hparameters)).bind
      fun arguments arguments' harguments => .pure ?_
  obtain rfl : type = type' := htype
  obtain rfl : arguments = arguments' := harguments
  simp only [Property.bare, h, List.map_nil]

theorem property (depth : Nat) {walk : HostType → HostType → Registering String}
    (hwalk : Walk walk) (owner : String) {d d' : PropertyDeclaration} (h : d.bare = d'.bare) :
    Agrees Property.bare (Registering.property catalogue depth walk owner d)
      (Registering.property catalogue depth walk owner d') := by
  obtain ⟨name, description, deprecation, names, resolver, origin, union⟩ := d
  obtain ⟨_, _, _, _, resolver', _, _⟩ := d'
  simp only [PropertyDeclaration.bare, PropertyDeclaration.mk.injEq] at h
  obtain ⟨rfl, rfl, rfl, rfl, hresolver, rfl, rfl⟩ := h
  rw [Registering.property, Registering.property]
  dsimp only
  rcases none_or_some_of_map_eq hresolver with ⟨rfl, rfl⟩ | ⟨r, r', rfl, rfl, hr⟩
  · exact .refuse rfl
  · obtain ⟨hparameters, hreturns, hbehaviour⟩ := Resolver.mk.inj hr
    dsimp only
    rcases Parameters.name?_congr hparameters names with ⟨hp, hp'⟩ | ⟨q, q', hp, hp', hq⟩
    · rw [hp, hp', Parameters.argumentCount_congr hparameters]
      exact .refuse rfl
    · rw [hp, hp']
      dsimp only
      generalize (if union.isSome then Origin.union else origin) = origin
      have hnamed : ({ r with parameters := q } : Resolver).bare =
          ({ r' with parameters := q' } : Resolver).bare := by
        simp only [Resolver.bare, hq, hreturns, hbehaviour]
      have hrest := Agrees.resolvedProperty catalogue depth hwalk ⟨owner, name, union⟩
        description deprecation origin hnamed
      split
      · exact (Agrees.checkUnion owner rfl rfl (TypeRef.alike_of_bare hreturns)).bind
          fun _ _ _ => hrest
      · exact hrest

/-! ### Properties of an owner -/

theorem any_name_congr {properties properties' : List Property}
    (h : properties.map Property.bare = properties'.map Property.bare) (name : String) :
    properties.any (·.name == name) = properties'.any (·.name == name) := by
  have hbare (properties : List Property) :
      (properties.map Property.bare).any (·.name == name) = properties.any (·.name == name) := by
    rw [List.any_map]
    rfl
  rw [← hbare, h, hbare]

theorem insertProperty (owner : String) {properties properties' : List Property}
    {p p' : Property} (h : properties.map Property.bare = properties'.map Property.bare)
    (hp : p.bare = p'.bare) :
    Agrees (List.map Property.bare) (Registering.insertProperty owner properties p)
      (Registering.insertProperty owner properties' p') := by
  have hname : p.name = p'.name := (Property.mk.inj hp).1
  rw [Registering.insertProperty, Registering.insertProperty, hname, any_name_congr h]
  split
  · exact .refuse rfl
  · refine .pure ?_
    rw [List.map_append, List.map_append, h, List.map_singleton, List.map_singleton, hp]

theorem insertDeclared (depth : Nat) {walk : HostType → HostType → Registering String}
    (hwalk : Walk walk) (owner : String) {properties properties' : List Property}
    (h : properties.map Property.bare = properties'.map Property.bare)
    {declarations declarations' : List PropertyDeclaration}
    (hd : declarations.map PropertyDeclaration.bare =
      declarations'.map PropertyDeclaration.bare) :
    Agrees (List.map Property.bare)
      (Registering.insertDeclared catalogue depth walk owner properties declarations)
      (Registering.insertDeclared catalogue depth walk owner properties' declarations') :=
  .foldlM ((map_eq_map_iff_forall₂.mp hd).imp fun _ _ hdeclaration _ _ hproperties =>
    (Agrees.property catalogue depth hwalk owner hdeclaration).bind fun _ _ hp =>
      .insertProperty owner hproperties hp) h

theorem insertFields {walk : HostType → HostType → Registering String} (hwalk : Walk walk)
    (owner : String) (host : HostType) (ignored : List String) (fields : List ObjectField) :
    Agrees (List.map Property.bare) (Registering.insertFields walk owner host ignored fields)
      (Registering.insertFields walk owner host ignored fields) := by
  rw [Registering.insertFields]
  refine .foldlM (List.forall₂_same.mpr fun field _ _ _ hproperties => ?_) rfl
  refine (Agrees.outputType hwalk _ (.refl _)).bind fun type type' htype => ?_
  obtain rfl : type = type' := htype
  exact .insertProperty owner hproperties rfl

theorem adjustProperty (owner name : String) {change change' : Property → Registering Property}
    (hchange : ∀ p p', p.bare = p'.bare → Agrees Property.bare (change p) (change' p'))
    {properties properties' : List Property}
    (h : properties.map Property.bare = properties'.map Property.bare) :
    Agrees (List.map Property.bare) (Registering.adjustProperty owner name change properties)
      (Registering.adjustProperty owner name change' properties') := by
  rw [map_eq_map_iff_forall₂] at h
  induction h with
  | nil => exact .refuse rfl
  | @cons p p' rest rest' hp hrest ih =>
    have hname : p.name = p'.name := (Property.mk.inj hp).1
    rw [Registering.adjustProperty, Registering.adjustProperty, hname]
    split
    · refine (hchange p p' hp).bind fun q q' hq => .pure ?_
      rw [List.map_cons, List.map_cons, hq, map_eq_map_iff_forall₂.mpr hrest]
    · refine ih.bind fun rest rest' hrest => .pure ?_
      rw [List.map_cons, List.map_cons, hp, hrest]

theorem configure (change : PropertyChange) {p p' : Property} (h : p.bare = p'.bare) :
    Agrees Property.bare (Pure.pure (Registering.configure change p))
      (Pure.pure (Registering.configure change p')) := by
  refine .pure ?_
  simp only [Property.bare, Property.mk.injEq] at h ⊢
  simp only [Registering.configure, h, and_self]

/-- A transformation is attached alike, unless one of the two is spelled otherwise than the type of
its property. -/
theorem attach (depth : Nat) (owner : String) {d d' : TransformationDeclaration}
    (hd : d.bare = d'.bare) {p p' : Property} (hp : p.bare = p'.bare) :
    Agrees Property.bare (Registering.attach catalogue depth owner d p)
      (Registering.attach catalogue depth owner d' p') := by
  obtain ⟨property, names, transformation⟩ := d
  obtain ⟨_, _, transformation'⟩ := d'
  simp only [TransformationDeclaration.bare, TransformationDeclaration.mk.injEq] at hd
  obtain ⟨rfl, rfl, htransformation⟩ := hd
  rw [Registering.attach, Registering.attach]
  dsimp only
  rcases none_or_some_of_map_eq htransformation with ⟨rfl, rfl⟩ | ⟨t, t', rfl, rfl, ht⟩
  · exact .refuse rfl
  · obtain ⟨hhost, hvalue, hparameters, hfunctions⟩ := Transformation.mk.inj ht
    obtain ⟨hname, hdescription, hdeprecation, htype, harguments, horigin, hresolver,
      htransformations⟩ := Property.mk.inj hp
    have hreturns := (TypeRef.alike_of_bare (Resolver.mk.inj hresolver).2.1).pointee_host
    dsimp only
    rcases Parameters.name?_congr hparameters names with ⟨hq, hq'⟩ | ⟨q, q', hq, hq', hbare⟩
    · rw [hq, hq', Parameters.argumentCount_congr hparameters]
      exact .refuse rfl
    · rw [hq, hq']
      dsimp only
      split
      · rename_i hne
        split
        · exact .refuse rfl
        · rename_i heq
          refine .misspelled (.transformation _ _ (Ne.symm hne) ?_) _
          rw [hreturns, hvalue, not_not.mp heq]
      · rename_i heq
        split
        · rename_i hne
          refine .misspelled' (.transformation _ _ (Ne.symm hne) ?_) _
          rw [← hreturns, ← hvalue, not_not.mp heq]
        · rw [hname, harguments]
          refine (Agrees.mergeArguments catalogue depth owner p'.name p'.arguments
            (Parameters.arguments_congr hbare)).bind fun arguments arguments' hmerged => .pure ?_
          obtain rfl : arguments = arguments' := hmerged
          simp only [Property.bare, List.map_append, List.map_singleton, Transformation.bare,
            hdescription, hdeprecation, htype, horigin, hresolver, htransformations,
            hhost, hvalue, hbare, hfunctions]

/-! ### Objects, roots and unions -/

theorem takeDeclaration (host outline : HostType) :
    Agrees TypeDeclaration.bare (Registering.takeDeclaration host outline)
      (Registering.takeDeclaration host outline) := by
  refine .get_bind fun r r' h => .modify_bind (fun r r' h => { h with
    typeDeclarations := Entries.filter_congr h.typeDeclarations host }) (.pure ?_)
  exact Entries.getD_lookup_congr h.typeDeclarations host _

theorem registerObject (inputDepth depth : Nat) :
    Walk (Registering.registerObject catalogue inputDepth depth) := by
  induction depth with
  | zero => exact fun _ _ => .tooDeep
  | succ depth ih =>
    intro host outline
    refine .get_bind fun r r' h => ?_
    rw [h.outputs]
    split
    · exact .pure rfl
    · refine (Agrees.takeDeclaration host outline).bind fun d d' hd => ?_
      obtain ⟨htype, hname, hdescription, hignored, hchanges, htransformations, hproperties⟩ :=
        TypeDeclaration.mk.inj hd
      dsimp only
      rw [hname, hdescription, hignored, hchanges]
      refine (Agrees.reserve _).bind fun _ _ _ =>
        .modify_bind (fun r r' h => { h with outputs := by rw [h.outputs] }) ?_
      split
      · exact .refuse rfl
      · refine (Agrees.insertFields ih _ host _ _).bind fun native native' hnative => ?_
        refine (Agrees.insertDeclared catalogue inputDepth ih _ hnative hproperties).bind
          fun declared declared' hdeclared => ?_
        refine Agrees.bind (.foldlM (List.forall₂_same.mpr
          fun change _ _ _ h => .adjustProperty _ change.1 (fun _ _ => .configure change.2) h)
          hdeclared : Agrees (List.map Property.bare) _ _)
          fun changed changed' hchanged => ?_
        refine Agrees.bind (.foldlM ((map_eq_map_iff_forall₂.mp htransformations).imp
          fun t t' ht _ _ h => ?_) hchanged : Agrees (List.map Property.bare) _ _)
          fun attached attached' hattached => ?_
        · have hproperty : t.property = t'.property := (TransformationDeclaration.mk.inj ht).1
          rw [hproperty]
          exact .adjustProperty _ _ (fun _ _ hp => .attach catalogue inputDepth _ ht hp) h
        · refine (Agrees.fill ?_).bind fun _ _ _ => .pure rfl
          simp only [TypeNode.bare, ObjectType.bare, hattached]

theorem addRoot (depth : Nat) (name : String)
    {declarations declarations' : List PropertyDeclaration}
    (hd : declarations.map PropertyDeclaration.bare =
      declarations'.map PropertyDeclaration.bare) :
    Agrees id (Registering.addRoot catalogue depth name declarations)
      (Registering.addRoot catalogue depth name declarations') := by
  refine (Agrees.reserve _).bind fun _ _ _ =>
    (Agrees.insertDeclared catalogue depth (Agrees.registerObject catalogue depth depth) name rfl
      hd).bind fun properties properties' h => .fill ?_
  simp only [TypeNode.bare, ObjectType.bare, h]

theorem addDeclared (depth : Nat) {ref ref' : TypeRef} (h : ref.bare = ref'.bare) :
    Agrees id (Registering.addDeclared catalogue depth ref)
      (Registering.addDeclared catalogue depth ref') := by
  cases TypeRef.alike_of_bare h with
  | object host outline => exact (Agrees.registerObject catalogue depth depth host outline).discard
  | enumeration host shape => exact (Agrees.registerEnum host shape).discard
  | _ => exact .pure rfl

theorem unionMember (depth : Nat) (union : String) {ref ref' : TypeRef} (h : ref.bare = ref'.bare) :
    Agrees id (Registering.unionMember catalogue depth union ref)
      (Registering.unionMember catalogue depth union ref') := by
  cases TypeRef.alike_of_bare h with
  | object host outline =>
    exact (Agrees.registerObject catalogue depth depth host outline).bind fun name name' hname =>
      .pure (congrArg (host, ·) hname)
  | _ => exact .refuse rfl

theorem addUnion (depth : Nat) (name : String) {d d' : UnionDeclaration} (h : d.bare = d'.bare) :
    Agrees id (Registering.addUnion catalogue depth name d)
      (Registering.addUnion catalogue depth name d') := by
  obtain ⟨hdescription, hmembers⟩ := UnionDeclaration.mk.inj h
  have hempty : d.members.isEmpty = d'.members.isEmpty := by
    rw [← List.isEmpty_map, hmembers, List.isEmpty_map]
  rw [Registering.addUnion, Registering.addUnion, hempty, hdescription]
  split
  · exact .refuse rfl
  · refine (Agrees.reserve _).bind fun _ _ _ => Agrees.bind
      (Agrees.mapM ((map_eq_map_iff_forall₂.mp hmembers).imp
        fun _ _ => Agrees.unionMember catalogue depth name) : Agrees (List.map id) _ _)
      fun members members' h => ?_
    rw [List.map_id, List.map_id] at h
    subst h
    exact .fill rfl

theorem bare_remaining {r r' : Registry} (h : r.Alike r') :
    (r.typeDeclarations.map (·.2.type) ++ r.enumDeclarations.map (·.2.type)).map TypeRef.bare =
      (r'.typeDeclarations.map (·.2.type) ++ r'.enumDeclarations.map (·.2.type)).map
        TypeRef.bare := by
  have htypes (declarations : List (HostType × TypeDeclaration)) :
      (declarations.map (·.2.type)).map TypeRef.bare =
        (declarations.map (Prod.map id TypeDeclaration.bare)).map (·.2.type) := by
    rw [List.map_map, List.map_map]
    rfl
  rw [List.map_append, List.map_append, htypes, htypes, h.typeDeclarations, h.enumDeclarations]

theorem addInputs (depth : Nat) {refs refs' : List TypeRef}
    (h : refs.map TypeRef.bare = refs'.map TypeRef.bare) :
    Agrees id
      (refs.forM fun ref => Functor.discard
        (Registering.inputType (Registering.registerInput catalogue depth) ref))
      (refs'.forM fun ref => Functor.discard
        (Registering.inputType (Registering.registerInput catalogue depth) ref)) :=
  .forM ((map_eq_map_iff_forall₂.mp h).imp fun _ _ href =>
    (Agrees.inputType (Agrees.registerInput catalogue depth) (TypeRef.alike_of_bare href)).discard)

theorem addUnions (depth : Nat) {unions unions' : List (String × UnionDeclaration)}
    (h : unions.map (Prod.map id UnionDeclaration.bare) =
      unions'.map (Prod.map id UnionDeclaration.bare)) :
    Agrees id
      (unions.forM fun (name, declaration) => Registering.addUnion catalogue depth name declaration)
      (unions'.forM fun (name, declaration) =>
        Registering.addUnion catalogue depth name declaration) := by
  refine .forM ((map_eq_map_iff_forall₂.mp h).imp fun (name, d) (name', d') hunion => ?_)
  obtain ⟨hname, hd⟩ := Prod.mk.inj hunion
  obtain rfl : name = name' := hname
  exact .addUnion catalogue depth name hd

/-- Everything that is declared is registered alike, with the pointers here or there. -/
theorem addAll (depth : Nat) {d d' : Declarations} (h : d.Alike d') :
    Agrees id (Registering.addAll catalogue depth d) (Registering.addAll catalogue depth d') := by
  have hempty : d.mutations.isEmpty = d'.mutations.isEmpty := by
    rw [← List.isEmpty_map, h.mutations, List.isEmpty_map]
  rw [Registering.addAll, Registering.addAll, h.scalars, hempty]
  refine (Agrees.forM (List.forall₂_same.mpr fun scalar _ => .addScalar scalar)).bind
    fun _ _ _ => (Agrees.addRoot catalogue depth _ h.queries).bind fun _ _ _ => .optional
      (.addRoot catalogue depth _ h.mutations) (.get_bind fun r r' hr => ?_)
  refine (Agrees.forM ((map_eq_map_iff_forall₂.mp (bare_remaining hr)).imp fun _ _ =>
    Agrees.addDeclared catalogue depth)).bind fun _ _ _ => ?_
  exact (Agrees.addInputs catalogue depth h.inputs).bind fun _ _ _ =>
    .addUnions catalogue depth h.unions

end Agrees

end Registering

/-! ### The depth of walks -/

theorem PropertyDeclaration.mentions_bare (d : PropertyDeclaration) :
    d.bare.mentions = d.mentions.map TypeRef.bare := by
  obtain ⟨_, _, _, _, resolver, _, _⟩ := d
  cases resolver with
  | none => rfl
  | some r =>
    simp only [mentions, bare, Option.map_some, Resolver.bare, Parameters.bare,
      Parameters.argumentTypes_bare, List.map_cons]

theorem TypeDeclaration.mentions_bare (d : TypeDeclaration) :
    d.bare.mentions = d.mentions.map TypeRef.bare := by
  rw [mentions, mentions, bare]
  simp only [List.map_cons, List.map_append, List.map_flatMap, List.flatMap_map,
    PropertyDeclaration.mentions_bare]
  congr 3
  funext t
  obtain ⟨_, _, transformation⟩ := t
  cases transformation with
  | none => rfl
  | some t => exact Parameters.argumentTypes_bare t.parameters.kinds

/-- What is declared alike allows for equally deep walks. -/
theorem Declarations.Alike.depth_eq {d d' : Declarations} (h : d.Alike d')
    (catalogue : Catalogue) : d.depth catalogue = d'.depth catalogue := by
  have hmentions (d : Declarations) : d.mentions.map TypeRef.bare =
      (d.queries.map PropertyDeclaration.bare).flatMap (·.mentions) ++
        (d.mutations.map PropertyDeclaration.bare).flatMap (·.mentions) ++
        (d.types.map (Prod.map id TypeDeclaration.bare)).flatMap (·.2.mentions) ++
        (d.unions.map (Prod.map id UnionDeclaration.bare)).flatMap (·.2.members) ++
        d.inputs.map TypeRef.bare := by
    simp only [Declarations.mentions, List.map_append, List.map_flatMap, List.flatMap_map,
      PropertyDeclaration.mentions_bare, TypeDeclaration.mentions_bare, Prod.map_snd,
      UnionDeclaration.bare]
  have hlength : d.mentions.length = d'.mentions.length := by
    rw [← List.length_map TypeRef.bare, hmentions, h.queries, h.mutations, h.types, h.unions,
      h.inputs, ← hmentions, List.length_map]
  rw [depth, depth, List.length_append, List.length_append, hlength]

end Trellis
