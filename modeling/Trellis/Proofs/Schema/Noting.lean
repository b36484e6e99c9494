import Trellis.Proofs.Schema.Settling

/-!
Walks that note what they describe.

A registration that is refused leaves no registry behind, so what it did up to then cannot be read off
its result. The walks are therefore repeated here as steps that also note whose fields they look at, in
order and whether or not they are refused later. Without its notes each of them is the walk itself.
-/

namespace Trellis

/-- A step of a registration, with what it describes when it is taken from a registry. -/
@[ext] structure Noted (α : Type) where
  step : Registering α
  notes : Registry → List Identity

namespace Noted

variable {α β : Type}

def silent (op : Registering α) : Noted α := ⟨op, fun _ => []⟩

/-- Notes an object or an input object whose fields are about to be looked at. -/
def note (i : Identity) : Noted Unit := ⟨pure (), fun _ => [i]⟩

/-- What is described after a refusal does not count. -/
def bind (op : Noted α) (next : α → Noted β) : Noted β where
  step := op.step >>= fun a => (next a).step
  notes r := op.notes r ++ match op.step.run r with
    | .ok (a, s) => (next a).notes s
    | .error _ => []

instance : Monad Noted where
  pure a := silent (pure a)
  bind := bind

theorem map_id (op : Noted α) : id <$> op = op := by
  refine Noted.ext (id_map op.step) (funext fun r => ?_)
  change op.notes r ++ _ = op.notes r
  cases op.step.run r <;> exact List.append_nil _

theorem bind_bind {γ : Type} (op : Noted α) (next : α → Noted β) (last : β → Noted γ) :
    op >>= next >>= last = op >>= fun a => next a >>= last := by
  refine Noted.ext (bind_assoc op.step _ _) (funext fun r => ?_)
  change (op.notes r ++ _) ++ _ = op.notes r ++ _
  rw [List.append_assoc]
  congr 1
  change _ ++ (match ((op.step.run r).bind fun done => (next done.1).step.run done.2) with
    | .ok (a, s) => (last a).notes s
    | .error _ => []) = _
  cases op.step.run r <;> rfl

instance : LawfulMonad Noted := .mk' Noted map_id (fun _ _ => rfl) bind_bind

@[simp] theorem step_silent (op : Registering α) : (silent op).step = op := rfl

@[simp] theorem step_pure (a : α) : (pure a : Noted α).step = pure a := rfl

@[simp] theorem step_note (i : Identity) : (note i).step = pure () := rfl

@[simp] theorem step_bind (op : Noted α) (next : α → Noted β) :
    (op >>= next).step = op.step >>= fun a => (next a).step := rfl

@[simp] theorem step_map (f : α → β) (op : Noted α) : (f <$> op).step = f <$> op.step := by
  rw [map_eq_pure_bind, map_eq_pure_bind]
  rfl

@[simp] theorem step_discard (op : Noted α) :
    (Functor.discard op).step = Functor.discard op.step := step_map _ op

theorem step_foldlM (f : β → α → Noted β) (items : List α) (b : β) :
    (items.foldlM f b).step = items.foldlM (fun b item => (f b item).step) b := by
  induction items generalizing b with
  | nil => rfl
  | cons item items ih =>
    rw [List.foldlM_cons, List.foldlM_cons, step_bind]
    exact bind_congr ih

theorem step_mapM (f : α → Noted β) (items : List α) :
    (items.mapM f).step = items.mapM fun item => (f item).step := by
  induction items with
  | nil =>
    rw [List.mapM_nil, List.mapM_nil]
    rfl
  | cons item items ih =>
    rw [List.mapM_cons, List.mapM_cons, ← ih]
    rfl

theorem step_forM (f : α → Noted Unit) (items : List α) :
    (items.forM f).step = items.forM fun item => (f item).step := by
  induction items with
  | nil => rfl
  | cons item items ih =>
    change ((f item).step >>= fun _ => (items.forM f).step) = _
    rw [ih]
    rfl

/-! ### The walks -/

def inputType (walk : HostType → HostType → Noted String) : TypeRef → Noted TypeLiteral
  | .nullable _ inner => TypeLiteral.nullable <$> inputType walk inner
  | .list _ inner => (TypeLiteral.list · true) <$> inputType walk inner
  | .scalar host => Registering.nonNull <$> silent (Registering.scalarName host)
  | .enumeration host shape => Registering.nonNull <$> silent (Registering.registerEnum host shape)
  | .inputObject host outline => Registering.nonNull <$> walk host outline
  | .object host _ | .union host | .function host =>
    silent (Registering.refuse (.invalidTypeUsage host.name "an input type"))
  | .generic host => silent (Registering.refuse (.genericType host.name))

variable (catalogue : Catalogue)

def inputFields (walk : HostType → HostType → Noted String) (fields : List InputField) :
    Noted (List (String × TypeLiteral)) :=
  fields.mapM fun field => do pure (field.name, ← inputType walk field.type)

def enterInput (host : HostType) (name : String) : Registering Unit := do
  Registering.reserve name
  modify fun r => { r with inputs := r.inputs ++ [(host, name)] }

/-- An input object is described before it is entered, and its fields are walked then. -/
def registerInput : Nat → HostType → HostType → Noted String
  | 0, _, _ => silent (throw .tooDeep)
  | depth + 1, host, outline => do
    match (← silent get).inputs.lookup host with
    | some name => pure name
    | none =>
      note (.inputObject host)
      let shown := catalogue.input outline
      silent (enterInput host shown.name)
      let fields ← inputFields (registerInput depth) shown.fields
      silent (Registering.fill (.inputObject ⟨shown.name, none, host, Entries.ofPairs fields⟩))
      pure shown.name

def outputType (walk : HostType → HostType → Noted String) (site : Registering.Site) :
    TypeRef → Noted TypeLiteral
  | .nullable _ inner => TypeLiteral.nullable <$> outputType walk site inner
  | .list _ inner => (TypeLiteral.list · true) <$> outputType walk site inner
  | .scalar host => Registering.nonNull <$> silent (Registering.scalarName host)
  | .enumeration host shape => Registering.nonNull <$> silent (Registering.registerEnum host shape)
  | .object host outline => Registering.nonNull <$> walk host outline
  | .union _ =>
    match site.union with
    | some name => pure (Registering.nonNull name)
    | none => silent (Registering.refuse (.unionReturnType site.owner site.property))
  | .inputObject host _ =>
    silent (Registering.refuse (.invalidTypeUsage host.name "an output type"))
  | .function host => silent (Registering.refuse (.functionType host.name site.owner site.property))
  | .generic host => silent (Registering.refuse (.genericType host.name))

def mergeArguments (depth : Nat) (owner property : String) (arguments : List Argument) :
    List (String × TypeRef) → Noted (List Argument)
  | [] => pure arguments
  | (name, ref) :: declared => do
    let type ← inputType (registerInput catalogue depth) ref
    match arguments.find? (·.name == name) with
    | none => mergeArguments depth owner property (arguments ++ [⟨name, type⟩]) declared
    | some existing =>
      if existing.type = type then mergeArguments depth owner property arguments declared
      else silent (Registering.refuse
        (.conflictingArgument owner property name existing.type.text type.text))

def property (depth : Nat) (walk : HostType → HostType → Noted String) (owner : String)
    (declaration : PropertyDeclaration) : Noted Property := do
  let name := declaration.name
  match declaration.resolver with
  | none => silent (Registering.refuse (.missingResolver owner name))
  | some resolver =>
    match resolver.parameters.name? declaration.arguments with
    | none =>
      silent (Registering.refuse (.argumentNames owner name resolver.parameters.argumentCount
        declaration.arguments.length))
    | some parameters =>
      let origin := if declaration.union.isSome then Origin.union else declaration.origin
      if origin = .union then
        silent (Registering.checkUnion owner declaration resolver.returns)
      let type ← outputType walk ⟨owner, name, declaration.union⟩ resolver.returns
      let arguments ← mergeArguments catalogue depth owner name [] parameters.arguments
      pure ⟨name, declaration.description, declaration.deprecation, type, arguments, origin,
        { resolver with parameters }, []⟩

def insertDeclared (depth : Nat) (walk : HostType → HostType → Noted String) (owner : String)
    (properties : List Property) (declarations : List PropertyDeclaration) :
    Noted (List Property) :=
  declarations.foldlM (fun properties declaration => do
    silent (Registering.insertProperty owner properties
      (← property catalogue depth walk owner declaration))) properties

def insertFields (walk : HostType → HostType → Noted String) (owner : String) (host : HostType)
    (ignored : List String) (fields : List ObjectField) : Noted (List Property) :=
  (fields.filter (·.name ∉ ignored)).foldlM (fun properties field => do
    let type ← outputType walk ⟨owner, field.name, none⟩ field.type
    silent (Registering.insertProperty owner properties ⟨field.name, none, .current, type, [],
      .native, .ofField host field, []⟩)) []

def adjustProperty (owner name : String) (change : Property → Noted Property) :
    List Property → Noted (List Property)
  | [] => silent (Registering.refuse (.unknownProperty owner name))
  | p :: rest => do
    if p.name = name then
      let changed ← change p
      pure (changed :: rest)
    else
      let rest ← adjustProperty owner name change rest
      pure (p :: rest)

def attach (depth : Nat) (owner : String) (declaration : TransformationDeclaration)
    (p : Property) : Noted Property :=
  match declaration.transformation with
  | none => silent (Registering.refuse (.missingResolver owner declaration.property))
  | some transformation =>
    match transformation.parameters.name? declaration.arguments with
    | none =>
      silent (Registering.refuse (.argumentNames owner declaration.property
        transformation.parameters.argumentCount declaration.arguments.length))
    | some parameters => do
      let expected := p.resolver.returns.host
      if transformation.valueType ≠ expected then
        silent (Registering.refuse (.transformationType owner declaration.property expected.name
          transformation.valueType.name))
      else
        let arguments ← mergeArguments catalogue depth owner p.name p.arguments
          parameters.arguments
        pure { p with
          arguments := arguments
          transformations := p.transformations ++ [{ transformation with parameters }] }

def walkProperties (depth : Nat) (walk : HostType → HostType → Noted String) (name : String)
    (shown : ObjectOutline) (host : HostType) (declaration : TypeDeclaration) :
    Noted (List Property) :=
  match declaration.ignored.find? fun field => !(shown.fields.any (·.name == field)) with
  | some unknown => silent (Registering.refuse (.unknownProperty name unknown))
  | none => do
    let properties ← insertFields walk name host declaration.ignored shown.fields
    let properties ← insertDeclared catalogue depth walk name properties declaration.properties
    let properties ← declaration.changes.foldlM (fun properties (field, change) =>
      adjustProperty name field (fun p => pure (Registering.configure change p)) properties)
      properties
    declaration.transformations.foldlM (fun properties t =>
      adjustProperty name t.property (attach catalogue depth name t) properties) properties

def enterObject (host outline : HostType) : Registering TypeDeclaration := do
  let declaration ← Registering.takeDeclaration host outline
  let name := declaration.name.getD (catalogue.object outline).name
  Registering.reserve name
  modify fun r => { r with outputs := r.outputs ++ [(host, name)] }
  pure declaration

/-- An object is described before it is entered, and its properties are walked then. -/
def registerObject (inputDepth : Nat) : Nat → HostType → HostType → Noted String
  | 0, _, _ => silent (throw .tooDeep)
  | depth + 1, host, outline => do
    match (← silent get).outputs.lookup host with
    | some name => pure name
    | none =>
      note (.object (some host))
      let shown := catalogue.object outline
      let declaration ← silent (enterObject catalogue host outline)
      let name := declaration.name.getD shown.name
      let properties ← walkProperties catalogue inputDepth (registerObject inputDepth depth) name
        shown host declaration
      silent (Registering.fill (.object ⟨name, declaration.description, some host, properties⟩))
      pure name

def addRoot (depth : Nat) (name : String) (declarations : List PropertyDeclaration) :
    Noted Unit := do
  silent (Registering.reserve name)
  let properties ← insertDeclared catalogue depth (registerObject catalogue depth depth) name []
    declarations
  silent (Registering.fill (.object ⟨name, none, none, properties⟩))

def addDeclared (depth : Nat) : TypeRef → Noted Unit
  | .object host outline => discard (registerObject catalogue depth depth host outline)
  | .enumeration host shape => discard (silent (Registering.registerEnum host shape))
  | _ => pure ()

def unionMember (depth : Nat) (union : String) : TypeRef → Noted (HostType × String)
  | .object host outline => do pure (host, ← registerObject catalogue depth depth host outline)
  | ref => silent (Registering.refuse (.invalidUnionMember union ref.host.name))

def addUnion (depth : Nat) (name : String) (declaration : UnionDeclaration) : Noted Unit := do
  if declaration.members.isEmpty then silent (Registering.refuse (.emptyUnion name))
  else
    silent (Registering.reserve name)
    let members ← declaration.members.mapM (unionMember catalogue depth name)
    silent (Registering.fill
      (.union ⟨name, declaration.description, members.map (·.2), Entries.ofPairs members⟩))

def addAll (depth : Nat) (d : Declarations) : Noted Unit := do
  silent (d.allScalars.forM Registering.addScalar)
  d.roots.forM fun root => addRoot catalogue depth root.1 root.2
  let remaining ← silent get
  (remaining.typeDeclarations.map (·.2.type) ++ remaining.enumDeclarations.map (·.2.type)).forM
    (addDeclared catalogue depth)
  d.inputs.forM fun ref => discard (inputType (registerInput catalogue depth) ref)
  d.unions.forM fun union => addUnion catalogue depth union.1 union.2

/-! ### Without notes -/

variable {catalogue : Catalogue} {walk : HostType → HostType → Noted String} {depth : Nat}

def plain (walk : HostType → HostType → Noted String) (host outline : HostType) :
    Registering String := (walk host outline).step

theorem step_inputType (walk : HostType → HostType → Noted String) (ref : TypeRef) :
    (inputType walk ref).step = Registering.inputType (plain walk) ref := by
  induction ref with
  | nullable _ inner ih | list _ inner ih =>
    rw [inputType, Registering.inputType, step_map, ih]
  | scalar | enumeration | inputObject =>
    rw [inputType, Registering.inputType, step_map]
    rfl
  | object | union | function | generic => rfl

theorem step_inputFields (walk : HostType → HostType → Noted String) (fields : List InputField) :
    (inputFields walk fields).step =
      fields.mapM (fun field => do
        pure (field.name, ← Registering.inputType (plain walk) field.type)) := by
  simp only [inputFields, step_mapM, step_bind, step_inputType, step_pure]

theorem plain_registerInput (catalogue : Catalogue) (depth : Nat) :
    plain (registerInput catalogue depth) = Registering.registerInput catalogue depth := by
  induction depth with
  | zero => rfl
  | succ depth ih =>
    funext host outline
    rw [plain, registerInput, Registering.registerInput, step_bind]
    refine bind_congr fun r => ?_
    cases r.inputs.lookup host with
    | some name => rfl
    | none =>
      simp only [step_bind, step_note, step_silent, enterInput, step_inputFields, ih, step_pure,
        pure_bind, bind_assoc]

theorem step_outputType (walk : HostType → HostType → Noted String) (site : Registering.Site)
    (ref : TypeRef) : (outputType walk site ref).step =
      Registering.outputType (plain walk) site ref := by
  induction ref with
  | nullable _ inner ih | list _ inner ih =>
    rw [outputType, Registering.outputType, step_map, ih]
  | scalar | enumeration | object =>
    rw [outputType, Registering.outputType, step_map]
    rfl
  | union =>
    rw [outputType, Registering.outputType]
    cases site.union <;> rfl
  | inputObject | function | generic => rfl

theorem step_mergeArguments (owner property : String) (declared : List (String × TypeRef))
    (arguments : List Argument) :
    (mergeArguments catalogue depth owner property arguments declared).step =
      Registering.mergeArguments catalogue depth owner property arguments declared := by
  induction declared generalizing arguments with
  | nil => rfl
  | cons argument declared ih =>
    rw [mergeArguments, Registering.mergeArguments, step_bind, step_inputType, plain_registerInput]
    refine bind_congr fun type => ?_
    cases arguments.find? (·.name == argument.1) with
    | none => exact ih _
    | some existing =>
      dsimp only
      split
      · exact ih _
      · rfl

theorem step_property (walk : HostType → HostType → Noted String) (owner : String)
    (declaration : PropertyDeclaration) :
    (property catalogue depth walk owner declaration).step =
      Registering.property catalogue depth (plain walk) owner declaration := by
  simp only [property, Registering.property]
  cases declaration.resolver with
  | none => rfl
  | some resolver =>
    dsimp only
    cases resolver.parameters.name? declaration.arguments with
    | none => rfl
    | some parameters =>
      dsimp only
      generalize (if declaration.union.isSome = true then Origin.union
        else declaration.origin) = origin
      by_cases hunion : origin = .union
      · simp only [if_pos hunion, step_bind, step_silent, step_outputType, step_mergeArguments,
          step_pure]
      · simp only [if_neg hunion, step_bind, step_outputType, step_mergeArguments, step_pure]

theorem step_insertDeclared (walk : HostType → HostType → Noted String) (owner : String)
    (properties : List Property) (declarations : List PropertyDeclaration) :
    (insertDeclared catalogue depth walk owner properties declarations).step =
      Registering.insertDeclared catalogue depth (plain walk) owner properties declarations := by
  simp only [insertDeclared, Registering.insertDeclared, step_foldlM, step_bind, step_property,
    step_silent]

theorem step_insertFields (walk : HostType → HostType → Noted String) (owner : String)
    (host : HostType) (ignored : List String) (fields : List ObjectField) :
    (insertFields walk owner host ignored fields).step =
      Registering.insertFields (plain walk) owner host ignored fields := by
  simp only [insertFields, Registering.insertFields, step_foldlM, step_bind, step_outputType,
    step_silent]

theorem step_adjustProperty (owner name : String) (change : Property → Noted Property)
    (properties : List Property) : (adjustProperty owner name change properties).step =
      Registering.adjustProperty owner name (fun p => (change p).step) properties := by
  induction properties with
  | nil => rfl
  | cons p rest ih =>
    rw [adjustProperty, Registering.adjustProperty]
    split
    · rfl
    · rw [step_bind, ih]
      rfl

theorem step_attach (owner : String) (declaration : TransformationDeclaration) (p : Property) :
    (attach catalogue depth owner declaration p).step =
      Registering.attach catalogue depth owner declaration p := by
  rw [attach, Registering.attach]
  cases declaration.transformation with
  | none => rfl
  | some transformation =>
    dsimp only
    cases transformation.parameters.name? declaration.arguments with
    | none => rfl
    | some parameters =>
      dsimp only
      split
      · rfl
      · rw [step_bind, step_mergeArguments]
        rfl

theorem step_walkProperties (walk : HostType → HostType → Noted String) (name : String)
    (shown : ObjectOutline) (host : HostType) (declaration : TypeDeclaration) :
    (walkProperties catalogue depth walk name shown host declaration).step =
      Registering.walkProperties catalogue depth (plain walk) name shown host declaration := by
  rw [walkProperties, Registering.walkProperties]
  cases declaration.ignored.find? fun field => !(shown.fields.any (·.name == field)) with
  | some unknown => rfl
  | none =>
    simp only [step_bind, step_insertFields, step_insertDeclared, step_foldlM, step_adjustProperty,
      step_attach, step_pure]

/-- The walk of an object that is not entered yet, taken apart. -/
theorem registerObject_eq (catalogue : Catalogue) (inputDepth depth : Nat)
    (host outline : HostType) :
    Registering.registerObject catalogue inputDepth (depth + 1) host outline = (do
      match (← get).outputs.lookup host with
      | some name => pure name
      | none =>
        let declaration ← enterObject catalogue host outline
        let name := declaration.name.getD (catalogue.object outline).name
        let properties ← Registering.walkProperties catalogue inputDepth
          (Registering.registerObject catalogue inputDepth depth) name (catalogue.object outline)
          host declaration
        Registering.fill (.object ⟨name, declaration.description, some host, properties⟩)
        pure name) := by
  rw [Registering.registerObject]
  refine bind_congr fun r => ?_
  cases r.outputs.lookup host with
  | some name => rfl
  | none =>
    simp only [enterObject, bind_assoc, pure_bind]
    refine bind_congr fun declaration => bind_congr fun _ => bind_congr fun _ => ?_
    rw [Registering.walkProperties]
    cases declaration.ignored.find?
        fun field => !((catalogue.object outline).fields.any (·.name == field)) with
    | some unknown => rfl
    | none => simp only [bind_assoc]

theorem plain_registerObject (catalogue : Catalogue) (inputDepth depth : Nat) :
    plain (registerObject catalogue inputDepth depth) =
      Registering.registerObject catalogue inputDepth depth := by
  induction depth with
  | zero => rfl
  | succ depth ih =>
    funext host outline
    rw [plain, registerObject, registerObject_eq, step_bind]
    refine bind_congr fun r => ?_
    cases r.outputs.lookup host with
    | some name => rfl
    | none =>
      simp only [step_bind, step_note, step_silent, step_walkProperties, ih, step_pure, pure_bind]

theorem step_addRoot (name : String) (declarations : List PropertyDeclaration) :
    (addRoot catalogue depth name declarations).step =
      Registering.addRoot catalogue depth name declarations := by
  simp only [addRoot, Registering.addRoot, step_bind, step_silent, step_insertDeclared,
    plain_registerObject]

theorem step_addDeclared (ref : TypeRef) :
    (addDeclared catalogue depth ref).step = Registering.addDeclared catalogue depth ref := by
  cases ref with
  | object host outline =>
    rw [addDeclared, Registering.addDeclared, step_discard, ← plain_registerObject]
    rfl
  | enumeration => exact step_discard _
  | scalar | inputObject | list | nullable | union | function | generic => rfl

theorem step_unionMember (union : String) (ref : TypeRef) :
    (unionMember catalogue depth union ref).step =
      Registering.unionMember catalogue depth union ref := by
  cases ref with
  | object host outline =>
    rw [unionMember, Registering.unionMember, step_bind, ← plain_registerObject]
    rfl
  | scalar | enumeration | inputObject | list | nullable | union | function | generic => rfl

theorem step_addUnion (name : String) (declaration : UnionDeclaration) :
    (addUnion catalogue depth name declaration).step =
      Registering.addUnion catalogue depth name declaration := by
  rw [addUnion, Registering.addUnion]
  split
  · rfl
  · simp only [step_bind, step_silent, step_mapM, step_unionMember]

theorem step_addAll (catalogue : Catalogue) (depth : Nat) (d : Declarations) :
    (addAll catalogue depth d).step = Registering.addAll catalogue depth d := by
  simp only [addAll, Registering.addAll_eq, step_bind, step_silent, step_forM, step_addRoot,
    step_addDeclared, step_discard, step_inputType, plain_registerInput, step_addUnion]

end Noted

end Trellis
