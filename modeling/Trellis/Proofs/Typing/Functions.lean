import Trellis.Proofs.Typing.Arguments

/-!
Functions and their types.

A function of the host program that is called with what it asks for answers with a value of the type
that it returns, or fails by itself. Behind resolvers and transformations it is reached through
values that lost their types; this module shows that it is only ever called with what it asks for.
-/

namespace Trellis

namespace Universe

/-- What an action answers with, if it does not fail, is a value of a type. -/
def Yields (u : Universe) (t : HostType) (action : Action) : Prop :=
  ∀ journal ending output, action.perform? journal = some ending → ending.result = .ok output →
    ∃ v, u.HasType t v ∧ output = u.erase t v

/-- What a function is called on: a value of the type that it is a property of, if it is one. -/
def Receives (u : Universe) : Option HostType → HostValue → Prop
  | none, v => v = .nothing
  | some t, v => u.HasType t v

/-- A function of the host program, with its types. It is reached through bound arguments that have
to be unpacked, and refuses to run where these are not what it asks for. -/
structure Function (u : Universe) where
  receiver : Option HostType
  parameters : List ParameterType
  returns : HostType
  body : Body
  yields : ∀ {v bounds}, u.Receives receiver v → u.Accepts parameters bounds →
    u.Yields returns (body.run v bounds)
  unpacks : ∀ {v bounds}, ¬ u.Accepts parameters bounds →
    body.run v bounds = .answer (.error Bound.mismatch)

/-- A function that maps values of a type, with the types of its further parameters. -/
structure Mapping (u : Universe) where
  host : HostType
  parameters : List ParameterType
  apply : HostValue → List Bound → Except FieldError HostValue
  keeps : ∀ {v w bounds}, u.HasType host v → u.Accepts parameters bounds → apply v bounds = .ok w →
    u.HasType host w
  unpacks : ∀ {v bounds}, ¬ u.Accepts parameters bounds → apply v bounds = .error Bound.mismatch

variable {u : Universe}

namespace Function

def resolver (f : u.Function) : Resolver :=
  ⟨.ofKinds (f.parameters.map u.parameter), u.describe f.returns, f.body.behaviour f.receiver⟩

def named (f : u.Function) (names : List String) : Resolver :=
  ⟨⟨f.parameters.map u.parameter, names⟩, u.describe f.returns, f.body.behaviour f.receiver⟩

end Function

namespace Mapping

def transformation (m : u.Mapping) : Transformation :=
  u.transformation m.host (m.parameters.map u.parameter) m.apply

def named (m : u.Mapping) (names : List String) : Transformation :=
  { m.transformation with parameters := ⟨m.parameters.map u.parameter, names⟩ }

theorem transform_named (m : u.Mapping) (names : List String) {output : Output} {v : HostValue}
    (hrecover : u.recover m.host output = some v) (provided : List (String × Literal))
    (table : ScalarTable) (context : Context) :
    (m.named names).transform output provided table context =
      Parameters.bind ⟨m.parameters.map u.parameter, names⟩ provided table context >>= fun bounds =>
        ((m.apply v bounds).map (u.erase m.host)).mapError .failed := by
  have hrecovered : (m.named names).recover output = some v := hrecover
  rw [Transformation.transform, hrecovered]
  rfl

end Mapping

variable (u)

def Holds (owner : Option HostType) (parent : Option Erased) : Prop :=
  ∀ host, owner = some host → ∃ v, parent = some ⟨host, v⟩ ∧ u.HasType host v

/-- A resolver of an owner reads one of its fields or calls a function on it, and hands out values of
a type. -/
inductive Resolves (owner : Option HostType) : Resolver → HostType → Prop
  | field {path name : String} {fields : List (String × HostType)} {field : String × HostType} :
    u.definition? path = some (.object name fields) → field ∈ fields →
    owner = some (.named path) →
    Resolves owner (.ofField (.named path) (u.objectField field)) field.2
  | function (f : u.Function) {names : List String} : f.receiver = owner →
    names.length = f.resolver.parameters.argumentCount →
    Resolves owner (f.named names) f.returns

/-- A transformation calls a function on the values of a type with some description. -/
inductive Maps (ref : TypeRef) : Transformation → Prop
  | mapping (m : u.Mapping) {names : List String} : u.describe m.host = ref →
    names.length = m.transformation.parameters.argumentCount → Maps ref (m.named names)

/-- An error comes from the function behind a resolver: the function was called with what it asks
for, and failed or broke down. -/
inductive FailsIn : Resolver → FieldError → Prop
  | intro (f : u.Function) (names : List String) {v : HostValue} {bounds : List Bound}
    {journal : List String} {ending : Action.Ending} {e : FieldError} :
    u.Receives f.receiver v → u.Accepts f.parameters bounds →
    (f.body.run v bounds).perform? journal = some ending → ending.result = .error e →
    FailsIn (f.named names) e

/-- An error comes from the function behind a transformation: the function was called with what it
asks for, and failed. -/
inductive FailsMapping : Transformation → FieldError → Prop
  | intro (m : u.Mapping) (names : List String) {v : HostValue} {bounds : List Bound}
    {e : FieldError} : u.HasType m.host v → u.Accepts m.parameters bounds →
    m.apply v bounds = .error e → FailsMapping (m.named names) e

variable {u}

theorem HasType.field {path name : String} {fields : List (String × HostType)} {v : HostValue}
    (h : u.HasType (.named path) v) (hpath : u.definition? path = some (.object name fields))
    {field : String × HostType} (hfield : field ∈ fields) : u.HasType field.2 (v.field field.1) := by
  cases h with
  | object hpath' hfields =>
    cases hpath.symm.trans hpath'
    exact hfields _ _ hfield
  | scalar _ hpath' | variant hpath' | inputObject hpath' => cases hpath.symm.trans hpath'

theorem Holds.receive {owner : Option HostType} {parent : Option Erased} (h : u.Holds owner parent) :
    ∃ v, Resolver.receive owner parent = .ok v ∧ u.Receives owner v := by
  cases owner with
  | none => exact ⟨.nothing, rfl, rfl⟩
  | some host =>
    obtain ⟨v, rfl, hv⟩ := h host rfl
    exact ⟨v, by simp [Resolver.receive, Erased.downcast?], hv⟩

section

variable (hu : u.Genuine) (provided : List (String × Literal)) (table : ScalarTable)
  (context : Context)

include hu

/-- Calling a resolver on what it is a resolver of fails at an argument that cannot be decoded, or
calls its function with what it asks for. Whatever is handed out fits the description. -/
theorem Resolves.start {owner : Option HostType} {r : Resolver} {t : HostType}
    (h : u.Resolves owner r t) (ht : (u.describe t).IsOutput) {parent : Option Erased}
    (hparent : u.Holds owner parent) :
    (∃ name e, r.start parent provided table context = .error (.binding name e)) ∨
    ∃ action, r.start parent provided table context = .ok action ∧
      ∀ journal ending, action.perform? journal = some ending →
        (∃ output, ending.result = .ok output ∧ u.Presents (u.describe t) output) ∨
        ∃ e, ending.result = .error e ∧ u.FailsIn r e := by
  cases h with
  | field hpath hfield howner =>
    obtain ⟨v, rfl, hv⟩ := hparent _ howner
    refine .inr ⟨_, rfl, fun journal ending hending => .inl ?_⟩
    simp only [Resolver.call, Resolver.ofField, Erased.downcast?, if_true] at hending
    cases hending
    exact ⟨_, rfl, (hv.field hpath hfield).presents ht⟩
  | @function f names howner hnames =>
    subst howner
    obtain ⟨v, hreceive, hv⟩ := hparent.receive
    rw [Resolver.start, Function.named]
    rcases bind_parameters hu f.parameters hnames provided table context with
      ⟨bounds, hbounds, haccepts⟩ | ⟨name, e, herror⟩
    · refine .inr ⟨f.body.run v bounds, ?_, fun journal ending hending => ?_⟩
      · rw [hbounds, ← Resolver.call_behaviour f.body hreceive bounds]
        rfl
      · cases hresult : ending.result with
        | ok output =>
          obtain ⟨w, hw, rfl⟩ := f.yields hv haccepts journal ending output hending hresult
          exact .inl ⟨_, rfl, hw.presents ht⟩
        | error e => exact .inr ⟨e, rfl, .intro f names hv haccepts hending hresult⟩
    · exact .inl ⟨name, e, by rw [herror]; rfl⟩

/-- A transformation of what fits a description fails at an argument that cannot be decoded, or
calls its function with what it asks for. Whatever is handed out fits the same description. -/
theorem Maps.transform {ref : TypeRef} {t : Transformation} (h : u.Maps ref t) (href : ref.IsOutput)
    {output : Output} (houtput : u.Presents ref output) :
    (∃ name e, t.transform output provided table context = .error (.binding name e)) ∨
    (∃ e, t.transform output provided table context = .error (.failed e) ∧ u.FailsMapping t e) ∨
    ∃ next, t.transform output provided table context = .ok next ∧ u.Presents ref next := by
  cases h with
  | @mapping m names href' hnames =>
    subst href'
    obtain ⟨v, hrecover, hv⟩ := houtput.exists_recover hu
    have htransform := m.transform_named names hrecover provided table context
    rcases bind_parameters hu m.parameters hnames provided table context with
      ⟨bounds, hbounds, haccepts⟩ | ⟨name, e, herror⟩
    · rw [hbounds] at htransform
      change _ = ((m.apply v bounds).map (u.erase m.host)).mapError CallError.failed at htransform
      cases happly : m.apply v bounds with
      | error e =>
        rw [happly] at htransform
        exact .inr (.inl ⟨e, htransform, .intro m names hv haccepts happly⟩)
      | ok w =>
        rw [happly] at htransform
        exact .inr (.inr ⟨_, htransform, (m.keeps hv haccepts happly).presents href⟩)
    · rw [herror] at htransform
      exact .inl ⟨name, e, htransform⟩

end

end Universe

end Trellis
