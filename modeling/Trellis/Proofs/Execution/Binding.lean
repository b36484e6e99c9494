import Trellis.Resolver.Basic

/-!
Arguments are bound by position.

The arguments of a function have their names in order, and parameters that take the context have none.
If there are as many names as arguments, then every parameter either takes what was given under its
name or rejects it. The parameters are bound together: if one of them rejects its argument, then the
first one that does is what binding fails with, and the function is not called.
-/

namespace Trellis

namespace Parameters

variable (p : Parameters) (provided : List (String × Literal)) (table : ScalarTable)
  (context : Context)

/-- The name that belongs to the parameter with an index. Only the arguments before it count. -/
def nameAt? (i : Nat) : Option String := p.names[(argumentTypes (p.kinds.take i)).length]?

/-- The parameter with an index is bound. An argument that was not given is null. -/
inductive Takes (i : Nat) : Bound → Prop
  | context : p.kinds[i]? = some .context → Takes i (.context context)
  | argument {type : TypeRef} {decode : ScalarTable → Literal → Except FieldError HostValue}
    {name : String} {v : HostValue} : p.kinds[i]? = some (.argument type decode) →
      p.nameAt? i = some name → decode table ((provided.lookup name).getD .null) = .ok v →
      Takes i (.value v)

/-- The parameter with an index cannot be bound to what was given under its name. -/
inductive Rejects (i : Nat) (name : String) (error : FieldError) : Prop
  | argument {type : TypeRef} {decode : ScalarTable → Literal → Except FieldError HostValue} :
    p.kinds[i]? = some (.argument type decode) → p.nameAt? i = some name →
      decode table ((provided.lookup name).getD .null) = .error error → Rejects i name error

/-- Every parameter is bound. -/
structure Binds (bounds : List Bound) : Prop where
  length : bounds.length = p.kinds.length
  takes : ∀ i bound, bounds[i]? = some bound → p.Takes provided table context i bound

/-- Some parameter rejects its argument, and all parameters before it are bound. -/
def Refuses (name : String) (error : FieldError) : Prop :=
  ∃ i, p.Rejects provided table i name error ∧ ∀ j < i, ∃ bound, p.Takes provided table context j bound

/-- The arguments of a function are bound by position, all of them or none, whatever is given. There
are always enough names. -/
structure ByPosition : Prop where
  bound : ∀ provided table context bounds,
    p.bind provided table context = .ok bounds ↔ p.Binds provided table context bounds
  refused : ∀ provided table context e, p.bind provided table context = .error e ↔
    ∃ name error, e = .binding name error ∧ p.Refuses provided table context name error
  enough : ∀ provided table context e, p.bind provided table context ≠ .error (.failed e)

variable {p provided table context} {i : Nat} {bound : Bound} {name : String} {error : FieldError}

theorem Takes.unique {other : Bound} (h : p.Takes provided table context i bound)
    (hother : p.Takes provided table context i other) : bound = other := by
  cases h with
  | context hkind =>
    cases hother with
    | context => rfl
    | argument hargument => cases hkind.symm.trans hargument
  | argument hkind hname hdecode =>
    cases hother with
    | context hcontext => cases hkind.symm.trans hcontext
    | argument hargument hname' hdecode' =>
      cases hkind.symm.trans hargument
      cases hname.symm.trans hname'
      cases hdecode.symm.trans hdecode'
      rfl

theorem Rejects.not_takes (h : p.Rejects provided table i name error) :
    ¬ p.Takes provided table context i bound := by
  obtain ⟨hkind, hname, hdecode⟩ := h
  intro htakes
  cases htakes with
  | context hcontext => cases hkind.symm.trans hcontext
  | argument hargument hname' hdecode' =>
    cases hkind.symm.trans hargument
    cases hname.symm.trans hname'
    cases hdecode.symm.trans hdecode'

theorem Rejects.unique {other : String} {error' : FieldError}
    (h : p.Rejects provided table i name error) (hother : p.Rejects provided table i other error') :
    name = other ∧ error = error' := by
  obtain ⟨hkind, hname, hdecode⟩ := h
  obtain ⟨hkind', hname', hdecode'⟩ := hother
  cases hkind.symm.trans hkind'
  cases hname.symm.trans hname'
  cases hdecode.symm.trans hdecode'
  exact ⟨rfl, rfl⟩

theorem Binds.unique {bounds others : List Bound} (h : p.Binds provided table context bounds)
    (hothers : p.Binds provided table context others) : bounds = others := by
  apply List.ext_getElem? fun i => ?_
  by_cases hi : i < p.kinds.length
  · have hbound := List.getElem?_eq_getElem (h.length ▸ hi)
    have hother := List.getElem?_eq_getElem (hothers.length ▸ hi)
    rw [hbound, hother, (h.takes i _ hbound).unique (hothers.takes i _ hother)]
  · rw [List.getElem?_eq_none (by have := h.length; omega),
      List.getElem?_eq_none (by have := hothers.length; omega)]

theorem Binds.not_refuses {bounds : List Bound} (h : p.Binds provided table context bounds) :
    ¬ p.Refuses provided table context name error := by
  rintro ⟨i, hrejects, -⟩
  have hi : i < bounds.length := by
    obtain ⟨hkind, -, -⟩ := hrejects
    rw [h.length]
    exact (List.getElem?_eq_some_iff.mp hkind).1
  exact hrejects.not_takes (h.takes i _ (List.getElem?_eq_getElem hi))

theorem Refuses.unique {other : String} {error' : FieldError}
    (h : p.Refuses provided table context name error)
    (hother : p.Refuses provided table context other error') : name = other ∧ error = error' := by
  obtain ⟨i, hrejects, hbefore⟩ := h
  obtain ⟨j, hrejects', hbefore'⟩ := hother
  rcases Nat.lt_trichotomy i j with hlt | rfl | hlt
  · obtain ⟨bound, htakes⟩ := hbefore' i hlt
    exact absurd htakes hrejects.not_takes
  · exact hrejects.unique hrejects'
  · obtain ⟨bound, htakes⟩ := hbefore j hlt
    exact absurd htakes hrejects'.not_takes

section Cons

variable {kind : Parameter} {kinds : List Parameter} {names rest : List String}

/-- The names that are left for the parameters after the first one. -/
def Leaves (kind : Parameter) (names rest : List String) : Prop :=
  match kind with
  | .context => rest = names
  | .argument .. => ∃ name, names = name :: rest

theorem Leaves.nameAt? (h : Leaves kind names rest) (i : Nat) :
    Parameters.nameAt? ⟨kind :: kinds, names⟩ (i + 1) = Parameters.nameAt? ⟨kinds, rest⟩ i := by
  cases kind with
  | context =>
    obtain rfl := h
    simp [Parameters.nameAt?, argumentTypes]
  | argument =>
    obtain ⟨name, rfl⟩ := h
    simp [Parameters.nameAt?, argumentTypes]

theorem Takes.succ (h : Leaves kind names rest)
    (htakes : Takes ⟨kinds, rest⟩ provided table context i bound) :
    Takes ⟨kind :: kinds, names⟩ provided table context (i + 1) bound := by
  cases htakes with
  | context hkind => exact .context hkind
  | argument hkind hname hdecode => exact .argument hkind ((h.nameAt? i).trans hname) hdecode

theorem Binds.cons (h : Leaves kind names rest) {bounds : List Bound}
    (hfirst : Takes ⟨kind :: kinds, names⟩ provided table context 0 bound)
    (hrest : Binds ⟨kinds, rest⟩ provided table context bounds) :
    Binds ⟨kind :: kinds, names⟩ provided table context (bound :: bounds) where
  length := congrArg (· + 1) hrest.length
  takes
    | 0, _, hbound => Option.some.inj hbound ▸ hfirst
    | i + 1, other, hbound => (hrest.takes i other hbound).succ h

theorem Refuses.cons (h : Leaves kind names rest)
    (hfirst : Takes ⟨kind :: kinds, names⟩ provided table context 0 bound)
    (hrest : Refuses ⟨kinds, rest⟩ provided table context name error) :
    Refuses ⟨kind :: kinds, names⟩ provided table context name error := by
  obtain ⟨i, ⟨hkind, hname, hdecode⟩, hbefore⟩ := hrest
  refine ⟨i + 1, .argument hkind ((h.nameAt? i).trans hname) hdecode, fun j hj => ?_⟩
  cases j with
  | zero => exact ⟨bound, hfirst⟩
  | succ j =>
    obtain ⟨other, htakes⟩ := hbefore j (Nat.lt_of_succ_lt_succ hj)
    exact ⟨other, htakes.succ h⟩

end Cons

/-- Binding goes through the parameters in order, with the names that are left. -/
theorem bindKinds_cases (provided : List (String × Literal)) (table : ScalarTable)
    (context : Context) {kinds : List Parameter} {names : List String}
    (hnames : names.length = (argumentTypes kinds).length) :
    (∃ bounds, bindKinds provided table context kinds names = .ok bounds ∧
      Binds ⟨kinds, names⟩ provided table context bounds) ∨
    ∃ name error, bindKinds provided table context kinds names = .error (.binding name error) ∧
      Refuses ⟨kinds, names⟩ provided table context name error := by
  induction kinds generalizing names with
  | nil => exact .inl ⟨[], rfl, rfl, nofun⟩
  | cons kind kinds ih =>
    cases kind with
    | context =>
      have hleaves : Leaves .context names names := rfl
      have hfirst : Takes ⟨.context :: kinds, names⟩ provided table context 0 (.context context) :=
        .context rfl
      rw [bindKinds]
      rcases ih hnames with ⟨bounds, hbind, hbinds⟩ | ⟨name, error, hbind, hrefuses⟩
      · rw [hbind]
        exact .inl ⟨_, rfl, hbinds.cons hleaves hfirst⟩
      · rw [hbind]
        exact .inr ⟨name, error, rfl, hrefuses.cons hleaves hfirst⟩
    | argument type decode =>
      cases names with
      | nil => cases hnames
      | cons name names =>
        have hleaves : Leaves (.argument type decode) (name :: names) names := ⟨name, rfl⟩
        rw [bindKinds]
        cases hdecode : decode table ((provided.lookup name).getD .null) with
        | error error => exact .inr ⟨name, error, rfl, 0, .argument rfl rfl hdecode, nofun⟩
        | ok v =>
          have hfirst : Takes ⟨.argument type decode :: kinds, name :: names⟩ provided table context
              0 (.value v) := .argument rfl rfl hdecode
          rcases ih (Nat.succ.inj hnames) with ⟨bounds, hbind, hbinds⟩ | ⟨other, error, hbind, hrefuses⟩
          · rw [hbind]
            exact .inl ⟨_, rfl, hbinds.cons hleaves hfirst⟩
          · rw [hbind]
            exact .inr ⟨other, error, rfl, hrefuses.cons hleaves hfirst⟩

/-- One name for each argument is what binding by position takes. -/
theorem byPosition (h : p.names.length = p.argumentCount) : p.ByPosition := by
  have hcases (provided table context) := bindKinds_cases provided table context h
  constructor
  · intro provided table context bounds
    rcases hcases provided table context with ⟨others, hbind, hbinds⟩ | ⟨_, _, hbind, hrefuses⟩
    · constructor
      · intro hbounds
        cases hbind.symm.trans hbounds
        exact hbinds
      · intro hbounds
        rw [hbounds.unique hbinds]
        exact hbind
    · exact ⟨fun hbounds => (nomatch hbind.symm.trans hbounds),
        fun hbounds => absurd hrefuses hbounds.not_refuses⟩
  · intro provided table context e
    rcases hcases provided table context with ⟨_, hbind, hbinds⟩ | ⟨name, error, hbind, hrefuses⟩
    · constructor
      · intro he
        cases hbind.symm.trans he
      · rintro ⟨_, _, -, hrefuses⟩
        exact absurd hrefuses hbinds.not_refuses
    · constructor
      · intro he
        cases hbind.symm.trans he
        exact ⟨name, error, rfl, hrefuses⟩
      · rintro ⟨_, _, rfl, hother⟩
        obtain ⟨rfl, rfl⟩ := hrefuses.unique hother
        exact hbind
  · intro provided table context e he
    rcases hcases provided table context with ⟨_, hbind, -⟩ | ⟨_, _, hbind, -⟩
    · cases hbind.symm.trans he
    · cases hbind.symm.trans he

end Parameters

end Trellis
