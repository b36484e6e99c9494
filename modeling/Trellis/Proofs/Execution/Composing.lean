import Trellis.Proofs.Schema.SharedArguments

/-!
Transformations that are stacked on a property.

What a resolver returns goes through the transformations of its property in the order in which they
are attached. Each of them binds its own arguments from what the query gives, and is applied to the
value that the one before it returned; in between, the value is handed out and taken back. The first
one that cannot be bound or that fails is the last one that is tried.
-/

namespace Trellis

/-- The values of a type, and how they are handed out. -/
structure ValueType where
  Holds : HostValue → Prop
  erase : HostValue → Output

namespace Transformation

/-- A transformation maps values of a type, and takes back what is handed out. -/
structure Maps (T : ValueType) (t : Transformation) : Prop where
  erase : ∀ v, T.Holds v → t.erase v = T.erase v
  restores : ∀ v, T.Holds v → t.recover (t.erase v) = some v
  returns : ∀ v bounds w, T.Holds v → t.apply v bounds = .ok w → T.Holds w

theorem Maps.recover {T : ValueType} {t : Transformation} (h : t.Maps T) {v : HostValue}
    (hv : T.Holds v) : t.recover (T.erase v) = some v := by
  rw [← h.erase v hv]
  exact h.restores v hv

variable (provided : List (String × Literal)) (table : ScalarTable) (context : Context)

/-- What transformations make of a value, one after the other, and how many of them are applied for
that. After one that cannot be bound, or that fails, it does not matter which others there are. -/
inductive Stacks : List Transformation → HostValue → Nat → Except CallError HostValue → Prop
  | done (v : HostValue) : Stacks [] v 0 (.ok v)
  | refused {t : Transformation} {v : HostValue} {name : String} {error : FieldError}
    (rest : List Transformation) : t.parameters.Refuses provided table context name error →
      Stacks (t :: rest) v 0 (.error (.binding name error))
  | failed {t : Transformation} {v : HostValue} {bounds : List Bound} {error : FieldError}
    (rest : List Transformation) : t.parameters.Binds provided table context bounds →
      t.apply v bounds = .error error → Stacks (t :: rest) v 1 (.error (.failed error))
  | applied {t : Transformation} {rest : List Transformation} {v w : HostValue}
    {bounds : List Bound} {n : Nat} {outcome : Except CallError HostValue} :
    t.parameters.Binds provided table context bounds → t.apply v bounds = .ok w →
      Stacks rest w n outcome → Stacks (t :: rest) v (n + 1) outcome

variable {provided table context}

/-- Transformations always come to something. -/
theorem exists_stacks {transformations : List Transformation}
    (h : ∀ t ∈ transformations, t.parameters.ByPosition) (v : HostValue) :
    ∃ n outcome, Stacks provided table context transformations v n outcome := by
  induction transformations generalizing v with
  | nil => exact ⟨0, _, .done v⟩
  | cons t rest ih =>
    obtain ⟨ht, hrest⟩ := List.forall_mem_cons.mp h
    cases hbind : t.parameters.bind provided table context with
    | error e =>
      obtain ⟨name, error, -, hrefuses⟩ := (ht.refused provided table context e).mp hbind
      exact ⟨0, _, .refused rest hrefuses⟩
    | ok bounds =>
      have hbinds := (ht.bound provided table context bounds).mp hbind
      cases happly : t.apply v bounds with
      | error error => exact ⟨1, _, .failed rest hbinds happly⟩
      | ok w =>
        obtain ⟨n, outcome, hstacks⟩ := ih hrest w
        exact ⟨n + 1, outcome, .applied hbinds happly hstacks⟩

end Transformation

/-- A transformation of a host type maps its values, if what is handed out of them is taken back. -/
theorem Universe.maps_transformation {u : Universe} {host : HostType} {Holds : HostValue → Prop}
    {apply : HostValue → List Bound → Except FieldError HostValue}
    (hrestores : ∀ v, Holds v → u.recover host (u.erase host v) = some v)
    (hreturns : ∀ v bounds w, Holds v → apply v bounds = .ok w → Holds w) (kinds : List Parameter)
    (parameters : Parameters) : Transformation.Maps ⟨Holds, u.erase host⟩
      { u.transformation host kinds apply with parameters } :=
  ⟨fun _ _ => rfl, hrestores, hreturns⟩

/-! ### Moments of a run -/

namespace Job

/-- Nothing but some events and an error is seen, and the field comes to null, or to nothing. -/
structure Portion.Fails (portion : Portion) (type : TypeLiteral) (events : List Event)
    (error : ExecutionError) : Prop where
  shows : portion.Shows (events ++ [.reported error])
  value : ∀ result, portion.job = .ended result → result = nullFor type

variable {portion : Portion} {type : TypeLiteral} {path : Path}

theorem Portion.Fails.after {events : List Event} {error : ExecutionError}
    (h : portion.Fails type events error) (before : List Event) :
    (portion.after before).Fails type (before ++ events) error where
  shows := by
    rw [List.append_assoc]
    exact h.shows.after before
  value := h.value

theorem fails_of_fail {location : Position} {error : FieldError} {kind : ErrorKind}
    (h : (Job.ready (Plan.fail type location path error kind)).Leaves portion) :
    portion.Fails type [] ⟨location, path, error, kind⟩ := by
  refine ⟨shows_of_fail h, fun result hresult => ?_⟩
  rcases leaves_report h with rfl | ⟨later, hlater, rfl⟩
  · cases hresult
  · obtain ⟨-, hjob⟩ := Run.of_ended hlater
    cases hresult.symm.trans hjob
    rfl

end Job

/-- A plan in which some transformations of a field are applied, from one on, before the rest. -/
def Plan.applying (path : Path) (rest : Plan) : Nat → Nat → Plan
  | _, 0 => rest
  | i, n + 1 => .transformed path i (applying path rest (i + 1) n)

/-- Either some transformations are still to be applied, or what is left is the rest. -/
theorem Job.leaves_applying {portion : Portion} {path : Path} {rest : Plan} {i n : Nat}
    (h : (Job.ready (Plan.applying path rest i n)).Leaves portion) :
    ((∀ result, portion.job ≠ .ended result) ∧
      ∀ events, portion.Shows ((List.range' i n).map (.transformed path) ++ events)) ∨
    ∃ later, (Job.ready rest).Leaves later ∧
      portion = later.after ((List.range' i n).map (.transformed path)) := by
  induction n generalizing i portion with
  | zero => exact .inr ⟨portion, h, rfl⟩
  | succ n ih =>
    rcases Job.leaves_transformed h with rfl | ⟨later, hlater, rfl⟩
    · exact .inl ⟨fun _ hended => (by cases hended),
        fun events => Portion.shows_ready rfl (fun _ h => by cases h) _⟩
    · rcases ih hlater with ⟨hends, hshows⟩ | ⟨last, hlast, rfl⟩
      · exact .inl ⟨hends, fun events => (hshows events).after [.transformed path i]⟩
      · exact .inr ⟨last, hlast, rfl⟩

namespace Scope

open Transformation

variable {scope : Scope} {provided : List (String × Literal)} {T : ValueType}
  {transformations : List Transformation} {v : HostValue} {n : Nat}
  {outcome : Except CallError HostValue}

/-- The plan of stacked transformations: as many as can be are applied, and then either what they made
is carried on with or the failure is. -/
theorem transformAll_of_stacks {path : Path} {fail : CallError → Plan} {complete : Output → Plan}
    (hT : ∀ t ∈ transformations, t.Maps T)
    (hposition : ∀ t ∈ transformations, t.parameters.ByPosition) (hv : T.Holds v) (i : Nat) :
    Stacks provided scope.graph.scalarOf? scope.context transformations v n outcome →
    scope.transformAll provided path fail complete i transformations (T.erase v) =
      Plan.applying path (match outcome with
        | .ok w => complete (T.erase w)
        | .error e => fail e) i n := by
  intro h
  induction h generalizing i with
  | done v => rfl
  | refused rest hrefuses =>
    exact transformAll_of_refuses (hposition _ List.mem_cons_self) hrefuses i rest _
  | @failed t v bounds error rest hbinds happly =>
    have hrecover := (hT t List.mem_cons_self).recover hv
    rw [transformAll_of_binds (hposition _ List.mem_cons_self) hbinds hrecover, happly]
    rfl
  | @applied t rest v w bounds n outcome hbinds happly _ ih =>
    obtain ⟨ht, hrest⟩ := List.forall_mem_cons.mp hT
    obtain ⟨hfirst, hothers⟩ := List.forall_mem_cons.mp hposition
    have hw := ht.returns v bounds w hv happly
    rw [transformAll_of_binds hfirst hbinds (ht.recover hv), happly]
    dsimp only
    rw [ht.erase w hw, ih hrest hothers hw (i + 1), Plan.applying]

variable (scope T)

/-- What is seen, at some moment of a run, of a property with stacked transformations. The failure of
its resolver is all that is seen if there is one. Otherwise the transformations are applied to what it
returned: the first failure among them is reported, and if there is none then what they make of the
value is completed. -/
structure ComposesInOrder (p : Property) (provided : List (String × Literal)) (location : Position)
    (path : Path) (complete : Output → Plan) (portion : Job.Portion) : Prop where
  refused : ∀ name error,
    p.resolver.parameters.Refuses provided scope.graph.scalarOf? scope.context name error →
    portion.Fails p.type [] (refusal location path name error)
  failed : ∀ error, .answered path (.error error) ∈ portion.log →
    portion.Fails p.type [.answered path (.error error)] ⟨location, path, error, .resolver⟩
  ends : ∀ v, ∃ n outcome,
    Stacks provided scope.graph.scalarOf? scope.context p.transformations v n outcome
  composed : ∀ v n outcome, T.Holds v → .answered path (.ok (T.erase v)) ∈ portion.log →
    Stacks provided scope.graph.scalarOf? scope.context p.transformations v n outcome →
    match outcome with
    | .error e => portion.Fails p.type (.answered path (.ok (T.erase v)) ::
        (List.range n).map (.transformed path)) ⟨location, path, e.error, e.kind⟩
    | .ok w =>
      ((∀ result, portion.job ≠ .ended result) ∧ ∀ events,
        portion.Shows (.answered path (.ok (T.erase v)) ::
          (List.range n).map (.transformed path) ++ events)) ∨
      ∃ later, (Job.ready (complete (T.erase w))).Leaves later ∧ portion =
        later.after (.answered path (.ok (T.erase v)) :: (List.range n).map (.transformed path))

variable {scope T}

section

variable {depth : Nat} {object : ObjectType} {parent : Option Erased} {group : FieldGroup}
  {path : Path} {p : Property} {arguments : List (String × Literal)} {portion : Job.Portion}
  (harguments : scope.argumentsOf object p group.first.arguments = .ok arguments)
  (h : (Job.ready (scope.planProperty (scope.planObject depth) object parent group path p)).Leaves
    portion)

include harguments h

/-- A resolver that cannot be called for its arguments only leaves the error behind. -/
theorem fails_of_refused (hp : p.resolver.parameters.ByPosition) {name : String}
    {error : FieldError} (hrefuses : p.resolver.parameters.Refuses (Entries.ofPairs arguments)
      scope.graph.scalarOf? scope.context name error) :
    portion.Fails p.type [] (refusal group.first.start path name error) := by
  have hstart := (Resolver.allOrNothing hp parent).refused name error hrefuses p.resolver.behaviour
  rw [planProperty, harguments] at h
  dsimp only at h
  rw [hstart] at h
  exact Job.fails_of_fail h

/-- A resolver that fails is all that comes of a field: no transformation is tried. -/
theorem fails_of_answered {error : FieldError} (hmem : .answered path (.error error) ∈ portion.log) :
    portion.Fails p.type [.answered path (.error error)]
      ⟨group.first.start, path, error, .resolver⟩ := by
  have hmarks := marks_nodup_of_property h
  rw [planProperty, harguments] at h
  dsimp only at h
  split at h
  · cases List.mem_singleton.mp ((Job.shows_of_fail h).log.subset hmem)
  · rcases Job.leaves_invoke h with rfl | ⟨journal, ending, later, -, hlater, rfl⟩
    · cases hmem
    · rw [← Job.Portion.answered_unique hmarks hmem] at hlater ⊢
      exact (Job.fails_of_fail hlater).after [.answered path (.error error)]

/-- What is seen of a property whose arguments are bound by position and whose transformations map
values of one type. -/
theorem composesInOrder (hposition : ∀ q ∈ p.parameters, q.ByPosition)
    (hT : ∀ t ∈ p.transformations, t.Maps T) :
    scope.ComposesInOrder T p (Entries.ofPairs arguments) group.first.start path
      (fun output => scope.complete (scope.planObject depth) group.selections group.first.start
        output p.type path) portion := by
  have hnamed : ∀ t ∈ p.transformations, t.parameters.ByPosition := fun t ht =>
    hposition _ (List.mem_cons_of_mem _ (List.mem_map_of_mem ht))
  refine ⟨fun _ _ => fails_of_refused harguments h (hposition _ List.mem_cons_self),
    fun _ => fails_of_answered harguments h, exists_stacks hnamed, ?_⟩
  intro v n outcome hv hmem hstacks
  obtain ⟨later, hlater, rfl⟩ := exists_leaves_transformAll harguments h hmem
  rw [transformAll_of_stacks hT hnamed hv 0 hstacks] at hlater
  rw [List.range_eq_range']
  cases outcome with
  | error e =>
    rcases Job.leaves_applying hlater with ⟨hends, hshows⟩ | ⟨last, hlast, rfl⟩
    · refine Job.Portion.Fails.after ⟨hshows _, fun result hresult => ?_⟩ [.answered path (.ok _)]
      exact absurd hresult (hends result)
    · exact (List.append_nil _ ▸ (Job.fails_of_fail hlast).after _).after [.answered path (.ok _)]
  | ok w =>
    rcases Job.leaves_applying hlater with ⟨hends, hshows⟩ | ⟨last, hlast, rfl⟩
    · exact .inl ⟨hends, fun events => (hshows events).after [.answered path (.ok (T.erase v))]⟩
    · exact .inr ⟨last, hlast, rfl⟩

end

end Scope

namespace SchemaBuilder

/-- Stacked transformations compose in order and stop at the first failure. All of them map values of
the type that the resolver returns. If what is handed out of a value of this type is taken back as the
same value, then whatever the field of a property is asked for with comes of its resolver, and then of
its transformations one after the other: each binds its own arguments from what is given, and is
applied to what the one before it returned. -/
theorem transformations_compose {b : SchemaBuilder} {catalogue : Catalogue} {s : Schema}
    (h : (b.build catalogue).1 = .ok s) {name : String} {object : ObjectType}
    (hobject : (name, .object object) ∈ s.graph.types) {p : Property} (hp : p ∈ object.properties) :
    (∀ t ∈ p.transformations, t.valueType = p.resolver.returns.host) ∧
    ∀ T : ValueType, (∀ t ∈ p.transformations, t.Maps T) →
    ∀ (scope : Scope) (depth : Nat) (parent : Option Erased) (group : FieldGroup) (path : Path)
      (arguments : List (String × Literal)),
      scope.argumentsOf object p group.first.arguments = .ok arguments → ∀ portion,
        (Job.ready (scope.planProperty (scope.planObject depth) object parent group path p)).Leaves
          portion →
        scope.ComposesInOrder T p (Entries.ofPairs arguments) group.first.start path
          (fun output => scope.complete (scope.planObject depth) group.selections group.first.start
            output p.type path) portion := by
  obtain ⟨hpublishes, hattached⟩ := publishes_of_build h hobject hp
  constructor
  · intro t ht
    obtain ⟨declaration, -, hattaches⟩ := exists_of_forall₂ hattached.flip ht
    cases hattaches with
    | declared _ _ htype => exact htype
  · intro T hT scope depth parent group path arguments harguments portion hportion
    exact Scope.composesInOrder harguments hportion
      (fun q hq => Parameters.byPosition (hpublishes.named q hq)) hT

end SchemaBuilder

namespace Composing.Sample

open Invoking.Sample (film catalogue text nightfall scope)

def plain : Universe := ⟨[]⟩

def texts : ValueType where
  Holds v := ∃ s, v = .text s
  erase := plain.erase .text

def joined (join : String → String → String) : Transformation :=
  plain.transformation .text [text] fun v bounds =>
    match v, bounds with
    | .text s, [.value (.text added)] => .ok (.text (join s added))
    | _, _ => .error Bound.mismatch

def builder : SchemaBuilder :=
  (SchemaBuilder.new.query { PropertyDeclaration.extension "latest" with
    resolver := some ⟨.ofKinds [], .object film film, .suspending none fun _ _ =>
      .answer (.ok (.single film .nothing))⟩ }).type (.object film film) fun d =>
    { d with
      transformations := [⟨"title", ["ending"], some (joined fun s ending => s ++ ending)⟩,
        ⟨"title", ["article"], some (joined fun s article => article ++ s)⟩] }

def transformations : List Transformation :=
  [{ joined fun s ending => s ++ ending with parameters := ⟨[text], ["ending"]⟩ },
    { joined fun s article => article ++ s with parameters := ⟨[text], ["article"]⟩ }]

def property : Property :=
  ⟨"title", none, .current, .named "String" true,
    [⟨"ending", .named "String" true⟩, ⟨"article", .named "String" true⟩], .native,
    .ofField film ⟨"title", .scalar .text, fun v => .single .text (v.field "title")⟩,
    transformations⟩

def filmType : ObjectType := ⟨"Film", none, some film, [property]⟩

theorem exists_schema : ∃ s, (builder.build catalogue).1 = .ok s ∧
    ("Film", .object filmType) ∈ s.graph.types :=
  ⟨_, rfl, List.mem_of_getElem? (i := ScalarType.builtin.length + 1) rfl⟩

theorem maps_joined (join : String → String → String) (names : List String) :
    { joined join with parameters := ⟨[text], names⟩ : Transformation }.Maps texts := by
  apply Universe.maps_transformation
  · rintro v ⟨s, rfl⟩
    rfl
  · rintro v bounds w ⟨s, rfl⟩ happly
    split at happly
    · cases happly
      exact ⟨_, rfl⟩
    · cases happly

def selected (arguments : List (String × Literal)) : FieldGroup :=
  ⟨"title", ⟨⟨0, 2⟩, none, "title", arguments, [], none⟩, []⟩

def ending : String × Literal := ("ending", .scalar (.string "!"))

def article : String × Literal := ("article", .scalar (.string "The "))

/-- Moments at which the title of a film is asked for with arguments. -/
def Asks (s : Schema) (arguments : List (String × Literal)) (portion : Job.Portion) : Prop :=
  (Job.ready ((scope s).planProperty ((scope s).planObject 1) filmType (some nightfall)
    (selected arguments) [.field "title"] property)).Leaves portion

theorem binds_text {name given : String} {provided : List (String × Literal)} (table : ScalarTable)
    (context : Context) (h : provided.lookup name = some (.scalar (.string given))) :
    Parameters.Binds ⟨[text], [name]⟩ provided table context [.value (.text given)] where
  length := rfl
  takes
    | 0, _, hbound => Option.some.inj hbound ▸ .argument rfl rfl (by rw [h]; rfl)

end Composing.Sample

namespace SchemaBuilder

open Composing.Sample
open Invoking.Sample (catalogue nightfall scope)

/-- A title with an ending and an article has both, and without an article it fails after the ending
was applied. -/
theorem transformations_compose_sample : ∃ s, (builder.build catalogue).1 = .ok s ∧
    ("Film", .object filmType) ∈ s.graph.types ∧
    (∀ t ∈ property.transformations, t.Maps texts) ∧
    ∀ portion, .answered [.field "title"] (.ok (.single .text (.text "Nightfall"))) ∈ portion.log →
      (Asks s [ending] portion → portion.Fails (.named "String" true)
        [.answered [.field "title"] (.ok (.single .text (.text "Nightfall"))),
          .transformed [.field "title"] 0]
        (Scope.refusal ⟨0, 2⟩ [.field "title"] "article" ⟨"Expected a text", .string "null"⟩)) ∧
      (Asks s [ending, article] portion → ∀ result, portion.job = .ended result →
        ∃ later, (Job.ready ((scope s).complete ((scope s).planObject 1) [] ⟨0, 2⟩
          (.single .text (.text "The Nightfall!")) (.named "String" true)
            [.field "title"])).Leaves later ∧ portion = later.after
          [.answered [.field "title"] (.ok (.single .text (.text "Nightfall"))),
            .transformed [.field "title"] 0, .transformed [.field "title"] 1]) := by
  obtain ⟨s, hs, hfilm⟩ := exists_schema
  have hproperty : property ∈ filmType.properties := List.mem_cons_self
  have hmaps : ∀ t ∈ property.transformations, t.Maps texts :=
    List.forall_mem_cons.mpr ⟨maps_joined _ _, List.forall_mem_singleton.mpr (maps_joined _ _)⟩
  obtain ⟨-, hcompose⟩ := transformations_compose hs hfilm hproperty
  refine ⟨s, hs, hfilm, hmaps, fun portion hmem => ⟨fun hasks => ?_, fun hasks result hended => ?_⟩⟩
  · have h := hcompose texts hmaps (scope s) 1 (some nightfall) (selected [ending])
      [.field "title"] [ending] rfl portion hasks
    refine h.composed (.text "Nightfall") 1 (.error (.binding "article" _)) ⟨_, rfl⟩ hmem ?_
    exact .applied (binds_text _ _ rfl) rfl (.refused [] ⟨0, .argument rfl rfl rfl, nofun⟩)
  · have h := hcompose texts hmaps (scope s) 1 (some nightfall) (selected [ending, article])
      [.field "title"] [ending, article] rfl portion hasks
    have hstacks := h.composed (.text "Nightfall") 2 (.ok (.text "The Nightfall!")) ⟨_, rfl⟩ hmem
      (.applied (binds_text _ _ rfl) rfl (.applied (binds_text _ _ rfl) rfl (.done _)))
    rcases hstacks with ⟨hends, -⟩ | hlater
    · exact absurd hended (hends result)
    · exact hlater

end SchemaBuilder

end Trellis
