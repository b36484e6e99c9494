import Trellis.Proofs.Execution.ScheduleIndependence
import Trellis.Proofs.Typing.Execution

/-!
Soundness of types.

The types of a host program are forgotten when its functions are put behind resolvers and its values
into outputs, and an execution recovers them from the host types that values are tagged with. If all
calls of a builder are typed, nothing is recovered wrongly: whatever is requested, no error comes from
a failed downcast.
-/

namespace Trellis

namespace SchemaBuilder

variable {u : Universe}

end SchemaBuilder

namespace Universe.Sample

open Document

def film : HostType := .named "studio::Film"

/-- Films have titles and sequels, which are films. -/
def studio : Universe where
  definitions := [("studio::Film", .object "Film" [("title", .text), ("sequels", .sequence film)])]

theorem genuine : studio.Genuine := by
  have hobject {path : String} {definition : Trellis.Definition}
      (h : studio.definition? path = some definition) :
      definition = .object "Film" [("title", .text), ("sequels", .sequence film)] :=
    (Prod.mk.inj (List.mem_singleton.mp (Entries.mem_of_lookup h))).2
  exact ⟨fun _ h => (nomatch hobject h), fun _ _ h => (nomatch hobject h),
    fun _ _ _ h => (nomatch hobject h)⟩

def nightfall : HostValue := .record [("title", .text "Nightfall"), ("sequels", .sequence [])]

theorem hasType_nightfall : studio.HasType film nightfall := by
  refine .object rfl fun field t hmem => ?_
  simp only [List.mem_cons, Prod.mk.injEq, List.not_mem_nil, or_false] at hmem
  rcases hmem with ⟨rfl, rfl⟩ | ⟨rfl, rfl⟩
  · exact .text "Nightfall"
  · exact .sequence nofun

theorem hasType_double : studio.HasType .member
    (.member (studio.erase (.sequence film) (.sequence [nightfall]))) :=
  .member (.sequence (List.forall_mem_singleton.mpr hasType_nightfall))

/-- A function of a root field that always answers with the same value. -/
def constant (t : HostType) (v : HostValue) (h : studio.HasType t v) : studio.Function where
  receiver := none
  parameters := []
  returns := t
  body := .suspending fun
    | _, [] => .answer (.ok (studio.erase t v))
    | _, _ :: _ => .answer (.error Bound.mismatch)
  yields := by
    rintro _ _ - ⟨⟩ journal ending output hending hresult
    cases hending
    cases hresult
    exact ⟨v, h, rfl⟩
  unpacks := by
    intro _ bounds hbounds
    cases bounds with
    | nil => exact absurd .nil hbounds
    | cons => rfl

/-- The rival of a film with a name. No film has one. -/
def rival : studio.Function where
  receiver := some film
  parameters := [.argument .text]
  returns := film
  body := .blocking fun
    | _, [.value (.text name)] => .answer (.error (.ofMessage s!"No rival named {name}"))
    | _, _ => .answer (.error Bound.mismatch)
  yields := by
    rintro _ _ - (⟨⟩ | ⟨⟨⟨name⟩⟩, ⟨⟩⟩) journal ending output hending hresult
    cases hending
    cases hresult
  unpacks := by
    intro _ bounds hbounds
    rw [Body.run]
    split
    · exact absurd (.cons (.argument (.text _)) .nil) hbounds
    · rfl

/-- Titles with an exclamation mark. -/
def loud : studio.Mapping where
  host := .text
  parameters := []
  apply v bounds :=
    match v, bounds with
    | .text title, [] => .ok (.text (title ++ "!"))
    | v, [] => .ok v
    | _, _ :: _ => .error Bound.mismatch
  keeps := by
    rintro _ w _ ⟨title⟩ ⟨⟩ h
    cases h
    exact .text _
  unpacks := by
    intro v bounds hbounds
    cases bounds with
    | nil => exact absurd .nil hbounds
    | cons => cases v <;> rfl

/-- Calls that declare films with rivals and loud titles, and a union of films. A root field of that
union hands out a list. -/
def calls : List BuilderCall :=
  [.query { PropertyDeclaration.extension "latest" with
      resolver := some (constant film nightfall hasType_nightfall).resolver },
    .query { PropertyDeclaration.ofUnion "featured" with
      resolver := some (constant .member _ hasType_double).resolver
      union := some "Media" },
    .type (studio.describe film) ⟨fun d => { d with
      properties := d.properties ++ [{ PropertyDeclaration.extension "rival" with
        arguments := ["name"]
        resolver := some rival.resolver }]
      transformations := d.transformations ++ [⟨"title", [], some loud.transformation⟩] },
      fun _ => rfl⟩,
    .union "Media" ⟨none, [studio.describe film]⟩]

theorem typed : ∀ c ∈ calls, studio.Calls c := by
  intro c hc
  simp only [calls, List.mem_cons, List.not_mem_nil, or_false] at hc
  rcases hc with rfl | rfl | rfl | rfl
  · rintro r ⟨⟩
    exact ⟨_, rfl, rfl⟩
  · rintro r ⟨⟩
    exact ⟨_, rfl, rfl⟩
  · refine ⟨⟨film, rfl⟩, fun d hd => ⟨fun p hp => ?_, fun t ht => ?_⟩⟩
    · rcases List.mem_append.mp hp with hp | hp
      · exact hd.properties p hp
      · obtain rfl := List.mem_singleton.mp hp
        rintro r ⟨⟩
        exact ⟨rival, rfl, rfl⟩
    · rcases List.mem_append.mp ht with ht | ht
      · exact hd.transformations t ht
      · obtain rfl := List.mem_singleton.mp ht
        rintro r ⟨⟩
        exact ⟨loud, rfl⟩
  · exact List.forall_mem_singleton.mpr ⟨film, rfl⟩

/-! The schema that the calls make up, and a request to it. -/

def filmType : ObjectType :=
  ⟨"Film", none, some film,
    [⟨"title", none, .current, .named "String" true, [], .native,
      .ofField film (studio.objectField ("title", .text)), [loud.named []]⟩,
    ⟨"sequels", none, .current, .list (.named "Film" true) true, [], .native,
      .ofField film (studio.objectField ("sequels", .sequence film)), []⟩,
    ⟨"rival", none, .current, .named "Film" true, [⟨"name", .named "String" true⟩], .extension,
      rival.named ["name"], []⟩]⟩

def queryType : ObjectType :=
  ⟨"Query", none, none,
    [⟨"latest", none, .current, .named "Film" true, [], .extension,
      (constant film nightfall hasType_nightfall).named [], []⟩,
    ⟨"featured", none, .current, .named "Media" true, [], .union,
      (constant .member _ hasType_double).named [], []⟩]⟩

def schema : Schema where
  graph := ⟨ScalarType.builtin.map (fun s => (s.name, .scalar s)) ++
      [("Query", .object queryType), ("Film", .object filmType),
        ("Media", .union ⟨"Media", none, ["Film"], [(film, "Film")]⟩)],
    [(film, "Film")], [], ScalarType.builtin.map (fun s => (s.coercion.host, s.name)), "Query", none⟩
  configuration := .default

theorem build_calls : ((SchemaBuilder.ofCalls calls).build studio.catalogue).1 = .ok schema := rfl

def field (column : Nat) (name : String) (arguments : List (String × Literal))
    (selections : Option (List Selection)) : Selection :=
  .field ⟨⟨0, column⟩, none, name, arguments, [], selections⟩

/-- The operation `{ latest { title rival(name: "Dusk") { title } } featured { __typename } }`. -/
def operation : Operation :=
  ⟨.origin, .query, none, [], [],
    [field 2 "latest" [] (some [field 11 "title" [] none,
      field 17 "rival" [("name", .string "Dusk")] (some [field 39 "title" [] none])]),
      field 49 "featured" [] (some [field 60 "__typename" [] none])]⟩

def request : Request := ⟨[.operation operation], none, [], []⟩

def opening : Opening := ⟨⟨schema.graph, request.document, [], []⟩, queryType, operation⟩

def errors : List ExecutionError :=
  [⟨⟨0, 17⟩, [.field "latest", .field "rival"], .ofMessage "No rival named Dusk", .resolver⟩,
    ⟨⟨0, 49⟩, [.field "featured"],
      .ofMessage "Expected a value of type \"Media!\", found a list", .coercion⟩]

theorem opening_request : schema.opening request = .ok opening := rfl

theorem sequential_opening : (opening.agenda 3).sequential? = some ⟨.null, errors, []⟩ := by cbv

end Universe.Sample

namespace SchemaBuilder

open Universe.Sample

end SchemaBuilder

end Trellis
