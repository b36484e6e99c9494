import Trellis.Proofs.Execution.Dispatch
import Trellis.Proofs.Schema.MemberOrder

/-!
Unions of built schemas.

In a schema in which every host type is described in one way, a value is a member of a union by its
host type alone, wherever members of the union are expected. So it makes no difference in which order
a union lists its members. Null is no member, and is accepted where it may stand.
-/

namespace Trellis

namespace SchemaBuilder

/-- Unions dispatch on host types alone. Whatever is resolved where members of a union are expected,
at any nesting of lists, is shown as the object of the member that its host type belongs to, or
refused; null is refused where it may not stand, and shown elsewhere. This holds of every run of a
request to its end, and so of what workers answer. The order in which unions list their members
makes no difference, neither to whether a schema is built nor to what is executed against it. -/
theorem union_dispatch {catalogue : Catalogue} {b : SchemaBuilder} (hb : b.Arises catalogue)
    (hd : b.declarations.Coherent catalogue) :
    (∀ s, (b.build catalogue).1 = .ok s → ∀ configuration r o,
      (Schema.mk s.graph configuration).opening r = .ok o → ∀ depth,
        (∀ log result, (o.agenda depth).Reaches log (.ended result) →
          o.DispatchesUnions log (Agenda.recorded log result).1 (Agenda.recorded log result).2) ∧
        ∀ workers outcome rest,
          (Schema.mk s.graph configuration).executeOn? workers depth r = some (.ok outcome, rest) →
            ∃ log result, (o.agenda depth).Reaches log (.ended result) ∧
              o.DispatchesUnions log outcome.data outcome.errors) ∧
    ∀ calls calls', b = ofCalls calls → List.Forall₂ BuilderCall.SameMembers calls calls' →
      ((∃ s, (b.build catalogue).1 = .ok s) ↔ ∃ s, ((ofCalls calls').build catalogue).1 = .ok s) ∧
      ∀ s s', (b.build catalogue).1 = .ok s → ((ofCalls calls').build catalogue).1 = .ok s' →
        ∀ configuration workers depth r,
          (Schema.mk s.graph configuration).executeOn? workers depth r =
            (Schema.mk s'.graph configuration).executeOn? workers depth r := by
  constructor
  · intro s hs configuration r o ho depth
    obtain ⟨registry, hruns, hgraph⟩ := Declarations.register_eq_ok.mp (register_of_build hs)
    have hexact : s.graph.Exact := by
      rw [hgraph]
      exact (Registering.addAll_settled hd hb.proper hruns).exact _ hd rfl
    have hdispatched (log : List Event) (result : Option Value)
        (hrun : (o.agenda depth).Reaches log (.ended result)) :
        o.DispatchesUnions log (Agenda.recorded log result).1 (Agenda.recorded log result).2 :=
      Schema.dispatchesUnions_of_reaches hexact ho hrun
    exact ⟨hdispatched, fun workers outcome rest h =>
      Schema.exists_reaches_of_outcome ho hdispatched h⟩
  · rintro calls calls' rfl hcalls
    exact executeOn?_of_sameMembers hcalls hd

namespace Media

open Document

def film : HostType := .named "studio::Film"

def short : HostType := .named "studio::Short"

/-- Films have titles, and short films have names. -/
def catalogue : Catalogue where
  objects := [(film, ⟨"Film", [⟨"title", .scalar .text, fun v => .single .text (v.field "title")⟩]⟩),
    (short, ⟨"Short", [⟨"name", .scalar .text, fun v => .single .text (v.field "name")⟩]⟩)]
  inputs := []

/-- A film, a short film, what is neither of them, and null. -/
def handedOut : Output :=
  .list [.single film (.record [("title", .text "Nightfall")]),
    .single short (.record [("name", .text "Dusk")]), .single (.named "studio::Poster") .nothing, .null]

/-- A root field that may hand out members of a union. -/
def featured : PropertyDeclaration :=
  { PropertyDeclaration.ofUnion "featured" with
    resolver := some ⟨.ofKinds [],
      .list (.sequence (.optional .member)) (.nullable (.optional .member) (.union .member)),
      .suspending none fun _ _ => .answer (.ok handedOut)⟩
    union := some "Media" }

/-- Calls that declare a union of some members. -/
def calls (members : List TypeRef) : List BuilderCall :=
  [.query featured, .union "Media" ⟨none, members⟩]

/-- The field `featured { __typename ... on Film { title } ... on Short { name } }`. -/
def featuring : Field :=
  let named (column : Nat) (name : String) : Selection :=
    .field ⟨⟨0, column⟩, none, name, [], [], none⟩
  ⟨⟨0, 2⟩, none, "featured", [], [], some [named 13 "__typename",
    .inlineFragment ⟨0, 24⟩ (some "Film") [] [named 38 "title"],
    .inlineFragment ⟨0, 46⟩ (some "Short") [] [named 61 "name"]]⟩

def operation : Operation := ⟨.origin, .query, none, [], [], [.field featuring]⟩

def request : Request := ⟨[.operation operation], none, [], []⟩

def data : Value :=
  .object [("featured", .list [
    .object [("__typename", .string "Film"), ("title", .string "Nightfall")],
    .object [("__typename", .string "Short"), ("name", .string "Dusk")], .null, .null])]

def errors : List ExecutionError :=
  [⟨⟨0, 2⟩, [.field "featured", .index 2],
    .ofMessage "Value of type studio::Poster is not a member of union \"Media\"", .coercion⟩]

def members : List TypeRef := [.object film film, .object short short]

def objectType (host : HostType) (name property : String) : ObjectType :=
  ⟨name, none, some host, [⟨property, none, .current, .named "String" true, [], .native,
    .ofField host ⟨property, .scalar .text, fun v => .single .text (v.field property)⟩, []⟩]⟩

def queryType : ObjectType :=
  ⟨"Query", none, none, [⟨"featured", none, .current, .list (.named "Media" false) true, [], .union,
    ⟨.ofKinds [], .list (.sequence (.optional .member)) (.nullable (.optional .member) (.union .member)),
      .suspending none fun _ _ => .answer (.ok handedOut)⟩, []⟩]⟩

def mediaType : UnionType := ⟨"Media", none, ["Film", "Short"], [(film, "Film"), (short, "Short")]⟩

def schema : Schema where
  graph := ⟨ScalarType.builtin.map (fun s => (s.name, .scalar s)) ++
      [("Query", .object queryType), ("Media", .union mediaType),
        ("Film", .object (objectType film "Film" "title")),
        ("Short", .object (objectType short "Short" "name"))],
    [(film, "Film"), (short, "Short")], [],
    ScalarType.builtin.map (fun s => (s.coercion.host, s.name)), "Query", none⟩
  configuration := .default

theorem build_calls : ((ofCalls (calls members)).build catalogue).1 = .ok schema := rfl

def opening : Opening := ⟨⟨schema.graph, request.document, [], []⟩, queryType, operation⟩

theorem opening_request : schema.opening request = .ok opening := rfl

theorem sequential_opening : (opening.agenda 2).sequential? = some ⟨data, errors, []⟩ := by cbv

/-- Objects are what they are described as, and there are no enums and no input objects. -/
def Expected : TypeRef → Prop
  | .object host outline => host = outline
  | .enumeration .. | .inputObject .. => False
  | .list _ inner | .nullable _ inner => Expected inner
  | _ => True

theorem expected {ref : TypeRef}
    (h : (ofCalls (calls members)).declarations.Describes catalogue ref) : Expected ref := by
  induction h with
  | mention hmem =>
    have hmentions : (ofCalls (calls members)).declarations.mentions =
        [.list (.sequence (.optional .member)) (.nullable (.optional .member) (.union .member)),
          .object film film, .object short short] := rfl
    rw [hmentions] at hmem
    simp only [List.mem_cons, List.not_mem_nil, or_false] at hmem
    rcases hmem with rfl | rfl | rfl <;> simp [Expected]
  | customized hmem => exact absurd hmem List.not_mem_nil
  | nullable _ ih => exact ih
  | list _ ih => exact ih
  | @field host outline f _ hf ih =>
    have hfields : f.type = .scalar .text := by
      simp only [catalogue, Catalogue.object, List.lookup_cons] at hf
      split at hf
      · exact List.mem_singleton.mp hf ▸ rfl
      · split at hf
        · exact List.mem_singleton.mp hf ▸ rfl
        · exact absurd hf List.not_mem_nil
    rw [hfields]
    trivial
  | inputField _ _ ih => exact ih.elim

theorem coherent : (ofCalls (calls members)).declarations.Coherent catalogue where
  object _ _ _ henum _ := (expected henum).elim
  inputObject _ _ _ henum _ := (expected henum).elim
  shapes _ _ _ hshape _ := (expected hshape).elim
  outlines _ _ _ houtline hother := (expected houtline).symm.trans (expected hother)
  inputOutlines _ _ _ houtline _ := (expected houtline).elim

theorem sameMembers (first second : List TypeRef) (h : first.Perm second) :
    List.Forall₂ BuilderCall.SameMembers (calls first) (calls second) :=
  .cons (.same _) (.cons (.union _ ⟨rfl, h⟩) .nil)

end Media

open Media in
/-- Films and short films are members of a union, which may be listed the other way round. -/
theorem union_dispatch_sample :
    ((ofCalls (calls members)).build Media.catalogue).1 = .ok schema ∧
    schema.graph.IsMember mediaType film (objectType film "Film" "title") ∧
    (∃ log result, (opening.agenda 2).Reaches log (.ended result) ∧
      opening.DispatchesUnions log data Media.errors) ∧
    ∃ s', ((ofCalls (calls members.reverse)).build Media.catalogue).1 = .ok s' ∧
      ∀ workers, schema.executeOn? workers 2 request =
        (Schema.mk s'.graph .default).executeOn? workers 2 request := by
  obtain ⟨hdispatch, horder⟩ := union_dispatch (arises_ofCalls Media.catalogue _) coherent
  obtain ⟨log, result, hrun, hrecorded⟩ := Agenda.exists_reaches_of_sequential sequential_opening
  have hdispatched := (hdispatch schema build_calls .default request opening opening_request 2).1
    log result hrun
  rw [hrecorded] at hdispatched
  obtain ⟨hbuild, hexecute⟩ :=
    horder _ _ rfl (sameMembers members members.reverse members.reverse_perm.symm)
  obtain ⟨s', hs'⟩ := hbuild.mp ⟨schema, build_calls⟩
  exact ⟨build_calls, ⟨by decide, rfl, rfl⟩, ⟨log, result, hrun, hdispatched⟩, s', hs',
    fun workers => hexecute schema s' build_calls hs' .default workers 2 request⟩

namespace Media

def single (name property : String) : Schema where
  graph := ⟨ScalarType.builtin.map (fun s => (s.name, .scalar s)) ++
      [("Query", .object queryType), ("Media", .union ⟨"Media", none, [name, name], [(film, name)]⟩),
        (name, .object (objectType film name property))],
    [(film, name)], [], ScalarType.builtin.map (fun s => (s.coercion.host, s.name)), "Query", none⟩
  configuration := .default

/-- The same host type, described as a film and as a short film. -/
def twofold : List TypeRef := [.object film film, .object film short]

theorem build_twofold :
    ((ofCalls (calls twofold)).build catalogue).1 = .ok (single "Film" "title") := rfl

theorem build_reverse_twofold :
    ((ofCalls (calls twofold.reverse)).build catalogue).1 = .ok (single "Short" "name") := rfl

def brief : Request :=
  ⟨[.operation ⟨.origin, .query, none, [], [], [.field ⟨⟨0, 2⟩, none, "featured", [], [],
    some [.field ⟨⟨0, 13⟩, none, "__typename", [], [], none⟩]⟩]⟩], none, [], []⟩

def briefData (name : String) : Value :=
  .object [("featured", .list [.object [("__typename", .string name)], .null, .null, .null])]

/-- The names of members of what is featured, or null. -/
def shownBy (s : Schema) : Option Value :=
  (s.execute? 2 brief).bind fun
    | .ok outcome => some outcome.data
    | .error _ => none

theorem shownBy_film : shownBy (single "Film" "title") = some (briefData "Film") := by cbv

theorem shownBy_short : shownBy (single "Short" "name") = some (briefData "Short") := by cbv

/-- The last of what is featured is null, in every run that is recorded like this. -/
theorem place_null {log : List Event} {result : Option Value}
    (hrun : (opening.agenda 2).Reaches log (.ended result))
    (hrecorded : Agenda.recorded log result = (data, errors)) :
    opening.place? log [.field "featured", .index 3] = some (.value (.named "Media" false)
      (some .null) (FieldGroup.mk "featured" featuring []).selections) := by
  have hmarks := Schema.nodup_marks opening_request hrun
  obtain ⟨shown, rfl, -⟩ := Schema.exists_data_of_reaches opening_request hrun
  have herrors : ∀ e ∈ Event.errors log, e ∈ errors := fun e he => by
    have hmem : e ∈ (Agenda.recorded log (some shown)).2 := Agenda.mem_recorded.mpr he
    rwa [hrecorded] at hmem
  have hroot := Opening.traced_of_place? hmarks hrun (opening.place?_nil log)
  have hgroup : ⟨"featured", featuring, []⟩ ∈
      (opening.scope.collect queryType operation.selections).groups := List.mem_cons_self
  obtain ⟨_, t, ht, hwithin, -⟩ := hroot.group rfl hgroup
  have hanswer : Event.answer? log [.field "featured"] = some (.ok handedOut) := by
    rcases Opening.answers_first herrors ht hwithin with h | ⟨e, he, hpath⟩
    · cases h with
      | typeName hname => exact absurd hname (by decide)
      | resolved _ hproperty harguments haction hending hresult hanswered =>
        cases hproperty
        cases harguments
        cases haction
        cases hending
        cases hresult
        exact Event.answer?_of_mem hmarks hanswered
    · cases List.mem_singleton.mp he
      cases hpath
  have houtput : opening.scope.outputOf? log [.field "featured"] queryType
      (queryType.properties.head (by decide)) ⟨"featured", featuring, []⟩ = some handedOut := by
    rw [Scope.outputOf?, hanswer]
    rfl
  have hfeatured : opening.place? log [.field "featured"] = some (.value _ (some handedOut) _) :=
    congrArg (fun output => some (Place.value _ output _)) houtput
  rw [← List.singleton_append, Opening.place?_concat, hfeatured]
  rfl

end Media

open Media in
/-- Null is accepted where a member of a union may be missing, without any error. And if a host type
is described in two ways, the order of members decides which of them is shown. -/
theorem null_accepted :
    ((ofCalls (calls members)).build Media.catalogue).1 = .ok schema ∧
    schema.opening request = .ok opening ∧
    opening.scope.graph.type? "Media" = some (.union mediaType) ∧
    (∃ log result selections, (opening.agenda 2).Reaches log (.ended result) ∧
      opening.place? log [.field "featured", .index 3] =
        some (.value (.named "Media" false) (some .null) selections) ∧
      Agenda.recorded log result = (data, Media.errors) ∧
      data.follow? [.field "featured", .index 3] = some .null ∧
      ∀ e ∈ Media.errors, ¬ [.field "featured", .index 3] <+: e.path) ∧
    List.Forall₂ BuilderCall.SameMembers (calls twofold) (calls twofold.reverse) ∧
    ∃ s s', ((ofCalls (calls twofold)).build Media.catalogue).1 = .ok s ∧
      ((ofCalls (calls twofold.reverse)).build Media.catalogue).1 = .ok s' ∧
        s.execute? 2 brief ≠ s'.execute? 2 brief := by
  refine ⟨build_calls, opening_request, rfl, ?_,
    sameMembers twofold twofold.reverse twofold.reverse_perm.symm, _, _, build_twofold,
    build_reverse_twofold, fun hsame => ?_⟩
  · obtain ⟨log, result, hrun, hrecorded⟩ := Agenda.exists_reaches_of_sequential sequential_opening
    exact ⟨log, result, _, hrun, place_null hrun hrecorded, hrecorded, rfl, by decide⟩
  · have hshown : shownBy (single "Film" "title") = shownBy (single "Short" "name") := by
      rw [shownBy, shownBy, hsame]
    rw [shownBy_film, shownBy_short] at hshown
    simp [briefData, Value.string] at hshown

end SchemaBuilder

end Trellis
