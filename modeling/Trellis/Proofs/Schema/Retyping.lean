import Trellis.Proofs.Schema.Coinciding
import Trellis.Proofs.Schema.Noting
import Trellis.Proofs.Schema.ReachableTypes

/-!
Ignored fields are never looked at.

A field that an object ignores may have any type, also one that no field may have. Whether a schema is
built, which one, and which error keeps it from being built does not depend on it, however early the
object is met.
-/

namespace Trellis

namespace Registering

open Declarations

variable {d : Declarations} {c c' : Catalogue} {depth inputDepth : Nat}

/-- Walks through objects that come to the same for every object that can be reached. -/
def CoincideObjects (d : Declarations) (c : Catalogue)
    (walk walk' : HostType → HostType → Registering String) : Prop :=
  ∀ host outline, d.Reaches c (fun _ => True) (.object host outline) →
    Coincide d (walk host outline) (walk' host outline)

theorem coincide_outputType {walk walk' : HostType → HostType → Registering String}
    (hwalk : CoincideObjects d c walk walk') (site : Site) {ref : TypeRef}
    (hreaches : d.Reaches c (fun _ => True) ref) :
    Coincide d (outputType walk site ref) (outputType walk' site ref) := by
  induction ref with
  | nullable _ inner ih => exact .map _ (ih hreaches.nullable)
  | list _ inner ih => exact .map _ (ih hreaches.list)
  | scalar host => exact .map _ (coincide_scalarName host)
  | enumeration host shape => exact .map _ (coincide_registerEnum host shape)
  | object host outline => exact .map _ (hwalk host outline hreaches)
  | union host =>
    rw [outputType, outputType]
    split
    · exact .pure _
    · exact .refuse _
  | inputObject | function | generic => exact .refuse _

theorem coincide_insertProperty (owner : String) (properties : List Property) (p : Property) :
    Coincide d (insertProperty owner properties p) (insertProperty owner properties p) := by
  rw [insertProperty]
  split
  · exact .refuse _
  · exact .pure _

theorem coincide_adjustProperty (owner name : String)
    {change change' : Property → Registering Property}
    (hchange : ∀ p, Coincide d (change p) (change' p)) (properties : List Property) :
    Coincide d (adjustProperty owner name change properties)
      (adjustProperty owner name change' properties) := by
  induction properties with
  | nil => exact .refuse _
  | cons p rest ih =>
    rw [adjustProperty, adjustProperty]
    split
    · exact (hchange p).bind fun _ => .pure _
    · exact ih.bind fun _ => .pure _

/-- The fields that are not ignored are all that is walked. -/
theorem coincide_insertFields {walk walk' : HostType → HostType → Registering String}
    (hwalk : CoincideObjects d c walk walk') (owner : String) (host : HostType)
    (ignored : List String) {fields fields' : List ObjectField}
    (hshown : fields'.filter (·.name ∉ ignored) = fields.filter (·.name ∉ ignored))
    (hreaches : ∀ f ∈ fields.filter (·.name ∉ ignored), d.Reaches c (fun _ => True) f.type) :
    Coincide d (insertFields walk owner host ignored fields)
      (insertFields walk' owner host ignored fields') := by
  rw [insertFields, insertFields, hshown]
  refine .foldlM (fun f hf properties => ?_) []
  exact (coincide_outputType hwalk _ (hreaches f hf)).bind fun _ => coincide_insertProperty _ _ _

section

variable (h : d.LooksAlike c c') {walk walk' : HostType → HostType → Registering String}
  (hwalk : CoincideObjects d c walk walk')

include h hwalk

theorem coincide_property (owner : String) {declaration : PropertyDeclaration}
    (hreaches : ∀ ref ∈ declaration.mentions, d.Reaches c (fun _ => True) ref) :
    Coincide d (property c depth walk owner declaration)
      (property c' depth walk' owner declaration) := by
  rw [property, property]
  dsimp only
  split
  · exact .refuse _
  rename_i resolver hresolver
  rw [PropertyDeclaration.mentions, hresolver] at hreaches
  split
  · exact .refuse _
  refine .optional (coincide_checkUnion owner declaration resolver.returns) ?_
  exact (coincide_outputType hwalk _ (hreaches _ List.mem_cons_self)).bind fun _ =>
    (coincide_mergeArguments h owner _ _ _).bind fun _ => .pure _

theorem coincide_insertDeclared (owner : String) {declarations : List PropertyDeclaration}
    (hreaches : ∀ declaration ∈ declarations, ∀ ref ∈ declaration.mentions,
      d.Reaches c (fun _ => True) ref) (properties : List Property) :
    Coincide d (insertDeclared c depth walk owner properties declarations)
      (insertDeclared c' depth walk' owner properties declarations) :=
  .foldlM (fun declaration hmem _ =>
    (coincide_property h hwalk owner (hreaches declaration hmem)).bind fun _ =>
      coincide_insertProperty owner _ _) properties

theorem coincide_walkProperties (name : String) (host : HostType) {outline : HostType}
    (hobject : d.Reaches c (fun _ => True) (.object host outline)) :
    Coincide d
      (walkProperties c depth walk name (c.object outline) host (d.customization host outline))
      (walkProperties c' depth walk' name (c'.object outline) host (d.customization host outline)) := by
  have hlinks (ref) (hmem : ref ∈ d.links c (.object host outline)) := hobject.link trivial hmem
  rw [links] at hlinks
  have hknown (field : String) : (c'.object outline).fields.any (·.name == field) =
      (c.object outline).fields.any (·.name == field) := by
    have hany (fields : List ObjectField) : fields.any (·.name == field) =
        (fields.map (·.name)).any (· == field) := by
      rw [List.any_map]
      rfl
    rw [hany, hany, h.fields]
  rw [walkProperties, walkProperties]
  simp only [hknown]
  split
  · exact .refuse _
  refine (coincide_insertFields hwalk name host _ (h.shown host outline hobject) fun f hf => ?_).bind
    fun native => ?_
  · exact hlinks _ (List.mem_append_left _ (List.mem_append_left _ (List.mem_map_of_mem hf)))
  refine (coincide_insertDeclared h hwalk name (fun declaration hmem ref href => ?_) native).bind
    fun declared => ?_
  · refine hlinks _ (List.mem_append_left _ (List.mem_append_right _ ?_))
    exact List.mem_flatMap.mpr ⟨declaration, hmem, href⟩
  refine (Coincide.foldlM (fun change _ properties => ?_) declared).bind fun configured =>
    .foldlM (fun t _ properties => ?_) configured
  · exact coincide_adjustProperty name _ (fun _ => .pure _) properties
  · exact coincide_adjustProperty name _ (coincide_attach h name t) properties

end

/-- An object that is met first takes the declaration that customizes it. -/
theorem intact_enterObject {r s : Registry} (hr : d.Intact r) {host outline : HostType}
    (hnew : r.outputs.lookup host = none) {declaration : TypeDeclaration}
    (h : Runs (Noted.enterObject c host outline) r declaration s) :
    declaration = d.customization host outline ∧ d.Intact s := by
  obtain ⟨declaration, t, htake, hrest⟩ := runs_bind.mp h
  rw [takeDeclaration, runs_get_bind] at htake
  dsimp only at htake
  rw [runs_modify_bind] at htake
  obtain ⟨rfl, rfl⟩ := runs_pure.mp htake
  obtain ⟨_, t, hreserve, hrest⟩ := runs_bind.mp hrest
  obtain ⟨-, rfl⟩ := runs_reserve hreserve
  rw [runs_modify_bind] at hrest
  obtain ⟨rfl, rfl⟩ := runs_pure.mp hrest
  refine ⟨by rw [customization, hr.types host hnew], ?_, ?_, hr.enumDeclarations⟩
  · exact unspent_withObject hr.toUnspent host _
  · exact List.Subset.trans (List.filter_subset_self _) hr.typeDeclarations

theorem coincide_registerObject (h : d.LooksAlike c c') (inputDepth depth : Nat) :
    CoincideObjects d c (registerObject c inputDepth depth) (registerObject c' inputDepth depth) := by
  induction depth with
  | zero => exact fun _ _ _ => .self fun _ _ _ _ hruns => absurd hruns not_runs_throw
  | succ depth ih =>
    intro host outline hreaches
    have henter : Noted.enterObject c' host outline = Noted.enterObject c host outline := by
      rw [Noted.enterObject, Noted.enterObject, h.names]
    rw [Noted.registerObject_eq, Noted.registerObject_eq, henter, h.names]
    refine .get_bind fun r hr => ?_
    cases hmet : r.outputs.lookup host with
    | some name => exact Coincide.pure name r hr
    | none =>
      have hentered : CoincideAt d r (Noted.enterObject c host outline)
          (Noted.enterObject c host outline) :=
        ⟨rfl, fun _ _ hruns => (intact_enterObject hr hmet hruns).2⟩
      refine hentered.bind fun declaration s hruns hs => ?_
      obtain ⟨rfl, -⟩ := intact_enterObject hr hmet hruns
      exact (coincide_walkProperties h ih _ host hreaches).bind (fun properties =>
        (coincide_fill _).bind fun _ => .pure _) s hs

/-! ### Everything that is declared -/

theorem coincide_addRoot (h : d.LooksAlike c c') {root : String × List PropertyDeclaration}
    (hroot : root ∈ d.roots) :
    Coincide d (addRoot c depth root.1 root.2) (addRoot c' depth root.1 root.2) := by
  refine (coincide_reserve root.1).bind fun _ => Coincide.bind ?_ fun _ => coincide_fill _
  refine coincide_insertDeclared h (coincide_registerObject h depth depth) root.1 ?_ []
  intro declaration hmem ref href
  have hmentioned := List.mem_flatMap.mpr ⟨declaration, hmem, href⟩
  apply Reaches.entrance
  simp only [entrances, List.mem_append]
  rw [roots] at hroot
  rcases List.mem_cons.mp hroot with rfl | hroot
  · simp only [hmentioned, true_or]
  · split at hroot
    · cases hroot
    · cases List.mem_singleton.mp hroot
      simp only [hmentioned, true_or, or_true]

theorem coincide_addDeclared (h : d.LooksAlike c c') {ref : TypeRef}
    (hreaches : d.Reaches c (fun _ => True) ref) :
    Coincide d (addDeclared c depth ref) (addDeclared c' depth ref) := by
  cases ref with
  | object host outline => exact .map _ (coincide_registerObject h depth depth host outline hreaches)
  | enumeration host shape => exact .map _ (coincide_registerEnum host shape)
  | scalar | inputObject | list | nullable | union | function | generic => exact .pure _

theorem coincide_addUnion (h : d.LooksAlike c c') {union : String × UnionDeclaration}
    (hunion : union ∈ d.unions) :
    Coincide d (addUnion c depth union.1 union.2) (addUnion c' depth union.1 union.2) := by
  rw [addUnion, addUnion]
  split
  · exact .refuse _
  refine (coincide_reserve union.1).bind fun _ => Coincide.bind (.mapM fun ref href => ?_) fun _ =>
    coincide_fill _
  cases ref with
  | object host outline =>
    refine (coincide_registerObject h depth depth host outline (.entrance ?_)).bind fun _ => .pure _
    exact List.mem_append_right _ (List.mem_flatMap.mpr ⟨union, hunion, href⟩)
  | scalar | enumeration | inputObject | list | nullable | union | function | generic =>
    exact .refuse _

theorem coincide_addAll (h : d.LooksAlike c c') :
    Coincide d (addAll c depth d) (addAll c' depth d) := by
  rw [addAll_eq, addAll_eq]
  refine (Coincide.forM fun scalar _ => coincide_addScalar scalar).bind fun _ =>
    (Coincide.forM fun root hroot => coincide_addRoot h hroot).bind fun _ => .get_bind fun r hr => ?_
  refine (Coincide.forM fun ref href => coincide_addDeclared h (.entrance ?_)).bind (fun _ =>
    (Coincide.forM fun ref _ => .map _ (coincide_inputType (coincide_registerInput h depth) ref)).bind
      fun _ => .forM fun union hunion => coincide_addUnion h hunion) r hr
  simp only [entrances, List.mem_append]
  rcases List.mem_append.mp href with href | href
  · simp only [List.map_subset _ hr.typeDeclarations href, true_or, or_true]
  · simp only [List.map_subset _ hr.enumDeclarations href, true_or, or_true]

end Registering

namespace Declarations

open Registering

variable {d : Declarations} {c c' : Catalogue}

/-- Registration over catalogues that look alike comes to the same graph or to the same error. -/
theorem register_of_looksAlike (h : d.LooksAlike c c') (hdepth : d.depth c' = d.depth c) :
    d.register c' = d.register c := by
  have hstart : d.Intact (.start d) := ⟨.start d, List.Subset.refl _, List.Subset.refl _⟩
  have hall : Coincide d (addAll c (d.depth c) d) (addAll c' (d.depth c) d) := coincide_addAll h
  rw [register, register, hdepth, (hall _ hstart).same]

end Declarations

/-- An outline in which a field has another type. -/
def ObjectOutline.retype (shown : ObjectOutline) (field : String) (type : TypeRef)
    (read : HostValue → Output) : ObjectOutline :=
  { shown with
    fields := shown.fields.map fun f => if f.name = field then ⟨f.name, type, read⟩ else f }

/-- A catalogue in which a field of the objects with an outline has another type. -/
def Catalogue.retype (c : Catalogue) (outline : HostType) (field : String) (type : TypeRef)
    (read : HostValue → Output) : Catalogue :=
  { c with objects := c.objects.map fun (key, shown) =>
      (key, if key = outline then shown.retype field type read else shown) }

section

variable (shown : ObjectOutline) (c : Catalogue) (outline : HostType) (field : String)
  (type : TypeRef) (read : HostValue → Output)

theorem ObjectOutline.retype_fieldNames :
    (shown.retype field type read).fields.map (·.name) = shown.fields.map (·.name) := by
  rw [retype, List.map_map]
  refine List.map_congr_left fun f _ => ?_
  dsimp only [Function.comp]
  split <;> rfl

/-- Fields that are ignored are left out, whatever their type. -/
theorem ObjectOutline.retype_shown {ignored : List String} (h : field ∈ ignored) :
    (shown.retype field type read).fields.filter (·.name ∉ ignored) =
      shown.fields.filter (·.name ∉ ignored) := by
  rw [retype]
  induction shown.fields with
  | nil => rfl
  | cons f fields ih =>
    rw [List.map_cons]
    by_cases hname : f.name = field
    · have hleft : f.name ∈ ignored := hname ▸ h
      rw [if_pos hname, List.filter_cons_of_neg (by simpa using hleft),
        List.filter_cons_of_neg (by simpa using hleft), ih]
    · rw [if_neg hname, List.filter_cons, List.filter_cons, ih]

theorem Catalogue.retype_object (key : HostType) :
    (c.retype outline field type read).object key =
      if key = outline then (c.object key).retype field type read else c.object key := by
  have hlookup : (c.retype outline field type read).objects.lookup key =
      (c.objects.lookup key).map fun shown =>
        if key = outline then shown.retype field type read else shown := by
    rw [retype]
    dsimp only
    induction c.objects with
    | nil => rfl
    | cons entry entries ih =>
      rw [List.map_cons, List.lookup_cons, List.lookup_cons, ih]
      by_cases hkey : key = entry.1
      · simp only [hkey, beq_self_eq_true, Option.map_some]
      · simp only [beq_eq_false_iff_ne.mpr hkey]
  rw [object, object, hlookup]
  cases c.objects.lookup key with
  | some shown => simp only [Option.map_some, Option.getD_some]
  | none =>
    have hempty : ObjectOutline.retype ⟨key.shortName, []⟩ field type read = ⟨key.shortName, []⟩ := rfl
    simp only [Option.map_none, Option.getD_none, hempty, ite_self]

theorem Declarations.depth_retype (d : Declarations) :
    d.depth (c.retype outline field type read) = d.depth c := by
  have hlength (entry : HostType × ObjectOutline) :
      ((if entry.1 = outline then entry.2.retype field type read else entry.2).fields.map
        (·.type)).length = (entry.2.fields.map (·.type)).length := by
    split
    · rw [ObjectOutline.retype, List.length_map, List.length_map, List.length_map]
    · rfl
  rw [depth, depth]
  simp only [Catalogue.mentions, Catalogue.retype, List.length_append, List.length_flatMap,
    List.map_map, Function.comp_def, hlength]

variable {c outline field}

/-- Where a field is ignored by all objects with an outline that can be reached, its type makes no
difference to what is looked at. -/
theorem Declarations.looksAlike_retype {d : Declarations}
    (h : ∀ host, d.Reaches c (fun _ => True) (.object host outline) →
      field ∈ (d.customization host outline).ignored) :
    d.LooksAlike c (c.retype outline field type read) where
  names key := by
    rw [Catalogue.retype_object]
    split <;> rfl
  fields key := by
    rw [Catalogue.retype_object]
    split
    · exact ObjectOutline.retype_fieldNames ..
    · rfl
  shown host key hreaches := by
    rw [Catalogue.retype_object]
    split
    · subst key
      exact ObjectOutline.retype_shown _ _ _ _ (h host hreaches)
    · rfl
  inputs _ := rfl

end

namespace SchemaBuilder

/-- The type of an ignored field is never looked at. If a field is ignored by every object with an
outline that can be reached, then building comes to the same schema or to the same error, and to the
same builder, whatever the type of the field: also one that no field may have, and however the
objects are reached. -/
theorem build_retype (b : SchemaBuilder) (c : Catalogue) (outline : HostType) (field : String)
    (type : TypeRef) (read : HostValue → Output)
    (h : ∀ host, b.declarations.Reaches c (fun _ => True) (.object host outline) →
      field ∈ (b.declarations.customization host outline).ignored) :
    b.build (c.retype outline field type read) = b.build c := by
  have hregister := Declarations.register_of_looksAlike (Declarations.looksAlike_retype type read h)
    (Declarations.depth_retype c outline field type read b.declarations)
  rw [build, build, hregister]

open Declarations.Sample in
/-- Films ignore their makers, so these may as well be functions, or objects whose name is that of
films; titles may not. -/
theorem build_retype_sample : ∃ s,
    ((ofCalls Ignoring.calls).build Ignoring.catalogue).1 = .ok s ∧
    ((ofCalls Ignoring.calls).build
      (Ignoring.catalogue.retype film "maker" (.function film) fun _ => .null)).1 = .ok s ∧
    ((ofCalls Ignoring.calls).build (Ignoring.catalogue.retype film "maker"
      (.object (.named "archive::Film") (.named "archive::Film")) fun _ => .null)).1 = .ok s ∧
    ((ofCalls Ignoring.calls).build
      (Ignoring.catalogue.retype film "title" (.function film) fun _ => .null)).1 ≠ .ok s := by
  have hignored (host : HostType) (hreaches : (ofCalls Ignoring.calls).declarations.Reaches
      Ignoring.catalogue (fun _ => True) (.object host film)) :
      "maker" ∈ ((ofCalls Ignoring.calls).declarations.customization host film).ignored := by
    obtain ⟨rfl, -⟩ := Ignoring.expected hreaches
    exact List.mem_singleton.mpr rfl
  have hretype (type : TypeRef) (read : HostValue → Output) :=
    build_retype (ofCalls Ignoring.calls) Ignoring.catalogue film "maker" type read hignored
  obtain ⟨s, hs⟩ := Ignoring.exists_schema
  refine ⟨s, hs, by rw [hretype, hs], by rw [hretype, hs], fun htitle => ?_⟩
  have hrefused : ∃ stop, ((ofCalls Ignoring.calls).build
      (Ignoring.catalogue.retype film "title" (.function film) fun _ => .null)).1 = .error stop :=
    ⟨_, rfl⟩
  obtain ⟨stop, hstop⟩ := hrefused
  cases hstop.symm.trans htitle

end SchemaBuilder

end Trellis
