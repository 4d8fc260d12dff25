import TypedApi.Proofs.OpenApi.Violation
import TypedApi.Proofs.Route.Assembly
import TypedApi.Proofs.SchemaTable.Consistency

/-! The validator accepts the documents of manifests.

`violations_document`: if no path, version or version mark has a brace in it, the validator
reports nothing on the document of a manifest but statuses out of range and operation ids
that occur twice. So every reference of the document is resolved, every component has a
legal name, every placeholder has a parameter, which is required, and every required
property is declared. -/
namespace TypedApi.Route

open OpenApi SchemaTable

/-! ### Nodes declare what they require -/

/-- Required names are declared, and what is added to the keywords is no keyword. -/
structure Declares (s : Schema) : Prop where
  declared : ∀ required ∈ s.required, ∀ ps ∈ s.properties, ∀ name ∈ required,
    name ∈ ps.map (·.1)
  plain : s.PlainExtensions

theorem declares_of_none {s : Schema} (hr : s.required = none) (hx : s.extensions = []) :
    Declares s :=
  ⟨by simp [hr], by simp [Schema.PlainExtensions, hx]⟩

theorem Declares.annotates {s u : Schema} (h : Declares s) (ha : Annotates s u) : Declares u where
  declared := by
    rw [ha.required, ha.properties]
    exact h.declared
  plain e he := by
    rcases ha.extensions e he with he | ⟨c, he⟩
    · exact h.plain e he
    · exact notMem_keywords_of_ruleExtensions he

theorem declares_headD {ss : List Schema} (h : ∀ s ∈ ss, Declares s) : Declares (ss.headD {}) := by
  cases ss with
  | nil => exact declares_of_none rfl rfl
  | cons s rest => exact h s List.mem_cons_self

/-- The required properties of an object are among those that were converted. -/
theorem declares_objectOf {ps : List Property} {index : Option IndexSignature}
    {strictness : Strictness} {ss : List Schema}
    (hl : ss.length = (SchemaTable.parts (.object ps index strictness)).length) :
    Declares (objectOf ps index strictness ss) := by
  have hle : ps.length ≤ ss.length := by
    rw [hl, SchemaTable.parts, List.length_append, List.length_map]
    exact Nat.le_add_right ..
  have hnames : (List.zipWith (fun p s => (p.name, decorate p s)) ps ss).map (·.1) =
      ps.map (·.name) := by
    rw [List.map_zipWith]
    exact zipWith_left hle
  refine ⟨fun required hr properties hp name hn => ?_, fun e he => by cases he⟩
  simp only [objectOf, objectSchema] at hr hp
  split at hr
  · cases hr
  · cases hr
    split at hp
    · cases hp
    · cases hp
      rw [Json.mem_keys_table, hnames]
      obtain ⟨p, hm, rfl⟩ := List.mem_map.mp hn
      exact List.mem_map.mpr ⟨p, (List.mem_filter.mp hm).1, rfl⟩

theorem declares_unionOf {ms : List SourceType} {d : Option Discriminant} {ss : List Schema}
    (h : ∀ s ∈ ss, Declares s) : Declares (unionOf ms d ss) := by
  unfold unionOf
  split
  · exact declares_of_none rfl rfl
  · split
    · exact declares_of_none rfl rfl
    · exact h _ List.mem_cons_self
    · exact declares_of_none rfl rfl

theorem declares_nativeOf {name : String} {ss : List Schema} (h : ∀ s ∈ ss, Declares s) :
    Declares (nativeOf name ss) := by
  unfold nativeOf
  split
  case h_6 => exact declares_headD h
  case h_7 =>
    refine ⟨fun required hr properties hp name hn => ?_, fun e he => by cases he⟩
    cases hr
    cases hp
    exact hn
  case h_8 => split <;> (try split) <;> exact declares_of_none rfl rfl
  all_goals exact declares_of_none rfl rfl

/-- Conversions only make nodes that declare what they require. -/
theorem nodewise_declares (registry : Registry) :
    Nodewise registry (fun _ => True) (fun _ => Declares) where
  grow _ h := h
  empty := declares_of_none rfl rfl
  ofType _ := declares_of_none rfl rfl
  reference _ := declares_of_none rfl rfl
  orNull _ := declares_of_none rfl rfl
  finish _ h := h.annotates (annotates_finish _ _)
  decorate _ _ h := h.annotates (annotates_decorate _ _)
  assemble {t type ss} _ hl h := by
    revert hl
    cases type.form with
    | atomic a => intro _; cases a <;> exact declares_of_none rfl rfl
    | object ps index strictness => exact declares_objectOf
    | union ms d => exact fun _ => declares_unionOf h
    | native name args => exact fun _ => declares_nativeOf h
    | _ => exact fun _ => declares_of_none rfl rfl
  parts _ _ _ := trivial
  registered _ := trivial

/-! ### Nodes of operations -/

theorem declares_messageSchema (event : Option String) (data : Schema) :
    Declares (messageSchema event data) := by
  refine ⟨fun required hr properties hp name hn => ?_, fun e he => by cases he⟩
  cases hr
  cases hp
  cases event with
  | none => simp_all
  | some name => simp_all; tauto

/-- Nodes that resolve their references and declare what they require. -/
def Valid (t : SchemaTable) (s : Schema) : Prop := Resolves t s ∧ Declares s

theorem nodewise_valid (registry : Registry) : Nodewise registry (fun _ => True) Valid := by
  have hr := nodewise_resolves registry
  have hd := nodewise_declares registry
  exact {
    grow := fun hg h => ⟨hr.grow hg h.1, h.2⟩
    empty := fun {t} => ⟨hr.empty, hd.empty (t := t)⟩
    ofType := fun {t} name => ⟨hr.ofType name, hd.ofType (t := t) name⟩
    reference := fun hk => ⟨hr.reference hk, hd.reference hk⟩
    orNull := fun {t} s => ⟨hr.orNull s, hd.orNull (t := t) s⟩
    finish := fun {t _ _} hg h => ⟨hr.finish hg h.1, hd.finish (t := t) hg h.2⟩
    decorate := fun {t _ _ _} hg hp h => ⟨hr.decorate hg hp h.1, hd.decorate (t := t) hg hp h.2⟩
    assemble := fun {t _ _} hg hl h =>
      ⟨hr.assemble hg hl fun s hs => (h s hs).1, hd.assemble (t := t) hg hl fun s hs => (h s hs).2⟩
    parts := fun _ _ _ => trivial
    registered := fun _ => trivial }

theorem operationNodes_valid : OperationNodes Valid where
  body converted required h := by
    refine ⟨resolves_of_none rfl rfl, fun names hr ps hp name hn => ?_, fun e he => by cases he⟩
    cases hp
    dsimp only at hr
    split at hr
    · cases hr
    · cases hr
      exact Json.mem_keys_table.mpr (h name hn)
  eventName _ := ⟨resolves_of_none rfl rfl, declares_of_none rfl rfl⟩
  eventData _ := ⟨resolves_of_none rfl rfl, declares_of_none rfl rfl⟩
  message event data := ⟨resolves_of_none rfl rfl, declares_messageSchema event data⟩
  stream _ :=
    ⟨⟨fun r hr => (by cases hr), fun d hd e he => (by cases hd; cases he)⟩,
      declares_of_none rfl rfl⟩
  streamError := by
    refine ⟨resolves_of_none rfl rfl, fun required hr ps hp name hn => ?_, fun e he => by cases he⟩
    cases hr
    cases hp
    simp_all
  selector _ := ⟨resolves_of_none rfl rfl, declares_of_none rfl rfl⟩

/-! ### Documents -/

theorem checked_of_valid {t : SchemaTable} {s : Schema} (h : s.All (Valid t)) :
    s.All (Schema.Checked (t.named.map (·.1))) := by
  refine h.imp fun u ⟨hr, hd⟩ => ⟨fun r hu => ?_, hd.declared, hd.plain⟩
  obtain ⟨key, hkey, hhas⟩ := hr.ref r hu
  exact ⟨key, Json.lookup_isSome_iff.mp hhas, hkey⟩

/-- The placeholders that the validator sees at a path of a route are those of its template. -/
theorem placeholders_pathOf {versioning : Versioning} {route : Route} {path : String}
    (hpath : BraceFree route.path) (hversions : ∀ v ∈ route.versions, BraceFree v)
    (hmark : BraceFree versioning.mark) (h : PathOf versioning route path) :
    ∀ name ∈ Violation.templatePlaceholders path, name ∈ placeholders (template route.path) := by
  intro name hn
  rcases h with rfl | ⟨version, hv, rfl⟩
  · exact placeholders_template hpath name hn
  · have hsegment := braceFree_versionSegment hmark (hversions version hv)
    exact placeholders_template hpath name (placeholders_versionPath hsegment name hn)

theorem head?_pathOf {versioning : Versioning} {route : Route} {path : String}
    (h : PathOf versioning route path) : path.toList.head? = some '/' := by
  rcases h with rfl | ⟨version, -, rfl⟩
  · exact head?_template _
  · exact head?_versionPath _ _

theorem checkedOperation_of_sound {t : SchemaTable} {route : Route} {path : String}
    {op : Operation} (h : SoundOperation Valid route t op)
    (hp : ∀ name ∈ Violation.templatePlaceholders path, name ∈ placeholders (template route.path)) :
    Violation.CheckedOperation (t.named.map (·.1)) path op where
  parameters p hm :=
    ⟨(h.parameters p hm).required, fun s hs => checked_of_valid ((h.parameters p hm).schemas s hs)⟩
  declared name hn := h.declared name (hp name hn)
  body b hb s hs := checked_of_valid ((h.body b hb).schemas s hs)
  answered := h.answered
  answers r hr s hs := by
    cases hc : r.2.content with
    | none => simp [Response.schemas, hc, contentSchemas] at hs
    | some content =>
      rw [Response.schemas, hc] at hs
      exact checked_of_valid ((h.answers r hr content hc).schemas s hs)

/-- On the document of a manifest whose paths, versions and version mark have no braces, the
validator only reports statuses out of range and operation ids that occur twice. -/
theorem violations_document (m : Manifest) (options : DocumentOptions)
    (hpaths : ∀ route ∈ m.routes, BraceFree route.path)
    (hversions : ∀ route ∈ m.routes, ∀ version ∈ route.versions, BraceFree version)
    (hmark : BraceFree options.versioning.mark) :
    ∀ v ∈ Violation.ofDocument (m.document options).encode,
      v.message = "invalid status code" ∨
        ∃ id, v.message = "duplicate operationId '" ++ id ++ "'" := by
  have hgood : GoodManifest (fun _ => True) m := fun _ _ =>
    ⟨fun _ _ => trivial, fun _ _ => trivial, fun _ _ _ _ => trivial, fun _ _ => trivial⟩
  have h := assembled_document (nodewise_valid m.types) operationNodes_valid hgood options
  have hnames : (((m.document options).components.getD {}).schemas.map (·.1)) =
      (compiled m options).2.named.map (·.1) := by
    rw [h.components]
    split
    · next hnil => rw [List.isEmpty_iff.mp hnil]; rfl
    · rfl
  refine Violation.ofDocument_encode {
    version := h.openapi
    plain := by rw [h.extensions]; simp
    legal := fun c hc e he => ?_
    schemas := fun c hc e he => ?_
    items := fun e he => ?_ }
  · rw [h.components] at hc
    split at hc
    · cases hc
    · cases hc
      have hcovered := h.table.keyed.covered e.1 (List.mem_map.mpr ⟨e, he, rfl⟩)
      exact h.table.keyed.legal e.1 hcovered
  · rw [h.components] at hc
    split at hc
    · cases hc
    · cases hc
      exact checked_of_valid (h.table.stored e he)
  · rw [hnames]
    refine ⟨?_, h.unshared e he, fun method op hop => ?_⟩
    · obtain ⟨route, -, hpath⟩ := h.pathed e he
      exact head?_pathOf hpath
    · obtain ⟨route, hr, hoffer, -⟩ := h.offered e he method op hop
      refine ⟨checkedOperation_of_sound hoffer.operation ?_, fun x hx => ?_⟩
      · exact placeholders_pathOf (hpaths route hr) (hversions route hr) hmark hoffer.path
      · rw [hoffer.operation.extensions] at hx
        simp only [List.mem_cons, List.not_mem_nil, or_false] at hx
        rcases hx with rfl | rfl
        · exact (by decide : controllerKey ∉ Operation.layout.known)
        · exact (by decide : handlerKey ∉ Operation.layout.known)

/-- A route with a placeholder, two versions and a registered type. -/
theorem violations_document_users :
    let id : Property := { name := "id", type := .ofForm (.atomic .string), required := true }
    let user : SourceType := .ofForm (.object [id] none .strip)
    let find : Route := {
      controller := "users"
      handler := "find"
      method := .get
      path := "/users/:id"
      returns := some (.ofForm (.ref "User"))
      versions := ["1", "v2"] }
    let m : Manifest := { types := .ofList [("User", user)], routes := [find] }
    (∀ route ∈ m.routes, BraceFree route.path) ∧
      (∀ route ∈ m.routes, ∀ version ∈ route.versions, BraceFree version) ∧ BraceFree "v" ∧
      ∀ v ∈ Violation.ofDocument (m.document {}).encode,
        v.message = "invalid status code" ∨
          ∃ id, v.message = "duplicate operationId '" ++ id ++ "'" :=
  ⟨by decide, by decide, by decide,
    violations_document _ _ (by decide) (by decide) (by decide)⟩

end TypedApi.Route
