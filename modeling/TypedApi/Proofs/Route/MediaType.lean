import TypedApi.Proofs.Route.Compile
import TypedApi.Proofs.Route.Objects
import TypedApi.Proofs.SchemaTable.Bytes

/-! The media type of bodies with raw bytes.

Whether a body has bytes is told from its types, while its schema is made by conversion. Where the
schema holds bytes, itself or in a property, the media type is that of forms, unless the bytes are
veiled in the type that they come from (`bodyMediaType_of_bytes`). So a file that is registered under
a name, or shared memory, is sent as JSON (`overlooked_files`). -/
namespace TypedApi.Route

open OpenApi (Schema)
open SchemaTable

/-- A property with bytes is found behind references. -/
theorem containsBinary_of_property {registry : Registry} {type : SourceType} {ps : List Property}
    (h : objectProperties? registry type = some ps) {p : Property} (hp : p ∈ ps)
    (hbinary : p.type.isBinary = true) : containsBinary registry type = true := by
  rw [containsBinary, h, Bool.or_eq_true]
  exact .inr (List.any_eq_true.mpr ⟨p, hp, hbinary⟩)

/-! ### Bodies -/

/-- The fields of a body with their types. -/
def fieldsOf (bodies : List Parameter) : List (String × Parameter) :=
  bodies.filterMap fun b => b.name.map fun name => (name, b)

theorem mem_fieldsOf {bodies : List Parameter} {name : String} {b : Parameter}
    (h : (name, b) ∈ fieldsOf bodies) :
    b ∈ bodies ∧ b.name = some name := by
  obtain ⟨c, hc, hfield⟩ := List.mem_filterMap.mp h
  obtain ⟨name', hname, heq⟩ := Option.map_eq_some_iff.mp hfield
  cases heq
  exact ⟨hc, hname⟩

/-- The types that are converted for a body: of its only parameter if that has no name, and otherwise
of those that have one. -/
def bodyTypes : List Parameter → List SourceType
  | [{ name := none, type, .. }] => [type]
  | bodies => (fieldsOf bodies).map (·.2.type)

/-- The object of the fields of a body. -/
def fieldsObject (bodies : List Parameter) (converted : List (String × Schema)) : Schema :=
  let required := ((fieldsOf bodies).filter (·.2.isRequired)).map (·.1)
  { Schema.ofType "object" with
    properties := some (Json.table converted)
    required := if required.isEmpty then none else some required }

/-- The schema of a body is that of its only type, or the object of its fields. -/
theorem run_bodySchema (registry : Registry) (bodies : List Parameter) (t : SchemaTable) :
    ((bodySchema registry bodies).run t).2 = (convertAll registry (bodyTypes bodies) t).2 ∧
      ((∃ b, bodies = [b] ∧ b.name = none ∧ bodyTypes bodies = [b.type] ∧
          ((bodySchema registry bodies).run t).1 = (convert registry b.type t).1) ∨
        bodyTypes bodies = (fieldsOf bodies).map (·.2.type) ∧
          ((bodySchema registry bodies).run t).1 = fieldsObject bodies (List.zipWith
            (fun f s => (f.1, s)) (fieldsOf bodies) (convertAll registry (bodyTypes bodies) t).1)) := by
  unfold bodySchema
  split
  · next b type _ _ _ => exact ⟨rfl, .inl ⟨_, rfl, rfl, rfl, rfl⟩⟩
  · next hseveral =>
    have htypes : bodyTypes bodies = (fieldsOf bodies).map (·.2.type) := by
      unfold bodyTypes
      split
      · exact absurd rfl (hseveral _ _ _ _)
      · rfl
    have hfields := run_mapM_schemaOf registry (fieldsOf bodies) (·.2.type) (fun f s => (f.1, s)) t
    rw [htypes]
    refine ⟨congrArg Prod.snd hfields, .inr ⟨rfl, ?_⟩⟩
    exact congrArg (fun r : List (String × Schema) × SchemaTable => fieldsObject bodies r.1) hfields

/-- Where in a body bytes may be: in the whole, or in the property of a name. -/
def BytesAt (named : List (String × Schema)) (s : Schema) : Option String → Prop
  | none => HoldsBytes named s
  | some name => ∃ u v, Reaches named s u ∧ propertySchema? u name = some v ∧ HoldsBytes named v

/-- Bytes at the place are not seen in the types of the body. -/
inductive Overlooked (registry : Registry) (types : List SourceType) (bodies : List Parameter) :
    Option String → Prop
  | whole {b : Parameter} (honly : bodies = [b]) (hname : b.name = none)
      (h : Veiled registry types b.type) : Overlooked registry types bodies none
  | object {b : Parameter} {name : String} (honly : bodies = [b]) (hname : b.name = none)
      (h : Obscured registry types b.type) : Overlooked registry types bodies (some name)
  | property {b : Parameter} {ps : List Property} {p : Property} (honly : bodies = [b])
      (hname : b.name = none) (hps : objectProperties? registry b.type = some ps) (hp : p ∈ ps)
      (h : Veiled registry types p.type ∨ BinaryRule p.constraints) :
      Overlooked registry types bodies (some p.name)
  | field {b : Parameter} {name : String} (hb : b ∈ bodies) (hname : b.name = some name)
      (h : Veiled registry types b.type) : Overlooked registry types bodies (some name)

section Bodies

variable {registry : Registry} {types : List SourceType} {bodies : List Parameter}
  {ss : List Schema} {t : SchemaTable} {s : Schema} {place : Option String}

/-- The whole of a body holds bytes in a type that is seen, or overlooked. -/
theorem seen_or_overlooked (hc : Consistent registry types ss t) {b : Parameter}
    (honly : bodies = [b]) (hname : b.name = none) (hs : Shows registry t b.type s)
    (h : BytesAt t.named s place) :
    (∃ b ∈ bodies, containsBinary registry b.type = true) ∨ Overlooked registry types bodies place := by
  have hb : b ∈ bodies := honly ▸ List.mem_cons_self
  cases place with
  | none =>
    refine (holdsBytes_shown hc h hs).imp (fun hseen => ⟨b, hb, ?_⟩) (.whole honly hname)
    rw [containsBinary, hseen, Bool.true_or]
  | some name =>
    obtain ⟨u, v, hu, hproperty, hv⟩ := h
    rcases reaches_shown hc hu hs with hbare | hobscured | ⟨names, o, hleads, hmade⟩
    · rw [propertySchema?, hbare.properties] at hproperty
      cases hproperty
    · exact .inr (.object honly hname hobscured)
    · rcases property_made hc hmade hproperty hv with
        hobscured | ⟨ps, index, strictness, hform, p, hp, rfl, hseen⟩
      · exact .inr (.object honly hname (.of_leads hleads hobscured))
      · have hps := objectProperties?_of_leads hleads hform
        rcases hseen with hseen | hveiled
        · exact .inl ⟨b, hb, containsBinary_of_property hps hp hseen⟩
        · exact .inr (.property honly hname hps hp hveiled)

/-- An object of fields is no bytes itself, and those of a field are seen in its type or overlooked. -/
theorem field_seen_or_overlooked (hc : Consistent registry types ss t) {schemas : List Schema}
    (hs : List.Forall₂ (Shows registry t) ((fieldsOf bodies).map (·.2.type)) schemas)
    (h : BytesAt t.named (fieldsObject bodies
      (List.zipWith (fun f s => (f.1, s)) (fieldsOf bodies) schemas)) place) :
    (∃ b ∈ bodies, containsBinary registry b.type = true) ∨ Overlooked registry types bodies place := by
  cases place with
  | none => exact absurd h (not_holdsBytes (by simp [fieldsObject, Schema.ofType])
      (by simp [fieldsObject, Schema.ofType]) rfl rfl)
  | some name =>
    obtain ⟨u, v, hu, hproperty, hv⟩ := h
    cases hu.eq_of_plain rfl rfl
    have hs : List.Forall₂ (Shows registry t) ((fieldsOf bodies).map (·.2.type) ++ []) schemas := by
      rwa [List.append_nil]
    obtain ⟨⟨name', b⟩, hfield, s, hshows, heq⟩ := exists_of_mem_zipWith hs
      (Json.mem_of_mem_table (Json.mem_of_lookup hproperty))
    cases heq
    obtain ⟨hb, hname⟩ := mem_fieldsOf hfield
    refine (holdsBytes_shown hc hv hshows).imp (fun hseen => ⟨b, hb, ?_⟩) (.field hb hname)
    rw [containsBinary, hseen, Bool.true_or]

/-- Whatever types were converted before and are converted later: if the schema of a body without a
media type of its own is or has bytes, it is sent like a form, or the bytes are overlooked. -/
theorem bodyMediaType_of_bytes (registry : Registry) (earlier later : List SourceType) (route : Route)
    (hopen : route.contentType = none) (bodies : List Parameter) :
    let body := (requestBody registry route bodies).run (convertAll registry earlier {}).2
    let final := (convertAll registry later body.2).2
    ∃ mediaType s, body.1.content = [(mediaType, { schema := some s })] ∧
      ∀ place, BytesAt final.named s place → mediaType = "multipart/form-data" ∨
        Overlooked registry (earlier ++ bodyTypes bodies ++ later) bodies place := by
  intro body final
  let before := (convertAll registry earlier {}).2
  refine ⟨bodyMediaType registry route bodies, ((bodySchema registry bodies).run before).1, rfl,
    fun place hbytes => ?_⟩
  obtain ⟨htable, hschema⟩ := run_bodySchema registry bodies before
  have hfinal : final = (convertAll registry (earlier ++ bodyTypes bodies ++ later) {}).2 := by
    rw [convertAll_append, convertAll_append, ← htable]
    rfl
  have hc := consistent_convertAll registry (earlier ++ bodyTypes bodies ++ later)
  rw [← hfinal] at hc
  have hshows : List.Forall₂ (Shows registry final) (bodyTypes bodies)
      (convertAll registry (bodyTypes bodies) before).1 := by
    refine (sites_convertAll registry (bodyTypes bodies) before).shows ?_
    rw [← htable]
    exact .of_writes (sites_convertAll registry later body.2).writes
  have hseen : (∃ b ∈ bodies, containsBinary registry b.type = true) ∨
      Overlooked registry (earlier ++ bodyTypes bodies ++ later) bodies place := by
    rcases hschema with ⟨b, honly, hname, htypes, hs⟩ | ⟨htypes, hs⟩
    · rw [htypes] at hshows
      cases hshows with
      | cons hshows _ => exact seen_or_overlooked hc honly hname (hs ▸ hshows) hbytes
    · rw [hs] at hbytes
      exact field_seen_or_overlooked hc (htypes ▸ hshows) hbytes
  refine hseen.imp_left fun ⟨b, hb, hbinary⟩ => ?_
  rw [bodyMediaType, hopen, Option.getD_none, if_pos (List.any_eq_true.mpr ⟨b, hb, hbinary⟩)]

end Bodies

/-! ### Files -/

/-- Sends the type as a body. -/
def upload (type : SourceType) : Route where
  controller := "c"
  handler := "h"
  method := .post
  path := "/"
  parameters := [{ category := .body, type }]

def file : SourceType := .ofForm (.native "File" [])

/-- A native that travels as bytes is not veiled. -/
theorem not_veiled_native {registry : Registry} {types : List SourceType} {name : String}
    (hname : name ∈ SourceType.binaryNatives) (args : List SourceType) :
    ¬ Veiled registry types (.ofForm (.native name args)) := by
  have hother : name ∉ ["Promise", "Set", "SharedArrayBuffer"] := by
    simp only [SourceType.binaryNatives, List.mem_cons, List.not_mem_nil, or_false] at hname
    rcases hname with rfl | rfl | rfl | rfl <;> decide
  intro h
  cases h with
  | obscured h =>
    cases h with
    | wrapped hform =>
      rcases hform with ⟨_, _, hform⟩ | ⟨_, hform⟩
      · cases hform
      · cases hform
        exact hother List.mem_cons_self
    | mistaken hname _ _ => cases hname
    | target hform _ _ => cases hform
  | reference hform => cases hform
  | tuple hform => cases hform
  | native hform hname =>
    cases hform
    exact hother (List.mem_cons_of_mem _ hname)
  | rule h =>
    obtain ⟨c, hc, -⟩ := h
    cases hc
  | element hform _ => cases hform

/-- The body of a route that sends the type, on a fresh table. -/
def sent (registry : Registry) (type : SourceType) : OpenApi.RequestBody × SchemaTable :=
  (requestBody registry (upload type) (upload type).parameters).run {}

theorem bodyMediaType_of_bytes_file : (upload file).contentType = none ∧
    ∃ mediaType s, (sent ⟨[]⟩ file).1.content = [(mediaType, { schema := some s })] ∧
      BytesAt (sent ⟨[]⟩ file).2.named s none ∧ mediaType = "multipart/form-data" := by
  obtain ⟨mediaType, s, hcontent, hplaces⟩ :=
    bodyMediaType_of_bytes ⟨[]⟩ [] [] (upload file) rfl (upload file).parameters
  have hs : s = .formatted "string" "binary" := by
    cases hcontent
    rfl
  have hbytes : BytesAt (sent ⟨[]⟩ file).2.named s none := by
    rw [hs]
    exact .bytes .here rfl rfl
  refine ⟨rfl, mediaType, s, hcontent, hbytes, (hplaces none hbytes).resolve_right fun h => ?_⟩
  cases h with
  | @whole b honly _ h =>
    have hb : b = { category := .body, type := file } := (List.cons.inj honly).1.symm
    rw [hb] at h
    exact not_veiled_native (by decide) [] h

/-- A file under a name of its own, and shared memory, are bytes that are sent as JSON. -/
theorem overlooked_files :
    let aliased := sent ⟨[("Upload", file)]⟩ (.ofForm (.ref "Upload"))
    let shared := sent ⟨[]⟩ (.ofForm (.native "SharedArrayBuffer" []))
    (aliased.1.content = [("application/json", { schema := some (.reference "Upload") })] ∧
      BytesAt aliased.2.named (.reference "Upload") none) ∧
    (shared.1.content = [("application/json", { schema := some (.formatted "string" "binary") })] ∧
      BytesAt shared.2.named (.formatted "string" "binary") none) := by
  refine ⟨⟨by rfl, ?_⟩, by rfl, ?_⟩
  · exact .bytes (.ref rfl (by rfl) .here) rfl rfl
  · exact .bytes .here rfl rfl

end TypedApi.Route
