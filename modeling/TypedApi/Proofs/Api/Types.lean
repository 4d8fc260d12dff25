import TypedApi.Api.OfDocument
import TypedApi.Proofs.Json.Table

/-! The types of an operation, and the schemas that they are read from.

The types of a body or a response are read from the schema of its first media type, or from the
schemas of the data of its messages (`types_contentOf`). -/
namespace TypedApi.Api

open TypeExpr (ofSchema)

def Stream.types : Stream → List TypeExpr
  | .typed t => [t]
  | .events es => es.map (·.2)
  | .raw => []

def Content.types : Content → List TypeExpr
  | .json t => [t]
  | .multipart t => [t]
  | .stream s => s.types
  | _ => []

def Operation.types (o : Operation) : List TypeExpr :=
  o.parameters.map (·.type) ++ o.body.toList.flatMap (·.content.types) ++ o.response.types

/-! ### Schemas -/

/-- The schema of the data of a message. -/
def dataSchema? (item : Json) : Option Json :=
  ((item.get? "properties").bind (·.get? "data")).bind (·.get? "contentSchema")

/-- The schemas of the data of the messages of a stream: of all of them, and of each event. -/
def messageSchemas (item : Json) : List Json :=
  (item :: ((item.get? "oneOf").bind Json.asArray?).getD []).filterMap dataSchema?

/-- The schemas of a media type that types are read from. -/
def mediaSchemas (media : Json) : List Json :=
  (media.get? "schema").toList ++ (media.get? "itemSchema").toList.flatMap messageSchemas

/-- The schemas of a body or a response that types are read from. -/
def contentSchemas (owner : Json) : List Json :=
  (((owner.get? "content").bind Json.asObject?).getD []).flatMap fun e => mediaSchemas e.2

theorem messageData?_eq (item : Json) : messageData? item = (dataSchema? item).map ofSchema := by
  unfold messageData? dataSchema?
  cases item.get? "properties" with
  | none => rfl
  | some properties =>
    cases h : properties.get? "data" with
    | none => simp [h]
    | some data => cases hd : data.get? "contentSchema" <;> simp [h, hd]

theorem event?_type {branch : Json} {e : String × TypeExpr} (h : event? branch = some e) :
    e.2 = (messageData? branch).getD .unknown := by
  unfold event? at h
  obtain ⟨properties, -, h⟩ := Option.bind_eq_some_iff.mp h
  obtain ⟨event, -, h⟩ := Option.bind_eq_some_iff.mp h
  dsimp only at h
  split at h <;>
  · obtain ⟨name, -, h⟩ := Option.bind_eq_some_iff.mp h
    cases h
    rfl

theorem types_streamOf {media : Json} {t : TypeExpr} (h : t ∈ (streamOf media).types) :
    t = .unknown ∨ ∃ s ∈ mediaSchemas media, t = ofSchema s := by
  have hdata : ∀ item ∈ media.get? "itemSchema",
      ∀ m ∈ item :: ((item.get? "oneOf").bind Json.asArray?).getD [], ∀ s ∈ dataSchema? m,
        s ∈ mediaSchemas media := fun item hitem m hm s hs =>
    List.mem_append_right _ (List.mem_flatMap.mpr
      ⟨item, Option.mem_toList.mpr hitem, List.mem_filterMap.mpr ⟨m, hm, hs⟩⟩)
  unfold streamOf at h
  split at h
  next => cases h
  next item hitem =>
    split at h
    next =>
      rw [messageData?_eq] at h
      cases hs : dataSchema? item with
      | none => rw [hs] at h; cases h
      | some s =>
        rw [hs] at h
        exact .inr ⟨s, hdata item hitem item List.mem_cons_self s hs, List.mem_singleton.mp h⟩
    next =>
      obtain ⟨e, he, rfl⟩ := List.mem_map.mp h
      obtain ⟨branch, hbranch, he⟩ := List.mem_filterMap.mp he
      rw [event?_type he, messageData?_eq]
      cases hs : dataSchema? branch with
      | none => exact .inl rfl
      | some s => exact .inr ⟨s, hdata item hitem branch (List.mem_cons_of_mem _ hbranch) s hs, rfl⟩

theorem types_ofMedia {mediaType : String} {media : Json} {t : TypeExpr}
    (h : t ∈ (Content.ofMedia mediaType media).types) :
    t = .unknown ∨ ∃ s ∈ mediaSchemas media, t = ofSchema s := by
  have hschema : t = ((media.get? "schema").map ofSchema).getD .unknown →
      t = .unknown ∨ ∃ s ∈ mediaSchemas media, t = ofSchema s := by
    rintro rfl
    cases hs : media.get? "schema" with
    | none => exact .inl rfl
    | some s => exact .inr ⟨s, List.mem_append_left _ (Option.mem_toList.mpr hs), rfl⟩
  unfold Content.ofMedia at h
  dsimp only at h
  split at h
  · exact types_streamOf h
  split at h
  · exact hschema (List.mem_singleton.mp h)
  split at h
  · exact hschema (List.mem_singleton.mp h)
  split at h
  · cases h
  split at h
  · cases h
  · exact hschema (List.mem_singleton.mp h)

theorem types_contentOf {owner : Json} {t : TypeExpr} (h : t ∈ (contentOf owner).types) :
    t = .unknown ∨ ∃ s ∈ contentSchemas owner, t = ofSchema s := by
  unfold contentOf at h
  split at h
  next table htable =>
    cases table with
    | nil => cases h
    | cons e rest =>
      refine (types_ofMedia h).imp_right fun ⟨s, hs, ht⟩ => ⟨s, ?_, ht⟩
      rw [contentSchemas, htable]
      exact List.mem_append_left _ hs
  next => cases h

theorem type_parameter? {p : Json} {q : Parameter} (h : parameter? p = some q) :
    q.type = .string ∨ ∃ s ∈ p.get? "schema", q.type = ofSchema s := by
  unfold parameter? at h
  obtain ⟨name, -, h⟩ := Option.bind_eq_some_iff.mp h
  obtain ⟨place, -, h⟩ := Option.bind_eq_some_iff.mp h
  have htype : q.type = ((p.get? "schema").map ofSchema).getD .string := by
    dsimp only at h
    split at h <;>
    · obtain ⟨location, -, h⟩ := Option.bind_eq_some_iff.mp h
      cases h
      rfl
  rw [htype]
  cases hs : p.get? "schema" with
  | none => exact .inl rfl
  | some s => exact .inr ⟨s, rfl, rfl⟩

/-! ### Operations -/

/-- An earlier parameter gives way, but nothing new comes up. -/
theorem mem_foldl_override {ps qs : List Parameter} {q : Parameter}
    (h : q ∈ ps.foldl override qs) : q ∈ qs ∨ q ∈ ps := by
  induction ps generalizing qs with
  | nil => exact .inl h
  | cons p ps ih =>
    rcases ih h with h | h
    · rcases List.mem_append.mp h with h | h
      · exact .inl (List.mem_filter.mp h).1
      · exact .inr (List.mem_singleton.mp h ▸ List.mem_cons_self)
    · exact .inr (List.mem_cons_of_mem _ h)

theorem mem_parametersOf {root : Json} {declared : List Json} {q : Parameter}
    (h : q ∈ parametersOf root declared) :
    ∃ p ∈ declared, parameter? (resolve root maxHops p) = some q := by
  obtain h | h := mem_foldl_override h
  · cases h
  · exact List.mem_filterMap.mp h

theorem body?_eq_some {root op : Json} {b : Body} (h : body? root op = some b) :
    ∃ v ∈ op.get? "requestBody", b.content = contentOf (resolve root maxHops v) := by
  unfold body? at h
  split at h
  · cases h
  next v hv =>
    refine ⟨v, hv, ?_⟩
    dsimp only at h
    split at h
    · cases h
    · cases h
      rfl

/-- A response that has types is one of those that the operation declares. -/
theorem types_responseOf {root op : Json} {t : TypeExpr} (h : t ∈ (responseOf root op).types) :
    ∃ rs ∈ (op.get? "responses").bind Json.asObject?, ∃ r ∈ rs,
      t ∈ (contentOf (resolve root maxHops r.2)).types := by
  unfold responseOf at h
  dsimp only at h
  cases hfind : (successKeys.filterMap fun key => (((op.get? "responses").getD .null).get? key).map
      fun r => contentOf (resolve root maxHops r)).find? (!·.isEmpty) with
  | none => rw [hfind] at h; cases h
  | some content =>
    rw [hfind] at h
    obtain ⟨key, -, hkey⟩ := List.mem_filterMap.mp (List.mem_of_find?_eq_some hfind)
    obtain ⟨v, hv, rfl⟩ := Option.map_eq_some_iff.mp hkey
    cases hresponses : op.get? "responses" with
    | none => rw [hresponses] at hv; cases hv
    | some responses =>
      rw [hresponses] at hv
      cases responses with
      | obj rs => exact ⟨rs, rfl, (key, v), Json.mem_of_lookup hv, h⟩
      | _ => cases hv

end TypedApi.Api
