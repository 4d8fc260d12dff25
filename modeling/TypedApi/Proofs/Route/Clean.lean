import TypedApi.Proofs.Route.Assembly
import TypedApi.Proofs.SchemaTable.Clean

/-! Clean manifests have clean documents.

A manifest is clean when all its types are and when no security requirement names a scheme
twice (`Manifest.Clean`). -/
namespace TypedApi

open OpenApi SchemaTable

structure Manifest.Clean (m : Manifest) : Prop where
  types : ∀ e ∈ m.types.entries, e.2.Clean
  routes : Route.GoodManifest SourceType.Clean m
  security : ∀ route ∈ m.routes, ∀ r ∈ route.security, (r.map (·.1)).Nodup

namespace Route

/-- The nodes of operations are clean. -/
theorem operationNodes_clean : OperationNodes fun _ => Schema.Clean where
  body converted required _ := { clean_empty with
    properties := fun ps hps => by
      cases hps
      exact Json.nodup_keys_table _ }
  eventName name := { clean_empty with
    const := fun v hv => by
      cases hv
      exact .str name }
  eventData _ := { clean_empty with }
  message event _ := { clean_empty with
    properties := fun ps hps => by
      cases hps
      cases event with
      | none => exact (by decide : ["data", "id"].Nodup)
      | some e => exact (by decide : ["event", "data", "id"].Nodup) }
  stream _ := { clean_empty with
    mapping := fun d hd m hm => by
      cases hd
      cases hm }
  streamError := { clean_empty with
    properties := fun ps hps => by
      cases hps
      decide }
  selector versions := { clean_empty with
    values := fun vs hvs v hv => by
      cases hvs
      obtain ⟨s, -, rfl⟩ := List.mem_map.mp hv
      exact .str s }

variable {t : SchemaTable}

theorem SoundContent.clean {content : List (String × MediaType)}
    (h : SoundContent (fun _ => Schema.Clean) t content) : CleanContent content where
  distinct := h.distinct
  media m hm := {
    example? := fun v hv => by
      rw [h.bare m hm] at hv
      cases hv
    schemas := fun s hs => h.schemas s (List.mem_flatMap.mpr ⟨m, hm, hs⟩) }

theorem SoundOperation.clean {route : Route} {op : Operation}
    (h : SoundOperation (fun _ => Schema.Clean) route t op)
    (hs : ∀ r ∈ route.security, (r.map (·.1)).Nodup) : op.Clean where
  parameters p hp := (h.parameters p hp).schemas
  body b hb := (h.body b hb).clean
  distinct := h.distinct
  responses r hr c hc := (h.answers r hr c hc).clean
  security rs hrs r hr := hs r (h.security rs hrs ▸ hr)
  extensions := by
    rw [h.extensions]
    simp only [List.forall_mem_cons]
    exact ⟨by decide, by decide, List.forall_mem_nil _⟩
  separate := by
    rw [h.extensions]
    exact (by decide : [controllerKey, handlerKey].Nodup)
  extended := by
    rw [h.extensions]
    simp only [List.forall_mem_cons]
    exact ⟨.str _, .str _, List.forall_mem_nil _⟩

/-- The document of a clean manifest is clean. -/
theorem clean_document {m : Manifest} (h : m.Clean) (options : DocumentOptions) :
    (m.document options).Clean := by
  have ha := assembled_document (nodewise_clean h.types) operationNodes_clean h.routes options
  exact {
    distinct := ha.distinct
    paths := fun e he => {
      parameters := fun p hp => by
        rw [ha.unshared e he] at hp
        cases hp
      operations := fun method op hop => by
        obtain ⟨route, hr, hoffer, -⟩ := ha.offered e he method op hop
        exact hoffer.operation.clean (h.security route hr) }
    components := fun c hc => by
      rw [ha.components] at hc
      split at hc
      · cases hc
      · cases hc
        refine ⟨ha.table.keyed.places, fun s hs => ?_, ?_⟩
        · obtain ⟨e, he, rfl⟩ := List.mem_map.mp hs
          exact ha.table.stored e he
        · exact .obj List.nodup_nil (List.forall_mem_nil _)
    extensions := by
      rw [ha.extensions]
      exact List.forall_mem_nil _
    separate := by
      rw [ha.extensions]
      exact List.nodup_nil
    extended := by
      rw [ha.extensions]
      exact List.forall_mem_nil _ }

end Route
end TypedApi
