import TypedApi.Proofs.Api.Types
import TypedApi.Proofs.OpenApi.Violation
import TypedApi.Proofs.Route.Compile
import TypedApi.Proofs.TypeExpr.OfSchema

/-! What is read of an event stream.

The writer puts the data of a message behind three keywords, and several events behind an alternative
for each. The reader finds all of it again: the type of the data if there is one kind of message, and
otherwise every event with its name and its data, in order, and then the `error` that is added to them
(`contentOf_successResponse`). -/
namespace TypedApi

namespace Route
open OpenApi (Schema)

variable {registry : Registry} {route : Route}

/-- The branches of a stream hold the events' data, converted one after the other. -/
theorem run_branches (registry : Registry) (events : List Event) (t : SchemaTable) :
    ((events.mapM fun (e : Event) => do
      return messageSchema (some e.name) (← schemaOf registry e.data)).run t).1 =
      (List.zip (events.map (·.name))
        (SchemaTable.convertAll registry (events.map (·.data)) t).1).map
          fun b => messageSchema (some b.1) b.2 := by
  have hbranches := run_mapM_schemaOf registry events Event.data
    (fun e s => messageSchema (some e.name) s) t
  simp only [bind_pure_comp]
  rw [hbranches, List.map_zip_eq_zipWith, List.zipWith_map_left]
  rfl

theorem streamSchema_of_several (h : 2 ≤ route.events.length) (t : SchemaTable) :
    ((streamSchema registry route).run t).1 =
      { oneOf := some ((List.zip (route.events.map (·.name))
            (SchemaTable.convertAll registry (route.events.map (·.data)) t).1 ++
              [("error", streamErrorSchema)]).map fun b => messageSchema (some b.1) b.2),
        discriminator := some { propertyName := "event" } } := by
  unfold streamSchema
  rcases hevents : route.events with _ | ⟨first, _ | ⟨second, rest⟩⟩
  · rw [hevents] at h
    cases h
  · rw [hevents] at h
    exact absurd h (Nat.lt_irrefl 1)
  · have hbranches := run_branches registry (first :: second :: rest) t
    rw [List.map_append, ← hbranches]
    rfl

end Route

namespace Api
open OpenApi (Schema tableJson)
open Route (messageSchema streamErrorSchema streamSchema successResponse)
open OpenApi.Violation (get?_obj)
open TypeExpr (read)
open Json.Fields

variable {registry : Registry} {route : Route}

/-! ### One message -/

section Message

variable (event : Option String) (name : String) (data : Schema)

/-- What is written of a property. -/
theorem get?_property {s : Schema} (hx : s.extensions = []) (name : String) :
    (s.encode.get? "properties").bind (·.get? name) =
      (s.properties.bind (·.lookup name)).map Schema.encode := by
  have hproperties : s.encode.get? "properties" = s.properties.map (tableJson Schema.encode) :=
    Schema.get?_encode hx (by simp [Schema.slots])
  rw [hproperties]
  cases s.properties with
  | none => rfl
  | some ps => exact Json.lookup_map ..

theorem event?_of_const {branch event : Json}
    (hevent : (branch.get? "properties").bind (·.get? "event") = some event)
    (hname : event.get? "const" = some (.str name)) :
    event? branch = some (name, (messageData? branch).getD .unknown) := by
  obtain ⟨ps, hps, he⟩ := Option.bind_eq_some_iff.mp hevent
  simp [event?, hps, he, hname, Json.asString?]

theorem messageData?_encode : messageData? (messageSchema event data).encode = some (read data) := by
  obtain ⟨carrier, hcarrier, hplain, hdata⟩ : ∃ carrier : Schema,
      (messageSchema event data).properties.bind (·.lookup "data") = some carrier ∧
        carrier.extensions = [] ∧ carrier.contentSchema = some data := by
    cases event <;> exact ⟨_, rfl, rfl, rfl⟩
  have hcontent : carrier.encode.get? "contentSchema" = carrier.contentSchema.map Schema.encode :=
    Schema.get?_encode hplain (by simp [Schema.slots])
  rw [messageData?_eq, dataSchema?, get?_property rfl, hcarrier, Option.map_some, Option.bind_some,
    hcontent, hdata]
  rfl

theorem event?_encode :
    event? (messageSchema (some name) data).encode = some (name, read data) := by
  obtain ⟨label, hlabel, hplain, hconst⟩ : ∃ label : Schema,
      (messageSchema (some name) data).properties.bind (·.lookup "event") = some label ∧
        label.extensions = [] ∧ label.constValue = some (.str name) := ⟨_, rfl, rfl, rfl⟩
  have hname : label.encode.get? "const" = label.constValue.map id :=
    Schema.get?_encode hplain (by simp [Schema.slots])
  rw [hconst] at hname
  have hevent := get?_property (s := messageSchema (some name) data) rfl "event"
  rw [hlabel, Option.map_some] at hevent
  rw [event?_of_const name hevent hname, messageData?_encode, Option.getD_some]

/-- A message is no list of alternatives. -/
theorem streamOf_message {media : Json}
    (h : media.get? "itemSchema" = some (messageSchema event data).encode) :
    streamOf media = .typed (read data) := by
  have halternatives : (messageSchema event data).encode.get? "oneOf" = none :=
    Schema.get?_encode rfl (by simp [Schema.slots, messageSchema, Schema.ofType])
  simp [streamOf, h, halternatives, messageData?_encode]

end Message

/-! ### Streams -/

/-- Alternatives are events, each with its name and its data. -/
theorem streamOf_branches {media : Json} {branches : List (String × Schema)} {d : OpenApi.Discriminator}
    (hne : branches ≠ [])
    (h : media.get? "itemSchema" = some (Schema.encode
      { oneOf := some (branches.map fun b => messageSchema (some b.1) b.2), discriminator := some d })) :
    streamOf media = .events (branches.map fun b => (b.1, read b.2)) := by
  let item : Schema :=
    { oneOf := some (branches.map fun b => messageSchema (some b.1) b.2), discriminator := some d }
  have halternatives : item.encode.get? "oneOf" = item.oneOf.map (OpenApi.listJson Schema.encode) :=
    Schema.get?_encode rfl (by simp [Schema.slots])
  have hevents : ((branches.map fun b => messageSchema (some b.1) b.2).map Schema.encode).filterMap
      event? = branches.map fun b => (b.1, read b.2) := by
    simp [List.filterMap_map, Function.comp_def, event?_encode]
  have hfound : (((item.encode.get? "oneOf").bind Json.asArray?).getD []).filterMap event? =
      branches.map fun b => (b.1, read b.2) := by
    rw [halternatives, ← hevents]
    rfl
  cases branches with
  | nil => exact absurd rfl hne
  | cons b branches =>
    unfold streamOf
    rw [h]
    simp only [item] at hfound
    simp only [hfound]
    rfl

theorem contentOf_stream (description : String) (s : Schema) : contentOf (OpenApi.Response.encode
    { description, content := some [("text/event-stream", { itemSchema := some s })] }) =
      .stream (streamOf (OpenApi.MediaType.encode { itemSchema := some s })) := by
  have hcontent : (OpenApi.Response.encode
      { description, content := some [("text/event-stream", { itemSchema := some s })] }).get?
        "content" =
      some (tableJson OpenApi.MediaType.encode [("text/event-stream", { itemSchema := some s })]) := by
    simp [OpenApi.Response.encode, get?_obj, List.lookup_append, lookup_always, lookup_present]
  have hbare : bareMediaType "text/event-stream" = "text/event-stream".toList := by decide +kernel
  rw [contentOf, hcontent]
  simp [tableJson, Json.asObject?, Content.ofTable, Content.ofMedia, hbare]

/-- The type of the `error` that is added to several events. -/
def errorType : TypeExpr :=
  .object [{ name := "message", type := .primitive .string none, required := true },
    { name := "code", type := .primitive .string none, required := false }] none

/-- What a client is told of the stream of a route: the type of its data if there is one kind of
message, and otherwise all events with their names and the types of their data, and the `error`. -/
theorem contentOf_successResponse (h : route.streams = true) (t : SchemaTable) :
    ∃ stream, contentOf ((successResponse registry route).run t).1.encode = .stream stream ∧
      (route.events = [] → stream = .typed
        ((route.returns.map fun type => read (SchemaTable.convert registry type t).1).getD .unknown)) ∧
      (∀ e, route.events = [e] →
        stream = .typed (read (SchemaTable.convert registry e.data t).1)) ∧
      (2 ≤ route.events.length → ∃ branches,
        stream = .events (branches ++ [("error", errorType)]) ∧
        branches.map (·.1) = route.events.map (·.name) ∧
        branches.map (·.2) =
          (SchemaTable.convertAll registry (route.events.map (·.data)) t).1.map read) := by
  have hresponse : ((successResponse registry route).run t).1 =
      { description := Route.reasonPhrase (Route.successStatus route),
        content := some [("text/event-stream",
          { itemSchema := some ((streamSchema registry route).run t).1 })] } := by
    simp only [successResponse, h, if_true]
    rfl
  have hitem (s : Schema) : (OpenApi.MediaType.encode { itemSchema := some s }).get? "itemSchema" =
      some s.encode := by
    simp [OpenApi.MediaType.encode, get?_obj, List.lookup_append, lookup_present]
  refine ⟨_, hresponse ▸ contentOf_stream _ _, fun hnone => ?_, fun e hone => ?_, fun hmany => ?_⟩
  · have hstream : ((streamSchema registry route).run t).1 = messageSchema none
        ((route.returns.map fun type => (SchemaTable.convert registry type t).1).getD {}) := by
      simp only [streamSchema, hnone]
      cases route.returns <;> rfl
    rw [hstream, streamOf_message none _ (hitem _)]
    cases route.returns with
    | none => rw [Option.map_none, Option.map_none, Option.getD_none, TypeExpr.read_empty]; rfl
    | some type => rfl
  · have hstream : ((streamSchema registry route).run t).1 =
        messageSchema (some e.name) (SchemaTable.convert registry e.data t).1 := by
      simp only [streamSchema, hone]
      rfl
    rw [hstream, streamOf_message (some e.name) _ (hitem _)]
  · let schemas := (SchemaTable.convertAll registry (route.events.map (·.data)) t).1
    let names := route.events.map (·.name)
    have hlength : names.length = schemas.length := by
      rw [(SchemaTable.sites_convertAll registry _ t).length_eq, List.length_map, List.length_map]
    rw [Route.streamSchema_of_several hmany, streamOf_branches (by simp) (hitem _), List.map_append]
    refine ⟨(names.zip schemas).map fun b => (b.1, read b.2), rfl, ?_, ?_⟩
    · exact (List.map_map ..).trans (List.map_fst_zip hlength.le)
    · rw [List.map_map]
      exact (List.map_map (f := Prod.snd) (g := read) ..).symm.trans
        (congrArg _ (List.map_snd_zip hlength.ge))

/-- Numbers, and warnings that have a text. -/
def feed : Route where
  controller := "c"
  handler := "h"
  method := .get
  path := "/"
  streams := true
  events := [⟨"tick", .ofForm (.atomic .number)⟩, ⟨"warning", .ofForm (.atomic .string)⟩]

theorem contentOf_successResponse_feed : feed.streams = true ∧
    ∃ branches, contentOf ((successResponse ⟨[]⟩ feed).run {}).1.encode =
        .stream (.events (branches ++ [("error", errorType)])) ∧
      branches.map (·.1) = ["tick", "warning"] ∧
      branches.map (·.2) = [.primitive .number none, .primitive .string none] := by
  obtain ⟨stream, hcontent, -, -, hevents⟩ :=
    @contentOf_successResponse ⟨[]⟩ feed rfl {}
  obtain ⟨branches, rfl, hnames, htypes⟩ := hevents (by decide)
  exact ⟨rfl, branches, hcontent, hnames, htypes⟩

end Api
end TypedApi
