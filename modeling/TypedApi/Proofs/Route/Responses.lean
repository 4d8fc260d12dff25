import TypedApi.Proofs.Json.Table
import TypedApi.Proofs.OpenApi.ComponentKey
import TypedApi.Route.Operation

/-! The responses of a route.

A route declares its success and its errors, each with a status, and an operation has a table of
responses by status. Under each declared status stands what the last declaration of that status
says, and there is nothing else (`responses_operations`). A declaration is therefore found unless
a later one has its status: then it is lost without a trace (`lost_success`). -/
namespace TypedApi.Route

open OpenApi SchemaTable

variable {registry : Registry} {route : Route} {t : SchemaTable}

/-! ### Runs over lists -/

/-- What holds of the results one by one holds of the list. -/
theorem map_run_mapM {α β γ : Type} {f : α → Compile β} {g : β → γ} {k : α → γ}
    (h : ∀ x t, g ((f x).run t).1 = k x) (xs : List α) (t : SchemaTable) :
    ((xs.mapM f).run t).1.map g = xs.map k := by
  induction xs generalizing t with
  | nil => rfl
  | cons x xs ih =>
    rw [List.mapM_cons]
    exact congr (congrArg List.cons (h x t)) (ih ((f x).run t).2)

/-- One item of a list is run from the table that the items before it have left. -/
theorem run_mapM_append_cons {α β : Type} (f : α → Compile β) (before : List α) (x : α)
    (after : List α) (t : SchemaTable) :
    (((before ++ x :: after).mapM f).run t).1 =
      ((before.mapM f).run t).1 ++ ((f x).run ((before.mapM f).run t).2).1 ::
        ((after.mapM f).run ((f x).run ((before.mapM f).run t).2).2).1 := by
  rw [List.mapM_append, List.mapM_cons]
  rfl

/-! ### Declarations -/

/-- What a route declares to answer: its success, or one of its errors. -/
inductive Declaration where
  | success
  | failure (failure : Failure)

/-- What a response carries. -/
inductive Payload where
  | nothing
  | json (type : SourceType)
  /-- The messages of the route. -/
  | stream

def Payload.ofType : Option SourceType → Payload
  | some type => .json type
  | none => .nothing

/-- The content of a response, with its type converted at the table. -/
def Payload.content (registry : Registry) (route : Route) (t : SchemaTable) :
    Payload → Option (List (String × MediaType))
  | .nothing => none
  | .json type => some [("application/json", { schema := some (convert registry type t).1 })]
  | .stream =>
    some [("text/event-stream", { itemSchema := some ((streamSchema registry route).run t).1 })]

namespace Declaration

def status (route : Route) : Declaration → Nat
  | success => successStatus route
  | failure f => f.status

def description (route : Route) : Declaration → String
  | success => reasonPhrase (successStatus route)
  | failure f => f.description.getD (reasonPhrase f.status)

def payload (route : Route) : Declaration → Payload
  | success => if route.streams then .stream else .ofType (route.returns.filter (!·.isVoid))
  | failure f => .ofType f.type

/-- The response that a declaration stands for. -/
def response (registry : Registry) (route : Route) (t : SchemaTable) (d : Declaration) : Response where
  description := d.description route
  content := (d.payload route).content registry route t

/-- The computation of the response. -/
def compile (registry : Registry) (route : Route) : Declaration → Compile Response
  | success => successResponse registry route
  | failure f => failureResponse registry f

theorem run_compile (registry : Registry) (route : Route) (d : Declaration) (t : SchemaTable) :
    ((d.compile registry route).run t).1 = d.response registry route t := by
  cases d with
  | success =>
    simp only [compile, response, description, payload, successResponse]
    cases route.streams with
    | true => rfl
    | false =>
      cases route.returns with
      | none => rfl
      | some type =>
        cases hvoid : type.isVoid <;> simp only [Option.filter_some, hvoid] <;> rfl
  | failure f =>
    simp only [compile, response, description, payload, failureResponse]
    cases f.type with
    | none => rfl
    | some type => rfl

end Declaration

/-- The success first, and then the errors in their order. -/
def declarations (route : Route) : List Declaration := .success :: route.errors.map .failure

/-- The responses of declarations under their statuses. -/
def declared (registry : Registry) (route : Route) (ds : List Declaration) :
    Compile (List (String × Response)) :=
  ds.mapM fun d => do return (toString (d.status route), ← d.compile registry route)

/-- The table that the conversions of declarations leave. -/
def tableAfter (registry : Registry) (route : Route) (ds : List Declaration) (t : SchemaTable) :
    SchemaTable :=
  ((declared registry route ds).run t).2

theorem run_responses (registry : Registry) (route : Route) (t : SchemaTable) :
    ((responses registry route).run t).1 =
      Json.table ((declared registry route (declarations route)).run t).1 := by
  rw [declared, declarations, List.mapM_cons, List.mapM_map]
  rfl

theorem statuses_declared (registry : Registry) (route : Route) (ds : List Declaration)
    (t : SchemaTable) :
    ((declared registry route ds).run t).1.map (·.1) = ds.map fun d => toString (d.status route) :=
  map_run_mapM (fun _ _ => rfl) ds t

/-- The statuses of the responses are those that are declared, by their first declaration. -/
theorem statuses_responses (registry : Registry) (route : Route) (t : SchemaTable) :
    ((responses registry route).run t).1.map (·.1) =
      ((declarations route).map fun d => toString (d.status route)).eraseDups := by
  rw [run_responses, Json.keys_table, statuses_declared]

/-- The last declaration of a status says what stands under it. -/
theorem lookup_run_responses {before after : List Declaration} {d : Declaration}
    (hsplit : declarations route = before ++ d :: after)
    (hlast : ∀ e ∈ after, e.status route ≠ d.status route) (t : SchemaTable) :
    ((responses registry route).run t).1.lookup (toString (d.status route)) =
      some (d.response registry route (tableAfter registry route before t)) := by
  have hrun := run_mapM_append_cons
    (fun d : Declaration => do return (toString (d.status route), ← d.compile registry route))
    before d after t
  rw [run_responses, declared, hsplit, hrun, ← d.run_compile]
  refine Json.lookup_table_append_cons _ _ fun hmem => ?_
  rw [← declared, statuses_declared] at hmem
  obtain ⟨e, he, hsame⟩ := List.mem_map.mp hmem
  exact hlast e he (toString_injective hsame)

/-! ### Operations -/

/-- The table that the conversions of the parameters and of the body of a route leave. -/
def inputTable (registry : Registry) (route : Route) (t : SchemaTable) : SchemaTable :=
  let declared : Compile (List (List OpenApi.Parameter)) := route.parameters.mapM fun p =>
    match locationOf p.category with
    | some location => expandParameter registry location p
    | none => pure []
  let bodies := route.parameters.filter (·.category = .body)
  let body := if bodies.isEmpty then pure none else some <$> requestBody registry route bodies
  (body.run (declared.run t).2).2

/-- The operations of a route have its responses. -/
theorem run_operations {versioning : Versioning} {offer : String × Method × Operation}
    (h : offer ∈ ((operations registry versioning route).run t).1) :
    offer.2.2.responses = ((responses registry route).run (inputTable registry route t)).1 := by
  have hoperation : ∀ path, ((operationAt registry route path).run t).1.responses =
      ((responses registry route).run (inputTable registry route t)).1 := by
    intro path
    unfold operationAt inputTable
    by_cases hbodies : (route.parameters.filter (·.category = .body)).isEmpty = true
    · simp only [hbodies, if_true]
      rfl
    · simp only [hbodies]
      rfl
  rw [← hoperation (template route.path)]
  unfold operations at h
  split at h
  · obtain rfl := List.mem_singleton.mp h
    rfl
  · split at h
    · obtain ⟨version, -, rfl⟩ := List.mem_map.mp h
      rfl
    · obtain rfl := List.mem_singleton.mp h
      rfl

/-- Each operation that a route gives has one response for each declared status, the success first,
and every declaration that is the last of its status is found under it: with its own description,
and with its type as it is converted after the inputs of the route and the declarations before it. -/
theorem responses_operations {versioning : Versioning} {offer : String × Method × Operation}
    (h : offer ∈ ((operations registry versioning route).run t).1) :
    offer.2.2.responses.map (·.1) =
        ((declarations route).map fun d => toString (d.status route)).eraseDups ∧
      ∀ before d after, declarations route = before ++ d :: after →
        (∀ e ∈ after, e.status route ≠ d.status route) →
        offer.2.2.responses.lookup (toString (d.status route)) =
          some (d.response registry route
            (tableAfter registry route before (inputTable registry route t))) := by
  rw [run_operations h]
  exact ⟨statuses_responses registry route _,
    fun _ _ _ hsplit hlast => lookup_run_responses hsplit hlast _⟩

/-- A route that returns a text, with its errors. -/
def failing (errors : List Failure) : Route where
  controller := "c"
  handler := "h"
  method := .get
  path := "/"
  returns := some (.ofForm (.atomic .string))
  errors := errors

/-- An error with a type in front of one without. -/
theorem responses_operations_failing :
    let number : SourceType := .ofForm (.atomic .number)
    let missing : Failure := { status := 404, type := some number }
    let given := ((operations {} {} (failing [missing, { status := 400 }])).run {}).1
    ∃ offer ∈ given, offer.2.2.responses.map (·.1) = ["200", "404", "400"] ∧
      ∃ t, offer.2.2.responses.lookup (toString 404) =
        some (.json "Not Found" (convert {} number t).1) := by
  intro number missing given
  have hlength : 0 < given.length := by decide +kernel
  obtain ⟨hstatuses, hlookup⟩ := responses_operations (List.getElem_mem hlength)
  have hlast : ∀ e ∈ [Declaration.failure { status := 400 }], e.status (failing []) ≠ 404 :=
    List.forall_mem_singleton.mpr (by decide)
  refine ⟨given[0], List.getElem_mem hlength, hstatuses.trans (by decide +kernel),
    tableAfter {} (failing [missing, { status := 400 }]) [.success]
      (inputTable {} (failing [missing, { status := 400 }]) {}), ?_⟩
  exact hlookup [.success] (.failure missing) [.failure { status := 400 }] rfl hlast

/-- An error of the status of success takes the place of the value that is returned. -/
theorem lost_success :
    ((responses {} (failing [{ status := 200 }])).run {}).1 = [("200", .plain "OK")] ∧
      ∀ t, Declaration.success.response {} (failing [{ status := 200 }]) t ≠ .plain "OK" := by
  refine ⟨rfl, fun t h => ?_⟩
  have hcontent := congrArg Response.content h
  cases hcontent

end TypedApi.Route
