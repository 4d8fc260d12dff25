import TypedApi.Proofs.Api.Operations
import TypedApi.Proofs.Route.Responses
import TypedApi.Proofs.TypeScript.Package

/-! What a client receives from a route that returns a value.

The writer puts the answer under the status of success, whatever that is, and the reader looks for
it under the keys of a fixed list. A client receives the value that the route returns if the status
is in the list, and nothing for any other successful status (`answers_document`). -/
namespace TypedApi

namespace Route
open OpenApi (Schema Operation Response)

/-! ### The responses of a route -/

/-- A status of success. -/
def Successful (status : Nat) : Prop := 200 ≤ status ∧ status ≤ 299

instance (status : Nat) : Decidable (Successful status) := inferInstanceAs (Decidable (_ ∧ _))

/-- The route returns one value of a type, under a status of success that no error takes. -/
structure Answers (route : Route) (type : SourceType) : Prop where
  single : route.streams = false
  returns : route.returns = some type
  value : type.isVoid = false
  success : Successful (successStatus route)
  failures : ∀ e ∈ route.errors, ¬ Successful e.status

variable {registry : Registry} {route : Route} {type : SourceType}

theorem response_success (h : Answers route type) (t : SchemaTable) :
    Declaration.success.response registry route t =
      .json (reasonPhrase (successStatus route)) (SchemaTable.convert registry type t).1 := by
  simp [Declaration.response, Declaration.description, Declaration.payload, Payload.ofType,
    Payload.content, h.single, h.returns, Option.filter_some, h.value, Response.json]

/-- The answer stands under the status of success, and nothing stands under other keys but errors. -/
theorem lookup_responses (h : Answers route type) (t : SchemaTable) {key : String}
    (hkey : ∀ e ∈ route.errors, toString e.status ≠ key) :
    ((responses registry route).run t).1.lookup key =
      if key = toString (successStatus route) then
        some (.json (reasonPhrase (successStatus route)) (SchemaTable.convert registry type t).1)
      else none := by
  by_cases hsuccess : key = toString (successStatus route)
  · subst hsuccess
    have hlast : ∀ d ∈ route.errors.map Declaration.failure,
        d.status route ≠ Declaration.success.status route := by
      intro d hd hsame
      obtain ⟨e, he, rfl⟩ := List.mem_map.mp hd
      exact hkey e he (congrArg toString hsame)
    have hsplit : declarations route = [] ++ .success :: route.errors.map .failure := rfl
    rw [if_pos rfl, ← response_success h]
    exact lookup_run_responses hsplit hlast t
  · rw [if_neg hsuccess, Json.lookup_eq_none_iff, statuses_responses, List.mem_eraseDups]
    intro hmem
    obtain ⟨d, hd, hsame⟩ := List.mem_map.mp hmem
    rcases List.mem_cons.mp hd with rfl | hd
    · exact hsuccess hsame.symm
    · obtain ⟨e, he, rfl⟩ := List.mem_map.mp hd
      exact hkey e he hsame

end Route

namespace Api
open TypeExpr (ofSchema)
open OpenApi (Document Response)
open OpenApi.Violation (get?_obj)
open Json.Fields

/-! ### The response that is read -/

/-- The statuses under which a response is looked for. -/
def readStatuses : List Nat := [200, 201, 202, 203, 206, 207]

theorem successful_of_read : ∀ status ∈ readStatuses, Route.Successful status := by decide

theorem toString_mem_successKeys {status : Nat} :
    toString status ∈ successKeys ↔ status ∈ readStatuses := by
  have hkeys : successKeys = readStatuses.map toString ++ ["default", "2XX"] := by decide
  have hother : toString status ∉ ["default", "2XX"] := by
    have hdigits : ∀ c ∈ (toString status).toList, c.isDigit = true := by
      rw [Nat.toString_eq_ofList_toDigits, String.toList_ofList]
      exact fun c hc => Nat.isDigit_of_mem_toDigits (by decide) (by decide) hc
    have hletters : ∀ key ∈ ["default", "2XX"], key.toList.all Char.isDigit = false := by decide
    intro hmem
    have hall := hletters _ hmem
    rw [List.all_eq_true.mpr hdigits] at hall
    cases hall
  rw [hkeys, List.mem_append, or_iff_left hother, List.mem_map_of_injective OpenApi.toString_injective]

theorem contentOf_json (description : String) (s : OpenApi.Schema) :
    contentOf (Response.json description s).encode = .json (ofSchema s.encode) := by
  have hcontent : (Response.json description s).encode.get? "content" =
      some (OpenApi.tableJson OpenApi.MediaType.encode [("application/json", { schema := some s })]) := by
    simp [Response.encode, Response.json, get?_obj, List.lookup_append, lookup_always, lookup_present]
  have hbare : bareMediaType "application/json" = "application/json".toList := by decide +kernel
  rw [contentOf, hcontent]
  simp [OpenApi.tableJson, Json.asObject?, Content.ofTable, Content.ofMedia, hbare,
    OpenApi.MediaType.encode, get?_obj, List.lookup_append, lookup_present]

/-- The response of an operation in a document is that under the first key of success that has one
with content. -/
theorem responseOf_encode (root : Json) (op : OpenApi.Operation) :
    responseOf root op.encode = ((successKeys.filterMap fun key =>
      (op.responses.lookup key).map fun r => contentOf r.encode).find? (!·.isEmpty)).getD .empty := by
  have hplain : ∀ r : Response, (r.encode.get? "$ref").isSome = false := fun r => by
    simp [Response.encode, get?_obj, List.lookup_append, lookup_always, lookup_present]
  have hfound : ∀ key, ((OpenApi.tableJson Response.encode op.responses).get? key).map
      (fun r => contentOf (resolve root maxHops r)) =
      (op.responses.lookup key).map fun r => contentOf r.encode := by
    intro key
    rw [OpenApi.tableJson, get?_obj, Json.lookup_map, Option.map_map]
    refine congrArg (Option.map · _) (funext fun r => ?_)
    exact congrArg contentOf (resolve_of_plain root maxHops (hplain r))
  unfold responseOf
  rw [OpenApi.Violation.get?_responses]
  simp only [Option.getD_some, hfound]

theorem response_operationOf (root : Json) (path : String) (shared : List Json) (m : Method) (op : Json) :
    (operationOf root path shared m op).response = responseOf root op := by
  rw [operationOf]

section
variable {registry : Registry} {route : Route} {type : SourceType} {t : SchemaTable}
  {op : OpenApi.Operation}

/-- Where only one key has something, that is all there is. -/
theorem filterMap_eq_singleton {α β : Type} {keys : List α} {f : α → Option β} {key : α} {found : β}
    (hn : keys.Nodup) (hkey : key ∈ keys) (hfound : f key = some found)
    (hnone : ∀ other ∈ keys, other ≠ key → f other = none) : keys.filterMap f = [found] := by
  obtain ⟨before, after, rfl⟩ := List.append_of_mem hkey
  obtain ⟨-, hafter, hdisjoint⟩ := List.nodup_append.mp hn
  have hbefore : before.filterMap f = [] := List.filterMap_eq_nil_iff.mpr fun other hother =>
    hnone other (List.mem_append_left _ hother) (hdisjoint other hother key List.mem_cons_self)
  have hafter : after.filterMap f = [] := List.filterMap_eq_nil_iff.mpr fun other hother =>
    hnone other (List.mem_append_right _ (List.mem_cons_of_mem _ hother)) fun hsame =>
      (List.nodup_cons.mp hafter).1 (hsame ▸ hother)
  rw [List.filterMap_append, List.filterMap_cons_some hfound, hbefore, hafter, List.nil_append]

/-- The answer of a route is read under the statuses that are looked for, and under no other. -/
theorem responseOf_answers (root : Json) (h : Route.Answers route type)
    (hop : op.responses = ((Route.responses registry route).run t).1) :
    (Route.successStatus route ∈ readStatuses → responseOf root op.encode =
        .json (ofSchema (SchemaTable.convert registry type t).1.encode)) ∧
      (Route.successStatus route ∉ readStatuses → responseOf root op.encode = .empty) := by
  have hlookup : ∀ key ∈ successKeys, op.responses.lookup key =
      if key = toString (Route.successStatus route) then
        some (.json (Route.reasonPhrase (Route.successStatus route))
          (SchemaTable.convert registry type t).1)
      else none := by
    intro key hkey
    rw [hop]
    refine Route.lookup_responses h t fun e he hsame => ?_
    rw [← hsame, toString_mem_successKeys] at hkey
    exact h.failures e he (successful_of_read _ hkey)
  have hnone : ∀ key ∈ successKeys, key ≠ toString (Route.successStatus route) →
      ((op.responses.lookup key).map fun r => contentOf r.encode) = none := fun key hkey hne => by
    rw [hlookup key hkey, if_neg hne]
    rfl
  rw [responseOf_encode]
  constructor
  · intro hread
    have hkey := toString_mem_successKeys.mpr hread
    have hfound := congrArg (Option.map fun r => contentOf r.encode) (hlookup _ hkey)
    rw [if_pos rfl, Option.map_some, contentOf_json] at hfound
    rw [filterMap_eq_singleton (by decide) hkey hfound hnone]
    rfl
  · intro hread
    rw [List.filterMap_eq_nil_iff.mpr fun key hkey => hnone key hkey fun hsame =>
      hread (toString_mem_successKeys.mp (hsame ▸ hkey))]
    rfl

end

/-! ### Documents -/

open Route (GivenBy Answers successStatus reasonPhrase)
open TypeScript (Client Scope)

theorem assembled_valid (m : Manifest) (options : DocumentOptions) :
    Route.Assembled Route.Valid m options (Route.compiled m options).2 (m.document options) := by
  have hgood : Route.GoodManifest (fun _ => True) m := fun _ _ =>
    ⟨fun _ _ => trivial, fun _ _ => trivial, fun _ _ _ _ => trivial, fun _ _ => trivial⟩
  exact Route.assembled_document (Route.nodewise_valid m.types) Route.operationNodes_valid hgood options

theorem givenBy_of_mem {m : Manifest} {options : DocumentOptions}
    {given : String × Method × OpenApi.Operation} (h : given ∈ (m.document options).operations) :
    ∃ route ∈ m.routes, GivenBy m.types options.versioning route given := by
  obtain ⟨e, he, hm⟩ := List.mem_flatMap.mp h
  obtain ⟨method, -, hop⟩ := List.mem_filterMap.mp hm
  obtain ⟨op, hfound, rfl⟩ := Option.map_eq_some_iff.mp hop
  obtain ⟨route, hr, -, hroute⟩ := (assembled_valid m options).offered e he method op hfound
  exact ⟨route, hr, hroute⟩

/-- The components and operations that are read are those of the document, in order. -/
theorem read_document (m : Manifest) (options : DocumentOptions) :
    ∃ api, Api.ofDocument? (m.document options).encode = some api ∧
      componentNames api = documentComponents (m.document options) ∧
      api.operations = (m.document options).operations.map fun o =>
        operationOf (m.document options).encode o.1 [] o.2.1 o.2.2.encode := by
  have h := assembled_valid m options
  have hx : ∀ e ∈ (m.document options).extensions, e.1 ∉ Document.layout.known := by
    rw [h.extensions]
    exact List.forall_mem_nil _
  exact ofDocument?_encode hx h.unshared

/-- The function of an operation is told what kind of response to expect. -/
theorem kind_of_calls {api : Api} {i : Nat} {o : Operation} (h : api.operations[i]? = some o) :
    ∃ s : TypeScript.Signature, (Client.ofApi api).signatures[i]? = some s ∧
      s.responseKind = ((Client.scope api (Client.ofApi api).renames).result o.response).kind := by
  obtain ⟨hi, rfl⟩ := List.getElem?_eq_some_iff.mp h
  have hcalls := Client.calls_signatures api
  have hs : i < (Client.ofApi api).signatures.length := hcalls.length_eq ▸ hi
  obtain ⟨n, hsignature⟩ := hcalls.get hi hs
  exact ⟨_, List.getElem?_eq_getElem hs, congrArg TypeScript.Signature.responseKind hsignature⟩

/-- An operation of the document whose route answers with a type has the schema of that type under
its status of success. A client is told of it if the reader looks for that status. Under any other
status it is told that nothing comes. -/
theorem answers_document (m : Manifest) (options : DocumentOptions) :
    ∃ api, Api.ofDocument? (m.document options).encode = some api ∧
      (∀ given ∈ (m.document options).operations, ∃ route ∈ m.routes,
        GivenBy m.types options.versioning route given) ∧
      ∀ (i : Nat) given route type, (m.document options).operations[i]? = some given →
        GivenBy m.types options.versioning route given → Answers route type →
        ∃ (o : Operation) (s : TypeScript.Signature) (table : SchemaTable),
          api.operations[i]? = some o ∧ (Client.ofApi api).signatures[i]? = some s ∧
          let status := successStatus route
          let schema := (SchemaTable.convert m.types type table).1
          given.2.2.responses.lookup (toString status) =
              some (.json (reasonPhrase status) schema) ∧
            (status ∈ readStatuses → o.response = .json (ofSchema schema.encode) ∧
              s.responseKind = .json) ∧
            (status ∉ readStatuses → o.response = .empty ∧ s.responseKind = .void) := by
  obtain ⟨api, hapi, -, hoperations⟩ := read_document m options
  refine ⟨api, hapi, fun _ => givenBy_of_mem, fun i given route type hgiven hroute h => ?_⟩
  obtain ⟨t, hroute⟩ := hroute
  generalize (m.document options).encode = root at hoperations
  obtain ⟨table, hresponses⟩ : ∃ table, given.2.2.responses =
      ((Route.responses m.types route).run table).1 := ⟨_, Route.run_operations hroute⟩
  obtain ⟨o, ho, hresponse⟩ : ∃ o, api.operations[i]? = some o ∧
      o.response = responseOf root given.2.2.encode := by
    refine ⟨_, ?_, response_operationOf root given.1 [] given.2.1 given.2.2.encode⟩
    rw [hoperations, List.getElem?_map, hgiven]
    rfl
  obtain ⟨s, hs, hkind⟩ := kind_of_calls ho
  obtain ⟨hread, hunread⟩ := responseOf_answers root h hresponses
  rw [← hresponse] at hread hunread
  refine ⟨o, s, table, ho, hs, ?_, fun hstatus => ⟨hread hstatus, ?_⟩,
    fun hstatus => ⟨hunread hstatus, ?_⟩⟩
  · rw [hresponses, Route.lookup_responses h table fun e he hsame => ?_, if_pos rfl]
    exact h.failures e he (OpenApi.toString_injective hsame ▸ h.success)
  · rw [hkind, hread hstatus]
    rfl
  · rw [hkind, hunread hstatus]
    rfl

/-- A route that answers with a text. -/
def greeting (status : Option Nat) : Route where
  controller := "c"
  handler := "h"
  method := .get
  path := "/"
  returns := some (.ofForm (.atomic .string))
  status := status

theorem answers_greeting {status : Option Nat} (h : Route.Successful (successStatus (greeting status))) :
    Answers (greeting status) (.ofForm (.atomic .string)) where
  single := rfl
  returns := rfl
  value := rfl
  success := h
  failures := List.forall_mem_nil _

theorem answers_document_greeting :
    let m : Manifest := { routes := [greeting none] }
    let type : SourceType := .ofForm (.atomic .string)
    (∃ given, (m.document {}).operations[0]? = some given ∧
      GivenBy m.types ({} : DocumentOptions).versioning (greeting none) given) ∧
    Answers (greeting none) type ∧
    ∃ api o s t, Api.ofDocument? (m.document {}).encode = some api ∧ api.operations[0]? = some o ∧
      (Client.ofApi api).signatures[0]? = some s ∧ o.response = .json t ∧ s.responseKind = .json := by
  intro m type
  have hanswers : Answers (greeting none) type := answers_greeting (by decide)
  have hgiven : ∃ given, (m.document {}).operations[0]? = some given ∧
      GivenBy m.types ({} : DocumentOptions).versioning (greeting none) given := by
    have hlength : 0 < (m.document {}).operations.length := by decide +kernel
    obtain ⟨route, hr, hroute⟩ := givenBy_of_mem (List.getElem_mem hlength)
    obtain rfl := List.mem_singleton.mp hr
    exact ⟨_, List.getElem?_eq_getElem hlength, hroute⟩
  refine ⟨hgiven, hanswers, ?_⟩
  obtain ⟨given, hi, hroute⟩ := hgiven
  obtain ⟨api, hapi, -, h⟩ := answers_document m {}
  obtain ⟨o, s, table, ho, hs, -, hread, -⟩ := h 0 given _ type hi hroute hanswers
  obtain ⟨hresponse, hkind⟩ := hread (by decide)
  exact ⟨api, o, s, _, hapi, ho, hs, hresponse, hkind⟩

/-- An answer under a status that the reader does not look for. -/
theorem unread_answer :
    let m : Manifest := { routes := [greeting (some 204)] }
    let type : SourceType := .ofForm (.atomic .string)
    Answers (greeting (some 204)) type ∧
      (m.document {}).operations.map (fun o => o.2.2.responses.map (·.1)) = [["204"]] ∧
      ∃ api, Api.ofDocument? (m.document {}).encode = some api ∧
        api.operations.map (·.response) = [.empty] ∧
        (Client.ofApi api).signatures.map (·.responseKind) = [.void] := by
  intro m type
  exact ⟨answers_greeting (by decide), by decide +kernel, _, rfl, rfl, by decide +kernel⟩

end Api
end TypedApi
