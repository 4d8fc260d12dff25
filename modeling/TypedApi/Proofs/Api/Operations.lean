import TypedApi.Proofs.Api.Closed
import TypedApi.Proofs.OpenApi.Violation
import TypedApi.Proofs.Route.Validity

/-! A client sees the operations that a manifest was assembled to.

Reading the document of a manifest gives one operation for each operation of the document, in
the same order, and the handler and the controller of the route that gave it are its name and
its controller (`operations_document`). The reader looks for references, names that are missing
and shapes that are wrong; the writer leaves out what is empty. What is needed of the document
is therefore little: it holds no cookies, and no request body without a media type. -/
namespace TypedApi.Api

open TypeExpr (ofSchema)
open OpenApi (Document PathItem listJson tableJson)
open OpenApi.Violation (get?_obj)
open Json.Fields

/-! ### The last of each key -/

section
variable {α β κ : Type} [DecidableEq κ]

/-- The items without those whose key comes again later. -/
def lastOf (key : α → κ) : List α → List α
  | [] => []
  | x :: rest => if rest.any (key · = key x) then lastOf key rest else x :: lastOf key rest

theorem lastOf_map (f : α → β) (key : β → κ) (xs : List α) :
    lastOf key (xs.map f) = (lastOf (fun x => key (f x)) xs).map f := by
  induction xs with
  | nil => rfl
  | cons x rest ih =>
    rw [List.map_cons, lastOf, lastOf, List.any_map, ih]
    unfold Function.comp
    split
    · rfl
    · rfl

end

/-- What tells parameters of one operation apart. -/
def Parameter.place (p : Parameter) : String × OpenApi.Location := (p.name, p.location)

/-- A parameter that is added again and again stays where it was added last. -/
theorem foldl_override (ps acc : List Parameter) :
    ps.foldl override acc =
      acc.filter (fun q => !ps.any (·.place = q.place)) ++ lastOf Parameter.place ps := by
  induction ps generalizing acc with
  | nil => simp only [List.foldl_nil, List.any_nil, Bool.not_false, List.filter_true, lastOf,
      List.append_nil]
  | cons p ps ih =>
    have hkept : (acc.filter fun q => !(q.name == p.name && q.location = p.location)).filter
        (fun q => !ps.any (·.place = q.place)) =
        acc.filter fun q => !(p :: ps).any (·.place = q.place) := by
      rw [List.filter_filter]
      refine List.filter_congr fun q _ => ?_
      rw [List.any_cons, Bool.not_or, Bool.and_comm]
      have hsame : (q.name == p.name && decide (q.location = p.location)) =
          decide (p.place = q.place) := by
        rw [Bool.eq_iff_iff, decide_eq_true_iff, eq_comm (a := p.place)]
        simp [Parameter.place]
      rw [hsame]
    rw [List.foldl_cons, ih, override, List.filter_append, hkept, List.append_assoc, lastOf]
    split
    · next h => simp [h]
    · next h => simp [h]

/-! ### Parameters -/

/-- The parameter that a client makes of a declared one. -/
def Parameter.ofDeclared (p : OpenApi.Parameter) : Parameter where
  name := p.name
  location := p.location
  required := p.location = .path || p.required = some true
  description := p.description
  type := (p.schema.map fun s => ofSchema s.encode).getD .string

/-- The parameters that a client passes: of several with one name and location the last. -/
def Parameter.ofOperation (op : OpenApi.Operation) : List Parameter :=
  (lastOf (fun p => (p.name, p.location)) op.parameters).map ofDeclared

theorem asString?_str (o : Option String) : (o.map Json.str).bind Json.asString? = o := by
  cases o <;> rfl

theorem asBool?_bool (o : Option Bool) : (o.map Json.bool).bind Json.asBool? = o := by
  cases o <;> rfl

section
variable {p : OpenApi.Parameter}

theorem isSome_ref_parameter : (p.encode.get? "$ref").isSome = false := by
  simp [OpenApi.Parameter.encode, get?_obj, List.lookup_append, lookup_always, lookup_present]

theorem parameter?_encode (h : p.location ≠ .cookie) :
    parameter? p.encode = some (.ofDeclared p) := by
  have hname : textOf? p.encode "name" = some p.name := by
    simp [textOf?, OpenApi.Parameter.encode, get?_obj, List.lookup_append, lookup_always,
      Json.asString?]
  have hin : textOf? p.encode "in" = some p.location.name := by
    simp [textOf?, OpenApi.Parameter.encode, get?_obj, List.lookup_append, lookup_always,
      Json.asString?]
  have hdescription : textOf? p.encode "description" = p.description := by
    rw [textOf?, ← asString?_str p.description]
    simp [OpenApi.Parameter.encode, get?_obj, List.lookup_append, lookup_always, lookup_present]
  have hrequired : truthOf? p.encode "required" = p.required := by
    rw [truthOf?, ← asBool?_bool p.required]
    simp [OpenApi.Parameter.encode, get?_obj, List.lookup_append, lookup_always, lookup_present]
  have hschema : (p.encode.get? "schema").map ofSchema = p.schema.map fun s => ofSchema s.encode := by
    simp [OpenApi.Parameter.encode, get?_obj, List.lookup_append, lookup_always, lookup_present,
      Option.map_map, Function.comp_def]
  unfold parameter?
  rw [hname, hin, hdescription, hrequired, hschema]
  unfold Parameter.ofDeclared
  cases hl : p.location with
  | cookie => exact absurd hl h
  | _ => rfl

end

/-- Every parameter of an operation is read, and a client passes the last of each place. -/
theorem parametersOf_encode (root : Json) {ps : List OpenApi.Parameter}
    (h : ∀ p ∈ ps, p.location ≠ .cookie) :
    parametersOf root (ps.map OpenApi.Parameter.encode) =
      (lastOf (fun p => (p.name, p.location)) ps).map Parameter.ofDeclared := by
  have hread : (ps.map OpenApi.Parameter.encode).filterMap
      (fun v => parameter? (resolve root maxHops v)) = ps.map Parameter.ofDeclared := by
    rw [List.filterMap_map, ← List.filterMap_eq_map]
    refine List.filterMap_congr fun p hp => ?_
    rw [Function.comp_apply, resolve_of_plain root maxHops isSome_ref_parameter,
      parameter?_encode (h p hp)]
    rfl
  rw [parametersOf, hread, foldl_override, List.filter_nil, List.nil_append, lastOf_map]
  rfl

/-! ### Request bodies -/

theorem isEmpty_ofMedia (mediaType : String) (media : Json) :
    (Content.ofMedia mediaType media).isEmpty = false := by
  unfold Content.ofMedia
  dsimp only
  repeat' split
  all_goals rfl

theorem isEmpty_contentOf {b : OpenApi.RequestBody} (h : b.content ≠ []) :
    (contentOf b.encode).isEmpty = false := by
  rw [contentOf, OpenApi.Violation.get?_content]
  cases hc : b.content with
  | nil => exact absurd hc h
  | cons m rest => exact isEmpty_ofMedia m.1 m.2.encode

/-- A request body is there if there is one in the document, and it is required if it is there. -/
theorem body?_encode (root : Json) {op : OpenApi.Operation}
    (hx : ∀ e ∈ op.extensions, e.1 ∉ OpenApi.Operation.layout.known)
    (hfilled : ∀ b ∈ op.requestBody, b.content ≠ []) :
    (body? root op.encode).map (·.required) =
      op.requestBody.map fun b => decide (b.required = some true) := by
  rw [body?, OpenApi.Violation.get?_requestBody hx]
  cases hb : op.requestBody with
  | none => rfl
  | some b =>
    have href : (b.encode.get? "$ref").isSome = false := by
      simp [OpenApi.RequestBody.encode, get?_obj, List.lookup_append, lookup_always, lookup_present]
    have hrequired : truthOf? b.encode "required" = b.required := by
      refine Eq.trans ?_ (asBool?_bool b.required)
      simp [truthOf?, OpenApi.RequestBody.encode, get?_obj, List.lookup_append, lookup_always,
        lookup_present]
    simp only [Option.map_some, resolve_of_plain root maxHops href, hrequired,
      isEmpty_contentOf (hfilled b hb), Bool.false_eq_true, if_false]

/-! ### Operations -/

open Route (SoundOperation GivenBy controllerKey handlerKey)

/-- The operation `o` that a client sees is an operation of a document that the route gave. -/
structure Describes (route : Route) (o : Operation) (path : String) (method : Method)
    (op : OpenApi.Operation) : Prop where
  path : o.path = path
  method : o.method = method
  summary : o.summary = op.summary
  description : o.description = op.description
  deprecated : o.deprecated = decide (op.deprecated = some true)
  name : o.name = route.handler
  controller : o.controller = route.controller
  parameters : o.parameters = Parameter.ofOperation op
  /-- There is a body exactly if the operation has one, and it is required exactly if that is. -/
  body : o.body.map (·.required) = op.requestBody.map fun b => decide (b.required = some true)

section
variable {N : SchemaTable → OpenApi.Schema → Prop} {t : SchemaTable} {route : Route}
variable {op : OpenApi.Operation} (h : SoundOperation N route t op)
include h

theorem extensions_notMem_known : ∀ e ∈ op.extensions, e.1 ∉ OpenApi.Operation.layout.known := by
  rw [h.extensions]
  simp only [List.forall_mem_cons]
  exact ⟨by decide, by decide, List.forall_mem_nil _⟩

theorem describes_operationOf (root : Json) (path : String) (method : Method) :
    Describes route (operationOf root path [] method op.encode) path method op := by
  have hx := extensions_notMem_known h
  have hlookup : ∀ key ∈ OpenApi.Operation.layout.known, op.extensions.lookup key = none :=
    fun key hk => OpenApi.Violation.get?_operation key hk hx
  have hsummary : op.encode.get? "summary" = op.summary.map .str := by
    simp [OpenApi.Operation.encode, get?_obj, List.lookup_append, lookup_always, lookup_present,
      lookup_nonEmpty, hlookup "summary" (by decide)]
  have hdescription : op.encode.get? "description" = op.description.map .str := by
    simp [OpenApi.Operation.encode, get?_obj, List.lookup_append, lookup_always, lookup_present,
      lookup_nonEmpty, hlookup "description" (by decide)]
  have hdeprecated : op.encode.get? "deprecated" = op.deprecated.map .bool := by
    simp [OpenApi.Operation.encode, get?_obj, List.lookup_append, lookup_always, lookup_present,
      lookup_nonEmpty, hlookup "deprecated" (by decide)]
  have hname : op.encode.get? handlerKey = some (.str route.handler) := by
    simp [OpenApi.Operation.encode, get?_obj, List.lookup_append, lookup_always, lookup_present,
      lookup_nonEmpty, h.extensions, List.lookup_cons, handlerKey, controllerKey]
  have hcontroller : op.encode.get? controllerKey = some (.str route.controller) := by
    simp [OpenApi.Operation.encode, get?_obj, List.lookup_append, lookup_always, lookup_present,
      lookup_nonEmpty, h.extensions, controllerKey]
  have hitems : itemsOf op.encode "parameters" = op.parameters.map OpenApi.Parameter.encode := by
    rw [itemsOf, OpenApi.Violation.get?_parameters hx]
    split
    · next hnil => rw [hnil]; rfl
    · rfl
  have hparameters : parametersOf root ([] ++ itemsOf op.encode "parameters") =
      Parameter.ofOperation op := by
    rw [List.nil_append, hitems, parametersOf_encode root fun p hp => (h.parameters p hp).place]
    rfl
  have hbody := body?_encode root hx fun b hb => (h.body b hb).filled
  -- from here on nothing else is used of what was written
  generalize op.encode = v at *
  exact {
    path := rfl
    method := rfl
    summary := (congrArg (·.bind Json.asString?) hsummary).trans (asString?_str _)
    description := (congrArg (·.bind Json.asString?) hdescription).trans (asString?_str _)
    deprecated := congrArg (fun o : Option Bool => decide (o = some true))
      ((congrArg (·.bind Json.asBool?) hdeprecated).trans (asBool?_bool _))
    name := by
      unfold operationOf
      rw [hname]
      rfl
    controller := by
      unfold operationOf textOf?
      rw [hcontroller]
      rfl
    parameters := hparameters
    body := hbody }

end

/-! ### Documents -/

/-- The operations of a path item that shares no parameters are read in the order of methods. -/
theorem pathOperations_encode (root : Json) (path : String) {item : PathItem}
    (h : item.parameters = []) :
    pathOperations root path item.encode = (Method.all.filterMap fun m =>
      (item.operation? m).map fun op => (path, m, op)).map
        fun o => operationOf root o.1 [] o.2.1 o.2.2.encode := by
  have hshared : itemsOf item.encode "parameters" = [] := by
    rw [itemsOf, OpenApi.Violation.get?_shared h]
    rfl
  rw [pathOperations, hshared, List.map_filterMap]
  refine List.filterMap_congr fun m _ => ?_
  rw [OpenApi.Violation.get?_method]
  cases item.operation? m <;> rfl

/-- The names of the components of a document, in order. -/
def documentComponents (d : Document) : List String :=
  (d.components.getD {}).schemas.map (·.1)

/-- Reading a document whose path items share no parameters gives its components, and one operation
for each of its operations. -/
theorem ofDocument?_encode {d : Document}
    (hx : ∀ e ∈ d.extensions, e.1 ∉ Document.layout.known)
    (hshared : ∀ e ∈ d.paths, e.2.parameters = []) :
    ∃ api, Api.ofDocument? d.encode = some api ∧ componentNames api = documentComponents d ∧
      api.operations = d.operations.map fun o => operationOf d.encode o.1 [] o.2.1 o.2.2.encode := by
  refine ⟨_, rfl, ?_, ?_⟩
  · show (componentsOf d.encode).map (·.1) = _
    rw [names_componentsOf, OpenApi.Violation.componentSchemas_encode hx, List.map_map]
    rfl
  · show (((d.encode.get? "paths").bind Json.asObject?).getD []).flatMap
      (fun e => pathOperations d.encode e.1 e.2) = _
    rw [OpenApi.Violation.get?_paths]
    show (d.paths.map fun e => (e.1, e.2.encode)).flatMap
      (fun e => pathOperations d.encode e.1 e.2) = _
    rw [List.flatMap_map, Document.operations, List.map_flatMap]
    exact List.flatMap_congr fun e he => pathOperations_encode d.encode e.1 (hshared e he)

/-- The document of a manifest is read. Its components are those of the document, and its operations
are those of the document, in order, each under the names of the route that gave it. -/
theorem operations_document (m : Manifest) (options : DocumentOptions) :
    ∃ api, Api.ofDocument? (m.document options).encode = some api ∧
      componentNames api = documentComponents (m.document options) ∧
      List.Forall₂ (fun o (given : String × Method × OpenApi.Operation) =>
          ∃ route ∈ m.routes, GivenBy m.types options.versioning route given ∧
            Describes route o given.1 given.2.1 given.2.2)
        api.operations (m.document options).operations := by
  have hgood : Route.GoodManifest (fun _ => True) m := fun _ _ =>
    ⟨fun _ _ => trivial, fun _ _ => trivial, fun _ _ _ _ => trivial, fun _ _ => trivial⟩
  have h := Route.assembled_document (Route.nodewise_valid m.types) Route.operationNodes_valid hgood
    options
  have hx : ∀ e ∈ (m.document options).extensions, e.1 ∉ Document.layout.known := by
    rw [h.extensions]
    exact List.forall_mem_nil _
  obtain ⟨api, hapi, hnames, hoperations⟩ := ofDocument?_encode hx h.unshared
  refine ⟨api, hapi, hnames, ?_⟩
  rw [hoperations, List.forall₂_map_left_iff, List.forall₂_same]
  intro given hgiven
  obtain ⟨e, he, hm⟩ := List.mem_flatMap.mp hgiven
  obtain ⟨method, -, hop⟩ := List.mem_filterMap.mp hm
  obtain ⟨op, hfound, rfl⟩ := Option.map_eq_some_iff.mp hop
  obtain ⟨route, hr, hoffer, hroute⟩ := h.offered e he method op hfound
  exact ⟨route, hr, hroute, describes_operationOf hoffer.operation _ _ _⟩

end TypedApi.Api
