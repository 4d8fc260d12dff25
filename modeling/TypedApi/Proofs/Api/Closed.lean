import TypedApi.Proofs.Api.Types
import TypedApi.Proofs.TypeExpr.Closed

/-! The references of an API that is read from a document without a violation.

The validator and the reader look at the same schemas of a document, but only the reader follows
the references that parameters, bodies and responses may be. So every reference of the API is to
one of its components, unless it is `Borrowed` from a place where the validator did not look and
would have found something (`closed_ofDocument`). -/
namespace TypedApi.Api

open TypeExpr (Closed ofSchema)
open OpenApi (isComponentKey isComponentKey_iff isKeyChar)
open OpenApi.Violation (Quiet QuietSchema QuietContent QuietOperation)

/-! ### Contents -/

section
variable {names : List String}

theorem quiet_dataSchema? {item s : Json} (h : Quiet names item) (hs : dataSchema? item = some s) :
    Quiet names s := by
  obtain ⟨data, hdata, hs⟩ := Option.bind_eq_some_iff.mp hs
  obtain ⟨properties, hproperties, hdata⟩ := Option.bind_eq_some_iff.mp hdata
  exact (h.property hproperties hdata).single hs (by decide)

theorem quiet_messageSchemas {item : Json} (h : Quiet names item) :
    ∀ s ∈ messageSchemas item, Quiet names s := by
  intro s hs
  obtain ⟨m, hm, hdata⟩ := List.mem_filterMap.mp hs
  rcases List.mem_cons.mp hm with rfl | hm
  · exact quiet_dataSchema? h hdata
  · cases hbranches : (item.get? "oneOf").bind Json.asArray? with
    | none => rw [hbranches] at hm; cases hm
    | some branches =>
      rw [hbranches] at hm
      obtain ⟨v, hv, hitems⟩ := Option.bind_eq_some_iff.mp hbranches
      cases v with
      | arr xs =>
        cases hitems
        exact quiet_dataSchema? (h.items hv (by decide) m hm) hdata
      | _ => cases hitems

theorem quiet_contentSchemas {owner : Json} (h : QuietContent names owner) :
    ∀ s ∈ contentSchemas owner, Quiet names s := by
  intro s hs
  unfold contentSchemas at hs
  cases hcontent : (owner.get? "content").bind Json.asObject? with
  | none => rw [hcontent] at hs; cases hs
  | some content =>
    rw [hcontent] at hs
    obtain ⟨e, he, hs⟩ := List.mem_flatMap.mp hs
    have hmedia := h content hcontent e he
    rcases List.mem_append.mp hs with hs | hs
    · exact hmedia "schema" (by simp) s (Option.mem_toList.mp hs)
    · obtain ⟨item, hitem, hs⟩ := List.mem_flatMap.mp hs
      exact quiet_messageSchemas (hmedia "itemSchema" (by simp) item (Option.mem_toList.mp hitem)) s hs

end

/-! ### References between the parts of a document -/

/-- The object of an operation in a document, and the path item in which it stands. -/
structure Stands (root : Json) (path : String) (m : Method) (item op : Json) : Prop where
  path : ∃ paths ∈ (root.get? "paths").bind Json.asObject?, (path, item) ∈ paths
  method : item.get? m.key = some op

/-- The parameters that an operation declares, or shares with others of its path. -/
def declaredParameters (item op : Json) : List Json :=
  itemsOf item "parameters" ++ itemsOf op "parameters"

/-- The request body and the responses that an operation declares. -/
def declaredContents (op : Json) : List Json :=
  (op.get? "requestBody").toList ++
    (((op.get? "responses").bind Json.asObject?).getD []).map (·.2)

/-- A type of an operation that is read where a reference leads, from a schema on which the
validator would have something to say. -/
inductive Borrowed (names : List String) (root : Json) (o : Operation) (t : TypeExpr) : Prop where
  | parameter {item op p s : Json} (hop : Stands root o.path o.method item op)
    (hp : p ∈ declaredParameters item op) (href : (p.get? "$ref").isSome = true)
    (hs : (resolve root maxHops p).get? "schema" = some s) (ht : t = ofSchema s)
    (h : ¬ Quiet names s)
  | content {item op v s : Json} (hop : Stands root o.path o.method item op)
    (hv : v ∈ declaredContents op) (href : (v.get? "$ref").isSome = true)
    (hs : s ∈ contentSchemas (resolve root maxHops v)) (ht : t = ofSchema s)
    (h : ¬ Quiet names s)

theorem resolve_of_plain (root : Json) (hops : Nat) {v : Json} (h : (v.get? "$ref").isSome = false) :
    resolve root hops v = v := by
  cases hops with
  | zero => rfl
  | succ hops =>
    have hnone : v.get? "$ref" = none := by simpa using h
    rw [resolve, hnone]
    rfl

theorem mem_itemsOf {v x : Json} {key : String} (h : x ∈ itemsOf v key) :
    ∃ xs ∈ (v.get? key).bind Json.asArray?, x ∈ xs := by
  unfold itemsOf at h
  cases hxs : (v.get? key).bind Json.asArray? with
  | none => rw [hxs] at h; cases h
  | some xs => rw [hxs] at h; exact ⟨xs, rfl, h⟩

section
variable {names : List String} {root : Json} {o : Operation} {item op : Json}
variable (hnames : ∀ name ∈ names, '/' ∉ name.toList) (hq : QuietOperation names item op)
variable (hop : Stands root o.path o.method item op)
include hnames hq hop

theorem closed_or_borrowed_parameter {p : Json} (hp : p ∈ declaredParameters item op) {q : Parameter}
    (h : parameter? (resolve root maxHops p) = some q) :
    Closed names q.type ∨ Borrowed names root o q.type := by
  obtain ht | ⟨s, hs, ht⟩ := type_parameter? h
  · exact .inl (ht ▸ TypeExpr.closed_of_childless rfl rfl)
  by_cases hquiet : Quiet names s
  · exact .inl (ht ▸ TypeExpr.closed_ofSchema hnames s hquiet)
  cases href : (p.get? "$ref").isSome with
  | true => exact .inr (.parameter hop hp href hs ht hquiet)
  | false =>
    -- a parameter that is no reference has been looked at
    rw [resolve_of_plain root maxHops href] at hs
    have hlooked : QuietSchema names p := by
      rcases List.mem_append.mp hp with hp | hp
      · obtain ⟨ps, hps, hp⟩ := mem_itemsOf hp
        exact hq.parameters item List.mem_cons_self ps hps p hp href
      · obtain ⟨ps, hps, hp⟩ := mem_itemsOf hp
        exact hq.parameters op (List.mem_cons_of_mem _ List.mem_cons_self) ps hps p hp href
    exact absurd (hlooked s hs) hquiet

theorem closed_or_borrowed_content {v : Json} (hv : v ∈ declaredContents op) {t : TypeExpr}
    (h : t ∈ (contentOf (resolve root maxHops v)).types) :
    Closed names t ∨ Borrowed names root o t := by
  obtain ht | ⟨s, hs, ht⟩ := types_contentOf h
  · exact .inl (ht ▸ TypeExpr.closed_unknown)
  by_cases hquiet : Quiet names s
  · exact .inl (ht ▸ TypeExpr.closed_ofSchema hnames s hquiet)
  cases href : (v.get? "$ref").isSome with
  | true => exact .inr (.content hop hv href hs ht hquiet)
  | false =>
    rw [resolve_of_plain root maxHops href] at hs
    have hlooked : QuietContent names v := by
      rcases List.mem_append.mp hv with hv | hv
      · exact hq.body v (Option.mem_toList.mp hv)
      · obtain ⟨r, hr, rfl⟩ := List.mem_map.mp hv
        cases hresponses : (op.get? "responses").bind Json.asObject? with
        | none => rw [hresponses] at hr; cases hr
        | some rs => rw [hresponses] at hr; exact hq.responses rs hresponses r hr
    exact absurd (quiet_contentSchemas hlooked s hs) hquiet

theorem closed_or_borrowed_operation (m : Method) (path : String)
    (ho : o = operationOf root path (itemsOf item "parameters") m op) :
    ∀ t ∈ o.types, Closed names t ∨ Borrowed names root o t := by
  intro t ht
  rcases List.mem_append.mp ht with ht | ht
  · rcases List.mem_append.mp ht with ht | ht
    · obtain ⟨q, hparameter, rfl⟩ := List.mem_map.mp ht
      rw [ho] at hparameter
      obtain ⟨p, hp, hparameter⟩ := mem_parametersOf hparameter
      exact closed_or_borrowed_parameter hnames hq hop hp hparameter
    · obtain ⟨b, hb, ht⟩ := List.mem_flatMap.mp ht
      rw [ho] at hb
      obtain ⟨v, hv, hcontent⟩ := body?_eq_some (Option.mem_toList.mp hb)
      rw [hcontent] at ht
      exact closed_or_borrowed_content hnames hq hop
        (List.mem_append_left _ (Option.mem_toList.mpr hv)) ht
  · rw [ho] at ht
    obtain ⟨rs, hrs, r, hr, ht⟩ := types_responseOf ht
    refine closed_or_borrowed_content hnames hq hop (List.mem_append_right _ ?_) ht
    rw [hrs]
    exact List.mem_map_of_mem hr

end

/-! ### Documents -/

/-- The names of the components of an API. -/
def componentNames (api : Api) : List String := api.components.map (·.1)

theorem slash_notMem_of_isComponentKey {key : String} (h : isComponentKey key = true) :
    '/' ∉ key.toList := fun hslash =>
  absurd ((isComponentKey_iff.mp h).2 _ hslash) (by decide)

theorem names_componentsOf (root : Json) :
    (componentsOf root).map (·.1) = (OpenApi.Violation.componentSchemas root).map (·.1) := by
  unfold componentsOf OpenApi.Violation.componentSchemas
  rw [List.map_map]
  rfl

/-- A document without a violation is read, and every reference in it is to a component of what is
read, unless it is borrowed. -/
theorem closed_ofDocument (root : Json) (h : OpenApi.Violation.ofDocument root = []) :
    ∃ api, Api.ofDocument? root = some api ∧
      (∀ c ∈ api.components, Closed (componentNames api) c.2.type) ∧
      ∀ o ∈ api.operations, ∀ t ∈ o.types,
        Closed (componentNames api) t ∨ Borrowed (componentNames api) root o t := by
  have hquiet := OpenApi.Violation.quiet_of_ofDocument h
  rw [← names_componentsOf] at hquiet
  obtain ⟨⟨members, rfl⟩, hkeys, hschemas, hoperations⟩ := hquiet
  have hnames : ∀ name ∈ (componentsOf (.obj members)).map (·.1), '/' ∉ name.toList :=
    fun name hname => slash_notMem_of_isComponentKey (hkeys name hname)
  refine ⟨_, rfl, fun c hc => ?_, fun o ho => ?_⟩
  · obtain ⟨e, he, rfl⟩ := List.mem_map.mp hc
    exact TypeExpr.closed_ofSchema hnames e.2 (hschemas e he)
  · obtain ⟨e, he, ho⟩ := List.mem_flatMap.mp ho
    obtain ⟨paths, hpaths, he⟩ : ∃ paths ∈ ((Json.obj members).get? "paths").bind Json.asObject?,
        e ∈ paths := by
      cases hpaths : ((Json.obj members).get? "paths").bind Json.asObject? with
      | none => rw [hpaths] at he; cases he
      | some paths => rw [hpaths] at he; exact ⟨paths, rfl, he⟩
    obtain ⟨m, -, ho⟩ := List.mem_filterMap.mp ho
    split at ho
    next op hop =>
      cases ho
      exact closed_or_borrowed_operation hnames (hoperations paths hpaths e he m op hop)
        ⟨⟨paths, hpaths, he⟩, hop⟩ m e.1 rfl
    next => cases ho

/-- A document of one operation that takes one parameter. -/
def takingParameter (parameter : Json) (components : List (String × Json)) : Json :=
  .obj [("openapi", .str "3.1.0"),
    ("info", .obj [("title", .str "API"), ("version", .str "1.0.0")]),
    ("paths", .obj [("/items", .obj [("get", .obj [("parameters", .arr [parameter]),
      ("responses", .obj [("200", .obj [("description", .str "OK")])])])])]),
    ("components", .obj components)]

/-- A parameter whose type is a component. -/
def typedParameter (component : String) : Json :=
  .obj [("name", .str "q"), ("in", .str "query"),
    ("schema", .obj [("$ref", .str (OpenApi.componentRef component))])]

/-- The type of a parameter is the only component. -/
def itemDocument : Json :=
  takingParameter (typedParameter "Item")
    [("schemas", .obj [("Item", .obj [("type", .str "object")])])]

theorem closed_ofDocument_item :
    OpenApi.Violation.ofDocument itemDocument = [] ∧
      ∃ api, Api.ofDocument? itemDocument = some api ∧
        (∀ c ∈ api.components, Closed (componentNames api) c.2.type) ∧
        ∀ o ∈ api.operations, ∀ t ∈ o.types,
          Closed (componentNames api) t ∨ Borrowed (componentNames api) itemDocument o t := by
  have hquiet : OpenApi.Violation.ofDocument itemDocument = [] := by decide +kernel
  exact ⟨hquiet, closed_ofDocument itemDocument hquiet⟩

/-- A parameter is a reference to another one, whose type is a component that is missing. -/
def missingDocument : Json :=
  takingParameter (.obj [("$ref", .str "#/components/parameters/P")])
    [("parameters", .obj [("P", typedParameter "Missing")])]

/-- The validator does not look where a parameter leads. -/
theorem not_closed_ofDocument_missing :
    OpenApi.Violation.ofDocument missingDocument = [] ∧
      ∃ api, Api.ofDocument? missingDocument = some api ∧
        ∃ o ∈ api.operations, ∃ t ∈ o.types, ¬ Closed (componentNames api) t := by
  have htypes : (Api.ofDocument? missingDocument).map (fun api => api.operations.map (·.types)) =
      some [[.ref "Missing"]] := rfl
  have hnames : (Api.ofDocument? missingDocument).map componentNames = some [] := rfl
  obtain ⟨api, hapi, htypes⟩ := Option.map_eq_some_iff.mp htypes
  rw [hapi, Option.map_some, Option.some_inj] at hnames
  obtain ⟨o, ho, htypes⟩ : ∃ o ∈ api.operations, o.types = [.ref "Missing"] :=
    List.mem_map.mp (htypes ▸ List.mem_singleton_self _)
  refine ⟨by decide +kernel, api, hapi, o, ho, .ref "Missing", ?_, fun hclosed => ?_⟩
  · rw [htypes]
    exact List.mem_singleton_self _
  · have hmissing : "Missing" ∈ componentNames api := hclosed.here
    rw [hnames] at hmissing
    cases hmissing

end TypedApi.Api
