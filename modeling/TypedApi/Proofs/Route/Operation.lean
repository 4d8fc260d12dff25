import TypedApi.OpenApi.Violation
import TypedApi.Proofs.Json.Table
import TypedApi.Proofs.OpenApi.Document
import TypedApi.Proofs.Route.Compile
import TypedApi.Proofs.Route.Path

/-! The operations of a route.

`SoundOperation` collects what holds of the operation that a route gives, whatever its
types: the nodes of its schemas have the property `N`, path parameters are required and
there is one for each placeholder, there is a response, and no two responses have one
status. `yields_operations` says so of all versions of a route. -/
namespace TypedApi.Route

open OpenApi SchemaTable

/-- The nodes that operations add to those of converted types. -/
structure OperationNodes (N : SchemaTable → Schema → Prop) : Prop where
  body {t} (converted : List (String × Schema)) (required : List String) :
    (∀ name ∈ required, name ∈ converted.map (·.1)) →
    N t { Schema.ofType "object" with
      properties := some (Json.table converted)
      required := if required.isEmpty then none else some required }
  eventName {t} (name : String) :
    N t { Schema.ofType "string" with constValue := some (.str name) }
  eventData {t} (data : Schema) :
    N t { Schema.ofType "string" with
      contentMediaType := some "application/json"
      contentSchema := some data }
  message {t} (event : Option String) (data : Schema) : N t (messageSchema event data)
  stream {t} (branches : List Schema) :
    N t { oneOf := some branches, discriminator := some { propertyName := "event" } }
  streamError {t} : N t streamErrorSchema
  selector {t} (versions : List String) :
    N t { Schema.ofType "string" with enumValues := some (versions.map .str) }

/-- The types of a route are such as `Good` says. -/
structure GoodRoute (Good : SourceType → Prop) (route : Route) : Prop where
  parameters : ∀ p ∈ route.parameters, Good p.type
  returns : ∀ type ∈ route.returns, Good type
  errors : ∀ e ∈ route.errors, ∀ type ∈ e.type, Good type
  events : ∀ e ∈ route.events, Good e.data

structure SoundParameter (N : SchemaTable → Schema → Prop) (t : SchemaTable)
    (p : OpenApi.Parameter) : Prop where
  required : p.location = .path → p.required = some true
  place : p.location ≠ .cookie
  schemas : ∀ s ∈ p.schemas, s.All (N t)

structure SoundContent (N : SchemaTable → Schema → Prop) (t : SchemaTable)
    (content : List (String × MediaType)) : Prop where
  distinct : (content.map (·.1)).Nodup
  filled : content ≠ []
  bare : ∀ m ∈ content, m.2.example? = none
  schemas : ∀ s ∈ contentSchemas content, s.All (N t)

structure SoundOperation (N : SchemaTable → Schema → Prop) (route : Route) (t : SchemaTable)
    (op : Operation) : Prop where
  parameters : ∀ p ∈ op.parameters, SoundParameter N t p
  declared : ∀ name ∈ placeholders (template route.path), name ∈ pathNames op.parameters
  body : ∀ b ∈ op.requestBody, SoundContent N t b.content
  answered : op.responses ≠ []
  distinct : (op.responses.map (·.1)).Nodup
  answers : ∀ r ∈ op.responses, ∀ c ∈ r.2.content, SoundContent N t c
  security : ∀ rs ∈ op.security, rs = route.security
  extensions : op.extensions =
    [(controllerKey, .str route.controller), (handlerKey, .str route.handler)]

section Rules

variable {N : SchemaTable → Schema → Prop} {registry : Registry} {Good : SourceType → Prop}
  {t t' : SchemaTable} (hn : Nodewise registry Good N)

include hn

theorem SoundParameter.grow (hg : Extends t t') {p : OpenApi.Parameter}
    (h : SoundParameter N t p) : SoundParameter N t' p :=
  ⟨h.required, h.place, fun s hs => hn.all_grow hg (h.schemas s hs)⟩

theorem SoundContent.grow (hg : Extends t t') {c : List (String × MediaType)}
    (h : SoundContent N t c) : SoundContent N t' c :=
  ⟨h.distinct, h.filled, h.bare, fun s hs => hn.all_grow hg (h.schemas s hs)⟩

theorem SoundOperation.grow (hg : Extends t t') {route : Route} {op : Operation}
    (h : SoundOperation N route t op) : SoundOperation N route t' op :=
  { h with
    parameters := fun p hp => (h.parameters p hp).grow hn hg
    body := fun b hb => (h.body b hb).grow hn hg
    answers := fun r hr c hc => (h.answers r hr c hc).grow hn hg }

/-! ### Parameters -/

theorem yields_parameterOf (hs : Sound N t) {location : Location} (hl : location ≠ .cookie)
    (name : String) {type : SourceType} (hg : Good type) (required : Bool)
    (description : Option String) :
    Yields N t (parameterOf registry location name type required description)
      fun t' p => SoundParameter N t' p ∧ p.name = name ∧ p.location = location := by
  refine (yields_schemaOf hn hs hg).bind fun s t' _ hs' hall => .pure hs' ⟨⟨?_, hl, ?_⟩, rfl, rfl⟩
  · intro hp
    simp [show location = .path from hp]
  · intro u hu
    rwa [show u = s by simpa [Parameter.schemas] using hu]

theorem good_of_follow {fuel : Nat} {seen : List String} {type target : SourceType}
    (hg : Good type) (h : followWithin registry fuel seen type = some target) : Good target := by
  induction fuel generalizing seen type with
  | zero => cases h
  | succ fuel ih =>
    rw [followWithin] at h
    split at h
    · split at h
      · cases h
      · obtain ⟨u, hu, h⟩ := Option.bind_eq_some_iff.mp h
        exact ih (hn.registered hu) h
    · cases h
      exact hg

theorem good_of_objectProperties {type : SourceType} {ps : List Property} (hg : Good type)
    (h : objectProperties? registry type = some ps) : ∀ p ∈ ps, Good p.type := by
  intro p hp
  unfold objectProperties? at h
  split at h
  · next properties index strictness nullable optional name description constraints hf =>
    cases h
    refine hn.parts (good_of_follow hn hg hf) p.type ?_
    exact List.mem_append_left _ (List.mem_map.mpr ⟨p, hp, rfl⟩)
  · cases h

theorem yields_expandParameter (hs : Sound N t) {location : Location} (hl : location ≠ .cookie)
    {p : Parameter} (hg : Good p.type) :
    Yields N t (expandParameter registry location p) fun t' ps => ∀ q ∈ ps, SoundParameter N t' q := by
  unfold expandParameter
  split
  · next name _ =>
    refine (yields_parameterOf hn hs hl name hg _ _).bind fun q t' _ hs' hq => ?_
    exact .pure hs' fun q' hq' => by rw [List.mem_singleton.mp hq']; exact hq.1
  · split
    · exact .pure hs fun q hq => by cases hq
    · next ps hps =>
      have hgood := good_of_objectProperties hn hg hps
      refine .mapM_all (fun _ _ _ hg hq => hq.grow hn hg) (fun q hq t₁ hs₁ => ?_) hs
      exact (yields_parameterOf hn hs₁ hl q.name (hgood q hq) _ _).imp fun _ _ _ h => h.1

omit hn in
/-- No parameter of a route is taken from a cookie. -/
theorem cookie_ne_locationOf (c : Category) : locationOf c ≠ some .cookie := by
  cases c <;> decide

theorem soundParameter_undeclared (name : String) : SoundParameter N t (undeclaredParameter name) := by
  refine ⟨fun _ => rfl, fun hc => (by cases hc), fun s hs => ?_⟩
  rw [show s = .ofType "string" by simpa [Parameter.schemas, undeclaredParameter] using hs]
  exact hn.all_ofType "string"

omit hn in
/-- Every placeholder has a path parameter. -/
theorem declared_undeclared (path : String) (ps : List OpenApi.Parameter) :
    ∀ name ∈ placeholders path, name ∈ pathNames (undeclared path ps ++ ps) := by
  intro name hm
  rw [pathNames, List.filterMap_append, List.mem_append]
  by_cases hd : name ∈ (ps.filter (·.location = .path)).map (·.name)
  · obtain ⟨p, hp, rfl⟩ := List.mem_map.mp hd
    obtain ⟨hp, hl⟩ := List.mem_filter.mp hp
    exact .inr (List.mem_filterMap.mpr ⟨p, hp, by simpa using hl⟩)
  · refine .inl (List.mem_filterMap.mpr ⟨undeclaredParameter name, ?_, rfl⟩)
    exact List.mem_map.mpr ⟨name, List.mem_filter.mpr ⟨hm, by simpa using hd⟩, rfl⟩

/-! ### Bodies -/

theorem yields_bodySchema (ho : OperationNodes N) (hs : Sound N t) {bodies : List Parameter}
    (hg : ∀ b ∈ bodies, Good b.type) :
    Yields N t (bodySchema registry bodies) fun t' s => s.All (N t') := by
  unfold bodySchema
  split
  · exact yields_schemaOf hn hs (hg _ List.mem_cons_self)
  · refine (Yields.mapM (Q := fun (x : String × Parameter) t' (y : String × Schema) =>
        y.1 = x.1 ∧ y.2.All (N t'))
      (fun _ _ _ _ hgrow h => ⟨h.1, hn.all_grow hgrow h.2⟩) ?_ hs).bind ?_
    · intro x hx t₁ hs₁
      obtain ⟨b, hb, hx⟩ := List.mem_filterMap.mp hx
      obtain ⟨name, -, rfl⟩ := Option.map_eq_some_iff.mp hx
      exact (yields_schemaOf hn hs₁ (hg b hb)).bind fun s t₂ _ hs₂ hall => .pure hs₂ ⟨rfl, hall⟩
    · intro converted t₁ _ hs₁ hc
      have hnames : converted.map (·.1) =
          (bodies.filterMap fun b => b.name.map fun name => (name, b)).map (·.1) :=
        map_eq_of_forall₂ (hc.imp fun _ _ h => h.1)
      refine .pure hs₁ (.intro (ho.body converted _ ?_) fun c hcm => ?_)
      · intro name hname
        rw [hnames]
        obtain ⟨x, hx, rfl⟩ := List.mem_map.mp hname
        exact List.mem_map.mpr ⟨x, (List.mem_filter.mp hx).1, rfl⟩
      · have hcm : c ∈ (Json.table converted).map (·.2) := by
          simpa [Schema.ofType, Schema.children] using hcm
        obtain ⟨e, he, rfl⟩ := List.mem_map.mp hcm
        exact forall_of_forall₂ (hc.imp fun _ _ h => h.2) e (Json.mem_of_mem_table he)

omit hn in
theorem soundContent_singleton {mediaType : String} {media : MediaType}
    (he : media.example? = none) (h : ∀ s ∈ media.schemas, s.All (N t)) :
    SoundContent N t [(mediaType, media)] where
  distinct := List.nodup_singleton _
  filled := List.cons_ne_nil _ _
  bare m hm := by rw [List.mem_singleton.mp hm]; exact he
  schemas s hs := h s (by simpa [contentSchemas] using hs)

theorem yields_requestBody (ho : OperationNodes N) (hs : Sound N t) (route : Route)
    {bodies : List Parameter} (hg : ∀ b ∈ bodies, Good b.type) :
    Yields N t (requestBody registry route bodies) fun t' b => SoundContent N t' b.content := by
  refine (yields_bodySchema hn ho hs hg).bind fun s t' _ hs' hall => .pure hs' ?_
  refine soundContent_singleton rfl fun u hu => ?_
  rwa [show u = s by simpa [MediaType.schemas] using hu]

/-! ### Responses -/

omit hn in
theorem all_eventData (ho : OperationNodes N) {data : Schema} (h : data.All (N t)) :
    Schema.All (N t) { Schema.ofType "string" with
      contentMediaType := some "application/json"
      contentSchema := some data } :=
  .intro (ho.eventData data) fun c hc => by
    rwa [show c = data by simpa [Schema.ofType, Schema.children] using hc]

theorem all_messageSchema (ho : OperationNodes N) (event : Option String) {data : Schema}
    (h : data.All (N t)) : (messageSchema event data).All (N t) := by
  refine .intro (ho.message event data) fun c hc => ?_
  have hc : (∃ name, event = some name ∧
        c = { Schema.ofType "string" with constValue := some (.str name) }) ∨
      c = { Schema.ofType "string" with
        contentMediaType := some "application/json", contentSchema := some data } ∨
      c = .ofType "string" := by
    cases event <;> simpa [messageSchema, Schema.ofType, Schema.children] using hc
  rcases hc with ⟨name, -, rfl⟩ | rfl | rfl
  · exact Schema.all_of_childless rfl (ho.eventName name)
  · exact all_eventData ho h
  · exact hn.all_ofType "string"

theorem all_streamErrorSchema (ho : OperationNodes N) : streamErrorSchema.All (N t) := by
  refine .intro ho.streamError fun c hc => ?_
  rw [show c = .ofType "string" by simpa [streamErrorSchema, Schema.ofType, Schema.children] using hc]
  exact hn.all_ofType "string"

theorem yields_streamSchema (ho : OperationNodes N) (hs : Sound N t) {route : Route}
    (hr : ∀ type ∈ route.returns, Good type) (he : ∀ e ∈ route.events, Good e.data) :
    Yields N t (streamSchema registry route) fun t' s => s.All (N t') := by
  unfold streamSchema
  split
  · split
    · next type hret =>
      refine (yields_schemaOf hn hs (hr type hret)).bind fun s t' _ hs' hall => ?_
      exact .pure hs' (all_messageSchema hn ho none hall)
    · exact .pure hs (all_messageSchema hn ho none hn.all_empty)
  · next event hev =>
    have hg := he event (hev ▸ List.mem_cons_self)
    refine (yields_schemaOf hn hs hg).bind fun s t' _ hs' hall => ?_
    exact .pure hs' (all_messageSchema hn ho _ hall)
  · refine (Yields.mapM_all (Q := fun t' s => s.All (N t'))
      (fun _ _ _ hgrow h => hn.all_grow hgrow h) (fun e hm t₁ hs₁ => ?_) hs).bind
      fun branches t₁ _ hs₁ hall => .pure hs₁ ?_
    · refine (yields_schemaOf hn hs₁ (he e hm)).bind fun s t' _ hs' hall => ?_
      exact .pure hs' (all_messageSchema hn ho _ hall)
    · refine .intro (ho.stream _) fun c hc => ?_
      have hc : c ∈ branches ∨ c = messageSchema (some "error") streamErrorSchema := by
        simpa [Schema.children] using hc
      rcases hc with hc | rfl
      · exact hall c hc
      · exact all_messageSchema hn ho _ (all_streamErrorSchema hn ho)

/-- Each content of a response is sound. -/
def SoundResponse (N : SchemaTable → Schema → Prop) (t : SchemaTable) (r : Response) : Prop :=
  ∀ c ∈ r.content, SoundContent N t c

omit hn in
theorem soundResponse_plain (description : String) : SoundResponse N t (.plain description) :=
  fun c hc => by cases hc

omit hn in
theorem soundResponse_json (description : String) {s : Schema} (h : s.All (N t)) :
    SoundResponse N t (.json description s) := by
  intro c hc
  cases hc
  refine soundContent_singleton rfl fun u hu => ?_
  rwa [show u = s by simpa [MediaType.schemas] using hu]

theorem yields_successResponse (ho : OperationNodes N) (hs : Sound N t) {route : Route}
    (hg : GoodRoute Good route) :
    Yields N t (successResponse registry route) (SoundResponse N) := by
  unfold successResponse
  split
  · refine (yields_streamSchema hn ho hs hg.returns hg.events).bind fun s t' _ hs' hall => ?_
    refine .pure hs' fun c hc => ?_
    cases hc
    refine soundContent_singleton rfl fun u hu => ?_
    rwa [show u = s by simpa [MediaType.schemas] using hu]
  · split
    · next type hret =>
      split
      · exact .pure hs (soundResponse_plain _)
      · refine (yields_schemaOf hn hs (hg.returns type hret)).bind fun s t' _ hs' hall => ?_
        exact .pure hs' (soundResponse_json _ hall)
    · exact .pure hs (soundResponse_plain _)

theorem yields_failureResponse (hs : Sound N t) {failure : Failure}
    (hg : ∀ type ∈ failure.type, Good type) :
    Yields N t (failureResponse registry failure) (SoundResponse N) := by
  unfold failureResponse
  split
  · next type htype =>
    refine (yields_schemaOf hn hs (hg type htype)).bind fun s t' _ hs' hall => ?_
    exact .pure hs' (soundResponse_json _ hall)
  · exact .pure hs (soundResponse_plain _)

theorem SoundResponse.grow (hg : Extends t t') {r : Response} (h : SoundResponse N t r) :
    SoundResponse N t' r :=
  fun c hc => (h c hc).grow hn hg

theorem yields_responses (ho : OperationNodes N) (hs : Sound N t) {route : Route}
    (hg : GoodRoute Good route) :
    Yields N t (responses registry route) fun t' rs =>
      rs ≠ [] ∧ (rs.map (·.1)).Nodup ∧ ∀ r ∈ rs, SoundResponse N t' r.2 := by
  refine (yields_successResponse hn ho hs hg).bind fun success t₁ _ hs₁ hsuccess => ?_
  refine (Yields.mapM_all (Q := fun t' (r : String × Response) => SoundResponse N t' r.2)
    (fun _ _ _ hgrow h => h.grow hn hgrow) (fun e he t₂ hs₂ => ?_) hs₁).bind
    fun failures t₂ hg₂ hs₂ hall => .pure hs₂ ⟨?_, Json.nodup_keys_table _, fun r hr => ?_⟩
  · refine (yields_failureResponse hn hs₂ (hg.errors e he)).bind fun r t₃ _ hs₃ hr => ?_
    exact .pure hs₃ hr
  · intro hnil
    have hmem : toString (successStatus route) ∈
        (Json.table ((toString (successStatus route), success) :: failures)).map (·.1) :=
      Json.mem_keys_table.mpr List.mem_cons_self
    rw [hnil] at hmem
    cases hmem
  · rcases List.mem_cons.mp (Json.mem_of_mem_table hr) with rfl | hr
    · exact hsuccess.grow hn hg₂
    · exact hall r hr

/-! ### Operations -/

/-- The operation of a route is sound, whatever its types. -/
theorem yields_operationAt (ho : OperationNodes N) (hs : Sound N t) {route : Route}
    (hg : GoodRoute Good route) :
    Yields N t (operationAt registry route (template route.path)) (SoundOperation N route) := by
  refine (Yields.mapM_all (Q := fun t' (ps : List OpenApi.Parameter) => ∀ p ∈ ps, SoundParameter N t' p)
    (fun _ _ _ hgrow h p hp => (h p hp).grow hn hgrow) (fun p hp t₁ hs₁ => ?_) hs).bind
    fun declared t₁ _ hs₁ hdeclared => ?_
  · split
    · next location hlocation =>
      have hplace : location ≠ .cookie := by
        rintro rfl
        exact cookie_ne_locationOf p.category hlocation
      exact yields_expandParameter hn hs₁ hplace (hg.parameters p hp)
    · exact .pure hs₁ fun q hq => by cases hq
  have hbodies : ∀ b ∈ route.parameters.filter (·.category = .body), Good b.type := fun b hb =>
    hg.parameters b (List.mem_filter.mp hb).1
  have hbody : Yields N t₁
      (if (route.parameters.filter (·.category = .body)).isEmpty then Pure.pure none
        else some <$> requestBody registry route (route.parameters.filter (·.category = .body)))
      fun t' body => ∀ b ∈ body, SoundContent N t' b.content := by
    split
    · exact .pure hs₁ fun b hb => by cases hb
    · refine .map ((yields_requestBody hn ho hs₁ route hbodies).imp fun t' b _ hc b' hb' => ?_)
      cases hb'
      exact hc
  refine Yields.ite_bind (hbody.bind fun body t₂ hg₂ hs₂ hbody => ?_)
  refine (yields_responses hn ho hs₂ hg).bind fun answers t₃ hg₃ hs₃ ⟨hne, hnodup, hall⟩ => ?_
  refine .pure hs₃ {
    parameters := fun p hp => ?_
    declared := declared_undeclared (template route.path) declared.flatten
    body := fun b hb => (hbody b hb).grow hn hg₃
    answered := hne
    distinct := hnodup
    answers := hall
    security := fun rs hrs => ?_
    extensions := rfl }
  · rcases List.mem_append.mp hp with hp | hp
    · obtain ⟨name, -, rfl⟩ := List.mem_map.mp hp
      exact soundParameter_undeclared hn name
    · obtain ⟨ps, hps, hp⟩ := List.mem_flatten.mp hp
      exact (hdeclared ps hps p hp).grow hn (hg₂.trans hg₃)
  · dsimp only at hrs
    split at hrs
    · cases hrs
    · exact (Option.some.inj hrs).symm

/-! ### Versions -/

/-- A path of the route's operations: its template, or that behind a version. -/
def PathOf (versioning : Versioning) (route : Route) (path : String) : Prop :=
  path = template route.path ∨ ∃ version ∈ route.versions,
    path = versionPath (versionSegment versioning.mark version) (template route.path)

/-- An operation that a route offers at a path. -/
structure Offers (N : SchemaTable → Schema → Prop) (versioning : Versioning) (route : Route)
    (t : SchemaTable) (offer : String × Method × Operation) : Prop where
  path : PathOf versioning route offer.1
  operation : SoundOperation N route t offer.2.2

theorem Offers.grow (hg : Extends t t') {versioning : Versioning} {route : Route}
    {offer : String × Method × Operation} (h : Offers N versioning route t offer) :
    Offers N versioning route t' offer :=
  ⟨h.path, h.operation.grow hn hg⟩

omit hn in
theorem soundParameter_version (ho : OperationNodes N) (headerName : String)
    (versions : List String) : SoundParameter N t (versionParameter headerName versions) := by
  refine ⟨fun _ => rfl, fun hc => (by cases hc), fun s hs => ?_⟩
  have hs : s = { Schema.ofType "string" with enumValues := some (versions.map .str) } := by
    simpa [Parameter.schemas, versionParameter] using hs
  rw [hs]
  exact Schema.all_of_childless rfl (ho.selector versions)

/-- All operations of a route are sound. -/
theorem yields_operations (ho : OperationNodes N) (hs : Sound N t) (versioning : Versioning)
    {route : Route} (hg : GoodRoute Good route) :
    Yields N t (operations registry versioning route)
      fun t' offers => ∀ o ∈ offers, Offers N versioning route t' o := by
  refine (yields_operationAt hn ho hs hg).bind fun op t₁ _ hs₁ hop => ?_
  split
  · refine .pure hs₁ fun o ho' => ?_
    rw [List.mem_singleton.mp ho']
    exact ⟨.inl rfl, hop⟩
  · split
    · refine .pure hs₁ fun o ho' => ?_
      obtain ⟨version, hv, rfl⟩ := List.mem_map.mp ho'
      exact ⟨.inr ⟨version, hv, rfl⟩, { hop with }⟩
    · refine .pure hs₁ fun o ho' => ?_
      rw [List.mem_singleton.mp ho']
      refine ⟨.inl rfl, { hop with parameters := fun p hp => ?_, declared := fun name hname => ?_ }⟩
      · rcases List.mem_append.mp hp with hp | hp
        · exact hop.parameters p hp
        · rw [List.mem_singleton.mp hp]
          exact soundParameter_version ho _ _
      · rw [pathNames, List.filterMap_append]
        exact List.mem_append_left _ (hop.declared name hname)

end Rules
end TypedApi.Route
