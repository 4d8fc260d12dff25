import TypedApi.Proofs.Route.Operation
import TypedApi.Route.Assembly

/-! The document of a manifest.

Every operation of the document is one that a route offers at its path (`offered_document`),
and it stands at the table of all conversions, whose schemas are the components. -/
namespace TypedApi.Route

open OpenApi SchemaTable

/-! ### Adding operations -/

/-- Each path has one item and comes from an offer, and each operation of an item is among
the offers. -/
structure Collected (offers : List (String × Method × Operation)) (d : Document) : Prop where
  distinct : (d.paths.map (·.1)).Nodup
  unshared : ∀ e ∈ d.paths, e.2.parameters = []
  pathed : ∀ e ∈ d.paths, ∃ o ∈ offers, o.1 = e.1
  offered : ∀ e ∈ d.paths, ∀ m, ∀ op ∈ e.2.operation? m, (e.1, m, op) ∈ offers

theorem parameters_withOperation (item : PathItem) (m : Method) (op : Option Operation) :
    (item.withOperation m op).parameters = item.parameters := by
  cases m <;> rfl

/-- An operation is added, or the document stays as it is. -/
theorem addOperation_cases (d : Document) (path : String) (m : Method) (op : Operation) :
    addOperation d path m op = d ∨
    addOperation d path m op = { d with
      paths := Json.assign path (((d.paths.lookup path).getD {}).withOperation m (some op)) d.paths
      tags := addTags d.tags op.tags } := by
  unfold addOperation
  dsimp only
  split
  · exact .inl rfl
  · exact .inr rfl

theorem Collected.addOperation {offers : List (String × Method × Operation)} {d : Document}
    (h : Collected offers d) {path : String} {m : Method} {op : Operation}
    (hm : (path, m, op) ∈ offers) : Collected offers (addOperation d path m op) := by
  have hitem : ((d.paths.lookup path).getD {}).parameters = [] ∧
      ∀ n, ∀ op ∈ ((d.paths.lookup path).getD {}).operation? n, (path, n, op) ∈ offers := by
    cases hl : d.paths.lookup path with
    | none =>
      refine ⟨rfl, fun n op hop => ?_⟩
      cases n <;> cases hop
    | some item =>
      have he := Json.mem_of_lookup hl
      exact ⟨h.unshared _ he, h.offered _ he⟩
  rcases addOperation_cases d path m op with heq | heq <;> rw [heq]
  · exact h
  · refine ⟨Json.nodup_keys_assign h.distinct, fun e he => ?_, fun e he => ?_,
      fun e he n op' hop => ?_⟩
    · rcases Json.mem_assign h.distinct he with rfl | ⟨he, -⟩
      · exact (parameters_withOperation _ _ _).trans hitem.1
      · exact h.unshared e he
    · rcases Json.mem_assign h.distinct he with rfl | ⟨he, -⟩
      · exact ⟨_, hm, rfl⟩
      · exact h.pathed e he
    · rcases Json.mem_assign h.distinct he with rfl | ⟨he, -⟩
      · by_cases hnm : n = m
        · subst hnm
          rw [PathItem.operation?_withOperation_self] at hop
          cases hop
          exact hm
        · rw [PathItem.operation?_withOperation_of_ne _ hnm] at hop
          exact hitem.2 n op' hop
      · exact h.offered e he n op' hop

/-- The two documents differ in their paths and tags only. -/
structure SameFrame (d d' : Document) : Prop where
  openapi : d'.openapi = d.openapi
  info : d'.info = d.info
  servers : d'.servers = d.servers
  extensions : d'.extensions = d.extensions

theorem SameFrame.trans {d d' d'' : Document} (h : SameFrame d d') (g : SameFrame d' d'') :
    SameFrame d d'' :=
  ⟨g.openapi.trans h.openapi, g.info.trans h.info, g.servers.trans h.servers,
    g.extensions.trans h.extensions⟩

theorem sameFrame_addOperation (d : Document) (path : String) (m : Method) (op : Operation) :
    SameFrame d (addOperation d path m op) := by
  rcases addOperation_cases d path m op with heq | heq <;> rw [heq] <;> exact ⟨rfl, rfl, rfl, rfl⟩

theorem sameFrame_foldl (os : List (String × Method × Operation)) (d : Document) :
    SameFrame d (os.foldl (fun d (path, method, op) => addOperation d path method op) d) := by
  induction os generalizing d with
  | nil => exact ⟨rfl, rfl, rfl, rfl⟩
  | cons o os ih => exact (sameFrame_addOperation d o.1 o.2.1 o.2.2).trans (ih _)

theorem collected_foldl {offers : List (String × Method × Operation)} {d : Document}
    (h : Collected offers d) {os : List (String × Method × Operation)} (hs : os ⊆ offers) :
    Collected offers (os.foldl (fun d (path, method, op) => addOperation d path method op) d) := by
  induction os generalizing d with
  | nil => exact h
  | cons o os ih =>
    exact ih (h.addOperation (hs List.mem_cons_self)) fun x hx => hs (List.mem_cons_of_mem _ hx)

/-! ### All routes -/

/-- The table after all conversions of a manifest, and the operations that its routes offer. -/
def compiled (m : Manifest) (options : DocumentOptions) :
    List (String × Method × Operation) × SchemaTable :=
  (allOperations m.types options.versioning m.routes).run {}

/-- The types of a manifest are such as `Good` says. -/
def GoodManifest (Good : SourceType → Prop) (m : Manifest) : Prop :=
  ∀ route ∈ m.routes, GoodRoute Good route

/-- The route gives this operation, from some table on. -/
def GivenBy (registry : Registry) (versioning : Versioning) (route : Route)
    (offer : String × Method × Operation) : Prop :=
  ∃ t, offer ∈ ((operations registry versioning route).run t).1

section Rules

variable {N : SchemaTable → Schema → Prop} {Good : SourceType → Prop} {m : Manifest}

theorem yields_allOperations (hn : Nodewise m.types Good N) (ho : OperationNodes N)
    (versioning : Versioning) (hg : GoodManifest Good m) :
    Yields N {} (allOperations m.types versioning m.routes)
      fun t offers => ∀ o ∈ offers, ∃ route ∈ m.routes, Offers N versioning route t o ∧
        GivenBy m.types versioning route o := by
  refine (Yields.mapM_all
    (Q := fun t offers => ∀ o ∈ offers, ∃ route ∈ m.routes, Offers N versioning route t o ∧
      GivenBy m.types versioning route o)
    (fun _ _ _ hgrow h o hm => ?_) (fun route hr t hs => ?_) (sound_fresh N)).bind
    fun offers t _ hs hall => .pure hs fun o hm => ?_
  · obtain ⟨route, hr, hoffer, hgiven⟩ := h o hm
    exact ⟨route, hr, hoffer.grow hn hgrow, hgiven⟩
  · exact (yields_operations hn ho hs versioning (hg route hr)).traced.imp
      fun t' os _ ⟨h, t₀, hos⟩ o hm => ⟨route, hr, h o hm, t₀, hos ▸ hm⟩
  · obtain ⟨os, hos, hm⟩ := List.mem_flatten.mp hm
    exact hall os hos o hm

/-- The document before any operation is added. -/
def blank (options : DocumentOptions) : Document where
  info := {
    title := options.title
    version := options.version
    description := options.description }
  servers := options.servers

/-- What the document of a manifest consists of. -/
structure Assembled (N : SchemaTable → Schema → Prop) (m : Manifest) (options : DocumentOptions)
    (t : SchemaTable) (d : Document) : Prop where
  openapi : d.openapi = openApiVersion
  info : d.info = (blank options).info
  servers : d.servers = options.servers
  extensions : d.extensions = []
  components : d.components = if t.named.isEmpty then none else some { schemas := t.named }
  table : Sound N t
  distinct : (d.paths.map (·.1)).Nodup
  unshared : ∀ e ∈ d.paths, e.2.parameters = []
  pathed : ∀ e ∈ d.paths, ∃ route ∈ m.routes, PathOf options.versioning route e.1
  /-- Every operation is offered by a route, at its path. -/
  offered : ∀ e ∈ d.paths, ∀ method, ∀ op ∈ e.2.operation? method, ∃ route ∈ m.routes,
    Offers N options.versioning route t (e.1, method, op) ∧
      GivenBy m.types options.versioning route (e.1, method, op)

theorem assembled_document (hn : Nodewise m.types Good N) (ho : OperationNodes N)
    (hg : GoodManifest Good m) (options : DocumentOptions) :
    Assembled N m options (compiled m options).2 (m.document options) := by
  obtain ⟨hs, -, hoffers⟩ := yields_allOperations hn ho options.versioning hg
  have hempty : Collected (compiled m options).1 (blank options) :=
    ⟨List.nodup_nil, by simp [blank], by simp [blank], by simp [blank]⟩
  have hcollected := collected_foldl hempty (List.Subset.refl _)
  have hframe := sameFrame_foldl (compiled m options).1 (blank options)
  exact {
    openapi := hframe.openapi
    info := hframe.info
    servers := hframe.servers
    extensions := hframe.extensions
    components := rfl
    table := hs
    distinct := hcollected.distinct
    unshared := hcollected.unshared
    pathed := fun e he => by
      obtain ⟨o, ho', hpath⟩ := hcollected.pathed e he
      obtain ⟨route, hr, hoffer, -⟩ := hoffers o ho'
      exact ⟨route, hr, hpath ▸ hoffer.path⟩
    offered := fun e he method op hop => hoffers _ (hcollected.offered e he method op hop) }

end Rules
end TypedApi.Route
