import TypedApi.Proofs.OpenApi.DocumentRecovery

/-! Documents that can be written and read.

A schema is `Clean` when everything it holds can stand in a text: its values are readable,
its sizes have 64 bits and no key comes twice. The value of a document whose schemas are
clean is readable (`Document.Clean.readable`). If besides no schema has the constant null,
the document is faithful (`Document.Clean.faithful`). -/
namespace TypedApi.OpenApi

open Json Json.Fields

theorem readable_texts (ss : List String) : (texts ss).Readable := by
  refine .arr fun v hv => ?_
  obtain ⟨s, -, rfl⟩ := List.mem_map.mp hv
  exact .str s

theorem readable_nat {n : Nat} (h : n < 2 ^ 64) : (Json.ofNat n).Readable := by
  refine .num ?_
  show -(2 ^ 63) ≤ (n : Int) ∧ (n : Int) < 2 ^ 64
  omega

theorem readable_table {α : Type} {encode : α → Json} {entries : List (String × α)}
    (hn : (entries.map (·.1)).Nodup) (h : ∀ e ∈ entries, (encode e.2).Readable) :
    (tableJson encode entries).Readable := by
  refine .obj ?_ fun m hm => ?_
  · rwa [List.map_map]
  · obtain ⟨e, he, rfl⟩ := List.mem_map.mp hm
    exact h e he

theorem readable_list {α : Type} {encode : α → Json} {xs : List α}
    (h : ∀ x ∈ xs, (encode x).Readable) : (listJson encode xs).Readable := by
  refine .arr fun v hv => ?_
  obtain ⟨x, hx, rfl⟩ := List.mem_map.mp hv
  exact h x hx

/-! ### Schemas -/

namespace Schema

/-- A number keyword of a schema. -/
def numbers (s : Schema) : List Number :=
  s.minimum.toList ++ s.maximum.toList ++ s.exclusiveMinimum.toList ++ s.exclusiveMaximum.toList ++
    s.multipleOf.toList

def sizes (s : Schema) : List Nat :=
  s.minItems.toList ++ s.maxItems.toList ++ s.minLength.toList ++ s.maxLength.toList

/-- All that the node holds can stand in a text. -/
structure Clean (s : Schema) : Prop where
  numbers : ∀ n ∈ s.numbers, n.Readable
  sizes : ∀ n ∈ s.sizes, n < 2 ^ 64
  values : ∀ vs ∈ s.enumValues, ∀ v ∈ vs, v.Readable
  const : ∀ v ∈ s.constValue, v.Readable
  default : ∀ v ∈ s.default, v.Given
  example? : ∀ v ∈ s.example?, v.Given
  properties : ∀ ps ∈ s.properties, (ps.map (·.1)).Nodup
  mapping : ∀ d ∈ s.discriminator, ∀ m ∈ d.mapping, (m.map (·.1)).Nodup
  extensions : s.PlainExtensions
  separate : (s.extensions.map (·.1)).Nodup
  extended : ∀ e ∈ s.extensions, e.2.Readable

/-- No constant of the node is null. -/
def Solid (s : Schema) : Prop := s.constValue ≠ some .null

theorem Clean.faithful {s : Schema} (h : s.Clean) (hc : s.Solid) : s.Faithful where
  const := hc
  default hd := (h.default _ hd).2 rfl
  example? he := (h.example? _ he).2 rfl
  minItems n hn := h.sizes n (by simp [Schema.sizes, show s.minItems = some n from hn])
  maxItems n hn := h.sizes n (by simp [Schema.sizes, show s.maxItems = some n from hn])
  minLength n hn := h.sizes n (by simp [Schema.sizes, show s.minLength = some n from hn])
  maxLength n hn := h.sizes n (by simp [Schema.sizes, show s.maxLength = some n from hn])
  extensions := h.extensions

theorem readable_discriminator {d : Discriminator} (h : ∀ m ∈ d.mapping, (m.map (·.1)).Nodup) :
    d.encode.Readable := by
  rw [Discriminator.encode_eq_shape]
  refine Shape.readable_closed rfl (show ["propertyName", "mapping"].Nodup by decide) ?_
  simp only [Discriminator.shape, List.forall_mem_cons]
  refine ⟨fun b _ => .str _, fun m hm => ?_, List.forall_mem_nil _⟩
  exact readable_table (h m hm) fun e _ => .str e.2

/-- The value of a schema is readable when the node is clean and the schemas in it are readable. -/
theorem Clean.readable_of_children {s : Schema} (h : s.Clean)
    (hc : ∀ c ∈ s.children, c.encode.Readable) : s.encode.Readable := by
  have hplaced := placed hc
  have hnumber : ∀ {o : Option Number}, (∀ n ∈ o, n ∈ s.numbers) → ∀ n ∈ o, (Json.num n).Readable :=
    fun ho n hn => .num (h.numbers n (ho n hn))
  have hsize : ∀ {o : Option Nat}, (∀ n ∈ o, n ∈ s.sizes) → ∀ n ∈ o, (Json.ofNat n).Readable :=
    fun ho n hn => readable_nat (h.sizes n (ho n hn))
  have hproperties : ∀ ps ∈ s.properties, (tableJson encode ps).Readable := fun ps hps =>
    readable_table (h.properties ps hps) (hplaced.properties ps hps)
  have hadditional : ∀ a ∈ s.additional, a.encode.Readable := by
    intro a ha
    cases a with
    | bool b => exact .bool b
    | schema c => exact hplaced.additional (.schema c) ha c rfl
  have htype : ∀ t ∈ s.type, t.encode.Readable := by
    intro t _
    cases t with
    | single n => exact .str n
    | multiple ns => exact readable_texts ns
  rw [encode_eq_shape]
  refine Shape.readable_encode (show keywords.Nodup from nodup_keywords) ?_ h.separate
    h.extensions h.extended
  simp only [shape, List.forall_mem_cons]
  refine ⟨fun x _ => .str x, htype, fun x _ => .str x, fun x _ => .str x, fun x _ => .str x,
    hproperties, fun x _ => readable_texts x, hadditional, hplaced.items,
    fun cs hcs => readable_list (hplaced.prefixItems cs hcs), ?minItems,
    ?maxItems, fun x _ => .bool x, fun vs hvs => .arr (h.values vs hvs), h.const,
    fun cs hcs => readable_list (hplaced.anyOf cs hcs),
    fun cs hcs => readable_list (hplaced.oneOf cs hcs),
    fun cs hcs => readable_list (hplaced.allOf cs hcs), hplaced.negated, fun d hd => readable_discriminator (h.mapping d hd), fun x _ => .bool x,
    fun x _ => .bool x, fun x _ => .bool x, fun v hv => (h.default v hv).1,
    fun v hv => (h.example? v hv).1, ?minimum, ?maximum, ?exclusiveMinimum, ?exclusiveMaximum,
    ?multipleOf, ?minLength, ?maxLength, fun x _ => .str x, fun x _ => .str x, hplaced.contentSchema,
    List.forall_mem_nil _⟩
  case minItems => exact hsize fun n hn => by simp [Schema.sizes, show s.minItems = some n from hn]
  case maxItems => exact hsize fun n hn => by simp [Schema.sizes, show s.maxItems = some n from hn]
  case minLength => exact hsize fun n hn => by simp [Schema.sizes, show s.minLength = some n from hn]
  case maxLength => exact hsize fun n hn => by simp [Schema.sizes, show s.maxLength = some n from hn]
  case minimum => exact hnumber fun n hn => by simp [Schema.numbers, show s.minimum = some n from hn]
  case maximum => exact hnumber fun n hn => by simp [Schema.numbers, show s.maximum = some n from hn]
  case exclusiveMinimum =>
    exact hnumber fun n hn => by simp [Schema.numbers, show s.exclusiveMinimum = some n from hn]
  case exclusiveMaximum =>
    exact hnumber fun n hn => by simp [Schema.numbers, show s.exclusiveMaximum = some n from hn]
  case multipleOf => exact hnumber fun n hn => by simp [Schema.numbers, show s.multipleOf = some n from hn]

/-- The value of a schema whose nodes are clean is readable. -/
theorem All.readable {s : Schema} (h : s.All Clean) : s.encode.Readable := by
  induction h with
  | intro hs _ ih => exact Clean.readable_of_children hs ih

theorem All.faithful {s : Schema} (h : s.All Clean) (hs : s.All Solid) : s.All Faithful :=
  (h.and hs).imp fun _ hu => hu.1.faithful hu.2

end Schema

/-! ### Documents -/

/-- All schemas of a list are clean. -/
def AllClean (ss : List Schema) : Prop := ∀ s ∈ ss, s.All Schema.Clean

/-- No schema of a list has the constant null, at any depth. -/
def AllSolid (ss : List Schema) : Prop := ∀ s ∈ ss, s.All Schema.Solid

theorem readable_parameter {p : Parameter} (h : AllClean p.schemas) : p.encode.Readable := by
  rw [Parameter.encode_eq_shape]
  refine Shape.readable_closed rfl (show Parameter.layout.known.Nodup by decide) ?_
  simp only [Parameter.shape, List.forall_mem_cons]
  exact ⟨fun _ _ => .str _, fun _ _ => .str _, fun _ _ => .str _, fun _ _ => .bool _,
    fun _ _ => .bool _, fun _ _ => .str _, fun _ _ => .bool _,
    fun s hs => (h s (Option.mem_toList.mpr hs)).readable, List.forall_mem_nil _⟩

structure MediaType.Clean (m : MediaType) : Prop where
  example? : ∀ v ∈ m.example?, v.Given
  schemas : AllClean m.schemas

theorem MediaType.Clean.readable {m : MediaType} (h : m.Clean) : m.encode.Readable := by
  rw [MediaType.encode_eq_shape]
  refine Shape.readable_closed rfl (show MediaType.layout.known.Nodup by decide) ?_
  simp only [MediaType.shape, List.forall_mem_cons]
  exact ⟨fun s hs => (h.schemas s (List.mem_append_left _ (Option.mem_toList.mpr hs))).readable,
    fun s hs => (h.schemas s (List.mem_append_right _ (Option.mem_toList.mpr hs))).readable,
    fun v hv => (h.example? v hv).1, List.forall_mem_nil _⟩

theorem MediaType.Clean.faithful {m : MediaType} (h : m.Clean) (hs : AllSolid m.schemas) :
    m.Faithful where
  example? hn := (h.example? _ hn).2 rfl
  schemas s hm := (h.schemas s hm).faithful (hs s hm)

/-- Contents by media type. -/
structure CleanContent (content : List (String × MediaType)) : Prop where
  distinct : (content.map (·.1)).Nodup
  media : ∀ m ∈ content, m.2.Clean

theorem CleanContent.readable {content : List (String × MediaType)} (h : CleanContent content) :
    (tableJson MediaType.encode content).Readable :=
  readable_table h.distinct fun m hm => (h.media m hm).readable

theorem CleanContent.faithful {content : List (String × MediaType)} (h : CleanContent content)
    (hs : AllSolid (contentSchemas content)) : ∀ m ∈ content, m.2.Faithful := fun m hm =>
  (h.media m hm).faithful fun s hsm => hs s (List.mem_flatMap.mpr ⟨m, hm, hsm⟩)

theorem readable_requestBody {b : RequestBody} (h : CleanContent b.content) : b.encode.Readable := by
  rw [RequestBody.encode_eq_shape]
  refine Shape.readable_closed rfl (show RequestBody.layout.known.Nodup by decide) ?_
  simp only [RequestBody.shape, List.forall_mem_cons]
  refine ⟨fun _ _ => .str _, fun c hc => ?_, fun _ _ => .bool _, List.forall_mem_nil _⟩
  cases hc
  exact h.readable

theorem readable_response {r : Response} (h : ∀ c ∈ r.content, CleanContent c) :
    r.encode.Readable := by
  rw [Response.encode_eq_shape]
  refine Shape.readable_closed rfl (show Response.layout.known.Nodup by decide) ?_
  simp only [Response.shape, List.forall_mem_cons]
  exact ⟨fun _ _ => .str _, fun c hc => (h c hc).readable, List.forall_mem_nil _⟩

structure Operation.Clean (o : Operation) : Prop where
  parameters : ∀ p ∈ o.parameters, AllClean p.schemas
  body : ∀ b ∈ o.requestBody, CleanContent b.content
  distinct : (o.responses.map (·.1)).Nodup
  responses : ∀ r ∈ o.responses, ∀ c ∈ r.2.content, CleanContent c
  security : ∀ rs ∈ o.security, ∀ r ∈ rs, (r.map (·.1)).Nodup
  extensions : ∀ e ∈ o.extensions, e.1 ∉ Operation.layout.known
  separate : (o.extensions.map (·.1)).Nodup
  extended : ∀ e ∈ o.extensions, e.2.Readable

theorem mem_listed {β : Type} {key : String} {values b : List β} {encode : List β → Json}
    (h : b ∈ (Slot.listed key values encode).value) : b = values := by
  have h : (if values.isEmpty then none else some values) = some b := h
  split at h
  · cases h
  · exact (Option.some.inj h).symm

theorem Operation.Clean.readable {o : Operation} (h : o.Clean) : o.encode.Readable := by
  rw [Operation.encode_eq_shape]
  refine Shape.readable_encode (show Operation.layout.known.Nodup by decide) ?_ h.separate
    h.extensions h.extended
  simp only [Operation.shape, List.forall_mem_cons]
  refine ⟨fun _ _ => readable_texts _, fun _ _ => .str _, fun _ _ => .str _, fun _ _ => .str _,
    fun ps hps => ?_, fun b hb => readable_requestBody (h.body b hb), fun rs hrs => ?_,
    fun _ _ => .bool _, fun rs hrs => ?_, List.forall_mem_nil _⟩
  · rw [mem_listed hps]
    exact readable_list fun p hp => readable_parameter (h.parameters p hp)
  · cases hrs
    exact readable_table h.distinct fun r hr => readable_response (h.responses r hr)
  · exact readable_list fun r hr => readable_table (h.security rs hrs r hr) fun _ _ => readable_texts _

theorem Operation.Clean.faithful {o : Operation} (h : o.Clean) (hs : AllSolid o.schemas) :
    o.Faithful where
  parameters p hp s hsp := by
    refine (h.parameters p hp s hsp).faithful (hs s ?_)
    exact List.mem_append_left _ (List.mem_append_left _ (List.mem_flatMap.mpr ⟨p, hp, hsp⟩))
  body b hb := by
    refine (h.body b hb).faithful fun s hsb => hs s ?_
    exact List.mem_append_left _ (List.mem_append_right _
      (List.mem_flatMap.mpr ⟨b, Option.mem_toList.mpr hb, hsb⟩))
  responses r hr c hc := by
    refine (h.responses r hr c hc).faithful fun s hsc => hs s ?_
    refine List.mem_append_right _ (List.mem_flatMap.mpr ⟨r, hr, ?_⟩)
    rwa [Response.schemas, show r.2.content = some c from hc]
  extensions := h.extensions

structure PathItem.Clean (i : PathItem) : Prop where
  parameters : ∀ p ∈ i.parameters, AllClean p.schemas
  operations : ∀ m, ∀ o ∈ i.operation? m, o.Clean

theorem PathItem.Clean.readable {i : PathItem} (h : i.Clean) : i.encode.Readable := by
  rw [PathItem.encode_eq_shape]
  refine Shape.readable_closed rfl (show PathItem.layout.known.Nodup by decide) ?_
  intro slot hslot
  rcases List.mem_cons.mp hslot with rfl | hslot
  · intro ps hps
    rw [mem_listed hps]
    exact readable_list fun p hp => readable_parameter (h.parameters p hp)
  · obtain ⟨m, -, rfl⟩ := List.mem_map.mp hslot
    exact fun o ho => (h.operations m o ho).readable

theorem PathItem.Clean.faithful {i : PathItem} (h : i.Clean) (hs : AllSolid i.schemas) :
    i.Faithful where
  parameters p hp s hsp := by
    refine (h.parameters p hp s hsp).faithful (hs s ?_)
    exact List.mem_append_left _ (List.mem_flatMap.mpr ⟨p, hp, hsp⟩)
  operations m o ho := by
    refine (h.operations m o ho).faithful fun s hso => hs s (List.mem_append_right _ ?_)
    exact List.mem_flatMap.mpr ⟨m, Method.mem_all m,
      List.mem_flatMap.mpr ⟨o, Option.mem_toList.mpr ho, hso⟩⟩

structure Components.Clean (c : Components) : Prop where
  distinct : (c.schemas.map (·.1)).Nodup
  schemas : AllClean (c.schemas.map (·.2))
  schemes : (Json.obj c.securitySchemes).Readable

theorem Components.Clean.readable {c : Components} (h : c.Clean) : c.encode.Readable := by
  rw [Components.encode_eq_shape]
  refine Shape.readable_closed rfl (show Components.layout.known.Nodup by decide) ?_
  simp only [Components.shape, List.forall_mem_cons]
  refine ⟨fun ss hss => ?_, fun vs hvs => ?_, List.forall_mem_nil _⟩
  · rw [mem_listed hss]
    exact readable_table h.distinct fun e he => (h.schemas e.2 (List.mem_map_of_mem he)).readable
  · rw [mem_listed hvs]
    exact h.schemes

structure Document.Clean (d : Document) : Prop where
  distinct : (d.paths.map (·.1)).Nodup
  paths : ∀ e ∈ d.paths, e.2.Clean
  components : ∀ c ∈ d.components, c.Clean
  extensions : ∀ e ∈ d.extensions, e.1 ∉ Document.layout.known
  separate : (d.extensions.map (·.1)).Nodup
  extended : ∀ e ∈ d.extensions, e.2.Readable

theorem readable_info (i : Info) : i.encode.Readable := by
  rw [Info.encode_eq_shape]
  refine Shape.readable_closed rfl (show Info.layout.known.Nodup by decide) ?_
  simp only [Info.shape, List.forall_mem_cons]
  exact ⟨fun _ _ => .str _, fun _ _ => .str _, fun _ _ => .str _, List.forall_mem_nil _⟩

theorem readable_server (s : Server) : s.encode.Readable := by
  rw [Server.encode_eq_shape]
  refine Shape.readable_closed rfl (show Server.layout.known.Nodup by decide) ?_
  simp only [Server.shape, List.forall_mem_cons]
  exact ⟨fun _ _ => .str _, fun _ _ => .str _, List.forall_mem_nil _⟩

theorem readable_tag (t : Tag) : t.encode.Readable := by
  rw [Tag.encode_eq_shape]
  refine Shape.readable_closed rfl (show Tag.layout.known.Nodup by decide) ?_
  simp only [Tag.shape, List.forall_mem_cons]
  exact ⟨fun _ _ => .str _, fun _ _ => .str _, List.forall_mem_nil _⟩

/-- The value of a clean document is readable. -/
theorem Document.Clean.readable {d : Document} (h : d.Clean) : d.encode.Readable := by
  rw [Document.encode_eq_shape]
  refine Shape.readable_encode (show Document.layout.known.Nodup by decide) ?_ h.separate
    h.extensions h.extended
  simp only [Document.shape, List.forall_mem_cons]
  refine ⟨fun _ _ => .str _, fun i _ => readable_info i, fun ss hss => ?_, fun ps hps => ?_,
    fun c hc => (h.components c hc).readable, fun ts hts => ?_, List.forall_mem_nil _⟩
  · rw [mem_listed hss]
    exact readable_list fun s _ => readable_server s
  · cases hps
    exact readable_table h.distinct fun e he => (h.paths e he).readable
  · rw [mem_listed hts]
    exact readable_list fun t _ => readable_tag t

/-- A clean document without the constant null is faithful. -/
theorem Document.Clean.faithful {d : Document} (h : d.Clean) (hs : AllSolid d.schemas) :
    d.Faithful where
  paths e he := (h.paths e he).faithful fun s hse =>
    hs s (List.mem_append_left _ (List.mem_flatMap.mpr ⟨e, he, hse⟩))
  components c hc e he := by
    refine ((h.components c hc).schemas e.2 (List.mem_map_of_mem he)).faithful (hs e.2 ?_)
    refine List.mem_append_right _ (List.mem_flatMap.mpr ⟨c, Option.mem_toList.mpr hc, ?_⟩)
    exact List.mem_map_of_mem he
  extensions := h.extensions

/-- A clean document without the constant null that nests no deeper than the limit is read
back from its text if its numbers are. -/
theorem Document.Clean.ofText_toText {d : Document} (h : d.Clean) (hs : AllSolid d.schemas)
    (hd : d.encode.depth ≤ nestingLimit) (hn : ∀ n ∈ d.encode.numbers, n.ReadsBack) :
    Document.ofText d.toText = .ok d :=
  Document.ofText_toText h.readable (h.faithful hs) hd hn

end TypedApi.OpenApi
