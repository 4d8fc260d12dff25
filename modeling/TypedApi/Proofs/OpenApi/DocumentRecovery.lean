import TypedApi.Proofs.OpenApi.Document
import TypedApi.Proofs.OpenApi.SchemaRecovery

/-! Documents come back from what they are written as.

Each kind of record has a shape, and its layout refills it. A document is read back when its
value is readable, its schemas are faithful, and no example of a media type says null. -/
namespace TypedApi.OpenApi

open Json Json.Fields

/-! ### Small records -/

def Info.shape : Shape Info where
  slots i := [
    .required "title" i.title .str,
    .required "version" i.version .str,
    .optional "description" i.description .str]

theorem Info.encode_eq_shape (i : Info) : i.encode = Info.shape.encode i := by
  rw [Shape.encode_closed rfl]
  simp only [Info.encode, always_eq_ofSlots, present_eq_ofSlots, ← ofSlots_append]
  rfl

theorem Info.whole_shape {i q : Info} (h : shape.slots q = shape.slots i) : q = i := by
  cases i
  cases q
  simpa [shape, Slot.required, Slot.optional] using h

theorem Info.recovers (i : Info) : Recovers Info.layout.decode Info.encode i := by
  rw [Recovers, Info.encode_eq_shape]
  refine (Refills.of_closed rfl (by decide)
    (.cons Slot.ready_required (.cons Slot.ready_required (.cons Slot.ready_optional .nil)))
    ?_ ?_ ?_).recovers
  · refine .cons (Slot.refills_required (fun i x => { i with title := x }) (.text _)) ?_
    refine .cons (Slot.refills_required (fun i x => { i with version := x }) (.text _)) ?_
    refine .cons (Slot.refills_optional (fun i x => { i with description := x })
      fun x _ => .text x) ?_
    exact .nil
  · simp [Info.layout, Slot.required, Slot.optional]
  · exact fun _ h => Info.whole_shape h

def Server.shape : Shape Server where
  slots s := [.required "url" s.url .str, .optional "description" s.description .str]

theorem Server.encode_eq_shape (s : Server) : s.encode = Server.shape.encode s := by
  rw [Shape.encode_closed rfl]
  simp only [Server.encode, always_eq_ofSlots, present_eq_ofSlots, ← ofSlots_append]
  rfl

theorem Server.whole_shape {s q : Server} (h : shape.slots q = shape.slots s) : q = s := by
  cases s
  cases q
  simpa [shape, Slot.required, Slot.optional] using h

theorem Server.recovers (s : Server) : Recovers Server.layout.decode Server.encode s := by
  rw [Recovers, Server.encode_eq_shape]
  refine (Refills.of_closed rfl (by decide) (.cons Slot.ready_required (.cons Slot.ready_optional .nil))
    ?_ ?_ ?_).recovers
  · refine .cons (Slot.refills_required (fun s x => { s with url := x }) (.text _)) ?_
    refine .cons (Slot.refills_optional (fun s x => { s with description := x })
      fun x _ => .text x) ?_
    exact .nil
  · simp [Server.layout, Slot.required, Slot.optional]
  · exact fun _ h => Server.whole_shape h

def Tag.shape : Shape Tag where
  slots t := [.required "name" t.name .str, .optional "description" t.description .str]

theorem Tag.encode_eq_shape (t : Tag) : t.encode = Tag.shape.encode t := by
  rw [Shape.encode_closed rfl]
  simp only [Tag.encode, always_eq_ofSlots, present_eq_ofSlots, ← ofSlots_append]
  rfl

theorem Tag.whole_shape {t q : Tag} (h : shape.slots q = shape.slots t) : q = t := by
  cases t
  cases q
  simpa [shape, Slot.required, Slot.optional] using h

theorem Tag.recovers (t : Tag) : Recovers Tag.layout.decode Tag.encode t := by
  rw [Recovers, Tag.encode_eq_shape]
  refine (Refills.of_closed rfl (by decide) (.cons Slot.ready_required (.cons Slot.ready_optional .nil))
    ?_ ?_ ?_).recovers
  · refine .cons (Slot.refills_required (fun t x => { t with name := x }) (.text _)) ?_
    refine .cons (Slot.refills_optional (fun t x => { t with description := x })
      fun x _ => .text x) ?_
    exact .nil
  · simp [Tag.layout, Slot.required, Slot.optional]
  · exact fun _ h => Tag.whole_shape h

/-! ### Parameters and contents -/

def Parameter.shape : Shape Parameter where
  slots p := [
    .required "name" p.name .str,
    .required "in" p.location fun l => .str l.name,
    .optional "description" p.description .str,
    .optional "required" p.required .bool,
    .optional "deprecated" p.deprecated .bool,
    .optional "style" p.style .str,
    .optional "explode" p.explode .bool,
    .optional "schema" p.schema Schema.encode]

theorem Parameter.encode_eq_shape (p : Parameter) : p.encode = Parameter.shape.encode p := by
  rw [Shape.encode_closed rfl]
  simp only [Parameter.encode, always_eq_ofSlots, present_eq_ofSlots, ← ofSlots_append]
  rfl

theorem Parameter.whole_shape {p q : Parameter} (h : shape.slots q = shape.slots p) : q = p := by
  cases p
  cases q
  simpa [shape, Slot.required, Slot.optional] using h

/-- All schemas of a parameter are faithful. -/
def Parameter.Faithful (p : Parameter) : Prop := ∀ s ∈ p.schemas, s.All Schema.Faithful

theorem Parameter.recovers {p : Parameter} (hr : p.encode.Readable) (hf : p.Faithful) :
    Recovers Parameter.layout.decode Parameter.encode p := by
  rw [Parameter.encode_eq_shape] at hr
  rw [Recovers, Parameter.encode_eq_shape]
  have hschema : ∀ s ∈ p.schema, Recovers Schema.decode Schema.encode s := fun s hs =>
    Schema.recovers (Shape.readable_optional hr "schema" (by simp [Parameter.shape]) s hs)
      (hf s (Option.mem_toList.mpr hs))
  refine (Refills.of_closed rfl (by decide)
    (by repeat' first
      | exact .nil | exact Slot.ready_optional | exact Slot.ready_required | apply List.Forall₂.cons)
    ?_ ?_ ?_).recovers
  · refine .cons (Slot.refills_required (fun p x => { p with name := x }) (.text _)) ?_
    refine .cons (Slot.refills_required (fun p x => { p with location := x })
      (.choice (Location.named?_name p.location) false)) ?_
    refine .cons (Slot.refills_optional (fun p x => { p with description := x })
      fun x _ => .text x) ?_
    refine .cons (Slot.refills_optional (fun p x => { p with required := x })
      fun x _ => .bool x) ?_
    refine .cons (Slot.refills_optional (fun p x => { p with deprecated := x })
      fun x _ => .bool x) ?_
    refine .cons (Slot.refills_optional (fun p x => { p with style := x })
      fun x _ => .text x) ?_
    refine .cons (Slot.refills_optional (fun p x => { p with explode := x })
      fun x _ => .bool x) ?_
    refine .cons (Slot.refills_optional (fun p x => { p with schema := x })
      hschema fun s _ => s.ne_null) ?_
    exact .nil
  · simp [Parameter.layout, Slot.required, Slot.optional]
  · exact fun _ h => Parameter.whole_shape h

def MediaType.shape : Shape MediaType where
  slots m := [
    .optional "schema" m.schema Schema.encode,
    .optional "itemSchema" m.itemSchema Schema.encode,
    .optional "example" m.example? id]

theorem MediaType.encode_eq_shape (m : MediaType) : m.encode = MediaType.shape.encode m := by
  rw [Shape.encode_closed rfl]
  simp only [MediaType.encode, present_eq_ofSlots, ← ofSlots_append]
  rfl

theorem MediaType.whole_shape {m q : MediaType} (h : shape.slots q = shape.slots m) : q = m := by
  cases m
  cases q
  simpa [shape, Slot.optional] using h

structure MediaType.Faithful (m : MediaType) : Prop where
  example? : m.example? ≠ some .null
  schemas : ∀ s ∈ m.schemas, s.All Schema.Faithful

theorem MediaType.recovers {m : MediaType} (hr : m.encode.Readable) (hf : m.Faithful) :
    Recovers MediaType.layout.decode MediaType.encode m := by
  rw [MediaType.encode_eq_shape] at hr
  rw [Recovers, MediaType.encode_eq_shape]
  have hschema : ∀ s ∈ m.schema, Recovers Schema.decode Schema.encode s := fun s hs =>
    Schema.recovers (Shape.readable_optional hr "schema" (by simp [MediaType.shape]) s hs)
      (hf.schemas s (List.mem_append_left _ (Option.mem_toList.mpr hs)))
  have hitem : ∀ s ∈ m.itemSchema, Recovers Schema.decode Schema.encode s := fun s hs =>
    Schema.recovers (Shape.readable_optional hr "itemSchema" (by simp [MediaType.shape]) s hs)
      (hf.schemas s (List.mem_append_right _ (Option.mem_toList.mpr hs)))
  have hslot : Slot.optional "example" m.example? id ∈ MediaType.shape.slots m := by
    simp [MediaType.shape]
  have hexample : ∀ v ∈ m.example?, Recovers .value id v := fun v hv =>
    .value (Shape.readable_optional hr "example" hslot v hv)
  refine (Refills.of_closed rfl (by decide)
    (.cons Slot.ready_optional (.cons Slot.ready_optional (.cons Slot.ready_optional .nil)))
    ?_ ?_ ?_).recovers
  · refine .cons (Slot.refills_optional (fun m x => { m with schema := x })
      hschema fun s _ => s.ne_null) ?_
    refine .cons (Slot.refills_optional (fun m x => { m with itemSchema := x })
      hitem fun s _ => s.ne_null) ?_
    refine .cons (Slot.refills_optional (fun m x => { m with example? := x })
      hexample fun v hv hnull => hf.example? (hnull ▸ hv)) ?_
    exact .nil
  · exact List.forall_mem_nil _
  · exact fun _ h => MediaType.whole_shape h

def RequestBody.shape : Shape RequestBody where
  slots b := [
    .optional "description" b.description .str,
    .required "content" b.content (tableJson MediaType.encode),
    .optional "required" b.required .bool]

theorem RequestBody.encode_eq_shape (b : RequestBody) : b.encode = RequestBody.shape.encode b := by
  rw [Shape.encode_closed rfl]
  simp only [RequestBody.encode, always_eq_ofSlots, present_eq_ofSlots, ← ofSlots_append]
  rfl

theorem RequestBody.whole_shape {b q : RequestBody} (h : shape.slots q = shape.slots b) : q = b := by
  cases b
  cases q
  simpa [shape, Slot.required, Slot.optional] using h

def RequestBody.Faithful (b : RequestBody) : Prop := ∀ m ∈ b.content, m.2.Faithful

theorem RequestBody.recovers {b : RequestBody} (hr : b.encode.Readable) (hf : b.Faithful) :
    Recovers RequestBody.layout.decode RequestBody.encode b := by
  rw [RequestBody.encode_eq_shape] at hr
  rw [Recovers, RequestBody.encode_eq_shape]
  have hcontent : Recovers (.map MediaType.layout.decode) (tableJson MediaType.encode) b.content :=
    recovers_table (Shape.readable_required hr "content" (by simp [RequestBody.shape]))
      fun m hm hmr => MediaType.recovers hmr (hf m hm)
  refine (Refills.of_closed rfl (by decide)
    (.cons Slot.ready_optional (.cons Slot.ready_required (.cons Slot.ready_optional .nil)))
    ?_ ?_ ?_).recovers
  · refine .cons (Slot.refills_optional (fun b x => { b with description := x })
      fun x _ => .text x) ?_
    refine .cons (Slot.refills_required (fun b x => { b with content := x }) hcontent) ?_
    refine .cons (Slot.refills_optional (fun b x => { b with required := x })
      fun x _ => .bool x) ?_
    exact .nil
  · simp [RequestBody.layout, Slot.required, Slot.optional]
  · exact fun _ h => RequestBody.whole_shape h

def Response.shape : Shape Response where
  slots r := [
    .required "description" r.description .str,
    .optional "content" r.content (tableJson MediaType.encode)]

theorem Response.encode_eq_shape (r : Response) : r.encode = Response.shape.encode r := by
  rw [Shape.encode_closed rfl]
  simp only [Response.encode, always_eq_ofSlots, present_eq_ofSlots, ← ofSlots_append]
  rfl

theorem Response.whole_shape {r q : Response} (h : shape.slots q = shape.slots r) : q = r := by
  cases r
  cases q
  simpa [shape, Slot.required, Slot.optional] using h

def Response.Faithful (r : Response) : Prop := ∀ c ∈ r.content, ∀ m ∈ c, m.2.Faithful

theorem Response.recovers {r : Response} (hr : r.encode.Readable) (hf : r.Faithful) :
    Recovers Response.layout.decode Response.encode r := by
  rw [Response.encode_eq_shape] at hr
  rw [Recovers, Response.encode_eq_shape]
  have hcontent : ∀ c ∈ r.content,
      Recovers (.map MediaType.layout.decode) (tableJson MediaType.encode) c := fun c hc =>
    recovers_table (Shape.readable_optional hr "content" (by simp [Response.shape]) c hc)
      fun m hm hmr => MediaType.recovers hmr (hf c hc m hm)
  refine (Refills.of_closed rfl (by decide) (.cons Slot.ready_required (.cons Slot.ready_optional .nil))
    ?_ ?_ ?_).recovers
  · refine .cons (Slot.refills_required (fun r x => { r with description := x }) (.text _)) ?_
    refine .cons (Slot.refills_optional (fun r x => { r with content := x }) hcontent) ?_
    exact .nil
  · simp [Response.layout, Slot.required, Slot.optional]
  · exact fun _ h => Response.whole_shape h

/-! ### Operations -/

theorem SecurityRequirement.recovers {r : SecurityRequirement} (hr : (tableJson texts r).Readable) :
    Recovers SecurityRequirement.decode (tableJson texts) r :=
  recovers_table hr fun e _ _ => .texts e.2

def Operation.shape : Shape Operation where
  slots o := [
    .listed "tags" o.tags texts,
    .optional "summary" o.summary .str,
    .optional "description" o.description .str,
    .optional "operationId" o.operationId .str,
    .listed "parameters" o.parameters (listJson Parameter.encode),
    .optional "requestBody" o.requestBody RequestBody.encode,
    .required "responses" o.responses (tableJson Response.encode),
    .optional "deprecated" o.deprecated .bool,
    .optional "security" o.security securityJson]
  extra o := o.extensions

theorem Operation.encode_eq_shape (o : Operation) : o.encode = Operation.shape.encode o := by
  simp only [Operation.encode, always_eq_ofSlots, present_eq_ofSlots, nonEmpty_eq_ofSlots,
    ← ofSlots_append]
  rfl

theorem Operation.whole_shape {o q : Operation} (h : shape.slots q = shape.slots o)
    (hx : shape.extra q = shape.extra o) : q = o := by
  cases o
  cases q
  simp only [shape, List.cons.injEq, Slot.optional_inj, Slot.required_inj, Slot.listed_inj,
    and_true] at h hx
  simp only [Operation.mk.injEq]
  exact ⟨h.1, h.2.1, h.2.2.1, h.2.2.2.1, h.2.2.2.2.1, h.2.2.2.2.2.1, h.2.2.2.2.2.2.1,
    h.2.2.2.2.2.2.2.1, h.2.2.2.2.2.2.2.2, hx⟩

structure Operation.Faithful (o : Operation) : Prop where
  parameters : ∀ p ∈ o.parameters, p.Faithful
  body : ∀ b ∈ o.requestBody, b.Faithful
  responses : ∀ r ∈ o.responses, r.2.Faithful
  extensions : ∀ e ∈ o.extensions, e.1 ∉ Operation.layout.known

theorem Operation.recovers {o : Operation} (hr : o.encode.Readable) (hf : o.Faithful) :
    Recovers Operation.layout.decodeOpen Operation.encode o := by
  rw [Operation.encode_eq_shape] at hr
  rw [Recovers, Operation.encode_eq_shape]
  have hparameters (hne : o.parameters ≠ []) :
      Recovers (.list Parameter.layout.decode) (listJson Parameter.encode) o.parameters :=
    recovers_items (Shape.readable_listed hr "parameters" (by simp [Operation.shape]) hne)
      fun p hp hpr => Parameter.recovers hpr (hf.parameters p hp)
  have hbody : ∀ b ∈ o.requestBody, Recovers RequestBody.layout.decode RequestBody.encode b :=
    fun b hb => RequestBody.recovers
      (Shape.readable_optional hr "requestBody" (by simp [Operation.shape]) b hb) (hf.body b hb)
  have hresponses : Recovers (.map Response.layout.decode) (tableJson Response.encode) o.responses :=
    recovers_table (Shape.readable_required hr "responses" (by simp [Operation.shape]))
      fun r hm hrr => Response.recovers hrr (hf.responses r hm)
  have hslot : Slot.optional "security" o.security securityJson ∈ Operation.shape.slots o := by
    simp [Operation.shape]
  have hsecurity : ∀ rs ∈ o.security, Recovers (.list SecurityRequirement.decode) securityJson rs :=
    fun rs hrs => recovers_items (Shape.readable_optional hr "security" hslot rs hrs)
      fun r _ hrr => SecurityRequirement.recovers hrr
  refine Refills.recovers_open {
    keys := rfl
    distinct := by decide
    ready := by
      repeat' first
        | exact .nil | exact Slot.ready_optional | exact Slot.ready_required
        | exact Slot.ready_listed | apply List.Forall₂.cons
    slots := ?_
    required := List.forall_mem_nil _
    bare := rfl
    unknown := hf.extensions
    separate := Shape.nodup_extra hr
    others := fun e he => Layout.keeps_value (fun o more => { o with extensions := more })
      (Shape.readable_extra hr e he)
    whole := fun _ => Operation.whole_shape }
  refine .cons (Slot.refills_listed (fun o x => { o with tags := x }) fun _ => .texts _) ?_
  refine .cons (Slot.refills_optional (fun o x => { o with summary := x })
    fun x _ => .text x) ?_
  refine .cons (Slot.refills_optional (fun o x => { o with description := x })
    fun x _ => .text x) ?_
  refine .cons (Slot.refills_optional (fun o x => { o with operationId := x })
    fun x _ => .text x) ?_
  refine .cons (Slot.refills_listed (fun o x => { o with parameters := x }) hparameters) ?_
  refine .cons (Slot.refills_optional (fun o x => { o with requestBody := x }) hbody) ?_
  refine .cons (Slot.refills_required (fun o x => { o with responses := x }) hresponses) ?_
  refine .cons (Slot.refills_optional (fun o x => { o with deprecated := x })
    fun x _ => .bool x) ?_
  refine .cons (Slot.refills_optional (fun o x => { o with security := x }) hsecurity) ?_
  exact .nil

/-! ### Path items and documents -/

def PathItem.shape : Shape PathItem where
  slots i := .listed "parameters" i.parameters (listJson Parameter.encode) ::
    Method.all.map fun m => .optional m.key (i.operation? m) Operation.encode

theorem PathItem.encode_eq_shape (i : PathItem) : i.encode = PathItem.shape.encode i := by
  rw [Shape.encode_closed rfl]
  simp only [PathItem.encode, Method.all, List.flatMap_cons, List.flatMap_nil, List.append_nil,
    present_eq_ofSlots, nonEmpty_eq_ofSlots, ← ofSlots_append]
  rfl

theorem PathItem.whole_shape {i q : PathItem} (h : shape.slots q = shape.slots i) : q = i := by
  cases i
  cases q
  simp only [shape, List.map_cons, List.map_nil, Method.all, operation?, List.cons.injEq,
    Slot.optional_inj, Slot.listed_inj, and_true] at h
  simp only [PathItem.mk.injEq]
  exact h

structure PathItem.Faithful (i : PathItem) : Prop where
  parameters : ∀ p ∈ i.parameters, p.Faithful
  operations : ∀ m, ∀ o ∈ i.operation? m, o.Faithful

theorem PathItem.recovers {i : PathItem} (hr : i.encode.Readable) (hf : i.Faithful) :
    Recovers PathItem.layout.decode PathItem.encode i := by
  rw [PathItem.encode_eq_shape] at hr
  rw [Recovers, PathItem.encode_eq_shape]
  have hparameters (hne : i.parameters ≠ []) :
      Recovers (.list Parameter.layout.decode) (listJson Parameter.encode) i.parameters :=
    recovers_items (Shape.readable_listed hr "parameters" (by simp [PathItem.shape]) hne)
      fun p hp hpr => Parameter.recovers hpr (hf.parameters p hp)
  have hoperation : ∀ m, ∀ o ∈ i.operation? m,
      Recovers Operation.layout.decodeOpen Operation.encode o := fun m o ho =>
    Operation.recovers (Shape.readable_optional hr m.key
      (List.mem_cons_of_mem _ (List.mem_map_of_mem (f := fun m : Method =>
        Slot.optional m.key (i.operation? m) Operation.encode) (Method.mem_all m))) o ho)
      (hf.operations m o ho)
  have hnull : ∀ m, ∀ o ∈ i.operation? m, o.encode ≠ .null := fun _ o _ => by
    rw [Operation.encode_eq_shape]
    exact Shape.ne_null _ _
  have hready : List.Forall₂ Slot.Ready (PathItem.shape.slots {}) (PathItem.shape.slots i) := by
    repeat' first
      | exact .nil | exact Slot.ready_optional | exact Slot.ready_listed | apply List.Forall₂.cons
  suffices hrefills : Refills PathItem.layout PathItem.shape i from hrefills.recovers
  refine Refills.of_closed rfl (by decide) hready ?_ ?_ ?_
  · refine .cons (Slot.refills_listed (fun i x => { i with parameters := x }) hparameters) ?_
    refine .cons (Slot.refills_optional (fun i x => i.withOperation .get x)
      (hoperation .get) (hnull .get)) ?_
    refine .cons (Slot.refills_optional (fun i x => i.withOperation .put x)
      (hoperation .put) (hnull .put)) ?_
    refine .cons (Slot.refills_optional (fun i x => i.withOperation .post x)
      (hoperation .post) (hnull .post)) ?_
    refine .cons (Slot.refills_optional (fun i x => i.withOperation .delete x)
      (hoperation .delete) (hnull .delete)) ?_
    refine .cons (Slot.refills_optional (fun i x => i.withOperation .options x)
      (hoperation .options) (hnull .options)) ?_
    refine .cons (Slot.refills_optional (fun i x => i.withOperation .head x)
      (hoperation .head) (hnull .head)) ?_
    refine .cons (Slot.refills_optional (fun i x => i.withOperation .patch x)
      (hoperation .patch) (hnull .patch)) ?_
    refine .cons (Slot.refills_optional (fun i x => i.withOperation .trace x)
      (hoperation .trace) (hnull .trace)) ?_
    exact .nil
  · exact List.forall_mem_nil _
  · exact fun _ h => PathItem.whole_shape h

def Components.shape : Shape Components where
  slots c := [
    .listed "schemas" c.schemas (tableJson Schema.encode),
    .listed "securitySchemes" c.securitySchemes .obj]

theorem Components.encode_eq_shape (c : Components) : c.encode = Components.shape.encode c := by
  rw [Shape.encode_closed rfl]
  simp only [Components.encode, nonEmpty_eq_ofSlots, ← ofSlots_append]
  rfl

theorem Components.whole_shape {c q : Components} (h : shape.slots q = shape.slots c) : q = c := by
  cases c
  cases q
  simpa [shape, Slot.listed_inj] using h

def Components.Faithful (c : Components) : Prop := ∀ e ∈ c.schemas, e.2.All Schema.Faithful

theorem recovers_values {entries : List (String × Json)} (hr : (Json.obj entries).Readable) :
    Recovers (.map .value) .obj entries := by
  have hback : Recovers (.map .value) (fun entries => .obj (entries.map fun e => (e.1, id e.2)))
      entries := .map hr.distinct fun e he => .value (hr.members e he)
  have hid : (entries.map fun e => (e.1, id e.2)) = entries := List.map_id entries
  rwa [Recovers, hid] at hback

theorem Components.recovers {c : Components} (hr : c.encode.Readable) (hf : c.Faithful) :
    Recovers Components.layout.decode Components.encode c := by
  rw [Components.encode_eq_shape] at hr
  rw [Recovers, Components.encode_eq_shape]
  have hschemas (hne : c.schemas ≠ []) :
      Recovers (.map Schema.decode) (tableJson Schema.encode) c.schemas :=
    recovers_table (Shape.readable_listed hr "schemas" (by simp [Components.shape]) hne)
      fun e he her => Schema.recovers her (hf e he)
  have hschemes (hne : c.securitySchemes ≠ []) : Recovers (.map .value) .obj c.securitySchemes :=
    recovers_values (Shape.readable_listed hr "securitySchemes" (by simp [Components.shape]) hne)
  refine (Refills.of_closed rfl (by decide) (.cons Slot.ready_listed (.cons Slot.ready_listed .nil))
    ?_ ?_ ?_).recovers
  · refine .cons (Slot.refills_listed (fun c x => { c with schemas := x }) hschemas) ?_
    refine .cons (Slot.refills_listed (fun c x => { c with securitySchemes := x }) hschemes) ?_
    exact .nil
  · exact List.forall_mem_nil _
  · exact fun _ h => Components.whole_shape h

def Document.shape : Shape Document where
  slots d := [
    .required "openapi" d.openapi .str,
    .required "info" d.info Info.encode,
    .listed "servers" d.servers (listJson Server.encode),
    .required "paths" d.paths (tableJson PathItem.encode),
    .optional "components" d.components Components.encode,
    .listed "tags" d.tags (listJson Tag.encode)]
  extra d := d.extensions

theorem Document.encode_eq_shape (d : Document) : d.encode = Document.shape.encode d := by
  simp only [Document.encode, always_eq_ofSlots, present_eq_ofSlots, nonEmpty_eq_ofSlots,
    ← ofSlots_append]
  rfl

theorem Document.whole_shape {d q : Document} (h : shape.slots q = shape.slots d)
    (hx : shape.extra q = shape.extra d) : q = d := by
  cases d
  cases q
  simp only [shape, List.cons.injEq, Slot.optional_inj, Slot.required_inj, Slot.listed_inj,
    and_true] at h hx
  simp only [Document.mk.injEq]
  exact ⟨h.1, h.2.1, h.2.2.1, h.2.2.2.1, h.2.2.2.2.1, h.2.2.2.2.2, hx⟩

structure Document.Faithful (d : Document) : Prop where
  paths : ∀ e ∈ d.paths, e.2.Faithful
  components : ∀ c ∈ d.components, c.Faithful
  extensions : ∀ e ∈ d.extensions, e.1 ∉ Document.layout.known

/-- A faithful document comes back from its value. -/
theorem Document.recovers {d : Document} (hr : d.encode.Readable) (hf : d.Faithful) :
    Recovers Document.layout.decodeOpen Document.encode d := by
  rw [Document.encode_eq_shape] at hr
  rw [Recovers, Document.encode_eq_shape]
  have hpaths : Recovers (.map PathItem.layout.decode) (tableJson PathItem.encode) d.paths :=
    recovers_table (Shape.readable_required hr "paths" (by simp [Document.shape]))
      fun e he her => PathItem.recovers her (hf.paths e he)
  have hcomponents : ∀ c ∈ d.components, Recovers Components.layout.decode Components.encode c :=
    fun c hc => Components.recovers
      (Shape.readable_optional hr "components" (by simp [Document.shape]) c hc) (hf.components c hc)
  refine Refills.recovers_open {
    keys := rfl
    distinct := by decide
    ready := by
      repeat' first
        | exact .nil | exact Slot.ready_optional | exact Slot.ready_required
        | exact Slot.ready_listed | apply List.Forall₂.cons
    slots := ?_
    required := by simp [Document.layout, Document.shape, Slot.required, Slot.optional]
    bare := rfl
    unknown := hf.extensions
    separate := Shape.nodup_extra hr
    others := fun e he => Layout.keeps_value (fun d more => { d with extensions := more })
      (Shape.readable_extra hr e he)
    whole := fun _ => Document.whole_shape }
  refine .cons (Slot.refills_required (fun d x => { d with openapi := x }) (.text _)) ?_
  refine .cons (Slot.refills_required (fun d x => { d with info := x }) d.info.recovers) ?_
  refine .cons (Slot.refills_listed (fun d x => { d with servers := x })
    fun _ => .list fun s _ => s.recovers) ?_
  refine .cons (Slot.refills_required (fun d x => { d with paths := x }) hpaths) ?_
  refine .cons (Slot.refills_optional (fun d x => { d with components := x }) hcomponents) ?_
  refine .cons (Slot.refills_listed (fun d x => { d with tags := x })
    fun _ => .list fun t _ => t.recovers) ?_
  exact .nil

/-- A faithful document that nests no deeper than the limit and whose numbers read back is read
back from its text. -/
theorem Document.ofText_toText {d : Document} (hr : d.encode.Readable) (hf : d.Faithful)
    (hd : d.encode.depth ≤ nestingLimit) (hn : ∀ n ∈ d.encode.numbers, n.ReadsBack) :
    Document.ofText d.toText = .ok d := by
  rw [Document.ofText, Document.toText, run_pretty _ hr hd hn]
  exact Document.recovers hr hf

end TypedApi.OpenApi
