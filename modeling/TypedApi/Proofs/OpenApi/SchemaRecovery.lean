import TypedApi.Proofs.Json.Nesting
import TypedApi.Proofs.Json.Record
import TypedApi.Proofs.OpenApi.Encoding

/-! Schemas come back from what they are written as.

A schema is read back when its value is readable and all its nodes are `Faithful`: no
keyword that takes any value says null, sizes have 64 bits, and extensions are no keywords.
A keyword that says null is taken for one that is absent. -/
namespace TypedApi.OpenApi

open Json Json.Fields

/-- A table recovers when its values do. -/
theorem recovers_table {α : Type} {decode : Decoder α} {encode : α → Json}
    {entries : List (String × α)} (hr : (tableJson encode entries).Readable)
    (h : ∀ e ∈ entries, (encode e.2).Readable → Recovers decode encode e.2) :
    Recovers (.map decode) (tableJson encode) entries := by
  have hd := hr.distinct
  rw [List.map_map] at hd
  exact .map hd fun e he => h e he (hr.members (e.1, encode e.2)
    (List.mem_map_of_mem (f := fun e => (e.1, encode e.2)) he))

theorem recovers_items {α : Type} {decode : Decoder α} {encode : α → Json} {xs : List α}
    (hr : (listJson encode xs).Readable)
    (h : ∀ x ∈ xs, (encode x).Readable → Recovers decode encode x) :
    Recovers (.list decode) (listJson encode) xs :=
  .list fun x hx => h x hx (hr.items _ (List.mem_map_of_mem hx))

def Discriminator.shape : Shape Discriminator where
  slots d := [
    .required "propertyName" d.propertyName .str,
    .optional "mapping" d.mapping (tableJson .str)]

theorem Discriminator.encode_eq_shape (d : Discriminator) : d.encode = shape.encode d := by
  rw [Shape.encode_closed rfl]
  simp only [Discriminator.encode, always_eq_ofSlots, present_eq_ofSlots, ← ofSlots_append]
  rfl

theorem Discriminator.whole_shape {d b : Discriminator} (h : shape.slots b = shape.slots d) :
    b = d := by
  cases d
  cases b
  simpa [shape, Slot.required, Slot.optional] using h

theorem TypeNames.ne_null (t : TypeNames) : t.encode ≠ .null := by
  cases t <;> exact nofun

theorem Schema.ne_null (s : Schema) : s.encode ≠ .null := by
  rw [Schema.encode_eq]
  exact nofun

theorem Additional.ne_null (a : Additional) : a.encode ≠ .null := by
  cases a with
  | bool b => exact nofun
  | schema s => exact s.ne_null

/-! ### Children -/

namespace Schema

/-- What stands in a slot stands in the schema's value. -/
theorem mem_parts_of_slot {s : Schema} {key : String} {v : Json} (h : (key, some v) ∈ s.slots) :
    v ∈ parts s.encode := by
  rw [encode_eq]
  refine List.mem_map.mpr ⟨(key, v), List.mem_append_left _ ?_, rfl⟩
  exact List.mem_filterMap.mpr ⟨(key, some v), h, rfl⟩

/-- A schema that stands in another stands in its value, or in a list or table there. -/
theorem encode_child {s c : Schema} (h : c ∈ s.children) :
    c.encode ∈ parts s.encode ∨ ∃ w ∈ parts s.encode, c.encode ∈ parts w := by
  have hone : ∀ (key : String) {o : Option Schema}, (key, o.map encode) ∈ s.slots →
      c ∈ o.toList → c.encode ∈ parts s.encode := by
    intro key o hslot hc
    rw [Option.mem_toList.mp hc] at hslot
    exact mem_parts_of_slot hslot
  have hlist : ∀ (key : String) {o : Option (List Schema)},
      (key, o.map (listJson encode)) ∈ s.slots → c ∈ o.getD [] →
      ∃ w ∈ parts s.encode, c.encode ∈ parts w := by
    intro key o hslot hc
    cases o with
    | none => cases hc
    | some ss => exact ⟨_, mem_parts_of_slot hslot, List.mem_map_of_mem hc⟩
  simp only [children, List.mem_append] at h
  rcases h with (((((((h | h) | h) | h) | h) | h) | h) | h) | h
  · right
    obtain ⟨e, he, rfl⟩ := List.mem_map.mp h
    cases hp : s.properties with
    | none => rw [hp] at he; cases he
    | some ps =>
      rw [hp] at he
      have hslot : ("properties", some (tableJson encode ps)) ∈ s.slots := by simp [slots, hp]
      refine ⟨_, mem_parts_of_slot hslot, ?_⟩
      exact List.mem_map.mpr ⟨(e.1, e.2.encode), List.mem_map_of_mem (f := fun e => (e.1, e.2.encode)) he, rfl⟩
  · left
    obtain ⟨a, ha, hc⟩ := Option.bind_eq_some_iff.mp (Option.mem_toList.mp h)
    cases a with
    | bool b => cases hc
    | schema u =>
      cases hc
      have hslot : ("additionalProperties", some c.encode) ∈ s.slots := by
        simp [slots, ha, Additional.encode]
      exact mem_parts_of_slot hslot
  · exact .inl (hone "items" (by simp [slots]) h)
  · exact .inr (hlist "prefixItems" (by simp [slots]) h)
  · exact .inr (hlist "anyOf" (by simp [slots]) h)
  · exact .inr (hlist "oneOf" (by simp [slots]) h)
  · exact .inr (hlist "allOf" (by simp [slots]) h)
  · exact .inl (hone "not" (by simp [slots]) h)
  · exact .inl (hone "contentSchema" (by simp [slots]) h)

theorem readable_child {s c : Schema} (hs : s.encode.Readable) (h : c ∈ s.children) :
    c.encode.Readable := by
  rcases encode_child h with h | ⟨w, hw, h⟩
  · exact readable_of_mem_parts hs h
  · exact readable_of_mem_parts (readable_of_mem_parts hs hw) h

theorem height_child {s c : Schema} (h : c ∈ s.children) :
    (Draft.ofValue c.encode).height < (Draft.ofValue s.encode).height := by
  rcases encode_child h with h | ⟨w, hw, h⟩
  · exact height_lt_of_mem_parts h
  · exact Nat.lt_trans (height_lt_of_mem_parts h) (height_lt_of_mem_parts hw)

/-! ### Faithful schemas -/

/-- Nothing in the node is lost when it is read back. -/
structure Faithful (s : Schema) : Prop where
  const : s.constValue ≠ some .null
  default : s.default ≠ some .null
  example? : s.example? ≠ some .null
  minItems : ∀ n ∈ s.minItems, n < 2 ^ 64
  maxItems : ∀ n ∈ s.maxItems, n < 2 ^ 64
  minLength : ∀ n ∈ s.minLength, n < 2 ^ 64
  maxLength : ∀ n ∈ s.maxLength, n < 2 ^ 64
  extensions : s.PlainExtensions

/-- A schema as its keywords and its extensions. -/
def shape : Shape Schema where
  slots s := [
    .optional "$ref" s.ref .str,
    .optional "type" s.type TypeNames.encode,
    .optional "format" s.format .str,
    .optional "title" s.title .str,
    .optional "description" s.description .str,
    .optional "properties" s.properties (tableJson encode),
    .optional "required" s.required texts,
    .optional "additionalProperties" s.additional Additional.encode,
    .optional "items" s.items encode,
    .optional "prefixItems" s.prefixItems (listJson encode),
    .optional "minItems" s.minItems .ofNat,
    .optional "maxItems" s.maxItems .ofNat,
    .optional "uniqueItems" s.uniqueItems .bool,
    .optional "enum" s.enumValues .arr,
    .optional "const" s.constValue id,
    .optional "anyOf" s.anyOf (listJson encode),
    .optional "oneOf" s.oneOf (listJson encode),
    .optional "allOf" s.allOf (listJson encode),
    .optional "not" s.negated encode,
    .optional "discriminator" s.discriminator Discriminator.encode,
    .optional "readOnly" s.readOnly .bool,
    .optional "writeOnly" s.writeOnly .bool,
    .optional "deprecated" s.deprecated .bool,
    .optional "default" s.default id,
    .optional "example" s.example? id,
    .optional "minimum" s.minimum .num,
    .optional "maximum" s.maximum .num,
    .optional "exclusiveMinimum" s.exclusiveMinimum .num,
    .optional "exclusiveMaximum" s.exclusiveMaximum .num,
    .optional "multipleOf" s.multipleOf .num,
    .optional "minLength" s.minLength .ofNat,
    .optional "maxLength" s.maxLength .ofNat,
    .optional "pattern" s.pattern .str,
    .optional "contentMediaType" s.contentMediaType .str,
    .optional "contentSchema" s.contentSchema encode]
  extra s := s.extensions

theorem encode_eq_shape (s : Schema) : s.encode = shape.encode s := encode_eq s

theorem whole_shape {s u : Schema} (h : shape.slots u = shape.slots s)
    (hx : shape.extra u = shape.extra s) : u = s := by
  cases s
  cases u
  simp only [shape, Slot.optional, List.cons.injEq, Slot.mk.injEq, heq_eq_eq, true_and, and_true]
    at h hx
  simp only [mk.injEq]
  exact ⟨h.1, by tauto⟩

theorem recovers_typeNames (t : TypeNames) : Recovers TypeNames.decode TypeNames.encode t := by
  cases t with
  | single n => rfl
  | multiple ns =>
    have hvalue : Draft.value (.ofValue (texts ns)) = .ok (texts ns) := by
      refine Draft.value_ofValue _ (.arr fun x hx => ?_)
      obtain ⟨n, -, rfl⟩ := List.mem_map.mp hx
      exact .str n
    have hnames : (ns.map Json.str).mapM Json.asString? = some ns := by
      clear hvalue
      induction ns with
      | nil => rfl
      | cons n ns ih =>
        rw [List.map_cons, List.mapM_cons, ih]
        rfl
    show (Draft.value (.ofValue (texts ns)) >>= _) = _
    rw [hvalue]
    simp only [bind, Except.bind, texts, hnames]
    rfl

theorem recovers_discriminator {d : Discriminator} (hr : d.encode.Readable) :
    Recovers Discriminator.layout.decode Discriminator.encode d := by
  have hslot : Slot.optional "mapping" d.mapping (tableJson .str) ∈ Discriminator.shape.slots d := by
    simp [Discriminator.shape]
  have hmapping : ∀ m ∈ d.mapping, Recovers (.map .text) (tableJson .str) m := fun m hm =>
    recovers_table (Shape.readable_optional (d.encode_eq_shape ▸ hr) "mapping" hslot m hm)
      fun e _ _ => .text e.2
  rw [Recovers, Discriminator.encode_eq_shape]
  refine (Refills.of_closed rfl (by decide) (.cons Slot.ready_required (.cons Slot.ready_optional .nil))
    ?_ ?_ ?_).recovers
  · refine .cons (Slot.refills_required (fun d x => { d with propertyName := x }) (.text _)) ?_
    refine .cons (Slot.refills_optional (fun d x => { d with mapping := x }) hmapping) ?_
    exact .nil
  · simp [Discriminator.layout, Slot.required, Slot.optional]
  · exact fun _ h => Discriminator.whole_shape h

theorem recovers_additional {self : Decoder Schema} {a : Additional} (hr : a.encode.Readable)
    (h : ∀ s ∈ a.schema?, Recovers self encode s) :
    Recovers (Additional.decode self) Additional.encode a := by
  cases a with
  | bool b => rfl
  | schema s =>
    have hs : self (.ofValue s.encode) = .ok s := h s rfl
    have hvalue : Draft.value (.ofValue s.encode) = .ok s.encode := Draft.value_ofValue _ hr
    show (Draft.value (.ofValue s.encode) >>= fun _ => _) = _
    rw [hvalue, Additional.encode, encode_eq]
    rw [encode_eq] at hs
    show ((self (.ofValue (.obj _))).map Additional.schema).mapError _ = _
    rw [hs]
    rfl

/-- A schema is put together again from its keywords and extensions when the schemas that
stand in it are. -/
theorem refills {self : Decoder Schema} {s : Schema} (hr : s.encode.Readable) (hf : s.Faithful)
    (h : ∀ c ∈ s.children, Recovers self encode c) : Refills (layout self) shape s := by
  rw [encode_eq_shape] at hr
  have hplaced := placed h
  have hproperties : ∀ ps ∈ s.properties, Recovers (.map self) (tableJson encode) ps := fun ps hps =>
    recovers_table (Shape.readable_optional hr "properties" (by simp [shape]) ps hps)
      fun e he _ => hplaced.properties ps hps e he
  have hadditional : ∀ a ∈ s.additional, Recovers (Additional.decode self) Additional.encode a :=
    fun a ha => recovers_additional
      (Shape.readable_optional hr "additionalProperties" (by simp [shape]) a ha)
      (hplaced.additional a ha)
  have henum : ∀ vs ∈ s.enumValues, Recovers (.list .value) .arr vs := fun vs hvs =>
    .values (Shape.readable_optional hr "enum" (by simp [shape]) vs hvs).items
  have hdiscriminator : ∀ d ∈ s.discriminator,
      Recovers Discriminator.layout.decode Discriminator.encode d := fun d hd =>
    recovers_discriminator (Shape.readable_optional hr "discriminator" (by simp [shape]) d hd)
  have hvalue : ∀ (key : String) {o : Option Json}, Slot.optional key o id ∈ shape.slots s →
      ∀ v ∈ o, Recovers .value id v := fun key _ hm v hv =>
    .value (Shape.readable_optional hr key hm v hv)
  exact {
    keys := rfl
    distinct := nodup_keywords
    ready := by
      repeat' first | exact .nil | exact Slot.ready_optional | apply List.Forall₂.cons
    slots := by
      refine .cons (Slot.refills_optional (fun s x => { s with ref := x })
        fun x _ => .text x) ?_
      refine .cons (Slot.refills_optional (fun s x => { s with type := x })
        (fun x _ => recovers_typeNames x) fun x _ => x.ne_null) ?_
      refine .cons (Slot.refills_optional (fun s x => { s with format := x })
        fun x _ => .text x) ?_
      refine .cons (Slot.refills_optional (fun s x => { s with title := x })
        fun x _ => .text x) ?_
      refine .cons (Slot.refills_optional (fun s x => { s with description := x })
        fun x _ => .text x) ?_
      refine .cons (Slot.refills_optional (fun s x => { s with properties := x })
        hproperties) ?_
      refine .cons (Slot.refills_optional (fun s x => { s with required := x })
        fun x _ => .texts x) ?_
      refine .cons (Slot.refills_optional (fun s x => { s with additional := x })
        hadditional fun a _ => a.ne_null) ?_
      refine .cons (Slot.refills_optional (fun s x => { s with items := x })
        hplaced.items fun x _ => x.ne_null) ?_
      refine .cons (Slot.refills_optional (fun s x => { s with prefixItems := x })
        fun cs hcs => .list (hplaced.prefixItems cs hcs)) ?_
      refine .cons (Slot.refills_optional (fun s x => { s with minItems := x })
        fun n hn => .nat (hf.minItems n hn)) ?_
      refine .cons (Slot.refills_optional (fun s x => { s with maxItems := x })
        fun n hn => .nat (hf.maxItems n hn)) ?_
      refine .cons (Slot.refills_optional (fun s x => { s with uniqueItems := x })
        fun x _ => .bool x) ?_
      refine .cons (Slot.refills_optional (fun s x => { s with enumValues := x })
        henum) ?_
      refine .cons (Slot.refills_optional (fun s x => { s with constValue := x })
        (hvalue "const" (by simp [shape]))
        (fun v hv hnull => hf.const (hnull ▸ hv))) ?_
      refine .cons (Slot.refills_optional (fun s x => { s with anyOf := x })
        fun cs hcs => .list (hplaced.anyOf cs hcs)) ?_
      refine .cons (Slot.refills_optional (fun s x => { s with oneOf := x })
        fun cs hcs => .list (hplaced.oneOf cs hcs)) ?_
      refine .cons (Slot.refills_optional (fun s x => { s with allOf := x })
        fun cs hcs => .list (hplaced.allOf cs hcs)) ?_
      refine .cons (Slot.refills_optional (fun s x => { s with negated := x })
        hplaced.negated fun x _ => x.ne_null) ?_
      refine .cons (Slot.refills_optional (fun s x => { s with discriminator := x })
        hdiscriminator) ?_
      refine .cons (Slot.refills_optional (fun s x => { s with readOnly := x })
        fun x _ => .bool x) ?_
      refine .cons (Slot.refills_optional (fun s x => { s with writeOnly := x })
        fun x _ => .bool x) ?_
      refine .cons (Slot.refills_optional (fun s x => { s with deprecated := x })
        fun x _ => .bool x) ?_
      refine .cons (Slot.refills_optional (fun s x => { s with default := x })
        (hvalue "default" (by simp [shape]))
        (fun v hv hnull => hf.default (hnull ▸ hv))) ?_
      refine .cons (Slot.refills_optional (fun s x => { s with example? := x })
        (hvalue "example" (by simp [shape]))
        (fun v hv hnull => hf.example? (hnull ▸ hv))) ?_
      refine .cons (Slot.refills_optional (fun s x => { s with minimum := x })
        fun x _ => .number x) ?_
      refine .cons (Slot.refills_optional (fun s x => { s with maximum := x })
        fun x _ => .number x) ?_
      refine .cons (Slot.refills_optional (fun s x => { s with exclusiveMinimum := x })
        fun x _ => .number x) ?_
      refine .cons (Slot.refills_optional (fun s x => { s with exclusiveMaximum := x })
        fun x _ => .number x) ?_
      refine .cons (Slot.refills_optional (fun s x => { s with multipleOf := x })
        fun x _ => .number x) ?_
      refine .cons (Slot.refills_optional (fun s x => { s with minLength := x })
        fun n hn => .nat (hf.minLength n hn)) ?_
      refine .cons (Slot.refills_optional (fun s x => { s with maxLength := x })
        fun n hn => .nat (hf.maxLength n hn)) ?_
      refine .cons (Slot.refills_optional (fun s x => { s with pattern := x })
        fun x _ => .text x) ?_
      refine .cons (Slot.refills_optional (fun s x => { s with contentMediaType := x })
        fun x _ => .text x) ?_
      refine .cons (Slot.refills_optional (fun s x => { s with contentSchema := x })
        hplaced.contentSchema fun x _ => x.ne_null) ?_
      exact .nil
    required := List.forall_mem_nil _
    bare := rfl
    unknown := hf.extensions
    separate := Shape.nodup_extra hr
    others := fun e he => Layout.keeps_value (fun s more => { s with extensions := more })
      (Shape.readable_extra hr e he)
    whole := fun _ => whole_shape }

theorem recovers_within {fuel : Nat} {s : Schema} (hh : (Draft.ofValue s.encode).height < fuel)
    (hr : s.encode.Readable) (hf : s.All Faithful) : Recovers (decodeWithin fuel) encode s := by
  induction fuel generalizing s with
  | zero => exact absurd hh (Nat.not_lt_zero _)
  | succ fuel ih =>
    have hrefills : Refills (layout (decodeWithin fuel)) shape s := refills hr hf.here fun c hc =>
      ih (by have := height_child hc; omega) (readable_child hr hc) (hf.child c hc)
    have hback := hrefills.recovers_open
    rwa [Recovers, ← encode_eq_shape] at hback

/-- A faithful schema comes back from its value. -/
theorem recovers {s : Schema} (hr : s.encode.Readable) (hf : s.All Faithful) :
    Recovers decode encode s := by
  have hback := recovers_within (Nat.lt_succ_self _) hr hf
  rw [Recovers] at hback ⊢
  rwa [decode]

end Schema
end TypedApi.OpenApi
