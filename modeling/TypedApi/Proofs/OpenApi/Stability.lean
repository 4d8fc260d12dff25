import Mathlib.Data.List.Permutation
import TypedApi.Proofs.Json.StableRecord
import TypedApi.Proofs.OpenApi.DocumentRecovery

/-! Documents that were decoded are read back from what they are written as.

Each decoder of a part of a document is stable, and no part is written deeper than it was read,
a few tables aside that are written even when they were left out: the responses of an operation
and the paths of a document. Those stand at fixed places above the limit. So the text of a
decoded document is decoded to the same document (`ofText_toText_of_ofText`). -/
namespace TypedApi.OpenApi

open Json Json.Fields

/-! ### Schemas -/

namespace Schema

theorem stable_typeNames :
    Stable 0 0 TypeNames.decode (fun _ => TypeNames.decode) TypeNames.encode := by
  intro room d t _ hd ht
  refine ⟨?_, fun _ _ => recovers_typeNames t⟩
  unfold TypeNames.decode at ht
  obtain ⟨v, hv, ht⟩ := ok_of_bind ht
  have hvalue : Stable 0 0 .value (fun _ => .value) id := .value
  have hstands := (hvalue room d v (Nat.zero_le _) hd hv).1
  split at ht
  · cases ht
    exact ⟨.str _, Nat.zero_le _⟩
  · next xs =>
    split at ht
    · next names hnames =>
      cases ht
      -- a list stands here, so there is room for one
      refine ⟨.arr fun x hx => ?_, Nat.le_trans ?_ hstands.depth⟩
      · obtain ⟨s, -, rfl⟩ := List.mem_map.mp hx
        exact .str s
      · refine Nat.succ_le_succ (Nat.le_trans (depthItems_le_iff.mpr fun x hx => ?_) (Nat.zero_le _))
        obtain ⟨s, -, rfl⟩ := List.mem_map.mp hx
        exact Nat.le_refl 0
    · cases ht
  · cases ht

instance stably_discriminator :
    Stably 0 0 Discriminator.layout (fun _ => Discriminator.layout) Discriminator.shape where
  fields := by
    refine .cons (.required (fun d x => { d with propertyName := x }) .text (.inl (by decide))) ?_
    refine .cons (.optional (fun d x => { d with mapping := x }) (.map .text)) ?_
    exact .nil
  filled := by simp [Discriminator.layout, Discriminator.shape, Slot.required, Slot.optional]
  whole := fun _ _ h _ => Discriminator.whole_shape h

theorem stable_discriminator : Stable 0 0 Discriminator.layout.decode
    (fun _ => Discriminator.layout.decode) Discriminator.encode := by
  rw [show Discriminator.encode = Discriminator.shape.encode from
    funext Discriminator.encode_eq_shape]
  exact stably_discriminator.decode

section

variable {self : Decoder Schema} {back : Nat → Decoder Schema}

theorem stable_additional (h : Stable 0 0 self back encode) :
    Stable 0 0 (Additional.decode self) (fun n => Additional.decode (back n)) Additional.encode := by
  intro room d a hroom hd ha
  unfold Additional.decode at ha
  obtain ⟨-, -, ha⟩ := ok_of_bind ha
  split at ha
  · cases ha
    exact ⟨⟨.bool _, Nat.zero_le _⟩, fun _ _ => rfl⟩
  · obtain ⟨s, hs, rfl⟩ := ok_of_map (ok_of_mapError ha)
    obtain ⟨hstands, hreturns⟩ := h room d s hroom hd hs
    refine ⟨hstands, fun n hn => recovers_additional hstands.readable fun c hc => ?_⟩
    cases hc
    exact hreturns n hn

/-- The fields of a schema, the schemas in it being read by `self` and read back by `back`. -/
theorem stably_layout (h : Stable 0 0 self back encode) :
    Stably 0 0 (layout self) (fun n => layout (back n)) shape where
  distinct := nodup_keywords
  fields := by
    have hne : ∀ d s, d ≠ .null → self d = .ok s → s.encode ≠ .null := fun _ s _ _ => s.ne_null
    have hvalue : ∀ d v, d ≠ .null → Decoder.value d = .ok v → id v ≠ .null :=
      fun _ _ => ne_null_of_value
    refine .cons (.optional (fun s x => { s with ref := x }) .text) ?_
    refine .cons (.optional (fun s x => { s with type := x }) stable_typeNames
      fun _ t _ _ => t.ne_null) ?_
    refine .cons (.optional (fun s x => { s with format := x }) .text) ?_
    refine .cons (.optional (fun s x => { s with title := x }) .text) ?_
    refine .cons (.optional (fun s x => { s with description := x }) .text) ?_
    refine .cons (.optional (fun s x => { s with properties := x }) (.map h)) ?_
    refine .cons (.optional (fun s x => { s with required := x }) .texts) ?_
    refine .cons (.optional (fun s x => { s with additional := x }) (stable_additional h)
      fun _ a _ _ => a.ne_null) ?_
    refine .cons (.optional (fun s x => { s with items := x }) h hne) ?_
    refine .cons (.optional (fun s x => { s with prefixItems := x }) (.list h)) ?_
    refine .cons (.optional (fun s x => { s with minItems := x }) .nat) ?_
    refine .cons (.optional (fun s x => { s with maxItems := x }) .nat) ?_
    refine .cons (.optional (fun s x => { s with uniqueItems := x }) .bool) ?_
    refine .cons (.optional (fun s x => { s with enumValues := x }) .values) ?_
    refine .cons (.optional (fun s x => { s with constValue := x }) .value hvalue) ?_
    refine .cons (.optional (fun s x => { s with anyOf := x }) (.list h)) ?_
    refine .cons (.optional (fun s x => { s with oneOf := x }) (.list h)) ?_
    refine .cons (.optional (fun s x => { s with allOf := x }) (.list h)) ?_
    refine .cons (.optional (fun s x => { s with negated := x }) h hne) ?_
    refine .cons (.optional (fun s x => { s with discriminator := x }) stable_discriminator) ?_
    refine .cons (.optional (fun s x => { s with readOnly := x }) .bool) ?_
    refine .cons (.optional (fun s x => { s with writeOnly := x }) .bool) ?_
    refine .cons (.optional (fun s x => { s with deprecated := x }) .bool) ?_
    refine .cons (.optional (fun s x => { s with default := x }) .value hvalue) ?_
    refine .cons (.optional (fun s x => { s with example? := x }) .value hvalue) ?_
    refine .cons (.optional (fun s x => { s with minimum := x }) .number) ?_
    refine .cons (.optional (fun s x => { s with maximum := x }) .number) ?_
    refine .cons (.optional (fun s x => { s with exclusiveMinimum := x }) .number) ?_
    refine .cons (.optional (fun s x => { s with exclusiveMaximum := x }) .number) ?_
    refine .cons (.optional (fun s x => { s with multipleOf := x }) .number) ?_
    refine .cons (.optional (fun s x => { s with minLength := x }) .nat) ?_
    refine .cons (.optional (fun s x => { s with maxLength := x }) .nat) ?_
    refine .cons (.optional (fun s x => { s with pattern := x }) .text) ?_
    refine .cons (.optional (fun s x => { s with contentMediaType := x }) .text) ?_
    refine .cons (.optional (fun s x => { s with contentSchema := x }) h hne) ?_
    exact .nil
  filled := fun _ => List.forall_mem_nil _
  reached := List.forall_mem_nil _
  whole := fun _ _ => whole_shape
  other := Layout.keeps fun s more => { s with extensions := more }
  again := fun _ => Layout.keepsAgain fun s more => { s with extensions := more }

end

/-- A decoder of schemas, whatever its steps, gives schemas that are read back by any decoder with
steps enough. -/
theorem stable_decodeWithin (fuel : Nat) : Stable 0 0 (decodeWithin fuel) decodeWithin encode := by
  induction fuel with
  | zero =>
    intro room d s _ _ hs
    cases hs
  | succ fuel ih =>
    intro room d s _ hd hs
    obtain ⟨hstands, hrefills⟩ := (stably_layout ih).finishOpen (Nat.zero_le _) hd hs
    rw [← encode_eq_shape] at hstands hrefills
    refine ⟨hstands, fun n hn => ?_⟩
    cases n with
    | zero =>
      rw [encode_eq_shape] at hn
      cases hn
    | succ n =>
      have hback := (hrefills n hn).recovers_open
      rwa [Recovers, ← encode_eq_shape] at hback

theorem stable_decode : Stable 0 0 decode (fun _ => decode) encode := by
  intro room d s hroom hd hs
  obtain ⟨hstands, hreturns⟩ := stable_decodeWithin (d.height + 1) room d s hroom hd hs
  refine ⟨hstands, fun _ _ => ?_⟩
  have hback := hreturns _ (Nat.le_succ _)
  rwa [Recovers] at hback ⊢

end Schema

/-! ### Small records -/

instance Info.stably : Stably 0 0 Info.layout (fun _ => Info.layout) Info.shape where
  fields := by
    refine .cons (.required (fun i x => { i with title := x }) .text (.inl (by decide))) ?_
    refine .cons (.required (fun i x => { i with version := x }) .text (.inl (by decide))) ?_
    refine .cons (.optional (fun i x => { i with description := x }) .text) ?_
    exact .nil
  filled := by simp [Info.layout, Info.shape, Slot.required, Slot.optional]
  whole := fun _ _ h _ => Info.whole_shape h

theorem Info.stable : Stable 0 0 Info.layout.decode (fun _ => Info.layout.decode) Info.encode := by
  rw [funext Info.encode_eq_shape]
  exact Info.stably.decode

instance Server.stably : Stably 0 0 Server.layout (fun _ => Server.layout) Server.shape where
  fields := by
    refine .cons (.required (fun s x => { s with url := x }) .text (.inl (by decide))) ?_
    refine .cons (.optional (fun s x => { s with description := x }) .text) ?_
    exact .nil
  filled := by simp [Server.layout, Server.shape, Slot.required, Slot.optional]
  whole := fun _ _ h _ => Server.whole_shape h

theorem Server.stable :
    Stable 0 0 Server.layout.decode (fun _ => Server.layout.decode) Server.encode := by
  rw [funext Server.encode_eq_shape]
  exact Server.stably.decode

instance Tag.stably : Stably 0 0 Tag.layout (fun _ => Tag.layout) Tag.shape where
  fields := by
    refine .cons (.required (fun t x => { t with name := x }) .text (.inl (by decide))) ?_
    refine .cons (.optional (fun t x => { t with description := x }) .text) ?_
    exact .nil
  filled := by simp [Tag.layout, Tag.shape, Slot.required, Slot.optional]
  whole := fun _ _ h _ => Tag.whole_shape h

theorem Tag.stable : Stable 0 0 Tag.layout.decode (fun _ => Tag.layout.decode) Tag.encode := by
  rw [funext Tag.encode_eq_shape]
  exact Tag.stably.decode

/-! ### Parameters and contents -/

instance Parameter.stably :
    Stably 0 0 Parameter.layout (fun _ => Parameter.layout) Parameter.shape where
  fields := by
    refine .cons (.required (fun p x => { p with name := x }) .text (.inl (by decide))) ?_
    refine .cons (.required (fun p x => { p with location := x })
      (.choice Location.named?_name false false) (.inl (by decide))) ?_
    refine .cons (.optional (fun p x => { p with description := x }) .text) ?_
    refine .cons (.optional (fun p x => { p with required := x }) .bool) ?_
    refine .cons (.optional (fun p x => { p with deprecated := x }) .bool) ?_
    refine .cons (.optional (fun p x => { p with style := x }) .text) ?_
    refine .cons (.optional (fun p x => { p with explode := x }) .bool) ?_
    refine .cons (.optional (fun p x => { p with schema := x }) Schema.stable_decode
      fun _ s _ _ => s.ne_null) ?_
    exact .nil
  filled := by simp [Parameter.layout, Parameter.shape, Slot.required, Slot.optional]
  whole := fun _ _ h _ => Parameter.whole_shape h

theorem Parameter.stable :
    Stable 0 0 Parameter.layout.decode (fun _ => Parameter.layout.decode) Parameter.encode := by
  rw [funext Parameter.encode_eq_shape]
  exact Parameter.stably.decode

instance MediaType.stably :
    Stably 0 0 MediaType.layout (fun _ => MediaType.layout) MediaType.shape where
  fields := by
    refine .cons (.optional (fun m x => { m with schema := x }) Schema.stable_decode
      fun _ s _ _ => s.ne_null) ?_
    refine .cons (.optional (fun m x => { m with itemSchema := x }) Schema.stable_decode
      fun _ s _ _ => s.ne_null) ?_
    refine .cons (.optional (fun m x => { m with example? := x }) .value
      fun _ _ => ne_null_of_value) ?_
    exact .nil
  filled := fun _ => List.forall_mem_nil _
  whole := fun _ _ h _ => MediaType.whole_shape h

theorem MediaType.stable :
    Stable 0 0 MediaType.layout.decode (fun _ => MediaType.layout.decode) MediaType.encode := by
  rw [funext MediaType.encode_eq_shape]
  exact MediaType.stably.decode

instance RequestBody.stably :
    Stably 0 0 RequestBody.layout (fun _ => RequestBody.layout) RequestBody.shape where
  fields := by
    refine .cons (.optional (fun b x => { b with description := x }) .text) ?_
    refine .cons (.required (fun b x => { b with content := x }) (.map MediaType.stable)
      (.inl (by decide))) ?_
    refine .cons (.optional (fun b x => { b with required := x }) .bool) ?_
    exact .nil
  filled := by simp [RequestBody.layout, RequestBody.shape, Slot.required, Slot.optional]
  whole := fun _ _ h _ => RequestBody.whole_shape h

theorem RequestBody.stable :
    Stable 0 0 RequestBody.layout.decode (fun _ => RequestBody.layout.decode) RequestBody.encode := by
  rw [funext RequestBody.encode_eq_shape]
  exact RequestBody.stably.decode

instance Response.stably :
    Stably 0 0 Response.layout (fun _ => Response.layout) Response.shape where
  fields := by
    refine .cons (.required (fun r x => { r with description := x }) .text (.inl (by decide))) ?_
    refine .cons (.optional (fun r x => { r with content := x }) (.map MediaType.stable)) ?_
    exact .nil
  filled := by simp [Response.layout, Response.shape, Slot.required, Slot.optional]
  whole := fun _ _ h _ => Response.whole_shape h

theorem Response.stable :
    Stable 0 0 Response.layout.decode (fun _ => Response.layout.decode) Response.encode := by
  rw [funext Response.encode_eq_shape]
  exact Response.stably.decode

/-! ### Operations and documents -/

/-- A table that is written although it was left out takes the room of one container. -/
theorem stands_nil {α : Type} (encode : α → Json) {room : Nat} (h : 1 ≤ room) :
    Stands (room + 0) (tableJson encode []) :=
  have hstands : Stands (0 + 1) (tableJson encode []) := .obj List.nodup_nil (List.forall_mem_nil _)
  hstands.mono h

instance Operation.stably :
    Stably 0 1 Operation.layout (fun _ => Operation.layout) Operation.shape where
  fields := by
    have hsecurity : Stable 0 0 (.list SecurityRequirement.decode)
        (fun _ => .list SecurityRequirement.decode) securityJson := .list (.map .texts)
    refine .cons (.listed (fun o x => { o with tags := x }) .texts) ?_
    refine .cons (.optional (fun o x => { o with summary := x }) .text) ?_
    refine .cons (.optional (fun o x => { o with description := x }) .text) ?_
    refine .cons (.optional (fun o x => { o with operationId := x }) .text) ?_
    refine .cons (.listed (fun o x => { o with parameters := x }) (.list Parameter.stable)) ?_
    refine .cons (.optional (fun o x => { o with requestBody := x }) RequestBody.stable) ?_
    refine .cons (.required (fun o x => { o with responses := x }) (.map Response.stable)
      (.inr ⟨[], rfl, stands_nil _ (Nat.le_refl 1), fun _ => rfl⟩)) ?_
    refine .cons (.optional (fun o x => { o with deprecated := x }) .bool) ?_
    refine .cons (.optional (fun o x => { o with security := x }) hsecurity) ?_
    exact .nil
  filled := fun _ => List.forall_mem_nil _
  whole := fun _ _ => Operation.whole_shape
  other := Layout.keeps fun o more => { o with extensions := more }
  again := fun _ => Layout.keepsAgain fun o more => { o with extensions := more }

/-- The responses of an operation are written although there are none. -/
theorem Operation.stable : Stable 0 2 Operation.layout.decodeOpen
    (fun _ => Operation.layout.decodeOpen) Operation.encode := by
  rw [funext Operation.encode_eq_shape]
  exact Operation.stably.decodeOpen

theorem Operation.ne_null (o : Operation) : o.encode ≠ .null := by
  rw [Operation.encode_eq_shape]
  exact Shape.ne_null _ _

instance PathItem.stably :
    Stably 0 2 PathItem.layout (fun _ => PathItem.layout) PathItem.shape where
  fields := by
    have hn : ∀ d (o : Operation), d ≠ .null → Operation.layout.decodeOpen d = .ok o →
        o.encode ≠ .null := fun _ o _ _ => o.ne_null
    refine .cons (.listed (fun i x => { i with parameters := x }) (.list Parameter.stable)) ?_
    refine .cons (.optional (fun i x => i.withOperation .get x) Operation.stable hn) ?_
    refine .cons (.optional (fun i x => i.withOperation .put x) Operation.stable hn) ?_
    refine .cons (.optional (fun i x => i.withOperation .post x) Operation.stable hn) ?_
    refine .cons (.optional (fun i x => i.withOperation .delete x) Operation.stable hn) ?_
    refine .cons (.optional (fun i x => i.withOperation .options x) Operation.stable hn) ?_
    refine .cons (.optional (fun i x => i.withOperation .head x) Operation.stable hn) ?_
    refine .cons (.optional (fun i x => i.withOperation .patch x) Operation.stable hn) ?_
    refine .cons (.optional (fun i x => i.withOperation .trace x) Operation.stable hn) ?_
    exact .nil
  filled := fun _ => List.forall_mem_nil _
  whole := fun _ _ h _ => PathItem.whole_shape h

theorem PathItem.stable :
    Stable 0 3 PathItem.layout.decode (fun _ => PathItem.layout.decode) PathItem.encode := by
  rw [funext PathItem.encode_eq_shape]
  exact PathItem.stably.decode

instance Components.stably :
    Stably 0 0 Components.layout (fun _ => Components.layout) Components.shape where
  fields := by
    refine .cons (.listed (fun c x => { c with schemas := x }) (.map Schema.stable_decode)) ?_
    refine .cons (.listed (fun c x => { c with securitySchemes := x }) .fields) ?_
    exact .nil
  filled := fun _ => List.forall_mem_nil _
  whole := fun _ _ h _ => Components.whole_shape h

theorem Components.stable :
    Stable 0 0 Components.layout.decode (fun _ => Components.layout.decode) Components.encode := by
  rw [funext Components.encode_eq_shape]
  exact Components.stably.decode

instance Document.stably :
    Stably 0 4 Document.layout (fun _ => Document.layout) Document.shape where
  fields := by
    have hpaths : Stable 0 4 (.map PathItem.layout.decode) (fun _ => .map PathItem.layout.decode)
        (tableJson PathItem.encode) := PathItem.stable.map_within (by decide)
    refine .cons (.required (fun d x => { d with openapi := x }) .text (.inl (by decide))) ?_
    refine .cons (.required (fun d x => { d with info := x }) Info.stable (.inl (by decide))) ?_
    refine .cons (.listed (fun d x => { d with servers := x }) (.list Server.stable)) ?_
    refine .cons (.required (fun d x => { d with paths := x }) hpaths
      (.inr ⟨[], rfl, stands_nil _ (by decide), fun _ => rfl⟩)) ?_
    refine .cons (.optional (fun d x => { d with components := x }) Components.stable) ?_
    refine .cons (.listed (fun d x => { d with tags := x }) (.list Tag.stable)) ?_
    exact .nil
  filled := by simp [Document.layout, Document.shape, Slot.required, Slot.optional]
  whole := fun _ _ => Document.whole_shape
  other := Layout.keeps fun d more => { d with extensions := more }
  again := fun _ => Layout.keepsAgain fun d more => { d with extensions := more }

/-- The paths of a document are written although there are none. -/
theorem Document.stable : Stable 0 5 Document.layout.decodeOpen
    (fun _ => Document.layout.decodeOpen) Document.encode := by
  rw [funext Document.encode_eq_shape]
  exact Document.stably.decodeOpen

/-- The text that a decoded document is written as is decoded to the same document, whatever text it
was decoded from, and is its own text again. The numbers of the document are those that the reader
finds again in their texts. -/
theorem ofText_toText_of_ofText {t : String} {d : Document} (h : Document.ofText t = .ok d)
    (hn : ∀ n ∈ d.encode.numbers, n.ReadsBack) :
    ∃ e, Document.ofText d.toText = .ok e ∧ e = d ∧ e.toText = d.toText := by
  obtain ⟨hstands, hreturns⟩ := Document.stable.run (by decide) h
  refine ⟨d, ?_, rfl, rfl⟩
  rw [Document.ofText, Document.toText, run_pretty _ hstands.readable hstands.depth hn]
  exact hreturns _ (Nat.le_refl _)

/-- Members in another order than they are written in, information given as a list, a null for
nothing and a member that no rule knows. -/
def noteText : String :=
  "\x7b\"x-note\":\x7b\"b\":1,\"a\":[]\x7d,\"info\":[\"A\",\"1\"],\"openapi\":\"3.1.0\",\"components\":null\x7d"

def noteDocument : Document where
  info := { title := "A", version := "1" }
  extensions := [("x-note", .obj [("b", .ofNat 1), ("a", .arr [])])]

theorem ofText_toText_of_ofText_note :
    Document.ofText noteText = .ok noteDocument ∧
      (∀ n ∈ noteDocument.encode.numbers, n.ReadsBack) ∧
      ∃ e, Document.ofText noteDocument.toText = .ok e ∧ e = noteDocument ∧
        e.toText = noteDocument.toText := by
  have h : Document.ofText noteText = .ok noteDocument := by cbv
  have hn : ∀ n ∈ noteDocument.encode.numbers, n.ReadsBack := by decide
  exact ⟨h, hn, ofText_toText_of_ofText h hn⟩

end TypedApi.OpenApi
