import TypedApi.OpenApi.Document.Decoding
import TypedApi.OpenApi.Document.Encoding
import TypedApi.Proofs.Json.Fields
import TypedApi.Proofs.OpenApi.Schema

/-! The members that schemas are written with.

The encoder of schemas recurses through lists and options by hand. `encode_eq` states it
with the combinators that every other record uses. -/
namespace TypedApi.OpenApi

open Json.Fields

theorem encodeSchemas_eq (ss : List Schema) : encodeSchemas ss = ss.map Schema.encode := by
  induction ss with
  | nil => rfl
  | cons s ss ih => rw [encodeSchemas, ih, List.map_cons]

theorem encodeNamed_eq (ps : List (String × Schema)) :
    encodeNamed ps = ps.map fun e => (e.1, e.2.encode) := by
  induction ps with
  | nil => rfl
  | cons p ps ih =>
    obtain ⟨name, s⟩ := p
    rw [encodeNamed, ih, List.map_cons]

theorem encodeOption_eq (key : String) (s : Option Schema) :
    encodeOption key s = present key s Schema.encode := by
  cases s <;> rfl

theorem encodeOptionList_eq (key : String) (ss : Option (List Schema)) :
    encodeOptionList key ss = present key ss (listJson Schema.encode) := by
  cases ss with
  | none => rfl
  | some ss => rw [encodeOptionList, encodeSchemas_eq]; rfl

theorem encodeProperties_eq (ps : Option (List (String × Schema))) :
    encodeProperties ps = present "properties" ps (tableJson Schema.encode) := by
  cases ps with
  | none => rfl
  | some ps => rw [encodeProperties, encodeNamed_eq]; rfl

def Additional.encode : Additional → Json
  | .bool b => .bool b
  | .schema s => s.encode

theorem encodeAdditional_eq (a : Option Additional) :
    encodeAdditional a = present "additionalProperties" a Additional.encode := by
  cases a with
  | none => rfl
  | some a => cases a <;> rfl

namespace Schema

/-- The keywords of a schema, with what stands under them. -/
def slots (s : Schema) : List (String × Option Json) := [
  ("$ref", s.ref.map .str),
  ("type", s.type.map TypeNames.encode),
  ("format", s.format.map .str),
  ("title", s.title.map .str),
  ("description", s.description.map .str),
  ("properties", s.properties.map (tableJson encode)),
  ("required", s.required.map texts),
  ("additionalProperties", s.additional.map Additional.encode),
  ("items", s.items.map encode),
  ("prefixItems", s.prefixItems.map (listJson encode)),
  ("minItems", s.minItems.map .ofNat),
  ("maxItems", s.maxItems.map .ofNat),
  ("uniqueItems", s.uniqueItems.map .bool),
  ("enum", s.enumValues.map .arr),
  ("const", s.constValue.map id),
  ("anyOf", s.anyOf.map (listJson encode)),
  ("oneOf", s.oneOf.map (listJson encode)),
  ("allOf", s.allOf.map (listJson encode)),
  ("not", s.negated.map encode),
  ("discriminator", s.discriminator.map Discriminator.encode),
  ("readOnly", s.readOnly.map .bool),
  ("writeOnly", s.writeOnly.map .bool),
  ("deprecated", s.deprecated.map .bool),
  ("default", s.default.map id),
  ("example", s.example?.map id),
  ("minimum", s.minimum.map .num),
  ("maximum", s.maximum.map .num),
  ("exclusiveMinimum", s.exclusiveMinimum.map .num),
  ("exclusiveMaximum", s.exclusiveMaximum.map .num),
  ("multipleOf", s.multipleOf.map .num),
  ("minLength", s.minLength.map .ofNat),
  ("maxLength", s.maxLength.map .ofNat),
  ("pattern", s.pattern.map .str),
  ("contentMediaType", s.contentMediaType.map .str),
  ("contentSchema", s.contentSchema.map encode)]

/-- A schema is written as its keywords and then its extensions. -/
theorem encode_eq (s : Schema) : s.encode = .obj (ofSlots s.slots ++ s.extensions) := by
  cases s
  rw [encode]
  unfold slots
  simp only [encodeProperties_eq, encodeAdditional_eq, encodeOption_eq, encodeOptionList_eq,
    present_eq_ofSlots, ← ofSlots_append, List.cons_append, List.nil_append]

theorem nodup_keywords : keywords.Nodup := by decide

/-- The members that are kept besides the keywords are no keywords. -/
def PlainExtensions (s : Schema) : Prop := ∀ e ∈ s.extensions, e.1 ∉ keywords

/-- What stands under a keyword is found there. -/
theorem lookup_slot {s : Schema} (hx : s.PlainExtensions) {key : String} {value : Option Json}
    (h : (key, value) ∈ s.slots) : (ofSlots s.slots ++ s.extensions).lookup key = value := by
  have hk : key ∈ s.slots.map (·.1) := List.mem_map.mpr ⟨_, h, rfl⟩
  have hnone : s.extensions.lookup key = none := by
    refine lookup_of_notMem fun hm => ?_
    obtain ⟨e, he, rfl⟩ := List.mem_map.mp hm
    exact hx e he hk
  have hn : (s.slots.map (·.1)).Nodup := nodup_keywords
  rw [List.lookup_append, hnone, Option.or_none]
  exact lookup_ofSlots hn h

theorem get?_encode {s : Schema} (hx : s.extensions = []) {key : String} {value : Option Json}
    (h : (key, value) ∈ s.slots) : s.encode.get? key = value := by
  rw [encode_eq, Json.get?, lookup_slot (by rw [PlainExtensions, hx]; exact List.forall_mem_nil _) h]

end Schema
end TypedApi.OpenApi
