import TypedApi.OpenApi.Schema.Decoding
import TypedApi.Proofs.Json.Table
import TypedApi.Proofs.OpenApi.Schema
import TypedApi.Proofs.SchemaTable.Assembly

/-! What rules and modifiers write onto schemas.

Rules, the modifiers of properties and those of types only set keywords without schemas:
the result `Annotates` the schema that they were written onto. -/
namespace TypedApi.SchemaTable

open OpenApi

/-- `u` is `s` with other keywords that hold no schema and say nothing about properties, and
with extensions for rules. -/
structure Annotates (s u : Schema) : Prop where
  ref : u.ref = s.ref
  properties : u.properties = s.properties
  required : u.required = s.required
  discriminator : u.discriminator = s.discriminator
  children : u.children = s.children
  extensions : ∀ e ∈ u.extensions, e ∈ s.extensions ∨ ∃ c, e ∈ ruleExtensions c

variable {s u v : Schema}

theorem Annotates.trans (h : Annotates s u) (g : Annotates u v) : Annotates s v where
  ref := g.ref.trans h.ref
  properties := g.properties.trans h.properties
  required := g.required.trans h.required
  discriminator := g.discriminator.trans h.discriminator
  children := g.children.trans h.children
  extensions e he := (g.extensions e he).elim (h.extensions e) .inr

theorem annotates_numericType (s : Schema) (t : NumericType) : Annotates s (applyNumericType s t) := by
  unfold applyNumericType
  split <;> exact ⟨rfl, rfl, rfl, rfl, rfl, fun e he => .inl he⟩

theorem annotates_applyRules (s : Schema) (c : Constraints) : Annotates s (applyRules s c) := by
  unfold applyRules
  cases c.numericType with
  | none =>
    exact ⟨rfl, rfl, rfl, rfl, rfl, fun e he => (Json.mem_of_mem_assignAll he).imp_right (⟨c, ·⟩)⟩
  | some t =>
    refine (annotates_numericType s t).trans ⟨rfl, rfl, rfl, rfl, rfl, fun e he => ?_⟩
    exact (Json.mem_of_mem_assignAll he).imp_right (⟨c, ·⟩)

theorem annotates_decorate (p : Property) (s : Schema) : Annotates s (decorate p s) := by
  unfold decorate
  cases p.constraints with
  | none => exact ⟨rfl, rfl, rfl, rfl, rfl, fun e he => .inl he⟩
  | some c =>
    exact (annotates_applyRules s c).trans ⟨rfl, rfl, rfl, rfl, rfl, fun e he => .inl he⟩

theorem annotates_finish (type : SourceType) (s : Schema) : Annotates s (finish type s) := by
  have hdescribed : Annotates s { s with description := type.description <|> s.description } :=
    ⟨rfl, rfl, rfl, rfl, rfl, fun e he => .inl he⟩
  unfold finish
  cases type.constraints with
  | none => exact hdescribed
  | some c => exact hdescribed.trans (annotates_applyRules _ c)

/-- The extensions for rules are no keywords. -/
theorem notMem_keywords_of_ruleExtensions {c : Constraints} {e : String × Json}
    (he : e ∈ ruleExtensions c) : e.1 ∉ Schema.keywords := by
  have hkey : e.1 ∈ [transformsKey, coerceKey, validatorKey, messagesKey] := by
    unfold ruleExtensions at he
    simp only [List.mem_append] at he
    rcases he with ((he | he) | he) | he <;> split at he <;>
      simp only [List.not_mem_nil, List.mem_singleton] at he <;> simp [he]
  revert hkey
  generalize e.1 = key
  simp only [List.mem_cons, List.not_mem_nil, or_false]
  rintro (rfl | rfl | rfl | rfl) <;> decide

end TypedApi.SchemaTable
