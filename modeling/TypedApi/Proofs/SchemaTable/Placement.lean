import TypedApi.Proofs.SchemaTable.References

/-! Where the schema of a type stands, and what it carries.

A type that is no reference has one schema, which stands at its site, but for the null that the
site may be, or in the entry that the site refers to (`placed_convert`). So its description and its
rules are found there (`carried_convert`). A reference has no schema of its own: it leads to the
description and the rules of its target, and its own ones are lost (`uncarried_reference`). -/
namespace TypedApi.SchemaTable

open OpenApi

/-! ### One schema for each type -/

/-- The table on which the parts of a type are converted: if the type has an entry, this is opened
first. -/
def opened (type : SourceType) (t : SchemaTable) : SchemaTable :=
  match referredName? type with
  | some name => (t.keyFor name).2.store (t.keyFor name).1 {}
  | none => t

/-- The table has no entry that the site of the type refers to. -/
def Unstored (t : SchemaTable) (type : SourceType) : Prop :=
  ∀ name, referredName? type = some name → t.has (t.keyFor name).1 = false

/-- The conversion of `type` on `t` leaves `s` where the schema of the type stands: at the site,
with the null that it may be, or in the entry that the site refers to. -/
inductive Placed (registry : Registry) (type : SourceType) (t : SchemaTable) (s : Schema) : Prop
  | inline (hname : referredName? type = none)
      (hsite : (convert registry type t).1 = withNull type.nullable s)
  | stored {name : String} (hname : referredName? type = some name)
      (hsite : (convert registry type t).1 = withNull type.nullable (.reference (t.keyFor name).1))
      (hentry : (convert registry type t).2.named.lookup (t.keyFor name).1 = some s)

section Placement

variable {type : SourceType} {t : SchemaTable}

theorem opened_named {name : String} (h : referredName? type = some name) :
    opened type t = (t.keyFor name).2.store (t.keyFor name).1 {} := by
  rw [opened, h]

theorem opened_inline (h : referredName? type = none) : opened type t = t := by
  rw [opened, h]

theorem unstored_fresh (type : SourceType) : Unstored {} type := fun name _ => by
  rw [has]
  rfl

/-- The schema of a type that has no entry yet is made from the schemas of its parts. -/
theorem placed_convert (registry : Registry) (hform : ∀ target, type.form ≠ .ref target)
    (hnew : Unstored t type) :
    Placed registry type t (finish type (assemble type.form
      (convertAll registry (parts type.form) (opened type t)).1)) := by
  have hbody := body_of_parts registry hform (opened type t)
  cases hname : referredName? type with
  | none =>
    have hown := (referredName?_eq_none_iff.mp hname).2
    rw [opened_inline hname] at hbody ⊢
    refine .inline hname ?_
    rw [convert_eq (.inline hform hown hbody)]
  | some name =>
    obtain ⟨hregistrable, hown⟩ := (referredName?_eq_some_iff.mp hname).resolve_left (hform name)
    have hhas : (t.keyFor name).2.has (t.keyFor name).1 = false :=
      (has_keyFor ..).trans (hnew name hname)
    rw [opened_named hname] at hbody ⊢
    have hentry : Entry registry name (some (type, false)) t (.reference (t.keyFor name).1) _ :=
      .fill (t.keyFor name).1 rfl hhas hbody
    have hsite := convert_eq (.named hregistrable hown hentry)
    refine .stored hname ?_ ?_
    · rw [hsite]
    · rw [hsite, lookup_store_self]
      rfl

/-- A reference to a registered type that has no entry yet is converted to the reference to the
entry of this type. -/
theorem placed_target (registry : Registry) {target : String} {found : SourceType}
    (hform : type.form = .ref target) (hget : registry.get? target = some found)
    (hnew : Unstored t type) :
    ∃ s t', Body registry found (opened type t) s t' ∧
      Placed registry type t (withNull found.nullable s) := by
  have hname := referredName?_ref hform
  have hkey : t.keyFor target = ((t.keyFor target).1, (t.keyFor target).2) := rfl
  have hhas : (t.keyFor target).2.has (t.keyFor target).1 = false :=
    (has_keyFor ..).trans (hnew target hname)
  rw [opened_named hname]
  obtain ⟨s, hbody⟩ := exists_body registry found ((t.keyFor target).2.store (t.keyFor target).1 {})
  have hsite := convert_eq (site_of_found hform hget hkey hhas hbody)
  refine ⟨s, _, hbody, .stored hname ?_ ?_⟩
  · rw [hsite]
  · rw [hsite, lookup_store_self]

/-- A type without parts and without an entry has its schema whatever the table is, and the table
stays as it is. -/
theorem Site.eq_of_leaf {registry : Registry} {s : Schema} {t' : SchemaTable}
    (h : Site registry type t s t') (hname : referredName? type = none)
    (hparts : parts type.form = []) :
    s = withNull type.nullable (finish type (assemble type.form [])) ∧ t' = t := by
  obtain ⟨hform, hown⟩ := referredName?_eq_none_iff.mp hname
  have hbody := body_of_parts registry hform t
  rw [hparts, convertAll_eq .nil] at hbody
  exact h.unique (.inline hform hown hbody)

end Placement

/-! ### Properties -/

/-- The schema that an object has for a property. -/
def propertySchema? (s : Schema) (name : String) : Option Schema :=
  (s.properties.getD []).lookup name

section Properties

variable {registry : Registry} {before after : List Property} {p : Property}
  {index : Option IndexSignature} {strictness : Strictness} {t t' : SchemaTable}

/-- The last property of a name has the schema of its type with its own modifiers. -/
theorem property_objectOf {ss : List Schema}
    (h : Sites registry (parts (.object (before ++ p :: after) index strictness)) t ss t')
    (hlast : ∀ r ∈ after, r.name ≠ p.name) :
    ∃ t₁ s t₂, Site registry p.type t₁ s t₂ ∧
      propertySchema? (objectOf (before ++ p :: after) index strictness ss) p.name =
        some (decorate p s) := by
  rw [parts, List.map_append, List.map_cons, List.append_assoc, List.cons_append] at h
  obtain ⟨ss₁, t₁, ss₂, rfl, hbefore, hrest⟩ := h.split
  cases hrest with
  | @cons _ _ _ s t₂ ss₂ _ hsite hmore =>
    refine ⟨t₁, s, t₂, hsite, ?_⟩
    have hbefore := hbefore.length_eq
    have hmore := hmore.length_eq
    rw [List.length_map] at hbefore
    rw [List.length_append, List.length_map] at hmore
    have hkeys : (List.zipWith (fun p s => (p.name, decorate p s)) after ss₂).map (·.1) =
        after.map (·.name) := by
      rw [List.map_zipWith]
      exact zipWith_left (by omega)
    have hnew : p.name ∉
        (List.zipWith (fun p s => (p.name, decorate p s)) after ss₂).map (·.1) := by
      rw [hkeys, List.mem_map]
      rintro ⟨r, hr, hname⟩
      exact hlast r hr hname
    have hfound := Json.lookup_table_append_cons
      (List.zipWith (fun p s => (p.name, decorate p s)) before ss₁) (decorate p s) hnew
    simp only [propertySchema?, objectOf, objectSchema]
    rw [List.zipWith_append hbefore.symm, List.zipWith_cons_cons, if_neg (by simp)]
    exact hfound

theorem placed_property (registry : Registry) {type : SourceType}
    (hform : type.form = .object (before ++ p :: after) index strictness) (hnew : Unstored t type)
    (hlast : ∀ r ∈ after, r.name ≠ p.name) :
    ∃ s t₁ u t₂, Placed registry type t s ∧ Site registry p.type t₁ u t₂ ∧
      propertySchema? s p.name = some (decorate p u) := by
  have hplaced := placed_convert registry (by simp [hform]) hnew
  have hsites := sites_convertAll registry (parts type.form) (opened type t)
  rw [hform] at hsites
  obtain ⟨t₁, u, t₂, hsite, hproperty⟩ := property_objectOf hsites hlast
  refine ⟨_, t₁, u, t₂, hplaced, hsite, ?_⟩
  rw [propertySchema?, (annotates_finish type _).properties, hform]
  exact hproperty

theorem Site.eq_of_atomic {type : SourceType} {s : Schema} (h : Site registry type t s t')
    {atomic : Atomic} (hform : type.form = .atomic atomic) (hnull : type.nullable = false) :
    s = finish type (atomicSchema atomic) := by
  have hname : referredName? type = none := by simp [referredName?, hform, isRegistrable]
  have hparts : parts type.form = [] := by
    rw [hform]
    rfl
  rw [(h.eq_of_leaf hname hparts).1, hnull, hform]
  rfl

end Properties

/-! ### Descriptions and rules -/

/-- The schema has the values of all rules that have a keyword of their own. -/
structure Keeps (c : Constraints) (s : Schema) : Prop where
  minimum : ∀ n ∈ c.minimum, s.minimum = some n
  maximum : ∀ n ∈ c.maximum, s.maximum = some n
  exclusiveMinimum : ∀ n ∈ c.exclusiveMinimum, s.exclusiveMinimum = some n
  exclusiveMaximum : ∀ n ∈ c.exclusiveMaximum, s.exclusiveMaximum = some n
  multipleOf : ∀ n ∈ c.multipleOf, s.multipleOf = some n
  minLength : ∀ n ∈ c.minLength, s.minLength = some n
  maxLength : ∀ n ∈ c.maxLength, s.maxLength = some n
  format : ∀ f ∈ c.format, s.format = some f
  pattern : ∀ p ∈ c.pattern, s.pattern = some p
  minItems : ∀ n ∈ c.minItems, s.minItems = some n
  maxItems : ∀ n ∈ c.maxItems, s.maxItems = some n
  uniqueItems : ∀ b ∈ c.uniqueItems, s.uniqueItems = some b
  default : ∀ v ∈ c.default, s.default = some v

/-- The schema has the description and the rules of the type. -/
structure Carries (type : SourceType) (s : Schema) : Prop where
  description : ∀ text ∈ type.description, s.description = some text
  rules : ∀ c ∈ type.constraints, Keeps c s

theorem orElse_of_mem {α : Type} {o p : Option α} {x : α} (h : x ∈ o) : (o <|> p) = some x := by
  rw [Option.mem_def.mp h]
  rfl

/-- Whatever the schema says, rules that are written onto it take its place. -/
theorem keeps_applyRules (c : Constraints) (s : Schema) : Keeps c (applyRules s c) where
  minimum _ h := orElse_of_mem h
  maximum _ h := orElse_of_mem h
  exclusiveMinimum _ h := orElse_of_mem h
  exclusiveMaximum _ h := orElse_of_mem h
  multipleOf _ h := orElse_of_mem h
  minLength _ h := orElse_of_mem h
  maxLength _ h := orElse_of_mem h
  format _ h := orElse_of_mem h
  pattern _ h := orElse_of_mem h
  minItems _ h := orElse_of_mem h
  maxItems _ h := orElse_of_mem h
  uniqueItems _ h := orElse_of_mem h
  default _ h := orElse_of_mem h

theorem description_numericType (s : Schema) (n : NumericType) :
    (applyNumericType s n).description = s.description := by
  unfold applyNumericType
  split <;> rfl

theorem description_applyRules (c : Constraints) (s : Schema) :
    (applyRules s c).description = s.description := by
  unfold applyRules
  cases c.numericType with
  | none => rfl
  | some n => exact description_numericType s n

theorem carries_finish (type : SourceType) (s : Schema) : Carries type (finish type s) where
  description text h := by
    unfold finish
    cases type.constraints with
    | none => exact orElse_of_mem h
    | some c => exact (description_applyRules c _).trans (orElse_of_mem h)
  rules c h := by
    rw [finish, Option.mem_def.mp h]
    exact keeps_applyRules c _

theorem Body.carries {registry : Registry} {type : SourceType} {t t' : SchemaTable} {s : Schema}
    (h : Body registry type t s t') : Carries type s := by
  cases h with
  | parts _ _ => exact carries_finish type _
  | ref _ _ => exact carries_finish type _

/-- Whatever kind of type is converted on a fresh table, its description and its rules stand where
its schema stands. Where a reference is converted, those of the registered type do. -/
theorem carried_convert (registry : Registry) (type : SourceType) :
    ((∀ target, type.form ≠ .ref target) → ∃ s, Placed registry type {} s ∧ Carries type s) ∧
    ∀ target found, type.form = .ref target → registry.get? target = some found →
      ∃ s, Placed registry type {} (withNull found.nullable s) ∧ Carries found s := by
  have hnew := unstored_fresh type
  constructor
  · intro hform
    exact ⟨_, placed_convert registry hform hnew, carries_finish type _⟩
  · intro target found hform hget
    obtain ⟨s, _, hbody, hplaced⟩ := placed_target registry hform hget hnew
    exact ⟨s, hplaced, hbody.carries⟩

/-- A named choice that may be null. -/
def ticket : SourceType where
  form := .union [.ofForm (.atomic .string), .ofForm (.ref "Ticket")] none
  nullable := true
  name := some "Ticket"
  description := some "A number or another ticket"
  constraints := some { minLength := some 1, default := some (.str "T-1") }

def users : Registry := ⟨[("User", { user with name := some "User" })]⟩

/-- A reference that says more about the user. -/
def payer : SourceType where
  form := .ref "User"
  description := some "Who pays"
  constraints := some { default := some (.obj []) }

/-- The site of the ticket is the reference or null, and the entry has the description and the
rules. The payer is the reference to the user, who has neither. -/
theorem carried_convert_ticket :
    ((∀ target, ticket.form ≠ .ref target) ∧
      (convert ⟨[]⟩ ticket {}).1 = (Schema.reference "Ticket").orNull ∧
      ∃ s, Placed ⟨[]⟩ ticket {} s ∧ Carries ticket s) ∧
    (payer.form = .ref "User" ∧ users.get? "User" = some { user with name := some "User" } ∧
      ∃ s, Placed users payer {} (withNull false s) ∧
        Carries { user with name := some "User" } s) := by
  have hform : ∀ target, ticket.form ≠ .ref target := by
    intro target h
    cases h
  exact ⟨⟨hform, by rfl, (carried_convert ⟨[]⟩ ticket).1 hform⟩,
    rfl, rfl, (carried_convert users payer).2 "User" _ rfl rfl⟩

/-- The description and the rules of a reference are neither at its site nor in the entry. -/
theorem uncarried_reference :
    (convert users payer {}).1 = .reference "User" ∧
      (convert users payer {}).2.named.lookup "User" = some (.ofType "object") ∧
      (∀ s ∈ [Schema.reference "User", .ofType "object"],
        s.description ≠ some "Who pays" ∧ ∀ c ∈ payer.constraints, ¬ Keeps c s) := by
  refine ⟨by rfl, by rfl, ?_⟩
  simp only [List.forall_mem_cons, List.not_mem_nil, false_imp_iff, implies_true, and_true]
  refine ⟨⟨?_, ?_⟩, ?_, ?_⟩
  · intro h
    cases h
  · rintro c ⟨⟩ h
    cases h.default _ rfl
  · intro h
    cases h
  · rintro c ⟨⟩ h
    cases h.default _ rfl

end TypedApi.SchemaTable
