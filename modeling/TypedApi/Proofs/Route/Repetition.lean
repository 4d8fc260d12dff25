import Mathlib.Data.List.Basic
import TypedApi.Route.Operation

/-! Query parameters that are passed once for each value.

A parameter is repeated if the schema at its place is a list or has one among its alternatives, and
if it stands in the query (`repeats_operations`). References are not followed for that: a list that
has an entry of its own in the table is not seen (`unrepeated_tags`). -/
namespace TypedApi.Route

open OpenApi (Schema Operation componentRef)

/-! ### Lists behind references -/

section ArrayValued

variable (named : List (String × Schema))

/-- References lead from one schema to the other. -/
inductive LeadsTo : Schema → Schema → Prop
  | here {s : Schema} : LeadsTo s s
  | ref {s u v : Schema} {key : String} (href : s.ref = some (componentRef key))
      (hentry : named.lookup key = some u) (h : LeadsTo u v) : LeadsTo s v

/-- The schema stands for a list. -/
def IsList (s : Schema) : Prop := ∃ u, LeadsTo named s u ∧ u.isArray = true

/-- The schema stands for a list, or for alternatives with a list among them. -/
def ArrayValued (s : Schema) : Prop :=
  ∃ u, LeadsTo named s u ∧ (u.isArray = true ∨ ∃ v ∈ u.anyOf.getD [], IsList named v)

/-- What the schema refers to has the property. -/
def Behind (P : Schema → Prop) (s : Schema) : Prop :=
  ∃ key u, s.ref = some (componentRef key) ∧ named.lookup key = some u ∧ P u

/-- All lists for which the schema or its alternatives stand are behind references. -/
structure Hidden (s : Schema) : Prop where
  plain : s.isArray = false
  alternatives : ∀ v ∈ s.anyOf.getD [], v.isArray = false
  behind : Behind named (ArrayValued named) s ∨
    ∃ v ∈ s.anyOf.getD [], Behind named (IsList named) v

variable {named} {s : Schema}

theorem isArraySchema_iff :
    isArraySchema s = true ↔ s.isArray = true ∨ ∃ v ∈ s.anyOf.getD [], v.isArray = true := by
  rw [isArraySchema, Bool.or_eq_true, List.any_eq_true]

/-- What a schema stands for is the schema itself, or stands behind its reference. -/
theorem leadsTo_iff {P : Schema → Prop} : (∃ u, LeadsTo named s u ∧ P u) ↔
    P s ∨ Behind named (fun u => ∃ v, LeadsTo named u v ∧ P v) s := by
  constructor
  · rintro ⟨u, h, hp⟩
    cases h with
    | here => exact .inl hp
    | ref href hentry h => exact .inr ⟨_, _, href, hentry, u, h, hp⟩
  · rintro (hp | ⟨key, u, href, hentry, w, h, hp⟩)
    · exact ⟨s, .here, hp⟩
    · exact ⟨w, .ref href hentry h, hp⟩

theorem isList_iff : IsList named s ↔ s.isArray = true ∨ Behind named (IsList named) s :=
  leadsTo_iff

theorem arrayValued_iff : ArrayValued named s ↔
    (s.isArray = true ∨ ∃ v ∈ s.anyOf.getD [], IsList named v) ∨
      Behind named (ArrayValued named) s :=
  leadsTo_iff

/-- A schema stands for a list if a list is seen at its place, or if all are hidden. -/
theorem arrayValued_iff_hidden :
    ArrayValued named s ↔ isArraySchema s = true ∨ Hidden named s := by
  rw [isArraySchema_iff, arrayValued_iff]
  constructor
  · intro h
    by_cases hseen : s.isArray = true ∨ ∃ v ∈ s.anyOf.getD [], v.isArray = true
    · exact .inl hseen
    · obtain ⟨hplain, halternatives⟩ := not_or.mp hseen
      refine .inr ⟨Bool.eq_false_iff.mpr hplain, fun v hv => ?_, ?_⟩
      · exact Bool.eq_false_iff.mpr fun hlist => halternatives ⟨v, hv, hlist⟩
      · rcases h with (hlist | ⟨v, hv, hlist⟩) | hbehind
        · exact absurd hlist hplain
        · refine .inr ⟨v, hv, (isList_iff.mp hlist).resolve_left fun hlist => ?_⟩
          exact halternatives ⟨v, hv, hlist⟩
        · exact .inl hbehind
  · rintro ((hlist | ⟨v, hv, hlist⟩) | h)
    · exact .inl (.inl hlist)
    · exact .inl (.inr ⟨v, hv, isList_iff.mpr (.inl hlist)⟩)
    · rcases h.behind with hbehind | ⟨v, hv, hbehind⟩
      · exact .inr hbehind
      · exact .inl (.inr ⟨v, hv, isList_iff.mpr (.inr hbehind)⟩)

theorem Hidden.unseen (h : Hidden named s) : isArraySchema s = false :=
  Bool.eq_false_iff.mpr fun hseen => by
    rcases isArraySchema_iff.mp hseen with hlist | ⟨v, hv, hlist⟩
    · rw [h.plain] at hlist
      cases hlist
    · rw [h.alternatives v hv] at hlist
      cases hlist

end ArrayValued

/-! ### Parameters -/

/-- The parameter is passed once for each value. -/
structure Repeats (p : OpenApi.Parameter) : Prop where
  style : p.style = some "form"
  explode : p.explode = some true

/-- How the parameter is passed is left open. -/
structure Unstyled (p : OpenApi.Parameter) : Prop where
  style : p.style = none
  explode : p.explode = none

/-- The route takes the type from the query under a name: as a parameter or as a property of one. -/
def Queries (registry : Registry) (route : Route) (name : String) (type : SourceType) : Prop :=
  ∃ q ∈ route.parameters, q.category = .query ∧
    (q.name = some name ∧ q.type = type ∨
      q.name = none ∧ ∃ ps, objectProperties? registry q.type = some ps ∧
        ∃ property ∈ ps, property.name = name ∧ property.type = type)

section Parameters

variable {registry : Registry} {route : Route} {t : SchemaTable}

/-- The style is given by the schema in the query, and left open elsewhere. -/
structure Styled (registry : Registry) (type : SourceType) (p : OpenApi.Parameter) : Prop where
  elsewhere : p.location ≠ .query → Unstyled p
  query : p.location = .query → ∃ t s, s = (SchemaTable.convert registry type t).1 ∧
    p.schema = some s ∧ (isArraySchema s = true → Repeats p) ∧ (isArraySchema s = false → Unstyled p)

theorem styled_parameterOf (location : OpenApi.Location) (name : String) (type : SourceType)
    (required : Bool) (description : Option String) (t : SchemaTable) :
    Styled registry type
      ((parameterOf registry location name type required description).run t).1 := by
  let repeated : Bool := location = .query && isArraySchema (SchemaTable.convert registry type t).1
  let p := ((parameterOf registry location name type required description).run t).1
  have hstyle : p.style = if repeated then some "form" else none := rfl
  have hexplode : p.explode = if repeated then some true else none := rfl
  have hstyled : ∀ b, repeated = b → if b then Repeats p else Unstyled p := by
    rintro (_ | _) hrepeated
    · exact ⟨by rw [hstyle, hrepeated]; rfl, by rw [hexplode, hrepeated]; rfl⟩
    · exact ⟨by rw [hstyle, hrepeated]; rfl, by rw [hexplode, hrepeated]; rfl⟩
  refine ⟨fun hne => hstyled false ?_, fun hquery => ?_⟩
  · have hother : location ≠ .query := hne
    simp [repeated, hother]
  · obtain rfl : location = .query := hquery
    exact ⟨t, _, rfl, rfl, hstyled true, hstyled false⟩

/-- A result of a list comes from one of its members. -/
theorem mem_run_mapM {α β : Type} {f : α → Compile β} {xs : List α} {t : SchemaTable} {y : β}
    (h : y ∈ ((xs.mapM f).run t).1) : ∃ x ∈ xs, ∃ t', y = ((f x).run t').1 := by
  induction xs generalizing t with
  | nil => cases h
  | cons x xs ih =>
    rw [List.mapM_cons] at h
    rcases List.mem_cons.mp h with rfl | h
    · exact ⟨x, List.mem_cons_self, t, rfl⟩
    · obtain ⟨z, hz, t', hy⟩ := ih h
      exact ⟨z, List.mem_cons_of_mem _ hz, t', hy⟩

theorem styled_expandParameter {location : OpenApi.Location} {q : Parameter} {p : OpenApi.Parameter}
    (h : p ∈ ((expandParameter registry location q).run t).1) :
    p.location = location ∧ ∃ type, Styled registry type p ∧
      (q.name = some p.name ∧ q.type = type ∨
        q.name = none ∧ ∃ ps, objectProperties? registry q.type = some ps ∧
          ∃ property ∈ ps, property.name = p.name ∧ property.type = type) := by
  unfold expandParameter at h
  split at h
  · next name hname =>
    obtain rfl := List.mem_singleton.mp h
    exact ⟨rfl, q.type, styled_parameterOf .., .inl ⟨hname, rfl⟩⟩
  · next hname =>
    split at h
    · cases h
    · next ps hps =>
      obtain ⟨property, hproperty, t', rfl⟩ := mem_run_mapM h
      exact ⟨rfl, property.type, styled_parameterOf .., .inr ⟨hname, ps, hps, property, hproperty,
        rfl, rfl⟩⟩

/-- What a parameter of the route gives besides the body. -/
def declaredParameters (registry : Registry) (q : Parameter) : Compile (List OpenApi.Parameter) :=
  match locationOf q.category with
  | some location => expandParameter registry location q
  | none => pure []

/-- A parameter of an operation is one that the route declares, or belongs to the path. -/
theorem styled_operationAt {path : String} {p : OpenApi.Parameter}
    (h : p ∈ ((operationAt registry route path).run t).1.parameters) :
    (p.location ≠ .query ∧ Unstyled p) ∨
      ∃ type, Styled registry type p ∧ (p.location = .query → Queries registry route p.name type) := by
  obtain ⟨declared, hdeclared, hp⟩ : ∃ declared,
      declared = ((route.parameters.mapM (declaredParameters registry)).run t).1 ∧
      p ∈ undeclared path declared.flatten ++ declared.flatten := by
    unfold operationAt at h
    by_cases hbodies : (route.parameters.filter (·.category = .body)).isEmpty = true
    · simp only [hbodies, if_true] at h
      exact ⟨_, rfl, h⟩
    · simp only [hbodies] at h
      exact ⟨_, rfl, h⟩
  rcases List.mem_append.mp hp with hp | hp
  · obtain ⟨name, -, rfl⟩ := List.mem_map.mp hp
    exact .inl ⟨fun hquery => (by cases hquery), rfl, rfl⟩
  · obtain ⟨ps, hps, hp⟩ := List.mem_flatten.mp hp
    rw [hdeclared] at hps
    obtain ⟨q, hq, t', rfl⟩ := mem_run_mapM hps
    rw [declaredParameters] at hp
    cases hl : locationOf q.category with
    | none =>
      rw [hl] at hp
      cases hp
    | some location =>
      rw [hl] at hp
      obtain ⟨hlocation, type, hstyled, hname⟩ := styled_expandParameter hp
      refine .inr ⟨type, hstyled, fun hquery => ⟨q, hq, ?_, hname⟩⟩
      have hcategory : ∀ c, locationOf c = some .query → c = .query := fun c h => by
        cases c <;> first | rfl | cases h
      exact hcategory _ (hl.trans (congrArg some (hlocation.symm.trans hquery)))

/-- A query parameter of a route is repeated exactly if it is array-valued, unless all its lists are
behind references: those are never repeated. How a parameter is passed elsewhere is left open. -/
theorem repeats_operations {versioning : Versioning} {offer : String × Method × Operation}
    {p : OpenApi.Parameter} (h : offer ∈ ((operations registry versioning route).run t).1)
    (hp : p ∈ offer.2.2.parameters) :
    (p.location ≠ .query → Unstyled p) ∧
      (p.location = .query → ∃ type t₀ s, Queries registry route p.name type ∧
        s = (SchemaTable.convert registry type t₀).1 ∧ p.schema = some s ∧ (Repeats p ∨ Unstyled p) ∧
        ∀ named, (Repeats p ↔ ArrayValued named s) ↔ ¬ Hidden named s) := by
  have hstyled : (p.location ≠ .query ∧ Unstyled p) ∨
      ∃ type, Styled registry type p ∧ (p.location = .query → Queries registry route p.name type) := by
    unfold operations at h
    split at h
    · obtain rfl := List.mem_singleton.mp h
      exact styled_operationAt hp
    · split at h
      · obtain ⟨version, -, rfl⟩ := List.mem_map.mp h
        exact styled_operationAt hp
      · obtain rfl := List.mem_singleton.mp h
        rcases List.mem_append.mp hp with hp | hp
        · exact styled_operationAt hp
        · obtain rfl := List.mem_singleton.mp hp
          exact .inl ⟨fun hquery => (by cases hquery), rfl, rfl⟩
  rcases hstyled with ⟨hne, hunstyled⟩ | ⟨type, hstyled, hqueries⟩
  · exact ⟨fun _ => hunstyled, fun hquery => absurd hquery hne⟩
  refine ⟨hstyled.elsewhere, fun hquery => ?_⟩
  obtain ⟨t₀, s, hs, hschema, hrepeats, hunstyled⟩ := hstyled.query hquery
  refine ⟨type, t₀, s, hqueries hquery, hs, hschema, ?_, fun named => ?_⟩
  · cases hseen : isArraySchema s with
    | true => exact .inl (hrepeats hseen)
    | false => exact .inr (hunstyled hseen)
  · have hiff : Repeats p ↔ isArraySchema s = true := by
      refine ⟨fun h => ?_, hrepeats⟩
      by_contra hseen
      have hnone := (hunstyled (Bool.eq_false_iff.mpr hseen)).style
      rw [h.style] at hnone
      cases hnone
    rw [hiff, arrayValued_iff_hidden]
    constructor
    · intro hagree hhidden
      have hseen := hagree.mpr (.inr hhidden)
      rw [hhidden.unseen] at hseen
      cases hseen
    · exact fun hhidden => ⟨.inl, fun h => h.resolve_right hhidden⟩

end Parameters

/-- Takes `tags` from the query. -/
def listing (type : SourceType) : Route where
  controller := "c"
  handler := "h"
  method := .get
  path := "/"
  parameters := [{ category := .query, name := some "tags", type }]

def severalTexts : SourceType := .ofForm (.array (.ofForm (.atomic .string)))

theorem repeats_operations_tags :
    let offers := ((operations ⟨[]⟩ {} (listing severalTexts)).run {}).1
    ∃ offer p, offer ∈ offers ∧ p ∈ offer.2.2.parameters ∧ p.location = .query ∧ Repeats p ∧
      ∃ s, p.schema = some s ∧ ∀ named, (Repeats p ↔ ArrayValued named s) ↔ ¬ Hidden named s := by
  intro offers
  obtain ⟨offer, p, hoffer, hp, hquery, hrepeats⟩ : ∃ offer p, offer ∈ offers ∧
      p ∈ offer.2.2.parameters ∧ p.location = .query ∧ Repeats p :=
    ⟨_, _, List.mem_cons_self, List.mem_cons_self, rfl, rfl, rfl⟩
  obtain ⟨type, t₀, s, -, -, hschema, -, hiff⟩ := (repeats_operations hoffer hp).2 hquery
  exact ⟨offer, p, hoffer, hp, hquery, hrepeats, s, hschema, hiff⟩

/-- The texts under a name of their own are no less a list, but are not repeated. -/
theorem unrepeated_tags :
    let registry : Registry := ⟨[("Tags", severalTexts)]⟩
    let run := (operations registry {} (listing (.ofForm (.ref "Tags")))).run {}
    ∃ offer p s, offer ∈ run.1 ∧ p ∈ offer.2.2.parameters ∧ p.location = .query ∧
      p.schema = some s ∧ ArrayValued run.2.named s ∧ ¬ Repeats p := by
  refine ⟨_, _, _, List.mem_cons_self, List.mem_cons_self, rfl, rfl, ?_, fun h => ?_⟩
  · exact ⟨_, .ref rfl (by rfl) .here, .inl rfl⟩
  · cases h.style

end TypedApi.Route
