import TypedApi.OpenApi.Schema

/-! The schemas inside a schema.

`children` are the schemas that stand directly in a schema, and `All P` says that `P`
holds of a schema and of every schema inside it, at any depth. -/
namespace TypedApi.OpenApi

def Additional.schema? : Additional → Option Schema
  | .bool _ => none
  | .schema s => some s

namespace Schema

/-- The schemas that stand directly in a schema. -/
def children (s : Schema) : List Schema :=
  (s.properties.getD []).map (·.2) ++ (s.additional.bind Additional.schema?).toList ++
    s.items.toList ++ s.prefixItems.getD [] ++ s.anyOf.getD [] ++ s.oneOf.getD [] ++
    s.allOf.getD [] ++ s.negated.toList ++ s.contentSchema.toList

/-- `P` holds of the schemas that stand directly in a schema, place by place. -/
structure Placed (P : Schema → Prop) (s : Schema) : Prop where
  properties : ∀ ps ∈ s.properties, ∀ e ∈ ps, P e.2
  additional : ∀ a ∈ s.additional, ∀ c ∈ a.schema?, P c
  items : ∀ c ∈ s.items, P c
  prefixItems : ∀ cs ∈ s.prefixItems, ∀ c ∈ cs, P c
  anyOf : ∀ cs ∈ s.anyOf, ∀ c ∈ cs, P c
  oneOf : ∀ cs ∈ s.oneOf, ∀ c ∈ cs, P c
  allOf : ∀ cs ∈ s.allOf, ∀ c ∈ cs, P c
  negated : ∀ c ∈ s.negated, P c
  contentSchema : ∀ c ∈ s.contentSchema, P c

theorem placed {P : Schema → Prop} {s : Schema} (h : ∀ c ∈ s.children, P c) : s.Placed P := by
  have hone : ∀ {o : Option Schema}, (∀ c ∈ o.toList, c ∈ s.children) → ∀ c ∈ o, P c :=
    fun ho c hc => h c (ho c (Option.mem_toList.mpr hc))
  have hlist : ∀ {o : Option (List Schema)}, (∀ c ∈ o.getD [], c ∈ s.children) →
      ∀ cs ∈ o, ∀ c ∈ cs, P c := fun ho cs hcs c hc => h c (ho c (by rwa [show _ = some cs from hcs]))
  exact {
    properties := fun ps hps e he => h e.2 (by
      rw [children, show s.properties = some ps from hps]
      simp only [List.append_assoc]
      exact List.mem_append_left _ (List.mem_map_of_mem he))
    additional := fun a ha c hc => h c (by
      simp [children, show s.additional = some a from ha, show a.schema? = some c from hc])
    items := hone fun c hc => by simp [children, hc]
    prefixItems := hlist fun c hc => by simp [children, hc]
    anyOf := hlist fun c hc => by simp [children, hc]
    oneOf := hlist fun c hc => by simp [children, hc]
    allOf := hlist fun c hc => by simp [children, hc]
    negated := hone fun c hc => by simp [children, hc]
    contentSchema := hone fun c hc => by simp [children, hc] }

/-- `P` holds of a schema and of every schema inside it. -/
inductive All (P : Schema → Prop) : Schema → Prop where
  | intro {s : Schema} : P s → (∀ c ∈ s.children, All P c) → All P s

variable {P Q : Schema → Prop}

theorem All.here {s : Schema} (h : s.All P) : P s := by
  cases h with
  | intro hp _ => exact hp

theorem All.child {s : Schema} (h : s.All P) : ∀ c ∈ s.children, c.All P := by
  cases h with
  | intro _ hc => exact hc

theorem All.imp {s : Schema} (hpq : ∀ u, P u → Q u) (h : s.All P) : s.All Q := by
  induction h with
  | intro hp _ ih => exact .intro (hpq _ hp) ih

theorem All.and {s : Schema} (hp : s.All P) (hq : s.All Q) : s.All fun u => P u ∧ Q u := by
  induction hp with
  | intro hp _ ih => exact .intro ⟨hp, hq.here⟩ fun c hc => ih c hc (hq.child c hc)

/-- What holds of the schemas inside carries over to a schema with the same ones. -/
theorem All.of_children_eq {s u : Schema} (hc : u.children = s.children) (hp : P s → P u)
    (h : s.All P) : u.All P :=
  .intro (hp h.here) fun c hm => h.child c (hc ▸ hm)

theorem all_of_childless {s : Schema} (hc : s.children = []) (h : P s) : s.All P :=
  .intro h fun c hm => by rw [hc] at hm; cases hm

end Schema
end TypedApi.OpenApi
