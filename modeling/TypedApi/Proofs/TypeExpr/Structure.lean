import TypedApi.TypeExpr.Fingerprint

/-! The types inside a type.

`children` are the types that stand directly in a type. What holds of a type as soon as it holds
of its children holds of every type (`induct`), and `All P` says that `P` holds of a type and of
every type inside it, at any depth. `mapChildren` replaces each child by another type. -/
namespace TypedApi

def Additional.type? : Additional → Option TypeExpr
  | .of t => some t
  | _ => none

def Additional.map (f : TypeExpr → TypeExpr) : Additional → Additional
  | .of t => .of (f t)
  | a => a

namespace TypeExpr

/-- The types that stand directly in a type. -/
def children : TypeExpr → List TypeExpr
  | .array item => [item]
  | .tuple elements rest => elements ++ rest.toList
  | .object members additional =>
    members.map Member.type ++ (additional.bind Additional.type?).toList
  | .union variants _ => variants
  | .intersection members => members
  | _ => []

mutual
/-- What passes from the children of a type to the type holds of every type. -/
@[elab_as_elim]
theorem induct {P : TypeExpr → Prop} (step : ∀ t, (∀ c ∈ t.children, P c) → P t) :
    (t : TypeExpr) → P t
  | .array item => step _ fun _ hc => List.mem_singleton.mp hc ▸ induct step item
  | .tuple elements rest => step _ fun c hc =>
    (List.mem_append.mp hc).elim (inductAll step elements c) (inductRest step rest c)
  | .object members additional => step _ fun c hc =>
    (List.mem_append.mp hc).elim (inductMembers step members c) (inductAdditional step additional c)
  | .union variants _ => step _ (inductAll step variants)
  | .intersection members => step _ (inductAll step members)
  | .ref _ => step _ fun _ hc => nomatch hc
  | .primitive _ _ => step _ fun _ hc => nomatch hc
  | .binary => step _ fun _ hc => nomatch hc
  | .const _ => step _ fun _ hc => nomatch hc
  | .enum _ => step _ fun _ hc => nomatch hc
  | .unknown => step _ fun _ hc => nomatch hc

theorem inductAll {P : TypeExpr → Prop} (step : ∀ t, (∀ c ∈ t.children, P c) → P t) :
    (ts : List TypeExpr) → ∀ c ∈ ts, P c
  | t :: ts => List.forall_mem_cons.mpr ⟨induct step t, inductAll step ts⟩
  | [] => nofun

theorem inductRest {P : TypeExpr → Prop} (step : ∀ t, (∀ c ∈ t.children, P c) → P t) :
    (rest : Option TypeExpr) → ∀ c ∈ rest.toList, P c
  | some t => fun _ hc => List.mem_singleton.mp hc ▸ induct step t
  | none => nofun

theorem inductMembers {P : TypeExpr → Prop} (step : ∀ t, (∀ c ∈ t.children, P c) → P t) :
    (ms : List Member) → ∀ c ∈ ms.map Member.type, P c
  | ⟨_, t, _, _, _⟩ :: ms => List.forall_mem_cons.mpr ⟨induct step t, inductMembers step ms⟩
  | [] => nofun

theorem inductAdditional {P : TypeExpr → Prop} (step : ∀ t, (∀ c ∈ t.children, P c) → P t) :
    (a : Option Additional) → ∀ c ∈ (a.bind Additional.type?).toList, P c
  | some (.of t) => fun _ hc => List.mem_singleton.mp hc ▸ induct step t
  | some .any => nofun
  | some .forbidden => nofun
  | none => nofun
end

/-- `P` holds of a type and of every type inside it. -/
inductive All (P : TypeExpr → Prop) : TypeExpr → Prop where
  | intro {t : TypeExpr} : P t → (∀ c ∈ t.children, All P c) → All P t

variable {P Q : TypeExpr → Prop} {t : TypeExpr}

theorem All.here (h : t.All P) : P t := by
  cases h with
  | intro hp _ => exact hp

theorem All.child (h : t.All P) : ∀ c ∈ t.children, c.All P := by
  cases h with
  | intro _ hc => exact hc

theorem All.imp (hpq : ∀ u, P u → Q u) (h : t.All P) : t.All Q := by
  induction h with
  | intro hp _ ih => exact .intro (hpq _ hp) ih

theorem all_of_childless (hc : t.children = []) (h : P t) : t.All P :=
  .intro h fun c hm => by rw [hc] at hm; cases hm

/-- What holds of every type holds at every depth. -/
theorem all_of_forall (h : ∀ u, P u) (t : TypeExpr) : t.All P := by
  induction t using induct with
  | step t ih => exact .intro (h t) ih

/-! ### The children of each kind of type -/

theorem mem_children_array {item : TypeExpr} : item ∈ (array item).children :=
  List.mem_singleton_self item

theorem mem_children_element {es : List TypeExpr} {rest : Option TypeExpr} {e : TypeExpr}
    (h : e ∈ es) : e ∈ (tuple es rest).children :=
  List.mem_append_left _ h

theorem mem_children_rest {es : List TypeExpr} {rest : Option TypeExpr} {e : TypeExpr}
    (h : e ∈ rest) : e ∈ (tuple es rest).children :=
  List.mem_append_right _ (Option.mem_toList.mpr h)

theorem mem_children_member {ms : List Member} {a : Option Additional} {m : Member} (h : m ∈ ms) :
    m.type ∈ (object ms a).children :=
  List.mem_append_left _ (List.mem_map_of_mem h)

theorem mem_children_additional {ms : List Member} {u : TypeExpr} :
    u ∈ (object ms (some (.of u))).children :=
  List.mem_append_right _ (List.mem_singleton_self u)

/-! ### Replacing the children -/

def mapChildren (f : TypeExpr → TypeExpr) : TypeExpr → TypeExpr
  | .array item => .array (f item)
  | .tuple elements rest => .tuple (elements.map f) (rest.map f)
  | .object members additional =>
    .object (members.map fun m => { m with type := f m.type }) (additional.map (·.map f))
  | .union variants d => .union (variants.map f) d
  | .intersection members => .intersection (members.map f)
  | t => t

theorem children_mapChildren (f : TypeExpr → TypeExpr) (t : TypeExpr) :
    (t.mapChildren f).children = t.children.map f := by
  cases t with
  | tuple elements rest => cases rest <;> simp [mapChildren, children]
  | object members additional =>
    rcases additional with _ | _ | _ | u <;>
      simp [mapChildren, children, Additional.type?, Additional.map]
  | _ => rfl

theorem all_mapChildren {f : TypeExpr → TypeExpr} (h : P (t.mapChildren f))
    (hc : ∀ c ∈ t.children, (f c).All P) : (t.mapChildren f).All P := by
  refine .intro h fun c hm => ?_
  rw [children_mapChildren] at hm
  obtain ⟨d, hd, rfl⟩ := List.mem_map.mp hm
  exact hc d hd

theorem mapChildren_id (t : TypeExpr) : t.mapChildren id = t := by
  cases t with
  | array item => rfl
  | tuple elements rest => exact congr (congrArg tuple (List.map_id elements)) Option.map_id_apply
  | object members additional =>
    have hmember : (fun m : Member => { m with type := id m.type }) = id :=
      funext fun m => by cases m; rfl
    have hadditional : additional.map (·.map id) = additional := by
      rcases additional with _ | _ | _ | u <;> rfl
    rw [mapChildren, hmember, List.map_id, hadditional]
  | union variants d => exact congrArg (union · d) (List.map_id variants)
  | intersection members => exact congrArg intersection (List.map_id members)
  | _ => rfl

theorem mapChildren_congr {f g : TypeExpr → TypeExpr} {t : TypeExpr}
    (h : ∀ c ∈ t.children, f c = g c) : t.mapChildren f = t.mapChildren g := by
  cases t with
  | array item => exact congrArg array (h item mem_children_array)
  | tuple elements rest =>
    have helements : elements.map f = elements.map g :=
      List.map_congr_left fun e he => h e (mem_children_element he)
    have hrest : rest.map f = rest.map g := Option.map_congr fun e he => h e (mem_children_rest he)
    rw [mapChildren, mapChildren, helements, hrest]
  | object members additional =>
    have hmembers : (members.map fun m => { m with type := f m.type }) =
        members.map fun m => { m with type := g m.type } :=
      List.map_congr_left fun m hm => by rw [h m.type (mem_children_member hm)]
    have hadditional : additional.map (·.map f) = additional.map (·.map g) := by
      rcases additional with _ | _ | _ | u
      · rfl
      · rfl
      · rfl
      · exact congrArg (fun v => some (Additional.of v)) (h u mem_children_additional)
    rw [mapChildren, mapChildren, hmembers, hadditional]
  | union variants d => exact congrArg (union · d) (List.map_congr_left h)
  | intersection members => exact congrArg intersection (List.map_congr_left h)
  | _ => rfl

theorem mapChildren_mapChildren (f g : TypeExpr → TypeExpr) (t : TypeExpr) :
    (t.mapChildren f).mapChildren g = t.mapChildren fun c => g (f c) := by
  cases t with
  | object members additional =>
    rcases additional with _ | _ | _ | u <;>
      simp [mapChildren, Additional.map, Function.comp_def]
  | tuple elements rest => simp [mapChildren, Function.comp_def]
  | union variants d => simp [mapChildren, Function.comp_def]
  | intersection members => simp [mapChildren, Function.comp_def]
  | _ => rfl

theorem hasMembers_mapChildren (f : TypeExpr → TypeExpr) (t : TypeExpr) :
    (t.mapChildren f).hasMembers = t.hasMembers := by
  cases t with
  | object members additional => cases members <;> rfl
  | _ => rfl

end TypeExpr
end TypedApi
