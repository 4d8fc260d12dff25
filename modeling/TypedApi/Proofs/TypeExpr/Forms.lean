import TypedApi.Proofs.TypeExpr.OfSchema
import TypedApi.Proofs.TypeExpr.Structure

/-! What holds of the types that schemas are read as, at any depth.

A schema is read by putting together the types of the schemas inside it. What holds of every type
that is put together in this way (`Common`), and of the references and literals that a schema has of
its own (`Own`), holds at every depth (`all_ofSchema`). -/
namespace TypedApi.TypeExpr

/-- `P` holds of what the reader makes of types, whatever they are. A union has no single variant,
unless null was added to none. -/
structure Common (P : TypeExpr → Prop) : Prop where
  primitive : ∀ kind format, P (.primitive kind format)
  binary : P .binary
  array : ∀ item, P (.array item)
  tuple : ∀ elements rest, P (.tuple elements rest)
  object : ∀ members additional, P (.object members additional)
  union : ∀ variants discriminator, variants.length ≠ 1 → P (.union variants discriminator)
  onlyNull : ∀ discriminator, P (.union [null] discriminator)
  intersection : ∀ members, P (.intersection members)
  unknown : P .unknown

variable {P : TypeExpr → Prop} {t : TypeExpr}

namespace Common
variable (hP : Common P)
include hP

theorem all_null : null.All P := all_of_childless rfl (hP.primitive .null none)

theorem all_unknown : TypeExpr.unknown.All P := all_of_childless rfl hP.unknown

theorem all_union {variants : List TypeExpr} (hlength : variants.length ≠ 1)
    (h : ∀ t ∈ variants, t.All P) (discriminator : Option String) :
    (TypeExpr.union variants discriminator).All P :=
  .intro (hP.union variants discriminator hlength) h

theorem all_orNull (h : t.All P) : t.orNull.All P := by
  have hpair : (TypeExpr.union [t, null] none).All P :=
    hP.all_union (by simp)
      (List.forall_mem_cons.mpr ⟨h, List.forall_mem_singleton.mpr hP.all_null⟩) none
  cases t with
  | union variants d =>
    rw [TypeExpr.orNull]
    split
    · exact h
    · have hvariants : ∀ c ∈ variants ++ [null], c.All P :=
        List.forall_mem_append.mpr ⟨h.child, List.forall_mem_singleton.mpr hP.all_null⟩
      refine .intro ?_ hvariants
      cases variants with
      | nil => exact hP.onlyNull d
      | cons v vs => exact hP.union _ d (by simp)
  | primitive kind format => cases kind <;> first | exact h | exact hpair
  | _ => exact hpair

end Common

/-! ### Shapes -/

/-- `P` holds in the types under a keyword. -/
def Part.All (P : TypeExpr → Prop) : Part → Prop
  | .none => True
  | .schema t => t.All P
  | .schemas ts => ∀ t ∈ ts, t.All P
  | .members ms => ∀ m ∈ ms, m.type.All P

/-- `P` holds in the types under every keyword. -/
def Parts.All (P : TypeExpr → Prop) (parts : Parts) : Prop :=
  ∀ key, ∀ part ∈ parts.lookup key, part.All P

/-- `P` holds of the references and literals that a schema has of its own. -/
structure Own (P : TypeExpr → Prop) (entries : List (String × Json)) : Prop where
  ref : ∀ r ∈ textAt entries "$ref", P (.ref (refName r))
  const : ∀ v ∈ entries.lookup "const", P (.const v)
  enum : ∀ vs ∈ (entries.lookup "enum").bind Json.asArray?, P (.enum vs)

section
variable {parts : Parts} {entries : List (String × Json)}

theorem all_schema? (h : parts.All P) {key : String} : ∀ t ∈ parts.schema? key, t.All P := by
  intro t ht
  unfold Parts.schema? at ht
  split at ht
  next hpart => cases ht; exact h key _ hpart
  next => cases ht

theorem all_schemas? (h : parts.All P) {key : String} {ts : List TypeExpr}
    (hts : parts.schemas? key = some ts) : ∀ t ∈ ts, t.All P := by
  unfold Parts.schemas? at hts
  split at hts
  next hpart => cases hts; exact h key _ hpart
  next => cases hts

theorem all_members (h : parts.All P) : ∀ m ∈ parts.members, m.type.All P := by
  intro m hm
  unfold Parts.members at hm
  split at hm
  next hpart => exact h "properties" _ hpart m hm
  next => cases hm

variable (hP : Common P)
include hP

theorem all_objectOf (h : parts.All P) : (objectOf entries parts).All P := by
  refine .intro (hP.object _ _) fun c hc => ?_
  rcases List.mem_append.mp hc with hc | hc
  · obtain ⟨m', hm', rfl⟩ := List.mem_map.mp hc
    obtain ⟨m, hm, rfl⟩ := List.mem_map.mp hm'
    exact all_members h m hm
  · obtain ⟨a, ha, hc⟩ := Option.bind_eq_some_iff.mp (Option.mem_toList.mp hc)
    -- only an object in place of a truth value says what the other members are
    have hsome : (parts.schema? "additionalProperties").map Additional.of = some a := by
      split at ha <;> first | exact ha | (cases ha <;> cases hc)
    obtain ⟨u, hu, rfl⟩ := Option.map_eq_some_iff.mp hsome
    cases hc
    exact all_schema? h c hu

theorem all_arrayOf (h : parts.All P) : (arrayOf entries parts).All P := by
  unfold arrayOf
  split
  next elements helements =>
    refine .intro (hP.tuple _ _) fun c hc => ?_
    rcases List.mem_append.mp hc with hc | hc
    · exact all_schemas? h helements c hc
    · have hc := Option.mem_toList.mp hc
      split at hc
      · exact all_schema? h c hc
      · cases hc
  next =>
    refine .intro (hP.array _) fun c hc => ?_
    rw [List.mem_singleton.mp hc]
    cases hitems : parts.schema? "items" with
    | none => exact hP.all_unknown
    | some item => exact all_schema? h item hitems

theorem all_typed (h : parts.All P) (kind : String) : (typed entries parts kind).All P := by
  unfold typed
  dsimp only
  split
  · split
    · exact all_of_childless rfl hP.binary
    · exact all_of_childless rfl (hP.primitive _ _)
  · exact all_of_childless rfl (hP.primitive _ _)
  · exact all_of_childless rfl (hP.primitive _ _)
  · exact all_of_childless rfl (hP.primitive _ _)
  · exact hP.all_null
  · exact all_arrayOf hP h
  · exact all_objectOf hP h
  · exact hP.all_unknown

theorem all_typedAny (h : parts.All P) (kinds : List String) :
    (typedAny entries parts kinds).All P := by
  have htyped : ∀ t ∈ (kinds.filter (· != "null")).map (typed entries parts), t.All P := by
    intro t ht
    obtain ⟨kind, -, rfl⟩ := List.mem_map.mp ht
    exact all_typed hP h kind
  have hnull : ∀ t : TypeExpr, t.All P →
      (if kinds.contains "null" then t.orNull else t).All P := by
    intro t ht
    split
    · exact hP.all_orNull ht
    · exact ht
  unfold typedAny
  dsimp only
  refine hnull _ ?_
  split
  next => exact hP.all_null
  next t ht => exact htyped t (by rw [ht]; exact List.mem_singleton_self t)
  next hmany =>
    refine hP.all_union (fun hlength => ?_) htyped none
    obtain ⟨t, ht⟩ := List.length_eq_one_iff.mp hlength
    exact hmany t ht

theorem all_byType (h : parts.All P) : (byType entries parts).All P := by
  unfold byType
  split
  · exact all_typed hP h _
  · exact all_typedAny hP h _
  · split
    · exact all_objectOf hP h
    · split
      · exact all_arrayOf hP h
      · exact hP.all_unknown

theorem all_alternatives {ts : List TypeExpr} (hts : ∀ t ∈ ts, t.All P) :
    (alternatives entries ts).All P := by
  unfold alternatives
  split
  · exact hts _ (List.mem_singleton_self _)
  next hmany =>
    refine hP.all_union (fun hlength => ?_) hts _
    obtain ⟨t, ht⟩ := List.length_eq_one_iff.mp hlength
    exact hmany t ht

theorem all_composition (h : parts.All P) {ts : List TypeExpr} (hts : ∀ t ∈ ts, t.All P) :
    (composition entries parts ts).All P := by
  have hall : ∀ t ∈ ts ++ (if hasKey entries "properties" then [objectOf entries parts] else []),
      t.All P := by
    intro t ht
    rcases List.mem_append.mp ht with ht | ht
    · exact hts t ht
    · split at ht
      · exact List.mem_singleton.mp ht ▸ all_objectOf hP h
      · cases ht
  unfold composition
  split
  next t ht => exact hall t (by rw [ht]; exact List.mem_singleton_self t)
  next => exact .intro (hP.intersection _) hall

theorem all_shape (h : parts.All P) (hown : Own P entries) : (shape entries parts).All P := by
  unfold shape
  split
  next v hv => exact all_of_childless rfl (hown.const v hv)
  split
  next vs hvs => exact all_of_childless rfl (hown.enum vs hvs)
  split
  next hts => exact all_alternatives hP (all_schemas? h hts)
  split
  next hts => exact all_alternatives hP (all_schemas? h hts)
  split
  next hts => exact all_composition hP h (all_schemas? h hts)
  exact all_byType hP h

theorem all_assemble (h : parts.All P) (hown : Own P entries) : (assemble entries parts).All P := by
  unfold assemble
  split
  next r hr => exact all_of_childless rfl (hown.ref r hr)
  next =>
    dsimp only
    split
    · exact hP.all_orNull (all_shape hP h hown)
    · exact all_shape hP h hown

end

/-! ### Schemas -/

/-- What holds of a schema holds of the schemas inside it. -/
structure Inherited (R : Json → Prop) : Prop where
  properties : ∀ {entries ps}, R (.obj entries) → entries.lookup "properties" = some (.obj ps) →
    ∀ e ∈ ps, R e.2
  items : ∀ {entries key xs}, R (.obj entries) → entries.lookup key = some (.arr xs) →
    key ∈ schemasKeywords → ∀ x ∈ xs, R x
  single : ∀ {entries key v}, R (.obj entries) → entries.lookup key = some v →
    key ∈ schemaKeywords → R v

theorem all_membersOf {ps : List (String × Json)} (h : ∀ e ∈ ps, (ofSchema e.2).All P) :
    ∀ m ∈ membersOf ps, m.type.All P := by
  induction ps with
  | nil => exact List.forall_mem_nil _
  | cons e rest ih =>
    obtain ⟨he, hrest⟩ := List.forall_mem_cons.mp h
    exact List.forall_mem_cons.mpr ⟨he, ih hrest⟩

theorem all_schemasOf {xs : List Json} (h : ∀ x ∈ xs, (ofSchema x).All P) :
    ∀ t ∈ schemasOf xs, t.All P := by
  induction xs with
  | nil => exact List.forall_mem_nil _
  | cons x rest ih =>
    obtain ⟨hx, hrest⟩ := List.forall_mem_cons.mp h
    exact List.forall_mem_cons.mpr ⟨hx, ih hrest⟩

variable {R : Json → Prop}

/-- What is read under a keyword, if all is well with the smaller schemas there. -/
theorem all_partOf (hR : Inherited R) {entries : List (String × Json)} (h : R (.obj entries))
    {key : String} {v : Json} (hv : entries.lookup key = some v)
    (ih : ∀ c, sizeOf c ≤ sizeOf v → R c → (ofSchema c).All P) : (partOf key v).All P := by
  unfold partOf
  split
  next hkey =>
    subst hkey
    cases v with
    | obj ps =>
      refine all_membersOf fun e he => ih e.2 ?_ (hR.properties h hv e he)
      have hlt := List.sizeOf_lt_of_mem he
      obtain ⟨name, c⟩ := e
      simp only [Prod.mk.sizeOf_spec, Json.obj.sizeOf_spec] at hlt ⊢
      omega
    | _ => trivial
  split
  next hkey =>
    cases v with
    | arr xs =>
      refine all_schemasOf fun x hx => ih x ?_ (hR.items h hv (List.contains_iff_mem.mp hkey) x hx)
      have hlt := List.sizeOf_lt_of_mem hx
      simp only [Json.arr.sizeOf_spec]
      omega
    | _ => trivial
  split
  next hkey => exact ih v (Nat.le_refl _) (hR.single h hv (List.contains_iff_mem.mp hkey))
  trivial

/-- What holds of each type that is put together holds at every depth. -/
theorem all_ofSchema (hP : Common P) (hR : Inherited R)
    (hown : ∀ entries, R (.obj entries) → Own P entries) : (v : Json) → R v → (ofSchema v).All P
  | .obj entries, h => by
    rw [ofSchema]
    refine all_assemble hP (fun key part hpart => ?_) (hown entries h)
    rw [lookup_partsOf] at hpart
    obtain ⟨v, hv, rfl⟩ := Option.map_eq_some_iff.mp hpart
    have hlt := List.sizeOf_lt_of_mem (Json.mem_of_lookup hv)
    exact all_partOf hR h hv fun c _ hc => all_ofSchema hP hR hown c hc
  | .null, _ => hP.all_unknown
  | .bool _, _ => hP.all_unknown
  | .num _, _ => hP.all_unknown
  | .str _, _ => hP.all_unknown
  | .arr _, _ => hP.all_unknown
termination_by v => sizeOf v
decreasing_by
  simp only [Prod.mk.sizeOf_spec, Json.obj.sizeOf_spec] at hlt ⊢
  omega

end TypedApi.TypeExpr
