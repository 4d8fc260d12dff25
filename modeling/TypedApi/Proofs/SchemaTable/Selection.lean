import TypedApi.Proofs.SchemaTable.Placement

/-! What the values of a discriminator select.

A discriminator names its members by their places among all declared members. The schema of the
union selects the reference of the member at this place, and nothing where the member is converted
to no reference (`mem_selected_convert`), as long as no undefined member stands in front of it: such
members are dropped first, and the places of those behind them move (`misaligned_selection`). -/
namespace TypedApi.SchemaTable

open OpenApi

/-- The references that the values of the discriminator select. -/
def selected (s : Schema) : List (String × String) :=
  (s.discriminator.bind (·.mapping)).getD []

/-- Neither the member at the place nor one in front of it is undefined. -/
def Counted (members : List SourceType) (i : Nat) : Prop :=
  i < members.length → ∀ m ∈ members.take (i + 1), m.isUndefined = false

/-- The places that the value is mapped to are counted the same without undefined members. -/
def Aligned (d : Discriminant) (members : List SourceType) (value : String) : Prop :=
  ∀ i, (value, i) ∈ d.mapping → Counted members i

section Members

variable {registry : Registry} {members : List SourceType} {m : SourceType}
  {t t' : SchemaTable} {s : Schema} {ss : List Schema}

/-! ### Members without a reference -/

/-- Undefined members and literals are converted on the spot. -/
theorem site_value (h : Site registry m t s t')
    (hm : m.isUndefined = true ∨ m.isLiteral = true) : s.ref = none ∧ t' = t := by
  have hform : m.form = .atomic .undefined ∨ ∃ v, m.form = .literal v := by
    refine hm.imp (fun h => ?_) (fun h => ?_)
    · unfold SourceType.isUndefined at h
      split at h
      · assumption
      · cases h
    · unfold SourceType.isLiteral at h
      split at h
      · exact ⟨_, ‹_›⟩
      · cases h
  have hname : referredName? m = none := by
    rcases hform with hform | ⟨v, hform⟩ <;> simp [referredName?, hform, isRegistrable]
  have hparts : parts m.form = [] := by
    rcases hform with hform | ⟨v, hform⟩ <;> rw [hform] <;> rfl
  have hplain : (assemble m.form []).ref = none := by
    rcases hform with hform | ⟨v, hform⟩ <;> rw [hform] <;> rfl
  obtain ⟨rfl, rfl⟩ := h.eq_of_leaf hname hparts
  refine ⟨?_, rfl⟩
  cases m.nullable with
  | false => exact (annotates_finish m _).ref.trans hplain
  | true => rfl

theorem Sites.ref_eq_none (h : Sites registry members t ss t')
    (hm : ∀ m ∈ members, m.isUndefined = true ∨ m.isLiteral = true) : ∀ s ∈ ss, s.ref = none := by
  induction members generalizing t ss with
  | nil =>
    cases h
    exact List.forall_mem_nil _
  | cons m members ih =>
    cases h with
    | cons hsite hrest =>
      have hfirst := (site_value hsite (hm m List.mem_cons_self)).1
      exact List.forall_mem_cons.mpr
        ⟨hfirst, ih hrest fun u hu => hm u (List.mem_cons_of_mem _ hu)⟩

/-! ### Members that are dropped -/

/-- Without the undefined members, each member in front of the first of them has its schema at the
same place, and no place behind the last member has a schema. -/
theorem Sites.counted (h : Sites registry members t ss t') :
    ∃ us, Sites registry (unionMembers members) t us t' ∧
      ∀ i, Counted members i → us[i]? = ss[i]? := by
  induction members generalizing t ss with
  | nil =>
    cases h
    exact ⟨[], .nil, fun _ _ => rfl⟩
  | cons m members ih =>
    cases h with
    | @cons _ _ _ s t₁ rest _ hsite hrest =>
      obtain ⟨us, hus, hplace⟩ := ih hrest
      cases hm : m.isUndefined with
      | true =>
        obtain ⟨-, rfl⟩ := site_value hsite (.inl hm)
        have hdrop : unionMembers (m :: members) = unionMembers members := by
          simp [unionMembers, hm]
        refine ⟨us, hdrop ▸ hus, fun i hi => ?_⟩
        -- The first member is undefined, so only places behind the last member are left.
        have hlong : members.length < i := by
          by_contra hlt
          have hfirst := hi (Nat.lt_succ_of_le (Nat.le_of_not_lt hlt)) m List.mem_cons_self
          rw [hm] at hfirst
          cases hfirst
        have hus' : us.length ≤ members.length := hus.length_eq ▸ List.length_filter_le ..
        have hrest' := hrest.length_eq
        rw [List.getElem?_eq_none (by omega), List.getElem?_eq_none (by simp; omega)]
      | false =>
        have hkeep : unionMembers (m :: members) = m :: unionMembers members := by
          simp [unionMembers, hm]
        refine ⟨s :: us, hkeep ▸ .cons hsite hus, fun i hi => ?_⟩
        cases i with
        | zero => rfl
        | succ i =>
          refine hplace i fun hlt u hu => hi (Nat.succ_lt_succ hlt) u ?_
          exact List.mem_cons_of_mem _ hu

end Members

/-! ### The discriminator of a union -/

theorem mem_mappingOf {d : Discriminant} {ss : List Schema} {value r : String} :
    (value, r) ∈ mappingOf d ss ↔
      ∃ i s, (value, i) ∈ d.mapping ∧ ss[i]? = some s ∧ s.ref = some r := by
  simp only [mappingOf, List.mem_filterMap, Option.map_eq_some_iff, Option.bind_eq_some_iff]
  constructor
  · rintro ⟨⟨value, i⟩, hmem, r, ⟨s, hs, href⟩, heq⟩
    cases heq
    exact ⟨i, s, hmem, hs, href⟩
  · rintro ⟨i, s, hmem, hs, href⟩
    exact ⟨(value, i), hmem, r, ⟨s, hs, href⟩, rfl⟩

theorem keys_mappingOf_sublist (d : Discriminant) (ss : List Schema) :
    ((mappingOf d ss).map (·.1)).Sublist (d.mapping.map (·.1)) := by
  rw [mappingOf]
  induction d.mapping with
  | nil => exact .slnil
  | cons e rest ih =>
    rw [List.filterMap_cons]
    split
    · exact ih.cons _
    · next hsome =>
      obtain ⟨r, -, rfl⟩ := Option.map_eq_some_iff.mp hsome
      exact ih.cons_cons _

theorem selected_finish (type : SourceType) (s : Schema) :
    selected (finish type s) = selected s := by
  rw [selected, (annotates_finish type s).discriminator, selected]

theorem selected_unionOf (members : List SourceType) (d : Discriminant) (ss : List Schema) :
    selected (unionOf members (some d) ss) =
      if isEnumeration members then [] else mappingOf d ss := by
  unfold unionOf selected
  split
  · rfl
  · cases hmap : mappingOf d ss <;> simp [hmap]

/-- A union that enumerates values has no members with references. -/
theorem value_of_isEnumeration {members : List SourceType} (h : isEnumeration members = true) :
    ∀ m ∈ members, m.isUndefined = true ∨ m.isLiteral = true := by
  intro m hm
  simp only [isEnumeration, unionMembers, Bool.and_eq_true, List.all_eq_true] at h
  cases hu : m.isUndefined with
  | true => exact .inl rfl
  | false => exact .inr (h.2 m (List.mem_filter.mpr ⟨hm, by rw [hu]; rfl⟩))

/-- A value whose place is counted the same without undefined members is mapped to a reference
exactly if the declared member at this place is converted to it. -/
theorem mem_selected_convert (registry : Registry) {type : SourceType} {members : List SourceType}
    {d : Discriminant} (hform : type.form = .union members (some d)) {t : SchemaTable}
    (hnew : Unstored t type) :
    ∃ s, Placed registry type t s ∧ ((selected s).map (·.1)).Sublist (d.mapping.map (·.1)) ∧
      ∀ value, Aligned d members value → ∀ r, (value, r) ∈ selected s ↔
        ∃ i member, (value, i) ∈ d.mapping ∧
          (convertAll registry members (opened type t)).1[i]? = some member ∧
          member.ref = some r := by
  have hplaced := placed_convert registry (by simp [hform]) hnew
  have hdeclared := sites_convertAll registry members (opened type t)
  refine ⟨_, hplaced, ?_⟩
  rw [selected_finish, hform, assemble, selected_unionOf, parts]
  cases henum : isEnumeration members with
  | true =>
    refine ⟨List.nil_sublist _, fun value _ r => ⟨fun h => (List.not_mem_nil h).elim, ?_⟩⟩
    rintro ⟨i, member, -, hmember, href⟩
    have hnone := hdeclared.ref_eq_none (value_of_isEnumeration henum) member
      (List.mem_of_getElem? hmember)
    rw [href] at hnone
    cases hnone
  | false =>
    obtain ⟨us, hus, hplace⟩ := hdeclared.counted
    rw [if_neg Bool.false_ne_true, if_neg Bool.false_ne_true, convertAll_eq hus]
    refine ⟨keys_mappingOf_sublist d us, fun value haligned r => mem_mappingOf.trans ?_⟩
    constructor
    · rintro ⟨i, member, hmem, hmember, href⟩
      exact ⟨i, member, hmem, hplace i (haligned _ hmem) ▸ hmember, href⟩
    · rintro ⟨i, member, hmem, hmember, href⟩
      exact ⟨i, member, hmem, (hplace i (haligned _ hmem)).symm ▸ hmember, href⟩

/-! ### Pets -/

def animal (name : String) : SourceType where
  form := .object [] none .strip
  name := some name

def undefined : SourceType := .ofForm (.atomic .undefined)

def kinds : Discriminant := ⟨"kind", [("cat", 0), ("dog", 1), ("bird", 3), ("fish", 4)]⟩

/-- A dog that may be null, and an undefined member in front of the last one. -/
def animals : List SourceType :=
  [animal "Cat", { animal "Dog" with nullable := true }, undefined, animal "Bird"]

def pet : SourceType where
  form := .union animals (some kinds)
  name := some "Pet"

/-- The cat is selected, and the dog, which is a reference or null, is not. Nor is the fish, for
which there is no member. -/
theorem mem_selected_convert_pet :
    Unstored {} pet ∧ (∀ value ∈ ["cat", "dog", "fish"], Aligned kinds animals value) ∧
    ∃ s, Placed ⟨[]⟩ pet {} s ∧ ((selected s).map (·.1)).Sublist ["cat", "dog", "bird", "fish"] ∧
      ∀ value ∈ ["cat", "dog", "fish"], ∀ r, (value, r) ∈ selected s ↔
        ∃ i member, (value, i) ∈ kinds.mapping ∧
          [Schema.reference "Cat", (Schema.reference "Dog").orNull, {}, .reference "Bird"][i]? =
            some member ∧ member.ref = some r := by
  have hnew := unstored_fresh pet
  have haligned : ∀ value ∈ ["cat", "dog", "fish"], Aligned kinds animals value := by
    intro value hvalue i hmem
    simp only [List.mem_cons, List.not_mem_nil, or_false] at hvalue
    rcases hvalue with rfl | rfl | rfl <;> simp [kinds] at hmem <;> subst hmem <;>
      unfold Counted <;> decide
  have hform : pet.form = .union animals (some kinds) := rfl
  obtain ⟨s, hplaced, hkeys, hselected⟩ := mem_selected_convert ⟨[]⟩ hform hnew
  exact ⟨hnew, haligned, s, hplaced, hkeys, fun value hvalue =>
    hselected value (haligned value hvalue)⟩

/-- A union whose first member is undefined. -/
def straying : SourceType :=
  .ofForm (.union [undefined, animal "Cat", animal "Dog"] (some ⟨"kind", [("cat", 1), ("dog", 2)]⟩))

/-- The declared members at the places 1 and 2 are the cat and the dog, but the value for the cat
selects the dog, and that for the dog nothing. -/
theorem misaligned_selection :
    (convertAll ⟨[]⟩ [undefined, animal "Cat", animal "Dog"] (opened straying {})).1 =
        [{}, .reference "Cat", .reference "Dog"] ∧
      (convert ⟨[]⟩ straying {}).1.oneOf = some [.reference "Cat", .reference "Dog"] ∧
      selected (convert ⟨[]⟩ straying {}).1 = [("cat", componentRef "Dog")] :=
  ⟨by rfl, by rfl, by rfl⟩

end TypedApi.SchemaTable
