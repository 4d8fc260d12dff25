import TypedApi.Json.Fields
import TypedApi.Proofs.Json.Table

/-! Look-up in the members of a record.

`ofSlots` writes all fields of a record at once: each has its key and, when it is present,
its value. -/
namespace TypedApi.Json.Fields

variable {α : Type}

theorem lookup_always (key other : String) (value : Json) :
    (always key value).lookup other = if other = key then some value else none := by
  by_cases h : other = key
  · simp [always, h]
  · have hb : (other == key) = false := by simpa using h
    simp [always, List.lookup_cons, h, hb]

theorem lookup_present (key other : String) (value : Option α) (encode : α → Json) :
    (present key value encode).lookup other = if other = key then value.map encode else none := by
  cases value with
  | none => simp [present]
  | some a => exact lookup_always key other (encode a)

theorem lookup_nonEmpty (key other : String) (values : List α) (encode : List α → Json) :
    (nonEmpty key values encode).lookup other =
      if other = key ∧ values ≠ [] then some (encode values) else none := by
  cases values with
  | nil => simp [nonEmpty]
  | cons v vs =>
    simp only [ne_eq, reduceCtorEq, not_false_eq_true, and_true]
    exact lookup_always key other (encode (v :: vs))

/-- Members under other keys are not found. -/
theorem lookup_of_notMem {members : Members} {key : String} (h : key ∉ members.map (·.1)) :
    members.lookup key = none := by
  rw [List.lookup_eq_none_iff]
  intro e he
  have hne : key ≠ e.1 := fun hc => h (List.mem_map.mpr ⟨e, he, hc.symm⟩)
  simpa using hne

/-! ### Records as slots -/

/-- The members of the slots that hold a value. -/
def ofSlots (slots : List (String × Option Json)) : Members :=
  slots.filterMap fun e => e.2.map fun v => (e.1, v)

theorem ofSlots_append (a b : List (String × Option Json)) :
    ofSlots (a ++ b) = ofSlots a ++ ofSlots b := List.filterMap_append

theorem present_eq_ofSlots (key : String) (value : Option α) (encode : α → Json) :
    present key value encode = ofSlots [(key, value.map encode)] := by
  cases value <;> rfl

theorem mem_keys_ofSlots {slots : List (String × Option Json)} {key : String}
    (h : key ∈ (ofSlots slots).map (·.1)) : key ∈ slots.map (·.1) := by
  obtain ⟨e, he, rfl⟩ := List.mem_map.mp h
  obtain ⟨slot, hs, hv⟩ := List.mem_filterMap.mp he
  obtain ⟨v, -, rfl⟩ := Option.map_eq_some_iff.mp hv
  exact List.mem_map.mpr ⟨slot, hs, rfl⟩

theorem nodup_keys_ofSlots {slots : List (String × Option Json)} (hn : (slots.map (·.1)).Nodup) :
    ((ofSlots slots).map (·.1)).Nodup := by
  induction slots with
  | nil => exact List.nodup_nil
  | cons slot rest ih =>
    obtain ⟨hk, hrest⟩ := List.nodup_cons.mp hn
    obtain ⟨key, o⟩ := slot
    cases o with
    | none => exact ih hrest
    | some v => exact List.nodup_cons.mpr ⟨fun hm => hk (mem_keys_ofSlots hm), ih hrest⟩

/-- What stands in a slot is found under its key. -/
theorem lookup_ofSlots {slots : List (String × Option Json)} (hn : (slots.map (·.1)).Nodup)
    {key : String} {value : Option Json} (h : (key, value) ∈ slots) :
    (ofSlots slots).lookup key = value := by
  induction slots with
  | nil => cases h
  | cons slot rest ih =>
    obtain ⟨hk, hrest⟩ := List.nodup_cons.mp hn
    obtain ⟨k, o⟩ := slot
    rw [← List.singleton_append, ofSlots_append, List.lookup_append]
    rcases List.mem_cons.mp h with heq | hm
    · cases heq
      have hnone : (ofSlots rest).lookup key = none :=
        lookup_of_notMem fun hm => hk (mem_keys_ofSlots hm)
      rw [hnone, Option.or_none]
      cases value <;> simp [ofSlots]
    · have hne : key ≠ k := fun hc => hk (hc ▸ List.mem_map.mpr ⟨_, hm, rfl⟩)
      have hb : (key == k) = false := by simpa using hne
      rw [ih hrest hm]
      cases o <;> simp [ofSlots, List.lookup_cons, hb]

theorem lookup_ofSlots_eq {slots : List (String × Option Json)} (hn : (slots.map (·.1)).Nodup)
    (key : String) : (ofSlots slots).lookup key = (slots.lookup key).join := by
  cases h : slots.lookup key with
  | none => exact lookup_of_notMem fun hm => lookup_eq_none_iff.mp h (mem_keys_ofSlots hm)
  | some value => exact lookup_ofSlots hn (mem_of_lookup h)

end TypedApi.Json.Fields
