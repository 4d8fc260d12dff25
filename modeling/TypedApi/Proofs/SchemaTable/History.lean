import TypedApi.Proofs.Json.Table
import TypedApi.Proofs.OpenApi.ComponentKey
import TypedApi.Proofs.SchemaTable.Run

/-! What conversions do to the table.

A conversion chooses keys for names and stores schemas under keys of names, and nothing
else (`Body.writes`, `Site.writes`). So what these two steps preserve holds after every
run: the table only grows (`Extends`), and each name has a legal key of its own
(`WellKeyed`). -/
namespace TypedApi.SchemaTable

open OpenApi

/-- From one table to another by choosing keys and by storing under the keys of names. -/
inductive Writes : SchemaTable → SchemaTable → Prop
  | refl {t} : Writes t t
  | key {t t'} (name : String) (h : Writes t t') : Writes t (t'.keyFor name).2
  | store {t t' name key} (s : Schema) (h : Writes t t') (hk : (name, key) ∈ t'.keys) :
      Writes t (t'.store key s)

theorem Writes.trans {t u v : SchemaTable} (h : Writes t u) (g : Writes u v) : Writes t v := by
  induction g with
  | refl => exact h
  | key name _ ih => exact .key name ih
  | store s _ hk ih => exact .store s ih hk

/-! ### The key of a name -/

theorem named_keyFor (t : SchemaTable) (name : String) : (t.keyFor name).2.named = t.named := by
  unfold keyFor
  split <;> rfl

theorem named_of_keyFor {t t₁ : SchemaTable} {name key : String} (h : t.keyFor name = (key, t₁)) :
    t₁.named = t.named := by
  have hn := named_keyFor t name
  rwa [h] at hn

theorem lookup_keyFor (t : SchemaTable) (name : String) :
    (t.keyFor name).2.keys.lookup name = some (t.keyFor name).1 := by
  unfold keyFor
  split
  · next key h => exact h
  · next h =>
    rw [List.lookup_append, h, Option.none_or]
    exact List.lookup_cons_self

theorem mem_keyFor (t : SchemaTable) (name : String) :
    (name, (t.keyFor name).1) ∈ (t.keyFor name).2.keys :=
  Json.mem_of_lookup (lookup_keyFor t name)

theorem mem_of_keyFor {t t₁ : SchemaTable} {name key : String} (h : t.keyFor name = (key, t₁)) :
    (name, key) ∈ t₁.keys := by
  have hm := mem_keyFor t name
  rwa [h] at hm

theorem writes_of_keyFor {t t₁ : SchemaTable} {name key : String}
    (h : t.keyFor name = (key, t₁)) : Writes t t₁ := by
  have hw := Writes.key name (.refl : Writes t t)
  rwa [h] at hw

theorem has_keyFor (t : SchemaTable) (name key : String) : (t.keyFor name).2.has key = t.has key := by
  rw [has, has, named_keyFor]

/-! ### The table only grows -/

/-- Every key and every place of `t` stands at the same position in `t'`. -/
structure Extends (t t' : SchemaTable) : Prop where
  keys : t.keys <+: t'.keys
  places : t.named.map (·.1) <+: t'.named.map (·.1)

namespace Extends

variable {t t' t'' : SchemaTable}

theorem refl (t : SchemaTable) : Extends t t := ⟨List.prefix_rfl, List.prefix_rfl⟩

theorem trans (h : Extends t t') (g : Extends t' t'') : Extends t t'' :=
  ⟨h.keys.trans g.keys, h.places.trans g.places⟩

theorem keyFor (t : SchemaTable) (name : String) : Extends t (t.keyFor name).2 := by
  refine ⟨?_, by simp only [named_keyFor, List.prefix_rfl]⟩
  unfold SchemaTable.keyFor
  split
  · exact List.prefix_rfl
  · exact List.prefix_append ..

theorem store (t : SchemaTable) (key : String) (s : Schema) : Extends t (t.store key s) := by
  refine ⟨List.prefix_rfl, ?_⟩
  show t.named.map (·.1) <+: (Json.assign key s t.named).map (·.1)
  by_cases h : key ∈ t.named.map (·.1)
  · simp only [Json.keys_assign_of_mem h, List.prefix_rfl]
  · rw [Json.assign_of_notMem h, List.map_append]
    exact List.prefix_append ..

theorem of_writes (h : Writes t t') : Extends t t' := by
  induction h with
  | refl => exact refl t
  | key name _ ih => exact ih.trans (keyFor _ name)
  | store s _ _ ih => exact ih.trans (store _ _ s)

theorem has (h : Extends t t') {key : String} (hk : t.has key = true) : t'.has key = true :=
  Json.lookup_isSome_iff.mpr (h.places.subset (Json.lookup_isSome_iff.mp hk))

end Extends

theorem has_store_self (t : SchemaTable) (key : String) (s : Schema) :
    (t.store key s).has key = true := by
  rw [has, lookup_store_self]
  rfl

/-! ### Runs write -/

variable {registry : Registry}

mutual

theorem Body.writes {type : SourceType} {t t' : SchemaTable} {s : Schema}
    (h : Body registry type t s t') : Writes t t' :=
  match h with
  | .parts _ hparts => hparts.writes
  | .ref _ hentry => hentry.writes
termination_by structural h

theorem Entry.writes {name : String} {found : Option (SourceType × Bool)} {t t' : SchemaTable}
    {s : Schema} (h : Entry registry name found t s t') : Writes t t' :=
  match h with
  | .known hkey _ => writes_of_keyFor hkey
  | .missing hkey _ => writes_of_keyFor hkey
  | .fill _ hkey _ hbody => by
    have hopen := Writes.store {} (writes_of_keyFor hkey) (mem_of_keyFor hkey)
    have hgrown := Extends.of_writes hbody.writes
    have hk := mem_of_keyFor hkey
    exact .store _ (hopen.trans hbody.writes) (hgrown.keys.subset hk)
termination_by structural h

theorem Site.writes {type : SourceType} {t t' : SchemaTable} {s : Schema}
    (h : Site registry type t s t') : Writes t t' :=
  match h with
  | .ref _ hentry => hentry.writes
  | .named _ _ hentry => hentry.writes
  | .inline _ _ hbody => hbody.writes
termination_by structural h

theorem Sites.writes {types : List SourceType} {t t' : SchemaTable} {ss : List Schema}
    (h : Sites registry types t ss t') : Writes t t' :=
  match h with
  | .nil => .refl
  | .cons hsite hrest => hsite.writes.trans hrest.writes
termination_by structural h

end

/-! ### References to entries -/

/-- A name that has an entry, or is given one, is referred to by its key. -/
theorem Entry.schema_eq {name : String} {found : Option (SourceType × Bool)} {t t' : SchemaTable}
    {s : Schema} (h : Entry registry name found t s t') :
    s = if t.has (t.keyFor name).1 || found.isSome then .reference (t.keyFor name).1 else {} := by
  have hhas := has_keyFor t name (t.keyFor name).1
  cases h with
  | known hkey hknown =>
    rw [hkey] at hhas ⊢
    rw [← hhas, hknown]
    rfl
  | missing hkey hunknown =>
    rw [hkey] at hhas ⊢
    rw [← hhas, hunknown]
    rfl
  | fill key hkey _ _ =>
    rw [hkey, Option.isSome_some, Bool.or_true]
    rfl

theorem Entry.mem_keys {name : String} {found : Option (SourceType × Bool)} {t t' : SchemaTable}
    {s : Schema} (h : Entry registry name found t s t') : (name, (t.keyFor name).1) ∈ t'.keys := by
  cases h with
  | known hkey _ =>
    rw [hkey]
    exact mem_of_keyFor hkey
  | missing hkey _ =>
    rw [hkey]
    exact mem_of_keyFor hkey
  | fill key hkey _ hbody =>
    have hgrown := Extends.of_writes hbody.writes
    have hk := mem_of_keyFor hkey
    rw [hkey]
    exact hgrown.keys.subset hk

/-! ### The keys of names -/

/-- Each name has one key, no two names have the same, and schemas stand under keys of
names, at one place each. -/
structure WellKeyed (t : SchemaTable) : Prop where
  names : (t.keys.map (·.1)).Nodup
  distinct : (t.keys.map (·.2)).Nodup
  legal : ∀ key ∈ t.keys.map (·.2), isComponentKey key = true
  places : (t.named.map (·.1)).Nodup
  covered : ∀ key ∈ t.named.map (·.1), key ∈ t.keys.map (·.2)

namespace WellKeyed

variable {t t' : SchemaTable}

theorem fresh : WellKeyed {} where
  names := List.nodup_nil
  distinct := List.nodup_nil
  legal := by simp
  places := List.nodup_nil
  covered := by simp

theorem keyFor (h : WellKeyed t) (name : String) : WellKeyed (t.keyFor name).2 := by
  unfold SchemaTable.keyFor
  split
  · exact h
  · next hnone =>
    have hfresh := freshKey_notMem (componentKey name) (t.keys.map (·.2))
    have hlegal := isComponentKey_freshKey (isComponentKey_componentKey name) (t.keys.map (·.2))
    refine ⟨?_, ?_, ?_, h.places, ?_⟩
    · rw [List.map_append, List.map_singleton, ← List.concat_eq_append]
      exact List.Nodup.concat (Json.lookup_eq_none_iff.mp hnone) h.names
    · rw [List.map_append, List.map_singleton, ← List.concat_eq_append]
      exact List.Nodup.concat hfresh h.distinct
    · intro key hk
      rw [List.map_append, List.map_singleton] at hk
      rcases List.mem_append.mp hk with hk | hk
      · exact h.legal key hk
      · rw [List.mem_singleton.mp hk]
        exact hlegal
    · intro key hk
      rw [List.map_append]
      exact List.mem_append_left _ (h.covered key hk)

theorem store (h : WellKeyed t) {name key : String} (hk : (name, key) ∈ t.keys) (s : Schema) :
    WellKeyed (t.store key s) where
  names := h.names
  distinct := h.distinct
  legal := h.legal
  places := Json.nodup_keys_assign h.places
  covered := fun other ho => by
    rcases Json.mem_keys_assign.mp ho with rfl | ho
    · exact List.mem_map.mpr ⟨(name, other), hk, rfl⟩
    · exact h.covered other ho

theorem of_writes (h : WellKeyed t) (hw : Writes t t') : WellKeyed t' := by
  induction hw with
  | refl => exact h
  | key name _ ih => exact ih.keyFor name
  | store s _ hk ih => exact ih.store hk s

theorem key_unique (h : WellKeyed t) {name key key' : String} (hm : (name, key) ∈ t.keys)
    (hm' : (name, key') ∈ t.keys) : key = key' := by
  have he : (name, key) = (name, key') := List.inj_on_of_nodup_map h.names hm hm' rfl
  exact congrArg Prod.snd he

/-- No two names have the same key. -/
theorem key_injective (h : WellKeyed t) {name name' key : String}
    (hm : (name, key) ∈ t.keys) (hm' : (name', key) ∈ t.keys) : name = name' := by
  have he : (name, key) = (name', key) := List.inj_on_of_nodup_map h.distinct hm hm' rfl
  exact congrArg Prod.fst he

end WellKeyed
end TypedApi.SchemaTable
