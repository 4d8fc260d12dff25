import Mathlib.Data.List.Induction
import TypedApi.Json.Basic

/-! Tables: entries with text keys.

`assign` keeps a list of entries a table: a key that is there keeps its place, a new
one goes to the end, so no key comes twice. `table` is the table of any list of
entries, and a list without repeated keys is its own table. -/
namespace TypedApi.Json

variable {α β : Type}

/-! ### Look-up -/

theorem mem_of_lookup {key : String} {value : α} {entries : List (String × α)}
    (h : entries.lookup key = some value) : (key, value) ∈ entries := by
  obtain ⟨before, after, rfl, -⟩ := List.lookup_eq_some_iff.mp h
  simp

theorem lookup_isSome_iff {key : String} {entries : List (String × α)} :
    (entries.lookup key).isSome = true ↔ key ∈ entries.map (·.1) := by
  rw [List.lookup_isSome_iff]
  constructor
  · rintro ⟨e, he, hk⟩
    exact List.mem_map.mpr ⟨e, he, (beq_iff_eq.mp hk).symm⟩
  · intro h
    obtain ⟨e, he, rfl⟩ := List.mem_map.mp h
    exact ⟨e, he, by simp⟩

theorem lookup_eq_none_iff {key : String} {entries : List (String × α)} :
    entries.lookup key = none ↔ key ∉ entries.map (·.1) := by
  rw [← lookup_isSome_iff, Bool.not_eq_true, Option.isSome_eq_false_iff, Option.isNone_iff_eq_none]

/-- Without repeated keys, look-up finds every entry. -/
theorem lookup_of_mem {key : String} {value : α} {entries : List (String × α)}
    (hn : (entries.map (·.1)).Nodup) (h : (key, value) ∈ entries) :
    entries.lookup key = some value := by
  induction entries with
  | nil => cases h
  | cons e rest ih =>
    obtain ⟨k, v⟩ := e
    obtain ⟨hk, hrest⟩ := List.nodup_cons.mp hn
    rcases List.mem_cons.mp h with he | he
    · obtain ⟨rfl, rfl⟩ := Prod.mk.inj he
      simp
    · have hne : (key == k) = false := by
        apply beq_eq_false_iff_ne.mpr
        rintro rfl
        exact hk (List.mem_map_of_mem (f := (·.1)) he)
      rw [List.lookup_cons, hne]
      exact ih hrest he

theorem lookup_map (f : α → β) (key : String) (entries : List (String × α)) :
    (entries.map fun e => (e.1, f e.2)).lookup key = (entries.lookup key).map f := by
  induction entries with
  | nil => rfl
  | cons e rest ih =>
    obtain ⟨k, v⟩ := e
    by_cases h : key = k
    · simp [h]
    · have hne : (key == k) = false := beq_eq_false_iff_ne.mpr h
      simp only [List.map_cons, List.lookup_cons, hne, ih]

/-! ### Assignment -/

/-- Entries in front of the assigned one stay as they are. -/
theorem assign_append_of_notMem {key : String} {entries : List (String × α)}
    (h : key ∉ entries.map (·.1)) (value : α) (more : List (String × α)) :
    assign key value (entries ++ more) = entries ++ assign key value more := by
  induction entries with
  | nil => rfl
  | cons e rest ih =>
    obtain ⟨k, v⟩ := e
    simp only [List.map_cons, List.mem_cons, not_or] at h
    simp [assign, Ne.symm h.1, ih h.2]

theorem assign_of_notMem {key : String} {entries : List (String × α)}
    (h : key ∉ entries.map (·.1)) (value : α) : assign key value entries = entries ++ [(key, value)] := by
  have happend := assign_append_of_notMem h value []
  rwa [List.append_nil] at happend

/-- To assign what is there changes nothing. -/
theorem assign_of_lookup {key : String} {value : α} {entries : List (String × α)}
    (h : entries.lookup key = some value) : assign key value entries = entries := by
  induction entries with
  | nil => cases h
  | cons e rest ih =>
    obtain ⟨k, v⟩ := e
    by_cases hk : k = key
    · subst hk
      have hv : v = value := by simpa using h
      simp [assign, hv]
    · have hne : (key == k) = false := beq_eq_false_iff_ne.mpr (Ne.symm hk)
      rw [List.lookup_cons, hne] at h
      simp [assign, hk, ih h]

theorem keys_assign_of_mem {key : String} {entries : List (String × α)}
    (h : key ∈ entries.map (·.1)) (value : α) :
    (assign key value entries).map (·.1) = entries.map (·.1) := by
  induction entries with
  | nil => cases h
  | cons e rest ih =>
    obtain ⟨k, v⟩ := e
    by_cases hk : k = key
    · simp [assign, hk]
    · have hrest : key ∈ rest.map (·.1) := by
        rcases List.mem_cons.mp h with he | he
        · exact absurd he.symm hk
        · exact he
      simp [assign, hk, ih hrest]

theorem mem_keys_assign {key other : String} {value : α} {entries : List (String × α)} :
    other ∈ (assign key value entries).map (·.1) ↔ other = key ∨ other ∈ entries.map (·.1) := by
  by_cases h : key ∈ entries.map (·.1)
  · rw [keys_assign_of_mem h]
    constructor
    · exact .inr
    · rintro (rfl | ho)
      · exact h
      · exact ho
  · rw [assign_of_notMem h]
    simp [or_comm]

theorem nodup_keys_assign {key : String} {value : α} {entries : List (String × α)}
    (hn : (entries.map (·.1)).Nodup) : ((assign key value entries).map (·.1)).Nodup := by
  by_cases h : key ∈ entries.map (·.1)
  · rwa [keys_assign_of_mem h]
  · rw [assign_of_notMem h, List.map_append, List.map_singleton]
    refine List.nodup_append.mpr ⟨hn, by simp, ?_⟩
    rintro a ha b hb rfl
    rw [List.mem_singleton.mp hb] at ha
    exact h ha

theorem mem_assign {key : String} {value : α} {entries : List (String × α)} {e : String × α}
    (hn : (entries.map (·.1)).Nodup) (h : e ∈ assign key value entries) :
    e = (key, value) ∨ e ∈ entries ∧ e.1 ≠ key := by
  have hl := lookup_of_mem (nodup_keys_assign hn) h
  by_cases he : e.1 = key
  · rw [he, lookup_assign_self] at hl
    exact .inl (Prod.ext he (Option.some.inj hl).symm)
  · rw [lookup_assign_of_ne he] at hl
    exact .inr ⟨mem_of_lookup hl, he⟩

/-! ### Several assignments -/

/-- The assignments `more`, one after the other. -/
def assignAll (entries more : List (String × α)) : List (String × α) :=
  more.foldl (fun acc e => assign e.1 e.2 acc) entries

theorem nodup_keys_assignAll {entries : List (String × α)} (hn : (entries.map (·.1)).Nodup)
    (more : List (String × α)) : ((assignAll entries more).map (·.1)).Nodup := by
  induction more generalizing entries with
  | nil => exact hn
  | cons e more ih => exact ih (nodup_keys_assign hn)

theorem mem_of_mem_assign {key : String} {value : α} {entries : List (String × α)}
    {e : String × α} (h : e ∈ assign key value entries) : e = (key, value) ∨ e ∈ entries := by
  induction entries with
  | nil => exact .inl (List.mem_singleton.mp h)
  | cons d rest ih =>
    obtain ⟨k, v⟩ := d
    rw [assign] at h
    split at h
    · next hk =>
      rcases List.mem_cons.mp h with rfl | h
      · exact .inl (by rw [hk])
      · exact .inr (List.mem_cons_of_mem _ h)
    · rcases List.mem_cons.mp h with rfl | h
      · exact .inr List.mem_cons_self
      · exact (ih h).imp_right (List.mem_cons_of_mem _)

theorem mem_of_mem_assignAll {entries more : List (String × α)} {e : String × α}
    (h : e ∈ assignAll entries more) : e ∈ entries ∨ e ∈ more := by
  induction more generalizing entries with
  | nil => exact .inl h
  | cons d more ih =>
    rcases ih h with h | h
    · rcases mem_of_mem_assign h with rfl | h
      · exact .inr List.mem_cons_self
      · exact .inl h
    · exact .inr (List.mem_cons_of_mem _ h)

/-- To assign what is there already changes nothing. -/
theorem assignAll_of_lookup {entries more : List (String × α)}
    (h : ∀ e ∈ more, entries.lookup e.1 = some e.2) : assignAll entries more = entries := by
  induction more with
  | nil => rfl
  | cons e more ih =>
    obtain ⟨he, hmore⟩ := List.forall_mem_cons.mp h
    rw [assignAll, List.foldl_cons, assign_of_lookup he]
    exact ih hmore

/-- Of two assignments to one key the second counts. -/
theorem assign_assign_self (key : String) (value old : α) (entries : List (String × α)) :
    assign key value (assign key old entries) = assign key value entries := by
  induction entries with
  | nil => simp [assign]
  | cons e rest ih =>
    obtain ⟨k, v⟩ := e
    by_cases hk : k = key <;> simp [assign, hk, ih]

/-- A key that is there may be assigned before or after another. -/
theorem assign_assign_of_mem {key other : String} {entries : List (String × α)}
    (hne : key ≠ other) (h : key ∈ entries.map (·.1)) (value more : α) :
    assign key value (assign other more entries) = assign other more (assign key value entries) := by
  induction entries with
  | nil => cases h
  | cons e rest ih =>
    obtain ⟨k, v⟩ := e
    by_cases hk : k = key
    · simp [assign, hk, hne]
    · have hrest : key ∈ rest.map (·.1) := (List.mem_cons.mp h).resolve_left (Ne.symm hk)
      by_cases ho : k = other
      · simp [assign, ho, Ne.symm hne]
      · simp [assign, hk, ho, ih hrest]

/-- A key that is there may be assigned before or after several others. -/
theorem assign_assignAll_of_mem {key : String} {entries more : List (String × α)}
    (hmore : key ∉ more.map (·.1)) (h : key ∈ entries.map (·.1)) (value : α) :
    assign key value (assignAll entries more) = assignAll (assign key value entries) more := by
  induction more generalizing entries with
  | nil => rfl
  | cons e more ih =>
    rw [List.map_cons, List.mem_cons, not_or] at hmore
    rw [assignAll, List.foldl_cons, assignAll, List.foldl_cons,
      ← assign_assign_of_mem hmore.1 h]
    exact ih hmore.2 (mem_keys_assign.mpr (.inr h))

/-- To assign one more entry of a table is to assign the table and then the entry. -/
theorem assignAll_assign {more : List (String × α)} (hn : (more.map (·.1)).Nodup)
    (entries : List (String × α)) (key : String) (value : α) :
    assignAll entries (assign key value more) = assign key value (assignAll entries more) := by
  induction more generalizing entries with
  | nil => rfl
  | cons e more ih =>
    obtain ⟨k, v⟩ := e
    obtain ⟨hk, hmore⟩ := List.nodup_cons.mp hn
    rw [assign]
    split
    · next heq =>
      subst heq
      have hthere : k ∈ (assign k v entries).map (·.1) := mem_keys_assign.mpr (.inl rfl)
      rw [assignAll, List.foldl_cons, assignAll, List.foldl_cons, ← assign_assign_self k value v]
      exact (assign_assignAll_of_mem hk hthere value).symm
    · rw [assignAll, List.foldl_cons, assignAll, List.foldl_cons]
      exact ih hmore _

/-- Tables may be assigned in groups: of three, the last two come first, or the first two. -/
theorem assignAll_assignAll {more : List (String × α)} (hn : (more.map (·.1)).Nodup)
    (entries last : List (String × α)) :
    assignAll entries (assignAll more last) = assignAll (assignAll entries more) last := by
  induction last using List.reverseRecOn with
  | nil => rfl
  | append_singleton last e ih =>
    have hsnoc : ∀ es : List (String × α),
        assignAll es (last ++ [e]) = assign e.1 e.2 (assignAll es last) := fun es =>
      List.foldl_append
    rw [hsnoc, hsnoc, assignAll_assign (nodup_keys_assignAll hn last), ih]

/-- The keys of the entries keep their places, and new ones come behind them. -/
theorem keys_assignAll {more : List (String × α)} (hn : (more.map (·.1)).Nodup)
    (entries : List (String × α)) :
    (assignAll entries more).map (·.1) =
      entries.map (·.1) ++ (more.map (·.1)).filter (· ∉ entries.map (·.1)) := by
  induction more generalizing entries with
  | nil => exact (List.append_nil _).symm
  | cons e more ih =>
    obtain ⟨k, v⟩ := e
    obtain ⟨hk, hmore⟩ := List.nodup_cons.mp hn
    show (assignAll (assign k v entries) more).map (·.1) = _
    rw [ih hmore]
    by_cases h : k ∈ entries.map (·.1)
    · rw [keys_assign_of_mem h, List.map_cons, List.filter_cons_of_neg (by simpa using h)]
    · have hsame : (more.map (·.1)).filter (· ∉ entries.map (·.1) ++ [k]) =
          (more.map (·.1)).filter (· ∉ entries.map (·.1)) := by
        refine List.filter_congr fun other hother => ?_
        have hne : other ≠ k := fun heq => hk (heq ▸ hother)
        simp [hne]
      rw [assign_of_notMem h, List.map_append, List.map_cons, List.map_nil, hsame, List.append_assoc,
        List.map_cons, List.filter_cons_of_pos (by simpa using h), List.singleton_append]

/-- Without repeated keys among them, the assignments win over the entries. -/
theorem lookup_assignAll {more : List (String × α)} (hn : (more.map (·.1)).Nodup)
    (entries : List (String × α)) (key : String) :
    (assignAll entries more).lookup key = (more.lookup key).or (entries.lookup key) := by
  induction more generalizing entries with
  | nil => rfl
  | cons e more ih =>
    obtain ⟨k, v⟩ := e
    obtain ⟨hk, hmore⟩ := List.nodup_cons.mp hn
    show (assignAll (assign k v entries) more).lookup key = _
    rw [ih hmore]
    by_cases h : key = k
    · rw [h, lookup_eq_none_iff.mpr hk, lookup_assign_self, List.lookup_cons_self]
      rfl
    · rw [lookup_assign_of_ne h, List.lookup_cons, beq_eq_false_iff_ne.mpr h]

/-! ### Tables -/

theorem table_append_singleton (entries : List (String × α)) (e : String × α) :
    table (entries ++ [e]) = assign e.1 e.2 (table entries) := by
  simp [table, List.foldl_append]

theorem nodup_keys_table (entries : List (String × α)) : ((table entries).map (·.1)).Nodup := by
  induction entries using List.reverseRecOn with
  | nil => exact List.nodup_nil
  | append_singleton rest e ih =>
    rw [table_append_singleton]
    exact nodup_keys_assign ih

/-- Keys without their repetitions are in the order of their first occurrences. -/
theorem eraseDups_append_singleton {κ : Type} [DecidableEq κ] (keys : List κ) (key : κ) :
    (keys ++ [key]).eraseDups = if key ∈ keys then keys.eraseDups else keys.eraseDups ++ [key] := by
  rw [List.eraseDups_append]
  by_cases hkey : key ∈ keys <;> simp [hkey, List.removeAll, List.eraseDups_cons]

/-- A table has its keys in the order in which they came first. -/
theorem keys_table (entries : List (String × α)) :
    (table entries).map (·.1) = (entries.map (·.1)).eraseDups := by
  induction entries using List.reverseRecOn with
  | nil => rfl
  | append_singleton rest e ih =>
    have hkey : e.1 ∈ (table rest).map (·.1) ↔ e.1 ∈ rest.map (·.1) := by
      rw [ih, List.mem_eraseDups]
    rw [table_append_singleton, List.map_append, List.map_singleton, eraseDups_append_singleton, ← ih]
    by_cases hmem : e.1 ∈ rest.map (·.1)
    · rw [if_pos hmem, keys_assign_of_mem (hkey.mpr hmem)]
    · rw [if_neg hmem, assign_of_notMem (mt hkey.mp hmem), List.map_append, List.map_singleton]

theorem mem_keys_table {key : String} {entries : List (String × α)} :
    key ∈ (table entries).map (·.1) ↔ key ∈ entries.map (·.1) := by
  rw [keys_table, List.mem_eraseDups]

theorem mem_of_mem_table {entries : List (String × α)} {e : String × α} (h : e ∈ table entries) :
    e ∈ entries := by
  induction entries using List.reverseRecOn with
  | nil => exact h
  | append_singleton rest e' ih =>
    rw [table_append_singleton] at h
    rcases mem_assign (nodup_keys_table rest) h with rfl | ⟨he, -⟩
    · simp
    · exact List.mem_append_left _ (ih he)

/-- The last entry of a key is the one that the table has. -/
theorem lookup_table_append_cons (before : List (String × α)) {key : String} (value : α)
    {after : List (String × α)} (h : key ∉ after.map (·.1)) :
    (table (before ++ (key, value) :: after)).lookup key = some value := by
  induction after using List.reverseRecOn with
  | nil => rw [table_append_singleton, lookup_assign_self]
  | append_singleton rest e ih =>
    rw [List.map_append, List.mem_append, not_or, List.map_singleton, List.mem_singleton] at h
    rw [← List.cons_append, ← List.append_assoc, table_append_singleton, lookup_assign_of_ne h.2]
    exact ih h.1

/-- Entries without repeated keys are a table already. -/
theorem table_of_nodup {entries : List (String × α)} (hn : (entries.map (·.1)).Nodup) :
    table entries = entries := by
  induction entries using List.reverseRecOn with
  | nil => rfl
  | append_singleton rest e ih =>
    rw [List.map_append, List.nodup_append] at hn
    obtain ⟨hrest, -, hd⟩ := hn
    have he : e.1 ∉ rest.map (·.1) := fun hm => hd _ hm e.1 (by simp) rfl
    rw [table_append_singleton, ih hrest, assign_of_notMem he]

end TypedApi.Json
