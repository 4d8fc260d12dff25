import Mathlib.Data.List.Nodup
import TypedApi.OpenApi.ComponentKey

/-! Keys are legal and fresh.

Whatever the name of a type is, its key and every numbered variant of it keep to the
alphabet of keys (`isComponentKey_componentKey`, `isComponentKey_freshKey`). The
candidates for a key are distinct and one more than the keys that are taken, so
`freshKey` always finds a free one. -/
namespace TypedApi.OpenApi

/-! ### The alphabet -/

theorem isComponentKey_iff {s : String} :
    isComponentKey s = true ↔ s.toList ≠ [] ∧ ∀ c ∈ s.toList, isKeyChar c = true := by
  simp [isComponentKey]

theorem isKeyChar_keyChars (last : Option Char) (gap : Bool) (cs : List Char) :
    ∀ c ∈ keyChars last gap cs, isKeyChar c = true := by
  induction cs generalizing last gap with
  | nil => simp [keyChars]
  | cons d cs ih =>
    intro c hc
    rw [keyChars] at hc
    split at hc
    · next hd =>
      rcases List.mem_append.mp hc with hsep | hrest
      · split at hsep
        · rw [List.mem_singleton.mp hsep]
          decide
        · cases hsep
      · rcases List.mem_cons.mp hrest with rfl | hrest
        · exact hd
        · exact ih _ _ c hrest
    · exact ih _ _ c hc

theorem isComponentKey_componentKey (name : String) : isComponentKey (componentKey name) = true := by
  unfold componentKey
  split
  · decide
  · next cs hne =>
    rw [isComponentKey_iff, String.toList_ofList]
    exact ⟨hne, isKeyChar_keyChars _ _ _⟩

theorem isKeyChar_of_isDigit {c : Char} (h : c.isDigit = true) : isKeyChar c = true := by
  have hd : Text.isDigit c = true := by
    simp only [Char.isDigit, Bool.and_eq_true, decide_eq_true_eq] at h
    simp only [Text.isDigit, Bool.and_eq_true, decide_eq_true_eq]
    exact h
  simp [isKeyChar, Text.isAlphanumeric, hd]

theorem isComponentKey_append_number {base : String} (h : isComponentKey base = true) (n : Nat) :
    isComponentKey (base ++ toString n) = true := by
  rw [isComponentKey_iff] at h ⊢
  rw [String.toList_append, Nat.toString_eq_ofList_toDigits, String.toList_ofList]
  refine ⟨List.append_ne_nil_of_left_ne_nil h.1 _, fun c hc => ?_⟩
  rcases List.mem_append.mp hc with hc | hc
  · exact h.2 c hc
  · exact isKeyChar_of_isDigit (Nat.isDigit_of_mem_toDigits (by decide) (by decide) hc)

/-! ### Freshness -/

theorem toString_injective : Function.Injective (toString : Nat → String) := by
  intro m n h
  rw [Nat.toString_eq_ofList_toDigits, Nat.toString_eq_ofList_toDigits, String.ofList_inj] at h
  rw [← Nat.ofDigitChars_ten_toDigits (n := m), h, Nat.ofDigitChars_ten_toDigits]

theorem nodup_keyCandidates (base : String) (count : Nat) : (keyCandidates base count).Nodup := by
  refine List.nodup_cons.mpr ⟨?_, ?_⟩
  · intro h
    obtain ⟨i, -, hi⟩ := List.mem_map.mp h
    have hlen := congrArg String.length hi
    have hpos : 0 < (toString (i + 2)).length := by
      rw [Nat.toString_eq_ofList_toDigits, String.length_ofList]
      exact Nat.length_toDigits_pos
    rw [String.length_append] at hlen
    omega
  · refine List.nodup_range.map fun i j hij => ?_
    have := toString_injective ((String.append_right_inj base).mp hij)
    omega

theorem length_keyCandidates (base : String) (count : Nat) :
    (keyCandidates base count).length = count + 1 := by
  simp [keyCandidates]

/-- Some candidate is free: there are too many of them to be taken all. -/
theorem exists_free_candidate (base : String) (taken : List String) :
    ∃ key ∈ keyCandidates base taken.length, key ∉ taken := by
  by_contra h
  push Not at h
  have hle := (nodup_keyCandidates base taken.length).length_le_of_subset fun k hk => h k hk
  rw [length_keyCandidates] at hle
  omega

theorem find?_freshKey (base : String) (taken : List String) :
    (keyCandidates base taken.length).find? (fun k => !taken.contains k) =
      some (freshKey base taken) := by
  unfold freshKey
  cases h : (keyCandidates base taken.length).find? (fun k => !taken.contains k) with
  | some key => rfl
  | none =>
    obtain ⟨key, hkey, hfree⟩ := exists_free_candidate base taken
    have := List.find?_eq_none.mp h key hkey
    simp [hfree] at this

theorem freshKey_notMem (base : String) (taken : List String) : freshKey base taken ∉ taken := by
  simpa using List.find?_some (find?_freshKey base taken)

/-- A key that is free is taken as it is. -/
theorem freshKey_of_notMem {base : String} {taken : List String} (h : base ∉ taken) :
    freshKey base taken = base := by
  simp [freshKey, keyCandidates, h]

/-- What is tried first, second and so on. -/
def candidate (base : String) : Nat → String
  | 0 => base
  | n + 1 => base ++ toString (n + 2)

/-- The first free one of the first `fuel` candidates. -/
def searchWithin (base : String) (taken : List String) (fuel : Nat) : Option String :=
  ((List.range fuel).map (candidate base)).find? fun k => !taken.contains k

theorem map_candidate_range (base : String) (count : Nat) :
    (List.range (count + 1)).map (candidate base) = keyCandidates base count := by
  rw [List.range_succ_eq_map, List.map_cons, List.map_map]
  rfl

/-- As many candidates as there are taken keys, and one more, are enough to search. -/
theorem searchWithin_length (base : String) (taken : List String) :
    searchWithin base taken (taken.length + 1) = some (freshKey base taken) := by
  rw [searchWithin, map_candidate_range]
  exact find?_freshKey base taken

theorem searchWithin_of_le {base : String} {taken : List String} {fuel more : Nat}
    (h : fuel ≤ more) {key : String} (hkey : searchWithin base taken fuel = some key) :
    searchWithin base taken more = some key := by
  obtain ⟨k, rfl⟩ := Nat.exists_eq_add_of_le h
  rw [searchWithin] at hkey ⊢
  rw [List.range_add, List.map_append, List.find?_append, hkey, Option.some_or]

theorem isComponentKey_freshKey {base : String} (h : isComponentKey base = true)
    (taken : List String) : isComponentKey (freshKey base taken) = true := by
  rcases List.mem_cons.mp (List.mem_of_find?_eq_some (find?_freshKey base taken)) with hb | hb
  · rwa [hb]
  · obtain ⟨i, -, hi⟩ := List.mem_map.mp hb
    rw [← hi]
    exact isComponentKey_append_number h _

end TypedApi.OpenApi
