import TypedApi.Proofs.Json.Keeping

/-! How deep a text nests.

A container that opens where there is no room left is marked, and no decoder reads it. The
containers that can be read are therefore never more than the limit (`depth_reading`), and the
value of a draft nests no deeper than the draft (`depth_of_value`). -/
namespace TypedApi.Json

namespace Draft

mutual
/-- The containers of a draft that are open at once, those beyond the limit aside. -/
def depth : Draft → Nat
  | .arr xs _ => depthItems xs + 1
  | .obj ms _ => depthMembers ms + 1
  | _ => 0
def depthItems : List Draft → Nat
  | [] => 0
  | x :: xs => max (depth x) (depthItems xs)
def depthMembers : List (Option String × Draft) → Nat
  | [] => 0
  | (_, x) :: ms => max (depth x) (depthMembers ms)
end

theorem depth_le_of_mem_items {xs : List Draft} {x : Draft} (h : x ∈ xs) :
    x.depth ≤ depthItems xs := by
  induction xs with
  | nil => cases h
  | cons y ys ih =>
    rw [depthItems]
    rcases List.mem_cons.mp h with rfl | h
    · exact Nat.le_max_left _ _
    · exact Nat.le_trans (ih h) (Nat.le_max_right _ _)

theorem depth_le_of_mem_members {ms : List (Option String × Draft)} {m : Option String × Draft}
    (h : m ∈ ms) : m.2.depth ≤ depthMembers ms := by
  induction ms with
  | nil => cases h
  | cons n ns ih =>
    obtain ⟨key, x⟩ := n
    rw [depthMembers]
    rcases List.mem_cons.mp h with rfl | h
    · exact Nat.le_max_left _ _
    · exact Nat.le_trans (ih h) (Nat.le_max_right _ _)

theorem depth_nested_le {room : Nat} {d : Draft} (h : d.depth ≤ room - 1 + 1) :
    (nested room d).depth ≤ room := by
  unfold nested
  split
  · exact Nat.zero_le _
  · omega

end Draft

/-! ### Values -/

theorem depthItems_le_iff {xs : List Json} {n : Nat} :
    depthItems xs ≤ n ↔ ∀ x ∈ xs, x.depth ≤ n := by
  induction xs with
  | nil => simp [depthItems]
  | cons x xs ih => simp [depthItems, ih]

theorem depthMembers_le_iff {ms : List (String × Json)} {n : Nat} :
    depthMembers ms ≤ n ↔ ∀ m ∈ ms, m.2.depth ≤ n := by
  induction ms with
  | nil => simp [depthMembers]
  | cons m ms ih =>
    obtain ⟨k, v⟩ := m
    rw [depthMembers, Nat.max_le, ih, List.forall_mem_cons]

mutual
/-- The value of a draft nests no deeper than the draft. -/
theorem depth_of_value : (d : Draft) → {v : Json} → d.value = .ok v → v.depth ≤ d.depth
  | .null, _, h | .bool _, _, h | .num _, _, h | .str _, _, h => by
    cases h
    exact Nat.le_refl 0
  | .unfit, _, h | .stopped _, _, h | .deep _, _, h => by cases h
  | .arr xs ending, _, h => by
    rw [Draft.value] at h
    obtain ⟨items, hitems, h⟩ := ok_of_bind h
    obtain ⟨-, -, h⟩ := ok_of_bind h
    cases h
    exact Nat.succ_le_succ (depthItems_of_values xs hitems)
  | .obj ms ending, _, h => by
    rw [Draft.value] at h
    obtain ⟨members, hmembers, h⟩ := ok_of_bind h
    obtain ⟨-, -, h⟩ := ok_of_bind h
    cases h
    refine Nat.succ_le_succ (depthMembers_le_iff.mpr fun m hm => ?_)
    exact depthMembers_le_iff.mp (depthMembers_of_values ms hmembers) m (mem_of_mem_table hm)

theorem depthItems_of_values : (xs : List Draft) → {vs : List Json} →
    Draft.values xs = .ok vs → depthItems vs ≤ Draft.depthItems xs
  | [], _, h => by
    cases h
    exact Nat.le_refl 0
  | x :: xs, _, h => by
    rw [Draft.values] at h
    obtain ⟨v, hv, h⟩ := ok_of_bind h
    obtain ⟨vs, hvs, h⟩ := ok_of_bind h
    cases h
    have hx := depth_of_value x hv
    have hxs := depthItems_of_values xs hvs
    rw [depthItems, Draft.depthItems]
    omega

theorem depthMembers_of_values : (ms : List (Option String × Draft)) → {vs : List (String × Json)} →
    Draft.memberValues ms = .ok vs → depthMembers vs ≤ Draft.depthMembers ms
  | [], _, h => by
    cases h
    exact Nat.le_refl 0
  | (none, _) :: _, _, h => by cases h
  | (some k, x) :: ms, _, h => by
    rw [Draft.memberValues] at h
    obtain ⟨v, hv, h⟩ := ok_of_bind h
    obtain ⟨vs, hvs, h⟩ := ok_of_bind h
    cases h
    have hx := depth_of_value x hv
    have hms := depthMembers_of_values ms hvs
    rw [depthMembers, Draft.depthMembers]
    omega
end

/-! ### Parts of a value -/

/-- The values that stand directly in a value. -/
def parts : Json → List Json
  | .arr xs => xs
  | .obj ms => ms.map (·.2)
  | _ => []

theorem readable_of_mem_parts {v w : Json} (hv : v.Readable) (h : w ∈ parts v) : w.Readable := by
  cases v with
  | arr xs => exact hv.items w h
  | obj ms =>
    obtain ⟨m, hm, rfl⟩ := List.mem_map.mp h
    exact hv.members m hm
  | _ => cases h

theorem height_lt_of_mem_parts {v w : Json} (h : w ∈ parts v) :
    (Draft.ofValue w).height < (Draft.ofValue v).height := by
  cases v with
  | arr xs =>
    have hle : ∀ ys : List Json, w ∈ ys →
        (Draft.ofValue w).height ≤ Draft.heightItems (Draft.ofItems ys) := by
      intro ys hm
      induction ys with
      | nil => cases hm
      | cons y ys ih =>
        rw [Draft.ofItems, Draft.heightItems]
        rcases List.mem_cons.mp hm with rfl | hm
        · exact Nat.le_max_left _ _
        · exact Nat.le_trans (ih hm) (Nat.le_max_right _ _)
    rw [Draft.ofValue, Draft.height]
    exact Nat.lt_succ_of_le (hle xs h)
  | obj ms =>
    have hle : ∀ ns : List (String × Json), w ∈ ns.map (·.2) →
        (Draft.ofValue w).height ≤ Draft.heightMembers (Draft.ofMembers ns) := by
      intro ns hm
      induction ns with
      | nil => cases hm
      | cons n ns ih =>
        rw [Draft.ofMembers, Draft.heightMembers]
        rcases List.mem_cons.mp hm with heq | hm
        · rw [heq]
          exact Nat.le_max_left _ _
        · exact Nat.le_trans (ih hm) (Nat.le_max_right _ _)
    rw [Draft.ofValue, Draft.height]
    exact Nat.lt_succ_of_le (hle ms h)
  | _ => cases h

/-! ### Texts -/

theorem depth_readNumber (value? : Numeral → Option Number) (negative : Bool) (cs : List Char) :
    (readNumber value? negative cs).1.depth = 0 := by
  unfold readNumber
  split
  · rfl
  · next n rest _ =>
    dsimp only
    cases value? n <;> rfl

theorem depth_readWord {value : Draft} (h : value.depth = 0) (word cs : List Char) :
    (readWord value word cs).1.depth = 0 := by
  induction word generalizing cs with
  | nil => exact h
  | cons n ns ih =>
    cases cs with
    | nil => rfl
    | cons c cs =>
      rw [readWord]
      split
      · exact ih cs
      · rfl

/-- A scalar opens no container. -/
theorem depth_readScalar (value? : Numeral → Option Number) (cs : List Char) :
    (readScalar value? cs).1.depth = 0 := by
  fun_cases readScalar value? cs with
  | case2 | case3 | case4 => exact depth_readWord rfl _ _
  | case5 | case9 => exact depth_readNumber _ _ _
  | _ => rfl

mutual
theorem depth_readValue : (fuel room : Nat) → (cs : List Char) →
    (readValue fuel room cs).1.depth ≤ room
  | 0, _, _ => by
    rw [readValue]
    exact Nat.zero_le _
  | fuel + 1, room, cs => by
    rw [readValue]
    split
    · next rest _ =>
      have hitems := depth_readItems fuel (room - 1) true rest
      dsimp only
      split <;> exact Draft.depth_nested_le (Nat.succ_le_succ hitems)
    · next rest _ =>
      have hmembers := depth_readMembers fuel (room - 1) true rest
      dsimp only
      split <;> exact Draft.depth_nested_le (Nat.succ_le_succ hmembers)
    · rw [depth_readScalar]
      exact Nat.zero_le _

theorem depth_readItems : (fuel room : Nat) → (first : Bool) → (cs : List Char) →
    Draft.depthItems (readItems fuel room first cs).1 ≤ room
  | 0, _, _, _ => by
    rw [readItems]
    exact Nat.zero_le _
  | fuel + 1, room, first, cs => by
    rw [readItems]
    split
    · exact Nat.zero_le _
    · exact Nat.zero_le _
    · split
      · exact depth_readItem fuel room _
      · split
        · exact Nat.zero_le _
        · exact depth_readItem fuel room _
    · split
      · exact depth_readItem fuel room _
      · exact Nat.zero_le _

theorem depth_readItem : (fuel room : Nat) → (cs : List Char) →
    Draft.depthItems (readItem fuel room cs).1 ≤ room
  | 0, _, _ => by
    rw [readItem]
    exact Nat.zero_le _
  | fuel + 1, room, cs => by
    have hv := depth_readValue fuel room cs
    rw [readItem]
    split
    · exact Nat.zero_le _
    · next heq =>
      rw [heq] at hv
      exact Nat.max_le.mpr ⟨hv, Nat.zero_le _⟩
    · next rest heq =>
      rw [heq] at hv
      exact Nat.max_le.mpr ⟨hv, depth_readItems fuel room false rest⟩

theorem depth_readMembers : (fuel room : Nat) → (first : Bool) → (cs : List Char) →
    Draft.depthMembers (readMembers fuel room first cs).1 ≤ room
  | 0, _, _, _ => by
    rw [readMembers]
    exact Nat.zero_le _
  | fuel + 1, room, first, cs => by
    rw [readMembers]
    split
    · exact Nat.zero_le _
    · exact Nat.zero_le _
    · split
      · exact Nat.zero_le _
      · split
        · exact Nat.zero_le _
        · exact depth_readMember fuel room false _
        · exact Nat.zero_le _
    · split
      · exact depth_readMember fuel room true _
      · exact Nat.zero_le _
    · exact Nat.zero_le _

theorem depth_readMember : (fuel room : Nat) → (first : Bool) → (cs : List Char) →
    Draft.depthMembers (readMember fuel room first cs).1 ≤ room
  | 0, _, _, _ => by
    rw [readMember]
    exact Nat.zero_le _
  | fuel + 1, room, first, cs => by
    rw [readMember]
    split
    · exact Nat.zero_le _
    · split
      · next value _ =>
        have hv := depth_readValue fuel room value
        split
        · next heq =>
          rw [heq] at hv
          exact Nat.max_le.mpr ⟨hv, Nat.zero_le _⟩
        · next more heq =>
          rw [heq] at hv
          exact Nat.max_le.mpr ⟨hv, depth_readMembers fuel room false more⟩
      · exact Nat.zero_le _
      · exact Nat.zero_le _
end

/-- The draft of a text nests no deeper than the limit. -/
theorem depth_reading (text : String) : (Reading.ofText text).draft.depth ≤ nestingLimit := by
  have h := depth_readValue (3 * text.toList.length + 3) nestingLimit text.toList
  unfold Reading.ofText
  dsimp only
  split <;> next heq => rwa [heq] at h

end TypedApi.Json
