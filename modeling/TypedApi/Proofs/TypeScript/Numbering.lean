import Mathlib.Data.List.Forall2
import Mathlib.Data.List.Nodup
import TypedApi.Proofs.OpenApi.ComponentKey
import TypedApi.TypeScript.Signature

/-! Numbered function names.

A name that a controller has used before takes a number, and the first one stays
(`getElem?_numbered`). The numbers keep equal names apart, so the functions of a controller have
different names exactly if no number makes one name into another one of the controller
(`distinct_numbered`). -/
namespace TypedApi.TypeScript.Signature

/-- Where a function stands: its controller and its name. -/
def place (s : Signature) : String × String := (s.controller, s.functionName)

/-- A name that has come `n` times before. -/
def numberedName (name : String) (n : Nat) : String :=
  if n = 0 then name else name ++ toString (n + 1)

def number (n : Nat) (s : Signature) : Signature :=
  { s with functionName := numberedName s.functionName n }

theorem number_zero (s : Signature) : s.number 0 = s := rfl

theorem numberedName_injective (name : String) : Function.Injective (numberedName name) := by
  have hne : ∀ n, name ++ toString (n + 1) ≠ name := fun n h => by
    have hlength := congrArg String.length h
    rw [String.length_append, Nat.toString_eq_ofList_toDigits, String.length_ofList] at hlength
    have hpos : 0 < (Nat.toDigits 10 (n + 1)).length := Nat.length_toDigits_pos
    omega
  intro m n h
  unfold numberedName at h
  split at h <;> split at h
  · omega
  · exact absurd h.symm (hne n)
  · exact absurd h (hne m)
  · have hnumber := OpenApi.toString_injective ((String.append_right_inj name).mp h)
    omega

/-! ### The numbers -/

theorem numberedFrom_cons (earlier : List (String × String)) (s : Signature) (ss : List Signature) :
    numberedFrom earlier (s :: ss) =
      s.number (earlier.count s.place) :: numberedFrom (s.place :: earlier) ss := by
  rw [numberedFrom]
  refine congrArg (· :: _) ?_
  split
  · next h => rw [show earlier.count s.place = 0 from h, number_zero]
  · next h => rw [number, numberedName, if_neg (show earlier.count s.place ≠ 0 from h), place]

/-- A function takes its number from those of its place that come before it. -/
theorem getElem?_numberedFrom (earlier : List (String × String)) (ss : List Signature) (i : Nat) :
    (numberedFrom earlier ss)[i]? = ss[i]?.map fun s =>
      s.number (earlier.count s.place + ((ss.take i).map place).count s.place) := by
  induction ss generalizing earlier i with
  | nil => rfl
  | cons s ss ih =>
    rw [numberedFrom_cons]
    cases i with
    | zero => rfl
    | succ i =>
      rw [List.getElem?_cons_succ, List.getElem?_cons_succ, ih]
      refine Option.map_congr fun t _ => ?_
      rw [List.take_succ_cons, List.map_cons, List.count_cons, List.count_cons]
      congr 1
      omega

theorem getElem?_numbered (ss : List Signature) (i : Nat) :
    (numbered ss)[i]? = ss[i]?.map fun s => s.number (((ss.take i).map place).count s.place) := by
  rw [numbered, getElem?_numberedFrom]
  simp

theorem forall₂_numberedFrom (earlier : List (String × String)) (ss : List Signature) :
    List.Forall₂ (fun s t => ∃ n, t = s.number n) ss (numberedFrom earlier ss) := by
  induction ss generalizing earlier with
  | nil => exact .nil
  | cons s ss ih =>
    rw [numberedFrom_cons]
    exact .cons ⟨_, rfl⟩ (ih _)

theorem length_numberedFrom (earlier : List (String × String)) (ss : List Signature) :
    (numberedFrom earlier ss).length = ss.length :=
  (forall₂_numberedFrom earlier ss).length_eq.symm

/-! ### Counting -/

section
variable {α : Type} [BEq α] [LawfulBEq α] {xs : List α} {a : α}

/-- Every place in the count of an element is one in the list. -/
theorem exists_of_lt_count {n : Nat} (h : n < xs.count a) :
    ∃ i, xs[i]? = some a ∧ (xs.take i).count a = n := by
  induction xs generalizing n with
  | nil => simp at h
  | cons x xs ih =>
    rw [List.count_cons] at h
    by_cases hx : (x == a) = true
    · rw [if_pos hx] at h
      cases n with
      | zero => exact ⟨0, by rw [eq_of_beq hx]; rfl, rfl⟩
      | succ n =>
        obtain ⟨i, hi, hcount⟩ := ih (Nat.lt_of_succ_lt_succ h)
        refine ⟨i + 1, by rwa [List.getElem?_cons_succ], ?_⟩
        rw [List.take_succ_cons, List.count_cons, hcount, if_pos hx]
    · rw [if_neg hx] at h
      obtain ⟨i, hi, hcount⟩ := ih h
      refine ⟨i + 1, by rwa [List.getElem?_cons_succ], ?_⟩
      rw [List.take_succ_cons, List.count_cons, hcount, if_neg hx, Nat.add_zero]

theorem count_take_lt {i j : Nat} (h : xs[i]? = some a) (hij : i < j) :
    (xs.take i).count a < (xs.take j).count a := by
  have hnext : xs.take (i + 1) = xs.take i ++ [a] := by
    rw [List.take_add_one, h]
    rfl
  have hle : (xs.take (i + 1)).count a ≤ (xs.take j).count a :=
    (List.take_sublist_take_left hij).count_le a
  rw [hnext, List.count_append, List.count_singleton_self] at hle
  omega

theorem count_take_lt_count {i : Nat} (h : xs[i]? = some a) : (xs.take i).count a < xs.count a := by
  obtain ⟨hi, -⟩ := List.getElem?_eq_some_iff.mp h
  have hlt := count_take_lt h hi
  rwa [List.take_length] at hlt

end

/-! ### Distinct names -/

/-- No two names of a controller become one by their numbers, as often as they come. -/
def Apart (ss : List Signature) : Prop :=
  ∀ s ∈ ss, ∀ t ∈ ss, s.controller = t.controller → s.functionName ≠ t.functionName →
    ∀ m < (ss.map place).count s.place, ∀ n < (ss.map place).count t.place,
      numberedName s.functionName m ≠ numberedName t.functionName n

variable {ss : List Signature}

theorem place_numbered {i : Nat} {s : Signature} (h : ss[i]? = some s) :
    ((numbered ss).map place)[i]? =
      some (s.controller, numberedName s.functionName (((ss.take i).map place).count s.place)) := by
  rw [List.getElem?_map, getElem?_numbered, h]
  rfl

/-- The functions of a place as they come. -/
theorem exists_numbered {s : Signature} {n : Nat} (hn : n < (ss.map place).count s.place) :
    ∃ i : Nat, (ss.map place)[i]? = some s.place ∧
      ((numbered ss).map place)[i]? = some (s.controller, numberedName s.functionName n) := by
  obtain ⟨i, hi, hcount⟩ := exists_of_lt_count hn
  obtain ⟨t, ht, hplace⟩ := Option.map_eq_some_iff.mp (List.getElem?_map.symm.trans hi)
  refine ⟨i, hi, ?_⟩
  obtain ⟨hcontroller, hname⟩ := Prod.mk.inj hplace
  rw [place_numbered ht, hplace, List.map_take, hcount]
  exact congrArg some (Prod.ext hcontroller (congrArg (numberedName · n) hname))

theorem apart_of_nodup (h : ((numbered ss).map place).Nodup) : Apart ss := by
  intro s _ t _ hcontroller hname m hm n hn heq
  obtain ⟨i, hi, his⟩ := exists_numbered hm
  obtain ⟨j, hj, hjt⟩ := exists_numbered hn
  have hij : i = j := by
    refine (List.getElem?_inj ?_ h).mp ?_
    · exact (List.getElem?_eq_some_iff.mp his).1
    · rw [his, hjt, hcontroller, heq]
  rw [hij, hj] at hi
  exact hname (Prod.mk.inj (Option.some.inj hi)).2.symm

theorem nodup_of_apart (h : Apart ss) : ((numbered ss).map place).Nodup := by
  refine List.nodup_iff_getElem?_ne_getElem?.mpr fun i j hij hj heq => ?_
  rw [List.length_map, numbered, length_numberedFrom] at hj
  have hs : ss[i]? = some ss[i] := List.getElem?_eq_getElem (Nat.lt_trans hij hj)
  have ht : ss[j]? = some ss[j] := List.getElem?_eq_getElem hj
  have hcount : ∀ {k : Nat} {u : Signature}, ss[k]? = some u → (ss.map place)[k]? = some u.place :=
    fun hu => by rw [List.getElem?_map, hu]; rfl
  rw [place_numbered hs, place_numbered ht] at heq
  obtain ⟨hcontroller, hnumbered⟩ := Prod.mk.inj (Option.some.inj heq)
  rw [List.map_take, List.map_take] at hnumbered
  by_cases hname : ss[i].functionName = ss[j].functionName
  · -- The later one has seen the earlier one, so its number is higher.
    have hplace : ss[i].place = ss[j].place := Prod.ext hcontroller hname
    have hlt := count_take_lt (hcount hs) hij
    rw [← hplace, ← hname] at hnumbered
    have heq := numberedName_injective _ hnumbered
    omega
  · exact h _ (List.getElem_mem _) _ (List.getElem_mem _) hcontroller hname _
      (count_take_lt_count (hcount hs)) _ (count_take_lt_count (hcount ht)) hnumbered

/-- The functions of each controller have different names exactly if no two of its names become one
by their numbers. The first function of a name stays as it is. -/
theorem distinct_numbered (ss : List Signature) :
    (((numbered ss).map place).Nodup ↔ Apart ss) ∧
      ∀ i s, ss[i]? = some s → s.place ∉ (ss.take i).map place → (numbered ss)[i]? = some s := by
  refine ⟨⟨apart_of_nodup, nodup_of_apart⟩, fun i s hs hfirst => ?_⟩
  rw [getElem?_numbered, hs, Option.map_some, List.count_eq_zero.mpr hfirst, number_zero]

/-- The second of two functions of one name can take the name of a third. -/
theorem repeated_numbered :
    let named (name : String) : Signature :=
      { functionName := name, method := .get, path := "/", controller := "default" }
    ¬ ((numbered [named "list", named "list", named "list2"]).map place).Nodup := by
  decide +kernel

end TypedApi.TypeScript.Signature
