import TypedApi.Proofs.Api.Operations

/-! The parameters of an operation.

An operation has the parameters that its path declares and its own, and a later declaration takes
the place of an earlier one of the same name and location. What a client passes is therefore
described by the list of all declarations: of each name and location the last that can be read, in
the order of these last declarations (`overriding_operationOf`). That the items which are left are at
the places of the last ones (`latest_lastOf`) is shown for any way to read the items of a list and
any key of what is read, by what one more item in front changes. -/
namespace TypedApi.Api

/-! ### The places of the last items -/

section
variable {α β κ : Type} (read? : α → Option β) (key : β → κ)

/-- The item at a place can be read, and none with its key comes later. -/
def LastAt (xs : List α) (i : Nat) : Prop :=
  ∃ y, xs[i]?.bind read? = some y ∧ ∀ j z, i < j → xs[j]?.bind read? = some z → key z ≠ key y

/-- What is read at the places of the last items, in order. -/
def Latest (xs : List α) (ys : List β) : Prop :=
  ∃ places : List Nat, places.Pairwise (· < ·) ∧ (∀ i, i ∈ places ↔ LastAt read? key xs i) ∧
    ys.map some = places.map fun i => xs[i]?.bind read?

variable {read? key} {x : α} {xs : List α} {y : β} {ys : List β}

theorem lastAt_succ (i : Nat) : LastAt read? key (x :: xs) (i + 1) ↔ LastAt read? key xs i := by
  constructor
  · rintro ⟨y, hy, hlater⟩
    exact ⟨y, hy, fun j z hj hz => hlater (j + 1) z (Nat.succ_lt_succ hj) hz⟩
  · rintro ⟨y, hy, hlater⟩
    refine ⟨y, hy, fun j z hj hz => ?_⟩
    obtain ⟨j, rfl⟩ := Nat.exists_eq_add_of_lt (Nat.zero_lt_of_lt hj)
    rw [Nat.zero_add] at hj hz
    exact hlater j z (Nat.lt_of_succ_lt_succ hj) hz

theorem lastAt_zero :
    LastAt read? key (x :: xs) 0 ↔ ∃ y, read? x = some y ∧ ∀ z ∈ xs.filterMap read?, key z ≠ key y := by
  constructor
  · rintro ⟨y, hy, hlater⟩
    refine ⟨y, hy, fun z hz => ?_⟩
    obtain ⟨w, hw, hread⟩ := List.mem_filterMap.mp hz
    obtain ⟨j, hj⟩ := List.mem_iff_getElem?.mp hw
    refine hlater (j + 1) z (Nat.succ_pos j) ?_
    rw [List.getElem?_cons_succ, hj, Option.bind_some, hread]
  · rintro ⟨y, hy, hlater⟩
    refine ⟨y, hy, fun j z hj hz => hlater z ?_⟩
    obtain ⟨j, rfl⟩ := Nat.exists_eq_add_of_lt hj
    rw [Nat.zero_add, List.getElem?_cons_succ] at hz
    obtain ⟨w, hw, hread⟩ := Option.bind_eq_some_iff.mp hz
    exact List.mem_filterMap.mpr ⟨w, List.mem_of_getElem? hw, hread⟩

theorem latest_nil : Latest read? key [] [] := by
  refine ⟨[], .nil, fun i => iff_of_false List.not_mem_nil ?_, rfl⟩
  rintro ⟨y, hy, -⟩
  cases hy

-- An item in front moves all places by one.

theorem succ_mem_places {places : List Nat} (h : ∀ i, i ∈ places ↔ LastAt read? key xs i) (x : α)
    (i : Nat) : i + 1 ∈ places.map Nat.succ ↔ LastAt read? key (x :: xs) (i + 1) := by
  rw [lastAt_succ, ← h]
  exact List.mem_map_of_injective Nat.succ_injective

theorem pairwise_succ {places : List Nat} (h : places.Pairwise (· < ·)) :
    (places.map Nat.succ).Pairwise (· < ·) :=
  List.pairwise_map.mpr (h.imp Nat.succ_lt_succ)

theorem map_succ_places (x : α) (xs : List α) (places : List Nat) :
    (places.map Nat.succ).map (fun i => (x :: xs)[i]?.bind read?) =
      places.map fun i => xs[i]?.bind read? := by
  rw [List.map_map]
  rfl

/-- An item that cannot be read, or whose key comes again, adds nothing. -/
theorem Latest.skip (h : Latest read? key xs ys) (hx : ¬ LastAt read? key (x :: xs) 0) :
    Latest read? key (x :: xs) ys := by
  obtain ⟨places, hsorted, hplaces, hitems⟩ := h
  refine ⟨places.map Nat.succ, pairwise_succ hsorted, fun i => ?_, ?_⟩
  · cases i with
    | zero => exact iff_of_false (by simp) hx
    | succ i => exact succ_mem_places hplaces x i
  · rw [map_succ_places, hitems]

/-- A last item stands in front of the later ones. -/
theorem Latest.keep (h : Latest read? key xs ys) (hx : LastAt read? key (x :: xs) 0)
    (hy : read? x = some y) : Latest read? key (x :: xs) (y :: ys) := by
  obtain ⟨places, hsorted, hplaces, hitems⟩ := h
  refine ⟨0 :: places.map Nat.succ, List.pairwise_cons.mpr ⟨?_, pairwise_succ hsorted⟩,
    fun i => ?_, ?_⟩
  · intro i hi
    obtain ⟨j, -, rfl⟩ := List.mem_map.mp hi
    exact Nat.succ_pos j
  · cases i with
    | zero => exact iff_of_true List.mem_cons_self hx
    | succ i =>
      rw [← succ_mem_places hplaces x i, List.mem_cons]
      exact or_iff_right (Nat.succ_ne_zero i)
  · rw [List.map_cons, List.map_cons, map_succ_places, hitems, List.getElem?_cons_zero,
      Option.bind_some, hy]

variable [DecidableEq κ]

/-- Dropping the items whose key comes again leaves the last ones. -/
theorem latest_lastOf (read? : α → Option β) (key : β → κ) (xs : List α) :
    Latest read? key xs (lastOf key (xs.filterMap read?)) := by
  induction xs with
  | nil => exact latest_nil
  | cons x xs ih =>
    cases hx : read? x with
    | none =>
      rw [List.filterMap_cons_none hx]
      refine ih.skip fun hlast => ?_
      obtain ⟨y, hy, -⟩ := lastAt_zero.mp hlast
      rw [hx] at hy
      cases hy
    | some y =>
      rw [List.filterMap_cons_some hx, lastOf]
      by_cases hany : (xs.filterMap read?).any (key · = key y) = true
      · rw [if_pos hany]
        refine ih.skip fun hlast => ?_
        obtain ⟨y', hy', hlater⟩ := lastAt_zero.mp hlast
        cases hx.symm.trans hy'
        obtain ⟨z, hz, hkey⟩ := List.any_eq_true.mp hany
        exact hlater z hz (of_decide_eq_true hkey)
      · rw [if_neg hany]
        refine ih.keep (lastAt_zero.mpr ⟨y, hx, fun z hz hkey => hany ?_⟩) hx
        exact List.any_eq_true.mpr ⟨z, hz, decide_eq_true hkey⟩

theorem mem_of_mem_lastOf {key : α → κ} {x : α} {xs : List α} (h : x ∈ lastOf key xs) : x ∈ xs := by
  induction xs with
  | nil => cases h
  | cons y ys ih =>
    rw [lastOf] at h
    split at h
    · exact List.mem_cons_of_mem _ (ih h)
    · rcases List.mem_cons.mp h with rfl | h
      · exact List.mem_cons_self
      · exact List.mem_cons_of_mem _ (ih h)

theorem nodup_lastOf (key : α → κ) (xs : List α) : ((lastOf key xs).map key).Nodup := by
  induction xs with
  | nil => exact List.nodup_nil
  | cons x xs ih =>
    rw [lastOf]
    split
    · exact ih
    · next hany =>
      rw [List.map_cons]
      refine List.nodup_cons.mpr ⟨fun hmem => hany ?_, ih⟩
      obtain ⟨y, hy, hkey⟩ := List.mem_map.mp hmem
      exact List.any_eq_true.mpr ⟨y, mem_of_mem_lastOf hy, decide_eq_true hkey⟩

end

/-! ### Declarations -/

/-- The parameter that a declaration stands for, behind its references. -/
def declared? (root d : Json) : Option Parameter := parameter? (resolve root maxHops d)

/-- A declaration that has a name, and a location that is not a cookie. -/
def Readable (root d : Json) : Prop :=
  (textOf? (resolve root maxHops d) "name").isSome ∧
    ∃ l ∈ ["path", "query", "header"], textOf? (resolve root maxHops d) "in" = some l

theorem isSome_declared?_iff {root d : Json} : (declared? root d).isSome ↔ Readable root d := by
  rw [declared?, parameter?, Readable]
  cases textOf? (resolve root maxHops d) "name" with
  | none => simp
  | some name =>
    cases textOf? (resolve root maxHops d) "in" with
    | none => simp
    | some l =>
      simp only [Option.bind_eq_bind, Option.bind_some]
      split <;> simp_all

/-- The parameters `ps` of an operation, given the declarations of its path and its own. -/
structure Overriding (root : Json) (shared own : List Json) (ps : List Parameter) : Prop where
  /-- No name is there twice for one location. -/
  nodup : (ps.map Parameter.place).Nodup
  /-- They are the last readable declarations of their names and locations, in order. -/
  last : Latest (declared? root) Parameter.place (shared ++ own) ps
  /-- Those of the path give way to those of the operation. -/
  precedence : ps = (parametersOf root shared).filter
      (fun p => !(own.filterMap (declared? root)).any (·.place = p.place)) ++ parametersOf root own
  /-- What cannot be read makes no difference. -/
  unread : ∀ before d after, shared ++ own = before ++ d :: after → ¬ Readable root d →
    parametersOf root (before ++ after) = ps

theorem parametersOf_eq (root : Json) (ds : List Json) :
    parametersOf root ds = lastOf Parameter.place (ds.filterMap (declared? root)) := by
  show (ds.filterMap (declared? root)).foldl override [] = _
  rw [foldl_override, List.filter_nil, List.nil_append]

theorem parametersOf_append (root : Json) (ds es : List Json) :
    parametersOf root (ds ++ es) = (parametersOf root ds).filter
      (fun p => !(es.filterMap (declared? root)).any (·.place = p.place)) ++ parametersOf root es := by
  show ((ds ++ es).filterMap (declared? root)).foldl override [] = _
  rw [List.filterMap_append, List.foldl_append, foldl_override, parametersOf_eq root es]
  rfl

theorem parametersOf_unread {root d : Json} (h : ¬ Readable root d) (before after : List Json) :
    parametersOf root (before ++ d :: after) = parametersOf root (before ++ after) := by
  have hnone : declared? root d = none := by
    rw [← Option.not_isSome_iff_eq_none, isSome_declared?_iff]
    exact h
  rw [parametersOf_eq, parametersOf_eq, List.filterMap_append, List.filterMap_append,
    List.filterMap_cons_none hnone]

/-- The parameters of an operation are the last declarations of each name and location, those of
the path first and then its own, whatever else is among them. -/
theorem overriding_operationOf (root : Json) (path : String) (shared : List Json) (m : Method)
    (op : Json) :
    Overriding root shared (itemsOf op "parameters")
      (operationOf root path shared m op).parameters := by
  show Overriding root shared (itemsOf op "parameters")
    (parametersOf root (shared ++ itemsOf op "parameters"))
  generalize itemsOf op "parameters" = own
  exact {
    nodup := by
      rw [parametersOf_eq]
      exact nodup_lastOf _ _
    last := by
      rw [parametersOf_eq]
      exact latest_lastOf _ _ _
    precedence := parametersOf_append root shared own
    unread := fun before d after heq h => by rw [heq, parametersOf_unread h] }

end TypedApi.Api
