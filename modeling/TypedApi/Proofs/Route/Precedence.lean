import TypedApi.Proofs.Route.Assembly

/-! The first operation of each place.

Routes give operations one after the other, and of several with one path and one method the
document of a manifest keeps the first (`keeps_document`). What a document keeps is said of the
list of all operations that were added to it (`Keeps`). An operation whose place is taken changes
nothing, neither paths nor tags, and still its types are in the table from which the next route
goes on. -/
namespace TypedApi.Route

open OpenApi

/-! ### The first of each key -/

section
variable {α κ : Type} [DecidableEq κ]

/-- The items whose key has not come before. -/
def firstOf (key : α → κ) : List α → List α
  | [] => []
  | x :: rest => x :: (firstOf key rest).filter (key · ≠ key x)

/-- An item at the end counts if its key is new. -/
theorem firstOf_append_singleton (key : α → κ) (xs : List α) (x : α) :
    firstOf key (xs ++ [x]) =
      if key x ∈ xs.map key then firstOf key xs else firstOf key xs ++ [x] := by
  induction xs with
  | nil => simp [firstOf]
  | cons y ys ih =>
    rw [List.cons_append, firstOf, firstOf, ih, List.map_cons]
    by_cases hys : key x ∈ ys.map key
    · rw [if_pos hys, if_pos (List.mem_cons_of_mem _ hys)]
    · rw [if_neg hys, List.filter_append]
      by_cases hy : key x = key y
      · rw [if_pos (List.mem_cons.mpr (.inl hy))]
        simp [hy]
      · rw [if_neg fun hmem => (List.mem_cons.mp hmem).elim hy hys]
        simp [hy]

end

/-! ### Taken places -/

/-- An operation with its path and its method. -/
abbrev Offer := String × Method × Operation

def Offer.place (o : Offer) : String × Method := (o.1, o.2.1)

/-- The operation of a document at a place. -/
def operationAt? (d : Document) (place : String × Method) : Option Operation :=
  (d.paths.lookup place.1).bind (·.operation? place.2)

/-- The first operation that was offered for a place. -/
def firstAt? (offers : List Offer) (place : String × Method) : Option Operation :=
  (offers.find? (·.place = place)).map (·.2.2)

theorem operation?_getD (item : Option PathItem) (m : Method) :
    (item.getD {}).operation? m = item.bind (·.operation? m) := by
  cases item with
  | none => cases m <;> rfl
  | some item => rfl

section
variable {d : Document} {offers : List Offer} {o : Offer}

theorem addOperation_of_taken {op : Operation} (h : operationAt? d o.place = some op) :
    addOperation d o.1 o.2.1 o.2.2 = d := by
  have hitem : ((d.paths.lookup o.1).getD {}).operation? o.2.1 = some op :=
    (operation?_getD _ _).trans h
  simp only [addOperation, hitem]

theorem addOperation_of_free (h : operationAt? d o.place = none) :
    addOperation d o.1 o.2.1 o.2.2 = { d with
      paths := Json.assign o.1 (((d.paths.lookup o.1).getD {}).withOperation o.2.1 (some o.2.2)) d.paths
      tags := addTags d.tags o.2.2.tags } := by
  have hitem : ((d.paths.lookup o.1).getD {}).operation? o.2.1 = none :=
    (operation?_getD _ _).trans h
  simp only [addOperation, hitem]

/-- An operation in a free place stands there, and all others stay where they are. -/
theorem operationAt?_addOperation (h : operationAt? d o.place = none) (place : String × Method) :
    operationAt? (addOperation d o.1 o.2.1 o.2.2) place =
      if o.place = place then some o.2.2 else operationAt? d place := by
  rw [addOperation_of_free h]
  by_cases hpath : place.1 = o.1
  · by_cases hm : place.2 = o.2.1
    · have hplace : o.place = place := Prod.ext hpath.symm hm.symm
      simp [operationAt?, hplace, hpath, hm, Json.lookup_assign_self,
        PathItem.operation?_withOperation_self]
    · have hplace : o.place ≠ place := fun heq => hm (congrArg Prod.snd heq.symm)
      simp [operationAt?, hplace, hpath, Json.lookup_assign_self,
        PathItem.operation?_withOperation_of_ne _ hm, operation?_getD]
  · have hplace : o.place ≠ place := fun heq => hpath (congrArg Prod.fst heq.symm)
    simp [operationAt?, hplace, Json.lookup_assign_of_ne hpath]

theorem firstAt?_append_singleton (offers : List Offer) (o : Offer) (place : String × Method) :
    firstAt? (offers ++ [o]) place =
      (firstAt? offers place).or (if o.place = place then some o.2.2 else none) := by
  by_cases hplace : o.place = place <;>
    simp [firstAt?, List.find?_append, hplace]

theorem firstAt?_eq_none {place : String × Method} :
    firstAt? offers place = none ↔ place ∉ offers.map Offer.place := by
  simp [firstAt?, List.find?_eq_none]

end

/-! ### Tags -/

/-- A tag of which nothing but the name is known. -/
def plainTag (name : String) : Tag := { name }

/-- Tags are listed by their first use. -/
theorem addTags_eq (seen names : List String) :
    addTags (seen.eraseDups.map plainTag) names = (seen ++ names).eraseDups.map plainTag := by
  induction names generalizing seen with
  | nil => simp [addTags]
  | cons name names ih =>
    have hlisted : (seen.eraseDups.map plainTag).any (·.name == name) = decide (name ∈ seen) := by
      rw [Bool.eq_iff_iff, List.any_eq_true, decide_eq_true_iff]
      simp [plainTag]
    have hadded : addTags (seen.eraseDups.map plainTag) (name :: names) =
        addTags ((seen ++ [name]).eraseDups.map plainTag) names := by
      rw [Json.eraseDups_append_singleton, addTags, List.foldl_cons, hlisted]
      by_cases hname : name ∈ seen <;> simp [hname, addTags, plainTag]
    rw [hadded, ih, List.append_assoc, List.singleton_append]

/-! ### What a document keeps -/

/-- The document has at each place the first operation that was offered for it, and nothing else:
its paths are those of the offers, by the first offer for each, without parameters of their own,
and its tags are those of the operations that are kept, by their first use. -/
structure Keeps (offers : List Offer) (d : Document) : Prop where
  operation : ∀ place, operationAt? d place = firstAt? offers place
  paths : d.paths.map (·.1) = (offers.map (·.1)).eraseDups
  unshared : ∀ e ∈ d.paths, e.2.parameters = []
  tags : d.tags = ((firstOf Offer.place offers).flatMap (·.2.2.tags)).eraseDups.map plainTag

section
variable {d : Document} {offers : List Offer}

/-- An offer for a place that is taken leaves everything as it is. -/
theorem Keeps.skip (h : Keeps offers d) {o : Offer} (ho : o.place ∈ offers.map Offer.place) :
    Keeps (offers ++ [o]) d where
  operation place := by
    rw [h.operation, firstAt?_append_singleton]
    by_cases hplace : o.place = place
    · have hfound : firstAt? offers place ≠ none := fun hnone =>
        firstAt?_eq_none.mp hnone (hplace ▸ ho)
      obtain ⟨op, hop⟩ := Option.ne_none_iff_exists'.mp hfound
      rw [hop, Option.some_or]
    · rw [if_neg hplace, Option.or_none]
  paths := by
    have hpath : o.1 ∈ offers.map (·.1) := by
      obtain ⟨o', ho', heq⟩ := List.mem_map.mp ho
      exact List.mem_map.mpr ⟨o', ho', congrArg (fun place : String × Method => place.1) heq⟩
    rw [h.paths, List.map_append, List.map_singleton, Json.eraseDups_append_singleton, if_pos hpath]
  unshared := h.unshared
  tags := by rw [h.tags, firstOf_append_singleton, if_pos ho]

/-- An offer for a free place is kept, behind all that was kept before. -/
theorem Keeps.add (h : Keeps offers d) {o : Offer} (ho : o.place ∉ offers.map Offer.place) :
    Keeps (offers ++ [o]) (addOperation d o.1 o.2.1 o.2.2) := by
  have hnone : firstAt? offers o.place = none := firstAt?_eq_none.mpr ho
  have hfree : operationAt? d o.place = none := (h.operation o.place).trans hnone
  refine { operation := fun place => ?_, paths := ?_, unshared := fun e he => ?_, tags := ?_ }
  · rw [operationAt?_addOperation hfree, firstAt?_append_singleton, h.operation]
    by_cases hplace : o.place = place
    · rw [← hplace, hnone, if_pos rfl, Option.none_or]
    · rw [if_neg hplace, if_neg hplace, Option.or_none]
  · rw [addOperation_of_free hfree, List.map_append, List.map_singleton, Json.eraseDups_append_singleton]
    by_cases hpath : o.1 ∈ offers.map (·.1)
    · have hkey : o.1 ∈ d.paths.map (·.1) := h.paths ▸ List.mem_eraseDups.mpr hpath
      rw [if_pos hpath, ← h.paths]
      exact Json.keys_assign_of_mem hkey _
    · have hkey : o.1 ∉ d.paths.map (·.1) := fun hmem =>
        hpath (List.mem_eraseDups.mp (h.paths ▸ hmem))
      rw [if_neg hpath, ← h.paths]
      simp [Json.assign_of_notMem hkey]
  · rw [addOperation_of_free hfree] at he
    rcases Json.mem_of_mem_assign he with rfl | he
    · cases hitem : d.paths.lookup o.1 with
      | none => exact parameters_withOperation _ _ _
      | some item =>
        exact (parameters_withOperation _ _ _).trans (h.unshared _ (Json.mem_of_lookup hitem))
    · exact h.unshared e he
  · rw [addOperation_of_free hfree, firstOf_append_singleton, if_neg ho]
    simp [h.tags, addTags_eq]

theorem Keeps.addOperation (h : Keeps offers d) (o : Offer) :
    Keeps (offers ++ [o]) (Route.addOperation d o.1 o.2.1 o.2.2) := by
  by_cases ho : o.place ∈ offers.map Offer.place
  · have htaken : operationAt? d o.place ≠ none := fun hnone =>
      firstAt?_eq_none.mp ((h.operation o.place).symm.trans hnone) ho
    obtain ⟨op, hop⟩ := Option.ne_none_iff_exists'.mp htaken
    rw [addOperation_of_taken hop]
    exact h.skip ho
  · exact h.add ho

theorem keeps_foldl (h : Keeps offers d) (more : List Offer) :
    Keeps (offers ++ more)
      (more.foldl (fun d (path, method, op) => Route.addOperation d path method op) d) := by
  induction more generalizing offers d with
  | nil => rwa [List.append_nil]
  | cons o more ih =>
    rw [List.foldl_cons, List.append_cons]
    exact ih (h.addOperation o)

end

/-! ### Manifests -/

/-- What routes give one after the other, each from the table that those before it have left. -/
def produced (registry : Registry) (versioning : Versioning) : List Route → SchemaTable → List Offer
  | [], _ => []
  | route :: routes, t =>
    let given := (operations registry versioning route).run t
    given.1 ++ produced registry versioning routes given.2

theorem run_allOperations (registry : Registry) (versioning : Versioning) (routes : List Route)
    (t : SchemaTable) :
    ((allOperations registry versioning routes).run t).1 = produced registry versioning routes t := by
  have hrun : ∀ t, ((routes.mapM (operations registry versioning)).run t).1.flatten =
      produced registry versioning routes t := by
    induction routes with
    | nil => exact fun _ => rfl
    | cons route routes ih =>
      intro t
      rw [List.mapM_cons]
      exact congrArg (((operations registry versioning route).run t).1 ++ ·) (ih _)
  exact hrun t

/-- The document of a manifest keeps the first operation that its routes give for each place. -/
theorem keeps_document (m : Manifest) (options : DocumentOptions) :
    Keeps (produced m.types options.versioning m.routes {}) (m.document options) := by
  have hblank : Keeps [] (blank options) :=
    ⟨fun _ => rfl, rfl, List.forall_mem_nil _, rfl⟩
  have hkeeps := keeps_foldl hblank (compiled m options).1
  rw [List.nil_append] at hkeeps
  have hproduced : (compiled m options).1 = produced m.types options.versioning m.routes {} :=
    run_allOperations m.types options.versioning m.routes {}
  rw [← hproduced]
  exact { hkeeps with }

end TypedApi.Route
