import TypedApi.Proofs.SchemaTable.Placement
import TypedApi.Proofs.SourceType.Aliases

/-! Tuples.

A tuple is written as the schema of the lists that begin with its fixed elements, as many of them
as are needed at least, and go on with the items of its rest (`tuple_convert`). So a list is valid
exactly if the tuple type allows it, if the rest is a list type itself. Where a reference leads to
the list type, the items are written as the lists that they should be the items of
(`unopened_rest`). -/
namespace TypedApi.SchemaTable

open OpenApi

/-! ### The lists that a tuple type allows -/

/-- A rest is the last element, and no element that is needed comes behind an optional one. -/
def Ordered (elements : List TupleElement) : Prop :=
  elements.Pairwise fun e f =>
    e.rest = false ∧ (e.optional = true → f.rest = false → f.optional = true)

instance (elements : List TupleElement) : Decidable (Ordered elements) :=
  inferInstanceAs (Decidable (List.Pairwise _ _))

/-- A type is that of lists of `item`, or a reference that leads to it. -/
def ListOf (registry : Registry) (type item : SourceType) : Prop :=
  ∃ names o, registry.Leads type names o ∧ o.form = .array item

/-- The lists that a tuple type allows, where `fits` says which values a type has. -/
inductive Allows (registry : Registry) (fits : SourceType → Json → Prop) :
    List TupleElement → List Json → Prop
  | nil : Allows registry fits [] []
  | item {e : TupleElement} {es : List TupleElement} {v : Json} {vs : List Json}
      (he : e.rest = false) (hv : fits e.type v) (h : Allows registry fits es vs) :
      Allows registry fits (e :: es) (v :: vs)
  | absent {e : TupleElement} {es : List TupleElement} (he : e.rest = false)
      (hoptional : e.optional = true) (h : Allows registry fits es []) :
      Allows registry fits (e :: es) []
  | rest {e : TupleElement} {item : SourceType} {vs : List Json} (he : e.rest = true)
      (hlist : ListOf registry e.type item) (hvs : ∀ v ∈ vs, fits item v) :
      Allows registry fits [e] vs

/-- A list is valid for the keywords of a schema that are about lists, where `valid` says which
values are valid for the schemas inside. -/
structure AcceptsList (valid : Schema → Json → Prop) (s : Schema) (values : List Json) : Prop where
  minItems : ∀ n ∈ s.minItems, n ≤ values.length
  maxItems : ∀ n ∈ s.maxItems, values.length ≤ n
  prefixItems : ∀ p ∈ (s.prefixItems.getD []).zip values, valid p.1 p.2
  items : ∀ u ∈ s.items, ∀ v ∈ values.drop (s.prefixItems.getD []).length, valid u v

section Shape

variable {registry : Registry} {fits : SourceType → Json → Prop}
  {elements fixed : List TupleElement} {rest : Option TupleElement} {values : List Json}

theorem fixed_of_filter : ∀ e ∈ elements.filter (!·.rest), e.rest = false := fun e he => by
  simpa using (List.mem_filter.mp he).2

theorem rest_of_find? : ∀ e ∈ elements.find? (·.rest), e.rest = true := fun _ he =>
  List.find?_some (p := fun e : TupleElement => e.rest) he

/-- The fixed elements come first, and then a rest, if there is one. -/
theorem Ordered.split (h : Ordered elements) :
    elements = elements.filter (!·.rest) ++ (elements.find? (·.rest)).toList := by
  induction elements with
  | nil => rfl
  | cons e es ih =>
    obtain ⟨hfirst, hmore⟩ := List.pairwise_cons.mp h
    cases he : e.rest with
    | false =>
      rw [List.filter_cons_of_pos (by simp [he]), List.find?_cons_of_neg (by simp [he]),
        List.cons_append, ← ih hmore]
    | true =>
      have hlast : es = [] := List.eq_nil_iff_forall_not_mem.mpr fun f hf => by
        rw [(hfirst f hf).1] at he
        cases he
      rw [hlast]
      simp [he]

/-- Behind an optional element all fixed ones are optional. -/
theorem Ordered.pairwise_optional (h : Ordered elements) :
    (elements.filter (!·.rest)).Pairwise fun e f => e.optional = true → f.optional = true := by
  refine (List.Pairwise.filter _ h).imp_of_mem fun {e f} _ hf hef hoptional => ?_
  have hrest : f.rest = false := by simpa using (List.mem_filter.mp hf).2
  exact hef.2 hoptional hrest

/-- The values behind the fixed elements. -/
def AllowsTail (registry : Registry) (fits : SourceType → Json → Prop) :
    Option TupleElement → List Json → Prop
  | none, vs => vs = []
  | some e, vs => ∃ item, ListOf registry e.type item ∧ ∀ v ∈ vs, fits item v

theorem allows_tail_iff (hrest : ∀ e ∈ rest, e.rest = true) :
    Allows registry fits rest.toList values ↔ AllowsTail registry fits rest values := by
  cases rest with
  | none =>
    constructor
    · intro h
      cases h
      rfl
    · rintro rfl
      exact .nil
  | some e =>
    have he := hrest e rfl
    constructor
    · intro h
      cases h with
      | rest _ hlist hvs => exact ⟨_, hlist, hvs⟩
      | item hfixed => rw [he] at hfixed; cases hfixed
      | absent hfixed => rw [he] at hfixed; cases hfixed
    · rintro ⟨item, hlist, hvs⟩
      exact .rest he hlist hvs

theorem allows_cons_iff {e : TupleElement} {es : List TupleElement} {v : Json} {vs : List Json}
    (he : e.rest = false) :
    Allows registry fits (e :: es) (v :: vs) ↔ fits e.type v ∧ Allows registry fits es vs := by
  constructor
  · intro h
    cases h with
    | item _ hv h => exact ⟨hv, h⟩
    | rest hrest => rw [he] at hrest; cases hrest
  · rintro ⟨hv, h⟩
    exact .item he hv h

theorem allows_cons_nil_iff {e : TupleElement} {es : List TupleElement} (he : e.rest = false) :
    Allows registry fits (e :: es) [] ↔ e.optional = true ∧ Allows registry fits es [] := by
  constructor
  · intro h
    cases h with
    | absent _ hoptional h => exact ⟨hoptional, h⟩
    | rest hrest => rw [he] at hrest; cases hrest
  · rintro ⟨hoptional, h⟩
    exact .absent he hoptional h

/-- A list is allowed if it is long enough, its first values fit the fixed elements, and the others
the rest. The induction is on the fixed elements. -/
theorem allows_append_iff (hfixed : ∀ e ∈ fixed, e.rest = false)
    (hordered : fixed.Pairwise fun e f => e.optional = true → f.optional = true)
    (hrest : ∀ e ∈ rest, e.rest = true) :
    Allows registry fits (fixed ++ rest.toList) values ↔
      fixed.countP (!·.optional) ≤ values.length ∧ (∀ p ∈ fixed.zip values, fits p.1.type p.2) ∧
        AllowsTail registry fits rest (values.drop fixed.length) := by
  induction fixed generalizing values with
  | nil => simp [allows_tail_iff hrest]
  | cons e es ih =>
    obtain ⟨he, hes⟩ := List.forall_mem_cons.mp hfixed
    obtain ⟨hlater, hpairs⟩ := List.pairwise_cons.mp hordered
    have htail : ∀ values, Allows registry fits (es ++ rest.toList) values ↔ _ := fun _ =>
      ih hes hpairs
    cases values with
    | nil =>
      rw [List.cons_append, allows_cons_nil_iff he, htail]
      cases hoptional : e.optional <;> simp [hoptional]
    | cons v vs =>
      have hcount : (e :: es).countP (!·.optional) ≤ (v :: vs).length ↔
          es.countP (!·.optional) ≤ vs.length := by
        cases hoptional : e.optional with
        | false => simp [hoptional]
        | true =>
          have hnone : es.countP (!·.optional) = 0 :=
            List.countP_eq_zero.mpr fun f hf => by simp [hlater f hf hoptional]
          simp [hoptional, hnone]
      rw [List.cons_append, allows_cons_iff he, htail, hcount]
      simp [and_left_comm, and_assoc]

end Shape

/-! ### The schema of a tuple -/

/-- The schema of a tuple, given those of its fixed elements and of the items of its rest. -/
def tupleSchema (needed : Nat) (fixed : List Schema) (item : Option Schema) : Schema :=
  { Schema.ofType "array" with
    minItems := some needed
    items := item
    maxItems := if item.isSome then none else some fixed.length
    prefixItems := if fixed.isEmpty then none else some fixed }

section Assembly

variable {elements fixed : List TupleElement} {rest : Option TupleElement} {ss : List Schema}
  {item : Option Schema}

theorem tupleOf_append (hfixed : ∀ e ∈ fixed, e.rest = false) (hrest : ∀ e ∈ rest, e.rest = true)
    (hss : ss.length = fixed.length) (hitem : item.isSome = rest.isSome) :
    tupleOf (fixed ++ rest.toList) (ss ++ item.toList) =
      tupleSchema (fixed.takeWhile (!·.optional)).length ss item := by
  have hfirst : List.zipWith (fun e s => (e.rest, s)) fixed ss = ss.map (Prod.mk false) := by
    induction fixed generalizing ss with
    | nil => rw [List.length_eq_zero_iff.mp hss]; rfl
    | cons e es ih =>
      obtain ⟨s, ss, rfl⟩ := List.exists_cons_of_length_eq_add_one hss
      obtain ⟨he, hes⟩ := List.forall_mem_cons.mp hfixed
      rw [List.zipWith_cons_cons, ih hes (Nat.succ.inj hss), he, List.map_cons]
  have hsecond : List.zipWith (fun e s => (e.rest, s)) rest.toList item.toList =
      item.toList.map (Prod.mk true) := by
    cases rest with
    | none => rw [Option.isSome_eq_false_iff.mp hitem |> Option.isNone_iff_eq_none.mp]; rfl
    | some e =>
      obtain ⟨s, rfl⟩ := Option.isSome_iff_exists.mp hitem
      simp [hrest e rfl]
  have hneeded : (fixed ++ rest.toList).filter (!·.rest) = fixed := by
    rw [List.filter_append, List.filter_eq_self.mpr fun e he => by simp [hfixed e he],
      List.filter_eq_nil_iff.mpr fun e he => by simp [hrest e (Option.mem_toList.mp he)],
      List.append_nil]
  rw [tupleOf, List.zipWith_append hss.symm, hfirst, hsecond, hneeded]
  cases item <;> simp [tupleSchema, List.filter_map, Function.comp_def]

theorem prefixItems_tupleSchema (needed : Nat) (ss : List Schema) (item : Option Schema) :
    (tupleSchema needed ss item).prefixItems.getD [] = ss := by
  cases ss <;> rfl

/-- What the schema of a tuple says of the values behind the fixed elements. -/
def AcceptsTail (valid : Schema → Json → Prop) : Option Schema → List Json → Prop
  | none, vs => vs = []
  | some u, vs => ∀ v ∈ vs, valid u v

theorem acceptsList_tupleSchema_iff {valid : Schema → Json → Prop} {needed : Nat}
    {values : List Json} :
    AcceptsList valid (tupleSchema needed ss item) values ↔
      needed ≤ values.length ∧ (∀ p ∈ ss.zip values, valid p.1 p.2) ∧
        AcceptsTail valid item (values.drop ss.length) := by
  have hleading := prefixItems_tupleSchema needed ss item
  constructor
  · intro h
    have hfixed := h.prefixItems
    have hitems := h.items
    rw [hleading] at hfixed hitems
    refine ⟨h.minItems needed rfl, hfixed, ?_⟩
    cases item with
    | none => exact List.drop_eq_nil_of_le (h.maxItems _ rfl)
    | some u => exact hitems u rfl
  · rintro ⟨hneeded, hfixed, htail⟩
    refine ⟨fun n hn => Option.some.inj hn ▸ hneeded, fun n hn => ?_, ?_, fun u hu => ?_⟩
    · cases item with
      | none => exact Option.some.inj hn ▸ List.drop_eq_nil_iff.mp htail
      | some u => cases hn
    · rwa [hleading]
    · rw [hleading]
      obtain rfl : item = some u := hu
      exact htail

end Assembly

section Meaning

variable {registry : Registry} {fits : SourceType → Json → Prop} {valid : Schema → Json → Prop}
  {values : List Json}

/-- The values that are valid for a schema are those that fit a type. -/
def Speaks (valid : Schema → Json → Prop) (fits : SourceType → Json → Prop) (type : SourceType)
    (s : Schema) : Prop :=
  ∀ v, valid s v ↔ fits type v

theorem forall_zip_iff {fixed : List TupleElement} {ss : List Schema}
    (h : List.Forall₂ (Speaks valid fits) (fixed.map (·.type)) ss) (values : List Json) :
    (∀ p ∈ ss.zip values, valid p.1 p.2) ↔ ∀ p ∈ fixed.zip values, fits p.1.type p.2 := by
  induction fixed generalizing ss values with
  | nil =>
    cases h
    simp
  | cons e es ih =>
    cases h with
    | cons hs hss =>
      cases values with
      | nil => simp
      | cons v vs => simpa [hs v] using fun _ => ih hss vs

/-- A rest that is a list type itself is a list type of one item only. -/
theorem listOf_array_iff {type item other : SourceType} (h : type.form = .array item) :
    ListOf registry type other ↔ other = item := by
  constructor
  · rintro ⟨names, o, hleads, ho⟩
    cases hleads with
    | here _ =>
      rw [h] at ho
      exact (Form.array.inj ho).symm
    | ref hform _ _ => rw [h] at hform; cases hform
  · rintro rfl
    exact ⟨[], type, .here (by simp [h]), h⟩

end Meaning

/-! ### Conversion -/

/-- The fixed elements of a tuple are converted first, one after the other. -/
def convertFixed (registry : Registry) (elements : List TupleElement) (t : SchemaTable) :
    List Schema × SchemaTable :=
  convertAll registry ((elements.filter (!·.rest)).map (·.type)) t

/-- The items of the rest are converted behind the fixed elements. -/
def convertRest (registry : Registry) (elements : List TupleElement) (t : SchemaTable) :
    Option Schema :=
  (elements.find? (·.rest)).map fun e =>
    (convert registry (TupleElement.itemType e) (convertFixed registry elements t).2).1

/-- The schema of a tuple with its converted elements. -/
def convertTuple (registry : Registry) (elements : List TupleElement) (t : SchemaTable) : Schema :=
  tupleSchema (elements.countP fun e => !e.optional && !e.rest) (convertFixed registry elements t).1
    (convertRest registry elements t)

/-- What the schema of a tuple says. -/
structure TupleConversion (registry : Registry) (elements : List TupleElement) (t : SchemaTable)
    (s : Schema) : Prop where
  /-- It has no other keywords. -/
  keywords : s = { Schema.ofType "array" with
    minItems := s.minItems, maxItems := s.maxItems, prefixItems := s.prefixItems, items := s.items }
  minItems : s.minItems = some (elements.countP fun e => !e.optional && !e.rest)
  prefixItems : s.prefixItems.getD [] = (convertFixed registry elements t).1 ∧
    s.prefixItems ≠ some []
  closed : (∀ e ∈ elements, e.rest = false) → s.maxItems = some elements.length ∧ s.items = none
  /-- The items are those of the rest. -/
  continued : ∀ e ∈ elements, e.rest = true → s.maxItems = none ∧ s.items =
    some (convert registry (TupleElement.itemType e) (convertFixed registry elements t).2).1
  list : ∀ e ∈ elements, e.rest = true → ∀ item, e.type.form = .array item →
    s.items = some (convert registry item (convertFixed registry elements t).2).1
  /-- A reference is not opened: the items are written as what it refers to. -/
  unopened : ∀ e ∈ elements, e.rest = true → ∀ target, e.type.form = .ref target →
    registry.has target = true → s.items = some (withNull e.type.nullable
      (.reference ((convertFixed registry elements t).2.keyFor target).1))
  /-- A list is valid exactly if the tuple type allows it, unless the rest is a reference. The values
  in it are valid for the schemas of the elements exactly if they fit their types. -/
  accepts : (∀ e ∈ elements, e.rest = true → ∃ item, e.type.form = .array item) →
    ∀ valid fits, List.Forall₂ (Speaks valid fits) ((elements.filter (!·.rest)).map (·.type))
      (s.prefixItems.getD []) →
    (∀ e ∈ elements, e.rest = true → ∀ item, e.type.form = .array item → ∀ u ∈ s.items,
      Speaks valid fits item u) →
    ∀ values, AcceptsList valid s values ↔ Allows registry fits elements values

theorem length_takeWhile_eq_countP {α : Type} {p : α → Bool} {xs : List α}
    (h : xs.Pairwise fun x y => p y = true → p x = true) :
    (xs.takeWhile p).length = xs.countP p := by
  induction xs with
  | nil => rfl
  | cons x xs ih =>
    obtain ⟨hfirst, hmore⟩ := List.pairwise_cons.mp h
    cases hx : p x with
    | true => simp [hx, ih hmore]
    | false =>
      have hnone : xs.countP p = 0 := List.countP_eq_zero.mpr fun y hy hp => by
        rw [hfirst y hy hp] at hx
        cases hx
      simp [hx, hnone]

section Conversion

variable {registry : Registry} {elements : List TupleElement} {t : SchemaTable}

theorem itemType_of_fixed {e : TupleElement} (h : e.rest = false) :
    TupleElement.itemType e = e.type := by
  rw [TupleElement.itemType, h]
  rfl

theorem length_convertFixed (registry : Registry) (elements : List TupleElement) (t : SchemaTable) :
    (convertFixed registry elements t).1.length = (elements.filter (!·.rest)).length := by
  have hsites := sites_convertAll registry ((elements.filter (!·.rest)).map (·.type)) t
  exact hsites.length_eq.trans (List.length_map _)

theorem Ordered.find?_rest (h : Ordered elements) {e : TupleElement} (he : e ∈ elements)
    (hrest : e.rest = true) : elements.find? (·.rest) = some e := by
  induction elements with
  | nil => cases he
  | cons f es ih =>
    obtain ⟨hfirst, hmore⟩ := List.pairwise_cons.mp h
    rcases List.mem_cons.mp he with rfl | he
    · exact List.find?_cons_of_pos hrest
    · rw [List.find?_cons_of_neg (by simp [(hfirst e he).1]), ih hmore he]

theorem convertRest_of_closed (h : ∀ e ∈ elements, e.rest = false) :
    convertRest registry elements t = none := by
  rw [convertRest, List.find?_eq_none.mpr fun e he => by simp [h e he], Option.map_none]

theorem convertRest_of_rest (h : Ordered elements) {e : TupleElement} (he : e ∈ elements)
    (hrest : e.rest = true) : convertRest registry elements t =
      some (convert registry (TupleElement.itemType e) (convertFixed registry elements t).2).1 := by
  rw [convertRest, h.find?_rest he hrest, Option.map_some]

theorem tupleOf_convertAll (registry : Registry) (h : Ordered elements) (t : SchemaTable) :
    tupleOf elements (convertAll registry (elements.map TupleElement.itemType) t).1 =
      convertTuple registry elements t := by
  have hneeded := length_takeWhile_eq_countP (p := fun e : TupleElement => !e.optional)
    (h.pairwise_optional.imp fun {e f} himp hf => by
      cases he : e.optional with
      | false => rfl
      | true => rw [himp he] at hf; cases hf)
  rw [List.countP_filter] at hneeded
  have htypes : elements.map TupleElement.itemType = (elements.filter (!·.rest)).map (·.type) ++
      ((elements.find? (·.rest)).map TupleElement.itemType).toList := by
    conv_lhs => rw [h.split]
    rw [List.map_append, List.map_congr_left fun e he => itemType_of_fixed (fixed_of_filter e he)]
    cases elements.find? (·.rest) <;> rfl
  have hschemas : (convertAll registry (elements.map TupleElement.itemType) t).1 =
      (convertFixed registry elements t).1 ++ (convertRest registry elements t).toList := by
    rw [htypes, convertAll_append, convertFixed, convertRest, convertFixed]
    cases elements.find? (·.rest) <;> rfl
  have hitem : (convertRest registry elements t).isSome = (elements.find? (·.rest)).isSome :=
    Option.isSome_map
  have happend := tupleOf_append fixed_of_filter rest_of_find?
    (length_convertFixed registry elements t) hitem
  rw [← h.split, hneeded] at happend
  rw [hschemas]
  exact happend

/-- A list is valid exactly if it is allowed, if the rest is a list type itself. -/
theorem acceptsList_iff_allows {fits : SourceType → Json → Prop} {valid : Schema → Json → Prop}
    {values : List Json} (h : Ordered elements)
    (hlist : ∀ e ∈ elements, e.rest = true → ∃ item, e.type.form = .array item)
    (hfixed : List.Forall₂ (Speaks valid fits) ((elements.filter (!·.rest)).map (·.type))
      (convertFixed registry elements t).1)
    (hrest : ∀ e ∈ elements, e.rest = true → ∀ item, e.type.form = .array item →
      ∀ u ∈ convertRest registry elements t, Speaks valid fits item u) :
    AcceptsList valid (convertTuple registry elements t) values ↔
      Allows registry fits elements values := by
  have htail : ∀ vs, AcceptsTail valid (convertRest registry elements t) vs ↔
      AllowsTail registry fits (elements.find? (·.rest)) vs := by
    intro vs
    cases hfind : elements.find? (·.rest) with
    | none =>
      rw [convertRest, hfind]
      exact Iff.rfl
    | some e =>
      have he := List.mem_of_find?_eq_some hfind
      have herest : e.rest = true := rest_of_find? e hfind
      obtain ⟨item, hform⟩ := hlist e he herest
      have hitem : convertRest registry elements t = some _ := convertRest_of_rest h he herest
      have hspeaks := hrest e he herest item hform _ hitem
      rw [hitem]
      constructor
      · exact fun hvalid => ⟨item, (listOf_array_iff hform).mpr rfl, fun v hv =>
          (hspeaks v).mp (hvalid v hv)⟩
      · rintro ⟨other, hother, hfits⟩
        obtain rfl := (listOf_array_iff hform).mp hother
        exact fun v hv => (hspeaks v).mpr (hfits v hv)
  have hallows : Allows registry fits
      (elements.filter (!·.rest) ++ (elements.find? (·.rest)).toList) values ↔ _ :=
    allows_append_iff fixed_of_filter h.pairwise_optional rest_of_find?
  rw [← h.split, List.countP_filter] at hallows
  rw [convertTuple, acceptsList_tupleSchema_iff, hallows, forall_zip_iff hfixed, htail,
    length_convertFixed registry elements t]

theorem tupleConversion_of_ordered (registry : Registry) (h : Ordered elements) (t : SchemaTable) :
    TupleConversion registry elements t (convertTuple registry elements t) where
  keywords := rfl
  minItems := rfl
  prefixItems := by
    refine ⟨prefixItems_tupleSchema _ _ _, ?_⟩
    cases hss : (convertFixed registry elements t).1 <;> simp [convertTuple, tupleSchema, hss]
  closed hclosed := by
    have hall : elements.filter (!·.rest) = elements :=
      List.filter_eq_self.mpr fun e he => by simp [hclosed e he]
    rw [convertTuple, convertRest_of_closed hclosed]
    refine ⟨?_, rfl⟩
    rw [tupleSchema, length_convertFixed, hall]
    rfl
  continued e he hrest := by
    rw [convertTuple, convertRest_of_rest h he hrest]
    exact ⟨rfl, rfl⟩
  list e he hrest item hform := by
    rw [convertTuple, convertRest_of_rest h he hrest, TupleElement.itemType, hrest, hform]
    rfl
  unopened e he hrest target hform hhas := by
    have hitem : TupleElement.itemType e = e.type := by
      rw [TupleElement.itemType, hrest, hform]
      rfl
    have hsite := site_convert registry e.type (convertFixed registry elements t).2
    have hschema := (hsite.schema_eq (referredName?_ref hform)).1
    rw [dangles_ref hform, hhas, Bool.or_true] at hschema
    rw [convertTuple, convertRest_of_rest h he hrest, hitem, hschema]
    rfl
  accepts hlist valid fits hfixed hrest values := by
    rw [convertTuple, prefixItems_tupleSchema] at hfixed
    exact acceptsList_iff_allows h hlist hfixed hrest

/-- What rules change about the lists that a schema accepts: only the numbers. -/
structure Bounded (rules : Option Constraints) (s u : Schema) : Prop where
  items : u.items = s.items
  prefixItems : u.prefixItems = s.prefixItems
  minItems : u.minItems = (rules.bind (·.minItems) <|> s.minItems)
  maxItems : u.maxItems = (rules.bind (·.maxItems) <|> s.maxItems)

theorem bounded_finish (type : SourceType) (s : Schema) :
    Bounded type.constraints s (finish type s) := by
  unfold finish
  cases type.constraints with
  | none => exact ⟨rfl, rfl, (Option.none_or).symm, (Option.none_or).symm⟩
  | some c =>
    have hnumeric : ∀ (s : Schema) n, (applyNumericType s n).items = s.items ∧
        (applyNumericType s n).prefixItems = s.prefixItems ∧
        (applyNumericType s n).minItems = s.minItems ∧
        (applyNumericType s n).maxItems = s.maxItems := by
      intro s n
      unfold applyNumericType
      split <;> exact ⟨rfl, rfl, rfl, rfl⟩
    dsimp only
    unfold applyRules
    cases c.numericType with
    | none => exact ⟨rfl, rfl, rfl, rfl⟩
    | some n =>
      obtain ⟨hitems, hleading, hmin, hmax⟩ :=
        hnumeric { s with description := type.description <|> s.description } n
      exact ⟨hitems, hleading, congrArg (c.minItems <|> ·) hmin, congrArg (c.maxItems <|> ·) hmax⟩

/-- The schema of a tuple, at its site or in the entry that the site of a reference to it leads to,
is that of the lists with its elements, with the description and the rules of the tuple. -/
theorem tuple_convert (registry : Registry) {type : SourceType} {elements : List TupleElement}
    (hform : type.form = .tuple elements) (h : Ordered elements) (t : SchemaTable) :
    ∃ s, TupleConversion registry elements t s ∧ Bounded type.constraints s (finish type s) ∧
      (convert registry type t).1 = withNull type.nullable (finish type s) ∧
      ∀ u t', Body registry type t u t' → u = finish type s := by
  have hnone : ∀ target, type.form ≠ .ref target := by simp [hform]
  have hbody := body_of_parts registry hnone t
  have htuple := tupleOf_convertAll registry h t
  rw [hform, parts, assemble, htuple] at hbody
  have hinline : isRegistrable type.form = true → type.name = none := by simp [hform, isRegistrable]
  exact ⟨_, tupleConversion_of_ordered registry h t, bounded_finish type _,
    congrArg Prod.fst (convert_eq (.inline hnone hinline hbody)), fun _ _ hother =>
    (hother.unique hbody).1⟩

end Conversion

/-! ### Rows -/

def text : SourceType := .ofForm (.atomic .string)

def number : SourceType := .ofForm (.atomic .number)

/-- A label, perhaps a count, and any number of further counts. -/
def row : List TupleElement :=
  [{ type := text }, { type := number, optional := true },
    { type := .ofForm (.array number), rest := true }]

def rows : SourceType := .ofForm (.tuple row)

theorem tuple_convert_rows :
    rows.form = .tuple row ∧ Ordered row ∧
      (convert ⟨[]⟩ rows {}).1 = { Schema.ofType "array" with
        minItems := some 1
        items := some (.ofType "number")
        prefixItems := some [.ofType "string", .ofType "number"] } ∧
      ∃ s, TupleConversion ⟨[]⟩ row {} s ∧ Bounded none s (finish rows s) ∧
        (convert ⟨[]⟩ rows {}).1 = withNull false (finish rows s) ∧
        ∀ u t', Body ⟨[]⟩ rows {} u t' → u = finish rows s := by
  have hform : rows.form = .tuple row := rfl
  have hordered : Ordered row := by decide
  exact ⟨hform, hordered, by rfl, tuple_convert ⟨[]⟩ hform hordered {}⟩

/-! ### A rest that is a reference -/

def counts : Registry := ⟨[("Counts", .ofForm (.array number))]⟩

/-- A label and any number of counts. -/
def labelled : List TupleElement :=
  [{ type := text }, { type := .ofForm (.ref "Counts"), rest := true }]

/-- The rest is a list of numbers, but its items are written as lists of numbers. So a label with a
number is allowed and not valid. -/
theorem unopened_rest :
    Ordered labelled ∧ ListOf counts (.ofForm (.ref "Counts")) number ∧
      (convert counts number {}).1 = .ofType "number" ∧
      ∃ s, (convert counts (.ofForm (.tuple labelled)) {}).1 = s ∧
        s.items = some (.reference "Counts") ∧
        (∀ fits, fits text (.str "a") → fits number (.num (.int 1)) →
          Allows counts fits labelled [.str "a", .num (.int 1)]) ∧
        ∀ valid, ¬ valid (.reference "Counts") (.num (.int 1)) →
          ¬ AcceptsList valid s [.str "a", .num (.int 1)] := by
  have hlist : ListOf counts (.ofForm (.ref "Counts")) number :=
    ⟨["Counts"], .ofForm (.array number), .ref rfl rfl (.here (by simp [SourceType.ofForm])), rfl⟩
  refine ⟨by decide, hlist, by rfl, { Schema.ofType "array" with
    minItems := some 1, items := some (.reference "Counts")
    prefixItems := some [.ofType "string"] }, by rfl, rfl, fun fits htext hnumber => ?_, ?_⟩
  · exact .item rfl htext (.rest rfl hlist (List.forall_mem_singleton.mpr hnumber))
  · intro valid hvalid h
    exact hvalid (h.items _ rfl _ (List.mem_singleton_self _))

end TypedApi.SchemaTable
