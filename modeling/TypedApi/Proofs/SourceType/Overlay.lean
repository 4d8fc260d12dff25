import Mathlib.Data.List.Nodup
import TypedApi.Proofs.SourceType.Encoding

/-! Layers of rules.

`overlay` lays one set of rules over another. What the upper one says wins (`RightBiased`).
Transforms that are there already are passed over, so adding them in groups adds the same ones in the
same order, and messages are tables, which may be assigned in groups as well. So it does not matter how
layers are grouped (`Layers.rules_eq`), and the empty set is a layer that changes nothing, below the
others as long as they repeat no transform (`layered_overlay`). -/
namespace TypedApi.Constraints

/-! ### Transforms -/

section Transforms

variable {t : StringTransform} {ts us vs : List StringTransform}

theorem mem_addTransform {u : StringTransform} : t ∈ addTransform ts u ↔ t ∈ ts ∨ t = u := by
  rw [addTransform]
  split
  · next hu =>
    refine ⟨.inl, fun h => h.elim id ?_⟩
    rintro rfl
    exact List.contains_iff_mem.mp hu
  · rw [List.mem_append, List.mem_singleton]

theorem mem_foldl_addTransform : t ∈ us.foldl addTransform ts ↔ t ∈ ts ∨ t ∈ us := by
  induction us generalizing ts with
  | nil => simp
  | cons u us ih => rw [List.foldl_cons, ih, mem_addTransform, List.mem_cons, or_assoc]

theorem addTransform_of_mem (h : t ∈ ts) : addTransform ts t = ts :=
  if_pos (List.contains_iff_mem.mpr h)

theorem addTransform_of_notMem (h : t ∉ ts) : addTransform ts t = ts ++ [t] :=
  if_neg (mt List.contains_iff_mem.mp h)

/-- To add transforms to which one was added is to add them, and then the one. -/
theorem foldl_addTransform_addTransform (ts us : List StringTransform) (t : StringTransform) :
    (addTransform us t).foldl addTransform ts = addTransform (us.foldl addTransform ts) t := by
  by_cases h : t ∈ us
  · rw [addTransform_of_mem h, addTransform_of_mem (mem_foldl_addTransform.mpr (.inr h))]
  · rw [addTransform_of_notMem h, List.foldl_append]
    rfl

theorem foldl_addTransform_assoc (ts us vs : List StringTransform) :
    (vs.foldl addTransform us).foldl addTransform ts =
      vs.foldl addTransform (us.foldl addTransform ts) := by
  induction vs generalizing us with
  | nil => rfl
  | cons v vs ih => rw [List.foldl_cons, ih, foldl_addTransform_addTransform, List.foldl_cons]

theorem foldl_addTransform_of_subset (h : us ⊆ ts) : us.foldl addTransform ts = ts := by
  induction us with
  | nil => rfl
  | cons u us ih =>
    obtain ⟨hu, hus⟩ := List.cons_subset.mp h
    rw [List.foldl_cons, addTransform_of_mem hu, ih hus]

theorem nodup_addTransform (h : ts.Nodup) (t : StringTransform) : (addTransform ts t).Nodup := by
  by_cases ht : t ∈ ts
  · rwa [addTransform_of_mem ht]
  · rw [addTransform_of_notMem ht, List.nodup_append]
    refine ⟨h, List.nodup_singleton t, fun u hu v hv heq => ht ?_⟩
    rwa [← List.mem_singleton.mp hv, ← heq]

theorem nodup_foldl_addTransform (h : ts.Nodup) (us : List StringTransform) :
    (us.foldl addTransform ts).Nodup := by
  induction us generalizing ts with
  | nil => exact h
  | cons u us ih => exact ih (nodup_addTransform h u)

theorem foldl_addTransform_of_nodup (h : (ts ++ us).Nodup) :
    us.foldl addTransform ts = ts ++ us := by
  induction us generalizing ts with
  | nil => exact (List.append_nil ts).symm
  | cons u us ih =>
    have hu : u ∉ ts := fun hmem => (List.nodup_append.mp h).2.2 u hmem u List.mem_cons_self rfl
    rw [List.foldl_cons, addTransform_of_notMem hu, ih (by rwa [List.append_assoc]), List.append_assoc]
    rfl

/-- Of the transforms that are not there yet, each is added once, in order. -/
theorem foldl_addTransform_eq (ts us : List StringTransform) :
    us.foldl addTransform ts = ts ++ (us.filter (· ∉ ts)).eraseDups := by
  induction us generalizing ts with
  | nil => exact (List.append_nil ts).symm
  | cons u us ih =>
    rw [List.foldl_cons, ih]
    by_cases h : u ∈ ts
    · rw [addTransform_of_mem h, List.filter_cons_of_neg (by simpa using h)]
    · have hsame : us.filter (· ∉ ts ++ [u]) = (us.filter (· ∉ ts)).filter (!· == u) := by
        rw [List.filter_filter]
        refine List.filter_congr fun t _ => ?_
        rw [Bool.eq_iff_iff]
        simp [and_comm]
      rw [addTransform_of_notMem h, List.filter_cons_of_pos (by simpa using h), List.eraseDups_cons,
        hsame, List.append_assoc, List.singleton_append]

/-- Transforms that are added to none stay as they are if none is repeated. -/
theorem foldl_addTransform_nil : us.foldl addTransform [] = us ↔ us.Nodup := by
  constructor
  · intro h
    exact h ▸ nodup_foldl_addTransform List.nodup_nil us
  · intro h
    rw [← List.nil_append us] at h
    exact foldl_addTransform_of_nodup h

end Transforms

/-! ### Two and three layers -/

/-- No rule has two messages, as in the tables that messages are read into. -/
def Keyed (c : Constraints) : Prop := (c.errorMessages.map (·.1)).Nodup

instance (c : Constraints) : Decidable c.Keyed := inferInstanceAs (Decidable (List.Nodup _))

variable {a b c : Constraints}

theorem Keyed.overlay (h : a.Keyed) (b : Constraints) : (a.overlay b).Keyed :=
  Json.nodup_keys_assignAll h b.errorMessages

theorem overlay_assoc (h : b.Keyed) (a c : Constraints) :
    a.overlay (b.overlay c) = (a.overlay b).overlay c := by
  have hmessages := Json.assignAll_assignAll h a.errorMessages c.errorMessages
  simp only [Json.assignAll] at hmessages
  simp only [Constraints.overlay, foldl_addTransform_assoc, hmessages, Option.orElse_eq_orElse,
    Option.orElse_eq_or, Option.or_assoc, Bool.or_assoc]

theorem overlay_empty (a : Constraints) : a.overlay {} = a := by
  cases a
  simp [Constraints.overlay]

theorem overlay_self (h : a.Keyed) : a.overlay a = a := by
  have htransforms := foldl_addTransform_of_subset (List.Subset.refl a.transforms)
  have hmessages := Json.assignAll_of_lookup fun e he => Json.lookup_of_mem h he
  simp only [Json.assignAll] at hmessages
  simp only [Constraints.overlay, htransforms, hmessages, Option.orElse_eq_orElse,
    Option.orElse_eq_or, Option.or_self, Bool.or_self]

theorem empty_overlay (h : a.Keyed) : overlay {} a = a ↔ a.transforms.Nodup := by
  have hmessages := Json.table_of_nodup h
  rw [← foldl_addTransform_nil]
  simp only [Json.table] at hmessages
  constructor
  · intro heq
    exact congrArg transforms heq
  · intro htransforms
    cases a
    simp_all [Constraints.overlay]

/-! ### What the upper layer says -/

/-- In each slot the value of one record, or else that of another. -/
inductive Slotwise (key : String) :
    List (String × Option Json) → List (String × Option Json) → List (String × Option Json) → Prop where
  | nil : Slotwise key [] [] []
  | cons {k : String} {v top base : Option Json} {vs tops bases : List (String × Option Json)} :
      (key = k → v = top.or base) → Slotwise key vs tops bases →
      Slotwise key ((k, v) :: vs) ((k, top) :: tops) ((k, base) :: bases)

theorem Slotwise.lookup {key : String} {vs tops bases : List (String × Option Json)}
    (h : Slotwise key vs tops bases) :
    (vs.lookup key).join = (tops.lookup key).join.or (bases.lookup key).join := by
  induction h with
  | nil => rfl
  | @cons k v top base vs tops bases hv _ ih =>
    by_cases hk : key = k
    · subst hk
      simpa [List.lookup_cons] using hv rfl
    · have hb : (key == k) = false := by simpa using hk
      simpa [List.lookup_cons, hb] using ih

/-- The rules of which both layers may count. -/
def sharedKeys : List String := ["transforms", "coerce", "errorMessages"]

/-- What `result` says, `top` says, or else `base`. Coercion is asked for by either. The transforms of
`base` come first, and so do its messages: `top` changes them in place. -/
structure RightBiased (base top result : Constraints) : Prop where
  rules : ∀ key ∉ sharedKeys,
    result.encode.get? key = (top.encode.get? key).or (base.encode.get? key)
  coerce : result.coerce = (base.coerce || top.coerce)
  transforms : result.transforms =
    base.transforms ++ (top.transforms.filter (· ∉ base.transforms)).eraseDups
  messages : ∀ key, result.errorMessages.lookup key =
    (top.errorMessages.lookup key).or (base.errorMessages.lookup key)
  places : result.errorMessages.map (·.1) = base.errorMessages.map (·.1) ++
    (top.errorMessages.map (·.1)).filter (· ∉ base.errorMessages.map (·.1))

theorem get?_encode (c : Constraints) (key : String) :
    c.encode.get? key = (((shape.slots c).map Json.Slot.entry).lookup key).join := by
  have hkeys : (((shape.slots c).map Json.Slot.entry).map (·.1)).Nodup :=
    (by decide : (((shape.slots {}).map Json.Slot.entry).map (·.1)).Nodup)
  rw [encode_eq_shape, Json.Shape.encode_closed rfl]
  exact Json.Fields.lookup_ofSlots_eq hkeys key

theorem slotwise_overlay (base top : Constraints) {key : String} (hkey : key ∉ sharedKeys) :
    Slotwise key ((shape.slots (base.overlay top)).map Json.Slot.entry)
      ((shape.slots top).map Json.Slot.entry) ((shape.slots base).map Json.Slot.entry) := by
  have hor : ∀ {α : Type} (t b : Option α) (encode : α → Json),
      (t <|> b).map encode = (t.map encode).or (b.map encode) := by
    intro α t b encode
    cases t <;> rfl
  have hshared : ∀ {k : String} {p : Prop}, k ∈ sharedKeys → key = k → p :=
    fun hk heq => absurd (heq ▸ hk) hkey
  repeat' first
    | exact .nil
    | refine .cons (fun _ => hor _ _ _) ?_
    | refine .cons (hshared (of_decide_eq_true rfl)) ?_

theorem rightBiased_overlay (base : Constraints) {top : Constraints} (h : top.Keyed) :
    RightBiased base top (base.overlay top) where
  rules key hkey := by
    rw [get?_encode, get?_encode, get?_encode]
    exact (slotwise_overlay base top hkey).lookup
  coerce := rfl
  transforms := foldl_addTransform_eq _ _
  messages := Json.lookup_assignAll h _
  places := Json.keys_assignAll h _

/-! ### Any number of layers -/

/-- Sets of rules, laid over each other in groups. -/
inductive Layers where
  | one (rules : Constraints)
  | stack (base top : Layers)

namespace Layers

/-- The layers from the lowest to the topmost. -/
def list : Layers → List Constraints
  | .one c => [c]
  | .stack base top => base.list ++ top.list

/-- The rules that come out if each group is laid over before it is laid over another. -/
def rules : Layers → Constraints
  | .one c => c
  | .stack base top => base.rules.overlay top.rules

end Layers

/-- Layers that are laid over rules one by one may be laid over each other before. -/
theorem foldl_overlay (a : Constraints) {b : Constraints} {cs : List Constraints}
    (hb : b.Keyed) : cs.foldl overlay (a.overlay b) = a.overlay (cs.foldl overlay b) := by
  induction cs generalizing b with
  | nil => rfl
  | cons c cs ih => rw [List.foldl_cons, List.foldl_cons, ← overlay_assoc hb, ih (hb.overlay c)]

/-- Groups come to the same as laying the layers over each other one by one. -/
theorem Layers.rules_eq (l : Layers) (h : ∀ c ∈ l.list, c.Keyed) :
    ∃ c cs, l.list = c :: cs ∧ l.rules = cs.foldl Constraints.overlay c := by
  induction l with
  | one c => exact ⟨c, [], rfl, rfl⟩
  | stack base top ihbase ihtop =>
    obtain ⟨hbase, htop⟩ := List.forall_mem_append.mp h
    obtain ⟨b, bs, hbs, hb⟩ := ihbase hbase
    obtain ⟨c, cs, hcs, hc⟩ := ihtop htop
    have hkeyed : c.Keyed := htop c (hcs ▸ List.mem_cons_self)
    refine ⟨b, bs ++ c :: cs, ?_, ?_⟩
    · rw [Layers.list, hbs, hcs, List.cons_append]
    · rw [Layers.rules, hb, hc, List.foldl_append, List.foldl_cons, foldl_overlay _ hkeyed]

/-- Rules and messages of the upper layer win, transforms are added to those of the lower, and layers
may be laid over each other in groups of any shape. An empty layer changes nothing above other rules,
and nothing below those that repeat no transform. -/
theorem layered_overlay :
    (∀ a b : Constraints, b.Keyed → RightBiased a b (a.overlay b)) ∧
    (∀ a b c : Constraints, b.Keyed → a.overlay (b.overlay c) = (a.overlay b).overlay c) ∧
    (∀ a : Constraints, a.overlay {} = a) ∧
    (∀ a : Constraints, a.Keyed → a.overlay a = a) ∧
    (∀ a : Constraints, a.Keyed → (overlay {} a = a ↔ a.transforms.Nodup)) ∧
    (∀ l l' : Layers, (∀ c ∈ l.list, c.Keyed) → l.list = l'.list → l.rules = l'.rules) := by
  refine ⟨fun a b => rightBiased_overlay a, fun a b c hb => overlay_assoc hb a c, overlay_empty,
    fun a => overlay_self, fun a => empty_overlay, fun l l' hl heq => ?_⟩
  obtain ⟨c, cs, hcs, hc⟩ := l.rules_eq hl
  obtain ⟨c', cs', hcs', hc'⟩ := l'.rules_eq (heq ▸ hl)
  obtain ⟨rfl, rfl⟩ := List.cons.inj (hcs.symm.trans (heq.trans hcs'))
  rw [hc, hc']

/-! ### Three layers of a code -/

def shortText : Constraints where
  maxLength := some 10
  transforms := [.trim]
  errorMessages := [("maxLength", "too long"), ("pattern", "no code")]

def lowerText : Constraints where
  maxLength := some 5
  coerce := true
  transforms := [.toLowerCase, .trim]
  errorMessages := [("endsWith", "no x"), ("maxLength", "more than five")]

def digitText : Constraints where
  pattern := some "^[0-9]+$"
  transforms := [.toUpperCase, .toLowerCase]
  errorMessages := [("pattern", "no digits"), ("endsWith", "no end")]

/-- Messages that come again take the place of the first, and transforms are added once. -/
theorem layered_overlay_code :
    let text := (shortText.overlay lowerText).overlay digitText
    (shortText.Keyed ∧ lowerText.Keyed ∧ digitText.Keyed) ∧
    RightBiased shortText lowerText (shortText.overlay lowerText) ∧
    shortText.overlay (lowerText.overlay digitText) = text ∧
    lowerText.overlay lowerText = lowerText ∧ overlay {} lowerText = lowerText ∧
    (Layers.stack (.one shortText) (.stack (.one lowerText) (.one digitText))).rules =
      (Layers.stack (.stack (.one shortText) (.one lowerText)) (.one digitText)).rules ∧
    text.transforms = [.trim, .toLowerCase, .toUpperCase] ∧
    text.errorMessages =
      [("maxLength", "more than five"), ("pattern", "no digits"), ("endsWith", "no end")] := by
  intro text
  have hshort : shortText.Keyed := by decide
  have hlower : lowerText.Keyed := by decide
  have hdigit : digitText.Keyed := by decide
  obtain ⟨hbiased, hassoc, -, hself, hempty, hlayers⟩ := layered_overlay
  refine ⟨⟨hshort, hlower, hdigit⟩, hbiased _ _ hlower, hassoc _ _ _ hlower, hself _ hlower,
    (hempty _ hlower).mpr (by decide), hlayers _ _ ?_ rfl, by decide, by decide⟩
  have hkeyed : ∀ c ∈ [shortText, lowerText, digitText], c.Keyed := by simp [hshort, hlower, hdigit]
  exact hkeyed

end TypedApi.Constraints
