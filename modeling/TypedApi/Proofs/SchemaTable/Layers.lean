import TypedApi.Proofs.Json.Fields
import TypedApi.Proofs.SchemaTable.Placement
import TypedApi.Proofs.SourceType.Overlay

/-! Rules on rules.

A property may have rules of its own over those of its type. They are written onto the schema one
after the other, the type's first. `agrees_property_iff` says when that is the same as to write the
overlay of both (`Separate`). It is not always: the second writing replaces the pattern, the
transforms and the messages as a whole, and a numeric type in it brings a format of its own
(`unlayered_rules`). -/
namespace TypedApi.SchemaTable

open OpenApi Json.Fields

/-! ### Schemas that agree -/

/-- No values, or the same ones. -/
def SameValue (v w : Option Json) : Prop := Option.Rel (fun v w => v.same w = true) v w

/-- Extensions with the same values, in any order. -/
def SameExtensions (es us : List (String × Json)) : Prop :=
  ∀ key, SameValue (es.lookup key) (us.lookup key)

/-- Equal but for the order of the extensions. -/
structure Agrees (s u : Schema) : Prop where
  keywords : { s with extensions := [] } = { u with extensions := [] }
  extensions : SameExtensions s.extensions u.extensions

/-- The keywords that a second set of rules may take a wrong value for are left out. -/
def masked (s : Schema) : Schema := { s with format := none, pattern := none, extensions := [] }

theorem agrees_iff {s u : Schema} (h : masked s = masked u) :
    Agrees s u ↔
      s.format = u.format ∧ s.pattern = u.pattern ∧ SameExtensions s.extensions u.extensions := by
  constructor
  · rintro ⟨hkeywords, hextensions⟩
    exact ⟨(congrArg Schema.format hkeywords :), (congrArg Schema.pattern hkeywords :), hextensions⟩
  · rintro ⟨hformat, hpattern, hextensions⟩
    refine ⟨?_, hextensions⟩
    have hs : { s with extensions := [] } =
        { masked s with format := s.format, pattern := s.pattern } := rfl
    have hu : { u with extensions := [] } =
        { masked u with format := u.format, pattern := u.pattern } := rfl
    rw [hs, hu, h, hformat, hpattern]

/-! ### Layers that do not get into each other's way -/

/-- A schema of numbers, which a numeric type may narrow down. -/
def IsNumeric (s : Schema) : Prop :=
  s.type = some (.single "number") ∨ s.type = some (.single "integer")

/-- Each check that `a` makes on a text is made by `b` too. -/
structure Within (a b : Constraints) : Prop where
  startsWith : a.startsWith.isSome → b.startsWith.isSome
  includes : a.includes.isSome → b.includes.isSome
  endsWith : a.endsWith.isSome → b.endsWith.isSome

/-- Where `b` writes over something that `a` has written, the overlay says no more than `b`. -/
structure Separate (s : Schema) (a b : Constraints) : Prop where
  /-- A numeric type in `b`, without a format there, has the format that `a` names. -/
  format : IsNumeric s → b.format = none → ∀ n ∈ b.numericType, ∀ f ∈ a.format, n.format = f
  /-- Checks in `b`, without a pattern there, give the pattern that `a` names, or `a` names none and
  makes no further check. -/
  pattern : b.pattern = none → ∀ p ∈ contentPattern b,
    a.pattern = some p ∨ a.pattern = none ∧ Within a b
  /-- With transforms in `b`, those of `a` add nothing. -/
  transforms : b.transforms ≠ [] → (a.overlay b).transforms = b.transforms
  /-- With messages in `b`, there is one for each rule for which `a` has one. -/
  messages : b.errorMessages ≠ [] → a.errorMessages.map (·.1) ⊆ b.errorMessages.map (·.1)

/-! ### Keywords -/

/-- The schema with the type and the format of a numeric type, if there is one. -/
def narrowed (s : Schema) (n : Option NumericType) : Schema :=
  match n with
  | some n => applyNumericType s n
  | none => s

theorem applyRules_eq (s : Schema) (c : Constraints) :
    applyRules s c = { narrowed s c.numericType with
      minimum := c.minimum <|> s.minimum
      maximum := c.maximum <|> s.maximum
      exclusiveMinimum := c.exclusiveMinimum <|> s.exclusiveMinimum
      exclusiveMaximum := c.exclusiveMaximum <|> s.exclusiveMaximum
      multipleOf := c.multipleOf <|> s.multipleOf
      minLength := c.minLength <|> s.minLength
      maxLength := c.maxLength <|> s.maxLength
      format := c.format <|> (narrowed s c.numericType).format
      minItems := c.minItems <|> s.minItems
      maxItems := c.maxItems <|> s.maxItems
      uniqueItems := c.uniqueItems <|> s.uniqueItems
      default := c.default <|> s.default
      pattern := c.pattern <|> contentPattern c <|> s.pattern
      extensions := Json.assignAll s.extensions (ruleExtensions c) } := by
  unfold applyRules narrowed
  cases c.numericType with
  | none => rfl
  | some n =>
    simp only [applyNumericType]
    split <;> rfl

section Layers

variable (s : Schema) (a b : Constraints)

/-- Keywords with a field of their own keep the value that the last layer gives. -/
theorem masked_layers :
    masked (applyRules (applyRules s a) b) = masked (applyRules s (a.overlay b)) := by
  rw [applyRules_eq, applyRules_eq, applyRules_eq]
  -- All but the type is a choice of the same values; the type is that of the last numeric type.
  by_cases h : IsNumeric s <;> unfold IsNumeric at h <;> cases ha : a.numericType <;>
    cases hb : b.numericType <;>
    simp [masked, narrowed, applyNumericType, Constraints.overlay, ha, hb, h, Option.or_assoc]

theorem format_layers :
    (applyRules (applyRules s a) b).format = (applyRules s (a.overlay b)).format ↔
      (IsNumeric s → b.format = none → ∀ n ∈ b.numericType, ∀ f ∈ a.format, n.format = f) := by
  rw [applyRules_eq, applyRules_eq, applyRules_eq]
  by_cases h : IsNumeric s <;> (have h' := h; unfold IsNumeric at h) <;>
    cases ha : a.numericType <;> cases hb : b.numericType <;> cases hf : a.format <;>
    cases hg : b.format <;>
    simp [narrowed, applyNumericType, Constraints.overlay, ha, hb, hf, hg, h, h']

end Layers

/-! ### Patterns

One check gives a pattern of its own, several are looked ahead for. So a pattern does not tell its
checks, but it grows with each of them: a check is worth the length of its look-ahead. -/

def weight (check : Option String) (around : Nat) : Nat :=
  match check with
  | some text => (escapePattern text).length + around
  | none => 0

def patternWeight (c : Constraints) : Nat :=
  weight c.startsWith 4 + weight c.includes 6 + weight c.endsWith 7

def checkCount (c : Constraints) : Nat :=
  c.startsWith.toList.length + c.includes.toList.length + c.endsWith.toList.length

theorem length_contentPattern {c : Constraints} {p : String} (h : contentPattern c = some p) :
    p.length ≤ patternWeight c + 1 ∧ (2 ≤ checkCount c → p.length = patternWeight c + 1) := by
  have hcaret : "^".length = 1 := by decide
  have hdollar : "$".length = 1 := by decide
  have hopen : "(?=".length = 3 := by decide
  have hskip : "(?=.*".length = 5 := by decide
  have hclose : ")".length = 1 := by decide
  unfold contentPattern at h
  cases hs : c.startsWith <;> cases hi : c.includes <;> cases he : c.endsWith <;>
    simp [hs, hi, he] at h <;> subst h <;>
    simp [patternWeight, checkCount, weight, hs, hi, he, String.length_append] <;> omega

theorem contentPattern_eq_none_iff {c : Constraints} :
    contentPattern c = none ↔ checkCount c = 0 := by
  unfold contentPattern
  cases hs : c.startsWith <;> cases hi : c.includes <;> cases he : c.endsWith <;>
    simp [checkCount, hs, hi, he]

theorem check_le (o p : Option String) (around : Nat) :
    o.toList.length ≤ (o <|> p).toList.length ∧ weight o around ≤ weight (o <|> p) around := by
  cases o with
  | none => exact ⟨Nat.zero_le _, Nat.zero_le _⟩
  | some _ => exact ⟨Nat.le_refl _, Nat.le_refl _⟩

theorem check_lt {o p : Option String} (h : ¬ (p.isSome → o.isSome)) {around : Nat}
    (haround : 0 < around) :
    o.toList.length < (o <|> p).toList.length ∧ weight o around < weight (o <|> p) around := by
  cases o with
  | some _ => exact absurd (fun _ => rfl) h
  | none =>
    cases p with
    | none => exact absurd id h
    | some text => exact ⟨Nat.zero_lt_one, Nat.lt_of_lt_of_le haround (Nat.le_add_left ..)⟩

theorem orElse_of_isSome {α : Type} {o p : Option α} (h : p.isSome → o.isSome) : (o <|> p) = o := by
  cases o with
  | some _ => rfl
  | none =>
    cases p with
    | none => rfl
    | some _ => cases h rfl

section Patterns

variable {a b : Constraints}

theorem contentPattern_overlay (h : Within a b) :
    contentPattern (a.overlay b) = contentPattern b := by
  unfold contentPattern
  simp only [Constraints.overlay, orElse_of_isSome h.startsWith, orElse_of_isSome h.includes,
    orElse_of_isSome h.endsWith]

theorem contentPattern_overlay_of_none (h : contentPattern b = none) :
    contentPattern (a.overlay b) = contentPattern a := by
  have hcount := contentPattern_eq_none_iff.mp h
  have hnone : b.startsWith = none ∧ b.includes = none ∧ b.endsWith = none := by
    unfold checkCount at hcount
    cases hs : b.startsWith <;> cases hi : b.includes <;> cases he : b.endsWith <;>
      simp [hs, hi, he] at hcount ⊢
  obtain ⟨hs, hi, he⟩ := hnone
  unfold contentPattern Constraints.overlay
  rw [hs, hi, he]
  rfl

/-- A check that is in `a` only makes the pattern of the overlay longer. -/
theorem more_of_not_within (h : ¬ Within a b) :
    checkCount b < checkCount (a.overlay b) ∧ patternWeight b < patternWeight (a.overlay b) := by
  have hs := check_le b.startsWith a.startsWith 4
  have hi := check_le b.includes a.includes 6
  have he := check_le b.endsWith a.endsWith 7
  simp only [checkCount, patternWeight, Constraints.overlay]
  by_cases hstart : a.startsWith.isSome → b.startsWith.isSome
  · by_cases hinside : a.includes.isSome → b.includes.isSome
    · have hlt := check_lt (fun hend => h ⟨hstart, hinside, hend⟩) (show 0 < 7 by decide)
      omega
    · have hlt := check_lt hinside (show 0 < 6 by decide)
      omega
  · have hlt := check_lt hstart (show 0 < 4 by decide)
    omega

theorem contentPattern_overlay_iff {p : String} (h : contentPattern b = some p) :
    contentPattern (a.overlay b) = some p ↔ Within a b := by
  refine ⟨fun ho => ?_, fun hw => (contentPattern_overlay hw).trans h⟩
  by_contra hw
  obtain ⟨hcount, hweight⟩ := more_of_not_within hw
  have hsome : checkCount b ≠ 0 := fun hzero => by
    rw [contentPattern_eq_none_iff.mpr hzero] at h
    cases h
  have hshort := (length_contentPattern h).1
  have hlong := (length_contentPattern ho).2 (by omega)
  omega

theorem isSome_contentPattern_overlay (h : contentPattern b ≠ none) :
    ∃ p, contentPattern (a.overlay b) = some p := by
  refine Option.ne_none_iff_exists'.mp fun hnone => h ?_
  have hs := check_le b.startsWith a.startsWith 4
  have hi := check_le b.includes a.includes 6
  have he := check_le b.endsWith a.endsWith 7
  have hcount := contentPattern_eq_none_iff.mp hnone
  rw [contentPattern_eq_none_iff]
  simp only [checkCount, Constraints.overlay] at hcount ⊢
  omega

theorem pattern_applyRules (s : Schema) (c : Constraints) :
    (applyRules s c).pattern = (c.pattern <|> contentPattern c <|> s.pattern) := by
  rw [applyRules_eq]

theorem pattern_layers (s : Schema) (a b : Constraints) :
    (applyRules (applyRules s a) b).pattern = (applyRules s (a.overlay b)).pattern ↔
      (b.pattern = none → ∀ p ∈ contentPattern b,
        a.pattern = some p ∨ a.pattern = none ∧ Within a b) := by
  have hoverlay : (a.overlay b).pattern = (b.pattern <|> a.pattern) := rfl
  rw [pattern_applyRules, pattern_applyRules, pattern_applyRules, hoverlay]
  cases hpattern : b.pattern with
  | some p => exact iff_of_true rfl fun h => by cases h
  | none =>
    cases hb : contentPattern b with
    | none =>
      rw [contentPattern_overlay_of_none hb]
      exact iff_of_true rfl fun _ _ h => by cases h
    | some p =>
      have hiff := contentPattern_overlay_iff (a := a) hb
      cases ha : a.pattern with
      | some q => simp [eq_comm]
      | none =>
        obtain ⟨q, hq⟩ := isSome_contentPattern_overlay (a := a) (b := b) (by simp [hb])
        rw [hq, Option.some_inj] at hiff
        simp [hq, ← hiff, eq_comm]

end Patterns

/-! ### Extensions -/

def transformsSlot (c : Constraints) : Option Json :=
  if c.transforms = [] then none else some (Constraints.transformsJson c.transforms)

def coerceSlot (c : Constraints) : Option Json := if c.coerce then some (.bool true) else none

def messagesSlot (c : Constraints) : Option Json :=
  if c.errorMessages = [] then none else some (Constraints.messagesJson c.errorMessages)

/-- The extension of each rule that has no keyword. -/
def ruleSlots (c : Constraints) : List (String × Option Json) :=
  [(transformsKey, transformsSlot c), (coerceKey, coerceSlot c),
    (validatorKey, c.customValidator.map .str), (messagesKey, messagesSlot c)]

theorem ruleExtensions_eq (c : Constraints) : ruleExtensions c = ofSlots (ruleSlots c) := by
  unfold ruleExtensions ruleSlots transformsSlot coerceSlot messagesSlot
  cases c.transforms <;> cases c.coerce <;> cases c.customValidator <;>
    cases c.errorMessages <;> rfl

theorem nodup_keys_ruleSlots (c : Constraints) : ((ruleSlots c).map (·.1)).Nodup := by
  show [transformsKey, coerceKey, validatorKey, messagesKey].Nodup
  decide

/-- The extensions of a layer take the place of those with the same key. -/
theorem lookup_extensions (s : Schema) (c : Constraints) (key : String) :
    (applyRules s c).extensions.lookup key =
      ((ruleSlots c).lookup key).join.or (s.extensions.lookup key) := by
  rw [applyRules_eq, ruleExtensions_eq]
  show (Json.assignAll s.extensions (ofSlots (ruleSlots c))).lookup key = _
  rw [Json.lookup_assignAll (nodup_keys_ofSlots (nodup_keys_ruleSlots c)),
    lookup_ofSlots_eq (nodup_keys_ruleSlots c)]

/-! What `same` says of the values that rules have. -/

theorem sameValue_some {v w : Json} : SameValue (some v) (some w) ↔ v.same w = true :=
  Option.rel_some_some

theorem same_transformsJson {ts us : List StringTransform} :
    (Constraints.transformsJson ts).same (Constraints.transformsJson us) = true ↔ ts = us := by
  rw [Constraints.transformsJson, Constraints.transformsJson, Json.same]
  induction ts generalizing us with
  | nil => cases us <;> simp [Json.sameItems]
  | cons t ts ih =>
    cases us with
    | nil => simp [Json.sameItems]
    | cons u us =>
      have hname : t.name = u.name ↔ t = u := by
        refine ⟨fun h => ?_, congrArg _⟩
        exact Option.some.inj ((h ▸ t.named?_name.symm).trans u.named?_name)
      simp [Json.sameItems, Json.same, ih, hname]

theorem same_messagesJson {ms ns : List (String × String)} :
    (Constraints.messagesJson ms).same (Constraints.messagesJson ns) = true ↔
      ms.length = ns.length ∧ ∀ m ∈ ms, ns.lookup m.1 = some m.2 := by
  have hmembers : Json.sameMembers (ms.map fun m => (m.1, .str m.2))
      (ns.map fun n => (n.1, .str n.2)) = true ↔ ∀ m ∈ ms, ns.lookup m.1 = some m.2 := by
    induction ms with
    | nil => simp [Json.sameMembers]
    | cons m ms ih =>
      rw [List.map_cons, Json.sameMembers, Bool.and_eq_true, ih, List.forall_mem_cons,
        Json.lookup_map]
      refine and_congr_left' ?_
      cases ns.lookup m.1 with
      | none => simp
      | some text => simp [Json.same, eq_comm (a := m.2)]
  rw [Constraints.messagesJson, Constraints.messagesJson, Json.same, Bool.and_eq_true, hmembers]
  simp

section Extensions

variable {s : Schema} {a b : Constraints}

theorem sameValue_transforms :
    SameValue ((transformsSlot b).or (transformsSlot a)) (transformsSlot (a.overlay b)) ↔
      (b.transforms ≠ [] → (a.overlay b).transforms = b.transforms) := by
  unfold transformsSlot
  cases hb : b.transforms with
  | nil =>
    have hover : (a.overlay b).transforms = a.transforms := by simp [Constraints.overlay, hb]
    rw [hover]
    refine iff_of_true ?_ fun h => absurd rfl h
    rw [if_pos rfl, Option.none_or]
    split
    · exact .none
    · exact .some (same_transformsJson.mpr rfl)
  | cons t ts =>
    have hover : (a.overlay b).transforms ≠ [] := by
      refine List.ne_nil_of_mem (a := t) (Constraints.mem_foldl_addTransform.mpr (.inr ?_))
      rw [hb]
      exact List.mem_cons_self
    rw [if_neg hover, if_neg (List.cons_ne_nil t ts), Option.some_or, sameValue_some,
      same_transformsJson]
    simp [eq_comm]

theorem sameValue_coerce :
    SameValue ((coerceSlot b).or (coerceSlot a)) (coerceSlot (a.overlay b)) := by
  unfold coerceSlot Constraints.overlay
  cases a.coerce <;> cases b.coerce
  · exact .none
  all_goals exact .some rfl

theorem sameValue_validator :
    SameValue ((b.customValidator.map Json.str).or (a.customValidator.map .str))
      ((a.overlay b).customValidator.map .str) := by
  unfold Constraints.overlay
  cases a.customValidator <;> cases b.customValidator
  · exact .none
  all_goals exact .some (by simp [Json.same])

/-- The overlay has the messages of `b`, and of `a` those for other rules. -/
theorem lookup_errorMessages (hb : (b.errorMessages.map (·.1)).Nodup) (key : String) :
    (a.overlay b).errorMessages.lookup key =
      (b.errorMessages.lookup key).or (a.errorMessages.lookup key) :=
  Json.lookup_assignAll hb a.errorMessages key

theorem length_eq_iff_subset {α : Type} {xs ys : List α} (hx : xs.Nodup) (hy : ys.Nodup)
    (h : xs ⊆ ys) : xs.length = ys.length ↔ ys ⊆ xs := by
  constructor
  · intro hlength y hmem
    by_contra hnew
    have hmore :=
      (List.nodup_cons.mpr ⟨hnew, hx⟩).length_le_of_subset (List.cons_subset.mpr ⟨hmem, h⟩)
    exact absurd (hlength ▸ hmore) (Nat.not_succ_le_self _)
  · intro hback
    exact Nat.le_antisymm (hx.length_le_of_subset h) (hy.length_le_of_subset hback)

theorem sameValue_messages (ha : (a.errorMessages.map (·.1)).Nodup)
    (hb : (b.errorMessages.map (·.1)).Nodup) :
    SameValue ((messagesSlot b).or (messagesSlot a)) (messagesSlot (a.overlay b)) ↔
      (b.errorMessages ≠ [] → a.errorMessages.map (·.1) ⊆ b.errorMessages.map (·.1)) := by
  have hnodup : ((a.overlay b).errorMessages.map (·.1)).Nodup :=
    Json.nodup_keys_assignAll ha b.errorMessages
  have hlookup := lookup_errorMessages (a := a) hb
  have hkeys : ∀ key, key ∈ (a.overlay b).errorMessages.map (·.1) ↔
      key ∈ b.errorMessages.map (·.1) ∨ key ∈ a.errorMessages.map (·.1) := fun key => by
    simp only [← Json.lookup_isSome_iff, hlookup, Option.isSome_or, Bool.or_eq_true]
  unfold messagesSlot
  by_cases hnil : b.errorMessages = []
  · have hover : (a.overlay b).errorMessages = a.errorMessages := by
      simp [Constraints.overlay, hnil]
    rw [hover, if_pos hnil, Option.none_or]
    refine iff_of_true ?_ fun h => absurd hnil h
    split
    · exact .none
    · exact .some (same_messagesJson.mpr ⟨rfl, fun m hm => Json.lookup_of_mem ha hm⟩)
  · obtain ⟨m, hm⟩ := List.exists_mem_of_ne_nil _ hnil
    have hover : (a.overlay b).errorMessages ≠ [] := fun h => by
      have hmem := (hkeys m.1).mpr (.inl (List.mem_map_of_mem hm))
      rw [h] at hmem
      cases hmem
    have hfound : ∀ m ∈ b.errorMessages, (a.overlay b).errorMessages.lookup m.1 = some m.2 := by
      intro m hm
      rw [hlookup, Json.lookup_of_mem hb hm, Option.some_or]
    rw [if_neg hover, if_neg hnil, Option.some_or, sameValue_some, same_messagesJson]
    -- The overlay has the keys of `b`, so it has no more messages exactly if it has no more keys.
    have hinto : b.errorMessages.map (·.1) ⊆ (a.overlay b).errorMessages.map (·.1) :=
      fun key h => (hkeys key).mpr (.inl h)
    have hlength := length_eq_iff_subset hb hnodup hinto
    rw [List.length_map, List.length_map] at hlength
    rw [hlength]
    constructor
    · rintro ⟨hback, -⟩ - key hkey
      exact hback ((hkeys key).mpr (.inr hkey))
    · intro hsub
      refine ⟨fun key h => ?_, hfound⟩
      exact ((hkeys key).mp h).elim id fun hkey => hsub hnil hkey

theorem join_lookup_ruleSlots (c : Constraints) (key : String) :
    ((ruleSlots c).lookup key).join =
      if key = transformsKey then transformsSlot c
      else if key = coerceKey then coerceSlot c
      else if key = validatorKey then c.customValidator.map .str
      else if key = messagesKey then messagesSlot c
      else none := by
  unfold ruleSlots
  by_cases ht : key = transformsKey
  · simp [ht]
  by_cases hc : key = coerceKey
  · simp [hc, List.lookup_cons, coerceKey, transformsKey]
  by_cases hv : key = validatorKey
  · simp [hv, List.lookup_cons, validatorKey, coerceKey, transformsKey]
  by_cases hm : key = messagesKey
  · simp [hm, List.lookup_cons, messagesKey, validatorKey, coerceKey, transformsKey]
  · rw [Json.lookup_eq_none_iff.mpr]
    · simp only [if_neg ht, if_neg hc, if_neg hv, if_neg hm, Option.join_none]
    · simp [ht, hc, hv, hm]

theorem sameExtensions_layers (hs : s.extensions = []) (ha : (a.errorMessages.map (·.1)).Nodup)
    (hb : (b.errorMessages.map (·.1)).Nodup) :
    SameExtensions (applyRules (applyRules s a) b).extensions
        (applyRules s (a.overlay b)).extensions ↔
      (b.transforms ≠ [] → (a.overlay b).transforms = b.transforms) ∧
        (b.errorMessages ≠ [] → a.errorMessages.map (·.1) ⊆ b.errorMessages.map (·.1)) := by
  rw [← sameValue_transforms, ← sameValue_messages ha hb]
  simp only [SameExtensions, lookup_extensions, hs, List.lookup_nil, Option.or_none,
    join_lookup_ruleSlots]
  constructor
  · intro h
    exact ⟨h transformsKey, h messagesKey⟩
  · rintro ⟨htransforms, hmessages⟩ key
    by_cases ht : key = transformsKey
    · simpa only [if_pos ht] using htransforms
    simp only [if_neg ht]
    by_cases hc : key = coerceKey
    · simpa only [if_pos hc] using sameValue_coerce
    simp only [if_neg hc]
    by_cases hv : key = validatorKey
    · simpa only [if_pos hv] using sameValue_validator
    simp only [if_neg hv]
    by_cases hm : key = messagesKey
    · simpa only [if_pos hm] using hmessages
    · simpa only [if_neg hm] using .none

end Extensions

/-! ### Rules of properties -/

theorem agrees_layers {s : Schema} (hs : s.extensions = []) {a b : Constraints}
    (ha : (a.errorMessages.map (·.1)).Nodup) (hb : (b.errorMessages.map (·.1)).Nodup) :
    Agrees (applyRules (applyRules s a) b) (applyRules s (a.overlay b)) ↔ Separate s a b := by
  rw [agrees_iff (masked_layers s a b), format_layers, pattern_layers,
    sameExtensions_layers hs ha hb]
  constructor
  · rintro ⟨hformat, hpattern, htransforms, hmessages⟩
    exact ⟨hformat, hpattern, htransforms, hmessages⟩
  · rintro ⟨hformat, hpattern, htransforms, hmessages⟩
    exact ⟨hformat, hpattern, htransforms, hmessages⟩

/-- Modifiers without rules make no difference. -/
theorem agrees_decorate {p : Property} (hp : p.constraints = none) {s u : Schema}
    (h : masked s = masked u) : Agrees (decorate p s) (decorate p u) ↔ Agrees s u := by
  have hmasked : ∀ v, masked (decorate p v) = decorate p (masked v) := fun v => by
    unfold decorate
    rw [hp]
    rfl
  rw [agrees_iff (by rw [hmasked, hmasked, h]), agrees_iff h]
  unfold decorate
  rw [hp]

/-- The property with all rules on its type. -/
def overlaid (p : Property) (a b : Constraints) : Property :=
  { p with type := { p.type with constraints := some (a.overlay b) }, constraints := none }

/-- The schema with the description of the type, if it has one. -/
def described (type : SourceType) (s : Schema) : Schema :=
  { s with description := type.description <|> s.description }

theorem agrees_overlaid {p : Property} {a b : Constraints} (hpa : p.type.constraints = some a)
    (hpb : p.constraints = some b) (ha : (a.errorMessages.map (·.1)).Nodup)
    (hb : (b.errorMessages.map (·.1)).Nodup) {s : Schema} (hs : s.extensions = []) :
    Agrees (decorate p (finish p.type s))
        (decorate (overlaid p a b) (finish (overlaid p a b).type s)) ↔ Separate s a b := by
  have hlayers : decorate p (finish p.type s) =
      decorate (overlaid p a b) (applyRules (applyRules (described p.type s) a) b) := by
    unfold decorate finish
    rw [hpa, hpb]
    rfl
  have hoverlay : finish (overlaid p a b).type s = applyRules (described p.type s) (a.overlay b) :=
    rfl
  rw [hlayers, hoverlay, agrees_decorate rfl (masked_layers (described p.type s) a b)]
  refine (agrees_layers (s := described p.type s) hs ha hb).trans ?_
  exact ⟨fun h => ⟨h.format, h.pattern, h.transforms, h.messages⟩,
    fun h => ⟨h.format, h.pattern, h.transforms, h.messages⟩⟩

/-- To write the rules of a property onto those of its type is to write the overlay of both,
exactly if they do not get into each other's way. -/
theorem agrees_property_iff (atomic : Atomic) {a b : Constraints}
    (ha : (a.errorMessages.map (·.1)).Nodup) (hb : (b.errorMessages.map (·.1)).Nodup) :
    (Agrees (applyRules (applyRules (atomicSchema atomic) a) b)
        (applyRules (atomicSchema atomic) (a.overlay b)) ↔ Separate (atomicSchema atomic) a b) ∧
    ∀ (registry : Registry) (type : SourceType) (t : SchemaTable) (before after : List Property)
      (p : Property) (index : Option IndexSignature) (strictness : Strictness),
      type.form = .object (before ++ p :: after) index strictness → Unstored t type →
      (∀ r ∈ after, r.name ≠ p.name) → p.type.form = .atomic atomic → p.type.nullable = false →
      p.type.constraints = some a → p.constraints = some b →
      ∃ s u x y, Placed registry type t s ∧ propertySchema? s p.name = some x ∧
        Placed registry
          { type with form := .object (before ++ overlaid p a b :: after) index strictness } t u ∧
        propertySchema? u p.name = some y ∧ (Agrees x y ↔ Separate (atomicSchema atomic) a b) := by
  have hplain : (atomicSchema atomic).extensions = [] := by cases atomic <;> rfl
  refine ⟨agrees_layers hplain ha hb, ?_⟩
  intro registry type t before after p index strictness hform hnew hlast hatomic hnull hpa hpb
  have hnew' : Unstored t
      { type with form := .object (before ++ overlaid p a b :: after) index strictness } := by
    intro name hname
    refine hnew name ?_
    rw [← hname, referredName?, referredName?, hform]
    rfl
  obtain ⟨s, _, _, _, hs, hsite, hx⟩ := placed_property registry hform hnew hlast
  obtain ⟨u, _, _, _, hu, hsite', hy⟩ :=
    placed_property (p := overlaid p a b) registry rfl hnew' hlast
  rw [hsite.eq_of_atomic hatomic hnull] at hx
  rw [hsite'.eq_of_atomic hatomic hnull] at hy
  exact ⟨s, u, _, _, hs, hx, hu, hy, agrees_overlaid hpa hpb ha hb hplain⟩

/-! ### Codes -/

/-- A text with rules, as a property with rules of its own. -/
def code (a b : Constraints) : Property where
  name := "code"
  type := { form := .atomic .string, constraints := some a }
  constraints := some b

def codeOnly (p : Property) : SourceType := .ofForm (.object [p] none .strip)

def shortCode : Constraints where
  minLength := some 2
  maxLength := some 9
  startsWith := some "usr."
  errorMessages := [("minLength", "too short")]

def userCode : Constraints where
  maxLength := some 8
  format := some "slug"
  startsWith := some "usr.eu."
  transforms := [.trim]
  errorMessages := [("maxLength", "too long"), ("minLength", "two letters at least")]

theorem separate_shortCode : Separate (atomicSchema .string) shortCode userCode where
  format h := by
    unfold IsNumeric at h
    simp [atomicSchema, Schema.ofType] at h
  pattern _ _ _ := .inr ⟨rfl, ⟨fun _ => rfl, id, id⟩⟩
  transforms _ := rfl
  messages _ := by decide

/-- The rules of a short code and those of a user's code are the overlay of both. -/
theorem agrees_property_code :
    (shortCode.errorMessages.map (·.1)).Nodup ∧ (userCode.errorMessages.map (·.1)).Nodup ∧
    Agrees (applyRules (applyRules (atomicSchema .string) shortCode) userCode)
      (applyRules (atomicSchema .string) (shortCode.overlay userCode)) ∧
    ∃ s u x y, Placed ⟨[]⟩ (codeOnly (code shortCode userCode)) {} s ∧
      propertySchema? s "code" = some x ∧
      Placed ⟨[]⟩ (codeOnly (overlaid (code shortCode userCode) shortCode userCode)) {} u ∧
      propertySchema? u "code" = some y ∧ Agrees x y := by
  have hshort : (shortCode.errorMessages.map (·.1)).Nodup := by decide
  have huser : (userCode.errorMessages.map (·.1)).Nodup := by decide
  obtain ⟨hrules, hproperty⟩ := agrees_property_iff .string hshort huser
  obtain ⟨s, u, x, y, hs, hx, hu, hy, hagrees⟩ :=
    hproperty ⟨[]⟩ (codeOnly (code shortCode userCode)) {} [] [] (code shortCode userCode) none
      .strip rfl (unstored_fresh _) (List.forall_mem_nil _) rfl rfl rfl rfl
  exact ⟨hshort, huser, hrules.mpr separate_shortCode, s, u, x, y, hs, hx, hu, hy,
    hagrees.mpr separate_shortCode⟩

def trimmed : Constraints where
  startsWith := some "usr."
  transforms := [.trim]
  errorMessages := [("startsWith", "no user")]

def lowered : Constraints where
  endsWith := some "x"
  transforms := [.toLowerCase]
  errorMessages := [("endsWith", "no x")]

def lastCode : Schema :=
  { Schema.ofType "string" with
    pattern := some "x$"
    extensions := [(transformsKey, .arr [.str "toLowerCase"]),
      (messagesKey, .obj [("endsWith", .str "no x")])] }

def bothCode : Schema :=
  { Schema.ofType "string" with
    pattern := some "^(?=usr\\.)(?=.*x$)"
    extensions := [(transformsKey, .arr [.str "trim", .str "toLowerCase"]),
      (messagesKey, .obj [("startsWith", .str "no user"), ("endsWith", .str "no x")])] }

/-- The checks, the transforms and the messages of the type get lost. -/
theorem unlayered_rules :
    propertySchema? (convert ⟨[]⟩ (codeOnly (code trimmed lowered)) {}).1 "code" = some lastCode ∧
    propertySchema? (convert ⟨[]⟩ (codeOnly (overlaid (code trimmed lowered) trimmed lowered)) {}).1
      "code" = some bothCode ∧
    ¬ Agrees lastCode bothCode := by
  refine ⟨by rfl, by rfl, fun h => ?_⟩
  have hpattern : lastCode.pattern = bothCode.pattern := (congrArg Schema.pattern h.keywords :)
  exact absurd hpattern (by decide)

end TypedApi.SchemaTable
