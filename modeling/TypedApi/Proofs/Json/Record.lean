import TypedApi.Proofs.Json.Fields
import TypedApi.Proofs.Json.Recovery

/-! Decoding encoded records.

A record is looked at as a list of slots, one for each field, and the members that it keeps
besides. A layout `Refills` a record when putting a field in fills its slot and leaves the
others alone; the members that the record is written as then give the record back
(`Refills.recovers`). -/
namespace TypedApi.Json

open Fields

/-! ### Slots -/

/-- A field of a record: its key, and its value when it is written. -/
structure Slot where
  key : String
  Value : Type
  value : Option Value
  encode : Value → Json

namespace Slot

def optional {β : Type} (key : String) (value : Option β) (encode : β → Json) : Slot :=
  ⟨key, β, value, encode⟩

def required {β : Type} (key : String) (value : β) (encode : β → Json) : Slot :=
  ⟨key, β, some value, encode⟩

/-- A list that is written when it has items. -/
def listed {β : Type} (key : String) (values : List β) (encode : List β → Json) : Slot :=
  ⟨key, List β, if values.isEmpty then none else some values, encode⟩

theorem optional_inj {β : Type} {key : String} {a b : Option β} {encode : β → Json} :
    Slot.optional key a encode = .optional key b encode ↔ a = b := by
  simp [Slot.optional]

theorem required_inj {β : Type} {key : String} {a b : β} {encode : β → Json} :
    Slot.required key a encode = .required key b encode ↔ a = b := by
  simp [Slot.required]

theorem listed_inj {β : Type} {key : String} {a b : List β} {encode : List β → Json} :
    Slot.listed key a encode = .listed key b encode ↔ a = b := by
  constructor
  · intro h
    have h : (if a.isEmpty then none else some a) = if b.isEmpty then none else some b := by
      simpa [Slot.listed] using h
    cases a <;> cases b <;> simp_all
  · rintro rfl
    rfl

/-- The key of a slot and what stands under it. -/
def entry (s : Slot) : String × Option Json := (s.key, s.value.map s.encode)

end Slot

theorem always_eq_ofSlots (key : String) (value : Json) :
    always key value = ofSlots [(key, some value)] := rfl

theorem nonEmpty_eq_ofSlots {β : Type} (key : String) (values : List β) (encode : List β → Json) :
    nonEmpty key values encode = ofSlots [(Slot.listed key values encode).entry] := by
  cases values <;> rfl

/-! ### Layouts -/

section Records

variable {α : Type}

/-- A record is looked at as its slots and the members that it keeps besides. -/
structure Shape (α : Type) where
  slots : α → List Slot
  extra : α → List (String × Json) := fun _ => []

def Shape.encode (shape : Shape α) (a : α) : Json :=
  .obj (ofSlots ((shape.slots a).map Slot.entry) ++ shape.extra a)

theorem Shape.ne_null (shape : Shape α) (a : α) : shape.encode a ≠ .null := nofun

theorem Shape.encode_closed {shape : Shape α} {a : α} (h : shape.extra a = []) :
    shape.encode a = .obj (ofSlots ((shape.slots a).map Slot.entry)) := by
  rw [Shape.encode, h, List.append_nil]

/-- A record is readable when no key comes twice and all that it holds is readable. -/
theorem Shape.readable_encode {shape : Shape α} {a : α}
    (hk : ((shape.slots a).map Slot.key).Nodup)
    (hs : ∀ s ∈ shape.slots a, ∀ b ∈ s.value, (s.encode b).Readable)
    (hn : ((shape.extra a).map (·.1)).Nodup)
    (hd : ∀ e ∈ shape.extra a, e.1 ∉ (shape.slots a).map Slot.key)
    (hx : ∀ e ∈ shape.extra a, e.2.Readable) : (shape.encode a).Readable := by
  have hkeys : (((shape.slots a).map Slot.entry).map (·.1)) = (shape.slots a).map Slot.key := by
    rw [List.map_map]
    rfl
  refine .obj ?_ fun m hm => ?_
  · rw [List.map_append]
    refine List.nodup_append.mpr ⟨nodup_keys_ofSlots (hkeys ▸ hk), hn, fun k hk k' hk' heq => ?_⟩
    obtain ⟨e, he, rfl⟩ := List.mem_map.mp hk'
    refine hd e he ?_
    rw [← hkeys, ← heq]
    exact mem_keys_ofSlots hk
  · rcases List.mem_append.mp hm with hm | hm
    · obtain ⟨entry, hentry, hm⟩ := List.mem_filterMap.mp hm
      obtain ⟨s, hs', rfl⟩ := List.mem_map.mp hentry
      obtain ⟨v, hv, rfl⟩ := Option.map_eq_some_iff.mp hm
      obtain ⟨b, hb, rfl⟩ := Option.map_eq_some_iff.mp hv
      exact hs s hs' b hb
    · exact hx m hm

/-- The same for a record that keeps no other members. -/
theorem Shape.readable_closed {shape : Shape α} {a : α} (h : shape.extra a = [])
    (hk : ((shape.slots a).map Slot.key).Nodup)
    (hs : ∀ s ∈ shape.slots a, ∀ b ∈ s.value, (s.encode b).Readable) :
    (shape.encode a).Readable := by
  refine readable_encode hk hs ?_ ?_ ?_ <;> rw [h]
  · exact List.nodup_nil
  · exact List.forall_mem_nil _
  · exact List.forall_mem_nil _

/-- What stands in a slot of a readable record is readable. -/
theorem Shape.readable_slot {shape : Shape α} {a : α} (h : (shape.encode a).Readable) {s : Slot}
    (hs : s ∈ shape.slots a) : ∀ b ∈ s.value, (s.encode b).Readable := by
  intro b hb
  refine h.members (s.key, s.encode b) (List.mem_append_left _ ?_)
  refine List.mem_filterMap.mpr ⟨s.entry, List.mem_map_of_mem hs, ?_⟩
  rw [Slot.entry, show s.value = some b from hb]
  rfl

theorem Shape.readable_optional {shape : Shape α} {a : α} (h : (shape.encode a).Readable)
    (key : String) {β : Type} {value : Option β} {encode : β → Json}
    (hs : Slot.optional key value encode ∈ shape.slots a) : ∀ b ∈ value, (encode b).Readable :=
  readable_slot h hs

theorem Shape.readable_required {shape : Shape α} {a : α} (h : (shape.encode a).Readable)
    (key : String) {β : Type} {value : β} {encode : β → Json}
    (hs : Slot.required key value encode ∈ shape.slots a) : (encode value).Readable :=
  readable_slot h hs value rfl

theorem Shape.readable_listed {shape : Shape α} {a : α} (h : (shape.encode a).Readable)
    (key : String) {β : Type} {values : List β} {encode : List β → Json}
    (hs : Slot.listed key values encode ∈ shape.slots a) (hv : values ≠ []) :
    (encode values).Readable := by
  cases values with
  | nil => exact absurd rfl hv
  | cons v vs => exact readable_slot h hs (v :: vs) rfl

theorem Shape.readable_extra {shape : Shape α} {a : α} (h : (shape.encode a).Readable) :
    ∀ e ∈ shape.extra a, e.2.Readable :=
  fun e he => h.members e (List.mem_append_right _ he)

theorem Shape.nodup_extra {shape : Shape α} {a : α} (h : (shape.encode a).Readable) :
    ((shape.extra a).map (·.1)).Nodup := by
  have hn := h.distinct
  rw [List.map_append] at hn
  exact (List.nodup_append.mp hn).2.1

/-- Putting in what the slot holds sets the slot at `i` and nothing else. -/
def Slot.Refills (layout : Layout α) (shape : Shape α) (i : Nat) (s : Slot) : Prop :=
  ∀ b ∈ s.value, ∀ a, ∃ a', layout.put a s.key (.ofValue (s.encode b)) = .ok a' ∧
    shape.slots a' = (shape.slots a).set i s ∧ shape.extra a' = shape.extra a

/-- The same for slots from `i` on. -/
def RefillsFrom (layout : Layout α) (shape : Shape α) : Nat → List Slot → Prop
  | _, [] => True
  | i, s :: ss => s.Refills layout shape i ∧ RefillsFrom layout shape (i + 1) ss

/-- Nothing is left to do for a slot that holds nothing. -/
def Slot.Ready (initial s : Slot) : Prop := s.value = none → initial = s

/-- A layout reads back what a record is written as. -/
structure Refills (layout : Layout α) (shape : Shape α) (a : α) : Prop where
  keys : (shape.slots a).map Slot.key = layout.known
  distinct : layout.known.Nodup
  ready : List.Forall₂ Slot.Ready (shape.slots layout.init) (shape.slots a)
  slots : RefillsFrom layout shape 0 (shape.slots a)
  required : ∀ key ∈ layout.required, ∃ s ∈ shape.slots a, s.key = key ∧ s.value ≠ none
  bare : shape.extra layout.init = []
  unknown : ∀ e ∈ shape.extra a, e.1 ∉ layout.known
  separate : ((shape.extra a).map (·.1)).Nodup
  others : ∀ e ∈ shape.extra a, ∀ b, ∃ b', layout.other b e.1 (.ofValue e.2) = .ok b' ∧
    shape.slots b' = shape.slots b ∧ shape.extra b' = assign e.1 e.2 (shape.extra b)
  whole : ∀ b, shape.slots b = shape.slots a → shape.extra b = shape.extra a → b = a

/-- A record that keeps no other members. -/
theorem Refills.of_closed {layout : Layout α} {slots : α → List Slot} {a : α}
    (keys : (slots a).map Slot.key = layout.known) (distinct : layout.known.Nodup)
    (ready : List.Forall₂ Slot.Ready (slots layout.init) (slots a))
    (hslots : RefillsFrom layout ⟨slots, fun _ => []⟩ 0 (slots a))
    (required : ∀ key ∈ layout.required, ∃ s ∈ slots a, s.key = key ∧ s.value ≠ none)
    (whole : ∀ b, slots b = slots a → b = a) : Refills layout ⟨slots, fun _ => []⟩ a where
  keys := keys
  distinct := distinct
  ready := ready
  slots := hslots
  required := required
  bare := rfl
  unknown := nofun
  separate := List.nodup_nil
  others := nofun
  whole b h _ := whole b h

/-- A member that was kept is kept again when it is read back. -/
theorem Layout.keeps_value {layout : Layout α} {shape : Shape α}
    (set : α → List (String × Json) → α) {e : String × Json} (hv : e.2.Readable)
    (hother : ∀ a key d, layout.other a key d =
      (do return set a (assign key (← Decoder.value d) (shape.extra a))) := by intros; rfl)
    (hslots : ∀ a more, shape.slots (set a more) = shape.slots a := by intros; rfl)
    (hextra : ∀ a more, shape.extra (set a more) = more := by intros; rfl) :
    ∀ b, ∃ b', layout.other b e.1 (.ofValue e.2) = .ok b' ∧ shape.slots b' = shape.slots b ∧
      shape.extra b' = assign e.1 e.2 (shape.extra b) := by
  intro b
  refine ⟨set b (assign e.1 e.2 (shape.extra b)), ?_, hslots b _, hextra b _⟩
  rw [hother, show Decoder.value (.ofValue e.2) = .ok e.2 from Draft.value_ofValue e.2 hv]
  rfl

theorem ofMembers_append (a b : List (String × Json)) :
    Draft.ofMembers (a ++ b) = Draft.ofMembers a ++ Draft.ofMembers b := by
  rw [Draft.ofMembers_eq, Draft.ofMembers_eq, Draft.ofMembers_eq, List.map_append]

namespace Refills

variable {layout : Layout α} {shape : Shape α}

/-- A known member is put in. -/
theorem run_known {seen : List String} {b b' : α} {key : String} {d : Draft}
    (hk : key ∈ layout.known) (hs : key ∉ seen) (hput : layout.put b key d = .ok b')
    (rest : List (Option String × Draft)) :
    layout.run seen b ((some key, d) :: rest) = layout.run (key :: seen) b' rest := by
  have hknown : layout.known.contains key = true := List.contains_iff_mem.mpr hk
  have hseen : ¬ seen.contains key = true := fun hc => hs (List.contains_iff_mem.mp hc)
  rw [Layout.run, if_pos hknown, if_neg hseen, hput]
  rfl

/-- A member that is not known is kept. -/
theorem run_other {seen : List String} {b b' : α} {key : String} {d : Draft}
    (hk : key ∉ layout.known) (hother : layout.other b key d = .ok b')
    (rest : List (Option String × Draft)) :
    layout.run seen b ((some key, d) :: rest) = layout.run seen b' rest := by
  have hknown : ¬ layout.known.contains key = true := fun hc => hk (List.contains_iff_mem.mp hc)
  rw [Layout.run, if_neg hknown, hother]
  rfl

/-- The slots are filled one after the other. `done` are those that are filled already. -/
theorem run_slots (done : List Slot) {initial rest : List Slot} (seen : List String) {b : α}
    (hk : ∀ s ∈ rest, s.key ∈ layout.known) (hn : (rest.map Slot.key).Nodup)
    (hs : ∀ s ∈ rest, s.key ∉ seen) (hready : List.Forall₂ Slot.Ready initial rest)
    (hfill : RefillsFrom layout shape done.length rest) (hb : shape.slots b = done ++ initial) :
    ∃ b' seen', shape.slots b' = done ++ rest ∧ shape.extra b' = shape.extra b ∧
      (∀ key ∈ seen, key ∈ seen') ∧ (∀ s ∈ rest, s.value ≠ none → s.key ∈ seen') ∧
      ∀ more, layout.run seen b (Draft.ofMembers (ofSlots (rest.map Slot.entry)) ++ more) =
        layout.run seen' b' more := by
  induction hready generalizing done seen b with
  | nil => exact ⟨b, seen, hb, rfl, fun _ h => h, fun s hs => (by cases hs), fun more => rfl⟩
  | @cons s₀ s initial rest hs₀ hready ih =>
    obtain ⟨hfirst, hrest⟩ := hfill
    obtain ⟨hsn, hn⟩ := List.nodup_cons.mp hn
    have hkrest := fun u hu => hk u (List.mem_cons_of_mem s hu)
    have hlength : (done ++ [s]).length = done.length + 1 := by simp
    rw [← hlength] at hrest
    cases hv : s.value with
    | none =>
      have hb : shape.slots b = (done ++ [s]) ++ initial := by rw [hb, hs₀ hv]; simp
      obtain ⟨b', seen', hb', hx, hsub, hin, hrun⟩ :=
        ih (done ++ [s]) seen hkrest hn (fun u hu => hs u (List.mem_cons_of_mem s hu)) hrest hb
      refine ⟨b', seen', by rw [hb']; simp, hx, hsub, fun u hu hne => ?_, fun more => ?_⟩
      · rcases List.mem_cons.mp hu with rfl | hu
        · exact absurd hv hne
        · exact hin u hu hne
      · rw [← hrun, List.map_cons, Slot.entry, hv]
        rfl
    | some v =>
      obtain ⟨b₁, hput, hslots, hextra⟩ := hfirst v hv b
      have hb₁ : shape.slots b₁ = (done ++ [s]) ++ initial := by
        rw [hslots, hb, List.set_append_right _ _ (Nat.le_refl _), Nat.sub_self, List.set_cons_zero]
        simp
      have hfresh : ∀ u ∈ rest, u.key ∉ s.key :: seen := fun u hu hc => by
        rcases List.mem_cons.mp hc with hc | hc
        · exact hsn (hc ▸ List.mem_map_of_mem hu)
        · exact hs u (List.mem_cons_of_mem s hu) hc
      obtain ⟨b', seen', hb', hx, hsub, hin, hrun⟩ :=
        ih (done ++ [s]) (s.key :: seen) hkrest hn hfresh hrest hb₁
      refine ⟨b', seen', by rw [hb']; simp, hx.trans hextra,
        fun key hkey => hsub key (List.mem_cons_of_mem _ hkey), fun u hu hne => ?_, fun more => ?_⟩
      · rcases List.mem_cons.mp hu with rfl | hu
        · exact hsub _ List.mem_cons_self
        · exact hin u hu hne
      · rw [← hrun]
        have hmem : s ∈ s :: rest := List.mem_cons_self
        rw [← run_known (hk s hmem) (hs s hmem) hput, List.map_cons, Slot.entry, hv]
        rfl

/-- The members that are kept are added one after the other. -/
theorem run_extra {more : List (String × Json)} (hk : ∀ e ∈ more, e.1 ∉ layout.known)
    (ho : ∀ e ∈ more, ∀ b, ∃ b', layout.other b e.1 (.ofValue e.2) = .ok b' ∧
      shape.slots b' = shape.slots b ∧ shape.extra b' = assign e.1 e.2 (shape.extra b))
    (seen : List String) (b : α) :
    ∃ b', layout.run seen b (Draft.ofMembers more) = .ok (b', seen) ∧
      shape.slots b' = shape.slots b ∧ shape.extra b' = assignAll (shape.extra b) more := by
  induction more generalizing b with
  | nil => exact ⟨b, rfl, rfl, rfl⟩
  | cons e more ih =>
    obtain ⟨b₁, hother, hslots, hextra⟩ := ho e List.mem_cons_self b
    obtain ⟨b', hrun, hslots', hextra'⟩ := ih (fun d hd => hk d (List.mem_cons_of_mem e hd))
      (fun d hd => ho d (List.mem_cons_of_mem e hd)) b₁
    refine ⟨b', ?_, hslots'.trans hslots, ?_⟩
    · rw [← hrun]
      exact run_other (hk e List.mem_cons_self) hother _
    · rw [hextra', hextra]
      rfl

/-- A record is put together again from its members. -/
theorem finish {a : α} (h : Refills layout shape a) :
    layout.finish (Draft.ofMembers (ofSlots ((shape.slots a).map Slot.entry) ++ shape.extra a), none) =
      .ok a := by
  have hkeys : ∀ s ∈ shape.slots a, s.key ∈ layout.known := fun s hs =>
    h.keys ▸ List.mem_map_of_mem hs
  obtain ⟨b, seen, hslots, hextra, -, hseen, hrun⟩ := run_slots [] [] hkeys
    (h.keys.symm ▸ h.distinct) (fun _ _ hc => by cases hc) h.ready h.slots rfl
  obtain ⟨b', hrun', hslots', hextra'⟩ := run_extra h.unknown h.others seen b
  have hwhole : b' = a := by
    refine h.whole b' (hslots'.trans hslots) ?_
    rw [hextra', hextra, h.bare]
    exact table_of_nodup h.separate
  have hrequired : layout.required.all seen.contains = true := by
    rw [List.all_eq_true]
    intro key hkey
    obtain ⟨s, hs, rfl, hv⟩ := h.required key hkey
    exact List.contains_iff_mem.mpr (hseen s hs hv)
  rw [Layout.finish, ofMembers_append, hrun, hrun', hwhole]
  show (if layout.required.all seen.contains = true then _ else _) = _
  rw [if_pos hrequired]
  rfl

theorem recovers {a : α} (h : Refills layout shape a) : Recovers layout.decode shape.encode a :=
  h.finish

theorem recovers_open {a : α} (h : Refills layout shape a) :
    Recovers layout.decodeOpen shape.encode a :=
  h.finish

end Refills

/-! ### Rules for fields -/

section Fields

variable {layout : Layout α} {shape : Shape α} {β : Type} {key : String} {i : Nat}

theorem RefillsFrom.nil : RefillsFrom layout shape i [] := trivial

theorem RefillsFrom.cons {s : Slot} {ss : List Slot} (h : s.Refills layout shape i)
    (hs : RefillsFrom layout shape (i + 1) ss) : RefillsFrom layout shape i (s :: ss) :=
  ⟨h, hs⟩

namespace Slot

theorem refills_optional {value : Option β} {decode : Decoder β} {encode : β → Json}
    (set : α → Option β → α) (h : ∀ b ∈ value, Recovers decode encode b)
    (hn : ∀ b ∈ value, encode b ≠ .null := by intro _ _ h; cases h)
    (hput : ∀ a d, layout.put a key d = (do return set a (← Decoder.option decode d)) := by
      intros; rfl)
    (hset : ∀ a o, shape.slots (set a o) = (shape.slots a).set i (.optional key o encode) := by
      intros; rfl)
    (hextra : ∀ a o, shape.extra (set a o) = shape.extra a := by intros; rfl) :
    (Slot.optional key value encode).Refills layout shape i := by
  have hall : ∀ b, value = some b → ∀ a, ∃ a', layout.put a key (.ofValue (encode b)) = .ok a' ∧
      shape.slots a' = (shape.slots a).set i (.optional key value encode) ∧
      shape.extra a' = shape.extra a := by
    rintro b rfl a
    refine ⟨set a (some b), ?_, hset a _, hextra a _⟩
    rw [hput]
    show (Decoder.option decode (.ofValue (encode b)) >>= fun o => Pure.pure (set a o)) = _
    rw [(h b rfl).option (hn b rfl)]
    rfl
  exact hall

theorem refills_required {value : β} {decode : Decoder β} {encode : β → Json} (set : α → β → α)
    (h : Recovers decode encode value)
    (hput : ∀ a d, layout.put a key d = (do return set a (← decode d)) := by intros; rfl)
    (hset : ∀ a b, shape.slots (set a b) = (shape.slots a).set i (.required key b encode) := by
      intros; rfl)
    (hextra : ∀ a b, shape.extra (set a b) = shape.extra a := by intros; rfl) :
    (Slot.required key value encode).Refills layout shape i := by
  intro b hb a
  cases hb
  refine ⟨set a value, ?_, hset a value, hextra a value⟩
  rw [show (Slot.required key value encode).key = key from rfl, hput]
  show (decode (.ofValue (encode value)) >>= fun b => Pure.pure (set a b)) = _
  rw [h]
  rfl

theorem refills_listed {values : List β} {decode : Decoder (List β)} {encode : List β → Json}
    (set : α → List β → α) (h : values ≠ [] → Recovers decode encode values)
    (hput : ∀ a d, layout.put a key d = (do return set a (← decode d)) := by intros; rfl)
    (hset : ∀ a bs, shape.slots (set a bs) = (shape.slots a).set i (.listed key bs encode) := by
      intros; rfl)
    (hextra : ∀ a bs, shape.extra (set a bs) = shape.extra a := by intros; rfl) :
    (Slot.listed key values encode).Refills layout shape i := by
  intro b hb a
  have hb : (if values.isEmpty then none else some values) = some b := hb
  split at hb
  · cases hb
  · next hv =>
    cases hb
    have hne : values ≠ [] := fun hc => hv (by rw [hc]; rfl)
    refine ⟨set a values, ?_, hset a values, hextra a values⟩
    rw [show (Slot.listed key values encode).key = key from rfl, hput]
    show (decode (.ofValue (encode values)) >>= fun b => Pure.pure (set a b)) = _
    rw [h hne]
    rfl

theorem ready_optional {value : Option β} {encode : β → Json} :
    Ready (.optional key none encode) (.optional key value encode) := by
  intro h
  rw [show value = none from h]

theorem ready_required {initial : Slot} {value : β} {encode : β → Json} :
    Ready initial (.required key value encode) := by
  intro h
  cases h

theorem ready_listed {values : List β} {encode : List β → Json} :
    Ready (.listed key [] encode) (.listed key values encode) := by
  intro h
  cases values with
  | nil => rfl
  | cons v vs => cases h

end Slot

end Fields

end Records


end TypedApi.Json
