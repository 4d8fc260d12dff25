import TypedApi.Proofs.SourceType.Described
import TypedApi.Proofs.SourceType.Encoding

/-! The parts of decoded types are read back from what they are written as.

The decoder of each record in a type is stable when the decoder of the types in it is, and the form
that members describe is told again by the members it is written with (`Form.settled_ofMembers`).
An object whose properties were left out is written with an empty list of them, one container more
than was read; so there is slack for one container throughout. -/
namespace TypedApi

open Json Json.Fields

/-! ### Records -/

instance Constraints.stably (buffered again : Bool) :
    Stably 1 0 (layout buffered) (fun _ => layout again) shape where
  fields := by
    have hvalue : ∀ d v, d ≠ .null → Decoder.value d = .ok v → id v ≠ .null :=
      fun _ _ => ne_null_of_value
    have htransforms : Stable 1 0 (.list (.choice buffered StringTransform.named?))
        (fun _ => .list (.choice again StringTransform.named?)) transformsJson :=
      (Stable.choice StringTransform.named?_name buffered again).list
    have hmessages : Stable 1 0 (.map .text) (fun _ => .map .text) messagesJson := .map .text
    refine .cons (.optional (fun c x => { c with minimum := x }) .number) ?_
    refine .cons (.optional (fun c x => { c with maximum := x }) .number) ?_
    refine .cons (.optional (fun c x => { c with exclusiveMinimum := x }) .number) ?_
    refine .cons (.optional (fun c x => { c with exclusiveMaximum := x }) .number) ?_
    refine .cons (.optional (fun c x => { c with multipleOf := x }) .number) ?_
    refine .cons (.optional (fun c x => { c with numericType := x })
      (.choice NumericType.named?_name buffered again)) ?_
    refine .cons (.optional (fun c x => { c with minLength := x }) .nat) ?_
    refine .cons (.optional (fun c x => { c with maxLength := x }) .nat) ?_
    refine .cons (.optional (fun c x => { c with format := x }) .text) ?_
    refine .cons (.optional (fun c x => { c with pattern := x }) .text) ?_
    refine .cons (.optional (fun c x => { c with startsWith := x }) .text) ?_
    refine .cons (.optional (fun c x => { c with endsWith := x }) .text) ?_
    refine .cons (.optional (fun c x => { c with includes := x }) .text) ?_
    refine .cons (.listed (fun c x => { c with transforms := x }) htransforms) ?_
    refine .cons (.optional (fun c x => { c with minItems := x }) .nat) ?_
    refine .cons (.optional (fun c x => { c with maxItems := x }) .nat) ?_
    refine .cons (.optional (fun c x => { c with uniqueItems := x }) .bool) ?_
    refine .cons (.required (fun c x => { c with coerce := x }) .bool (.inr ⟨false, rfl, ⟨.bool _, Nat.zero_le _⟩, fun _ => .bool _⟩)) ?_
    refine .cons (.optional (fun c x => { c with customValidator := x }) .text) ?_
    refine .cons (.optional (fun c x => { c with default := x }) .value hvalue) ?_
    refine .cons (.listed (fun c x => { c with errorMessages := x }) hmessages) ?_
    exact .nil
  filled := fun _ => List.forall_mem_nil _
  reached := List.forall_mem_nil _
  whole := by
    intro c d h _
    cases c
    cases d
    simp only [shape, List.cons.injEq, Slot.optional_inj, Slot.required_inj, Slot.listed_inj,
      and_true] at h
    simp only [mk.injEq]
    exact h

theorem Constraints.stable (buffered again : Bool) :
    Stable 1 0 (layout buffered).decode (fun _ => (layout again).decode) encode := by
  rw [funext encode_eq_shape]
  exact (stably buffered again).decode

instance EnumMember.stably :
    Stably 1 0 EnumMember.layout (fun _ => EnumMember.layout) EnumMember.shape where
  fields := by
    refine .cons (.required (fun m x => { m with name := x }) .text (.inl (by decide))) ?_
    refine .cons (.required (fun m x => { m with value := x }) .value (.inl (by decide))) ?_
    exact .nil
  filled := by simp [EnumMember.layout, EnumMember.shape, Slot.required]
  whole := by
    rintro ⟨n, v⟩ ⟨n', v'⟩ h _
    simpa [EnumMember.shape, Slot.required] using h

theorem EnumMember.stable :
    Stable 1 0 EnumMember.layout.decode (fun _ => EnumMember.layout.decode) EnumMember.encode := by
  rw [funext EnumMember.encode_eq_shape]
  exact EnumMember.stably.decode

instance Discriminant.stably :
    Stably 1 0 Discriminant.layout (fun _ => Discriminant.layout) Discriminant.shape where
  fields := by
    refine .cons (.required (fun d x => { d with property := x }) .text (.inl (by decide))) ?_
    refine .cons (.required (fun d x => { d with mapping := x }) (.map .nat) (.inl (by decide))) ?_
    exact .nil
  filled := by simp [Discriminant.layout, Discriminant.shape, Slot.required]
  whole := by
    rintro ⟨p, m⟩ ⟨p', m'⟩ h _
    simpa [Discriminant.shape, Slot.required] using h

theorem Discriminant.stable : Stable 1 0 Discriminant.layout.decode
    (fun _ => Discriminant.layout.decode) Discriminant.encode := by
  rw [funext Discriminant.encode_eq_shape]
  exact Discriminant.stably.decode

section

variable {self : Decoder SourceType} {back : Nat → Decoder SourceType}

theorem Property.stably (h : Stable 1 0 self back SourceType.encode) :
    Stably 1 0 (Property.layout self) (fun n => Property.layout (back n)) Property.shape where
  fields := by
    have hvalue : ∀ d v, d ≠ .null → Decoder.value d = .ok v → id v ≠ .null :=
      fun _ _ => ne_null_of_value
    have hrules : Stable 1 0 Constraints.decodeBuffered (fun _ => Constraints.decodeBuffered)
        Constraints.encode := Constraints.stable true true
    refine .cons (.required (fun p x => { p with name := x }) .text (.inl List.mem_cons_self)) ?_
    refine .cons (.required (fun p x => { p with type := x }) h
      (.inl (List.mem_cons_of_mem _ List.mem_cons_self))) ?_
    refine .cons (.required (fun p x => { p with required := x }) .bool
      (.inr ⟨false, rfl, ⟨.bool _, Nat.zero_le _⟩, fun _ => .bool _⟩)) ?_
    refine .cons (.flag (fun p x => { p with readonly := x })) ?_
    refine .cons (.flag (fun p x => { p with writeOnly := x })) ?_
    refine .cons (.optional (fun p x => { p with description := x }) .text) ?_
    refine .cons (.optional (fun p x => { p with example? := x }) .value hvalue) ?_
    refine .cons (.optional (fun p x => { p with constraints := x }) hrules) ?_
    exact .nil
  filled := by simp [Property.layout, Property.shape, Slot.required, Slot.optional, Slot.flag]
  whole := by
    intro p q h _
    cases p
    cases q
    simp only [Property.shape, List.cons.injEq, Slot.optional_inj, Slot.required_inj,
      Slot.flag_inj, and_true] at h
    simp only [Property.mk.injEq]
    exact h

theorem Property.stable (h : Stable 1 0 self back SourceType.encode) :
    Stable 1 0 (Property.layout self).decode (fun n => (Property.layout (back n)).decode)
      Property.encode := by
  rw [funext Property.encode_eq_shape]
  exact (Property.stably h).decode

theorem TupleElement.stably (h : Stable 1 0 self back SourceType.encode) :
    Stably 1 0 (TupleElement.layout self) (fun n => TupleElement.layout (back n)) TupleElement.shape where
  fields := by
    refine .cons (.required (fun e x => { e with type := x }) h (.inl List.mem_cons_self)) ?_
    refine .cons (.required (fun e x => { e with optional := x }) .bool
      (.inr ⟨false, rfl, ⟨.bool _, Nat.zero_le _⟩, fun _ => .bool _⟩)) ?_
    refine .cons (.required (fun e x => { e with rest := x }) .bool
      (.inr ⟨false, rfl, ⟨.bool _, Nat.zero_le _⟩, fun _ => .bool _⟩)) ?_
    exact .nil
  filled := by simp [TupleElement.layout, TupleElement.shape, Slot.required]
  whole := by
    intro e f h _
    cases e
    cases f
    simpa [TupleElement.shape, Slot.required] using h

theorem TupleElement.stable (h : Stable 1 0 self back SourceType.encode) :
    Stable 1 0 (TupleElement.layout self).decode (fun n => (TupleElement.layout (back n)).decode)
      TupleElement.encode := by
  rw [funext TupleElement.encode_eq_shape]
  exact (TupleElement.stably h).decode

theorem IndexSignature.stably (h : Stable 1 0 self back SourceType.encode) :
    Stably 1 0 (IndexSignature.layout self) (fun n => IndexSignature.layout (back n)) IndexSignature.shape where
  fields := by
    refine .cons (.required (fun i x => { i with key := x }) h (.inl List.mem_cons_self)) ?_
    refine .cons (.required (fun i x => { i with value := x }) h
      (.inl (List.mem_cons_of_mem _ List.mem_cons_self))) ?_
    exact .nil
  filled := by simp [IndexSignature.layout, IndexSignature.shape, Slot.required]
  whole := by
    intro i j h _
    cases i
    cases j
    simpa [IndexSignature.shape, Slot.required] using h

theorem IndexSignature.stable (h : Stable 1 0 self back SourceType.encode) :
    Stable 1 0 (IndexSignature.layout self).decode (fun n => (IndexSignature.layout (back n)).decode)
      IndexSignature.encode := by
  rw [funext IndexSignature.encode_eq_shape]
  exact (IndexSignature.stably h).decode

end

/-! ### Members that were read as values -/

/-- The members of an object that is read back. -/
def Buffered.ofMembers (ms : List (String × Json)) : Buffered := ms.map fun m => (m.1, .ofValue m.2)

/-- Members that were read from a text where `room` containers may open. -/
def Buffered.Held (room : Nat) (ms : Buffered) : Prop := ∀ m ∈ ms, m.2.Held room

namespace Buffered

variable {α : Type} {room : Nat} {key : String} {decode : Decoder α} {a : α}

section

variable {ms : List (String × Json)}

/-- No key comes twice, so a member is found by looking it up. -/
theorem only?_ofMembers (hn : (ms.map (·.1)).Nodup) :
    (ofMembers ms).only? key = .ok ((ms.lookup key).map .ofValue) := by
  have hfilter : (ofMembers ms).filter (·.1 == key) =
      ((ms.lookup key).map fun v => (key, Draft.ofValue v)).toList := by
    induction ms with
    | nil => rfl
    | cons m ms ih =>
      obtain ⟨hm, hn⟩ := List.nodup_cons.mp hn
      have hrest := ih hn
      rw [ofMembers] at hrest
      rw [ofMembers, List.map_cons, List.filter_cons, hrest, List.lookup_cons]
      by_cases heq : m.1 = key
      · subst heq
        rw [lookup_of_notMem hm, if_pos (beq_self_eq_true m.1), beq_self_eq_true]
        rfl
      · rw [if_neg fun hc => heq (eq_of_beq hc), beq_eq_false_iff_ne.mpr (Ne.symm heq)]
  rw [only?, hfilter]
  cases ms.lookup key <;> rfl

theorem need_ofMembers (hn : (ms.map (·.1)).Nodup) {v : Json} (hv : ms.lookup key = some v)
    (ha : decode (.ofValue v) = .ok a) : (ofMembers ms).need key decode = .ok a := by
  rw [need, only?_ofMembers hn, hv]
  exact ha

theorem withDefault_ofMembers (hn : (ms.map (·.1)).Nodup) {default : α}
    (h : ∀ v ∈ ms.lookup key, decode (.ofValue v) = .ok a) (hdefault : ms.lookup key = none → default = a) :
    (ofMembers ms).withDefault key default decode = .ok a := by
  rw [withDefault, only?_ofMembers hn]
  cases hv : ms.lookup key with
  | none => exact congrArg Except.ok (hdefault hv)
  | some v => exact h v hv

end

section

variable {ms : Buffered} {back : Nat → Decoder α} {encode : α → Json}

theorem Held.need (hm : ms.Held room) (hs : Stable 1 0 decode back encode)
    (h : ms.need key decode = .ok a) : Stands (room + 1) (encode a) ∧ Returns back encode a := by
  obtain ⟨m, hmem, h⟩ := need_ok h
  exact hs room _ a (Nat.zero_le _) (hm m hmem) h

/-- What is left out has to be a value that can be written. -/
theorem Held.withDefault (hm : ms.Held room) (hs : Stable 1 0 decode back encode) {default : α}
    (hdefault : Stands (room + 1) (encode default) ∧ Returns back encode default)
    (h : ms.withDefault key default decode = .ok a) :
    Stands (room + 1) (encode a) ∧ Returns back encode a := by
  rcases withDefault_ok h with rfl | ⟨m, hmem, h⟩
  · exact hdefault
  · exact hs room _ a (Nat.zero_le _) (hm m hmem) h

/-- What may be left out is not read as null. -/
theorem Held.optional (hm : ms.Held room) (hs : Stable 1 0 decode back encode) {o : Option α}
    (h : ms.withDefault key none (.option decode) = .ok o) :
    ∀ a ∈ o, Stands (room + 1) (encode a) ∧ Returns back encode a := by
  intro a ha
  rcases withDefault_ok h with rfl | ⟨m, hmem, h⟩
  · cases ha
  · obtain ⟨-, ha⟩ := given_of_option h ha
    exact hs room _ a (Nat.zero_le _) (hm m hmem) ha

end
end Buffered

/-! ### Forms -/

namespace Form

theorem nodup_slots (f : Form) : ((("kind", some (.str f.kind)) :: f.slots).map (·.1)).Nodup := by
  cases f <;> exact of_decide_eq_true rfl

theorem nodup_members (f : Form) : (f.members.map (·.1)).Nodup := nodup_keys_ofSlots f.nodup_slots

theorem lookup_members {f : Form} {key : String} {value : Option Json} (h : (key, value) ∈ f.slots) :
    f.members.lookup key = value :=
  lookup_ofSlots f.nodup_slots (List.mem_cons_of_mem _ h)

/-- What a form is written as can be written where `room` containers may open, and it tells the
form again. -/
structure Settled (room : Nat) (back : Nat → Decoder SourceType) (f : Form) : Prop where
  stands : ∀ s ∈ f.slots, ∀ v ∈ s.2, Stands room v
  returns : ∀ n, (∀ s ∈ f.slots, ∀ v ∈ s.2, (Draft.ofValue v).height ≤ n) →
    ofMembers (back n) (.ofMembers f.members) = .ok f

section

variable {α : Type} {f : Form} {key : String} {decode : Decoder α} {a : α}

theorem need_kind (f : Form) : (Buffered.ofMembers f.members).need "kind" kind? = .ok f.kind :=
  Buffered.need_ofMembers f.nodup_members rfl (by cases f <;> rfl)

theorem need_slot {v : Json} (h : (key, some v) ∈ f.slots) (ha : decode (.ofValue v) = .ok a) :
    (Buffered.ofMembers f.members).need key decode = .ok a :=
  Buffered.need_ofMembers f.nodup_members (lookup_members h) ha

theorem withDefault_slot (value : Option Json) {default : α} (h : (key, value) ∈ f.slots)
    (ha : ∀ v ∈ value, decode (.ofValue v) = .ok a) (hdefault : value = none → default = a) :
    (Buffered.ofMembers f.members).withDefault key default decode = .ok a :=
  Buffered.withDefault_ofMembers f.nodup_members ((lookup_members h).symm ▸ ha)
    ((lookup_members h).symm ▸ hdefault)

end

section

variable {room : Nat} {self : Decoder SourceType} {back : Nat → Decoder SourceType}

/-- A form that is told by its kind alone. -/
theorem settled_plain {f : Form} (hf : f.slots = [] := by rfl)
    (hread : ∀ n ms, ms.need "kind" kind? = .ok f.kind → ofMembers (back n) ms = .ok f := by
      intro n ms h; rw [ofMembers, h]; rfl) : f.Settled room back where
  stands := by
    rw [hf]
    exact List.forall_mem_nil _
  returns n _ := hread n _ f.need_kind

/-- A form that is told by its kind and one more member. -/
theorem settled_one {α : Type} {key : String} {a : α} {again : Nat → Decoder α} {encode : α → Json}
    (wrap : α → Form) (h : Stands room (encode a) ∧ Returns again encode a)
    (hf : (wrap a).slots = [(key, some (encode a))] := by rfl)
    (hread : ∀ n ms, ms.need "kind" kind? = .ok (wrap a).kind →
      ofMembers (back n) ms = (do return wrap (← ms.need key (again n))) := by
      intro n ms h; rw [ofMembers, h]; rfl) : (wrap a).Settled room back where
  stands := by
    rw [hf]
    refine List.forall_mem_singleton.mpr fun v hv => ?_
    cases hv
    exact h.1
  returns n hn := by
    have hslot : (key, some (encode a)) ∈ (wrap a).slots := hf ▸ List.mem_singleton_self _
    rw [hread n _ (wrap a).need_kind, need_slot hslot (h.2 n (hn _ hslot _ rfl))]
    rfl

/-- A list that is left out is written as an empty one, which takes the room of a container. -/
theorem settled_nil {β : Type} {decode : Nat → Decoder β} {encode : β → Json} :
    Stands (room + 1) (.arr (([] : List β).map encode)) ∧
      Returns (fun n => .list (decode n)) (fun bs => .arr (bs.map encode)) [] :=
  ⟨Stands.mono (.arr (List.forall_mem_nil _)) (Nat.le_add_left 1 room), fun _ _ => rfl⟩

/-- What may be left out is decoded when it is there. -/
theorem option_slot {β : Type} {o : Option β} {decode : Decoder β} {encode : β → Json}
    (h : ∀ b ∈ o, Recovers decode encode b)
    (hn : ∀ b, encode b ≠ .null := by intro _ h; cases h) :
    ∀ v ∈ o.map encode, Decoder.option decode (.ofValue v) = .ok o := by
  intro v hv
  obtain ⟨b, hb, rfl⟩ := Option.map_eq_some_iff.mp hv
  rw [hb]
  exact (h b hb).option (hn b)

theorem settled_object (hs : Stable 1 0 self back SourceType.encode) {ms : Buffered}
    (hm : ms.Held room) {ps : List Property} {index : Option IndexSignature} {strictness : Strictness}
    (hps : ms.withDefault "properties" [] (.list (Property.layout self).decode) = .ok ps)
    (hindex : ms.withDefault "index_signature" none (.option (IndexSignature.layout self).decode) =
      .ok index) : (object ps index strictness).Settled (room + 1) back := by
  have hps := hm.withDefault (Property.stable hs).list settled_nil hps
  have hindex := hm.optional (IndexSignature.stable hs) hindex
  refine ⟨List.forall_mem_cons.mpr ⟨fun v hv => ?_, List.forall_mem_cons.mpr ⟨fun v hv => ?_,
    List.forall_mem_singleton.mpr fun v hv => ?_⟩⟩, fun n hn => ?_⟩
  · cases hv
    exact hps.1
  · obtain ⟨i, hi, rfl⟩ := Option.map_eq_some_iff.mp hv
    exact (hindex i hi).1
  · cases hv
    exact ⟨.str _, Nat.zero_le _⟩
  · obtain ⟨hproperties, hn⟩ := List.forall_mem_cons.mp hn
    obtain ⟨hsignature, -⟩ := List.forall_mem_cons.mp hn
    have hps : (Buffered.ofMembers (object ps index strictness).members).withDefault "properties" []
        (.list (Property.layout (back n)).decode) = .ok ps := by
      refine withDefault_slot (some (.arr (ps.map Property.encode))) List.mem_cons_self
        (fun v hv => ?_) (by intro h; cases h)
      cases hv
      exact hps.2 n (hproperties _ rfl)
    have hindex : (Buffered.ofMembers (object ps index strictness).members).withDefault
        "index_signature" none (.option (IndexSignature.layout (back n)).decode) = .ok index := by
      refine withDefault_slot _ (List.mem_cons_of_mem _ List.mem_cons_self)
        (option_slot fun i hi => (hindex i hi).2 n (hsignature _ (Option.mem_map_of_mem _ hi)))
        fun h => (Option.map_eq_none_iff.mp h).symm
    have hstrictness : (Buffered.ofMembers (object ps index strictness).members).withDefault
        "strictness" .strip (.choice true Strictness.named?) = .ok strictness := by
      refine withDefault_slot (some (.str strictness.name))
        (List.mem_cons_of_mem _ (List.mem_cons_of_mem _ List.mem_cons_self)) (fun v hv => ?_)
        (by intro h; cases h)
      cases hv
      exact Recovers.choice (Strictness.named?_name strictness) true
    rw [ofMembers, need_kind]
    simp only [kind, hps, hindex, hstrictness]
    rfl

theorem settled_union (hs : Stable 1 0 self back SourceType.encode) {ms : Buffered}
    (hm : ms.Held room) {ts : List SourceType} {d : Option Discriminant}
    (hts : ms.need "members" (.list self) = .ok ts)
    (hd : ms.withDefault "discriminant" none (.option Discriminant.layout.decode) = .ok d) :
    (union ts d).Settled (room + 1) back := by
  have hts := hm.need hs.list hts
  have hd := hm.optional Discriminant.stable hd
  refine ⟨List.forall_mem_cons.mpr ⟨fun v hv => ?_, List.forall_mem_singleton.mpr fun v hv => ?_⟩,
    fun n hn => ?_⟩
  · cases hv
    exact hts.1
  · obtain ⟨x, hx, rfl⟩ := Option.map_eq_some_iff.mp hv
    exact (hd x hx).1
  · obtain ⟨hmembers, hn⟩ := List.forall_mem_cons.mp hn
    have hn := hn _ List.mem_cons_self
    have hts : (Buffered.ofMembers (union ts d).members).need "members" (.list (back n)) = .ok ts :=
      need_slot List.mem_cons_self (hts.2 n (hmembers _ rfl))
    have hd : (Buffered.ofMembers (union ts d).members).withDefault "discriminant" none
        (.option Discriminant.layout.decode) = .ok d := by
      refine withDefault_slot _ (List.mem_cons_of_mem _ List.mem_cons_self)
        (option_slot fun x hx => (hd x hx).2 n (hn _ (Option.mem_map_of_mem _ hx)))
        fun h => (Option.map_eq_none_iff.mp h).symm
    rw [ofMembers, need_kind]
    simp only [kind, hts, hd]
    rfl

theorem settled_native (hs : Stable 1 0 self back SourceType.encode) {ms : Buffered}
    (hm : ms.Held room) {name : String} {args : List SourceType}
    (hargs : ms.withDefault "type_args" [] (.list self) = .ok args) :
    (native name args).Settled (room + 1) back := by
  have hargs := hm.withDefault hs.list settled_nil hargs
  have hgiven : ∀ v ∈ (if args.isEmpty then none else some (Json.arr (args.map SourceType.encode))),
      v = .arr (args.map SourceType.encode) := by
    intro v hv
    split at hv
    · cases hv
    · cases hv
      rfl
  refine ⟨List.forall_mem_cons.mpr ⟨fun v hv => ?_, List.forall_mem_singleton.mpr fun v hv => ?_⟩,
    fun n hn => ?_⟩
  · cases hv
    exact ⟨.str _, Nat.zero_le _⟩
  · rw [hgiven v hv]
    exact hargs.1
  · have hn := hn _ (List.mem_cons_of_mem _ List.mem_cons_self)
    have hname : (Buffered.ofMembers (native name args).members).need "native" .text = .ok name :=
      need_slot List.mem_cons_self (Recovers.text name)
    have hargs : (Buffered.ofMembers (native name args).members).withDefault "type_args" []
        (.list (back n)) = .ok args := by
      refine withDefault_slot _ (List.mem_cons_of_mem _ List.mem_cons_self) (fun v hv => ?_) fun h => ?_
      · have hheight := hn v hv
        rw [hgiven v hv] at hheight ⊢
        exact hargs.2 n hheight
      · split at h
        · next hempty => exact (List.isEmpty_iff.mp hempty).symm
        · cases h
    rw [ofMembers, need_kind]
    simp only [kind, hname, hargs]
    rfl

/-- The form that members describe, from its parts. -/
theorem settled_ofMembers (hs : Stable 1 0 self back SourceType.encode) {ms : Buffered}
    (hm : ms.Held room) {f : Form} (h : ofMembers self ms = .ok f) : f.Settled (room + 1) back := by
  cases described_of_ofMembers h with
  | any | unknown | never | void => exact settled_plain
  | atomic ha => exact settled_one .atomic (hm.need (.choice Atomic.named?_name true true) ha)
  | literal hv => exact settled_one .literal (hm.need .value hv)
  | object hps hindex => exact settled_object hs hm hps hindex
  | array ht => exact settled_one .array (hm.need hs ht)
  | tuple hes => exact settled_one .tuple (hm.need (TupleElement.stable hs).list hes)
  | union hts hd => exact settled_union hs hm hts hd
  | intersection hts => exact settled_one .intersection (hm.need hs.list hts)
  | enum hes => exact settled_one .enum (hm.need EnumMember.stable.list hes)
  | native hargs => exact settled_native hs hm hargs
  | ref htarget => exact settled_one .ref (hm.need .text htarget)

end
end Form

end TypedApi
