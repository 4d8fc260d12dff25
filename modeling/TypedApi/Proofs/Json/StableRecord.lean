import TypedApi.Proofs.Json.Record
import TypedApi.Proofs.Json.Stability

/-! Decoding records that a decoder gave.

A layout decodes a record member by member. Each name has a `Field`: what its member puts in can
be written and is put in again when it is read back. While the members are taken in turn, every
slot is either filled by such a member or still as in the fresh record (`Filling`), and at the
end all slots are settled. So a layout all of whose names have fields is stable
(`Stably.decode`, `Stably.decodeOpen`). -/
namespace TypedApi.Json

open Fields

variable {α β : Type}

/-- A flag that is written when it is set. -/
def Slot.flag (key : String) (value : Bool) : Slot :=
  ⟨key, Bool, if value then some true else none, .bool⟩

theorem Slot.flag_inj {key : String} {a b : Bool} :
    Slot.flag key a = .flag key b ↔ a = b := by
  cases a <;> cases b <;> simp [Slot.flag]

theorem flag_eq_ofSlots (key : String) (value : Bool) :
    Fields.flag key value = ofSlots [(Slot.flag key value).entry] := by
  cases value <;> rfl

/-- What a slot holds stands in the record's value. -/
theorem Shape.slot_mem_parts (shape : Shape α) {a : α} {s : Slot} (hs : s ∈ shape.slots a) :
    ∀ b ∈ s.value, s.encode b ∈ parts (shape.encode a) := by
  intro b hb
  refine List.mem_map.mpr ⟨(s.key, s.encode b), List.mem_append_left _ ?_, rfl⟩
  refine List.mem_filterMap.mpr ⟨s.entry, List.mem_map_of_mem hs, ?_⟩
  rw [Slot.entry, show s.value = some b from hb]
  rfl

theorem Shape.stands_encode (shape : Shape α) {a : α} {room : Nat}
    (hk : ((shape.slots a).map Slot.key).Nodup)
    (hs : ∀ s ∈ shape.slots a, ∀ b ∈ s.value, Stands room (s.encode b))
    (hn : ((shape.extra a).map (·.1)).Nodup)
    (hd : ∀ e ∈ shape.extra a, e.1 ∉ (shape.slots a).map Slot.key)
    (hx : ∀ e ∈ shape.extra a, Stands room e.2) : Stands (room + 1) (shape.encode a) where
  readable := Shape.readable_encode hk (fun s hm b hb => (hs s hm b hb).readable) hn hd
    fun e he => (hx e he).readable
  depth := by
    refine Nat.succ_le_succ (depthMembers_le_iff.mpr fun m hm => ?_)
    rcases List.mem_append.mp hm with hm | hm
    · obtain ⟨entry, hentry, hm⟩ := List.mem_filterMap.mp hm
      obtain ⟨s, hslot, rfl⟩ := List.mem_map.mp hentry
      obtain ⟨v, hv, rfl⟩ := Option.map_eq_some_iff.mp hm
      obtain ⟨b, hb, rfl⟩ := Option.map_eq_some_iff.mp hv
      exact (hs s hslot b hb).depth
    · exact (hx m hm).depth

/-! ### Fields -/

section

variable (slack room : Nat) (back : Nat → Layout α) (shape : Shape α)

/-- What stands in the slot at `i` can be written where `room` containers may open, and it is put
in again. -/
structure Slot.Settled (i : Nat) (s : Slot) : Prop where
  stands : ∀ b ∈ s.value, Stands (room + slack) (s.encode b)
  refills : ∀ n, (∀ b ∈ s.value, (Draft.ofValue (s.encode b)).height ≤ n) →
    s.Refills (back n) shape i

end

theorem Slot.settled_of_none {slack room : Nat} {back : Nat → Layout α} {shape : Shape α} {i : Nat}
    {s : Slot} (h : s.value = none) : s.Settled slack room back shape i where
  stands b hb := by
    rw [h] at hb
    cases hb
  refills n _ b hb := by
    rw [h] at hb
    cases hb

/-- The member under the key fills the slot at `i` with something settled. The fresh record's slot
is settled too, unless the member is required. -/
structure Field (slack least : Nat) (layout : Layout α) (back : Nat → Layout α) (shape : Shape α)
    (i : Nat) (key : String) : Prop where
  put : ∀ room a d b, least ≤ room → d.Held room → layout.put a key d = .ok b →
    ∃ s : Slot, s.key = key ∧ s.Settled slack room back shape i ∧
      shape.slots b = (shape.slots a).set i s ∧ shape.extra b = shape.extra a
  init : key ∈ layout.required ∨ ∀ room, least ≤ room →
    ∀ s ∈ (shape.slots layout.init)[i]?, s.Settled slack room back shape i

/-- The same for names from `i` on. -/
def FieldsFrom (slack least : Nat) (layout : Layout α) (back : Nat → Layout α) (shape : Shape α) :
    Nat → List String → Prop
  | _, [] => True
  | i, key :: keys => Field slack least layout back shape i key ∧
      FieldsFrom slack least layout back shape (i + 1) keys

section

variable {slack least : Nat} {layout : Layout α} {back : Nat → Layout α} {shape : Shape α}
variable {i : Nat} {key : String}

theorem FieldsFrom.nil : FieldsFrom slack least layout back shape i [] := trivial

theorem FieldsFrom.cons {keys : List String} (h : Field slack least layout back shape i key)
    (hs : FieldsFrom slack least layout back shape (i + 1) keys) :
    FieldsFrom slack least layout back shape i (key :: keys) :=
  ⟨h, hs⟩

theorem FieldsFrom.get {start : Nat} {keys : List String}
    (h : FieldsFrom slack least layout back shape start keys) (hk : keys[i]? = some key) :
    Field slack least layout back shape (start + i) key := by
  induction keys generalizing start i with
  | nil => cases hk
  | cons k keys ih =>
    obtain ⟨hfirst, hrest⟩ := h
    cases i with
    | zero =>
      cases hk
      exact hfirst
    | succ i =>
      rw [Nat.add_succ, ← Nat.succ_add]
      exact ih hrest hk

namespace Field

variable {decode : Decoder β} {again : Nat → Decoder β} {encode : β → Json} {inner : Nat}

/-- A member that may be absent. It is not read as null. -/
theorem optional (set : α → Option β → α) (h : Stable slack inner decode again encode)
    (hn : ∀ d b, d ≠ .null → decode d = .ok b → encode b ≠ .null := by intro _ _ _ _ h; cases h)
    (hle : inner ≤ least := by omega)
    (hput : ∀ a d, layout.put a key d = (do return set a (← Decoder.option decode d)) := by
      intros; rfl)
    (hback : ∀ n a d, (back n).put a key d = (do return set a (← Decoder.option (again n) d)) := by
      intros; rfl)
    (hset : ∀ a o, shape.slots (set a o) = (shape.slots a).set i (.optional key o encode) := by
      intros; rfl)
    (hextra : ∀ a o, shape.extra (set a o) = shape.extra a := by intros; rfl)
    (hinit : (shape.slots layout.init)[i]? = some (.optional key none encode) := by rfl) :
    Field slack least layout back shape i key where
  put room a d a' hroom hd ha := by
    rw [hput] at ha
    obtain ⟨o, ho, ha⟩ := ok_of_bind ha
    cases ha
    refine ⟨.optional key o encode, rfl, ?_, hset a o, hextra a o⟩
    have hgiven : ∀ b ∈ o, Stands (room + slack) (encode b) ∧ Returns again encode b ∧
        encode b ≠ .null := by
      intro b hb
      obtain ⟨hnull, hb⟩ := given_of_option ho hb
      obtain ⟨hstands, hreturns⟩ := h room d b (Nat.le_trans hle hroom) hd hb
      exact ⟨hstands, hreturns, hn d b hnull hb⟩
    refine ⟨fun b hb => (hgiven b hb).1, fun n hheight => ?_⟩
    exact Slot.refills_optional set (fun b hb => (hgiven b hb).2.1 n (hheight b hb))
      (fun b hb => (hgiven b hb).2.2) (hback n) hset hextra
  init := by
    refine .inr fun room _ s hs => Slot.settled_of_none ?_
    rw [hinit] at hs
    cases hs
    rfl

/-- A member whose value in the fresh record is settled if it need not come. -/
theorem required (set : α → β → α) (h : Stable slack inner decode again encode)
    (hinit : key ∈ layout.required ∨ ∃ b, (shape.slots layout.init)[i]? = some (.required key b encode) ∧
      Stands (least + slack) (encode b) ∧ ∀ n, Recovers (again n) encode b)
    (hle : inner ≤ least := by omega)
    (hput : ∀ a d, layout.put a key d = (do return set a (← decode d)) := by intros; rfl)
    (hback : ∀ n a d, (back n).put a key d = (do return set a (← again n d)) := by intros; rfl)
    (hset : ∀ a b, shape.slots (set a b) = (shape.slots a).set i (.required key b encode) := by
      intros; rfl)
    (hextra : ∀ a b, shape.extra (set a b) = shape.extra a := by intros; rfl) :
    Field slack least layout back shape i key where
  put room a d a' hroom hd ha := by
    rw [hput] at ha
    obtain ⟨b, hb, ha⟩ := ok_of_bind ha
    cases ha
    obtain ⟨hstands, hreturns⟩ := h room d b (Nat.le_trans hle hroom) hd hb
    refine ⟨.required key b encode, rfl, ⟨fun b' hb' => ?_, fun n hheight => ?_⟩, hset a b, hextra a b⟩
    · cases hb'
      exact hstands
    · exact Slot.refills_required set (hreturns n (hheight b rfl)) (hback n) hset hextra
  init := by
    refine hinit.imp_right fun ⟨b, hslot, hstands, hrecovers⟩ room hroom s hs => ?_
    rw [hslot] at hs
    cases hs
    refine ⟨fun b' hb' => ?_, fun n _ => ?_⟩
    · cases hb'
      exact hstands.mono (Nat.add_le_add_right hroom slack)
    · exact Slot.refills_required set (hrecovers n) (hback n) hset hextra

/-- A list that is written when it has items. -/
theorem listed {decode : Decoder (List β)} {again : Nat → Decoder (List β)} {encode : List β → Json}
    (set : α → List β → α) (h : Stable slack inner decode again encode)
    (hle : inner ≤ least := by omega)
    (hput : ∀ a d, layout.put a key d = (do return set a (← decode d)) := by intros; rfl)
    (hback : ∀ n a d, (back n).put a key d = (do return set a (← again n d)) := by intros; rfl)
    (hset : ∀ a bs, shape.slots (set a bs) = (shape.slots a).set i (.listed key bs encode) := by
      intros; rfl)
    (hextra : ∀ a bs, shape.extra (set a bs) = shape.extra a := by intros; rfl)
    (hinit : (shape.slots layout.init)[i]? = some (.listed key [] encode) := by rfl) :
    Field slack least layout back shape i key where
  put room a d a' hroom hd ha := by
    rw [hput] at ha
    obtain ⟨bs, hbs, ha⟩ := ok_of_bind ha
    cases ha
    obtain ⟨hstands, hreturns⟩ := h room d bs (Nat.le_trans hle hroom) hd hbs
    have hvalue : ∀ cs ∈ (Slot.listed key bs encode).value, cs = bs := by
      intro cs hcs
      have hcs : (if bs.isEmpty then none else some bs) = some cs := hcs
      split at hcs
      · cases hcs
      · exact (Option.some.inj hcs).symm
    refine ⟨.listed key bs encode, rfl, ⟨fun cs hcs => ?_, fun n hheight => ?_⟩, hset a bs, hextra a bs⟩
    · rw [hvalue cs hcs]
      exact hstands
    · refine Slot.refills_listed set (fun hne => hreturns n (hheight bs ?_)) (hback n) hset hextra
      show (if bs.isEmpty then none else some bs) = some bs
      rw [if_neg fun hempty => hne (List.isEmpty_iff.mp hempty)]
  init := by
    refine .inr fun room _ s hs => Slot.settled_of_none ?_
    rw [hinit] at hs
    cases hs
    rfl

/-- A flag that is written when it is set. -/
theorem flag (set : α → Bool → α)
    (hput : ∀ a d, layout.put a key d = (do return set a (← Decoder.bool d)) := by intros; rfl)
    (hback : ∀ n a d, (back n).put a key d = (do return set a (← Decoder.bool d)) := by
      intros; rfl)
    (hset : ∀ a b, shape.slots (set a b) = (shape.slots a).set i (.flag key b) := by intros; rfl)
    (hextra : ∀ a b, shape.extra (set a b) = shape.extra a := by intros; rfl)
    (hinit : (shape.slots layout.init)[i]? = some (.flag key false) := by rfl) :
    Field slack least layout back shape i key where
  put room a d a' _ _ ha := by
    rw [hput] at ha
    obtain ⟨b, -, ha⟩ := ok_of_bind ha
    cases ha
    refine ⟨.flag key b, rfl, ⟨fun c _ => ⟨.bool c, Nat.zero_le _⟩, fun n _ c hc a => ?_⟩, hset a b,
      hextra a b⟩
    have hvalue : c = true ∧ b = true := by
      have hc : (if b then some true else none) = some c := hc
      cases b with
      | false => cases hc
      | true => exact ⟨(Option.some.inj hc).symm, rfl⟩
    obtain ⟨rfl, rfl⟩ := hvalue
    refine ⟨set a true, ?_, hset a true, hextra a true⟩
    show (back n).put a key (.ofValue (.bool true)) = _
    rw [hback]
    rfl
  init := by
    refine .inr fun room _ s hs => Slot.settled_of_none ?_
    rw [hinit] at hs
    cases hs
    rfl

end Field

/-! ### Records -/

/-- Other members are passed over or kept. -/
def Layout.PassesOrKeeps (layout : Layout α) (shape : Shape α) : Prop :=
  ∀ room a key d b, key ∉ layout.known → d.Held room → layout.other a key d = .ok b →
    shape.slots b = shape.slots a ∧ (shape.extra b = shape.extra a ∨
      ∃ v, Stands room v ∧ shape.extra b = assign key v (shape.extra a))

theorem Layout.passes (h : layout.other = (fun a _ d => do d.skip; return a) := by rfl) :
    layout.PassesOrKeeps shape := by
  intro room a key d b _ _ hb
  rw [h] at hb
  obtain ⟨-, -, hb⟩ := ok_of_bind hb
  cases hb
  exact ⟨rfl, .inl rfl⟩

theorem Layout.keeps (set : α → List (String × Json) → α)
    (hother : ∀ a key d, layout.other a key d =
      (do return set a (assign key (← Decoder.value d) (shape.extra a))) := by intros; rfl)
    (hslots : ∀ a more, shape.slots (set a more) = shape.slots a := by intros; rfl)
    (hextra : ∀ a more, shape.extra (set a more) = more := by intros; rfl) :
    layout.PassesOrKeeps shape := by
  intro room a key d b _ hd hb
  rw [hother] at hb
  obtain ⟨v, hv, hb⟩ := ok_of_bind hb
  cases hb
  have hvalue : Stable 0 0 .value (fun _ => .value) id := .value
  exact ⟨hslots a _, .inr ⟨v, (hvalue room d v (Nat.zero_le _) hd hv).1, hextra a _⟩⟩

/-- What was kept is kept again. -/
def Layout.KeepsAgain (back : Layout α) (shape : Shape α) : Prop :=
  ∀ a, ∀ e ∈ shape.extra a, e.2.Readable → ∀ b,
    ∃ b', back.other b e.1 (.ofValue e.2) = .ok b' ∧ shape.slots b' = shape.slots b ∧
      shape.extra b' = assign e.1 e.2 (shape.extra b)

theorem Layout.keepsAgain {layout : Layout α} (set : α → List (String × Json) → α)
    (hother : ∀ a key d, layout.other a key d =
      (do return set a (assign key (← Decoder.value d) (shape.extra a))) := by intros; rfl)
    (hslots : ∀ a more, shape.slots (set a more) = shape.slots a := by intros; rfl)
    (hextra : ∀ a more, shape.extra (set a more) = more := by intros; rfl) :
    layout.KeepsAgain shape :=
  fun _ _ _ hv => Layout.keeps_value set hv hother hslots hextra

/-- What a layout and a shape have to meet for the records that the layout decodes to come back.
`back` are the layouts that read them back. -/
class Stably (slack least : Nat) (layout : Layout α) (back : Nat → Layout α) (shape : Shape α) :
    Prop where
  keys : ∀ a, (shape.slots a).map Slot.key = layout.known := by intros; rfl
  distinct : layout.known.Nodup := by exact of_decide_eq_true rfl
  fields : FieldsFrom slack least layout back shape 0 layout.known
  ready : ∀ a, List.Forall₂ Slot.Ready (shape.slots layout.init) (shape.slots a) := by
    intro a
    repeat' first
      | exact .nil
      | exact Slot.ready_optional
      | exact Slot.ready_required
      | exact Slot.ready_listed
      | apply List.Forall₂.cons
  /-- A list of values reaches what is required. -/
  reached : ∀ key ∈ layout.required, key ∈ layout.known ∧ key ∈ layout.listed := by
    exact of_decide_eq_true rfl
  filled : ∀ a, ∀ key ∈ layout.required, ∃ s ∈ shape.slots a, s.key = key ∧ s.value ≠ none
  whole : ∀ a b, shape.slots b = shape.slots a → shape.extra b = shape.extra a → b = a
  known : ∀ n, (back n).known = layout.known := by intros; rfl
  required : ∀ n, (back n).required = layout.required := by intros; rfl
  init : ∀ n, (back n).init = layout.init := by intros; rfl
  bare : shape.extra layout.init = [] := by rfl
  other : layout.PassesOrKeeps shape := by exact Layout.passes
  again : ∀ n, (back n).KeepsAgain shape := by intro _ _ _ he; cases he

/-- A record while its members are taken, `seen` being the names that have come. -/
structure Filling (slack room : Nat) (layout : Layout α) (back : Nat → Layout α) (shape : Shape α)
    (seen : List String) (a : α) : Prop where
  slots : ∀ (i : Nat) (s : Slot), s ∈ (shape.slots a)[i]? → s.Settled slack room back shape i ∨
    s.key ∉ seen ∧ s ∈ (shape.slots layout.init)[i]?
  extra : ∀ e ∈ shape.extra a, e.1 ∉ layout.known ∧ Stands (room + slack) e.2
  separate : ((shape.extra a).map (·.1)).Nodup

namespace Stably

variable {room : Nat}

theorem key_at (h : Stably slack least layout back shape) {a : α} {s : Slot}
    (hs : s ∈ (shape.slots a)[i]?) : layout.known[i]? = some s.key := by
  rw [← h.keys a, List.getElem?_map, show (shape.slots a)[i]? = some s from hs]
  rfl

theorem field_at (h : Stably slack least layout back shape) (hi : layout.known[i]? = some key) :
    Field slack least layout back shape i key := by
  have hfield := h.fields.get hi
  rwa [Nat.zero_add] at hfield

/-- Nothing has come yet. -/
theorem filling_init (h : Stably slack least layout back shape) :
    Filling slack room layout back shape [] layout.init where
  slots i s hs := .inr ⟨List.not_mem_nil, hs⟩
  extra := by
    rw [h.bare]
    exact List.forall_mem_nil _
  separate := by
    rw [h.bare]
    exact List.nodup_nil

/-- A member with a known name fills the slot of that name. -/
theorem filling_put (h : Stably slack least layout back shape) (hroom : least ≤ room)
    {seen : List String} {a b : α} {d : Draft} (hk : key ∈ layout.known) (hd : d.Held room)
    (ha : Filling slack room layout back shape seen a) (hput : layout.put a key d = .ok b) :
    Filling slack room layout back shape (key :: seen) b := by
  obtain ⟨j, hj⟩ := List.getElem?_of_mem hk
  obtain ⟨t, ht, hsettled, hslots, hextra⟩ := (h.field_at hj).put room a d b hroom hd hput
  refine ⟨fun i s hs => ?_, hextra ▸ ha.extra, hextra ▸ ha.separate⟩
  have hget : (shape.slots b)[i]? = some s := hs
  rw [hslots, List.getElem?_set] at hget
  split at hget
  · next hij =>
    subst hij
    split at hget
    · cases hget
      exact .inl hsettled
    · cases hget
  · next hij =>
    refine (ha.slots i s hget).imp_right fun ⟨hseen, hinit⟩ => ⟨fun hmem => ?_, hinit⟩
    rcases List.mem_cons.mp hmem with heq | hmem
    · -- a name comes once, so this is the slot at `j`
      have hi := h.key_at hs
      rw [heq] at hi
      obtain ⟨hlt, -⟩ := List.getElem?_eq_some_iff.mp hj
      exact hij ((List.getElem?_inj hlt h.distinct).mp (hj.trans hi.symm))
    · exact hseen hmem

theorem filling_other (h : Stably slack least layout back shape) {seen : List String} {a b : α}
    {d : Draft} (hk : key ∉ layout.known) (hd : d.Held room)
    (ha : Filling slack room layout back shape seen a) (hother : layout.other a key d = .ok b) :
    Filling slack room layout back shape seen b := by
  obtain ⟨hslots, hextra⟩ := h.other room a key d b hk hd hother
  rcases hextra with hextra | ⟨v, hv, hextra⟩
  · exact ⟨hslots ▸ ha.slots, hextra ▸ ha.extra, hextra ▸ ha.separate⟩
  · refine ⟨hslots ▸ ha.slots, fun e he => ?_, ?_⟩
    · rw [hextra] at he
      rcases mem_of_mem_assign he with rfl | he
      · exact ⟨hk, hv.mono (Nat.le_add_right ..)⟩
      · exact ha.extra e he
    · rw [hextra]
      exact nodup_keys_assign ha.separate

theorem filling_run (h : Stably slack least layout back shape) (hroom : least ≤ room)
    {ms : List (Option String × Draft)} (hms : ∀ m ∈ ms, m.2.Held room) {seen : List String} {a : α}
    {result : α × List String} (ha : Filling slack room layout back shape seen a)
    (hrun : layout.run seen a ms = .ok result) :
    Filling slack room layout back shape result.2 result.1 := by
  induction ms generalizing seen a with
  | nil =>
    cases hrun
    exact ha
  | cons m ms ih =>
    obtain ⟨name, d⟩ := m
    cases name with
    | none => cases hrun
    | some key =>
      obtain ⟨hd, hrest⟩ := List.forall_mem_cons.mp hms
      rw [Layout.run] at hrun
      split at hrun
      · next hk =>
        split at hrun
        · cases hrun
        · obtain ⟨b, hb, hrun⟩ := ok_of_bind hrun
          exact ih hrest (h.filling_put hroom (List.contains_iff_mem.mp hk) hd ha hb) hrun
      · next hk =>
        obtain ⟨b, hb, hrun⟩ := ok_of_bind hrun
        exact ih hrest (h.filling_other (fun hc => hk (List.contains_iff_mem.mpr hc)) hd ha hb) hrun

/-- The values of a list are taken for the names, and the list reaches what is required. -/
theorem filling_runList (h : Stably slack least layout back shape) (hroom : least ≤ room)
    {names : List String} {ds : List Draft} (hds : ∀ d ∈ ds, d.Held room)
    (hnames : ∀ name ∈ names, name ∈ layout.known) {seen : List String} {ending : Option Stop}
    {a b : α} (hseen : ∀ key ∈ layout.required, key ∈ seen ∨ key ∈ names)
    (ha : Filling slack room layout back shape seen a)
    (hrun : layout.runList a ending names ds = .ok b) :
    ∃ seen', (∀ key ∈ layout.required, key ∈ seen') ∧ Filling slack room layout back shape seen' b := by
  induction names generalizing ds seen a with
  | nil =>
    cases ds with
    | nil =>
      obtain ⟨-, -, hrun⟩ := ok_of_bind hrun
      cases hrun
      exact ⟨seen, fun key hkey => (hseen key hkey).resolve_right List.not_mem_nil, ha⟩
    | cons d ds => cases hrun
  | cons name names ih =>
    cases ds with
    | nil =>
      obtain ⟨-, -, hrun⟩ := ok_of_bind hrun
      split at hrun
      · cases hrun
      · next hany =>
        cases hrun
        refine ⟨seen, fun key hkey => (hseen key hkey).resolve_right fun hmem => hany ?_, ha⟩
        exact List.any_eq_true.mpr ⟨key, hmem, List.contains_iff_mem.mpr (h.reached key hkey).2⟩
    | cons d ds =>
      obtain ⟨hd, hrest⟩ := List.forall_mem_cons.mp hds
      obtain ⟨hname, hmore⟩ := List.forall_mem_cons.mp hnames
      obtain ⟨c, hc, hrun⟩ := ok_of_bind hrun
      have hcome : ∀ key ∈ layout.required, key ∈ name :: seen ∨ key ∈ names := by
        intro key hkey
        rcases hseen key hkey with hs | hs
        · exact .inl (List.mem_cons_of_mem _ hs)
        · rcases List.mem_cons.mp hs with rfl | hs
          · exact .inl List.mem_cons_self
          · exact .inr hs
      exact ih hrest hmore hcome (h.filling_put hroom hname hd ha hc) hrun

/-- When all that is required has come, every slot is settled. -/
theorem settled (h : Stably slack least layout back shape) (hroom : least ≤ room)
    {seen : List String} {a : α} (hseen : ∀ key ∈ layout.required, key ∈ seen)
    (ha : Filling slack room layout back shape seen a) :
    ∀ (i : Nat) (s : Slot), s ∈ (shape.slots a)[i]? → s.Settled slack room back shape i := by
  intro i s hs
  rcases ha.slots i s hs with hsettled | ⟨hunseen, hinit⟩
  · exact hsettled
  · rcases (h.field_at (h.key_at hs)).init with hrequired | hsettled
    · exact absurd (hseen _ hrequired) hunseen
    · exact hsettled room hroom s hinit

/-- The slots from `i` on are filled again. -/
theorem refillsFrom {n : Nat} {ss : List Slot}
    (hs : ∀ (j : Nat) (s : Slot), s ∈ ss[j]? → s.Refills (back n) shape (i + j)) :
    RefillsFrom (back n) shape i ss := by
  induction ss generalizing i with
  | nil => exact .nil
  | cons s ss ih =>
    refine .cons (hs 0 s rfl) (ih fun j t ht => ?_)
    rw [Nat.add_right_comm]
    exact hs (j + 1) t ht

/-- A filled record can be written, and it is put together again from what it is written as. -/
theorem stands_refills (h : Stably slack least layout back shape) (hroom : least ≤ room)
    {seen : List String} {a : α} (hseen : ∀ key ∈ layout.required, key ∈ seen)
    (ha : Filling slack room layout back shape seen a) :
    Stands (room + 1 + slack) (shape.encode a) ∧
      ∀ n, (Draft.ofValue (shape.encode a)).height ≤ n + 1 → Refills (back n) shape a := by
  have hsettled := h.settled hroom hseen ha
  have hunknown : ∀ e ∈ shape.extra a, e.1 ∉ layout.known := fun e he => (ha.extra e he).1
  have hstands : Stands (room + slack + 1) (shape.encode a) := by
    refine shape.stands_encode (h.keys a ▸ h.distinct) (fun s hs => ?_) ha.separate
      (h.keys a ▸ hunknown) fun e he => (ha.extra e he).2
    obtain ⟨i, hi⟩ := List.getElem?_of_mem hs
    exact (hsettled i s hi).stands
  refine ⟨Nat.add_right_comm room slack 1 ▸ hstands, fun n hn => ?_⟩
  exact {
    keys := (h.keys a).trans (h.known n).symm
    distinct := h.known n ▸ h.distinct
    ready := h.init n ▸ h.ready a
    slots := refillsFrom fun j s hs => by
      rw [Nat.zero_add]
      refine (hsettled j s hs).refills n fun b hb => ?_
      have := height_lt_of_mem_parts (shape.slot_mem_parts (List.mem_of_getElem? hs) b hb)
      omega
    required := h.required n ▸ h.filled a
    bare := h.init n ▸ h.bare
    unknown := h.known n ▸ hunknown
    separate := ha.separate
    others := fun e he => h.again n a e he (ha.extra e he).2.readable
    whole := h.whole a }

/-- What an object is decoded to can be written and is put together again. -/
theorem finish (h : Stably slack least layout back shape) (hroom : least ≤ room)
    {ms : List (Option String × Draft)} (hms : ∀ m ∈ ms, m.2.Held room) {ending : Option Stop} {a : α}
    (ha : layout.finish (ms, ending) = .ok a) :
    Stands (room + 1 + slack) (shape.encode a) ∧
      ∀ n, (Draft.ofValue (shape.encode a)).height ≤ n + 1 → Refills (back n) shape a := by
  unfold Layout.finish at ha
  obtain ⟨⟨b, seen⟩, hrun, ha⟩ := ok_of_bind ha
  obtain ⟨-, -, ha⟩ := ok_of_bind ha
  split at ha
  · next hall =>
    cases ha
    refine h.stands_refills hroom (fun key hkey => ?_) (h.filling_run hroom hms h.filling_init hrun)
    exact List.contains_iff_mem.mp (List.all_eq_true.mp hall key hkey)
  · cases ha

/-- A record that is an object. What reads it back may count its steps. -/
theorem finishOpen (h : Stably slack least layout back shape) {room : Nat} {d : Draft} {a : α}
    (hroom : least ≤ room - 1) (hd : d.Held room) (ha : layout.decodeOpen d = .ok a) :
    Stands (room + slack) (shape.encode a) ∧
      ∀ n, (Draft.ofValue (shape.encode a)).height ≤ n + 1 → Refills (back n) shape a := by
  unfold Layout.decodeOpen at ha
  obtain ⟨⟨ms, ending⟩, hms, ha⟩ := ok_of_bind ha
  obtain ⟨inner, rfl, hmembers⟩ := hd.members hms
  exact h.finish hroom hmembers ha

theorem decodeOpen (h : Stably slack least layout back shape) {outer : Nat}
    (hle : least ≤ outer - 1 := by omega) :
    Stable slack outer layout.decodeOpen (fun n => (back n).decodeOpen) shape.encode := by
  intro room d a hroom hd ha
  obtain ⟨hstands, hrefills⟩ := h.finishOpen (by omega) hd ha
  exact ⟨hstands, fun n hn => (hrefills n (Nat.le_succ_of_le hn)).recovers_open⟩

theorem decode (h : Stably slack least layout back shape) {outer : Nat}
    (hle : least ≤ outer - 1 := by omega) :
    Stable slack outer layout.decode (fun n => (back n).decode) shape.encode := by
  intro room d a hroom hd ha
  have hinner : least ≤ room - 1 := by omega
  have hback : Stands (room + slack) (shape.encode a) ∧
      ∀ n, (Draft.ofValue (shape.encode a)).height ≤ n + 1 → Refills (back n) shape a := by
    unfold Layout.decode at ha
    split at ha
    · obtain ⟨inner, rfl, hmembers⟩ := hd.obj
      exact h.finish hinner hmembers ha
    · obtain ⟨inner, rfl, hitems⟩ := hd.arr
      obtain ⟨seen, hseen, hfilling⟩ := h.filling_runList hinner hitems
        (fun _ hname => hname) (fun key hkey => .inr (h.reached key hkey).1) h.filling_init ha
      exact h.stands_refills hinner hseen hfilling
    · cases ha
    · cases ha
  exact ⟨hback.1, fun n hn => (hback.2 n (Nat.le_succ_of_le hn)).recovers⟩

end Stably
end
end TypedApi.Json
