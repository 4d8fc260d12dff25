import TypedApi.Proofs.Json.Nesting
import TypedApi.Proofs.Json.Recovery

/-! Decoding what a decoder gave.

A decoder is `Stable` when what it gives can be written where it was read, and comes back from
what it is written as. There is one rule for each decoder of the library; a decoder that is
stable on every draft has a text for everything that it reads (`Stable.run`).

Decoders of recursive types count their steps, so what reads a value back is a family `back` of
decoders, one for each number of steps. -/
namespace TypedApi.Json

/-- A draft that is read from a text where `room` containers may open. -/
structure Draft.Held (room : Nat) (d : Draft) : Prop where
  sound : ∃ bound, d.Sound bound
  depth : d.depth ≤ room

/-- A value that can be written where `room` containers may open. -/
structure Stands (room : Nat) (v : Json) : Prop where
  readable : v.Readable
  depth : v.depth ≤ room

section
variable {α : Type}

/-- With steps enough for what `a` is written as, it comes back. -/
def Returns (back : Nat → Decoder α) (encode : α → Json) (a : α) : Prop :=
  ∀ n, (Draft.ofValue (encode a)).height ≤ n → Recovers (back n) encode a

/-- What is read where at least `least` containers may open is written with at most `slack` more
and comes back. -/
def Stable (slack least : Nat) (decode : Decoder α) (back : Nat → Decoder α) (encode : α → Json) :
    Prop :=
  ∀ room d a, least ≤ room → d.Held room → decode d = .ok a →
    Stands (room + slack) (encode a) ∧ Returns back encode a

end

/-! ### Room -/

theorem Stands.mono {room more : Nat} {v : Json} (h : Stands room v) (hle : room ≤ more) :
    Stands more v :=
  ⟨h.readable, Nat.le_trans h.depth hle⟩

theorem Stands.arr {room : Nat} {xs : List Json} (h : ∀ x ∈ xs, Stands room x) :
    Stands (room + 1) (.arr xs) where
  readable := .arr fun x hx => (h x hx).readable
  depth := Nat.succ_le_succ (depthItems_le_iff.mpr fun x hx => (h x hx).depth)

theorem Stands.obj {room : Nat} {ms : List (String × Json)} (hn : (ms.map (·.1)).Nodup)
    (h : ∀ m ∈ ms, Stands room m.2) : Stands (room + 1) (.obj ms) where
  readable := .obj hn fun m hm => (h m hm).readable
  depth := Nat.succ_le_succ (depthMembers_le_iff.mpr fun m hm => (h m hm).depth)

theorem Draft.Held.arr {room : Nat} {xs : List Draft} {ending : Option Stop}
    (h : (Draft.arr xs ending).Held room) :
    ∃ inner, room = inner + 1 ∧ ∀ x ∈ xs, x.Held inner := by
  obtain ⟨⟨bound, hsound⟩, hdepth⟩ := h
  rw [Draft.depth] at hdepth
  refine ⟨room - 1, by omega, fun x hx => ⟨⟨bound, hsound.items x hx⟩, ?_⟩⟩
  have := Draft.depth_le_of_mem_items hx
  omega

theorem Draft.Held.obj {room : Nat} {ms : List (Option String × Draft)} {ending : Option Stop}
    (h : (Draft.obj ms ending).Held room) :
    ∃ inner, room = inner + 1 ∧ ∀ m ∈ ms, m.2.Held inner := by
  obtain ⟨⟨bound, hsound⟩, hdepth⟩ := h
  rw [Draft.depth] at hdepth
  refine ⟨room - 1, by omega, fun m hm => ⟨⟨bound, hsound.members m hm⟩, ?_⟩⟩
  have := Draft.depth_le_of_mem_members hm
  omega

theorem Draft.Held.items {room : Nat} {d : Draft} {xs : List Draft} {ending : Option Stop}
    (hd : d.Held room) (h : d.items = .ok (xs, ending)) :
    ∃ inner, room = inner + 1 ∧ ∀ x ∈ xs, x.Held inner := by
  unfold Draft.items at h
  split at h
  · cases h
    exact hd.arr
  · cases h
  · cases h

theorem Draft.Held.members {room : Nat} {d : Draft} {ms : List (Option String × Draft)}
    {ending : Option Stop} (hd : d.Held room) (h : d.members = .ok (ms, ending)) :
    ∃ inner, room = inner + 1 ∧ ∀ m ∈ ms, m.2.Held inner := by
  unfold Draft.members at h
  split at h
  · cases h
    exact hd.obj
  · cases h
  · cases h

theorem held_reading (text : String) : (Reading.ofText text).draft.Held nestingLimit where
  sound := ⟨_, sound_reading text⟩
  depth := depth_reading text

/-! ### Decoders -/

namespace Stable

variable {α : Type} {slack least : Nat} {decode : Decoder α} {back : Nat → Decoder α}
  {encode : α → Json}

theorem text : Stable slack 0 .text (fun _ => .text) .str :=
  fun _ _ s _ _ _ => ⟨⟨.str s, Nat.zero_le _⟩, fun _ _ => .text s⟩

theorem bool : Stable slack 0 .bool (fun _ => .bool) .bool :=
  fun _ _ b _ _ _ => ⟨⟨.bool b, Nat.zero_le _⟩, fun _ _ => .bool b⟩

theorem number : Stable slack 0 .number (fun _ => .number) .num := by
  intro room d n _ hd h
  obtain ⟨bound, hsound⟩ := hd.sound
  exact ⟨⟨.num (Keeps.number d n hsound h), Nat.zero_le _⟩, fun _ _ => .number n⟩

theorem nat : Stable slack 0 .nat (fun _ => .nat) .ofNat := by
  intro room d n _ hd h
  obtain ⟨bound, hsound⟩ := hd.sound
  have hn : n < 2 ^ 64 := Keeps.nat d n hsound h
  refine ⟨⟨.num ?_, Nat.zero_le _⟩, fun _ _ => .nat hn⟩
  show -(2 ^ 63) ≤ (n : Int) ∧ (n : Int) < 2 ^ 64
  omega

theorem choice {named? : String → Option α} {name : α → String}
    (h : ∀ a, named? (name a) = some a) (buffered again : Bool) :
    Stable slack 0 (.choice buffered named?) (fun _ => .choice again named?)
      fun a => .str (name a) :=
  fun _ _ a _ _ _ => ⟨⟨.str _, Nat.zero_le _⟩, fun _ _ => .choice (h a) again⟩

theorem value : Stable slack 0 .value (fun _ => .value) id := by
  intro room d v _ hd h
  obtain ⟨bound, hsound⟩ := hd.sound
  have hv : v.Readable := Keeps.value d v hsound h
  have hdepth : v.depth ≤ d.depth := depth_of_value d h
  exact ⟨⟨hv, Nat.le_trans hdepth (Nat.le_trans hd.depth (Nat.le_add_right ..))⟩, fun _ _ => .value hv⟩

theorem list (h : Stable slack 0 decode back encode) :
    Stable slack 0 (.list decode) (fun n => .list (back n)) fun as => .arr (as.map encode) := by
  intro room d as _ hd has
  obtain ⟨xs, ending, hxs, -, hfrom⟩ := list_ok has
  obtain ⟨inner, rfl, hitems⟩ := hd.items hxs
  have heach : ∀ a ∈ as, Stands (inner + slack) (encode a) ∧ Returns back encode a := by
    intro a ha
    obtain ⟨x, hx, hxa⟩ := hfrom a ha
    exact h inner x a (Nat.zero_le _) (hitems x hx) hxa
  constructor
  · rw [Nat.add_right_comm]
    exact .arr (List.forall_mem_map.mpr fun a ha => (heach a ha).1)
  · intro n hn
    refine .list fun a ha => (heach a ha).2 n (Nat.le_trans (Nat.le_of_lt ?_) hn)
    exact height_lt_of_mem_parts (v := .arr (as.map encode)) (List.mem_map_of_mem ha)

theorem map_within (h : Stable slack least decode back encode) {outer : Nat}
    (hle : least ≤ outer - 1) :
    Stable slack outer (.map decode) (fun n => .map (back n))
      fun es => .obj (es.map fun e => (e.1, encode e.2)) := by
  intro room d es hroom hd hes
  obtain ⟨ms, ending, hms, hkeys, hfrom⟩ := map_ok hes
  obtain ⟨inner, rfl, hmembers⟩ := hd.members hms
  have heach : ∀ e ∈ es, Stands (inner + slack) (encode e.2) ∧ Returns back encode e.2 := by
    intro e he
    obtain ⟨m, hm, hme⟩ := hfrom e he
    exact h inner m.2 e.2 (by omega) (hmembers m hm) hme
  constructor
  · rw [Nat.add_right_comm]
    refine .obj ?_ (List.forall_mem_map.mpr fun e he => (heach e he).1)
    rwa [List.map_map]
  · intro n hn
    refine .map hkeys fun e he => (heach e he).2 n (Nat.le_trans (Nat.le_of_lt ?_) hn)
    refine height_lt_of_mem_parts (v := .obj (es.map fun e => (e.1, encode e.2))) ?_
    exact List.mem_map.mpr
      ⟨(e.1, encode e.2), List.mem_map_of_mem (f := fun e => (e.1, encode e.2)) he, rfl⟩

theorem map (h : Stable slack 0 decode back encode) :
    Stable slack 0 (.map decode) (fun n => .map (back n))
      fun es => .obj (es.map fun e => (e.1, encode e.2)) :=
  h.map_within (Nat.zero_le _)

/-- A list of values is written as it is. -/
theorem values : Stable slack 0 (.list .value) (fun _ => .list .value) .arr := by
  have h : Stable slack 0 (.list .value) (fun _ => .list .value) fun vs => .arr (vs.map id) :=
    value.list
  simpa only [List.map_id] using h

/-- A table of values is written as it is. -/
theorem fields : Stable slack 0 (.map .value) (fun _ => .map .value) .obj := by
  have h : Stable slack 0 (.map .value) (fun _ => .map .value)
      fun es => .obj (es.map fun e => (e.1, id e.2)) := value.map
  simpa only [id, Prod.mk.eta, List.map_id'] using h

theorem texts : Stable slack 0 (.list .text) (fun _ => .list .text) Fields.texts := text.list

/-- What a whole text is read as is read again from what it is written as, the room allowing. -/
theorem run (h : Stable slack least decode back encode) (hleast : least ≤ nestingLimit)
    {t : String} {a : α} (ha : decode.run t = .ok a) :
    Stands (nestingLimit + slack) (encode a) ∧ Returns back encode a :=
  h nestingLimit _ _ hleast (held_reading t) (draft_of_run ha)

end Stable
end TypedApi.Json
