import Mathlib.Algebra.Module.Submodule.Lattice
import Mathlib.Data.List.Permutation
import TypedApi.Proofs.Json.CompactReading
import TypedApi.Proofs.SourceType.Stability

/-! Types that were decoded are read back from what they are written as.

The members of a type are those of its form and those of its modifiers. The former are collected
and the latter put in (`decodeWithin_members`), so a type comes back when its form and its rules do,
and by induction on the steps the decoder of types is stable (`stable_decodeWithin`). What a type is
written as may open one container more than the text it was read from, and at the limit there is no
room for that. -/
namespace TypedApi

open Json Json.Fields

namespace SourceType

/-- The rules met so far can be written and are read back, and the other members were read where
`room` containers may open. -/
structure Partial.Settled (room : Nat) (p : Partial) : Prop where
  constraints : ∀ c ∈ p.modifiers.constraints, Stands (room + 1) c.encode ∧
    ∀ buffered, Recovers (Constraints.layout buffered).decode Constraints.encode c
  others : p.others.Held room

theorem settled_decodeOpen {buffered : Bool} {room : Nat} {d : Draft} {p : Partial}
    (hd : d.Held room) (hp : (layout buffered).decodeOpen d = .ok p) :
    ∃ inner, room = inner + 1 ∧ p.Settled inner := by
  unfold Layout.decodeOpen at hp
  obtain ⟨⟨ms, ending⟩, hms, hp⟩ := ok_of_bind hp
  obtain ⟨inner, rfl, hmembers⟩ := hd.members hms
  refine ⟨inner, rfl, ?_⟩
  unfold Layout.finish at hp
  obtain ⟨⟨q, seen⟩, hrun, hp⟩ := ok_of_bind hp
  obtain ⟨-, -, hp⟩ := ok_of_bind hp
  cases hp
  refine Layout.of_run (P := Partial.Settled inner) (D := Draft.Held inner) ?_ ?_ hmembers ?_ hrun
  · intro p key d q hp hd h
    simp only [layout] at h
    split at h
    case h_5 =>
      obtain ⟨o, ho, h⟩ := ok_of_bind h
      cases h
      refine ⟨fun c hc => ?_, hp.others⟩
      obtain ⟨-, hrules⟩ := given_of_option ho hc
      have hrules : (Constraints.layout buffered).decode d = .ok c := by
        cases buffered <;> exact hrules
      have hstable := fun again => Constraints.stable buffered again inner d c (Nat.zero_le _) hd hrules
      exact ⟨(hstable true).1, fun again => (hstable again).2 _ (Nat.le_refl _)⟩
    all_goals
      obtain ⟨v, -, h⟩ := ok_of_bind h
      cases h
      exact ⟨hp.constraints, hp.others⟩
  · intro p key d q hp hd h
    obtain ⟨v, -, h⟩ := ok_of_bind h
    cases h
    exact ⟨hp.constraints, List.forall_mem_cons.mpr ⟨hd, hp.others⟩⟩
  · refine ⟨fun c hc => ?_, List.forall_mem_nil _⟩
    cases hc

/-! ### Reading types back -/

section

variable {seen : List String} (buffered : Bool) (p : Partial)

/-- The members of the form are collected, the last one first. -/
theorem run_others {ms : List (String × Json)} (hk : ∀ m ∈ ms, m.1 ∉ (layout buffered).known)
    (hv : ∀ m ∈ ms, m.2.Readable) (rest : List (Option String × Draft)) :
    (layout buffered).run seen p (Draft.ofMembers ms ++ rest) =
      (layout buffered).run seen
        { p with others := (Buffered.ofMembers ms).reverse ++ p.others } rest := by
  induction ms generalizing p with
  | nil => rfl
  | cons m ms ih =>
    obtain ⟨hm, hk⟩ := List.forall_mem_cons.mp hk
    obtain ⟨hmv, hv⟩ := List.forall_mem_cons.mp hv
    have hother : (layout buffered).other p m.1 (.ofValue m.2) =
        .ok { p with others := (m.1, .ofValue m.2) :: p.others } := by
      show (do let _ ← (Draft.ofValue m.2).value; Except.ok _) = _
      rw [Draft.value_ofValue m.2 hmv]
      rfl
    rw [Draft.ofMembers, List.cons_append, Refills.run_other hm hother, ih _ hk hv,
      Buffered.ofMembers, Buffered.ofMembers, List.map_cons, List.reverse_cons, List.append_assoc]
    rfl

/-- A flag is put in, or there is no member for it. `earlier` are the names that may have come. -/
theorem run_flag (key : String) (v : Bool) (set : Partial → Bool → Partial) (earlier : List String)
    (hs : ∀ k ∈ seen, k ∈ earlier) (hnew : key ∉ earlier := by decide)
    (hk : key ∈ (layout buffered).known := by exact of_decide_eq_true rfl)
    (hput : ∀ d, (layout buffered).put p key d = (do return set p (← Decoder.bool d)) := by
      intros; rfl)
    (hset : set p false = p := by rfl) :
    ∃ seen', (∀ k ∈ seen', k ∈ key :: earlier) ∧ ∀ rest,
      (layout buffered).run seen p (Draft.ofMembers (flag key v) ++ rest) =
        (layout buffered).run seen' (set p v) rest := by
  have hmore : ∀ k ∈ seen, k ∈ key :: earlier := fun k hk => List.mem_cons_of_mem _ (hs k hk)
  cases v with
  | false => exact ⟨seen, hmore, fun rest => by rw [hset]; rfl⟩
  | true =>
    refine ⟨key :: seen, List.forall_mem_cons.mpr ⟨List.mem_cons_self, hmore⟩, fun rest => ?_⟩
    refine Refills.run_known hk (fun hc => hnew (hs key hc)) ?_ rest
    rw [hput]
    rfl

theorem run_present {β : Type} (key : String) (o : Option β) {decode : Decoder β} {encode : β → Json}
    (set : Partial → Option β → Partial) (earlier : List String) (hs : ∀ k ∈ seen, k ∈ earlier)
    (h : ∀ b ∈ o, Recovers decode encode b) (hn : ∀ b, encode b ≠ .null := by intro _ h; cases h)
    (hnew : key ∉ earlier := by decide)
    (hk : key ∈ (layout buffered).known := by exact of_decide_eq_true rfl)
    (hput : ∀ d, (layout buffered).put p key d = (do return set p (← Decoder.option decode d)) := by
      intros; rfl)
    (hset : set p none = p := by rfl) :
    ∃ seen', (∀ k ∈ seen', k ∈ key :: earlier) ∧ ∀ rest,
      (layout buffered).run seen p (Draft.ofMembers (present key o encode) ++ rest) =
        (layout buffered).run seen' (set p o) rest := by
  have hmore : ∀ k ∈ seen, k ∈ key :: earlier := fun k hk => List.mem_cons_of_mem _ (hs k hk)
  cases o with
  | none => exact ⟨seen, hmore, fun rest => by rw [hset]; rfl⟩
  | some b =>
    refine ⟨key :: seen, List.forall_mem_cons.mpr ⟨List.mem_cons_self, hmore⟩, fun rest => ?_⟩
    refine Refills.run_known hk (fun hc => hnew (hs key hc)) ?_ rest
    rw [hput, (h b rfl).option (hn b)]
    rfl

/-- The modifiers are put in one after the other. -/
theorem run_modifiers (others : Buffered) (t : SourceType)
    (hrules : ∀ c ∈ t.constraints,
      Recovers (Constraints.layout buffered).decode Constraints.encode c) :
    ∃ seen, (layout buffered).run [] { others := others } (Draft.ofMembers t.modifiers) =
      .ok (⟨{ t with form := .any }, others⟩, seen) := by
  obtain ⟨form, nullable, optional, name, description, constraints⟩ := t
  have hdecode : ∀ c ∈ constraints, Recovers
      (if buffered then Constraints.decodeBuffered else Constraints.decode) Constraints.encode c := by
    cases buffered <;> exact hrules
  obtain ⟨seen₁, hseen₁, hrun₁⟩ := run_flag buffered { others } "nullable" nullable
    (fun p v => { p with modifiers := { p.modifiers with nullable := v } }) [] (List.forall_mem_nil _)
  obtain ⟨seen₂, hseen₂, hrun₂⟩ := run_flag buffered ⟨{ form := .any, nullable }, others⟩
    "optional" optional
    (fun p v => { p with modifiers := { p.modifiers with optional := v } }) _ hseen₁
  obtain ⟨seen₃, hseen₃, hrun₃⟩ := run_present buffered
    ⟨{ form := .any, nullable, optional }, others⟩ "name" name
    (fun p v => { p with modifiers := { p.modifiers with name := v } }) _ hseen₂ fun s _ => .text s
  obtain ⟨seen₄, hseen₄, hrun₄⟩ := run_present buffered
    ⟨{ form := .any, nullable, optional, name }, others⟩ "description" description
    (fun p v => { p with modifiers := { p.modifiers with description := v } }) _ hseen₃
    fun s _ => .text s
  obtain ⟨seen₅, -, hrun₅⟩ := run_present buffered
    ⟨{ form := .any, nullable, optional, name, description }, others⟩ "constraints" constraints
    (fun p v => { p with modifiers := { p.modifiers with constraints := v } }) _ hseen₄ hdecode
    fun c => c.encode_eq_shape ▸ Shape.ne_null _ _
  refine ⟨seen₅, ?_⟩
  rw [modifiers_eq]
  simp only [ofMembers_append]
  rw [hrun₁, hrun₂, hrun₃, hrun₄, ← List.append_nil (Draft.ofMembers (present "constraints" _ _)), hrun₅]
  rfl

end

/-- The modifiers come back, and the other members with them. -/
theorem decodeOpen_members {buffered : Bool} {ms : List (String × Json)} {t : SourceType}
    (hk : ∀ m ∈ ms, m.1 ∉ (layout buffered).known) (hv : ∀ m ∈ ms, m.2.Readable)
    (hrules : ∀ c ∈ t.constraints,
      Recovers (Constraints.layout buffered).decode Constraints.encode c) :
    (layout buffered).decodeOpen (.ofValue (.obj (ms ++ t.modifiers))) =
      .ok ⟨{ t with form := .any }, (Buffered.ofMembers ms).reverse⟩ := by
  obtain ⟨seen, hrun⟩ := run_modifiers buffered (Buffered.ofMembers ms).reverse t hrules
  have hall : (layout buffered).run [] {} (Draft.ofMembers (ms ++ t.modifiers)) =
      .ok (⟨{ t with form := .any }, (Buffered.ofMembers ms).reverse⟩, seen) := by
    rw [ofMembers_append, run_others buffered _ hk hv, List.append_nil, hrun]
  show (do
    let q ← (layout buffered).run [] {} (Draft.ofMembers (ms ++ t.modifiers))
    Draft.ended none
    if (layout buffered).required.all q.2.contains then return q.1 else .error .mismatch) = _
  rw [hall]
  rfl

/-- A type is decoded from the members of its form and those of its modifiers. -/
theorem decodeWithin_members {buffered : Bool} {n : Nat} {ms : List (String × Json)}
    {t : SourceType} (hk : ∀ m ∈ ms, m.1 ∉ (layout buffered).known) (hv : ∀ m ∈ ms, m.2.Readable)
    (hrules : ∀ c ∈ t.constraints,
      Recovers (Constraints.layout buffered).decode Constraints.encode c)
    (hform : Form.ofMembers (decodeWithin true n) (.ofMembers ms) = .ok t.form) :
    decodeWithin buffered (n + 1) (.ofValue (.obj (ms ++ t.modifiers))) = .ok t := by
  rw [decodeWithin, decodeOpen_members hk hv hrules]
  show (do
    let form ← (Form.ofMembers (decodeWithin true n)
      (Buffered.ofMembers ms).reverse.reverse).mapError fun _ => Fault.mismatch
    return { t with form := form }) = _
  rw [List.reverse_reverse, hform]
  cases t
  rfl

theorem decodeWithin_encode {t : SourceType} {n : Nat} {buffered : Bool} (hv : t.encode.Readable)
    (hrules : ∀ c ∈ t.constraints,
      Recovers (Constraints.layout buffered).decode Constraints.encode c)
    (hform : Form.ofMembers (decodeWithin true n) (.ofMembers t.form.members) = .ok t.form) :
    decodeWithin buffered (n + 1) (.ofValue t.encode) = .ok t := by
  have hunknown : ∀ key ∈ (("kind", some (.str t.form.kind)) :: t.form.slots).map (·.1),
      key ∉ (layout buffered).known := by
    cases t.form <;> exact of_decide_eq_true rfl
  rw [encode_eq] at hv ⊢
  exact decodeWithin_members
    (fun m hm => hunknown m.1 (mem_keys_ofSlots (List.mem_map_of_mem hm)))
    (fun m hm => hv.members m (List.mem_append_left _ hm)) hrules hform

theorem nodup_keys (t : SourceType) : ((("kind", some (.str t.form.kind)) ::
    (t.form.slots ++ t.slots.map Slot.entry)).map (·.1)).Nodup := by
  cases t.form <;> exact of_decide_eq_true rfl

/-- What stands in a type is a part of what the type is written as. -/
theorem mem_parts_encode {t : SourceType} {s : String × Option Json}
    (hs : s ∈ t.form.slots ++ t.slots.map Slot.entry) : ∀ v ∈ s.2, v ∈ parts t.encode := by
  intro v hv
  rw [encode_eq_ofSlots]
  refine List.mem_map.mpr ⟨(s.1, v), List.mem_filterMap.mpr ⟨s, List.mem_cons_of_mem _ hs, ?_⟩, rfl⟩
  rw [show s.2 = some v from hv]
  rfl

/-- A type can be written when what stands in it can. -/
theorem stands_encode {room : Nat} {t : SourceType}
    (h : ∀ s ∈ t.form.slots ++ t.slots.map Slot.entry, ∀ v ∈ s.2, Stands room v) :
    Stands (room + 1) t.encode := by
  rw [encode_eq_ofSlots]
  refine .obj (nodup_keys_ofSlots t.nodup_keys) fun m hm => ?_
  obtain ⟨s, hs, hm⟩ := List.mem_filterMap.mp hm
  obtain ⟨v, hv, rfl⟩ := Option.map_eq_some_iff.mp hm
  rcases List.mem_cons.mp hs with rfl | hs
  · cases hv
    exact ⟨.str _, Nat.zero_le _⟩
  · exact h s hs v hv

/-- The modifiers can be written when the rules can. -/
theorem stands_slots {room : Nat} {t : SourceType}
    (h : ∀ c ∈ t.constraints, Stands room c.encode) :
    ∀ s ∈ t.slots.map Slot.entry, ∀ v ∈ s.2, Stands room v := by
  refine List.forall_mem_map.mpr fun s hs v hv => ?_
  obtain ⟨b, hb, rfl⟩ := Option.map_eq_some_iff.mp hv
  simp only [slots, List.mem_cons, List.not_mem_nil, or_false] at hs
  rcases hs with rfl | rfl | rfl | rfl | rfl
  · exact ⟨.bool b, Nat.zero_le _⟩
  · exact ⟨.bool b, Nat.zero_le _⟩
  · exact ⟨.str b, Nat.zero_le _⟩
  · exact ⟨.str b, Nat.zero_le _⟩
  · exact h b hb

/-- A decoder of types, whatever its steps, gives types that are read back by any decoder with steps
enough. -/
theorem stable_decodeWithin (fuel : Nat) (buffered again : Bool) :
    Stable 1 0 (decodeWithin buffered fuel) (decodeWithin again) encode := by
  induction fuel generalizing buffered again with
  | zero =>
    intro room d t _ _ h
    cases h
  | succ fuel ih =>
    intro room d t _ hd h
    obtain ⟨p, f, hp, hf, rfl⟩ := decodeWithin_ok h
    obtain ⟨inner, rfl, hp⟩ := settled_decodeOpen hd hp
    have hothers : Buffered.Held inner p.others.reverse :=
      fun m hm => hp.others m (List.mem_reverse.mp hm)
    have hform := Form.settled_ofMembers (ih true true) hothers hf
    have hstands : Stands (inner + 1 + 1) (encode { p.modifiers with form := f }) := stands_encode
      (List.forall_mem_append.mpr ⟨hform.stands, stands_slots fun c hc => (hp.constraints c hc).1⟩)
    refine ⟨hstands, fun n hn => ?_⟩
    cases n with
    | zero =>
      rw [encode_eq] at hn
      cases hn
    | succ n =>
      refine decodeWithin_encode hstands.readable (fun c hc => (hp.constraints c hc).2 again) ?_
      refine hform.returns n fun s hs v hv => ?_
      have := height_lt_of_mem_parts (mem_parts_encode (t := { p.modifiers with form := f })
        (List.mem_append_left _ hs) v hv)
      omega

theorem stable_decode : Stable 1 0 decode (fun _ => decode) encode := by
  intro room d t hroom hd h
  obtain ⟨hstands, hreturns⟩ := stable_decodeWithin (d.height + 1) false false room d t hroom hd h
  refine ⟨hstands, fun _ _ => ?_⟩
  have hback := hreturns _ (Nat.le_succ _)
  rwa [Recovers] at hback ⊢

/-- A type that was decoded comes back from the value that it is written as. That value opens at
most one container more than a text may, and when it keeps to the limit and its numbers read back the
type comes back from either of its texts. -/
theorem decode_encode_of_run {text : String} {t : SourceType} (h : decode.run text = .ok t) :
    decode (.ofValue t.encode) = .ok t ∧ t.encode.depth ≤ nestingLimit + 1 ∧
      (t.encode.depth ≤ nestingLimit → (∀ n ∈ t.encode.numbers, n.ReadsBack) →
        decode.run t.encode.compact = .ok t ∧ decode.run t.encode.pretty = .ok t) := by
  obtain ⟨hstands, hreturns⟩ := stable_decode.run (Nat.zero_le _) h
  have hback : decode (.ofValue t.encode) = .ok t := hreturns _ (Nat.le_refl _)
  refine ⟨hback, hstands.depth, fun hdepth hn => ?_⟩
  rw [run_compact _ hstands.readable hdepth hn, run_pretty _ hstands.readable hdepth hn]
  exact ⟨hback, hback⟩

/-- Properties left out, a form given by its place and a null for nothing. -/
def bareText : String :=
  "\x7b\"element\":\x7b\"kind\":6,\"optional\":true\x7d,\"kind\":\"array\",\"name\":null\x7d"

def bareType : SourceType :=
  ofForm (.array { form := .object [] none .strip, optional := true })

theorem decode_encode_of_run_bare :
    decode.run bareText = .ok bareType ∧ decode (.ofValue bareType.encode) = .ok bareType ∧
      bareType.encode.depth ≤ nestingLimit + 1 ∧
      decode.run bareType.encode.compact = .ok bareType ∧
      decode.run bareType.encode.pretty = .ok bareType := by
  have h : decode.run bareText = .ok bareType := by cbv
  obtain ⟨hvalue, hdepth, htexts⟩ := decode_encode_of_run h
  exact ⟨h, hvalue, hdepth, htexts (by decide) (by decide)⟩

/-! ### At the limit -/

/-- A type inside arrays. -/
def nestArrays (t : SourceType) : Nat → SourceType
  | 0 => t
  | n + 1 => ofForm (.array (nestArrays t n))

/-- What a type inside arrays is written as. -/
def nestJson (v : Json) : Nat → Json
  | 0 => v
  | n + 1 => .obj [("kind", .str "array"), ("element", nestJson v n)]

theorem encode_nestArrays (t : SourceType) (n : Nat) :
    (nestArrays t n).encode = nestJson t.encode n := by
  induction n with
  | zero => rfl
  | succ n ih =>
    rw [nestJson, ← ih]
    rfl

theorem readable_nestJson {v : Json} (hv : v.Readable) (n : Nat) : (nestJson v n).Readable := by
  induction n with
  | zero => exact hv
  | succ n ih =>
    exact .obj (of_decide_eq_true rfl)
      (List.forall_mem_cons.mpr ⟨.str _, List.forall_mem_singleton.mpr ih⟩)

theorem depth_nestJson (v : Json) (n : Nat) : (nestJson v n).depth = n + v.depth := by
  induction n with
  | zero => exact (Nat.zero_add _).symm
  | succ n ih =>
    simp only [nestJson, depth, depthMembers, ih]
    omega

theorem numbers_nestJson (v : Json) (n : Nat) : (nestJson v n).numbers = v.numbers := by
  induction n with
  | zero => rfl
  | succ n ih => simp only [nestJson, numbers, numbersMembers, ih, List.nil_append, List.append_nil]

theorem height_nestJson {v : Json} (hv : 1 ≤ (Draft.ofValue v).height) (n : Nat) :
    (Draft.ofValue (nestJson v n)).height = (Draft.ofValue v).height + n := by
  induction n with
  | zero => rfl
  | succ n ih =>
    simp only [nestJson, Draft.ofValue, Draft.ofMembers, Draft.height, Draft.heightMembers, ih]
    omega

theorem decodeWithin_nestJson {v : Json} {t : SourceType} (hv : v.Readable) {fuel : Nat}
    (h : ∀ buffered, decodeWithin buffered fuel (.ofValue v) = .ok t) (n : Nat) (buffered : Bool) :
    decodeWithin buffered (fuel + n) (.ofValue (nestJson v n)) = .ok (nestArrays t n) := by
  induction n generalizing buffered with
  | zero => exact h buffered
  | succ n ih =>
    refine decodeWithin_members (t := nestArrays t (n + 1)) (of_decide_eq_true rfl)
      (List.forall_mem_cons.mpr ⟨.str _, List.forall_mem_singleton.mpr (readable_nestJson hv n)⟩)
      (fun c hc => (by cases hc)) ?_
    show (do return Form.array (← decodeWithin true (fuel + n) (.ofValue (nestJson v n)))) = _
    rw [ih]
    rfl

/-- What is refused where it stands is refused inside arrays. -/
theorem value_nestJson {v : Json} {room : Nat} (hv : (Draft.within room v).value = .error .malformed)
    (n : Nat) : (Draft.within (room + n) (nestJson v n)).value = .error .malformed := by
  induction n with
  | zero => exact hv
  | succ n ih =>
    have hmembers : Draft.memberValues [(some "kind", .str "array"),
        (some "element", .within (room + n) (nestJson v n))] = .error .malformed := by
      rw [Draft.memberValues, Draft.memberValues, ih]
      rfl
    show (Draft.obj [(some "kind", .str "array"),
      (some "element", .within (room + n) (nestJson v n))] none).value = _
    rw [Draft.value, hmembers]
    rfl

theorem decodeWithin_refused {buffered : Bool} {fuel : Nat} {d : Draft}
    (hd : d.value = .error .malformed) :
    decodeWithin buffered (fuel + 1)
      (.obj [(some "kind", .str "array"), (some "element", d)] none) = .error .malformed := by
  have helement : ∀ p, (layout buffered).run [] p [(some "element", d)] = .error .malformed := by
    intro p
    rw [Layout.run, if_neg (of_decide_eq_true rfl)]
    show (do let q ← (do let _ ← d.value; Except.ok _); Layout.run _ _ q []) = _
    rw [hd]
    rfl
  have hopen : (layout buffered).decodeOpen
      (.obj [(some "kind", .str "array"), (some "element", d)] none) = .error .malformed := by
    show (do
      let q ← (layout buffered).run [] {} [(some "kind", .str "array"), (some "element", d)]
      Draft.ended none
      if (layout buffered).required.all q.2.contains then return q.1 else .error .mismatch) = _
    rw [Refills.run_other (of_decide_eq_true rfl) rfl, helement]
    rfl
  rw [decodeWithin, hopen]
  rfl

def bareObject : Json := .obj [("kind", .str "object")]

/-- A bare object inside as many arrays as a text may have around it. -/
def deepText : String := (nestJson bareObject 126).compact

def deepType : SourceType := nestArrays (ofForm (.object [] none .strip)) 126

/-- The list of properties that such a type is written with is beyond the limit. -/
theorem decode_encode_deep :
    decode.run deepText = .ok deepType ∧ decode.run deepType.encode.compact = .error .malformed := by
  have hbare : bareObject.Readable :=
    .obj (of_decide_eq_true rfl) (List.forall_mem_singleton.mpr (.str _))
  have hobject : (ofForm (.object [] none .strip)).encode.Readable := by
    refine .obj (of_decide_eq_true rfl) (List.forall_mem_cons.mpr ⟨.str _,
      List.forall_mem_cons.mpr ⟨.arr (List.forall_mem_nil _), List.forall_mem_singleton.mpr (.str _)⟩⟩)
  constructor
  · have hdecode : ∀ buffered, decodeWithin buffered 3 (.ofValue bareObject) =
        .ok (ofForm (.object [] none .strip)) := fun _ =>
      decodeWithin_members (t := ofForm (.object [] none .strip)) (of_decide_eq_true rfl)
        hbare.members (fun c hc => (by cases hc)) rfl
    have hdepth : (nestJson bareObject 126).depth ≤ nestingLimit := by
      rw [depth_nestJson]
      exact of_decide_eq_true rfl
    have hnumbers : ∀ n ∈ (nestJson bareObject 126).numbers, n.ReadsBack := by
      rw [numbers_nestJson]
      exact List.forall_mem_nil _
    rw [deepText, run_compact _ (readable_nestJson hbare 126) hdepth hnumbers, decode,
      height_nestJson (of_decide_eq_true rfl)]
    exact decodeWithin_nestJson hbare hdecode 126 false
  · have hproperties : (Draft.within 1 (ofForm (.object [] none .strip)).encode).value =
        .error .malformed := rfl
    rw [deepType, encode_nestArrays, run_compact_eq _ (readable_nestJson hobject 126),
      run_within _ (readable_nestJson hobject 126)]
    exact decodeWithin_refused (value_nestJson hproperties 125)

end SourceType

end TypedApi
