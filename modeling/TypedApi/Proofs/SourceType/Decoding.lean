import TypedApi.Proofs.SourceType.Clean
import TypedApi.Proofs.SourceType.Described

/-! Decoded source types are clean. -/
namespace TypedApi

open Json (Draft Decoder Fault Keeps Layout Number ok_of_bind)

variable {bound : Nat}

namespace Constraints

theorem clean_empty : Clean {} where
  numbers := nofun
  sizes := nofun
  default := nofun
  messages := List.nodup_nil

/-- Putting a member in keeps rules clean. -/
theorem clean_put {c c' : Constraints} {buffered : Bool} {key : String} {d : Draft} (hc : c.Clean)
    (hd : d.Sound bound) (h : put buffered c key d = .ok c') : c'.Clean := by
  have hnumbers := hc.numbers
  have hsizes := hc.sizes
  simp only [numbers, List.forall_mem_append, Option.mem_toList] at hnumbers
  simp only [sizes, List.forall_mem_append, Option.mem_toList] at hsizes
  unfold put at h
  split at h
  case h_1 | h_2 | h_3 | h_4 | h_5 =>
    obtain ⟨v, hv, h⟩ := ok_of_bind h
    cases h
    have hv : ∀ n ∈ v, n.Readable := Keeps.number.option d v hd hv
    refine ⟨?_, hc.sizes, hc.default, hc.messages⟩
    simp only [numbers, List.forall_mem_append, Option.mem_toList]
    grind
  case h_7 | h_8 | h_15 | h_16 =>
    obtain ⟨v, hv, h⟩ := ok_of_bind h
    cases h
    have hv : ∀ n ∈ v, n < 2 ^ 64 := Keeps.nat.option d v hd hv
    refine ⟨hc.numbers, ?_, hc.default, hc.messages⟩
    simp only [sizes, List.forall_mem_append, Option.mem_toList]
    grind
  case h_20 =>
    obtain ⟨v, hv, h⟩ := ok_of_bind h
    cases h
    exact ⟨hc.numbers, hc.sizes, Keeps.given d v hd hv, hc.messages⟩
  case h_21 =>
    obtain ⟨v, hv, h⟩ := ok_of_bind h
    cases h
    exact ⟨hc.numbers, hc.sizes, hc.default, (Keeps.trivial.map d v hd hv).1⟩
  case h_22 =>
    cases h
    exact hc
  all_goals
    obtain ⟨v, -, h⟩ := ok_of_bind h
    cases h
    exact ⟨hc.numbers, hc.sizes, hc.default, hc.messages⟩

theorem clean_decode : Keeps bound decode Clean :=
  (Layout.Keeps.ignoring clean_empty fun _ _ _ _ hc hd h => clean_put hc hd h).decode

theorem clean_decodeBuffered : Keeps bound decodeBuffered Clean :=
  (Layout.Keeps.ignoring clean_empty fun _ _ _ _ hc hd h => clean_put hc hd h).decode

end Constraints

/-! ### Members that were read as values -/

/-- The drafts of the members are sound. -/
def Buffered.Sound (bound : Nat) (ms : Buffered) : Prop := ∀ m ∈ ms, m.2.Sound bound

namespace Buffered

variable {ms : Buffered} {key : String} {α : Type} {decode : Decoder α} {P : α → Prop} {a : α}

theorem Sound.need (hm : ms.Sound bound) (hk : Keeps bound decode P)
    (h : ms.need key decode = .ok a) : P a := by
  obtain ⟨m, hmem, h⟩ := need_ok h
  exact hk _ _ (hm m hmem) h

theorem Sound.withDefault (hm : ms.Sound bound) {default : α} (hdefault : P default)
    (hk : Keeps bound decode P) (h : ms.withDefault key default decode = .ok a) : P a := by
  rcases withDefault_ok h with rfl | ⟨m, hmem, h⟩
  · exact hdefault
  · exact hk _ _ (hm m hmem) h

end Buffered

/-! ### Parts of a form -/

theorem SourceType.clean_default : (default : SourceType).Clean := by
  refine .intro ⟨fun c hc => ?_, True.intro⟩ fun u hu => ?_
  · cases hc
  · cases hu

theorem EnumMember.clean_decode :
    Keeps bound EnumMember.layout.decode fun m => m.value.Readable := by
  refine Layout.Keeps.decode (.ignoring .null ?_)
  intro m key d b hm hd h
  simp only [layout] at h
  split at h
  · obtain ⟨v, -, h⟩ := ok_of_bind h
    cases h
    exact hm
  · obtain ⟨v, hv, h⟩ := ok_of_bind h
    cases h
    exact Keeps.value d v hd hv

theorem Discriminant.clean_decode :
    Keeps bound Discriminant.layout.decode fun x => (x.mapping.map (·.1)).Nodup := by
  refine Layout.Keeps.decode (.ignoring List.nodup_nil ?_)
  intro x key d b hx hd h
  simp only [layout] at h
  split at h
  · obtain ⟨v, -, h⟩ := ok_of_bind h
    cases h
    exact hx
  · obtain ⟨v, hv, h⟩ := ok_of_bind h
    cases h
    exact (Keeps.nat.map d v hd hv).1

variable {self : Decoder SourceType}

theorem Property.clean_decode (hself : Keeps bound self SourceType.Clean) :
    Keeps bound (Property.layout self).decode fun p => p.Clean ∧ p.type.Clean := by
  refine Layout.Keeps.decode (.ignoring ⟨⟨?_, ?_⟩, SourceType.clean_default⟩ ?_)
  · intro c hc
    cases hc
  · intro v hv
    cases hv
  intro p key d b hp hd h
  simp only [layout] at h
  split at h
  case h_2 =>
    obtain ⟨t, ht, h⟩ := ok_of_bind h
    cases h
    exact ⟨⟨hp.1.constraints, hp.1.example?⟩, hself d t hd ht⟩
  case h_7 =>
    obtain ⟨v, hv, h⟩ := ok_of_bind h
    cases h
    exact ⟨⟨hp.1.constraints, Keeps.given d v hd hv⟩, hp.2⟩
  case h_8 =>
    obtain ⟨c, hc, h⟩ := ok_of_bind h
    cases h
    exact ⟨⟨Constraints.clean_decodeBuffered.option d c hd hc, hp.1.example?⟩, hp.2⟩
  all_goals
    obtain ⟨v, -, h⟩ := ok_of_bind h
    cases h
    exact ⟨⟨hp.1.constraints, hp.1.example?⟩, hp.2⟩

theorem TupleElement.clean_decode (hself : Keeps bound self SourceType.Clean) :
    Keeps bound (TupleElement.layout self).decode fun e => e.type.Clean := by
  refine Layout.Keeps.decode (.ignoring SourceType.clean_default ?_)
  intro e key d b he hd h
  simp only [layout] at h
  split at h
  · obtain ⟨t, ht, h⟩ := ok_of_bind h
    cases h
    exact hself d t hd ht
  · obtain ⟨v, -, h⟩ := ok_of_bind h
    cases h
    exact he
  · obtain ⟨v, -, h⟩ := ok_of_bind h
    cases h
    exact he

theorem IndexSignature.clean_decode (hself : Keeps bound self SourceType.Clean) :
    Keeps bound (IndexSignature.layout self).decode fun i => i.key.Clean ∧ i.value.Clean := by
  refine Layout.Keeps.decode (.ignoring ⟨SourceType.clean_default, SourceType.clean_default⟩ ?_)
  intro i key d b hi hd h
  simp only [layout] at h
  split at h
  · obtain ⟨t, ht, h⟩ := ok_of_bind h
    cases h
    exact ⟨hself d t hd ht, hi.2⟩
  · obtain ⟨t, ht, h⟩ := ok_of_bind h
    cases h
    exact ⟨hi.1, hself d t hd ht⟩

/-! ### Types -/

/-- The form that sound members describe is clean, and so are the types in it. -/
theorem Form.clean_ofMembers (hbound : bound < 2 ^ 64) (hself : Keeps bound self SourceType.Clean)
    {ms : Buffered} (hm : ms.Sound bound) {f : Form} (h : Form.ofMembers self ms = .ok f) :
    f.Clean ∧ ∀ u ∈ f.types, u.Clean := by
  cases described_of_ofMembers h with
  | any | unknown | never | void | atomic | ref =>
    refine ⟨True.intro, fun u hu => ?_⟩
    cases hu
  | literal hv =>
    have hreadable := hm.need Keeps.value hv
    refine ⟨hreadable, fun u hu => ?_⟩
    cases hu
  | object hps hindex =>
    have hps := (hm.withDefault ⟨nofun, Nat.zero_le _⟩ (Property.clean_decode hself).list hps).1
    have hindex := hm.withDefault nofun (IndexSignature.clean_decode hself).option hindex
    refine ⟨fun p hp => (hps p hp).1, fun u hu => ?_⟩
    rcases List.mem_append.mp hu with hu | hu
    · obtain ⟨p, hp, rfl⟩ := List.mem_map.mp hu
      exact (hps p hp).2
    · obtain ⟨i, hi, hu⟩ := List.mem_flatMap.mp hu
      obtain ⟨hkey, hvalue⟩ := hindex i (Option.mem_toList.mp hi)
      have hboth : ∀ u ∈ [i.key, i.value], u.Clean :=
        List.forall_mem_cons.mpr ⟨hkey, List.forall_mem_singleton.mpr hvalue⟩
      exact hboth u hu
  | array ht => exact ⟨True.intro, List.forall_mem_singleton.mpr (hm.need hself ht)⟩
  | tuple hes =>
    obtain ⟨heach, hlength⟩ := hm.need (TupleElement.clean_decode hself).list hes
    exact ⟨Nat.lt_of_le_of_lt hlength hbound, List.forall_mem_map.mpr heach⟩
  | union hts hd =>
    have hd := hm.withDefault nofun Discriminant.clean_decode.option hd
    exact ⟨hd, (hm.need hself.list hts).1⟩
  | intersection hts => exact ⟨True.intro, (hm.need hself.list hts).1⟩
  | enum hes =>
    have heach := (hm.need EnumMember.clean_decode.list hes).1
    refine ⟨heach, fun u hu => ?_⟩
    cases hu
  | native hargs => exact ⟨True.intro, (hm.withDefault ⟨nofun, Nat.zero_le _⟩ hself.list hargs).1⟩

namespace SourceType

/-- The rules met so far are clean and the other members sound. -/
structure Partial.Sound (bound : Nat) (p : Partial) : Prop where
  constraints : ∀ c ∈ p.modifiers.constraints, c.Clean
  others : Buffered.Sound bound p.others

theorem sound_layout (buffered : Bool) : (layout buffered).Keeps bound (Partial.Sound bound) where
  init := by
    refine ⟨fun c hc => ?_, fun m hm => ?_⟩
    · cases hc
    · cases hm
  put p key d b hp hd h := by
    simp only [layout] at h
    split at h
    case h_5 =>
      obtain ⟨c, hc, h⟩ := ok_of_bind h
      cases h
      refine ⟨?_, hp.others⟩
      cases buffered with
      | true => exact Constraints.clean_decodeBuffered.option d c hd hc
      | false => exact Constraints.clean_decode.option d c hd hc
    all_goals
      obtain ⟨v, -, h⟩ := ok_of_bind h
      cases h
      exact ⟨hp.constraints, hp.others⟩
  other p key d b hp hd h := by
    obtain ⟨v, -, h⟩ := ok_of_bind h
    cases h
    exact ⟨hp.constraints, List.forall_mem_cons.mpr ⟨hd, hp.others⟩⟩

theorem clean_decodeWithin (hbound : bound < 2 ^ 64) (buffered : Bool) (fuel : Nat) :
    Keeps bound (decodeWithin buffered fuel) Clean := by
  induction fuel generalizing buffered with
  | zero =>
    intro d t _ h
    cases h
  | succ fuel ih =>
    intro d t hd h
    obtain ⟨p, f, hp, hf, rfl⟩ := decodeWithin_ok h
    have hp := (sound_layout buffered).decodeOpen d p hd hp
    have hothers : Buffered.Sound bound p.others.reverse :=
      fun m hm => hp.others m (List.mem_reverse.mp hm)
    obtain ⟨hform, hinside⟩ :=
      Form.clean_ofMembers hbound (ih true) hothers hf
    exact .intro ⟨hp.constraints, hform⟩ hinside

theorem clean_decode (hbound : bound < 2 ^ 64) : Keeps bound decode Clean :=
  fun d t hd h => clean_decodeWithin hbound false (d.height + 1) d t hd h

end SourceType

end TypedApi
