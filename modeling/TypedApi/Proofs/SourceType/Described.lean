import TypedApi.Proofs.Json.Keeping
import TypedApi.SourceType.Decoding

/-! What decoded types were put together from.

A form comes from the members that its kind asks for (`Form.Described`), and what is found under a
key was decoded from one of the members. -/
namespace TypedApi

open Json (Decoder Draft Fault ok_of_bind ok_of_mapError)

variable {ms : Buffered}

/-! ### Members that were read as values -/

namespace Buffered

variable {α : Type} {key : String} {decode : Decoder α} {a : α}

theorem mem_of_only? {d : Draft} (h : ms.only? key = .ok (some d)) : ∃ m ∈ ms, m.2 = d := by
  unfold only? at h
  split at h
  · cases h
  · next k x hfilter =>
    cases h
    have hmem : (k, d) ∈ ms.filter (·.1 == key) := hfilter ▸ List.mem_cons_self
    exact ⟨_, (List.mem_filter.mp hmem).1, rfl⟩
  · cases h

theorem need_ok (h : ms.need key decode = .ok a) : ∃ m ∈ ms, decode m.2 = .ok a := by
  unfold need at h
  obtain ⟨found, hfound, h⟩ := ok_of_bind h
  cases found with
  | none => cases h
  | some d =>
    obtain ⟨m, hm, rfl⟩ := mem_of_only? hfound
    exact ⟨m, hm, h⟩

theorem withDefault_ok {default : α} (h : ms.withDefault key default decode = .ok a) :
    default = a ∨ ∃ m ∈ ms, decode m.2 = .ok a := by
  unfold withDefault at h
  obtain ⟨found, hfound, h⟩ := ok_of_bind h
  cases found with
  | none => exact .inl (Except.ok.inj h)
  | some d =>
    obtain ⟨m, hm, rfl⟩ := mem_of_only? hfound
    exact .inr ⟨m, hm, h⟩

end Buffered

/-! ### Forms -/

/-- The members that a form was put together from, `self` being the decoder of the types in it. -/
inductive Form.Described (self : Decoder SourceType) (ms : Buffered) : Form → Prop where
  | any : Described self ms .any
  | unknown : Described self ms .unknown
  | never : Described self ms .never
  | void : Described self ms .void
  | atomic {a : Atomic} (h : ms.need "atomic" (.choice true Atomic.named?) = .ok a) :
    Described self ms (.atomic a)
  | literal {v : Json} (h : ms.need "value" .value = .ok v) : Described self ms (.literal v)
  | object {ps : List Property} {index : Option IndexSignature} {strictness : Strictness}
    (hps : ms.withDefault "properties" [] (.list (Property.layout self).decode) = .ok ps)
    (hindex : ms.withDefault "index_signature" none (.option (IndexSignature.layout self).decode) =
      .ok index) : Described self ms (.object ps index strictness)
  | array {t : SourceType} (h : ms.need "element" self = .ok t) : Described self ms (.array t)
  | tuple {es : List TupleElement}
    (h : ms.need "elements" (.list (TupleElement.layout self).decode) = .ok es) :
    Described self ms (.tuple es)
  | union {ts : List SourceType} {d : Option Discriminant}
    (hts : ms.need "members" (.list self) = .ok ts)
    (hd : ms.withDefault "discriminant" none (.option Discriminant.layout.decode) = .ok d) :
    Described self ms (.union ts d)
  | intersection {ts : List SourceType} (h : ms.need "members" (.list self) = .ok ts) :
    Described self ms (.intersection ts)
  | enum {es : List EnumMember} (h : ms.need "members" (.list EnumMember.layout.decode) = .ok es) :
    Described self ms (.enum es)
  | native {name : String} {args : List SourceType}
    (hargs : ms.withDefault "type_args" [] (.list self) = .ok args) :
    Described self ms (.native name args)
  | ref {target : String} (h : ms.need "target" .text = .ok target) : Described self ms (.ref target)

theorem Form.described_of_ofMembers {self : Decoder SourceType} {f : Form}
    (h : ofMembers self ms = .ok f) : Described self ms f := by
  unfold ofMembers at h
  obtain ⟨kind, -, h⟩ := ok_of_bind h
  split at h
  · cases h
    exact .any
  · cases h
    exact .unknown
  · cases h
    exact .never
  · cases h
    exact .void
  · obtain ⟨a, ha, h⟩ := ok_of_bind h
    cases h
    exact .atomic ha
  · obtain ⟨v, hv, h⟩ := ok_of_bind h
    cases h
    exact .literal hv
  · obtain ⟨ps, hps, h⟩ := ok_of_bind h
    obtain ⟨index, hindex, h⟩ := ok_of_bind h
    obtain ⟨strictness, -, h⟩ := ok_of_bind h
    cases h
    exact .object hps hindex
  · obtain ⟨t, ht, h⟩ := ok_of_bind h
    cases h
    exact .array ht
  · obtain ⟨es, hes, h⟩ := ok_of_bind h
    cases h
    exact .tuple hes
  · obtain ⟨ts, hts, h⟩ := ok_of_bind h
    obtain ⟨d, hd, h⟩ := ok_of_bind h
    cases h
    exact .union hts hd
  · obtain ⟨ts, hts, h⟩ := ok_of_bind h
    cases h
    exact .intersection hts
  · obtain ⟨es, hes, h⟩ := ok_of_bind h
    cases h
    exact .enum hes
  · obtain ⟨name, -, h⟩ := ok_of_bind h
    obtain ⟨args, hargs, h⟩ := ok_of_bind h
    cases h
    exact .native hargs
  · obtain ⟨target, htarget, h⟩ := ok_of_bind h
    cases h
    exact .ref htarget

/-! ### Types -/

/-- A type comes from its modifiers and from the form that its other members describe. -/
theorem SourceType.decodeWithin_ok {buffered : Bool} {fuel : Nat} {d : Draft} {t : SourceType}
    (h : decodeWithin buffered (fuel + 1) d = .ok t) :
    ∃ p f, (layout buffered).decodeOpen d = .ok p ∧
      Form.ofMembers (decodeWithin true fuel) p.others.reverse = .ok f ∧
      t = { p.modifiers with form := f } := by
  rw [decodeWithin] at h
  obtain ⟨p, hp, h⟩ := ok_of_bind h
  obtain ⟨f, hf, h⟩ := ok_of_bind h
  exact ⟨p, f, hp, ok_of_mapError hf, (Except.ok.inj h).symm⟩

end TypedApi
