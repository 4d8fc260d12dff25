import Mathlib.Data.List.Nodup
import TypedApi.Proofs.SourceType.Aliases
import TypedApi.Route.Operation

/-! Objects behind references.

References are followed until a name comes again. As no way along references passes a name twice,
that stops no way to an object, and as all names that are passed are different and registered, there
are fewer steps than fuel (`leads_or_astray`). So the properties of an object are found exactly if the
chain of references comes to it (`followed_objectProperties?`). -/
namespace TypedApi.Route

open Registry (Leads Passes leads_iff)

section Objects

variable {registry : Registry} {type u o : SourceType} {names : List String}

/-! ### The end of a chain -/

/-- The chain from a type comes to a reference that cannot be followed: its name is not registered,
or was passed before. -/
inductive Astray (registry : Registry) (type : SourceType) : Prop
  | missing {names : List String} {u : SourceType} {target : String}
      (h : Passes registry type names u) (hform : u.form = .ref target)
      (hget : registry.get? target = none) : Astray registry type
  | again {names : List String} {u : SourceType} {target : String}
      (h : Passes registry type names u) (hform : u.form = .ref target) (hagain : target ∈ names) :
      Astray registry type

/-- Behind a chain from `type`, following comes to the end of the way from there, or the chain goes
astray. The names that are passed are all different, so the fuel does not run out. -/
theorem leads_or_astray {fuel : Nat} {seen : List String}
    (h : Passes registry type seen.reverse u) (hnodup : seen.Nodup)
    (hfuel : registry.size < fuel + seen.length) :
    (∃ names o, Leads registry type names o ∧ followWithin registry fuel seen u = some o) ∨
      followWithin registry fuel seen u = none ∧ Astray registry type := by
  induction fuel generalizing seen u with
  | zero =>
    have hle := h.length_le (List.nodup_reverse.mpr hnodup)
    rw [List.length_reverse] at hle
    omega
  | succ fuel ih =>
    rw [followWithin]
    split
    · next target hform =>
      split
      · next hagain =>
        have hpassed : target ∈ seen.reverse := List.mem_reverse.mpr (List.contains_iff_mem.mp hagain)
        exact .inr ⟨rfl, .again h hform hpassed⟩
      · next hnew =>
        rw [List.contains_iff_mem] at hnew
        cases hget : registry.get? target with
        | none => exact .inr ⟨rfl, .missing h hform hget⟩
        | some v =>
          have hlonger : Passes registry type (target :: seen).reverse v := by
            rw [List.reverse_cons]
            exact h.snoc hform hget
          exact ih hlonger (List.nodup_cons.mpr ⟨hnew, hnodup⟩) (by rw [List.length_cons]; omega)
    · next hend => exact .inl ⟨seen.reverse, u, leads_iff.mpr ⟨h, hend⟩, rfl⟩

/-- A chain that goes astray leads nowhere. -/
theorem Astray.not_leads (h : Astray registry type) : ¬ Leads registry type names o := by
  intro hleads
  cases h with
  | missing h hform hget =>
    obtain ⟨⟨v, hv⟩, -⟩ := h.onward hform hleads
    rw [hget] at hv
    cases hv
  | again h hform hagain => exact (h.onward hform hleads).2 hagain

/-- With a step for each name and one more, following comes to the end of the way. -/
theorem followWithin_eq_some_iff {fuel : Nat} (hfuel : registry.size < fuel) :
    followWithin registry fuel [] type = some o ↔ ∃ names, Leads registry type names o := by
  have hend := leads_or_astray (u := type) .here List.nodup_nil hfuel
  constructor
  · intro hfound
    rcases hend with ⟨names, o', hleads, hfound'⟩ | ⟨hnone, -⟩
    · obtain rfl := Option.some.inj (hfound'.symm.trans hfound)
      exact ⟨names, hleads⟩
    · rw [hnone] at hfound
      cases hfound
  · rintro ⟨names, hleads⟩
    rcases hend with ⟨names', o', hleads', hfound⟩ | ⟨-, hastray⟩
    · rwa [(hleads.unique hleads').2]
    · exact absurd hleads hastray.not_leads

/-! ### Objects -/

/-- The properties of the object to which references lead are found. -/
theorem objectProperties?_of_leads (h : Leads registry type names o) {ps : List Property}
    {index : Option IndexSignature} {strictness : Strictness}
    (hform : o.form = .object ps index strictness) : objectProperties? registry type = some ps := by
  have hfound := (followWithin_eq_some_iff (Nat.lt_succ_self registry.size)).mpr ⟨names, h⟩
  cases o
  cases hform
  rw [objectProperties?, hfound]

end Objects

end TypedApi.Route
