import Mathlib.Data.Nat.Find
import TypedApi.Proofs.SchemaTable.Termination

/-! Conversions settle.

With too few steps a conversion gives nothing, and from some number of steps on it always gives
the same schema and the same table (`settles_conversions`). For what is found within some steps is
found within more of them (`below_bodyWithin`), and some number of steps suffices for every
registry, however its types refer to each other, and every table. -/
namespace TypedApi.SchemaTable

open OpenApi

/-! ### More steps -/

/-- What `c` finds is found by `d`. -/
def Below {α : Type} (c d : Conversion α) : Prop := ∀ t r, c.run t = some r → d.run t = some r

section Below

variable {α β : Type} {c d : Conversion α}

theorem Below.refl (c : Conversion α) : Below c c := fun _ _ h => h

theorem Below.trans {e : Conversion α} (h : Below c d) (g : Below d e) : Below c e :=
  fun t r hr => g t r (h t r hr)

theorem Below.bind {k l : α → Conversion β} (h : Below c d) (g : ∀ a, Below (k a) (l a)) :
    Below (c >>= k) (d >>= l) := by
  intro t r hr
  rw [StateT.run_bind] at hr ⊢
  obtain ⟨⟨a, t₁⟩, ha, hrest⟩ := Option.bind_eq_some_iff.mp hr
  rw [h t _ ha]
  exact g a t₁ r hrest

theorem Below.map (f : α → β) (h : Below c d) : Below (f <$> c) (f <$> d) := by
  rw [map_eq_pure_bind, map_eq_pure_bind]
  exact h.bind fun _ => .refl _

variable {registry : Registry} {body more : SourceType → Conversion Schema}

theorem below_fill {key : String} {make other : Conversion Schema} (h : Below make other) :
    Below (fill key make) (fill key other) :=
  Below.bind (.refl _) fun _ => h.bind fun _ => .refl _

theorem below_refWith (h : ∀ type, Below (body type) (more type)) (target : String) :
    Below (refWith registry body target) (refWith registry more target) := by
  refine Below.bind (.refl _) fun t => ?_
  obtain ⟨key, t₁, hkey⟩ : ∃ key t₁, t.keyFor target = (key, t₁) := ⟨_, _, rfl⟩
  simp only [hkey]
  refine Below.bind (.refl _) fun _ => ?_
  cases t₁.has key with
  | true => exact .refl _
  | false =>
    cases registry.get? target with
    | none => exact .refl _
    | some type => exact below_fill ((h type).bind fun _ => .refl _)

theorem below_namedWith (h : ∀ type, Below (body type) (more type)) (name : String)
    (type : SourceType) : Below (namedWith body name type) (namedWith more name type) := by
  refine Below.bind (.refl _) fun t => ?_
  obtain ⟨key, t₁, hkey⟩ : ∃ key t₁, t.keyFor name = (key, t₁) := ⟨_, _, rfl⟩
  simp only [hkey]
  refine Below.bind (.refl _) fun _ => ?_
  cases t₁.has key with
  | true => exact .refl _
  | false => exact below_fill (h type)

theorem below_siteWith (h : ∀ type, Below (body type) (more type)) (type : SourceType) :
    Below (siteWith registry body type) (siteWith registry more type) := by
  -- Both sites take the same way, for it is the type that decides it.
  rcases siteWith_cases registry body type with
    ⟨target, hform, hsite⟩ | ⟨name, hform, hname, hsite⟩ | ⟨hform, hname, hsite⟩ <;>
  rcases siteWith_cases registry more type with
    ⟨target', hform', hsite'⟩ | ⟨name', hform', hname', hsite'⟩ | ⟨hform', hname', hsite'⟩
  · cases hform.symm.trans hform'
    rw [hsite, hsite']
    exact (below_refWith h target).map _
  · rw [hform] at hform'
    cases hform'
  · exact absurd hform (hform' target)
  · rw [hform'] at hform
    cases hform
  · cases hname.symm.trans hname'
    rw [hsite, hsite']
    exact (below_namedWith h name type).map _
  · cases hname.symm.trans (hname' hform)
  · exact absurd hform' (hform target')
  · cases hname'.symm.trans (hname hform')
  · rw [hsite, hsite']
    exact (h type).map _

theorem below_mapM (h : ∀ type, Below (body type) (more type)) (types : List SourceType) :
    Below (types.mapM (siteWith registry body)) (types.mapM (siteWith registry more)) := by
  induction types with
  | nil => exact .refl _
  | cons type types ih =>
    rw [List.mapM_cons, List.mapM_cons]
    exact (below_siteWith h type).bind fun _ => ih.bind fun _ => .refl _

theorem below_bodyWith (h : ∀ type, Below (body type) (more type)) (type : SourceType) :
    Below (bodyWith registry body type) (bodyWith registry more type) := by
  rcases ref_or_ne type with ⟨target, hform⟩ | hform
  · rw [bodyWith_ref registry body type hform, bodyWith_ref registry more type hform]
    exact (below_refWith h target).map _
  · rw [bodyWith_eq_assemble registry body type hform,
      bodyWith_eq_assemble registry more type hform]
    exact (below_mapM h _).map _

theorem below_bodyWithin_succ (registry : Registry) (fuel : Nat) (type : SourceType) :
    Below (bodyWithin registry fuel type) (bodyWithin registry (fuel + 1) type) := by
  induction fuel generalizing type with
  | zero =>
    intro t r h
    cases h
  | succ fuel ih => exact below_bodyWith ih type

/-- More steps find whatever fewer steps find. -/
theorem below_bodyWithin {fuel enough : Nat} (h : fuel ≤ enough) (type : SourceType) :
    Below (bodyWithin registry fuel type) (bodyWithin registry enough type) := by
  induction enough, h using Nat.le_induction with
  | base => exact .refl _
  | succ enough _ ih => exact ih.trans (below_bodyWithin_succ registry enough type)

end Below

/-! ### Enough steps -/

/-- What is found once and for all is found from some number of steps on, and not before. -/
theorem exists_least {α : Type} {f : Nat → Option α}
    (hmore : ∀ {fuel enough}, fuel ≤ enough → ∀ r, f fuel = some r → f enough = some r)
    {bound : Nat} {r : α} (h : f bound = some r) :
    ∃ least ≤ bound, ∀ fuel, f fuel = if least ≤ fuel then some r else none := by
  have hsome : ∃ fuel, (f fuel).isSome = true := ⟨bound, by rw [h]; rfl⟩
  obtain ⟨first, hfirst⟩ := Option.isSome_iff_exists.mp (Nat.find_spec hsome)
  have hle : Nat.find hsome ≤ bound := Nat.find_min' hsome (by rw [h]; rfl)
  have hr : first = r := Option.some.inj ((hmore hle first hfirst).symm.trans h)
  refine ⟨Nat.find hsome, hle, fun fuel => ?_⟩
  by_cases hfuel : Nat.find hsome ≤ fuel
  · rw [if_pos hfuel, hmore hfuel first hfirst, hr]
  · have hnone := Nat.find_min hsome (Nat.lt_of_not_le hfuel)
    rw [if_neg hfuel]
    exact Option.not_isSome_iff_eq_none.mp hnone

/-- There is a least number of steps that suffices, which is at most `bound`. With fewer steps `c`
gives nothing, and with that many or more it gives `r`. -/
def Settles (c : Nat → Conversion Schema) (t : SchemaTable) (bound : Nat)
    (r : Schema × SchemaTable) : Prop :=
  ∃ least ≤ bound, ∀ fuel, (c fuel).run t = if least ≤ fuel then some r else none

variable {c : Nat → Conversion Schema} {t : SchemaTable} {bound : Nat}

theorem settles_of_below (hmore : ∀ {fuel enough}, fuel ≤ enough → Below (c fuel) (c enough))
    {r : Schema × SchemaTable} (h : (c bound).run t = some r) : Settles c t bound r :=
  exists_least (fun hle => hmore hle t) h

theorem exists_settles (hmore : ∀ {fuel enough}, fuel ≤ enough → Below (c fuel) (c enough))
    (h : Finishes (c bound) t) : ∃ r, Settles c t bound r := by
  obtain ⟨r, hr⟩ := h
  exact ⟨r, settles_of_below hmore hr⟩

/-- The search for the key of a new name ends, with no more candidates than there are keys and
one. -/
theorem exists_least_search {name : String} (h : t.keys.lookup name = none) :
    ∃ least ≤ t.keys.length + 1, ∀ fuel,
      searchWithin (componentKey name) (t.keys.map (·.2)) fuel =
        if least ≤ fuel then some (t.keyFor name).1 else none := by
  have hkey : (t.keyFor name).1 = freshKey (componentKey name) (t.keys.map (·.2)) := by
    rw [keyFor, h]
  have hfound := searchWithin_length (componentKey name) (t.keys.map (·.2))
  rw [List.length_map] at hfound
  rw [hkey]
  exact exists_least (fun hle _ hr => searchWithin_of_le hle hr) hfound

/-- Whatever is registered and whatever the table holds, a conversion settles, and so do the
functions that it is made of and the search for the keys of new names. -/
theorem settles_conversions (registry : Registry) (t : SchemaTable) :
    (∀ type, Settles (fun fuel => convertWithin registry fuel type) t (steps registry type)
      (convert registry type t)) ∧
    (∀ type, ∃ r, Settles (fun fuel => bodyWithin registry fuel type) t (steps registry type) r) ∧
    (∀ name type, ∃ r, Settles (fun fuel => namedWith (bodyWithin registry fuel) name type) t
      (steps registry type) r) ∧
    (∀ target, ∃ r, Settles (fun fuel => refWith registry (bodyWithin registry fuel) target) t
      (steps registry (.ofForm (.ref target))) r) ∧
    (∀ name, t.keys.lookup name = none → ∃ least ≤ t.keys.length + 1, ∀ fuel,
      searchWithin (componentKey name) (t.keys.map (·.2)) fuel =
        if least ≤ fuel then some (t.keyFor name).1 else none) := by
  have hbody : ∀ {fuel enough : Nat}, fuel ≤ enough → ∀ type : SourceType,
      Below (bodyWithin registry fuel type) (bodyWithin registry enough type) :=
    fun h type => below_bodyWithin h type
  refine ⟨fun type => ?_, fun type => ?_, fun name type => ?_, fun target => ?_,
    fun name h => exists_least_search h⟩
  · refine settles_of_below (fun h => below_siteWith (hbody h) type) ?_
    exact convertWithin_eq_convert registry type t
  · refine exists_settles (fun h => hbody h type) ?_
    exact finishes_bodyWithin registry _ type t (need_le_steps registry type t)
  · refine exists_settles (fun h => below_namedWith (hbody h) name type) ?_
    refine finishes_namedWith fun t' _ => ?_
    exact finishes_bodyWithin registry _ type t' (need_le_steps registry type t')
  · refine exists_settles (fun h => below_refWith (hbody h) target) ?_
    refine finishes_refWith (finishesTarget_of_need (finishes_bodyWithin registry _) ?_)
    exact Nat.le_trans (Nat.le_add_right ..) (need_le_steps registry (.ofForm (.ref target)) t)

end TypedApi.SchemaTable
