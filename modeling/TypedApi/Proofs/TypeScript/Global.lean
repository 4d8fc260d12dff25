import Mathlib.Data.List.Nodup
import TypedApi.Proofs.TypeScript.Exchange
import TypedApi.TypeScript.Global

/-! Fresh names for the components that hide global types.

Of the candidates for a name, which differ in their underscores, there is one more than names are
taken, so one of them is free (`freeName_notMem`). The table that grows name by name is an
invertible one throughout (`Fresh`), and the `Swap` of both directions can be read from it. -/
namespace TypedApi.TypeScript

/-! ### A free name -/

/-- A name with underscores behind it. -/
def underscored (name : String) (n : Nat) : String :=
  name ++ String.ofList (List.replicate n '_')

theorem toList_underscored (name : String) (n : Nat) :
    (underscored name n).toList = name.toList ++ List.replicate n '_' := by
  rw [underscored, String.toList_append, String.toList_ofList]

theorem underscored_succ (name : String) (n : Nat) :
    underscored (name ++ "_") n = underscored name (n + 1) := by
  apply String.toList_injective
  rw [toList_underscored, toList_underscored, String.toList_append, List.append_assoc,
    List.replicate_succ]
  rfl

theorem underscored_injective (name : String) : Function.Injective (underscored name) := by
  intro m n h
  have hlist := congrArg String.toList h
  rw [toList_underscored, toList_underscored, List.append_cancel_left_eq] at hlist
  simpa using congrArg List.length hlist

/-- If a taken name comes out, all candidates were taken. -/
theorem freeName_eq (taken : List String) (fuel : Nat) (name : String) :
    ∃ n, freeName taken fuel name = underscored name n ∧
      (underscored name n ∈ taken → ∀ i ≤ fuel, underscored name i ∈ taken) := by
  have hzero : ∀ name, underscored name 0 = name := fun name => String.append_empty
  induction fuel generalizing name with
  | zero =>
    refine ⟨0, (hzero name).symm, fun h i hi => ?_⟩
    rwa [Nat.le_zero.mp hi]
  | succ fuel ih =>
    rw [freeName]
    split
    · next htaken =>
      obtain ⟨n, hn, hall⟩ := ih (name ++ "_")
      rw [underscored_succ] at hn hall
      refine ⟨n + 1, hn, fun h i hi => ?_⟩
      cases i with
      | zero => rwa [hzero, ← List.contains_iff_mem]
      | succ i => exact underscored_succ name i ▸ hall h i (Nat.le_of_succ_le_succ hi)
    · next hfree =>
      refine ⟨0, (hzero name).symm, fun h => absurd h ?_⟩
      rwa [hzero, ← List.contains_iff_mem]

theorem freeName_notMem (taken : List String) (name : String) :
    freeName taken taken.length name ∉ taken := by
  intro htaken
  obtain ⟨n, hn, hall⟩ := freeName_eq taken taken.length name
  rw [hn] at htaken
  have hnodup : ((List.range (taken.length + 1)).map (underscored name)).Nodup :=
    List.nodup_range.map (underscored_injective name)
  have hsubset : (List.range (taken.length + 1)).map (underscored name) ⊆ taken := by
    intro candidate hc
    obtain ⟨i, hi, rfl⟩ := List.mem_map.mp hc
    exact hall htaken i (Nat.le_of_lt_succ (List.mem_range.mp hi))
  have hle := hnodup.length_le_of_subset hsubset
  rw [List.length_map, List.length_range] at hle
  omega

/-! ### The table of fresh names -/

/-- A table of new names for global types. Each is the old name with underscores, none is among the
names that were there before, and no two are alike. -/
structure Fresh (known taken : List String) (renames : List (String × String)) : Prop where
  keys : (renames.map (·.1)).Nodup
  global : ∀ e ∈ renames, e.1 ∈ globalTypes
  longer : ∀ e ∈ renames, ∃ n, e.2 = underscored e.1 (n + 1)
  apart : ∀ e ∈ renames, ∀ e' ∈ renames, e.2 = e'.2 → e = e'
  new : ∀ e ∈ renames, e.2 ∈ taken ∧ e.2 ∉ known
  known : known ⊆ taken

theorem fresh_nil (known : List String) : Fresh known known [] where
  keys := List.nodup_nil
  global := nofun
  longer := nofun
  apart := nofun
  new := nofun
  known := List.Subset.refl known

variable {known taken : List String} {renames : List (String × String)}

theorem Fresh.assign (h : Fresh known taken renames) {name : String} (hname : name ∈ globalTypes) :
    Fresh known (freeName taken taken.length (name ++ "_") :: taken)
      (Json.assign name (freeName taken taken.length (name ++ "_")) renames) := by
  have hfree := freeName_notMem taken (name ++ "_")
  obtain ⟨n, hnew, -⟩ := freeName_eq taken taken.length (name ++ "_")
  rw [underscored_succ] at hnew
  generalize freeName taken taken.length (name ++ "_") = new at hfree hnew ⊢
  have hcases : ∀ e ∈ Json.assign name new renames, e = (name, new) ∨ e ∈ renames := fun e he =>
    Json.mem_of_mem_assign he
  refine ⟨Json.nodup_keys_assign h.keys, fun e he => ?_, fun e he => ?_, fun e he e' he' heq => ?_,
    fun e he => ?_, List.subset_cons_of_subset new h.known⟩
  · rcases hcases e he with rfl | he
    · exact hname
    · exact h.global e he
  · rcases hcases e he with rfl | he
    · exact ⟨n, hnew⟩
    · exact h.longer e he
  · rcases hcases e he with rfl | he <;> rcases hcases e' he' with rfl | he'
    · rfl
    · exact absurd ((congrArg (· ∈ taken) heq).mpr (h.new e' he').1) hfree
    · exact absurd ((congrArg (· ∈ taken) heq).mp (h.new e he).1) hfree
    · exact h.apart e he e' he' heq
  · rcases hcases e he with rfl | he
    · exact ⟨List.mem_cons_self, fun hknown => hfree (h.known hknown)⟩
    · exact ⟨List.mem_cons_of_mem new (h.new e he).1, (h.new e he).2⟩

theorem Fresh.freshNamesFrom (h : Fresh known taken renames) (names : List String) :
    ∃ taken', Fresh known taken' (freshNamesFrom taken renames names) := by
  induction names generalizing taken renames with
  | nil => exact ⟨taken, h⟩
  | cons name names ih =>
    rw [TypeScript.freshNamesFrom]
    split
    · next hglobal => exact ih (h.assign (List.contains_iff_mem.mp hglobal))
    · exact ih h

theorem fresh_freshNames (known : List String) : ∃ taken, Fresh known taken (freshNames known) :=
  (fresh_nil known).freshNamesFrom known

/-- Every name of a global type has a new name. -/
theorem lookup_freshNamesFrom (taken : List String) {renames : List (String × String)}
    {names : List String} {name : String} (h : name ∈ globalTypes)
    (hname : name ∈ names ∨ (renames.lookup name).isSome = true) :
    ((freshNamesFrom taken renames names).lookup name).isSome = true := by
  induction names generalizing taken renames with
  | nil => exact hname.resolve_left nofun
  | cons other names ih =>
    rw [freshNamesFrom]
    have hlater : name ≠ other → (name ∈ names ∨ (renames.lookup name).isSome = true) := fun hne =>
      hname.imp_left fun hm => (List.mem_cons.mp hm).resolve_left hne
    split
    · refine ih _ ?_
      by_cases heq : name = other
      · exact .inr (by rw [heq, Json.lookup_assign_self]; rfl)
      · rw [Json.lookup_assign_of_ne heq]
        exact hlater heq
    · next hother =>
      exact ih _ (hlater fun heq => hother (List.contains_iff_mem.mpr (heq ▸ h)))

theorem lookup_freshNames {known : List String} {name : String} (h : name ∈ globalTypes)
    (hname : name ∈ known) : ((freshNames known).lookup name).isSome = true :=
  lookup_freshNamesFrom known h (.inl hname)

/-- The names of global types are renamed, in their order, and no others. -/
theorem keys_freshNamesFrom (taken : List String) {renames : List (String × String)}
    {names : List String} (hn : names.Nodup) (hfree : ∀ name ∈ names, name ∉ renames.map (·.1)) :
    (freshNamesFrom taken renames names).map (·.1) =
      renames.map (·.1) ++ names.filter globalTypes.contains := by
  induction names generalizing taken renames with
  | nil => exact (List.append_nil _).symm
  | cons name names ih =>
    obtain ⟨hname, hn⟩ := List.nodup_cons.mp hn
    obtain ⟨hnew, hfree⟩ := List.forall_mem_cons.mp hfree
    rw [freshNamesFrom]
    split
    · next hglobal =>
      dsimp only
      rw [Json.assign_of_notMem hnew, List.filter_cons_of_pos hglobal, ih _ hn fun other hother => ?_]
      · simp
      · rw [List.map_append, List.mem_append, not_or]
        refine ⟨hfree other hother, fun hsame => ?_⟩
        obtain rfl : other = name := List.mem_singleton.mp hsame
        exact hname hother
    · next hother =>
      rw [List.filter_cons_of_neg hother, ih _ hn hfree]

theorem keys_freshNames {names : List String} (hn : names.Nodup) :
    (freshNames names).map (·.1) = names.filter globalTypes.contains :=
  keys_freshNamesFrom names hn fun _ _ => List.not_mem_nil

/-! ### There and back -/

theorem capital_globalTypes {name : String} (h : name ∈ globalTypes) :
    ∃ c cs, name.toList = c :: cs ∧ isUpper c = true := by
  have hall : ∀ name ∈ globalTypes, name.toList.head?.any isUpper = true := by decide
  have hname := hall name h
  cases hcs : name.toList with
  | nil =>
    rw [hcs] at hname
    cases hname
  | cons c cs =>
    rw [hcs] at hname
    exact ⟨c, cs, rfl, hname⟩

theorem getLast?_underscored (name : String) (n : Nat) :
    (underscored name (n + 1)).toList.getLast? = some '_' := by
  rw [toList_underscored, List.replicate_succ', ← List.append_assoc, List.getLast?_concat]

theorem getLast?_globalTypes : ∀ name ∈ globalTypes, name.toList.getLast? ≠ some '_' := by decide

theorem underscored_notMem_globalTypes (name : String) (n : Nat) :
    underscored name (n + 1) ∉ globalTypes := fun hglobal =>
  getLast?_globalTypes _ hglobal (getLast?_underscored name n)

theorem isIdentifier_underscored {name : String} (h : isIdentifier name.toList = true) (n : Nat) :
    isIdentifier (underscored name n).toList = true := by
  have hpart : (List.replicate n '_').all isIdentifierPart = true :=
    List.all_eq_true.mpr fun c hc => by
      rw [List.eq_of_mem_replicate hc]
      decide
  rw [toList_underscored]
  cases hcs : name.toList with
  | nil =>
    rw [hcs] at h
    cases h
  | cons c cs =>
    rw [hcs, isIdentifier, Bool.and_eq_true] at h
    rw [List.cons_append, isIdentifier, List.all_append, h.1, h.2, hpart]
    rfl

namespace Fresh

/-- The tables of new names, and of old names for the new ones. -/
def swap (h : Fresh known taken renames) : Swap where
  forth := renames
  back := renames.map Prod.swap
  capital_forth e he := capital_globalTypes (h.global e he)
  capital_back e' he' := by
    obtain ⟨e, he, rfl⟩ := List.mem_map.mp he'
    obtain ⟨n, hn⟩ := h.longer e he
    obtain ⟨c, cs, hname, hupper⟩ := capital_globalTypes (h.global e he)
    refine ⟨c, cs ++ List.replicate (n + 1) '_', ?_, hupper⟩
    rw [Prod.fst_swap, hn, toList_underscored, hname]
    rfl

theorem lookup_eq (h : Fresh known taken renames) (name : String) :
    renames.lookup name = if newName renames name = name then none else some (newName renames name) := by
  unfold newName
  cases hlookup : renames.lookup name with
  | none => simp
  | some new =>
    obtain ⟨n, hn⟩ := h.longer _ (Json.mem_of_lookup hlookup)
    have hne : new ≠ name := by
      rintro rfl
      have hzero : underscored new 0 = new := String.append_empty
      have heq : n + 1 = 0 := underscored_injective new (hn.symm.trans hzero.symm)
      cases heq
    simp [hne]

/-- A new name is the old one, or the old one with underscores in place of a global type. -/
theorem newName_cases (h : Fresh known taken renames) (name : String) :
    newName renames name = name ∨
      name ∈ globalTypes ∧ ∃ n, newName renames name = underscored name (n + 1) := by
  rw [newName]
  cases hlookup : renames.lookup name with
  | none => exact .inl rfl
  | some new =>
    have he := Json.mem_of_lookup hlookup
    exact .inr ⟨h.global _ he, h.longer _ he⟩

/-- A name without an underscore at its end is no new name. -/
theorem eq_of_newName (h : Fresh known taken renames) {name other : String}
    (hlast : other.toList.getLast? ≠ some '_') (heq : newName renames name = other) :
    name = other := by
  rcases h.newName_cases name with hsame | ⟨-, n, hnew⟩
  · exact hsame.symm.trans heq
  · rw [← heq, hnew] at hlast
    exact absurd (getLast?_underscored name n) hlast

theorem lookup_swap_of_mem (h : Fresh known taken renames) {e : String × String} (he : e ∈ renames) :
    (renames.map Prod.swap).lookup e.2 = some e.1 := by
  refine Json.lookup_of_mem ?_ (List.mem_map_of_mem he)
  rw [List.map_map]
  have hnodup : renames.Nodup := h.keys.of_map
  exact hnodup.map_on fun e he e' he' heq => h.apart e he e' he' heq

theorem lookup_swap_of_notMem {name : String} (hname : ∀ e ∈ renames, e.2 ≠ name) :
    (renames.map Prod.swap).lookup name = none := by
  refine Json.lookup_eq_none_iff.mpr fun hmem => ?_
  rw [List.map_map] at hmem
  obtain ⟨e, he, heq⟩ := List.mem_map.mp hmem
  exact hname e he heq

/-- The table of old names takes a known name back from its new one. -/
theorem lookup_swap_newName (h : Fresh known taken renames) {name : String} (hname : name ∈ known) :
    (renames.map Prod.swap).lookup (newName renames name) =
      if newName renames name = name then none else some name := by
  have hforth := h.lookup_eq name
  split at hforth
  · next heq =>
    rw [if_pos heq, heq]
    exact lookup_swap_of_notMem fun e he heq => (h.new e he).2 (heq ▸ hname)
  · next hne =>
    rw [if_neg hne]
    exact h.lookup_swap_of_mem (Json.mem_of_lookup hforth)

theorem newName_newName (h : Fresh known taken renames) {name : String} (hname : name ∈ known) :
    newName (renames.map Prod.swap) (newName renames name) = name := by
  rw [newName, h.lookup_swap_newName hname]
  split
  · next heq => exact heq
  · rfl

theorem isIdentifier_new (h : Fresh known taken renames) :
    ∀ e ∈ renames, isIdentifier e.2.toList = true := by
  have hall : ∀ name ∈ globalTypes, isIdentifier name.toList = true := by decide
  intro e he
  obtain ⟨n, hn⟩ := h.longer e he
  exact hn ▸ isIdentifier_underscored (hall e.1 (h.global e he)) (n + 1)

theorem isIdentifier_newName (h : Fresh known taken renames) {name : String}
    (hname : isIdentifier name.toList = true) :
    isIdentifier (newName renames name).toList = true := by
  unfold newName
  cases hlookup : renames.lookup name with
  | none => exact hname
  | some new => exact h.isIdentifier_new _ (Json.mem_of_lookup hlookup)

theorem lookup_swap_global (h : Fresh known taken renames) {name : String}
    (hname : name ∈ globalTypes) : (renames.map Prod.swap).lookup name = none := by
  refine lookup_swap_of_notMem fun e he heq => ?_
  obtain ⟨n, hn⟩ := h.longer e he
  exact underscored_notMem_globalTypes e.1 n (hn ▸ heq ▸ hname)

end Fresh

/-- No component is declared under the name of a global type. -/
theorem newName_notMem_globalTypes {known : List String} {name : String} (hname : name ∈ known) :
    newName (freshNames known) name ∉ globalTypes := by
  obtain ⟨taken, hf⟩ := fresh_freshNames known
  intro hglobal
  rcases hf.newName_cases name with hsame | ⟨-, n, hnew⟩
  · rw [hsame] at hglobal
    have hlookup := lookup_freshNames hglobal hname
    rw [hf.lookup_eq, if_pos hsame] at hlookup
    cases hlookup
  · exact underscored_notMem_globalTypes name n (hnew ▸ hglobal)

end TypedApi.TypeScript
