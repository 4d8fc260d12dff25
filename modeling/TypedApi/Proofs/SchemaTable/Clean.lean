import TypedApi.Proofs.OpenApi.Clean
import TypedApi.Proofs.SchemaTable.Nodewise
import TypedApi.Proofs.SourceType.Clean

/-! Clean types have clean schemas. -/
namespace TypedApi.SchemaTable

open OpenApi Json

/-! ### Rules -/

theorem readable_ruleExtensions {c : Constraints} (hc : c.Clean) {e : String × Json}
    (he : e ∈ ruleExtensions c) : e.2.Readable := by
  unfold ruleExtensions at he
  simp only [List.mem_append] at he
  rcases he with ((he | he) | he) | he
  · split at he
    · cases he
    · rw [List.mem_singleton.mp he]
      refine .arr fun v hv => ?_
      obtain ⟨t, -, rfl⟩ := List.mem_map.mp hv
      exact .str _
  · split at he
    · rw [List.mem_singleton.mp he]
      exact .bool true
    · cases he
  · split at he
    · rw [List.mem_singleton.mp he]
      exact .str _
    · cases he
  · split at he
    · cases he
    · rw [List.mem_singleton.mp he]
      exact readable_table hc.messages fun m _ => .str m.2

variable {s : Schema}

theorem clean_numericType (h : s.Clean) (t : NumericType) : (applyNumericType s t).Clean := by
  unfold applyNumericType
  split
  · exact { h with }
  · exact h

theorem mem_orElse {α : Type} {x : α} {a b : Option α} (h : x ∈ (a <|> b)) : x ∈ a ∨ x ∈ b := by
  cases a with
  | none => exact .inr h
  | some y => exact .inl h

theorem numbers_applyRules {c : Constraints} (ht : c.numericType = none) :
    ∀ n ∈ (applyRules s c).numbers, n ∈ c.numbers ∨ n ∈ s.numbers := by
  intro n hn
  unfold applyRules at hn
  rw [ht] at hn
  simp only [Schema.numbers, List.mem_append, Option.mem_toList] at hn
  simp only [Constraints.numbers, Schema.numbers, List.mem_append, Option.mem_toList]
  rcases hn with (((hn | hn) | hn) | hn) | hn <;> rcases mem_orElse hn with hn | hn <;> tauto

theorem sizes_applyRules {c : Constraints} (ht : c.numericType = none) :
    ∀ n ∈ (applyRules s c).sizes, n ∈ c.sizes ∨ n ∈ s.sizes := by
  intro n hn
  unfold applyRules at hn
  rw [ht] at hn
  simp only [Schema.sizes, List.mem_append, Option.mem_toList] at hn
  simp only [Constraints.sizes, Schema.sizes, List.mem_append, Option.mem_toList]
  rcases hn with ((hn | hn) | hn) | hn <;> rcases mem_orElse hn with hn | hn <;> tauto

theorem clean_applyRules_untyped {c : Constraints} (ht : c.numericType = none) (hc : c.Clean)
    (h : s.Clean) : (applyRules s c).Clean := by
  have hnumbers := numbers_applyRules (s := s) ht
  have hsizes := sizes_applyRules (s := s) ht
  have hplain : ∀ e ∈ assignAll s.extensions (ruleExtensions c),
      e.1 ∉ Schema.keywords ∧ e.2.Readable := fun e he => by
    rcases mem_of_mem_assignAll he with he | he
    · exact ⟨h.extensions e he, h.extended e he⟩
    · exact ⟨notMem_keywords_of_ruleExtensions he, readable_ruleExtensions hc he⟩
  unfold applyRules at hnumbers hsizes ⊢
  rw [ht] at hnumbers hsizes ⊢
  exact { h with
    numbers := fun n hn => (hnumbers n hn).elim (hc.numbers n) (h.numbers n)
    sizes := fun n hn => (hsizes n hn).elim (hc.sizes n) (h.sizes n)
    default := fun v hv => (mem_orElse hv).elim (hc.default v) (h.default v)
    extensions := fun e he => (hplain e he).1
    separate := nodup_keys_assignAll h.separate _
    extended := fun e he => (hplain e he).2 }

theorem clean_applyRules {c : Constraints} (hc : c.Clean) (h : s.Clean) : (applyRules s c).Clean := by
  cases ht : c.numericType with
  | none => exact clean_applyRules_untyped ht hc h
  | some t =>
    have huntyped : Constraints.Clean { c with numericType := none } := { hc with }
    have heq : applyRules s c = applyRules (applyNumericType s t) { c with numericType := none } := by
      unfold applyRules
      rw [ht]
      rfl
    rw [heq]
    exact clean_applyRules_untyped rfl huntyped (clean_numericType h t)

theorem clean_decorate {p : Property} (hp : p.Clean) (h : s.Clean) : (decorate p s).Clean := by
  have hruled : ∀ u : Schema, u.Clean → Schema.Clean { u with
      readOnly := if p.readonly then some true else u.readOnly
      writeOnly := if p.writeOnly then some true else u.writeOnly
      description := p.description <|> u.description
      example? := p.example? <|> u.example? } := fun u hu =>
    { hu with example? := fun v hv => (mem_orElse hv).elim (hp.example? v) (hu.example? v) }
  unfold decorate
  cases hc : p.constraints with
  | none => exact hruled s h
  | some c => exact hruled _ (clean_applyRules (hp.constraints c hc) h)

theorem clean_finish {type : SourceType} (ht : type.CleanNode) (h : s.Clean) :
    (finish type s).Clean := by
  have hdescribed : Schema.Clean { s with description := type.description <|> s.description } :=
    { h with }
  unfold finish
  cases hc : type.constraints with
  | none => exact hdescribed
  | some c => exact clean_applyRules (ht.constraints c hc) hdescribed

/-! ### Forms -/

theorem clean_empty : Schema.Clean {} where
  numbers := nofun
  sizes := nofun
  values := nofun
  const := nofun
  default := nofun
  example? := nofun
  properties := nofun
  mapping := nofun
  extensions := nofun
  separate := List.nodup_nil
  extended := nofun

theorem mem_distinctValues {values : List Json} {v : Json} (h : v ∈ distinctValues values) :
    v ∈ values := by
  have hfold : ∀ acc : List Json, (∀ w ∈ acc, w ∈ values) → ∀ vs : List Json, (∀ w ∈ vs, w ∈ values) →
      ∀ w ∈ vs.foldl (fun acc v => if acc.any fun w => w.same v then acc else acc ++ [v]) acc,
        w ∈ values := by
    intro acc hacc vs hvs
    induction vs generalizing acc with
    | nil => exact hacc
    | cons v vs ih =>
      refine ih _ ?_ fun w hw => hvs w (List.mem_cons_of_mem _ hw)
      dsimp only
      split
      · exact hacc
      · intro w hw
        rcases List.mem_append.mp hw with hw | hw
        · exact hacc w hw
        · rw [List.mem_singleton.mp hw]
          exact hvs v List.mem_cons_self
  exact hfold [] (List.forall_mem_nil _) values (fun w hw => hw) v h

theorem nodup_mappingOf {d : Discriminant} (hd : (d.mapping.map (·.1)).Nodup) (ss : List Schema) :
    ((mappingOf d ss).map (·.1)).Nodup := by
  have hsub : ∀ entries : List (String × Nat),
      ((mappingOf { d with mapping := entries } ss).map (·.1)).Sublist (entries.map (·.1)) := by
    intro entries
    induction entries with
    | nil => exact .slnil
    | cons e entries ih =>
      rw [mappingOf, List.filterMap_cons]
      split
      · exact ih.cons _
      · next r hr =>
        obtain ⟨r', -, rfl⟩ := Option.map_eq_some_iff.mp hr
        exact ih.cons_cons _
  exact (hsub d.mapping).nodup hd

theorem clean_headD {ss : List Schema} (h : ∀ s ∈ ss, s.Clean) : (ss.headD {}).Clean := by
  cases ss with
  | nil => exact clean_empty
  | cons s ss => exact h s List.mem_cons_self

theorem clean_objectOf (ps : List Property) (index : Option IndexSignature) (strictness : Strictness)
    (ss : List Schema) : (objectOf ps index strictness ss).Clean :=
  { clean_empty with
    properties := fun qs hqs => by
      have hqs : (if _ then none else some _) = some qs := hqs
      split at hqs
      · cases hqs
      · rw [← Option.some.inj hqs]
        exact nodup_keys_table _ }

theorem clean_tupleOf {es : List TupleElement} (he : es.length < 2 ^ 64) (ss : List Schema) :
    (tupleOf es ss).Clean := by
  have hneeded : ((es.filter (!·.rest)).takeWhile (!·.optional)).length < 2 ^ 64 :=
    Nat.lt_of_le_of_lt (Nat.le_trans (List.takeWhile_sublist _).length_le
      (List.filter_sublist.length_le)) he
  have hfixed : (((List.zipWith (fun (e : TupleElement) (s : Schema) => (e.rest, s)) es ss).filter
      (!·.1)).map (·.2)).length < 2 ^ 64 := by
    rw [List.length_map]
    refine Nat.lt_of_le_of_lt (Nat.le_trans List.filter_sublist.length_le ?_) he
    rw [List.length_zipWith]
    exact Nat.min_le_left _ _
  refine { clean_empty with sizes := fun n hn => ?_ }
  simp only [Schema.sizes, tupleOf, Schema.ofType, List.mem_append, Option.mem_toList,
    reduceCtorEq, or_false, Option.some.injEq] at hn
  rcases hn with hn | hn
  · exact hn ▸ hneeded
  · split at hn
    · cases hn
    · exact Option.some.inj hn ▸ hfixed

theorem clean_unionOf {ms : List SourceType} {d : Option Discriminant} {ss : List Schema}
    (hd : ∀ x ∈ d, (x.mapping.map (·.1)).Nodup)
    (hm : ∀ type ∈ ms, ∀ v, type.form = .literal v → v.Readable) (h : ∀ s ∈ ss, s.Clean) :
    (unionOf ms d ss).Clean := by
  unfold unionOf
  split
  · refine { clean_empty with values := fun vs hvs v hv => ?_ }
    cases hvs
    obtain ⟨type, ht, hliteral⟩ := List.mem_filterMap.mp (mem_distinctValues hv)
    refine hm type (List.mem_filter.mp ht).1 v ?_
    unfold literalValue? at hliteral
    split at hliteral
    · next w hw => rw [hw, Option.some.inj hliteral]
    · cases hliteral
  · split
    · next d =>
      refine { clean_empty with mapping := fun x hx m hxm => ?_ }
      cases hx
      have hxm : (if _ then none else some _) = some m := hxm
      split at hxm
      · cases hxm
      · rw [← Option.some.inj hxm]
        exact nodup_mappingOf (hd d rfl) ss
    · exact h _ List.mem_cons_self
    · exact { clean_empty with }

theorem clean_nativeOf (name : String) {ss : List Schema} (h : ∀ s ∈ ss, s.Clean) :
    (nativeOf name ss).Clean := by
  unfold nativeOf
  split
  · exact { clean_empty with }
  · exact { clean_empty with }
  · exact { clean_empty with }
  · exact { clean_empty with }
  · exact { clean_empty with }
  · exact clean_headD h
  · refine { clean_empty with properties := fun ps hps => ?_ }
    cases hps
    decide
  · split
    · exact { clean_empty with }
    · split <;> exact { clean_empty with }

theorem clean_atomicSchema (a : Atomic) : (atomicSchema a).Clean := by
  cases a <;> exact { clean_empty with }

/-- The schema of a clean type's form is clean when those of its parts are. -/
theorem clean_assemble {type : SourceType} (ht : type.Clean) {ss : List Schema}
    (h : ∀ s ∈ ss, s.Clean) : (assemble type.form ss).Clean := by
  have hform := ht.here.form
  have hinside := ht.inside
  generalize type.form = form at hform hinside
  unfold assemble
  split
  · exact clean_empty
  · exact clean_empty
  · exact clean_empty
  · exact { clean_empty with }
  · exact clean_atomicSchema _
  · next v =>
    refine { clean_empty with const := fun w hw => ?_ }
    cases hw
    exact hform
  · exact clean_objectOf _ _ _ _
  · exact { clean_empty with }
  · exact clean_tupleOf hform ss
  · refine clean_unionOf hform (fun u hu v hv => ?_) h
    have hu := (hinside u hu).here.form
    rwa [hv] at hu
  · exact { clean_empty with }
  · refine { clean_empty with values := fun vs hvs v hv => ?_ }
    cases hvs
    obtain ⟨m, hm, rfl⟩ := List.mem_map.mp hv
    exact hform m hm
  · exact clean_nativeOf _ h
  · exact clean_empty

/-! ### Conversions -/

theorem all_itemType {P : SourceType → Prop} {e : TupleElement} (h : e.type.All P) :
    (TupleElement.itemType e).All P := by
  unfold TupleElement.itemType
  split
  · split
    · next element heq => exact h.inside element (by rw [heq]; exact List.mem_cons_self)
    · exact h
  · exact h

/-- The parts of a type stand in it, the items of a rest element one step further down. -/
theorem all_parts {P : SourceType → Prop} {type : SourceType} (h : type.All P) :
    ∀ part ∈ parts type.form, part.All P := by
  have hinside := h.inside
  generalize type.form = form at hinside
  intro part hp
  unfold parts at hp
  split at hp
  · rcases List.mem_append.mp hp with hp | hp
    · exact hinside part (List.mem_append_left _ hp)
    · obtain ⟨i, hi, rfl⟩ := Option.map_eq_some_iff.mp (Option.mem_toList.mp hp)
      refine hinside _ (List.mem_append_right _ (List.mem_flatMap.mpr ⟨i, ?_, by simp⟩))
      exact Option.mem_toList.mpr hi
  · exact hinside part hp
  · obtain ⟨e, he, rfl⟩ := List.mem_map.mp hp
    exact all_itemType (hinside _ (List.mem_map_of_mem he))
  · split at hp
    · cases hp
    · exact hinside part (List.mem_filter.mp hp).1
  · exact hinside part hp
  · exact hinside part (List.mem_of_getElem? (Option.mem_toList.mp hp))
  · exact hinside part (List.mem_of_getElem? (Option.mem_toList.mp hp))
  · exact hinside part (List.mem_of_getElem? (Option.mem_toList.mp hp))
  · cases hp

/-- Conversions of clean types only make clean nodes. -/
theorem nodewise_clean {registry : Registry} (h : ∀ e ∈ registry.entries, e.2.Clean) :
    Nodewise registry SourceType.Clean fun _ => Schema.Clean where
  grow _ hs := hs
  empty := clean_empty
  ofType _ := { clean_empty with }
  reference _ := { clean_empty with }
  orNull _ := { clean_empty with }
  finish ht hs := clean_finish ht.here hs
  decorate {_ type p s} ht hp hs := by
    have hform := ht.here.form
    unfold formProperties at hp
    split at hp
    · next heq =>
      rw [heq] at hform
      exact clean_decorate (hform p hp) hs
    · cases hp
  assemble ht _ hs := clean_assemble ht hs
  parts ht := all_parts ht
  registered hget := h _ (mem_of_lookup hget)

end TypedApi.SchemaTable
