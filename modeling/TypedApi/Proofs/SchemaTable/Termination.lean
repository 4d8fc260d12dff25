import Mathlib.Data.List.MinMax
import TypedApi.Proofs.SchemaTable.History

/-! Enough steps for a conversion.

A step either goes to a part of its type, which is nested less deep, or to a registered
type whose name had no entry and now has one. So `need` bounds the steps that are left
(`finishes_bodyWithin`), the bound in `convert` is never reached (`finishes_convertWithin`),
and each result of `convert` is that of a run (`site_convert`). -/
namespace TypedApi.SchemaTable

open OpenApi

/-- The name has a key and a schema stands under it. -/
def knows (t : SchemaTable) (name : String) : Bool := (t.keys.lookup name).any t.has

/-- The registered names that have no entry. -/
def missing (registry : Registry) (t : SchemaTable) : List String :=
  registry.names.filter fun name => !t.knows name

/-- The steps that the body of a type may take. -/
def need (registry : Registry) (type : SourceType) (t : SchemaTable) : Nat :=
  (missing registry t).length * registry.height + type.height

variable {registry : Registry} {t t' : SchemaTable}

theorem knows_of_extends (h : Extends t t') {name : String} (hk : t.knows name = true) :
    t'.knows name = true := by
  obtain ⟨key, hl, hhas⟩ := (Option.any_eq_true ..).mp hk
  rw [knows, h.keys.lookup_eq_some hl]
  exact h.has hhas

theorem missing_of_extends (registry : Registry) (h : Extends t t') :
    missing registry t' = (missing registry t).filter fun name => !t'.knows name := by
  rw [missing, missing, List.filter_filter]
  refine List.filter_congr fun name _ => ?_
  cases hk : t.knows name with
  | false => simp
  | true => simp [knows_of_extends h hk]

theorem length_missing_le (registry : Registry) (h : Extends t t') :
    (missing registry t').length ≤ (missing registry t).length := by
  rw [missing_of_extends registry h]
  exact List.length_filter_le ..

theorem length_missing_lt (h : Extends t t') {name : String} (hm : name ∈ registry.names)
    (hk : t.knows name = false) (hk' : t'.knows name = true) :
    (missing registry t').length < (missing registry t).length := by
  rw [missing_of_extends registry h, List.length_filter_lt_length_iff_exists]
  refine ⟨name, List.mem_filter.mpr ⟨hm, ?_⟩, ?_⟩
  · rw [hk]
    rfl
  · rw [hk']
    exact Bool.false_ne_true

/-- To open an entry uses up a missing name. -/
theorem length_missing_open {target key : String} {t₁ : SchemaTable}
    (hm : target ∈ registry.names) (hkey : t.keyFor target = (key, t₁))
    (hhas : t₁.has key = false) :
    (missing registry (t₁.store key {})).length < (missing registry t).length := by
  have hlook : t₁.keys.lookup target = some key := by
    have h := lookup_keyFor t target
    rwa [hkey] at h
  have hgrow : Extends t t₁ := by
    have h := Extends.keyFor t target
    rwa [hkey] at h
  refine length_missing_lt (hgrow.trans (.store t₁ key {})) hm ?_ ?_
  · by_contra hc
    have hk := knows_of_extends hgrow (Bool.not_eq_false _ ▸ hc)
    rw [knows, hlook, Option.any_some, hhas] at hk
    exact Bool.false_ne_true hk
  · rw [knows]
    show (t₁.keys.lookup target).any (t₁.store key {}).has = true
    rw [hlook, Option.any_some]
    exact has_store_self t₁ key {}

/-! ### Computations that finish -/

def Finishes {α : Type} (c : Conversion α) (t : SchemaTable) : Prop := ∃ r, c.run t = some r

theorem Finishes.map {α β : Type} {c : Conversion α} {t : SchemaTable} (f : α → β)
    (h : Finishes c t) : Finishes (f <$> c) t := by
  obtain ⟨r, hr⟩ := h
  exact ⟨(f r.1, r.2), by rw [StateT.run_map, hr]; rfl⟩

variable {body : SourceType → Conversion Schema}

theorem finishes_fill {key : String} {make : Conversion Schema}
    (h : Finishes make (t.store key {})) : Finishes (fill key make) t := by
  obtain ⟨⟨s, t'⟩, hr⟩ := h
  refine ⟨(.reference key, t'.store key s), ?_⟩
  simp only [fill, StateT.run_bind, StateT.run_modify, StateT.run_pure, Option.pure_def,
    Option.bind_eq_bind, Option.bind_some, hr]

/-- The registered type of `target` finishes once its entry is open. -/
def FinishesTarget (registry : Registry) (body : SourceType → Conversion Schema)
    (target : String) (t : SchemaTable) : Prop :=
  ∀ type key t₁, registry.get? target = some type → t.keyFor target = (key, t₁) →
    t₁.has key = false → Finishes (body type) (t₁.store key {})

theorem finishes_refWith {target : String} (h : FinishesTarget registry body target t) :
    Finishes (refWith registry body target) t := by
  obtain ⟨key, t₁, hkey⟩ : ∃ key t₁, t.keyFor target = (key, t₁) := ⟨_, _, rfl⟩
  unfold Finishes
  simp only [refWith, StateT.run_bind, StateT.run_get, StateT.run_set, Option.pure_def,
    Option.bind_eq_bind, Option.bind_some, hkey]
  cases hhas : t₁.has key with
  | true => exact ⟨(.reference key, t₁), rfl⟩
  | false =>
    cases hget : registry.get? target with
    | none => exact ⟨({}, t₁), rfl⟩
    | some type => exact finishes_fill ((h type key t₁ hget hkey hhas).map (withNull type.nullable))

theorem finishes_namedWith {name : String} {type : SourceType}
    (h : ∀ t', Extends t t' → Finishes (body type) t') : Finishes (namedWith body name type) t := by
  obtain ⟨key, t₁, hkey⟩ : ∃ key t₁, t.keyFor name = (key, t₁) := ⟨_, _, rfl⟩
  have hgrow : Extends t t₁ := .of_writes (writes_of_keyFor hkey)
  unfold Finishes
  simp only [namedWith, StateT.run_bind, StateT.run_get, StateT.run_set, Option.pure_def,
    Option.bind_eq_bind, Option.bind_some, hkey]
  cases hhas : t₁.has key with
  | true => exact ⟨(.reference key, t₁), rfl⟩
  | false => exact finishes_fill (h _ (hgrow.trans (.store t₁ key {})))

theorem finishes_siteWith {type : SourceType} (h : ∀ t', Extends t t' → Finishes (body type) t')
    (href : ∀ target, type.form = .ref target → FinishesTarget registry body target t) :
    Finishes (siteWith registry body type) t := by
  rcases siteWith_cases registry body type with
    ⟨target, hform, heq⟩ | ⟨name, _, _, heq⟩ | ⟨_, _, heq⟩ <;> rw [heq]
  · exact (finishes_refWith (href target hform)).map _
  · exact (finishes_namedWith h).map _
  · exact (h t (.refl t)).map _

theorem finishes_mapM (hb : Runs registry body) {types : List SourceType}
    (h : ∀ type ∈ types, ∀ t', Extends t t' → Finishes (siteWith registry body type) t') :
    Finishes (types.mapM (siteWith registry body)) t := by
  induction types generalizing t with
  | nil => exact ⟨([], t), rfl⟩
  | cons type types ih =>
    obtain ⟨⟨s, t₁⟩, hs⟩ := h type List.mem_cons_self t (.refl t)
    have hgrow := Extends.of_writes (site_of_siteWith hb hs).writes
    obtain ⟨⟨ss, t₂⟩, hss⟩ := ih fun u hu t' ht =>
      h u (List.mem_cons_of_mem _ hu) t' (hgrow.trans ht)
    refine ⟨(s :: ss, t₂), ?_⟩
    rw [List.mapM_cons, StateT.run_bind, hs]
    show (types.mapM (siteWith registry body) >>= fun ss => pure (s :: ss)).run t₁ = _
    rw [bind_pure_comp, StateT.run_map, hss]
    rfl

/-! ### The bound -/

theorem height_pos (type : SourceType) : 0 < type.height := by
  rw [height_eq]
  exact Nat.succ_pos _

theorem mem_names_of_get? {target : String} {type : SourceType}
    (h : registry.get? target = some type) : target ∈ registry.names :=
  List.mem_map.mpr ⟨_, Json.mem_of_lookup h, rfl⟩

theorem height_le_registry {target : String} {type : SourceType}
    (h : registry.get? target = some type) : type.height ≤ registry.height := by
  have hm : type.height ∈ registry.entries.map fun e => e.2.height :=
    List.mem_map.mpr ⟨_, Json.mem_of_lookup h, rfl⟩
  exact List.le_max_of_le' 0 hm (Nat.le_refl _)

theorem finishesTarget_of_need {fuel : Nat} {target : String}
    (ih : ∀ type t, need registry type t ≤ fuel → Finishes (bodyWithin registry fuel type) t)
    (hn : (missing registry t).length * registry.height ≤ fuel) :
    FinishesTarget registry (bodyWithin registry fuel) target t := by
  intro type key t₁ hget hkey hhas
  refine ih type _ (Nat.le_trans ?_ hn)
  have hlt := length_missing_open (mem_names_of_get? hget) hkey hhas
  calc need registry type (t₁.store key {})
      ≤ (missing registry (t₁.store key {})).length * registry.height + registry.height :=
        Nat.add_le_add_left (height_le_registry hget) _
    _ = ((missing registry (t₁.store key {})).length + 1) * registry.height := by
        rw [Nat.succ_mul]
    _ ≤ (missing registry t).length * registry.height := Nat.mul_le_mul_right _ hlt

/-- The body of a type finishes within the steps it may need. -/
theorem finishes_bodyWithin (registry : Registry) (fuel : Nat) (type : SourceType)
    (t : SchemaTable) (h : need registry type t ≤ fuel) :
    Finishes (bodyWithin registry fuel type) t := by
  induction fuel generalizing type t with
  | zero =>
    have := height_pos type
    unfold need at h
    omega
  | succ fuel ih =>
    show Finishes (bodyWith registry (bodyWithin registry fuel) type) t
    have htarget : ∀ t', Extends t t' → ∀ target,
        FinishesTarget registry (bodyWithin registry fuel) target t' := by
      intro t' ht target
      refine finishesTarget_of_need ih ?_
      have hle := Nat.mul_le_mul_right registry.height (length_missing_le registry ht)
      have := height_pos type
      unfold need at h
      omega
    rcases ref_or_ne type with ⟨target, hform⟩ | hform
    · rw [bodyWith_ref registry _ type hform]
      exact (finishes_refWith (htarget t (.refl t) target)).map _
    · rw [bodyWith_eq_assemble registry _ type hform]
      refine (finishes_mapM (runs_bodyWithin registry fuel) fun part hp t' ht => ?_).map _
      refine finishes_siteWith (fun t'' ht' => ih part t'' ?_) fun target _ => htarget t' ht target
      have hle := Nat.mul_le_mul_right registry.height
        (length_missing_le registry (ht.trans ht'))
      have hlow := height_le_of_mem_parts hp
      rw [need, height_eq type] at h
      rw [need]
      omega

theorem length_missing_le_size (registry : Registry) (t : SchemaTable) :
    (missing registry t).length ≤ registry.size := by
  refine Nat.le_trans (List.length_filter_le ..) ?_
  exact Nat.le_of_eq (List.length_map _)

theorem need_le_steps (registry : Registry) (type : SourceType) (t : SchemaTable) :
    need registry type t ≤ steps registry type := by
  have hsize := length_missing_le_size registry t
  calc need registry type t
      ≤ registry.size * max type.height registry.height + max type.height registry.height :=
        Nat.add_le_add (Nat.mul_le_mul hsize (Nat.le_max_right ..)) (Nat.le_max_left ..)
    _ = (registry.size + 1) * max type.height registry.height := by rw [Nat.succ_mul]
    _ ≤ steps registry type := Nat.mul_le_mul_left _ (Nat.le_succ _)

/-- A conversion never reaches its bound, whatever the registry and the table. -/
theorem finishes_convertWithin (registry : Registry) (type : SourceType) (t : SchemaTable) :
    Finishes (convertWithin registry (steps registry type) type) t := by
  refine finishes_siteWith (fun t' _ => ?_) fun target _ => ?_
  · exact finishes_bodyWithin registry _ type t' (need_le_steps registry type t')
  · refine finishesTarget_of_need (finishes_bodyWithin registry _) ?_
    exact Nat.le_trans (Nat.le_add_right ..) (need_le_steps registry type t)

theorem convertWithin_eq_convert (registry : Registry) (type : SourceType) (t : SchemaTable) :
    (convertWithin registry (steps registry type) type).run t = some (convert registry type t) := by
  obtain ⟨r, hr⟩ := finishes_convertWithin registry type t
  rw [convert, hr]
  rfl

/-- What `convert` gives is the result of a run. -/
theorem site_convert (registry : Registry) (type : SourceType) (t : SchemaTable) :
    Site registry type t (convert registry type t).1 (convert registry type t).2 :=
  site_of_siteWith (runs_bodyWithin registry _) (convertWithin_eq_convert registry type t)

theorem convert_eq {type : SourceType} {s : Schema}
    (h : Site registry type t s t') : convert registry type t = (s, t') := by
  obtain ⟨hs, ht⟩ := (site_convert registry type t).unique h
  exact Prod.ext hs ht

/-- A run of a body is what the steps of a conversion compute. -/
theorem bodyWithin_of_body {type : SourceType} {s : Schema} (h : Body registry type t s t') :
    (bodyWithin registry (steps registry type) type).run t = some (s, t') := by
  obtain ⟨⟨u, t''⟩, hr⟩ := finishes_bodyWithin registry (steps registry type) type t
    (need_le_steps registry type t)
  obtain ⟨rfl, rfl⟩ := h.unique (runs_bodyWithin registry _ type t u t'' hr)
  exact hr

end TypedApi.SchemaTable
