import TypedApi.Proofs.SchemaTable.Assembly

/-! Conversions as runs.

`Body`, `Entry`, `Site` and `Sites` say what a conversion does, without a bound on the
number of steps: from a type and a table to a schema and a table. `Body.of_run` and
`Sites.of_run` read a finished computation as a run, and `run_unique` says that there is no
other one. What holds of all conversions is proved by induction on runs. -/
namespace TypedApi.SchemaTable

open OpenApi

mutual

/-- The schema of a type without its name and its null. -/
inductive Body (registry : Registry) : SourceType → SchemaTable → Schema → SchemaTable → Prop
  | parts {type t ss t'} (hform : ∀ target, type.form ≠ .ref target)
      (hparts : Sites registry (parts type.form) t ss t') :
      Body registry type t (finish type (assemble type.form ss)) t'
  | ref {type target t s t'} (hform : type.form = .ref target)
      (hentry : Entry registry target ((registry.get? target).map fun u => (u, u.nullable)) t s t') :
      Body registry type t (finish type s) t'

/-- The reference to a name, with the type that is stored for it and whether that may be
null. -/
inductive Entry (registry : Registry) :
    String → Option (SourceType × Bool) → SchemaTable → Schema → SchemaTable → Prop
  | known {name found t key t₁} (hkey : t.keyFor name = (key, t₁)) (hhas : t₁.has key = true) :
      Entry registry name found t (.reference key) t₁
  | missing {name t key t₁} (hkey : t.keyFor name = (key, t₁)) (hhas : t₁.has key = false) :
      Entry registry name none t {} t₁
  | fill {name type null t t₁ s t₂} (key : String) (hkey : t.keyFor name = (key, t₁))
      (hhas : t₁.has key = false) (hbody : Body registry type (t₁.store key {}) s t₂) :
      Entry registry name (some (type, null)) t (.reference key) (t₂.store key (withNull null s))

/-- The schema that stands where a type is used. -/
inductive Site (registry : Registry) : SourceType → SchemaTable → Schema → SchemaTable → Prop
  | ref {type target t s t'} (hform : type.form = .ref target)
      (hentry : Entry registry target ((registry.get? target).map fun u => (u, u.nullable)) t s t') :
      Site registry type t (withNull type.nullable s) t'
  | named {type name t s t'} (hform : isRegistrable type.form = true)
      (hname : type.name = some name) (hentry : Entry registry name (some (type, false)) t s t') :
      Site registry type t (withNull type.nullable s) t'
  | inline {type t s t'} (hform : ∀ target, type.form ≠ .ref target)
      (hname : isRegistrable type.form = true → type.name = none)
      (hbody : Body registry type t s t') :
      Site registry type t (withNull type.nullable s) t'

/-- The schemas of several sites, from the first to the last. -/
inductive Sites (registry : Registry) :
    List SourceType → SchemaTable → List Schema → SchemaTable → Prop
  | nil {t} : Sites registry [] t [] t
  | cons {type types t s t₁ ss t₂} (hsite : Site registry type t s t₁)
      (hrest : Sites registry types t₁ ss t₂) :
      Sites registry (type :: types) t (s :: ss) t₂

end

variable {registry : Registry}

theorem Sites.length_eq {types : List SourceType} {t t' : SchemaTable} {ss : List Schema}
    (h : Sites registry types t ss t') : ss.length = types.length := by
  induction types generalizing t ss with
  | nil => cases h; rfl
  | cons type types ih =>
    cases h with
    | cons _ hrest => rw [List.length_cons, List.length_cons, ih hrest]

theorem Sites.split {types more : List SourceType} {t t' : SchemaTable} {ss : List Schema}
    (h : Sites registry (types ++ more) t ss t') :
    ∃ ss₁ t₁ ss₂, ss = ss₁ ++ ss₂ ∧ Sites registry types t ss₁ t₁ ∧ Sites registry more t₁ ss₂ t' := by
  induction types generalizing t ss with
  | nil => exact ⟨[], t, ss, rfl, .nil, h⟩
  | cons type types ih =>
    cases h with
    | cons hsite hrest =>
      obtain ⟨ss₁, t₁, ss₂, rfl, htypes, hmore⟩ := ih hrest
      exact ⟨_ :: ss₁, t₁, ss₂, rfl, .cons hsite htypes, hmore⟩

/-! ### A computation that finishes is a run -/

section Computation

variable {body : SourceType → Conversion Schema}

/-- Every result of `body` comes from a run. -/
def Runs (registry : Registry) (body : SourceType → Conversion Schema) : Prop :=
  ∀ type t s t', (body type).run t = some (s, t') → Body registry type t s t'

theorem entry_of_fill {name key : String} {type : SourceType} {null : Bool}
    {t t₁ : SchemaTable} {s : Schema} {t' : SchemaTable} (hb : Runs registry body)
    (hkey : t.keyFor name = (key, t₁)) (hhas : t₁.has key = false)
    (h : (fill key (withNull null <$> body type)).run t₁ = some (s, t')) :
    Entry registry name (some (type, null)) t s t' := by
  simp only [fill, StateT.run_bind, StateT.run_modify, StateT.run_map, StateT.run_pure,
    Option.pure_def, Option.bind_eq_bind, Option.bind_some, Option.map_eq_map] at h
  rw [Option.bind_eq_some_iff] at h
  obtain ⟨⟨u, t₂⟩, hrun, hend⟩ := h
  obtain ⟨⟨v, t₃⟩, hv, hpair⟩ := Option.map_eq_some_iff.mp hrun
  cases hpair
  cases hend
  exact .fill key hkey hhas (hb _ _ _ _ hv)

theorem entry_of_refWith (hb : Runs registry body) {target : String} {t : SchemaTable}
    {s : Schema} {t' : SchemaTable} (h : (refWith registry body target).run t = some (s, t')) :
    Entry registry target ((registry.get? target).map fun u => (u, u.nullable)) t s t' := by
  obtain ⟨key, t₁, hkey⟩ : ∃ key t₁, t.keyFor target = (key, t₁) := ⟨_, _, rfl⟩
  simp only [refWith, StateT.run_bind, StateT.run_get, StateT.run_set, Option.pure_def,
    Option.bind_eq_bind, Option.bind_some, hkey] at h
  cases hhas : t₁.has key with
  | true =>
    rw [hhas, if_pos rfl] at h
    cases h
    exact .known hkey hhas
  | false =>
    rw [hhas, if_neg Bool.false_ne_true] at h
    cases hget : registry.get? target with
    | none =>
      rw [hget] at h
      cases h
      exact .missing hkey hhas
    | some type =>
      rw [hget] at h
      exact entry_of_fill hb hkey hhas h

theorem entry_of_namedWith (hb : Runs registry body) {name : String} {type : SourceType}
    {t : SchemaTable} {s : Schema} {t' : SchemaTable}
    (h : (namedWith body name type).run t = some (s, t')) :
    Entry registry name (some (type, false)) t s t' := by
  obtain ⟨key, t₁, hkey⟩ : ∃ key t₁, t.keyFor name = (key, t₁) := ⟨_, _, rfl⟩
  simp only [namedWith, StateT.run_bind, StateT.run_get, StateT.run_set, Option.pure_def,
    Option.bind_eq_bind, Option.bind_some, hkey] at h
  cases hhas : t₁.has key with
  | true =>
    rw [hhas, if_pos rfl] at h
    cases h
    exact .known hkey hhas
  | false =>
    rw [hhas, if_neg Bool.false_ne_true] at h
    exact entry_of_fill hb hkey hhas (by rwa [show withNull false = id from rfl, id_map])

/-- Which of its three ways a site takes. -/
theorem siteWith_cases (registry : Registry) (body : SourceType → Conversion Schema)
    (type : SourceType) :
    (∃ target, type.form = .ref target ∧
      siteWith registry body type = withNull type.nullable <$> refWith registry body target) ∨
    (∃ name, isRegistrable type.form = true ∧ type.name = some name ∧
      siteWith registry body type = withNull type.nullable <$> namedWith body name type) ∨
    ((∀ target, type.form ≠ .ref target) ∧
      (isRegistrable type.form = true → type.name = none) ∧
      siteWith registry body type = withNull type.nullable <$> body type) := by
  rcases ref_or_ne type with ⟨target, hform⟩ | hform
  · refine .inl ⟨target, hform, ?_⟩
    rw [siteWith, hform]
    rfl
  obtain ⟨form, nullable, optional, name, description, constraints⟩ := type
  cases name with
  | none =>
    refine .inr (.inr ⟨hform, fun _ => rfl, ?_⟩)
    cases form <;> first | rfl | exact absurd rfl (hform _)
  | some name =>
    by_cases hreg : isRegistrable form = true
    · refine .inr (.inl ⟨name, hreg, rfl, ?_⟩)
      cases form <;> first | rfl | exact absurd hreg Bool.false_ne_true
    · refine .inr (.inr ⟨hform, fun hc => absurd hc hreg, ?_⟩)
      cases form <;> first | rfl | exact absurd rfl (hform _) | exact absurd rfl hreg

theorem site_of_siteWith (hb : Runs registry body) {type : SourceType} {t : SchemaTable}
    {s : Schema} {t' : SchemaTable} (h : (siteWith registry body type).run t = some (s, t')) :
    Site registry type t s t' := by
  rcases siteWith_cases registry body type with
    ⟨target, hform, heq⟩ | ⟨name, hform, hname, heq⟩ | ⟨hform, hname, heq⟩ <;>
    rw [heq, StateT.run_map] at h <;> obtain ⟨⟨u, t₁⟩, hu, hpair⟩ := Option.map_eq_some_iff.mp h <;>
    cases hpair
  · exact .ref hform (entry_of_refWith hb hu)
  · exact .named hform hname (entry_of_namedWith hb hu)
  · exact .inline hform hname (hb _ _ _ _ hu)

theorem sites_of_mapM (hb : Runs registry body) {types : List SourceType} {t : SchemaTable}
    {ss : List Schema} {t' : SchemaTable}
    (h : (types.mapM (siteWith registry body)).run t = some (ss, t')) :
    Sites registry types t ss t' := by
  induction types generalizing t ss with
  | nil =>
    rw [List.mapM_nil] at h
    cases h
    exact .nil
  | cons type types ih =>
    rw [List.mapM_cons, StateT.run_bind] at h
    obtain ⟨⟨s, t₁⟩, hs, hrest⟩ := Option.bind_eq_some_iff.mp h
    rw [bind_pure_comp, StateT.run_map] at hrest
    obtain ⟨⟨us, t₂⟩, hus, hpair⟩ := Option.map_eq_some_iff.mp hrest
    cases hpair
    exact .cons (site_of_siteWith hb hs) (ih hus)

theorem runs_bodyWith (hb : Runs registry body) : Runs registry (bodyWith registry body) := by
  intro type t s t' h
  by_cases hform : ∃ target, type.form = .ref target
  · obtain ⟨target, hform⟩ := hform
    rw [bodyWith_ref registry body type hform, StateT.run_map] at h
    obtain ⟨⟨u, t₁⟩, hu, hpair⟩ := Option.map_eq_some_iff.mp h
    cases hpair
    exact .ref hform (entry_of_refWith hb hu)
  · have hform : ∀ target, type.form ≠ .ref target := fun target hc => hform ⟨target, hc⟩
    rw [bodyWith_eq_assemble registry body type hform, StateT.run_map] at h
    obtain ⟨⟨ss, t₁⟩, hss, hpair⟩ := Option.map_eq_some_iff.mp h
    cases hpair
    exact .parts hform (sites_of_mapM hb hss)

/-- Whatever the bound, a computation that finishes is a run. -/
theorem runs_bodyWithin (registry : Registry) (fuel : Nat) :
    Runs registry (bodyWithin registry fuel) := by
  induction fuel with
  | zero => intro type t s t' h; cases h
  | succ fuel ih => exact runs_bodyWith ih

end Computation

/-! ### There is one run only -/

mutual

theorem Body.unique {type : SourceType} {t t₁ t₂ : SchemaTable} {s₁ s₂ : Schema}
    (h : Body registry type t s₁ t₁) (g : Body registry type t s₂ t₂) : s₁ = s₂ ∧ t₁ = t₂ :=
  match h, g with
  | .parts _ hp, .parts _ hq => by
    obtain ⟨rfl, rfl⟩ := Sites.unique hp hq
    exact ⟨rfl, rfl⟩
  | .parts hform _, .ref hq _ => absurd hq (hform _)
  | .ref hp _, .parts hform _ => absurd hp (hform _)
  | .ref hp he, .ref hq hf => by
    cases hp.symm.trans hq
    obtain ⟨rfl, rfl⟩ := Entry.unique he hf
    exact ⟨rfl, rfl⟩
termination_by structural h

theorem Entry.unique {name : String} {found : Option (SourceType × Bool)} {t t₁ t₂ : SchemaTable}
    {s₁ s₂ : Schema} (h : Entry registry name found t s₁ t₁)
    (g : Entry registry name found t s₂ t₂) : s₁ = s₂ ∧ t₁ = t₂ :=
  match h, g with
  | .known hk _, .known hl _ => by
    cases hk.symm.trans hl
    exact ⟨rfl, rfl⟩
  | .known hk hh, .missing hl hg => by
    cases hk.symm.trans hl
    exact absurd (hh.symm.trans hg) (by decide)
  | .known hk hh, .fill _ hl hg _ => by
    cases hk.symm.trans hl
    exact absurd (hh.symm.trans hg) (by decide)
  | .missing hk hh, .known hl hg => by
    cases hk.symm.trans hl
    exact absurd (hg.symm.trans hh) (by decide)
  | .missing hk _, .missing hl _ => by
    cases hk.symm.trans hl
    exact ⟨rfl, rfl⟩
  | .fill _ hk hh _, .known hl hg => by
    cases hk.symm.trans hl
    exact absurd (hg.symm.trans hh) (by decide)
  | .fill _ hk _ hb, .fill _ hl _ hc => by
    cases hk.symm.trans hl
    obtain ⟨rfl, rfl⟩ := Body.unique hb hc
    exact ⟨rfl, rfl⟩
termination_by structural h

theorem Site.unique {type : SourceType} {t t₁ t₂ : SchemaTable} {s₁ s₂ : Schema}
    (h : Site registry type t s₁ t₁) (g : Site registry type t s₂ t₂) : s₁ = s₂ ∧ t₁ = t₂ :=
  match h, g with
  | .ref hp he, .ref hq hf => by
    cases hp.symm.trans hq
    obtain ⟨rfl, rfl⟩ := Entry.unique he hf
    exact ⟨rfl, rfl⟩
  | .ref hp _, .named hq _ _ => by rw [hp] at hq; cases hq
  | .ref hp _, .inline hq _ _ => absurd hp (hq _)
  | .named hp _ _, .ref hq _ => by rw [hq] at hp; cases hp
  | .named _ hn he, .named _ hm hf => by
    cases hn.symm.trans hm
    obtain ⟨rfl, rfl⟩ := Entry.unique he hf
    exact ⟨rfl, rfl⟩
  | .named hp hn _, .inline _ hm _ => by cases hn.symm.trans (hm hp)
  | .inline hp _ _, .ref hq _ => absurd hq (hp _)
  | .inline _ hn _, .named hq hm _ => by cases hm.symm.trans (hn hq)
  | .inline _ _ hb, .inline _ _ hc => by
    obtain ⟨rfl, rfl⟩ := Body.unique hb hc
    exact ⟨rfl, rfl⟩
termination_by structural h

theorem Sites.unique {types : List SourceType} {t t₁ t₂ : SchemaTable} {ss₁ ss₂ : List Schema}
    (h : Sites registry types t ss₁ t₁) (g : Sites registry types t ss₂ t₂) :
    ss₁ = ss₂ ∧ t₁ = t₂ :=
  match h, g with
  | .nil, .nil => ⟨rfl, rfl⟩
  | .cons hp hr, .cons hq hs => by
    obtain ⟨rfl, rfl⟩ := Site.unique hp hq
    obtain ⟨rfl, rfl⟩ := Sites.unique hr hs
    exact ⟨rfl, rfl⟩
termination_by structural h

end

end TypedApi.SchemaTable
