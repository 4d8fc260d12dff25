import TypedApi.Proofs.SchemaTable.Consistency
import TypedApi.Proofs.SchemaTable.Retention

/-! References to one type agree.

`Visits` says which sites a run of conversions comes to, at any depth and through the registry,
and with which table. Wherever a site names a type that has an entry in the end, it was converted
to the reference to this entry (`uniform_convertAll`). What makes the exception is a reference that
is met while it dangles: it allows anything, also where its name has an entry later on. -/
namespace TypedApi.SchemaTable

open OpenApi

/-! ### Names of sites -/

/-- The name whose entry the schema of a site refers to. -/
def referredName? (type : SourceType) : Option String :=
  match type.form with
  | .ref target => some target
  | form => if isRegistrable form then type.name else none

theorem referredName?_ref {type : SourceType} {target : String} (h : type.form = .ref target) :
    referredName? type = some target := by
  rw [referredName?, h]

theorem referredName?_eq {type : SourceType} (h : ∀ target, type.form ≠ .ref target) :
    referredName? type = if isRegistrable type.form then type.name else none := by
  rw [referredName?]
  split
  · next target hform => exact absurd hform (h target)
  · rfl

theorem referredName?_eq_some_iff {type : SourceType} {name : String} :
    referredName? type = some name ↔
      type.form = .ref name ∨ isRegistrable type.form = true ∧ type.name = some name := by
  rcases ref_or_ne type with ⟨target, hform⟩ | hform
  · rw [referredName?_ref hform, hform]
    simp [isRegistrable]
  · rw [referredName?_eq hform]
    simp [hform name]

theorem referredName?_eq_none_iff {type : SourceType} :
    referredName? type = none ↔
      (∀ target, type.form ≠ .ref target) ∧ (isRegistrable type.form = true → type.name = none) := by
  rcases ref_or_ne type with ⟨target, hform⟩ | hform
  · rw [referredName?_ref hform]
    simp [hform]
  · rw [referredName?_eq hform]
    simp [hform]

/-! ### Bodies and their sites -/

/-- The sites that are converted for the body of a form. A form that is a reference is converted
like the plain site of it. -/
def bodySites : Form → List SourceType
  | .ref target => [.ofForm (.ref target)]
  | form => parts form

theorem bodySites_eq {form : Form} (h : ∀ target, form ≠ .ref target) :
    bodySites form = parts form := by
  unfold bodySites
  split
  · next target => exact absurd rfl (h target)
  · rfl

section Bodies

theorem body_of_parts (registry : Registry) {type : SourceType}
    (h : ∀ target, type.form ≠ .ref target) (t : SchemaTable) :
    Body registry type t
      (finish type (assemble type.form (convertAll registry (parts type.form) t).1))
      (convertAll registry (parts type.form) t).2 :=
  .parts h (sites_convertAll registry (parts type.form) t)

theorem body_of_ref (registry : Registry) {type : SourceType} {target : String}
    (h : type.form = .ref target) (t : SchemaTable) :
    Body registry type t (finish type (convert registry (.ofForm (.ref target)) t).1)
      (convert registry (.ofForm (.ref target)) t).2 := by
  have hsite := site_convert registry (.ofForm (.ref target)) t
  generalize convert registry (.ofForm (.ref target)) t = r at hsite
  obtain ⟨s, t'⟩ := r
  cases hsite with
  | ref hform hentry =>
    cases hform
    exact .ref h hentry
  | named hform _ _ => cases hform
  | inline hform _ _ => exact absurd rfl (hform target)

theorem exists_body (registry : Registry) (type : SourceType) (t : SchemaTable) :
    ∃ s, Body registry type t s (convertAll registry (bodySites type.form) t).2 := by
  rcases ref_or_ne type with ⟨target, hform⟩ | hform
  · rw [hform]
    exact ⟨_, body_of_ref registry hform t⟩
  · rw [bodySites_eq hform]
    exact ⟨_, body_of_parts registry hform t⟩

/-- A reference to a registered name without an entry stores the registered type. -/
theorem site_of_found {registry : Registry} {type found : SourceType} {target key : String}
    {t t₁ t₂ : SchemaTable} {s : Schema} (hform : type.form = .ref target)
    (hget : registry.get? target = some found) (hkey : t.keyFor target = (key, t₁))
    (hhas : t₁.has key = false) (hbody : Body registry found (t₁.store key {}) s t₂) :
    Site registry type t (withNull type.nullable (.reference key))
      (t₂.store key (withNull found.nullable s)) := by
  refine .ref hform ?_
  rw [hget]
  exact .fill key hkey hhas hbody

end Bodies

/-! ### The sites of a run -/

/-- To convert the site of `type` on the table `t`, the body of `made` is converted on `u`: its
own one, or that of the registered type. -/
inductive Opens (registry : Registry) :
    SourceType → SchemaTable → SourceType → SchemaTable → Prop
  | inline {type t} (hname : referredName? type = none) : Opens registry type t type t
  | named {type name t key t₁} (hform : isRegistrable type.form = true)
      (hname : type.name = some name) (hkey : t.keyFor name = (key, t₁))
      (hhas : t₁.has key = false) : Opens registry type t type (t₁.store key {})
  | ref {type target found t key t₁} (hform : type.form = .ref target)
      (hget : registry.get? target = some found) (hkey : t.keyFor target = (key, t₁))
      (hhas : t₁.has key = false) : Opens registry type t found (t₁.store key {})

/-- When `types` are converted one after the other from the table `t`, the site of `type` is
converted on the table `u`. -/
inductive Visits (registry : Registry) :
    List SourceType → SchemaTable → SourceType → SchemaTable → Prop
  | here {type types t} : Visits registry (type :: types) t type t
  | later {first types t type u} (h : Visits registry types (convert registry first t).2 type u) :
      Visits registry (first :: types) t type u
  | inside {first types t made t₁ type u} (hopen : Opens registry first t made t₁)
      (h : Visits registry (bodySites made.form) t₁ type u) :
      Visits registry (first :: types) t type u

section Visits

variable {registry : Registry} {types : List SourceType} {type made : SourceType}
  {t u t₁ : SchemaTable}

theorem Opens.writes (h : Opens registry type t made t₁) : Writes t t₁ := by
  cases h with
  | inline _ => exact .refl
  | named _ _ hkey _ => exact .store _ (writes_of_keyFor hkey) (mem_of_keyFor hkey)
  | ref _ _ hkey _ => exact .store _ (writes_of_keyFor hkey) (mem_of_keyFor hkey)

/-- Only a reference opens a body that is itself a reference. -/
theorem Opens.of_reference (h : Opens registry type t made t₁) {name : String}
    (hmade : made.form = .ref name) :
    ∃ target key t₂, type.form = .ref target ∧ registry.get? target = some made ∧
      t.keyFor target = (key, t₂) ∧ t₂.has key = false ∧ t₁ = t₂.store key {} := by
  cases h with
  | inline hname => exact absurd hmade ((referredName?_eq_none_iff.mp hname).1 name)
  | named hform _ _ _ =>
    rw [hmade] at hform
    cases hform
  | ref hform hget hkey hhas => exact ⟨_, _, _, hform, hget, hkey, hhas, rfl⟩

theorem Visits.writes (h : Visits registry types t type u) : Writes t u := by
  induction h with
  | here => exact .refl
  | later _ ih => exact (site_convert registry _ _).writes.trans ih
  | inside hopen _ ih => exact hopen.writes.trans ih

/-- After the body, at most the opened entry is written. -/
theorem Opens.closes (h : Opens registry type t made t₁) :
    (convert registry type t).2 = (convertAll registry (bodySites made.form) t₁).2 ∨
      ∃ key s, t₁.has key = true ∧
        (convert registry type t).2 =
          (convertAll registry (bodySites made.form) t₁).2.store key s := by
  obtain ⟨s, hbody⟩ := exists_body registry made t₁
  cases h with
  | inline hname =>
    obtain ⟨hform, hname⟩ := referredName?_eq_none_iff.mp hname
    rw [convert_eq (.inline hform hname hbody)]
    exact .inl rfl
  | named hform hname hkey hhas =>
    rw [convert_eq (.named hform hname (.fill _ hkey hhas hbody))]
    exact .inr ⟨_, _, has_store_self .., rfl⟩
  | ref hform hget hkey hhas =>
    rw [convert_eq (site_of_found hform hget hkey hhas hbody)]
    exact .inr ⟨_, _, has_store_self .., rfl⟩

theorem Opens.extends (h : Opens registry type t made t₁) :
    Extends (convertAll registry (bodySites made.form) t₁).2 (convert registry type t).2 := by
  rcases h.closes with heq | ⟨key, s, -, heq⟩ <;> rw [heq]
  · exact .refl _
  · exact .store _ key s

theorem Visits.extends (h : Visits registry types t type u) :
    Extends (convert registry type u).2 (convertAll registry types t).2 := by
  induction h with
  | here => exact .of_writes (sites_convertAll registry _ _).writes
  | later _ ih => exact ih
  | inside hopen _ ih =>
    exact (ih.trans hopen.extends).trans (.of_writes (sites_convertAll registry _ _).writes)

/-- The schema under a key that was new to a site stays to the end. -/
theorem Visits.lookup (h : Visits registry types t type u) {key : String} {s : Schema}
    (hnew : u.has key = false) (hs : (convert registry type u).2.named.lookup key = some s) :
    (convertAll registry types t).2.named.lookup key = some s := by
  have hrest : ∀ more t', t'.named.lookup key = some s →
      (convertAll registry more t').2.named.lookup key = some s := fun more t' =>
    (sites_convertAll registry more t').retained.lookup_eq_some
  induction h with
  | @here type types t => exact hrest types (convert registry type t).2 hs
  | later _ ih => exact ih hnew hs
  | @inside first types t _ _ _ _ hopen hvisit ih =>
    refine hrest types (convert registry first t).2 ?_
    rcases hopen.closes with heq | ⟨opened, v, hhas, heq⟩ <;> rw [heq]
    · exact ih hnew hs
    · have hne : key ≠ opened := by
        rintro rfl
        have hu := (Extends.of_writes hvisit.writes).has hhas
        rw [hnew] at hu
        cases hu
      rw [lookup_store_of_ne _ hne]
      exact ih hnew hs

theorem Visits.trans {other : SourceType} {w : SchemaTable} (h : Visits registry types t type u)
    (g : Visits registry [type] u other w) : Visits registry types t other w := by
  induction h with
  | here =>
    cases g with
    | here => exact .here
    | later hnil => cases hnil
    | inside hopen hvisit => exact .inside hopen hvisit
  | later _ ih => exact .later (ih g)
  | inside hopen _ ih => exact .inside hopen (ih g)

end Visits

/-! ### What sites are converted to -/

/-- A reference to a name that is not registered and has no entry. -/
def dangles (registry : Registry) (type : SourceType) (t : SchemaTable) : Bool :=
  match type.form with
  | .ref target => !(t.has (t.keyFor target).1 || registry.has target)
  | _ => false

theorem dangles_ref {registry : Registry} {type : SourceType} {target : String}
    (h : type.form = .ref target) (t : SchemaTable) :
    dangles registry type t = !(t.has (t.keyFor target).1 || registry.has target) := by
  rw [dangles, h]

theorem dangles_registrable {registry : Registry} {type : SourceType}
    (h : isRegistrable type.form = true) (t : SchemaTable) : dangles registry type t = false := by
  rw [dangles]
  split
  · next target hform =>
    rw [hform] at h
    cases h
  · rfl

section Sites

variable {registry : Registry} {type : SourceType} {t t' : SchemaTable} {s : Schema} {name : String}

/-- A site that names a type is converted to the reference to its key, unless it dangles. -/
theorem Site.schema_eq (h : Site registry type t s t') (hname : referredName? type = some name) :
    s = withNull type.nullable
        (if dangles registry type t then {} else .reference (t.keyFor name).1) ∧
      (name, (t.keyFor name).1) ∈ t'.keys := by
  cases h with
  | ref hform hentry =>
    cases (referredName?_ref hform).symm.trans hname
    refine ⟨?_, hentry.mem_keys⟩
    rw [hentry.schema_eq, dangles_ref hform, Registry.has, Option.isSome_map]
    cases t.has (t.keyFor name).1 || (registry.get? name).isSome <;> rfl
  | named hform hown hentry =>
    rcases referredName?_eq_some_iff.mp hname with href | ⟨-, hother⟩
    · rw [href] at hform
      cases hform
    cases hown.symm.trans hother
    refine ⟨?_, hentry.mem_keys⟩
    rw [hentry.schema_eq, dangles_registrable hform, Option.isSome_some, Bool.or_true]
    rfl
  | inline hform hown hbody =>
    rw [referredName?_eq_none_iff.mpr ⟨hform, hown⟩] at hname
    cases hname

end Sites

/-! ### All references to one type -/

/-- How the type `name`, whose key is `key`, is referred to when `types` are converted one after
the other on a fresh table. -/
structure Uniform (registry : Registry) (types : List SourceType) (name key : String) : Prop where
  /-- A site that names the type is converted to the reference to its entry, with the null that the
  site may be. Only a dangling reference allows anything. -/
  sites : ∀ type t, Visits registry types {} type t → referredName? type = some name →
    (convert registry type t).1 = withNull type.nullable
      (if dangles registry type t then {} else .reference key)
  /-- A registered type that is itself a reference is stored as this reference, with the
  description, the rules and the null of the type. -/
  aliases : ∀ type t found t₁, Visits registry types {} type t → Opens registry type t found t₁ →
    found.form = .ref name → ∃ target other, type.form = .ref target ∧
      (target, other) ∈ (convertAll registry types {}).2.keys ∧
      (convertAll registry types {}).2.named.lookup other = some (withNull found.nullable
        (finish found (if dangles registry found t₁ then {} else .reference key)))
  entry : ((convertAll registry types {}).2.named.map (·.1)).count key = 1
  /-- The entry is that of no other type. -/
  alone : ∀ other, (other, key) ∈ (convertAll registry types {}).2.keys → other = name

section Uniform

variable {registry : Registry} {types : List SourceType} {name key : String}

theorem schema_of_visits (hkey : (name, key) ∈ (convertAll registry types {}).2.keys)
    {type : SourceType} {t : SchemaTable} (h : Visits registry types {} type t)
    (hname : referredName? type = some name) :
    (convert registry type t).1 = withNull type.nullable
      (if dangles registry type t then {} else .reference key) := by
  have hw := WellKeyed.fresh.of_writes (sites_convertAll registry types {}).writes
  obtain ⟨hschema, hmem⟩ := (site_convert registry type t).schema_eq hname
  rw [hschema, hw.key_unique (h.extends.keys.subset hmem) hkey]

theorem alias_of_opens (hkey : (name, key) ∈ (convertAll registry types {}).2.keys)
    {type found : SourceType} {t t₁ : SchemaTable} (h : Visits registry types {} type t)
    (hopen : Opens registry type t found t₁) (hfound : found.form = .ref name) :
    ∃ target other, type.form = .ref target ∧
      (target, other) ∈ (convertAll registry types {}).2.keys ∧
      (convertAll registry types {}).2.named.lookup other = some (withNull found.nullable
        (finish found (if dangles registry found t₁ then {} else .reference key))) := by
  -- The plain site of the reference is visited, so it is converted as every other site.
  have hplain : Visits registry types {} (.ofForm (.ref name)) t₁ :=
    h.trans (.inside hopen (by rw [hfound]; exact .here))
  have hschema := schema_of_visits hkey hplain rfl
  have hdangles : dangles registry (.ofForm (.ref name)) t₁ = dangles registry found t₁ := by
    rw [dangles_ref hfound, dangles_ref rfl]
  rw [hdangles] at hschema
  obtain ⟨target, other, t₂, hform, hget, hother, hhas, rfl⟩ := hopen.of_reference hfound
  have hmem := ((site_convert registry type t).schema_eq (referredName?_ref hform)).2
  rw [hother] at hmem
  refine ⟨target, other, hform, h.extends.keys.subset hmem, ?_⟩
  have hnew : t.has other = false := by
    have hkeep := has_keyFor t target other
    rw [hother] at hkeep
    rw [← hkeep, hhas]
  refine h.lookup hnew ?_
  have hsite := site_of_found hform hget hother hhas (body_of_ref registry hfound _)
  rw [convert_eq hsite, lookup_store_self, hschema]
  rfl

/-- Whatever is registered and converted, all sites that name a type with an entry refer to this
entry, but those that dangled. -/
theorem uniform_convertAll (registry : Registry) (types : List SourceType) {name key : String}
    (hkey : (name, key) ∈ (convertAll registry types {}).2.keys)
    (hhas : (convertAll registry types {}).2.has key = true) :
    Uniform registry types name key := by
  have hw := WellKeyed.fresh.of_writes (sites_convertAll registry types {}).writes
  exact {
    sites := fun type t h hname => schema_of_visits hkey h hname
    aliases := fun type t found t₁ h hopen hfound => alias_of_opens hkey h hopen hfound
    entry := List.count_eq_one_of_mem hw.places (Json.lookup_isSome_iff.mp hhas)
    alone := fun other hother => hw.key_injective hother hkey }

end Uniform

/-- A person, and a type that is a reference with a description of its own. -/
def staff : Registry :=
  ⟨[("Person", .ofForm (.object
      [{ name := "boss", type := { form := .ref "Boss", nullable := true } }] none .strip)),
    ("Boss", { form := .ref "Person", description := some "Who decides" })]⟩

/-- A person refers to the boss, who is a person that is still to be made. -/
theorem uniform_convertAll_staff :
    ("Person", "Person") ∈ (convertAll staff [.ofForm (.ref "Person")] {}).2.keys ∧
      (convertAll staff [.ofForm (.ref "Person")] {}).2.has "Person" = true ∧
      Uniform staff [.ofForm (.ref "Person")] "Person" "Person" := by
  have hkey : ("Person", "Person") ∈ (convertAll staff [.ofForm (.ref "Person")] {}).2.keys := by
    decide +kernel
  have hhas : (convertAll staff [.ofForm (.ref "Person")] {}).2.has "Person" = true := by
    decide +kernel
  exact ⟨hkey, hhas, uniform_convertAll staff _ hkey hhas⟩

/-- A user, who is defined where the type is used. -/
def user : SourceType := .ofForm (.object [] none .strip)

def owner : Registry := ⟨[("Owner", { form := .ref "User", description := some "Who pays" })]⟩

/-- A reference to the user, then the user, then a registered type that is one. -/
def deferred : List SourceType :=
  [.ofForm (.ref "User"), { user with name := some "User" }, .ofForm (.ref "Owner")]

/-- The type of a user has an entry in the end. But the first reference to it allows anything, for
it came before the user, and the owner is a reference to the user that has a description. -/
theorem not_uniform_deferred :
    ("User", "User") ∈ (convertAll owner deferred {}).2.keys ∧
      (convertAll owner deferred {}).2.has "User" = true ∧
      Visits owner deferred {} (.ofForm (.ref "User")) {} ∧
      referredName? (.ofForm (.ref "User")) = some "User" ∧
      (convert owner (.ofForm (.ref "User")) {}).1 ≠ withNull false (.reference "User") ∧
      (convertAll owner deferred {}).2.named.lookup "Owner" =
        some { Schema.reference "User" with description := some "Who pays" } := by
  refine ⟨by decide +kernel, by decide +kernel, .here, rfl, fun h => ?_, by rfl⟩
  have href : (convert owner (.ofForm (.ref "User")) {}).1.ref = none := by rfl
  rw [h] at href
  cases href

end TypedApi.SchemaTable
