import TypedApi.Proofs.SchemaTable.References

/-! The order of conversions.

Suppose that every reference that is met has a registered type, that names which are told apart
have keys which are told apart, and that the definitions of one name are alike. Then a site is
converted to the same schema at any time (`siteSchema`), and the table has an entry for each name
that is met (`mem_named_iff`). Neither depends on the order in which the types come
(`perm_convertAll`). Where the definitions of a name differ, the first one is kept, and the order
shows (`not_perm_convertAll`). -/
namespace TypedApi.SchemaTable

open OpenApi

/-! ### What is met -/

/-- The sites that a conversion of `types` comes to, in whatever order they come. -/
inductive Meets (registry : Registry) (types : List SourceType) : SourceType → Prop
  | root {type} (h : type ∈ types) : Meets registry types type
  | part {type p} (h : Meets registry types type) (hp : p ∈ parts type.form) :
      Meets registry types p
  | target {type name found p} (h : Meets registry types type) (hform : type.form = .ref name)
      (hget : registry.get? name = some found) (hp : p ∈ bodySites found.form) :
      Meets registry types p

/-- What may be stored for a name: the registered type with its null, where a reference to it is
met, or a type of that name without its null, where it is met itself. -/
inductive Defines (registry : Registry) (types : List SourceType) :
    String → SourceType → Bool → Prop
  | registered {type name found} (h : Meets registry types type) (hform : type.form = .ref name)
      (hget : registry.get? name = some found) : Defines registry types name found found.nullable
  | inline {type name} (h : Meets registry types type) (hform : isRegistrable type.form = true)
      (hname : type.name = some name) : Defines registry types name type false

/-- Every reference has a registered type, and no two names are brought to the same key. -/
structure Resolvable (registry : Registry) (types : List SourceType) : Prop where
  targets : ∀ type name, Meets registry types type → type.form = .ref name →
    registry.has name = true
  keys : ∀ type other name name', Meets registry types type → Meets registry types other →
    referredName? type = some name → referredName? other = some name' →
    componentKey name = componentKey name' → name = name'

section Meets

variable {registry : Registry} {types other : List SourceType}

theorem Meets.subset (h : types ⊆ other) {type : SourceType} (hm : Meets registry types type) :
    Meets registry other type := by
  induction hm with
  | root hmem => exact .root (h hmem)
  | part _ hp ih => exact .part ih hp
  | target _ hform hget hp ih => exact .target ih hform hget hp

theorem Defines.subset (h : types ⊆ other) {name : String} {type : SourceType} {null : Bool}
    (hd : Defines registry types name type null) : Defines registry other name type null := by
  cases hd with
  | registered hm hform hget => exact .registered (hm.subset h) hform hget
  | inline hm hform hname => exact .inline (hm.subset h) hform hname

theorem Resolvable.subset (h : types ⊆ other) (hr : Resolvable registry other) :
    Resolvable registry types where
  targets type name hm := hr.targets type name (hm.subset h)
  keys type type' name name' hm hm' := hr.keys type type' name name' (hm.subset h) (hm'.subset h)

variable {name : String} {type : SourceType} {null : Bool}

theorem ref_ne_of_registrable {form : Form} (h : isRegistrable form = true) (target : String) :
    form ≠ .ref target := by
  rintro rfl
  cases h

/-- What a reference stores. -/
theorem defines_target (hr : Resolvable registry types) {type : SourceType} {target : String}
    (hm : Meets registry types type) (hform : type.form = .ref target) :
    ∃ u ∈ (registry.get? target).map fun found => (found, found.nullable),
      Defines registry types target u.1 u.2 := by
  obtain ⟨found, hget⟩ := Option.isSome_iff_exists.mp (hr.targets type target hm hform)
  exact ⟨(found, found.nullable), by rw [hget]; rfl, .registered hm hform hget⟩

/-- The parts of what is stored are met. -/
theorem Defines.meets (h : Defines registry types name type null) :
    ∀ p ∈ bodySites type.form, Meets registry types p := by
  intro p hp
  cases h with
  | registered hm hform hget => exact .target hm hform hget hp
  | inline hm hform hname =>
    rw [bodySites_eq (ref_ne_of_registrable hform)] at hp
    exact .part hm hp

/-- Some site that is met names the type. -/
theorem Defines.named (h : Defines registry types name type null) :
    ∃ site, Meets registry types site ∧ referredName? site = some name := by
  cases h with
  | registered hm hform _ => exact ⟨_, hm, referredName?_ref hform⟩
  | inline hm hform hname => exact ⟨_, hm, referredName?_eq_some_iff.mpr (.inr ⟨hform, hname⟩)⟩

end Meets

/-! ### Schemas without a table -/

/-- The schema of a site where each name has the key that it is brought to. -/
def siteSchema (type : SourceType) : Schema :=
  withNull type.nullable <|
    match referredName? type with
    | some name => .reference (componentKey name)
    | none => finish type <|
        assemble type.form ((parts type.form).attach.map fun p => siteSchema p.1)
termination_by type.height
decreasing_by
  rw [height_eq type]
  exact Nat.lt_succ_of_le (height_le_of_mem_parts p.2)

/-- The schema that is stored for a type, but for its null. -/
def bodySchema (type : SourceType) : Schema :=
  finish type <|
    match type.form with
    | .ref target => .reference (componentKey target)
    | form => assemble form ((parts form).map siteSchema)

section Schemas

variable {type : SourceType} {name : String}

theorem siteSchema_named (h : referredName? type = some name) :
    siteSchema type = withNull type.nullable (.reference (componentKey name)) := by
  rw [siteSchema, h]

theorem bodySchema_ref {target : String} (h : type.form = .ref target) :
    bodySchema type = finish type (.reference (componentKey target)) := by
  rw [bodySchema, h]

theorem bodySchema_parts (h : ∀ target, type.form ≠ .ref target) :
    bodySchema type = finish type (assemble type.form ((parts type.form).map siteSchema)) := by
  rw [bodySchema]
  split
  · next target hform => exact absurd hform (h target)
  · rfl

theorem siteSchema_inline (h : referredName? type = none) :
    siteSchema type = withNull type.nullable (bodySchema type) := by
  rw [siteSchema, h, bodySchema_parts (referredName?_eq_none_iff.mp h).1, List.attach_map_val]

end Schemas

/-! ### Names below a site -/

/-- The site names the type, itself or by a part that is converted in its place. -/
inductive Mentions : SourceType → String → Prop
  | name {type name} (h : referredName? type = some name) : Mentions type name
  | part {type p name} (h : referredName? type = none) (hp : p ∈ parts type.form)
      (hm : Mentions p name) : Mentions type name

/-- Each type that the site names has an entry. -/
def Covers (t : SchemaTable) (type : SourceType) : Prop :=
  ∀ name, Mentions type name → t.has (componentKey name) = true

section Covers

variable {type : SourceType} {t t' : SchemaTable} {name : String}

theorem Covers.grow (hg : Extends t t') (h : Covers t type) : Covers t' type :=
  fun name hm => hg.has (h name hm)

theorem covers_named (hname : referredName? type = some name)
    (h : t.has (componentKey name) = true) : Covers t type := by
  intro other hm
  cases hm with
  | name hother =>
    cases hname.symm.trans hother
    exact h
  | part hnone _ _ => cases hname.symm.trans hnone

theorem covers_inline (hname : referredName? type = none) (h : ∀ p ∈ parts type.form, Covers t p) :
    Covers t type := by
  intro name hm
  cases hm with
  | name hother => cases hname.symm.trans hother
  | part _ hp hm => exact h _ hp name hm

end Covers

/-! ### Definitions of one name -/

/-- The types are stored as the same schema, and `other` names whatever `type` names. -/
structure Alike (type other : SourceType) : Prop where
  schema : bodySchema type = bodySchema other
  names : ∀ p ∈ bodySites type.form, ∀ name, Mentions p name →
    ∃ q ∈ bodySites other.form, Mentions q name

/-- The definitions of a name are alike, and have the same null. -/
def OneDefinition (registry : Registry) (types : List SourceType) : Prop :=
  ∀ name type null other null', Defines registry types name type null →
    Defines registry types name other null' → Alike type other ∧ null = null'

theorem OneDefinition.subset {registry : Registry} {types other : List SourceType}
    (h : types ⊆ other) (ho : OneDefinition registry other) : OneDefinition registry types :=
  fun name type null type' null' hd hd' =>
    ho name type null type' null' (hd.subset h) (hd'.subset h)

/-! ### Runs in good order -/

/-- The entry is what is stored for a name that is met, and the types that it names have
entries. -/
def Settled (registry : Registry) (types : List SourceType) (t : SchemaTable)
    (e : String × Schema) : Prop :=
  ∃ name type null, Defines registry types name type null ∧
    e = (componentKey name, withNull null (bodySchema type)) ∧ ∀ p ∈ bodySites type.form, Covers t p

/-- The names of the table are met and have the keys that they are brought to, and all entries are
settled but those under the keys `pending`. -/
structure Orderly (registry : Registry) (types : List SourceType) (pending : List String)
    (t : SchemaTable) : Prop where
  keyed : WellKeyed t
  keys : ∀ e ∈ t.keys, e.2 = componentKey e.1 ∧
    ∃ type, Meets registry types type ∧ referredName? type = some e.1
  entries : ∀ e ∈ t.named, e.1 ∈ pending ∨ Settled registry types t e

section Orderly

variable {registry : Registry} {types : List SourceType} {pending : List String}
  {t t' : SchemaTable} {name key : String} {s : Schema}

theorem orderly_fresh : Orderly registry types [] {} where
  keyed := .fresh
  keys := by simp
  entries := by simp

theorem Settled.grow (hg : Extends t t') {e : String × Schema} (h : Settled registry types t e) :
    Settled registry types t' e := by
  obtain ⟨name, type, null, hd, he, hcovers⟩ := h
  exact ⟨name, type, null, hd, he, fun p hp => (hcovers p hp).grow hg⟩

/-- A name that is met has the key that it is brought to, whenever that is chosen. -/
theorem Orderly.keyFor (hr : Resolvable registry types) (h : Orderly registry types pending t)
    {type : SourceType} (hmeets : Meets registry types type)
    (hname : referredName? type = some name) (hkey : t.keyFor name = (key, t')) :
    key = componentKey name ∧ Orderly registry types pending t' := by
  have hgrow := Extends.of_writes (writes_of_keyFor hkey)
  have hkeyed := h.keyed.of_writes (writes_of_keyFor hkey)
  have hnamed := named_of_keyFor hkey
  have hentries : ∀ e ∈ t'.named, e.1 ∈ pending ∨ Settled registry types t' e := by
    rw [hnamed]
    exact fun e he => (h.entries e he).imp_right (.grow hgrow)
  unfold SchemaTable.keyFor at hkey
  split at hkey
  · next known hlookup =>
    cases hkey
    exact ⟨(h.keys _ (Json.mem_of_lookup hlookup)).1, h⟩
  · next hlookup =>
    -- The key of another name is not the one that this name is brought to.
    have hfree : componentKey name ∉ t.keys.map (·.2) := by
      intro hmem
      obtain ⟨e, he, hsame⟩ := List.mem_map.mp hmem
      obtain ⟨hbrought, other, hother, hnamed⟩ := h.keys e he
      have heq := hr.keys other type e.1 name hother hmeets hnamed hname (hbrought.symm.trans hsame)
      exact Json.lookup_eq_none_iff.mp hlookup (heq ▸ List.mem_map_of_mem he)
    cases hkey
    have hfresh := freshKey_of_notMem hfree
    refine ⟨hfresh, hkeyed, fun e he => ?_, hentries⟩
    rcases List.mem_append.mp he with he | he
    · exact h.keys e he
    · rw [List.mem_singleton.mp he]
      exact ⟨hfresh, type, hmeets, hname⟩

theorem Orderly.store (h : Orderly registry types (key :: pending) t) (hm : (name, key) ∈ t.keys)
    (hs : key ∈ pending ∨ Settled registry types (t.store key s) (key, s)) :
    Orderly registry types pending (t.store key s) where
  keyed := h.keyed.store hm s
  keys := h.keys
  entries e he := by
    rcases Json.mem_assign h.keyed.places he with rfl | ⟨he, hne⟩
    · exact hs
    · rcases h.entries e he with hp | hsettled
      · exact .inl ((List.mem_cons.mp hp).resolve_left hne)
      · exact .inr (hsettled.grow (.store t key s))

theorem Orderly.weaken (h : Orderly registry types pending t) (key : String) :
    Orderly registry types (key :: pending) t where
  keyed := h.keyed
  keys := h.keys
  entries e he := (h.entries e he).imp_left (List.mem_cons_of_mem key)

/-- An entry under the key of a name is what is stored for this name. -/
theorem Orderly.settled (hr : Resolvable registry types) (h : Orderly registry types [] t)
    {site : SourceType} (hmeets : Meets registry types site)
    (hname : referredName? site = some name) (he : (componentKey name, s) ∈ t.named) :
    ∃ type null, Defines registry types name type null ∧ s = withNull null (bodySchema type) ∧
      ∀ p ∈ bodySites type.form, Covers t p := by
  obtain ⟨other, type, null, hd, heq, hcovers⟩ := (h.entries _ he).resolve_left (by simp)
  obtain ⟨hkey, rfl⟩ := Prod.mk.inj heq
  obtain ⟨site', hmeets', hname'⟩ := hd.named
  cases hr.keys site site' name other hmeets hmeets' hname hname' hkey
  exact ⟨type, null, hd, rfl, hcovers⟩

end Orderly

section Run

variable {registry : Registry} {types : List SourceType}

mutual

theorem Body.orderly (hr : Resolvable registry types) {type : SourceType} {t t' : SchemaTable}
    {s : Schema} (h : Body registry type t s t')
    (hm : ∀ p ∈ bodySites type.form, Meets registry types p) {pending : List String}
    (ht : Orderly registry types pending t) :
    Orderly registry types pending t' ∧ s = bodySchema type ∧
      ∀ p ∈ bodySites type.form, Covers t' p :=
  match h with
  | .parts hform hparts => by
    rw [bodySites_eq hform] at hm ⊢
    obtain ⟨ht', rfl, hcovers⟩ := hparts.orderly hr hm ht
    exact ⟨ht', (bodySchema_parts hform).symm, hcovers⟩
  | .ref hform hentry => by
    rw [hform] at hm ⊢
    have hplain := hm _ List.mem_cons_self
    obtain ⟨ht', rfl, hhas⟩ := hentry.orderly hr (defines_target hr hplain rfl) ht
    refine ⟨ht', (bodySchema_ref hform).symm, fun p hp => ?_⟩
    rw [List.mem_singleton.mp hp]
    exact covers_named rfl hhas
termination_by structural h

/-- The key is pending while the body is made. -/
theorem Entry.orderly (hr : Resolvable registry types) {name : String}
    {found : Option (SourceType × Bool)} {t t' : SchemaTable} {s : Schema}
    (h : Entry registry name found t s t')
    (hd : ∃ u ∈ found, Defines registry types name u.1 u.2) {pending : List String}
    (ht : Orderly registry types pending t) :
    Orderly registry types pending t' ∧ s = .reference (componentKey name) ∧
      t'.has (componentKey name) = true :=
  match h with
  | .known hkey hhas => by
    obtain ⟨u, -, hd⟩ := hd
    obtain ⟨site, hmeets, hname⟩ := hd.named
    obtain ⟨rfl, ht'⟩ := ht.keyFor hr hmeets hname hkey
    exact ⟨ht', rfl, hhas⟩
  | .missing _ _ => by
    obtain ⟨u, hu, -⟩ := hd
    cases hu
  | .fill key hkey hhas hbody => by
    obtain ⟨u, hu, hd⟩ := hd
    cases hu
    obtain ⟨site, hmeets, hname⟩ := hd.named
    have hk := mem_of_keyFor hkey
    obtain ⟨hbrought, ht₁⟩ := ht.keyFor hr hmeets hname hkey
    have hopen : Orderly registry types (key :: pending) _ :=
      ((ht₁.weaken key).weaken key).store (s := {}) hk (.inl List.mem_cons_self)
    obtain ⟨ht₂, hs, hcovers⟩ := hbody.orderly hr hd.meets hopen
    have hgrown := Extends.of_writes hbody.writes
    rw [← hbrought]
    refine ⟨ht₂.store (hgrown.keys.subset hk) (.inr ⟨name, _, _, hd, ?_, fun p hp => ?_⟩), rfl,
      has_store_self ..⟩
    · rw [hbrought, hs]
    · exact (hcovers p hp).grow (.store ..)
termination_by structural h

theorem Site.orderly (hr : Resolvable registry types) {type : SourceType} {t t' : SchemaTable}
    {s : Schema} (h : Site registry type t s t') (hm : Meets registry types type)
    {pending : List String} (ht : Orderly registry types pending t) :
    Orderly registry types pending t' ∧ s = siteSchema type ∧ Covers t' type :=
  match h with
  | .ref hform hentry => by
    obtain ⟨ht', rfl, hhas⟩ := hentry.orderly hr (defines_target hr hm hform) ht
    have hname := referredName?_ref hform
    exact ⟨ht', (siteSchema_named hname).symm, covers_named hname hhas⟩
  | .named hform hown hentry => by
    obtain ⟨ht', rfl, hhas⟩ := hentry.orderly hr ⟨_, rfl, .inline hm hform hown⟩ ht
    have hname := referredName?_eq_some_iff.mpr (.inr ⟨hform, hown⟩)
    exact ⟨ht', (siteSchema_named hname).symm, covers_named hname hhas⟩
  | .inline hform hown hbody => by
    have hname := referredName?_eq_none_iff.mpr ⟨hform, hown⟩
    have hparts : ∀ p ∈ bodySites type.form, Meets registry types p := by
      rw [bodySites_eq hform]
      exact fun p hp => .part hm hp
    obtain ⟨ht', rfl, hcovers⟩ := hbody.orderly hr hparts ht
    rw [bodySites_eq hform] at hcovers
    exact ⟨ht', (siteSchema_inline hname).symm, covers_inline hname hcovers⟩
termination_by structural h

theorem Sites.orderly (hr : Resolvable registry types) {more : List SourceType}
    {t t' : SchemaTable} {ss : List Schema} (h : Sites registry more t ss t')
    (hm : ∀ type ∈ more, Meets registry types type) {pending : List String}
    (ht : Orderly registry types pending t) :
    Orderly registry types pending t' ∧ ss = more.map siteSchema ∧ ∀ type ∈ more, Covers t' type :=
  match h with
  | .nil => ⟨ht, rfl, by simp⟩
  | .cons hsite hrest => by
    obtain ⟨ht₁, rfl, hcovers⟩ := hsite.orderly hr (hm _ List.mem_cons_self) ht
    obtain ⟨ht₂, rfl, hall⟩ := hrest.orderly hr (fun u hu => hm u (List.mem_cons_of_mem _ hu)) ht₁
    have hgrown := Extends.of_writes hrest.writes
    exact ⟨ht₂, rfl, List.forall_mem_cons.mpr ⟨hcovers.grow hgrown, hall⟩⟩
termination_by structural h

end

end Run

/-! ### The order of the types -/

section Order

variable {registry : Registry} {types other : List SourceType}

theorem orderly_convertAll (hr : Resolvable registry types) :
    Orderly registry types [] (convertAll registry types {}).2 ∧
      (convertAll registry types {}).1 = types.map siteSchema ∧
      ∀ type ∈ types, Covers (convertAll registry types {}).2 type :=
  (sites_convertAll registry types {}).orderly hr (fun _ h => .root h) orderly_fresh

/-- A definition of a name with an entry names nothing without one. -/
theorem covers_of_defines (hr : Resolvable registry types) (ho : OneDefinition registry types)
    {name : String} {type : SourceType} {null : Bool} (hd : Defines registry types name type null)
    (hhas : (convertAll registry types {}).2.has (componentKey name) = true) :
    ∀ p ∈ bodySites type.form, Covers (convertAll registry types {}).2 p := by
  intro p hp mentioned hm
  -- What is stored may be another definition of the name, which names the same types.
  obtain ⟨site, hmeets, hname⟩ := hd.named
  obtain ⟨s, hs⟩ := Option.isSome_iff_exists.mp hhas
  obtain ⟨stored, null', hd', -, hcovers⟩ :=
    (orderly_convertAll hr).1.settled hr hmeets hname (Json.mem_of_lookup hs)
  obtain ⟨q, hq, hm'⟩ := (ho name type null stored null' hd hd').1.names p hp mentioned hm
  exact hcovers q hq mentioned hm'

/-- In the end every type that is met has entries for what it names. -/
theorem covers_convertAll (hr : Resolvable registry types) (ho : OneDefinition registry types)
    {type : SourceType} (h : Meets registry types type) :
    Covers (convertAll registry types {}).2 type := by
  induction h with
  | root hmem => exact (orderly_convertAll hr).2.2 _ hmem
  | @part type p hm hp ih =>
    cases hname : referredName? type with
    | none => exact fun name hmention => ih name (.part hname hp hmention)
    | some name =>
      rcases referredName?_eq_some_iff.mp hname with hform | ⟨hform, hown⟩
      · rw [hform] at hp
        cases hp
      refine covers_of_defines hr ho (.inline hm hform hown) (ih name (.name hname)) p ?_
      rw [bodySites_eq (ref_ne_of_registrable hform)]
      exact hp
  | target hm hform hget hp ih =>
    have hhas := ih _ (.name (referredName?_ref hform))
    exact covers_of_defines hr ho (.registered hm hform hget) hhas _ hp

/-- The table holds what may be stored for the names that are met, and nothing else. -/
theorem mem_named_iff (hr : Resolvable registry types) (ho : OneDefinition registry types)
    (e : String × Schema) :
    e ∈ (convertAll registry types {}).2.named ↔ ∃ name type null,
      Defines registry types name type null ∧
        e = (componentKey name, withNull null (bodySchema type)) := by
  obtain ⟨ht, -, -⟩ := orderly_convertAll hr
  constructor
  · intro he
    obtain ⟨name, type, null, hd, heq, -⟩ := (ht.entries e he).resolve_left (by simp)
    exact ⟨name, type, null, hd, heq⟩
  · rintro ⟨name, type, null, hd, rfl⟩
    obtain ⟨site, hm, hname⟩ := hd.named
    obtain ⟨s, hs⟩ := Option.isSome_iff_exists.mp (covers_convertAll hr ho hm name (.name hname))
    have hmem := Json.mem_of_lookup hs
    obtain ⟨stored, null', hd', rfl, -⟩ := ht.settled hr hm hname hmem
    obtain ⟨halike, rfl⟩ := ho _ _ _ _ _ hd hd'
    rwa [halike.schema]

/-- Types that come in another order are converted to the same schemas, and the table holds the
same entries. -/
theorem perm_convertAll (hp : types.Perm other) (hr : Resolvable registry types)
    (ho : OneDefinition registry types) :
    (convertAll registry types {}).2.named.Perm (convertAll registry other {}).2.named ∧
      (∀ key, (convertAll registry types {}).2.named.lookup key =
        (convertAll registry other {}).2.named.lookup key) ∧
      ∃ site : SourceType → Schema, (convertAll registry types {}).1 = types.map site ∧
        (convertAll registry other {}).1 = other.map site := by
  have hr' := hr.subset hp.symm.subset
  have ho' := ho.subset hp.symm.subset
  obtain ⟨ht, hschemas, -⟩ := orderly_convertAll hr
  obtain ⟨ht', hschemas', -⟩ := orderly_convertAll hr'
  have hmem : ∀ e, e ∈ (convertAll registry types {}).2.named ↔
      e ∈ (convertAll registry other {}).2.named := by
    intro e
    rw [mem_named_iff hr ho, mem_named_iff hr' ho']
    constructor
    · rintro ⟨name, type, null, hd, he⟩
      exact ⟨name, type, null, hd.subset hp.subset, he⟩
    · rintro ⟨name, type, null, hd, he⟩
      exact ⟨name, type, null, hd.subset hp.symm.subset, he⟩
  refine ⟨?_, fun key => ?_, siteSchema, hschemas, hschemas'⟩
  · rw [List.perm_ext_iff_of_nodup (.of_map _ ht.keyed.places) (.of_map _ ht'.keyed.places)]
    exact hmem
  · refine Option.ext fun s => ?_
    constructor
    · exact fun h => Json.lookup_of_mem ht'.keyed.places ((hmem _).mp (Json.mem_of_lookup h))
    · exact fun h => Json.lookup_of_mem ht.keyed.places ((hmem _).mpr (Json.mem_of_lookup h))

/-- The sites that a site leads to. -/
def successors (registry : Registry) (type : SourceType) : List SourceType :=
  match type.form with
  | .ref name => ((registry.get? name).map fun found => bodySites found.form).getD []
  | form => parts form

/-- Nothing is met outside a list that is closed under successors. -/
theorem Meets.mem {all : List SourceType} (hroots : types ⊆ all)
    (hnext : ∀ type ∈ all, successors registry type ⊆ all) {type : SourceType}
    (h : Meets registry types type) : type ∈ all := by
  induction h with
  | root hmem => exact hroots hmem
  | @part type p _ hp ih =>
    refine hnext _ ih ?_
    rw [successors]
    split
    · next name hform =>
      rw [hform] at hp
      cases hp
    · exact hp
  | target _ hform hget hp ih =>
    refine hnext _ ih ?_
    rw [successors, hform]
    dsimp only
    rw [hget]
    exact hp

/-- References have registered types and names have their own keys where this is so for the names
of all sites that are met. -/
theorem resolvable_of_names {all : List SourceType} {names : List String} (hroots : types ⊆ all)
    (hnext : ∀ type ∈ all, successors registry type ⊆ all)
    (hnames : ∀ type ∈ all, ∀ name ∈ referredName? type, name ∈ names)
    (hhas : ∀ name ∈ names, registry.has name = true) (hkeys : (names.map componentKey).Nodup) :
    Resolvable registry types where
  targets type name hm hform :=
    hhas name (hnames type (hm.mem hroots hnext) name (referredName?_ref hform))
  keys type other name name' hm hm' hname hname' :=
    @List.inj_on_of_nodup_map _ _ componentKey names hkeys
      name (hnames type (hm.mem hroots hnext) name hname)
      name' (hnames other (hm'.mem hroots hnext) name' hname')

end Order

/-! ### A forum -/

/-- An object with one member. -/
def holder (name member : String) (type : SourceType) : SourceType :=
  { form := .object [{ name := member, type := type }] none .strip, name := some name }

def postBy (author : SourceType) : SourceType := holder "Post" "author" author

def authorOf (latest : SourceType) : SourceType := holder "Author" "latest" latest

/-- Each of the two types is registered with the other one inside, which refers back to it. So each
has two definitions. -/
def forum : Registry :=
  ⟨[("Author", authorOf (postBy (.ofForm (.ref "Author")))),
    ("Post", postBy (authorOf (.ofForm (.ref "Post"))))]⟩

def forumTypes : List SourceType :=
  [.ofForm (.ref "Author"), postBy (authorOf (.ofForm (.ref "Post")))]

/-- Objects are alike whose members name the same type. -/
theorem alike_holder (name member : String) {p q : SourceType} {named : String}
    (hp : referredName? p = some named) (hq : referredName? q = some named)
    (hnull : p.nullable = q.nullable) : Alike (holder name member p) (holder name member q) where
  schema := by
    have hsame : siteSchema p = siteSchema q := by
      rw [siteSchema_named hp, siteSchema_named hq, hnull]
    rw [bodySchema_parts (by rintro _ ⟨⟩), bodySchema_parts (by rintro _ ⟨⟩)]
    show finish _ (assemble _ [siteSchema p]) = finish _ (assemble _ [siteSchema q])
    rw [hsame]
    rfl
  names := by
    intro site hsite mentioned hm
    obtain rfl : site = p := List.mem_singleton.mp hsite
    cases hm with
    | name hname => exact ⟨q, List.mem_singleton_self q, .name (hq.trans (hp.symm.trans hname))⟩
    | part hnone _ _ => cases hp.symm.trans hnone

def forumSites : List SourceType :=
  forumTypes ++ [postBy (.ofForm (.ref "Author")), authorOf (.ofForm (.ref "Post")),
    .ofForm (.ref "Post")]

theorem successors_forum : ∀ type ∈ forumSites, successors forum type ⊆ forumSites := by
  simp only [forumSites, forumTypes, List.forall_mem_append, List.forall_mem_cons,
    List.not_mem_nil, false_imp_iff, implies_true, and_true]
  refine ⟨⟨?_, ?_⟩, ?_, ?_, ?_⟩
  · show [postBy (.ofForm (.ref "Author"))] ⊆ _
    simp
  · show [authorOf (.ofForm (.ref "Post"))] ⊆ _
    simp
  · show [SourceType.ofForm (.ref "Author")] ⊆ _
    simp
  · show [SourceType.ofForm (.ref "Post")] ⊆ _
    simp
  · show [authorOf (.ofForm (.ref "Post"))] ⊆ _
    simp

theorem referred_forum : ∀ type ∈ forumSites, ∀ name ∈ referredName? type,
    name ∈ ["Author", "Post"] := by
  simp only [forumSites, forumTypes, List.forall_mem_append, List.forall_mem_cons,
    List.not_mem_nil, false_imp_iff, implies_true, and_true]
  refine ⟨⟨?_, ?_⟩, ?_, ?_, ?_⟩ <;> rintro _ ⟨⟩ <;> simp

theorem resolvable_forum : Resolvable forum forumTypes :=
  resolvable_of_names (List.subset_append_left ..) successors_forum referred_forum
    (by decide +kernel) (by decide +kernel)

/-- The two definitions of each type. -/
theorem defines_forum {name : String} {type : SourceType} {null : Bool}
    (h : Defines forum forumTypes name type null) :
    null = false ∧ ∃ p, p.nullable = false ∧
      (name = "Author" ∧ type = authorOf p ∧ referredName? p = some "Post" ∨
        name = "Post" ∧ type = postBy p ∧ referredName? p = some "Author") := by
  cases h with
  | registered hm hform hget =>
    have hmem := Json.mem_of_lookup hget
    simp only [forum, List.mem_cons, List.not_mem_nil, or_false, Prod.mk.injEq] at hmem
    rcases hmem with ⟨rfl, rfl⟩ | ⟨rfl, rfl⟩
    · exact ⟨rfl, _, rfl, .inl ⟨rfl, rfl, rfl⟩⟩
    · exact ⟨rfl, _, rfl, .inr ⟨rfl, rfl, rfl⟩⟩
  | inline hm hform hname =>
    have hmem := hm.mem (List.subset_append_left ..) successors_forum
    simp only [forumTypes, List.cons_append, List.nil_append, List.mem_cons,
      List.not_mem_nil, or_false] at hmem
    rcases hmem with rfl | rfl | rfl | rfl | rfl
    · cases hform
    · cases hname
      exact ⟨rfl, _, rfl, .inr ⟨rfl, rfl, rfl⟩⟩
    · cases hname
      exact ⟨rfl, _, rfl, .inr ⟨rfl, rfl, rfl⟩⟩
    · cases hname
      exact ⟨rfl, _, rfl, .inl ⟨rfl, rfl, rfl⟩⟩
    · cases hform

theorem oneDefinition_forum : OneDefinition forum forumTypes := by
  intro name type null other null' h h'
  obtain ⟨rfl, p, hp, hdefines⟩ := defines_forum h
  obtain ⟨rfl, q, hq, hdefines'⟩ := defines_forum h'
  rcases hdefines with ⟨rfl, rfl, hname⟩ | ⟨rfl, rfl, hname⟩ <;>
    rcases hdefines' with ⟨hother, rfl, hname'⟩ | ⟨hother, rfl, hname'⟩
  · exact ⟨alike_holder _ _ hname hname' (hp.trans hq.symm), rfl⟩
  · exact absurd hother (by decide)
  · exact absurd hother (by decide)
  · exact ⟨alike_holder _ _ hname hname' (hp.trans hq.symm), rfl⟩

/-- In either order the two types are converted to their references, and the table has the same two
entries. -/
theorem perm_convertAll_forum :
    forumTypes.Perm forumTypes.reverse ∧ Resolvable forum forumTypes ∧
      OneDefinition forum forumTypes ∧
      (convertAll forum forumTypes {}).2.named.map (·.1) = ["Author", "Post"] ∧
      (convertAll forum forumTypes.reverse {}).2.named.map (·.1) = ["Post", "Author"] ∧
      (convertAll forum forumTypes {}).2.named.Perm
        (convertAll forum forumTypes.reverse {}).2.named := by
  have hp : forumTypes.Perm forumTypes.reverse := (List.reverse_perm forumTypes).symm
  exact ⟨hp, resolvable_forum, oneDefinition_forum, by rfl, by rfl,
    (perm_convertAll hp resolvable_forum oneDefinition_forum).1⟩

/-! ### Definitions that differ -/

/-- Each entry is a type that is stored, under its own name. -/
def SelfNamed (registry : Registry) : Prop :=
  ∀ name type, registry.get? name = some type →
    isRegistrable type.form = true ∧ type.name = some name

/-- The type is an entry or refers to one. -/
def FromRegistry (registry : Registry) (type : SourceType) : Prop :=
  ∃ name, registry.get? name = some type ∨
    type = .ofForm (.ref name) ∧ registry.has name = true

def toUser : SourceType := .ofForm (.ref "User")

/-- The user inside the post has no members, and the registered one has an identifier. -/
def blog : Registry :=
  ⟨[("Post", holder "Post" "author" { user with name := some "User" }),
    ("User", holder "User" "id" (.ofForm (.atomic .string)))]⟩

def blogTypes : List SourceType := [.ofForm (.ref "Post"), toUser]

def blogSites : List SourceType :=
  blogTypes ++ [{ user with name := some "User" }, .ofForm (.atomic .string)]

/-- A user that may be absent. -/
def guest : SourceType := { user with name := some "User", nullable := true }

def guests : Registry := ⟨[("User", guest)]⟩

theorem resolvable_blog : Resolvable blog blogTypes := by
  have hnext : ∀ type ∈ blogSites, successors blog type ⊆ blogSites := by
    simp only [blogSites, blogTypes, List.forall_mem_append, List.forall_mem_cons,
      List.not_mem_nil, false_imp_iff, implies_true, and_true]
    refine ⟨⟨?_, ?_⟩, List.nil_subset _, List.nil_subset _⟩
    · show [{ user with name := some "User" }] ⊆ _
      simp
    · show [SourceType.ofForm (.atomic .string)] ⊆ _
      simp
  have hnames : ∀ type ∈ blogSites, ∀ name ∈ referredName? type, name ∈ ["Post", "User"] := by
    simp only [blogSites, blogTypes, List.forall_mem_append, List.forall_mem_cons,
      List.not_mem_nil, false_imp_iff, implies_true, and_true]
    refine ⟨⟨?_, ?_⟩, ?_, ?_⟩ <;> rintro _ ⟨⟩ <;> simp
  exact resolvable_of_names (List.subset_append_left ..) hnext hnames (by decide +kernel)
    (by decide +kernel)

theorem resolvable_guests : Resolvable guests [guest, toUser] := by
  have hnext : ∀ type ∈ [guest, toUser], successors guests type ⊆ [guest, toUser] := by
    simp only [List.forall_mem_cons, List.not_mem_nil, false_imp_iff, implies_true, and_true]
    exact ⟨List.nil_subset _, List.nil_subset _⟩
  have hnames : ∀ type ∈ [guest, toUser], ∀ name ∈ referredName? type, name ∈ ["User"] := by
    simp only [List.forall_mem_cons, List.not_mem_nil, false_imp_iff, implies_true, and_true]
    refine ⟨?_, ?_⟩ <;> rintro _ ⟨⟩ <;> simp
  exact resolvable_of_names (List.Subset.refl _) hnext hnames (by decide +kernel)
    (by decide +kernel)

/-- The entry of the user is made from the first definition that is met: the one inside the post or
the registered one, and a registered guest loses the null where the type itself comes first. -/
theorem not_perm_convertAll :
    (SelfNamed blog ∧ (∀ type ∈ blogTypes, FromRegistry blog type) ∧ Resolvable blog blogTypes ∧
      (convertAll blog blogTypes {}).2.named.lookup "User" = some (.ofType "object") ∧
      (convertAll blog blogTypes.reverse {}).2.named.lookup "User" =
        some { Schema.ofType "object" with properties := some [("id", .ofType "string")] }) ∧
    (SelfNamed guests ∧ (∀ type ∈ [guest, toUser], FromRegistry guests type) ∧
      Resolvable guests [guest, toUser] ∧
      (convertAll guests [guest, toUser] {}).2.named.lookup "User" = some (.ofType "object") ∧
      (convertAll guests [toUser, guest] {}).2.named.lookup "User" =
        some { anyOf := some [.ofType "object", .ofType "null"] }) := by
  refine ⟨⟨?_, ?_, resolvable_blog, by rfl, by rfl⟩, ?_, ?_, resolvable_guests, by rfl, by rfl⟩
  · intro name type hget
    have hmem := Json.mem_of_lookup hget
    simp only [blog, List.mem_cons, List.not_mem_nil, or_false, Prod.mk.injEq] at hmem
    rcases hmem with ⟨rfl, rfl⟩ | ⟨rfl, rfl⟩ <;> exact ⟨rfl, rfl⟩
  · simp only [blogTypes, List.forall_mem_cons, List.not_mem_nil, false_imp_iff, implies_true,
      and_true]
    exact ⟨⟨"Post", .inr ⟨rfl, rfl⟩⟩, ⟨"User", .inr ⟨rfl, rfl⟩⟩⟩
  · intro name type hget
    have hmem := Json.mem_of_lookup hget
    simp only [guests, List.mem_cons, List.not_mem_nil, or_false, Prod.mk.injEq] at hmem
    obtain ⟨rfl, rfl⟩ := hmem
    exact ⟨rfl, rfl⟩
  · simp only [List.forall_mem_cons, List.not_mem_nil, false_imp_iff, implies_true, and_true]
    exact ⟨⟨"User", .inl rfl⟩, ⟨"User", .inr ⟨rfl, rfl⟩⟩⟩

end TypedApi.SchemaTable
