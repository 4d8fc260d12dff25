import TypedApi.Proofs.SchemaTable.Nodewise
import TypedApi.Proofs.SchemaTable.Termination

/-! Tables are consistent after every conversion.

However the registry refers to itself, and whatever types are converted one after the
other from a fresh table: each name has a legal key of its own, every reference in a schema
that was returned or stored has an entry, and every entry is the finished body of the type
that was registered under its key (`consistent_convertAll`). -/
namespace TypedApi.SchemaTable

open OpenApi

/-! ### References have entries -/

/-- The reference is to an entry of the table. -/
def Refers (t : SchemaTable) (reference : String) : Prop :=
  ∃ key, reference = componentRef key ∧ t.has key = true

/-- What a node refers to, itself or by the values of its discriminator. -/
structure Resolves (t : SchemaTable) (s : Schema) : Prop where
  ref : ∀ r ∈ s.ref, Refers t r
  mapping : ∀ d ∈ s.discriminator, ∀ e ∈ d.mapping.getD [], Refers t e.2

section Resolves

variable {t t' : SchemaTable} {s u : Schema}

theorem Refers.grow (hg : Extends t t') {r : String} (h : Refers t r) : Refers t' r := by
  obtain ⟨key, hr, hk⟩ := h
  exact ⟨key, hr, hg.has hk⟩

/-- Only the reference and the discriminator of a node matter. -/
theorem Resolves.annotates (h : Resolves t s) (ha : Annotates s u) : Resolves t u :=
  ⟨by rw [ha.ref]; exact h.ref, by rw [ha.discriminator]; exact h.mapping⟩

theorem resolves_of_none (hr : s.ref = none) (hd : s.discriminator = none) : Resolves t s :=
  ⟨by simp [hr], by simp [hd]⟩

theorem resolves_headD {ss : List Schema} (h : ∀ s ∈ ss, Resolves t s) :
    Resolves t (ss.headD {}) := by
  cases ss with
  | nil => exact resolves_of_none rfl rfl
  | cons s rest => exact h s List.mem_cons_self

/-- The values of a discriminator are references of members. -/
theorem refers_mappingOf {d : Discriminant} {ss : List Schema} (h : ∀ s ∈ ss, Resolves t s) :
    ∀ e ∈ mappingOf d ss, Refers t e.2 := by
  intro e he
  obtain ⟨⟨value, i⟩, -, hm⟩ := List.mem_filterMap.mp he
  obtain ⟨r, hr, rfl⟩ := Option.map_eq_some_iff.mp hm
  obtain ⟨s, hs, href⟩ := Option.bind_eq_some_iff.mp hr
  exact (h s (List.mem_of_getElem? hs)).ref r href

theorem resolves_unionOf {ms : List SourceType} {d : Option Discriminant} {ss : List Schema}
    (h : ∀ s ∈ ss, Resolves t s) : Resolves t (unionOf ms d ss) := by
  unfold unionOf
  split
  · exact resolves_of_none rfl rfl
  · split
    · next d _ =>
      refine ⟨by simp, fun d' hd e he => ?_⟩
      cases Option.some.inj hd
      dsimp only at he
      split at he
      · cases he
      · exact refers_mappingOf h e he
    · exact h _ List.mem_cons_self
    · exact resolves_of_none rfl rfl

theorem resolves_nativeOf {name : String} {ss : List Schema} (h : ∀ s ∈ ss, Resolves t s) :
    Resolves t (nativeOf name ss) := by
  unfold nativeOf
  split
  case h_6 => exact resolves_headD h
  case h_8 => split <;> (try split) <;> exact resolves_of_none rfl rfl
  all_goals exact resolves_of_none rfl rfl

theorem resolves_assemble {form : Form} {ss : List Schema} (h : ∀ s ∈ ss, Resolves t s) :
    Resolves t (assemble form ss) := by
  cases form with
  | atomic a => cases a <;> exact resolves_of_none rfl rfl
  | union ms d => exact resolves_unionOf h
  | native name args => exact resolves_nativeOf h
  | _ => exact resolves_of_none rfl rfl

/-- Conversions only make nodes whose references have entries. -/
theorem nodewise_resolves (registry : Registry) :
    Nodewise registry (fun _ => True) Resolves where
  grow hg h := ⟨fun r hr => (h.ref r hr).grow hg, fun d hd e he => (h.mapping d hd e he).grow hg⟩
  empty := resolves_of_none rfl rfl
  ofType _ := resolves_of_none rfl rfl
  reference hk := ⟨fun r hr => ⟨_, (Option.some.inj hr).symm, hk⟩, by simp [Schema.reference]⟩
  orNull _ := resolves_of_none rfl rfl
  finish _ h := h.annotates (annotates_finish _ _)
  decorate _ _ h := h.annotates (annotates_decorate _ _)
  assemble _ _ h := resolves_assemble h
  parts _ _ _ := trivial
  registered _ := trivial

end Resolves

/-! ### Entries are finished -/

/-- The types that conversions of `types` can come to. -/
inductive Reached (registry : Registry) (types : List SourceType) : SourceType → Prop
  | root {type} : type ∈ types → Reached registry types type
  | registered {name type} : registry.get? name = some type → Reached registry types type
  | part {type p} : Reached registry types type → p ∈ parts type.form → Reached registry types p

/-- `type` is stored for `name`: it is registered under the name, or it has the name itself.
Only a registered type is stored with its null. -/
def Registers (registry : Registry) (types : List SourceType) (name : String)
    (type : SourceType) (null : Bool) : Prop :=
  (registry.get? name = some type ∧ null = type.nullable) ∨
  (Reached registry types type ∧ type.name = some name ∧ isRegistrable type.form = true ∧
    null = false)

/-- The entry is the finished body of the type that was stored under its key: what the
conversion of the body gave at a table without the entry, from which `t` has grown. It is
empty only where the body is. -/
def Completed (registry : Registry) (types : List SourceType) (t : SchemaTable)
    (entry : String × Schema) : Prop :=
  ∃ (name : String) (type : SourceType) (null : Bool) (body : Schema)
    (before after : SchemaTable),
    (name, entry.1) ∈ t.keys ∧ Registers registry types name type null ∧
    before.has entry.1 = false ∧
    (bodyWithin registry (steps registry type) type).run (before.store entry.1 {}) =
      some (body, after) ∧
    Extends after t ∧ entry.2 = withNull null body ∧ (entry.2 = {} → body = {})

section Completed

variable {registry : Registry} {types : List SourceType} {t t' : SchemaTable}

theorem Completed.grow (hg : Extends t t') {e : String × Schema}
    (h : Completed registry types t e) : Completed registry types t' e := by
  obtain ⟨name, type, null, body, before, after, hm, hr, hb, hrun, ha, he⟩ := h
  exact ⟨name, type, null, body, before, after, hg.keys.subset hm, hr, hb, hrun, ha.trans hg, he⟩

theorem eq_empty_of_withNull {null : Bool} {s : Schema} (h : withNull null s = {}) : s = {} := by
  cases null with
  | false => exact h
  | true => exact absurd (congrArg Schema.anyOf h) (by simp [withNull, Schema.orNull])

/-- All entries are finished but those under the keys `pending`. -/
def CompletedBut (registry : Registry) (types : List SourceType) (pending : List String)
    (t : SchemaTable) : Prop :=
  ∀ e ∈ t.named, e.1 ∈ pending ∨ Completed registry types t e

variable {pending : List String}

theorem CompletedBut.keyFor {name key : String} (h : CompletedBut registry types pending t)
    (hkey : t.keyFor name = (key, t')) : CompletedBut registry types pending t' := by
  intro e he
  rw [named_of_keyFor hkey] at he
  exact (h e he).imp_right (.grow (.of_writes (writes_of_keyFor hkey)))

theorem CompletedBut.store {key : String} {s : Schema} (hw : WellKeyed t)
    (h : CompletedBut registry types (key :: pending) t)
    (hs : key ∈ pending ∨ Completed registry types (t.store key s) (key, s)) :
    CompletedBut registry types pending (t.store key s) := by
  intro e he
  rcases Json.mem_assign hw.places he with rfl | ⟨he, hne⟩
  · exact hs
  · rcases h e he with hp | hc
    · exact .inl ((List.mem_cons.mp hp).resolve_left hne)
    · exact .inr (hc.grow (.store t key s))

theorem CompletedBut.weaken {key : String} (h : CompletedBut registry types pending t) :
    CompletedBut registry types (key :: pending) t :=
  fun e he => (h e he).imp_left (List.mem_cons_of_mem key)

theorem registers_of_target {target : String} {u : SourceType × Bool}
    (hu : u ∈ (registry.get? target).map fun v => (v, v.nullable)) :
    Registers registry types target u.1 u.2 := by
  obtain ⟨type, hget, rfl⟩ := Option.map_eq_some_iff.mp hu
  exact .inl ⟨hget, rfl⟩

theorem Registers.reached {name : String} {type : SourceType} {null : Bool}
    (h : Registers registry types name type null) : Reached registry types type := by
  rcases h with ⟨hget, -⟩ | ⟨hr, -⟩
  · exact .registered hget
  · exact hr

mutual

theorem Body.completes {type : SourceType} {t t' : SchemaTable} {s : Schema}
    (h : Body registry type t s t') (hr : Reached registry types type) (hw : WellKeyed t)
    {pending : List String} (ht : CompletedBut registry types pending t) :
    CompletedBut registry types pending t' :=
  match h with
  | .parts _ hparts => hparts.completes (fun _ hp => .part hr hp) hw ht
  | .ref _ hentry => hentry.completes (fun _ hu => registers_of_target hu) hw ht
termination_by structural h

/-- The key is pending while its body is made. -/
theorem Entry.completes {name : String} {found : Option (SourceType × Bool)}
    {t t' : SchemaTable} {s : Schema} (h : Entry registry name found t s t')
    (hr : ∀ u ∈ found, Registers registry types name u.1 u.2) (hw : WellKeyed t)
    {pending : List String} (ht : CompletedBut registry types pending t) :
    CompletedBut registry types pending t' :=
  match h with
  | .known hkey _ => ht.keyFor hkey
  | .missing hkey _ => ht.keyFor hkey
  | .fill key hkey hhas hbody => by
    have hk := mem_of_keyFor hkey
    have hw₁ := hw.of_writes (writes_of_keyFor hkey)
    have hopen : CompletedBut registry types (key :: pending) _ :=
      (ht.keyFor hkey).weaken.weaken.store hw₁ (s := {}) (.inl List.mem_cons_self)
    have hmade := hbody.completes (hr _ rfl).reached (hw₁.store hk {}) hopen
    have hw₂ := (hw₁.store hk {}).of_writes hbody.writes
    have hgrown := Extends.of_writes hbody.writes
    refine hmade.store hw₂ (.inr ⟨name, _, _, _, _, _, hgrown.keys.subset hk, hr _ rfl, hhas, ?_,
      .store .., rfl, eq_empty_of_withNull⟩)
    exact bodyWithin_of_body hbody
termination_by structural h

theorem Site.completes {type : SourceType} {t t' : SchemaTable} {s : Schema}
    (h : Site registry type t s t') (hr : Reached registry types type) (hw : WellKeyed t)
    {pending : List String} (ht : CompletedBut registry types pending t) :
    CompletedBut registry types pending t' :=
  match h with
  | .ref _ hentry => hentry.completes (fun _ hu => registers_of_target hu) hw ht
  | .named hform hname hentry =>
    hentry.completes (fun u hu => by cases hu; exact .inr ⟨hr, hname, hform, rfl⟩) hw ht
  | .inline _ _ hbody => hbody.completes hr hw ht
termination_by structural h

theorem Sites.completes {parts : List SourceType} {t t' : SchemaTable} {ss : List Schema}
    (h : Sites registry parts t ss t') (hr : ∀ p ∈ parts, Reached registry types p)
    (hw : WellKeyed t) {pending : List String} (ht : CompletedBut registry types pending t) :
    CompletedBut registry types pending t' :=
  match h with
  | .nil => ht
  | .cons hsite hrest => by
    have ht₁ := hsite.completes (hr _ List.mem_cons_self) hw ht
    have hw₁ := hw.of_writes hsite.writes
    exact hrest.completes (fun p hp => hr p (List.mem_cons_of_mem _ hp)) hw₁ ht₁
termination_by structural h

end

end Completed

/-! ### Conversions one after the other -/

/-- Converts several types from the first to the last, on one table. -/
def convertAll (registry : Registry) :
    List SourceType → SchemaTable → List Schema × SchemaTable
  | [], t => ([], t)
  | type :: types, t =>
    let (s, t₁) := convert registry type t
    let (ss, t₂) := convertAll registry types t₁
    (s :: ss, t₂)

theorem sites_convertAll (registry : Registry) (types : List SourceType) (t : SchemaTable) :
    Sites registry types t (convertAll registry types t).1 (convertAll registry types t).2 := by
  induction types generalizing t with
  | nil => exact .nil
  | cons type types ih => exact .cons (site_convert registry type t) (ih _)

theorem convertAll_eq {registry : Registry} {types : List SourceType} {t t' : SchemaTable} {ss : List Schema}
    (h : Sites registry types t ss t') : convertAll registry types t = (ss, t') := by
  obtain ⟨hs, ht⟩ := (sites_convertAll registry types t).unique h
  exact Prod.ext hs ht

theorem convertAll_append (registry : Registry) (types more : List SourceType) (t : SchemaTable) :
    convertAll registry (types ++ more) t =
      ((convertAll registry types t).1 ++ (convertAll registry more (convertAll registry types t).2).1,
        (convertAll registry more (convertAll registry types t).2).2) := by
  induction types generalizing t with
  | nil => rfl
  | cons type types ih =>
    rw [List.cons_append]
    exact congrArg (fun r => ((convert registry type t).1 :: r.1, r.2)) (ih (convert registry type t).2)

/-- What holds of the table `t` and of the schemas that the conversions of `types` returned. -/
structure Consistent (registry : Registry) (types : List SourceType) (schemas : List Schema)
    (t : SchemaTable) : Prop where
  /-- Each name has one key. -/
  names : (t.keys.map (·.1)).Nodup
  /-- No two names have the same key. -/
  injective : ∀ {name name' key}, (name, key) ∈ t.keys → (name', key) ∈ t.keys → name = name'
  legal : ∀ e ∈ t.keys, isComponentKey e.2 = true
  /-- Each key with a schema is that of a name. -/
  covered : ∀ e ∈ t.named, ∃ name, (name, e.1) ∈ t.keys
  returned : ∀ s ∈ schemas, s.All (Resolves t)
  stored : ∀ e ∈ t.named, e.2.All (Resolves t)
  completed : ∀ e ∈ t.named, Completed registry types t e

/-- Whatever types are converted one after the other, and whatever is registered, the table
is consistent. -/
theorem consistent_convertAll (registry : Registry) (types : List SourceType) :
    Consistent registry types (convertAll registry types {}).1
      (convertAll registry types {}).2 := by
  have hrun := sites_convertAll registry types {}
  have hw := WellKeyed.fresh.of_writes hrun.writes
  obtain ⟨hstored, hreturned⟩ := hrun.nodewise (nodewise_resolves registry) (fun _ _ => trivial)
    WellKeyed.fresh (fun e he => by cases he)
  have hcompleted : CompletedBut registry types [] (convertAll registry types {}).2 :=
    hrun.completes (fun _ hp => .root hp) WellKeyed.fresh (fun e he => by cases he)
  exact {
    names := hw.names
    injective := hw.key_injective
    legal := fun e he => hw.legal e.2 (List.mem_map.mpr ⟨e, he, rfl⟩)
    covered := fun e he => by
      obtain ⟨⟨name, key⟩, hm, hk⟩ := List.mem_map.mp
        (hw.covered e.1 (List.mem_map.mpr ⟨e, he, rfl⟩))
      exact ⟨name, hk ▸ hm⟩
    returned := hreturned
    stored := hstored
    completed := fun e he => (hcompleted e he).resolve_left (by simp) }

end TypedApi.SchemaTable
