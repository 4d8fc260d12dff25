import TypedApi.Proofs.SchemaTable.History
import TypedApi.Proofs.SchemaTable.Rules

/-! Properties of all nodes of the schemas that conversions make.

A property `N` of single nodes may depend on the table, and on the types that are
converted. `Nodewise` lists what has to be shown of it: that a bigger table keeps it, and
that each kind of node has it. `Body.nodewise` and its companions then say that it holds of
every node of every schema that a conversion returns or stores. -/
namespace TypedApi.SchemaTable

open OpenApi

/-! ### Children -/

/-- The properties of an object. -/
def formProperties : Form → List Property
  | .object ps _ _ => ps
  | _ => []

/-- The schemas that may stand directly in the schema of a form whose parts have the
schemas `ss`. -/
inductive ChildOf (form : Form) (ss : List Schema) : Schema → Prop
  | part {c} : c ∈ ss → ChildOf form ss c
  /-- The form has the schema of its only part. -/
  | within {s c} : s ∈ ss → c ∈ s.children → ChildOf form ss c
  | property {p s} : p ∈ formProperties form → s ∈ ss → ChildOf form ss (decorate p s)
  | empty : ChildOf form ss {}
  | ofType (name : String) : ChildOf form ss (.ofType name)

section Children

variable {form : Form} {ss : List Schema} {c : Schema}

theorem childOf_headD (ss : List Schema) : ChildOf form ss (ss.headD {}) := by
  cases ss with
  | nil => exact .empty
  | cons s rest => exact .part List.mem_cons_self

theorem childOf_objectOf {ps : List Property} {index : Option IndexSignature}
    {strictness : Strictness} (h : c ∈ (objectOf ps index strictness ss).children) :
    ChildOf (.object ps index strictness) ss c := by
  simp only [objectOf, objectSchema, Schema.ofType, Schema.children, Option.toList_none,
    Option.getD_none, List.append_nil, List.mem_append] at h
  rcases h with h | h
  · split at h
    · cases h
    · obtain ⟨e, he, rfl⟩ := List.mem_map.mp h
      have hz := Json.mem_of_mem_table he
      obtain ⟨i, hi, rfl⟩ := List.mem_iff_getElem.mp hz
      rw [List.getElem_zipWith]
      exact .property (List.getElem_mem _) (List.getElem_mem _)
  · split at h
    · next s rest hdrop =>
      rw [show c = s by simpa [Additional.schema?] using h]
      exact .part (List.mem_of_mem_drop (hdrop ▸ List.mem_cons_self))
    · split at h <;> simp [Additional.schema?] at h

theorem childOf_tupleOf {es : List TupleElement} (h : c ∈ (tupleOf es ss).children) :
    ChildOf (.tuple es) ss c := by
  have hz : ∀ (keep : Bool × Schema → Bool) (s : Schema),
      s ∈ ((List.zipWith (fun (e : TupleElement) (s : Schema) => (e.rest, s)) es ss).filter keep).map
        (·.2) → s ∈ ss := by
    intro keep s hs
    obtain ⟨e, he, rfl⟩ := List.mem_map.mp hs
    obtain ⟨i, hi, hget⟩ := List.mem_iff_getElem.mp (List.mem_filter.mp he).1
    rw [List.getElem_zipWith] at hget
    rw [← hget]
    exact List.getElem_mem _
  simp only [tupleOf, Schema.ofType, Schema.children, Option.toList_none, Option.getD_none,
    Option.bind_none, List.map_nil, List.append_nil, List.nil_append, List.mem_append] at h
  rcases h with h | h
  · exact .part (hz _ c (List.mem_of_getLast? (Option.mem_toList.mp h)))
  · split at h
    · cases h
    · exact .part (hz _ c h)

theorem childOf_unionOf {ms : List SourceType} {d : Option Discriminant}
    (h : c ∈ (unionOf ms d ss).children) : ChildOf (.union ms d) ss c := by
  unfold unionOf at h
  split at h
  · simp [Schema.children] at h
  · split at h
    · exact .part (by simpa [Schema.children] using h)
    · exact .within List.mem_cons_self h
    · exact .part (by simpa [Schema.children] using h)

theorem childOf_nativeOf {name : String} {args : List SourceType}
    (h : c ∈ (nativeOf name ss).children) : ChildOf (.native name args) ss c := by
  unfold nativeOf at h
  split at h
  · simp [Schema.formatted, Schema.children] at h
  · simp [Schema.formatted, Schema.children] at h
  · simp [Schema.formatted, Schema.children] at h
  · cases ss with
    | nil => simp [Schema.ofType, Schema.children, Additional.schema?] at h
    | cons s rest =>
      rw [show c = s by simpa [Schema.ofType, Schema.children, Additional.schema?] using h]
      exact .part List.mem_cons_self
  · rw [show c = ss.headD {} by simpa [Schema.arrayOf, Schema.children] using h]
    exact childOf_headD ss
  · cases ss with
    | nil => simp [Schema.children] at h
    | cons s rest => exact .within List.mem_cons_self h
  · have hc : c = .ofType "string" := by
      simpa [errorSchema, Schema.ofType, Schema.children] using h
    rw [hc]
    exact .ofType _
  · split at h
    · rw [show c = .ofType "number" by simpa [Schema.arrayOf, Schema.children] using h]
      exact .ofType _
    · split at h <;> simp [Schema.formatted, Schema.ofType, Schema.children] at h

theorem childOf_assemble (h : c ∈ (assemble form ss).children) : ChildOf form ss c := by
  unfold assemble at h
  split at h
  · simp [Schema.children] at h
  · simp [Schema.children] at h
  · simp [Schema.children] at h
  · rw [show c = {} by simpa [Schema.children] using h]
    exact .empty
  · next a =>
    cases a <;> simp [atomicSchema, Schema.formatted, Schema.ofType, Schema.children] at h
  · simp [Schema.children] at h
  · exact childOf_objectOf h
  · rw [show c = ss.headD {} by simpa [Schema.arrayOf, Schema.children] using h]
    exact childOf_headD ss
  · exact childOf_tupleOf h
  · exact childOf_unionOf h
  · exact .part (by simpa [Schema.children] using h)
  · simp [Schema.children] at h
  · exact childOf_nativeOf h
  · simp [Schema.children] at h

end Children

/-! ### A property of nodes along a run -/

/-- What makes `N` hold of all nodes, for conversions of the types `Good`. -/
structure Nodewise (registry : Registry) (Good : SourceType → Prop)
    (N : SchemaTable → Schema → Prop) : Prop where
  grow {t t' s} : Extends t t' → N t s → N t' s
  empty {t} : N t {}
  ofType {t} (name : String) : N t (.ofType name)
  reference {t key} : t.has key = true → N t (.reference key)
  orNull {t} (s : Schema) : N t s.orNull
  finish {t type s} : Good type → N t s → N t (finish type s)
  decorate {t type p s} : Good type → p ∈ formProperties type.form → N t s → N t (decorate p s)
  assemble {t type ss} : Good type → ss.length = (parts type.form).length →
    (∀ s ∈ ss, N t s) → N t (assemble type.form ss)
  parts {type} : Good type → ∀ part ∈ parts type.form, Good part
  registered {name type} : registry.get? name = some type → Good type

/-- `N` holds of every node of every stored schema. -/
def Stored (N : SchemaTable → Schema → Prop) (t : SchemaTable) : Prop :=
  ∀ e ∈ t.named, e.2.All (N t)

namespace Nodewise

variable {registry : Registry} {Good : SourceType → Prop} {N : SchemaTable → Schema → Prop}
  {t t' : SchemaTable} {s : Schema}

theorem all_grow (h : Nodewise registry Good N) (hg : Extends t t') (hs : s.All (N t)) :
    s.All (N t') :=
  hs.imp fun _ hu => h.grow hg hu

theorem all_empty (h : Nodewise registry Good N) : Schema.All (N t) {} :=
  Schema.all_of_childless rfl h.empty

theorem all_ofType (h : Nodewise registry Good N) (name : String) :
    (Schema.ofType name).All (N t) :=
  Schema.all_of_childless rfl (h.ofType name)

theorem all_reference (h : Nodewise registry Good N) {key : String} (hk : t.has key = true) :
    (Schema.reference key).All (N t) :=
  Schema.all_of_childless rfl (h.reference hk)

theorem all_withNull (h : Nodewise registry Good N) (null : Bool) (hs : s.All (N t)) :
    (withNull null s).All (N t) := by
  cases null with
  | false => exact hs
  | true =>
    refine .intro (h.orNull s) fun c hc => ?_
    have hc : c = s ∨ c = .ofType "null" := by simpa [withNull, Schema.orNull, Schema.children] using hc
    rcases hc with rfl | rfl
    · exact hs
    · exact h.all_ofType "null"

theorem all_finish (h : Nodewise registry Good N) {type : SourceType} (hg : Good type)
    (hs : s.All (N t)) : (SchemaTable.finish type s).All (N t) :=
  hs.of_children_eq (annotates_finish type s).children (h.finish hg)

theorem all_assemble (h : Nodewise registry Good N) {type : SourceType} (hg : Good type)
    {ss : List Schema} (hl : ss.length = (SchemaTable.parts type.form).length)
    (hs : ∀ s ∈ ss, s.All (N t)) : (SchemaTable.assemble type.form ss).All (N t) := by
  refine .intro (h.assemble hg hl fun s hm => (hs s hm).here) fun c hc => ?_
  cases childOf_assemble hc with
  | part hm => exact hs c hm
  | within hm hc => exact (hs _ hm).child c hc
  | property hp hm =>
    exact (hs _ hm).of_children_eq (annotates_decorate _ _).children (h.decorate hg hp)
  | empty => exact h.all_empty
  | ofType name => exact h.all_ofType name

theorem stored_keyFor (h : Nodewise registry Good N) {name key : String}
    (hkey : t.keyFor name = (key, t')) (hs : Stored N t) : Stored N t' := by
  intro e he
  rw [named_of_keyFor hkey] at he
  exact h.all_grow (.of_writes (writes_of_keyFor hkey)) (hs e he)

theorem stored_store (h : Nodewise registry Good N) (hw : WellKeyed t) (hs : Stored N t)
    (key : String) (hu : s.All (N t)) : Stored N (t.store key s) := by
  intro e he
  have hg := Extends.store t key s
  rcases Json.mem_assign hw.places he with rfl | ⟨he, -⟩
  · exact h.all_grow hg hu
  · exact h.all_grow hg (hs e he)

theorem good_of_target (h : Nodewise registry Good N) {target : String} {u : SourceType × Bool}
    (hu : u ∈ (registry.get? target).map fun v => (v, v.nullable)) : Good u.1 := by
  obtain ⟨type, hget, rfl⟩ := Option.map_eq_some_iff.mp hu
  exact h.registered hget

end Nodewise

section Runs

variable {registry : Registry} {Good : SourceType → Prop} {N : SchemaTable → Schema → Prop}

mutual

theorem Body.nodewise (hn : Nodewise registry Good N) {type : SourceType} {t t' : SchemaTable}
    {s : Schema} (h : Body registry type t s t') (hg : Good type) (hw : WellKeyed t)
    (ht : Stored N t) : Stored N t' ∧ s.All (N t') :=
  match h with
  | .parts _ hparts => by
    obtain ⟨ht', hss⟩ := hparts.nodewise hn (hn.parts hg) hw ht
    exact ⟨ht', hn.all_finish hg (hn.all_assemble hg hparts.length_eq hss)⟩
  | .ref _ hentry => by
    obtain ⟨ht', hs⟩ := hentry.nodewise hn (fun u hu => hn.good_of_target hu) hw ht
    exact ⟨ht', hn.all_finish hg hs⟩
termination_by structural h

theorem Entry.nodewise (hn : Nodewise registry Good N) {name : String}
    {found : Option (SourceType × Bool)} {t t' : SchemaTable} {s : Schema}
    (h : Entry registry name found t s t') (hg : ∀ u ∈ found, Good u.1) (hw : WellKeyed t)
    (ht : Stored N t) : Stored N t' ∧ s.All (N t') :=
  match h with
  | .known hkey hhas =>
    ⟨hn.stored_keyFor hkey ht, hn.all_reference hhas⟩
  | .missing hkey _ => ⟨hn.stored_keyFor hkey ht, hn.all_empty⟩
  | .fill key hkey _ hbody => by
    have hk := mem_of_keyFor hkey
    have hw₁ := hw.of_writes (writes_of_keyFor hkey)
    have hopen := hn.stored_store hw₁ (hn.stored_keyFor hkey ht) key hn.all_empty
    obtain ⟨ht₂, hs⟩ := hbody.nodewise hn (hg _ rfl) (hw₁.store hk {}) hopen
    have hw₂ := (hw₁.store hk {}).of_writes hbody.writes
    exact ⟨hn.stored_store hw₂ ht₂ key (hn.all_withNull _ hs), hn.all_reference (has_store_self ..)⟩
termination_by structural h

theorem Site.nodewise (hn : Nodewise registry Good N) {type : SourceType} {t t' : SchemaTable}
    {s : Schema} (h : Site registry type t s t') (hg : Good type) (hw : WellKeyed t)
    (ht : Stored N t) : Stored N t' ∧ s.All (N t') :=
  match h with
  | .ref _ hentry => by
    obtain ⟨ht', hs⟩ := hentry.nodewise hn (fun u hu => hn.good_of_target hu) hw ht
    exact ⟨ht', hn.all_withNull _ hs⟩
  | .named _ _ hentry => by
    obtain ⟨ht', hs⟩ := hentry.nodewise hn (fun u hu => by cases hu; exact hg) hw ht
    exact ⟨ht', hn.all_withNull _ hs⟩
  | .inline _ _ hbody => by
    obtain ⟨ht', hs⟩ := hbody.nodewise hn hg hw ht
    exact ⟨ht', hn.all_withNull _ hs⟩
termination_by structural h

theorem Sites.nodewise (hn : Nodewise registry Good N) {types : List SourceType}
    {t t' : SchemaTable} {ss : List Schema} (h : Sites registry types t ss t')
    (hg : ∀ type ∈ types, Good type) (hw : WellKeyed t) (ht : Stored N t) :
    Stored N t' ∧ ∀ s ∈ ss, s.All (N t') :=
  match h with
  | .nil => ⟨ht, by simp⟩
  | .cons hsite hrest => by
    obtain ⟨ht₁, hs⟩ := hsite.nodewise hn (hg _ List.mem_cons_self) hw ht
    have hw₁ := hw.of_writes hsite.writes
    obtain ⟨ht₂, hss⟩ := hrest.nodewise hn (fun u hu => hg u (List.mem_cons_of_mem _ hu)) hw₁ ht₁
    have hgrow := Extends.of_writes hrest.writes
    exact ⟨ht₂, List.forall_mem_cons.mpr ⟨hn.all_grow hgrow hs, hss⟩⟩
termination_by structural h

end

end Runs
end TypedApi.SchemaTable
