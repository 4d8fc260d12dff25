import TypedApi.Api.Index
import TypedApi.TypeScript.Literal
import TypedApi.OpenApi.ComponentKey
import TypedApi.Proofs.Json.Table
import TypedApi.Proofs.TypeExpr.Resolution

/-! Objects are recognised as components of the same structure only.

Every text in the index is the fingerprint of a type that is equivalent to the component it names
(`Sound`): of the component itself, or of the component with the objects replaced that were known
before. A text that is looked up is the fingerprint of the object or of what it resolves to, and a
fingerprint tells the type. -/
namespace TypedApi.Api
open TypeExpr (Similar Legible fingerprint known stand)

/-! ### Types that differ in what is written out -/

/-- The least congruence that contains similarity and relates a reference to the body of its
component. -/
inductive Equivalent (components : List (String × Component)) : TypeExpr → TypeExpr → Prop where
  | similar {t u : TypeExpr} (h : Similar t u) : Equivalent components t u
  | body {name : String} {c : Component} (h : components.lookup name = some c) :
    Equivalent components (.ref name) c.type
  | symm {t u : TypeExpr} (h : Equivalent components t u) : Equivalent components u t
  | trans {t u v : TypeExpr} (h : Equivalent components t u) (h' : Equivalent components u v) :
    Equivalent components t v
  /-- One type with its children replaced in two ways. -/
  | children {t : TypeExpr} {f g : TypeExpr → TypeExpr}
      (h : ∀ c ∈ t.children, Equivalent components (f c) (g c)) :
    Equivalent components (t.mapChildren f) (t.mapChildren g)

theorem Equivalent.refl {components : List (String × Component)} (t : TypeExpr) :
    Equivalent components t t :=
  .similar (.refl t)

/-! ### Look-up -/

namespace Index

theorem name?_add (index : Index) (key name k : String) :
    (index.add key name).name? k = (index.name? k).or ([(key, name)].lookup k) := by
  unfold add
  cases hkey : index.name? key with
  | none => exact List.lookup_append
  | some other =>
    cases hk : index.name? k with
    | some _ => rfl
    | none =>
      have hne : k ≠ key := by
        rintro rfl
        rw [hkey] at hk
        cases hk
      simp [List.lookup_cons, beq_eq_false_iff_ne.mpr hne]

/-- What is there stays, and a new text is found under its first name. -/
theorem name?_addAll (index : Index) (entries : List (String × String)) (k : String) :
    (index.addAll entries).name? k = (index.name? k).or (entries.lookup k) := by
  unfold addAll
  induction entries generalizing index with
  | nil => exact Option.or_none.symm
  | cons e entries ih =>
    rw [List.foldl_cons, ih, name?_add, Option.or_assoc]
    exact congrArg _ List.lookup_append.symm

/-- The objects with members among the components. -/
def objects (components : List (String × Component)) : List (String × Component) :=
  components.filter fun c => c.2.type.hasMembers

theorem mem_objects {components : List (String × Component)} {c : String × Component} :
    c ∈ objects components ↔ c ∈ components ∧ c.2.type.hasMembers = true :=
  List.mem_filter

/-- The index of the fingerprints alone. -/
def plain (components : List (String × Component)) : Index :=
  ({} : Index).addAll ((objects components).map fun c => (c.2.type.fingerprint, c.1))

theorem name?_plain (components : List (String × Component)) (k : String) :
    (plain components).name? k =
      ((objects components).map fun c => (c.2.type.fingerprint, c.1)).lookup k := by
  rw [plain, name?_addAll]
  exact Option.none_or

theorem name?_ofComponents (components : List (String × Component)) (k : String) :
    (ofComponents components).name? k = ((plain components).name? k).or
      (((objects components).map fun c => ((plain components).abridged c.2.type, c.1)).lookup k) :=
  name?_addAll _ _ _

theorem find?_eq (index : Index) {t : TypeExpr} (ht : t.hasMembers = true) :
    index.find? t =
      (index.name? (TypeExpr.resolve index.name? t).fingerprint).or (index.name? t.fingerprint) := by
  rw [find?, if_pos ht, abridged, TypeExpr.abridged_eq_fingerprint, Option.orElse_eq_orElse,
    Option.orElse_eq_or]

theorem hasMembers_of_find? {index : Index} {t : TypeExpr} {name : String}
    (h : index.find? t = some name) : t.hasMembers = true := by
  by_contra ht
  rw [find?, if_neg ht] at h
  cases h

end Index

/-! ### What a name stands for -/

section
variable {components : List (String × Component)}

/-- The text is the fingerprint of a type that is equivalent to the component of the name. -/
def Shows (components : List (String × Component)) (key name : String) : Prop :=
  ∃ c u, components.lookup name = some c ∧ u.Legible ∧ key = u.fingerprint ∧
    Equivalent components u c.type

def Sound (components : List (String × Component)) (names : String → Option String) : Prop :=
  ∀ key name, names key = some name → Shows components key name

variable {names : String → Option String}

/-- An object and the component of its fingerprint are equivalent. -/
theorem Shows.equivalent {t : TypeExpr} {name : String} (h : Shows components t.fingerprint name)
    (ht : t.Legible) :
    ∃ c, components.lookup name = some c ∧ Equivalent components t c.type :=
  let ⟨c, _, hc, hu, hkey, hequiv⟩ := h
  ⟨c, hc, .trans (.similar (TypeExpr.similar_of_fingerprint_eq ht hu hkey)) hequiv⟩

theorem equivalent_stand (hs : Sound components names) {t : TypeExpr} (ht : t.Legible) :
    Equivalent components t (stand (known names) t) := by
  unfold stand known
  split
  · cases hname : names t.fingerprint with
    | none => exact .refl t
    | some name =>
      obtain ⟨c, hc, hequiv⟩ := (hs _ _ hname).equivalent ht
      exact hequiv.trans (.symm (.body hc))
  · exact .refl t

theorem legible_of_known (hs : Sound components names)
    (hl : ∀ c ∈ components, (TypeExpr.ref c.1).Legible) (u : TypeExpr) (name : String)
    (h : known names u = some name) : (TypeExpr.ref name).Legible := by
  unfold known at h
  split at h
  · obtain ⟨c, _, hc, -⟩ := hs _ _ h
    exact hl (name, c) (Json.mem_of_lookup hc)
  · cases h

theorem equivalent_resolve (hs : Sound components names)
    (hl : ∀ c ∈ components, (TypeExpr.ref c.1).Legible) {t : TypeExpr} (ht : t.Legible) :
    Equivalent components t (TypeExpr.resolve names t) := by
  induction t using TypeExpr.induct with
  | step t ih =>
    rw [TypeExpr.resolve_eq]
    nth_rewrite 1 [← t.mapChildren_id]
    refine .children fun c hc => (ih c hc (ht.child c hc)).trans (equivalent_stand hs ?_)
    exact TypeExpr.Legible.collapse (ht.child c hc) (legible_of_known hs hl)

/-- Fingerprints and abridged texts both show what a component is. -/
theorem shows_abridged (hs : Sound components names)
    (hn : (components.map (·.1)).Nodup)
    (hl : ∀ c ∈ components, (TypeExpr.ref c.1).Legible ∧ c.2.type.Legible)
    {c : String × Component} (hc : c ∈ components) :
    Shows components (c.2.type.abridged names) c.1 :=
  have href : ∀ c ∈ components, (TypeExpr.ref c.1).Legible := fun c hc => (hl c hc).1
  ⟨c.2, TypeExpr.resolve names c.2.type, Json.lookup_of_mem hn hc,
    (hl c hc).2.collapse (legible_of_known hs href), TypeExpr.abridged_eq_fingerprint names _,
    (equivalent_resolve hs href (hl c hc).2).symm⟩

theorem mem_of_lookup_map {key : String × Component → String} {k name : String}
    (h : (components.map fun c => (key c, c.1)).lookup k = some name) :
    ∃ c ∈ components, k = key c ∧ name = c.1 := by
  obtain ⟨c, hc, heq⟩ := List.mem_map.mp (Json.mem_of_lookup h)
  exact ⟨c, hc, (Prod.mk.inj heq).1.symm, (Prod.mk.inj heq).2.symm⟩

theorem sound_plain (hn : (components.map (·.1)).Nodup)
    (hl : ∀ c ∈ components, (TypeExpr.ref c.1).Legible ∧ c.2.type.Legible) :
    Sound components (Index.plain components).name? := by
  intro key name h
  rw [Index.name?_plain] at h
  obtain ⟨c, hc, rfl, rfl⟩ := mem_of_lookup_map h
  have hnone : Sound components fun _ => none := fun _ _ h => nomatch h
  exact shows_abridged hnone hn hl (Index.mem_objects.mp hc).1

theorem sound_ofComponents (hn : (components.map (·.1)).Nodup)
    (hl : ∀ c ∈ components, (TypeExpr.ref c.1).Legible ∧ c.2.type.Legible) :
    Sound components (Index.ofComponents components).name? := by
  intro key name h
  rw [Index.name?_ofComponents] at h
  obtain h | ⟨-, h⟩ := Option.or_eq_some_iff.mp h
  · exact sound_plain hn hl key name h
  · obtain ⟨c, hc, rfl, rfl⟩ := mem_of_lookup_map h
    exact shows_abridged (sound_plain hn hl) hn hl (Index.mem_objects.mp hc).1

theorem equivalent_of_legible (hn : (components.map (·.1)).Nodup)
    (hl : ∀ c ∈ components, (TypeExpr.ref c.1).Legible ∧ c.2.type.Legible) {t : TypeExpr}
    (ht : t.Legible) {name : String} (h : (Index.ofComponents components).find? t = some name) :
    ∃ c, components.lookup name = some c ∧ Equivalent components t c.type := by
  have hs := sound_ofComponents hn hl
  have href : ∀ c ∈ components, (TypeExpr.ref c.1).Legible := fun c hc => (hl c hc).1
  rw [Index.find?_eq _ (Index.hasMembers_of_find? h)] at h
  obtain h | ⟨-, h⟩ := Option.or_eq_some_iff.mp h
  · obtain ⟨c, hc, hequiv⟩ := (hs _ _ h).equivalent (ht.collapse (legible_of_known hs href))
    exact ⟨c, hc, (equivalent_resolve hs href ht).trans hequiv⟩
  · exact (hs _ _ h).equivalent ht

end

/-! ### Names as they are usually written -/

/-- Member names are identifiers, component names are made of the characters of component keys,
and formats hold neither parentheses nor commas. -/
def Conventional : TypeExpr → Prop
  | .ref name => ∀ c ∈ name.toList, OpenApi.isKeyChar c = true
  | .primitive _ format => ∀ f ∈ format, ∀ c ∈ f.toList, c ∉ ['(', ')', ',']
  | .const v => v.Readable
  | .enum vs => ∀ v ∈ vs, v.Readable
  | .object ms _ => ∀ m ∈ ms, TypeScript.isIdentifier m.name.toList = true
  | _ => True

theorem legibleName_of_isIdentifier {name : String}
    (h : TypeScript.isIdentifier name.toList = true) : TypeExpr.LegibleName name := by
  have hpart : ∀ c ∈ [':', '\x7d', '|'],
      TypeScript.isIdentifierStart c = false ∧ TypeScript.isIdentifierPart c = false :=
    Json.forall_mem_of_all (by decide)
  unfold TypeExpr.LegibleName
  cases hname : name.toList with
  | nil => exact ⟨nofun, nofun⟩
  | cons c cs =>
    rw [hname, TypeScript.isIdentifier, Bool.and_eq_true, List.all_eq_true] at h
    refine ⟨fun hcolon => ?_, fun d hd hmark => ?_⟩
    · rcases List.mem_cons.mp hcolon with rfl | hcolon
      · exact absurd h.1 (by decide)
      · exact absurd (h.2 _ hcolon) (by decide)
    · obtain rfl : c = d := Option.some.inj hd
      rw [(hpart c (List.mem_cons_of_mem _ hmark)).1] at h
      cases h.1

theorem Conventional.clear {t : TypeExpr} (h : Conventional t) : t.Clear := by
  cases t with
  | ref name =>
    have hstops : ∀ c ∈ TypeExpr.stops, OpenApi.isKeyChar c = false :=
      Json.forall_mem_of_all (by decide)
    exact fun c hc hstop => absurd (h c hc) (by simp [hstops c hstop])
  | primitive kind format => exact fun f hf hc => h f hf _ hc (by decide)
  | object ms additional => exact fun m hm => legibleName_of_isIdentifier (h m hm)
  | const v => exact h
  | enum vs => exact h
  | _ => trivial

/-- An object that is found is the component up to similarity and to what is written out. -/
theorem equivalent_of_find? {components : List (String × Component)}
    (hn : (components.map (·.1)).Nodup)
    (hc : ∀ c ∈ components, Conventional (.ref c.1) ∧ c.2.type.All Conventional) {t : TypeExpr}
    (ht : t.All Conventional) {name : String}
    (h : (Index.ofComponents components).find? t = some name) :
    ∃ c, components.lookup name = some c ∧ Equivalent components t c.type := by
  have hlegible : ∀ {u : TypeExpr}, u.All Conventional → u.Legible :=
    fun hu => hu.imp fun _ => Conventional.clear
  refine equivalent_of_legible hn (fun c hm => ⟨?_, hlegible (hc c hm).2⟩) (hlegible ht) h
  exact TypeExpr.all_of_childless rfl (hc c hm).1.clear

/-- A component and another one that refers to it. -/
def wrapping : List (String × Component) :=
  [("Item", { type := .single "a" .string }), ("Wrapper", { type := .single "d" (.ref "Item") })]

theorem ofComponents_wrapping :
    Index.ofComponents wrapping =
      ⟨[("\x7ba!:string\x7d", "Item"), ("\x7bd!:$Item\x7d", "Wrapper")]⟩ := by
  have hobjects : Index.objects wrapping = wrapping := rfl
  have hplain : Index.plain wrapping =
      ⟨[("\x7ba!:string\x7d", "Item"), ("\x7bd!:$Item\x7d", "Wrapper")]⟩ := by
    rw [Index.plain, hobjects]
    simp [wrapping, Index.addAll, Index.add, Index.name?, fingerprint, TypeExpr.abridged_single,
      TypeExpr.within, TypeExpr.nested, TypeExpr.string, TypeExpr.abridged, Primitive.name,
      List.lookup_cons]
  have hindex : Index.ofComponents wrapping = (Index.plain wrapping).addAll
      (wrapping.map fun c => ((Index.plain wrapping).abridged c.2.type, c.1)) := rfl
  rw [hindex, hplain]
  simp [wrapping, Index.addAll, Index.add, Index.name?, Index.abridged, TypeExpr.abridged_single,
    TypeExpr.within, TypeExpr.nested, TypeExpr.string, TypeExpr.abridged, Primitive.name,
    List.lookup_cons]

theorem conventional_single {name : String} {t : TypeExpr}
    (hname : TypeScript.isIdentifier name.toList = true) (ht : t.All Conventional) :
    (TypeExpr.single name t).All Conventional :=
  .intro (List.forall_mem_singleton.mpr hname) (List.forall_mem_singleton.mpr ht)

/-- The wrapper is found although the item in it is written out. -/
theorem equivalent_of_find?_wrapping :
    let t : TypeExpr := .single "d" (.single "a" .string)
    (Index.ofComponents wrapping).find? t = some "Wrapper" ∧
      ∃ c, wrapping.lookup "Wrapper" = some c ∧ Equivalent wrapping t c.type := by
  intro t
  have hstring : TypeExpr.string.All Conventional := TypeExpr.all_of_childless rfl nofun
  have hitem : ∀ c ∈ "Item".toList, OpenApi.isKeyChar c = true := Json.forall_mem_of_all (by decide)
  have hwrapper : ∀ c ∈ "Wrapper".toList, OpenApi.isKeyChar c = true :=
    Json.forall_mem_of_all (by decide)
  have hcomponents : ∀ c ∈ wrapping, Conventional (.ref c.1) ∧ c.2.type.All Conventional :=
    List.forall_mem_cons.mpr ⟨⟨hitem, conventional_single (by decide) hstring⟩,
      List.forall_mem_singleton.mpr
        ⟨hwrapper, conventional_single (by decide) (TypeExpr.all_of_childless rfl hitem)⟩⟩
  have hfind : (Index.ofComponents wrapping).find? t = some "Wrapper" := by
    rw [ofComponents_wrapping]
    simp [t, Index.find?, Index.name?, Index.abridged, TypeExpr.abridged_single, TypeExpr.within,
      TypeExpr.nested, TypeExpr.string, TypeExpr.abridged, Primitive.name,
      List.lookup_cons]
  exact ⟨hfind, equivalent_of_find? (by decide) hcomponents
    (conventional_single (by decide) (conventional_single (by decide) hstring)) hfind⟩

end TypedApi.Api
