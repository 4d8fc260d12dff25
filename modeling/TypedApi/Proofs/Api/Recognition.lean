import Mathlib.Data.List.Nodup
import TypedApi.Proofs.Api.Completeness
import TypedApi.TypeScript.Type

/-! Which component an object is recognised as.

How types are presented does not matter, neither that of the object nor those of the components:
similar objects are recognised alike among similar components (`find?_of_similar`). How they are
spelled does, whether a component that stands in them is written out or referred to: a component
itself is recognised as the first that has the spelling its look-up prefers (`find?_first`). That is
the first of all equivalent components where they have one spelling. Between a copy and a reference
the order does not decide (`find?_first_reversed`). -/
namespace TypedApi.Api
open TypeExpr (Similar Legible fingerprint collapse)

/-! ### Presentation -/

/-- Components under the same names, each similar to its counterpart. -/
def SimilarComponents (cs ds : List (String × Component)) : Prop :=
  List.Forall₂ (fun c d => c.1 = d.1 ∧ TypeExpr.Similar c.2.type d.2.type) cs ds

/-- A text that shows the structure of types only. -/
def Structural (text : TypeExpr → String) : Prop := ∀ t u, Similar t u → text t = text u

theorem structural_fingerprint : Structural fingerprint := fun _ _ h => h.abridged_eq _

namespace Index

theorem structural_abridged (index : Index) : Structural index.abridged := fun _ _ h => h.abridged_eq _

theorem entries_eq {cs ds : List (String × Component)} (h : SimilarComponents cs ds)
    {text : TypeExpr → String} (htext : Structural text) : entries text cs = entries text ds := by
  induction h with
  | nil => rfl
  | cons hcd _ ih =>
    obtain ⟨hname, hsimilar⟩ := hcd
    unfold entries objects at ih ⊢
    rw [List.filter_cons, List.filter_cons, hsimilar.hasMembers]
    split
    · rw [List.map_cons, List.map_cons, ih, hname, htext _ _ hsimilar]
    · exact ih

theorem ofComponents_eq (components : List (String × Component)) :
    ofComponents components =
      (plain components).addAll (entries (plain components).abridged components) :=
  rfl

theorem ofComponents_of_similar {cs ds : List (String × Component)} (h : SimilarComponents cs ds) :
    ofComponents cs = ofComponents ds := by
  have hplain : plain cs = plain ds :=
    congrArg (({} : Index).addAll ·) (entries_eq h structural_fingerprint)
  rw [ofComponents_eq, ofComponents_eq, hplain, entries_eq h (structural_abridged _)]

/-- Similar objects have the same fingerprint and are recognised as the same component, also if the
components are exchanged for similar ones. -/
theorem find?_of_similar {cs ds : List (String × Component)} (h : SimilarComponents cs ds)
    {t u : TypeExpr} (htu : Similar t u) :
    t.fingerprint = u.fingerprint ∧ (ofComponents cs).find? t = (ofComponents ds).find? u := by
  have hfingerprint := structural_fingerprint t u htu
  refine ⟨hfingerprint, ?_⟩
  rw [ofComponents_of_similar h, find?, find?, htu.hasMembers, hfingerprint,
    structural_abridged _ t u htu]

end Index

/-- Pages whose members, and those of the items in them, are in two orders. -/
theorem find?_of_similar_pages :
    let id : Member := { name := "id", type := .string, required := true }
    let size : Member := { name := "size", type := .primitive .integer none }
    let items (ms : List Member) : Member :=
      { name := "items", type := .array (.object ms none), required := true }
    let next (d : Option String) : Member := { name := "next", type := .union [.string, .null] d }
    let page := TypeExpr.object [items [id, size], next none] none
    let egap := TypeExpr.object [{ next (some "kind") with readOnly := true }, items [size, id]] none
    let pages (t : TypeExpr) : List (String × Component) := [("Page", { type := t })]
    SimilarComponents (pages page) (pages egap) ∧ Similar page egap ∧
      page.fingerprint = egap.fingerprint ∧
      (Index.ofComponents (pages page)).find? page = (Index.ofComponents (pages egap)).find? egap := by
  intro id size items next page egap pages
  have hitems : TypeExpr.Similar (.object [id, size] none) (.object [size, id] none) :=
    .object (.swap _ _ _) (.cons (.intro rfl rfl (.refl _)) (.cons (.intro rfl rfl (.refl _)) .nil)) .none
  have hnext : TypeExpr.Similar (.union [.string, .null] none)
      (.union [.string, .null] (some "kind")) :=
    .union (.cons (.refl _) (.cons (.refl _) .nil)) none (some "kind")
  have hpage : Similar page egap := .object (.swap _ _ _)
    (.cons (.intro rfl rfl hnext) (.cons (.intro rfl rfl (.array hitems)) .nil)) .none
  have hpages : SimilarComponents (pages page) (pages egap) := .cons ⟨rfl, hpage⟩ .nil
  exact ⟨hpages, hpage, Index.find?_of_similar hpages hpage⟩

/-! ### The first component -/

namespace Index
variable {components : List (String × Component)} {text : TypeExpr → String} {key name : String}

/-- What is found is the first of its spelling. -/
theorem first_similar_of_lookup (htext : Structural text)
    (h : (entries text components).lookup key = some name) :
    ∃ c, c.1 = name ∧ First components (Similar · c.2.type) c := by
  obtain ⟨c, hname, before, after, hsplit, ⟨hm, hkey⟩, hbefore⟩ := first_of_lookup h
  refine ⟨c, hname, before, after, hsplit, .refl _, fun b hb hsimilar => hbefore b hb ?_⟩
  exact ⟨hsimilar.hasMembers.trans hm, (htext _ _ hsimilar).trans hkey⟩

theorem first_of_name? (h : (ofComponents components).name? key = some name) :
    ∃ c, c.1 = name ∧ First components (Similar · c.2.type) c := by
  rw [name?_ofComponents, name?_plain] at h
  obtain h | ⟨-, h⟩ := Option.or_eq_some_iff.mp h
  · exact first_similar_of_lookup structural_fingerprint h
  · exact first_similar_of_lookup (structural_abridged _) h

theorem first_of_find? {t : TypeExpr} (h : (ofComponents components).find? t = some name) :
    ∃ c, c.1 = name ∧ First components (Similar · c.2.type) c := by
  rw [find?_eq _ (hasMembers_of_find? h)] at h
  obtain h | ⟨-, h⟩ := Option.or_eq_some_iff.mp h
  · exact first_of_name? h
  · exact first_of_name? h

end Index

/-! ### The preferred spelling -/

/-- The spelling by which a component is looked up among those that are equivalent to it: one with
references wherever the look-up puts them, or else one that comes to have them by the replacement of
what the components are as they stand, or else the spelling of the component itself. -/
def Preferred (components : List (String × Component)) (t u : TypeExpr) : Prop :=
  let sought := t.collapse (Index.ofComponents components).find?
  let replaced (v : TypeExpr) := v.collapse (Index.plain components).find?
  Similar sought u ∨ (∀ e ∈ components, ¬ Similar sought e.2.type) ∧
    (Similar sought (replaced u) ∨ (∀ e ∈ components, ¬ Similar sought (replaced e.2.type)) ∧
      Similar t u)

section
variable {components : List (String × Component)}

namespace Index

theorem similar_iff_fingerprint {t u : TypeExpr} (ht : t.Legible) (hu : u.Legible)
    (hm : t.hasMembers = true) :
    Similar t u ↔ u.hasMembers = true ∧ u.fingerprint = t.fingerprint := by
  constructor
  · exact fun h => ⟨h.hasMembers.symm.trans hm, (structural_fingerprint _ _ h).symm⟩
  · exact fun ⟨_, hkey⟩ => TypeExpr.similar_of_fingerprint_eq ht hu hkey.symm

/-- A fingerprint is found under the first component that is written as it tells. -/
theorem first_written {written : TypeExpr → TypeExpr}
    (hmembers : ∀ u, (written u).hasMembers = u.hasMembers)
    (hw : ∀ c ∈ components, (written c.2.type).Legible) {t : TypeExpr} (ht : t.Legible)
    (hm : t.hasMembers = true) {found : Option String}
    (h : (entries (fun u => (written u).fingerprint) components).lookup t.fingerprint = found) :
    (∀ name, found = some name → ∃ c, c.1 = name ∧ First components (Similar t <| written ·) c) ∧
      (found = none → ∀ e ∈ components, ¬ Similar t (written e.2.type)) := by
  have htext : ∀ e ∈ components, Similar t (written e.2.type) ↔
      e.2.type.hasMembers = true ∧ (written e.2.type).fingerprint = t.fingerprint := by
    intro e he
    rw [similar_iff_fingerprint ht (hw e he) hm, hmembers]
  constructor
  · rintro name rfl
    obtain ⟨c, hname, hfirst⟩ := first_of_lookup h
    exact ⟨c, hname, hfirst.congr fun e he => (htext e he).symm⟩
  · rintro rfl e he hsimilar
    obtain ⟨hme, hkey⟩ := (htext e he).mp hsimilar
    refine Json.lookup_eq_none_iff.mp h (List.mem_map.mpr ⟨_, List.mem_map_of_mem ?_, hkey⟩)
    exact mem_objects.mpr ⟨he, hme⟩

theorem legible_collapse {index : Index} (hs : Sound components index.name?)
    (hl : ∀ c ∈ components, (TypeExpr.ref c.1).Legible ∧ c.2.type.Legible) {t : TypeExpr}
    (ht : t.Legible) : (t.collapse index.find?).Legible := by
  rw [collapse_find?]
  exact ht.collapse (legible_of_known hs fun c hc => (hl c hc).1)

theorem equivalent_collapse {index : Index} (hs : Sound components index.name?)
    (hl : ∀ c ∈ components, (TypeExpr.ref c.1).Legible ∧ c.2.type.Legible) {t : TypeExpr}
    (ht : t.Legible) : Equivalent components t (t.collapse index.find?) := by
  rw [collapse_find?]
  exact equivalent_resolve hs (fun c hc => (hl c hc).1) ht

/-- Where an object is looked up: among the components as they stand, among those with replacements
in them, and with what it says itself. -/
theorem find?_eq_lookups {t : TypeExpr} (ht : t.hasMembers = true) :
    let key := (t.collapse (ofComponents components).find?).fingerprint
    (ofComponents components).find? t =
      (((entries fingerprint components).lookup key).or
        ((entries (fun u => (u.collapse (plain components).find?).fingerprint) components).lookup
          key)).or ((ofComponents components).name? t.fingerprint) := by
  intro key
  have htext : (plain components).abridged =
      fun u => (u.collapse (plain components).find?).fingerprint := by
    funext u
    rw [collapse_find?, abridged, TypeExpr.abridged_eq_fingerprint]
  rw [find?_eq _ ht, ← collapse_find?, ← htext, name?_ofComponents, name?_plain]
  rfl

end Index

variable (hn : (components.map (·.1)).Nodup)
  (hl : ∀ c ∈ components, (TypeExpr.ref c.1).Legible ∧ c.2.type.Legible)
include hn hl

theorem Preferred.equivalent {x e : String × Component} (hx : x ∈ components) (he : e ∈ components)
    (h : Preferred components x.2.type e.2.type) : Equivalent components x.2.type e.2.type := by
  have hsought := Index.equivalent_collapse (sound_ofComponents hn hl) hl (hl x hx).2
  have hreplaced := Index.equivalent_collapse (sound_plain hn hl) hl (hl e he).2
  obtain h | ⟨-, h | ⟨-, h⟩⟩ := h
  · exact hsought.trans (.similar h)
  · exact (hsought.trans (.similar h)).trans hreplaced.symm
  · exact .similar h

/-- A component is recognised as the first one that is spelled as its look-up prefers. -/
theorem first_preferred {x : String × Component} (hx : x ∈ components)
    (hm : x.2.type.hasMembers = true) :
    ∃ d, (Index.ofComponents components).find? x.2.type = some d.1 ∧
      First components (Preferred components x.2.type) d := by
  let sought := x.2.type.collapse (Index.ofComponents components).find?
  have hsought : sought.Legible := Index.legible_collapse (sound_ofComponents hn hl) hl (hl x hx).2
  have hreplaced : ∀ c ∈ components, (c.2.type.collapse (Index.plain components).find?).Legible :=
    fun c hc => Index.legible_collapse (sound_plain hn hl) hl (hl c hc).2
  have hms : sought.hasMembers = true := (TypeExpr.hasMembers_collapse _ _).trans hm
  have hstand := @Index.first_written components (fun u => u) (fun _ => rfl)
    (fun c hc => (hl c hc).2) sought hsought hms _ rfl
  have hcomes := Index.first_written (TypeExpr.hasMembers_collapse _) hreplaced hsought hms rfl
  rw [Index.find?_eq_lookups hm]
  cases hname : (Index.entries fingerprint components).lookup sought.fingerprint with
  | some name =>
    obtain ⟨c, rfl, hc⟩ := hstand.1 name hname
    refine ⟨c, rfl, hc.congr fun e he => ⟨.inl, ?_⟩⟩
    rintro (h | ⟨h, -⟩)
    · exact h
    · exact absurd hc.prop (h c hc.mem)
  | none =>
    -- No component is spelled as it is sought, so the ones with replacements in them are asked.
    have hunwritten := hstand.2 hname
    cases hname' : (Index.entries (fun u => (u.collapse (Index.plain components).find?).fingerprint)
      components).lookup sought.fingerprint with
    | some name =>
      obtain ⟨c, rfl, hc⟩ := hcomes.1 name hname'
      refine ⟨c, rfl, hc.congr fun e he => ⟨fun h => .inr ⟨hunwritten, .inl h⟩, ?_⟩⟩
      rintro (h | ⟨-, h | ⟨h, -⟩⟩)
      · exact absurd h (hunwritten e he)
      · exact h
      · exact absurd hc.prop (h c hc.mem)
    | none =>
      have hunreplaced := hcomes.2 hname'
      obtain ⟨c, hname, hc⟩ := Index.first_of_fingerprint hx hm
      refine ⟨c, hname, hc.congr fun e he => ?_⟩
      rw [← Index.similar_iff_fingerprint (hl x hx).2 (hl e he).2 hm]
      refine ⟨fun h => .inr ⟨hunwritten, .inr ⟨hunreplaced, h⟩⟩, ?_⟩
      rintro (h | ⟨-, h | ⟨-, h⟩⟩)
      · exact absurd h (hunwritten e he)
      · exact absurd h (hunreplaced e he)
      · exact h

end

/-- What is recognised is written as the name of the component. -/
theorem type_of_find? (s : TypeScript.Scope) {t : TypeExpr} {name : String}
    (h : s.index.find? t = some name) : s.type t = name := by
  cases t with
  | object members additional => rw [TypeScript.Scope.type, h]
  | _ => cases h

section
variable {components : List (String × Component)}

/-- A component is recognised, and written, as the first that is spelled as its look-up prefers,
and equivalent to it. This is the first of all equivalent ones exactly if that one is spelled so, as
it is if there is only one spelling. -/
theorem find?_first (hn : (components.map (·.1)).Nodup)
    (hl : ∀ c ∈ components, (TypeExpr.ref c.1).Legible ∧ c.2.type.Legible)
    {x : String × Component} (hx : x ∈ components) (hm : x.2.type.hasMembers = true) :
    ∃ d, (Index.ofComponents components).find? x.2.type = some d.1 ∧
      (∀ s : TypeScript.Scope, s.index = Index.ofComponents components → s.type x.2.type = d.1) ∧
      First components (Preferred components x.2.type) d ∧ Equivalent components x.2.type d.2.type ∧
      ∀ c, First components (Equivalent components x.2.type) c →
        (d = c ↔ Preferred components x.2.type c.2.type) ∧
        ((∀ e ∈ components, Equivalent components x.2.type e.2.type → Similar e.2.type c.2.type) →
          d = c) := by
  obtain ⟨d, hfind, hd⟩ := first_preferred hn hl hx hm
  have hequivalent := hd.prop.equivalent hn hl hx hd.mem
  refine ⟨d, hfind, fun s hs => type_of_find? s (hs ▸ hfind), hd, hequivalent, fun c hc => ⟨?_, ?_⟩⟩
  · exact ⟨fun hdc => hdc ▸ hd.prop, fun h => hd.eq hc h hequivalent⟩
  · intro hspelling
    obtain ⟨d', hname, hd'⟩ := Index.first_of_find? hfind
    obtain rfl : d' = d := List.inj_on_of_nodup_map hn hd'.mem hd.mem hname
    have hdc := hspelling d' hd.mem hequivalent
    have hcd : Similar c.2.type d'.2.type := TypeExpr.similar_of_fingerprint_eq (hl c hc.mem).2
      (hl d' hd.mem).2 (structural_fingerprint _ _ hdc).symm
    exact hd'.eq hc hcd hequivalent

end

/-- A wrapper that refers to an item, and one in which the item is written out. -/
def spellings : List (String × Component) :=
  [("Reference", { type := .single "d" (.ref "Item") }), ("Item", { type := .single "a" .string }),
    ("Copy", { type := .single "d" (.single "a" .string) })]

theorem legible_spellings :
    ∀ c ∈ spellings, (TypeExpr.ref c.1).Legible ∧ c.2.type.Legible := by
  have hlegible : ∀ {t : TypeExpr}, t.All Conventional → t.Legible := fun h =>
    h.imp fun _ => Conventional.clear
  have hkeys : ∀ name ∈ ["Reference", "Item", "Copy"], name.toList.all OpenApi.isKeyChar = true := by
    decide
  have href : ∀ name ∈ ["Reference", "Item", "Copy"], (TypeExpr.ref name).All Conventional :=
    fun name hname => TypeExpr.all_of_childless rfl (List.all_eq_true.mp (hkeys name hname))
  have hstring : TypeExpr.string.All Conventional := TypeExpr.all_of_childless rfl nofun
  have hitem : (TypeExpr.single "a" .string).All Conventional := conventional_single (by decide) hstring
  exact List.forall_mem_cons.mpr ⟨⟨hlegible (href _ (by decide)),
      hlegible (conventional_single (by decide) (href "Item" (by decide)))⟩,
    List.forall_mem_cons.mpr ⟨⟨hlegible (href _ (by decide)), hlegible hitem⟩,
      List.forall_mem_singleton.mpr ⟨hlegible (href _ (by decide)),
        hlegible (conventional_single (by decide) hitem)⟩⟩⟩

/-- The copy is recognised as the wrapper in front of it. -/
theorem find?_first_spellings :
    let copy : TypeExpr := .single "d" (.single "a" .string)
    let reference : String × Component := ("Reference", { type := .single "d" (.ref "Item") })
    First spellings (Equivalent spellings copy) reference ∧
      (Index.ofComponents spellings).find? copy = some "Reference" := by
  intro copy reference
  have hequivalent : Equivalent spellings copy reference.2.type := by
    refine .children (t := .single "d" .unknown) (f := fun _ => .single "a" .string)
      (g := fun _ => .ref "Item") fun c _ => ?_
    exact .symm (.body (c := { type := .single "a" .string }) rfl)
  have hfirst : First spellings (Equivalent spellings copy) reference :=
    ⟨[], _, rfl, hequivalent, List.forall_mem_nil _⟩
  have hitem : (Index.ofComponents spellings).find? (.single "a" .string) = some "Item" := by
    decide +kernel
  have hcollapse : copy.collapse (Index.ofComponents spellings).find? = .single "d" (.ref "Item") := by
    have hinner : (TypeExpr.single "a" .string).collapse (Index.ofComponents spellings).find? =
        .single "a" .string := rfl
    show TypeExpr.single "d" (TypeExpr.stand _ (collapse _ (.single "a" .string))) = _
    rw [hinner, TypeExpr.stand, hitem]
    rfl
  obtain ⟨d, hfind, -, -, -, hd⟩ := find?_first (by decide) legible_spellings
    (x := ("Copy", { type := copy })) (by simp [spellings, copy]) rfl
  have hpreferred : Preferred spellings copy reference.2.type := .inl (hcollapse ▸ .refl _)
  obtain rfl := (hd reference hfirst).1.mpr hpreferred
  exact ⟨hfirst, hfind⟩

/-- In the other order the copy comes first, and still it is recognised as the wrapper behind it. -/
theorem find?_first_reversed :
    let copy : TypeExpr := .single "d" (.single "a" .string)
    First spellings.reverse (Equivalent spellings.reverse copy) ("Copy", { type := copy }) ∧
      (Index.ofComponents spellings.reverse).find? copy = some "Reference" :=
  ⟨⟨[], _, rfl, .refl _, List.forall_mem_nil _⟩, by decide +kernel⟩

end TypedApi.Api
