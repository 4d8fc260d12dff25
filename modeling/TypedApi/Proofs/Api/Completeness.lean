import TypedApi.Proofs.Api.Index

/-! Objects are found whatever is written out inside them.

Looking an object up replaces the objects inside it from the inside out, and what is left is
compared with the components as they stand (`find?_of_collapse`). The replacement is the one of
the index itself, so it does not matter whether it is made before the look-up. -/
namespace TypedApi.Api
open TypeExpr (Similar Legible fingerprint known stand collapse within)

variable {components : List (String × Component)}

/-! ### The first component -/

/-- The first of the components whose type is as `P` says. -/
def First (components : List (String × Component)) (P : TypeExpr → Prop) (c : String × Component) :
    Prop :=
  ∃ before after, components = before ++ c :: after ∧ P c.2.type ∧ ∀ b ∈ before, ¬ P b.2.type

section
variable {P Q : TypeExpr → Prop} {c d : String × Component}

theorem First.prop (h : First components P c) : P c.2.type := by
  obtain ⟨_, _, -, hp, -⟩ := h
  exact hp

theorem First.mem (h : First components P c) : c ∈ components := by
  obtain ⟨before, after, rfl, -⟩ := h
  exact List.mem_append_right _ List.mem_cons_self

theorem First.congr (h : First components P c) (hpq : ∀ e ∈ components, P e.2.type ↔ Q e.2.type) :
    First components Q c := by
  have hq := (hpq c h.mem).mp h.prop
  obtain ⟨before, after, rfl, -, hbefore⟩ := h
  exact ⟨before, after, rfl, hq, fun b hb hqb =>
    hbefore b hb ((hpq b (List.mem_append_left _ hb)).mpr hqb)⟩

/-- The first in one respect is the first in another one, if each is as the other one asks. -/
theorem First.eq (hc : First components P c) (hd : First components Q d) (hp : P d.2.type)
    (hq : Q c.2.type) : c = d := by
  obtain ⟨before, after, hsplit, -, hbefore⟩ := hc
  obtain ⟨before', after', hsplit', -, hbefore'⟩ := hd
  rw [hsplit] at hsplit'
  rcases List.append_eq_append_iff.mp hsplit' with ⟨between, rfl, htail⟩ | ⟨between, rfl, htail⟩
  · cases between with
    | nil => exact (List.cons.inj htail).1
    | cons e between =>
      obtain ⟨rfl, -⟩ := List.cons.inj htail
      exact absurd hq (hbefore' c (List.mem_append_right _ List.mem_cons_self))
  · cases between with
    | nil => exact (List.cons.inj htail).1.symm
    | cons e between =>
      obtain ⟨rfl, -⟩ := List.cons.inj htail
      exact absurd hp (hbefore d (List.mem_append_right _ List.mem_cons_self))

end

/-! ### Look-up -/

namespace Index

/-- What an object resolves to is known by its own fingerprint. -/
theorem find?_resolve (index : Index) (t : TypeExpr) :
    index.find? (TypeExpr.resolve index.name? t) =
      known index.name? (TypeExpr.resolve index.name? t) := by
  unfold known
  split
  next ht => rw [find?_eq index ht, TypeExpr.resolve_resolve, Option.or_self]
  next ht => rw [find?, if_neg ht]

theorem collapse_find? (index : Index) (t : TypeExpr) :
    t.collapse index.find? = TypeExpr.resolve index.name? t := by
  induction t using TypeExpr.induct with
  | step t ih =>
    rw [TypeExpr.collapse_eq, TypeExpr.resolve_eq]
    refine TypeExpr.mapChildren_congr fun c hc => ?_
    rw [ih c hc, stand, stand, find?_resolve]

/-- The names of the components by a text. -/
def entries (text : TypeExpr → String) (components : List (String × Component)) :
    List (String × String) :=
  (objects components).map fun c => (text c.2.type, c.1)

/-- A text is found under the first object that has it. -/
theorem first_of_lookup {text : TypeExpr → String} {key name : String}
    (h : (entries text components).lookup key = some name) :
    ∃ c, c.1 = name ∧ First components (fun t => t.hasMembers = true ∧ text t = key) c := by
  induction components with
  | nil => cases h
  | cons e components ih =>
    by_cases he : e.2.type.hasMembers = true ∧ text e.2.type = key
    · refine ⟨e, ?_, [], components, rfl, he, List.forall_mem_nil _⟩
      simpa [entries, objects, he.1, he.2] using h
    · have hrest : (entries text components).lookup key = some name := by
        unfold entries objects at h ⊢
        rw [List.filter_cons] at h
        split at h
        next hm =>
          have hne : (key == text e.2.type) = false :=
            beq_eq_false_iff_ne.mpr fun heq => he ⟨hm, heq.symm⟩
          simpa only [List.map_cons, List.lookup_cons, hne] using h
        next => exact h
      obtain ⟨c, hname, before, after, rfl, hc, hbefore⟩ := ih hrest
      exact ⟨c, hname, e :: before, after, rfl, hc, List.forall_mem_cons.mpr ⟨he, hbefore⟩⟩

/-- The fingerprint of a component is the text of the first component that has it. -/
theorem first_of_fingerprint {c : String × Component} (hc : c ∈ components)
    (hm : c.2.type.hasMembers = true) :
    ∃ d, (ofComponents components).name? c.2.type.fingerprint = some d.1 ∧
      First components (fun t => t.hasMembers = true ∧ t.fingerprint = c.2.type.fingerprint) d := by
  have hmem : (c.2.type.fingerprint, c.1) ∈ entries fingerprint components :=
    List.mem_map_of_mem (f := fun c : String × Component => (c.2.type.fingerprint, c.1))
      (mem_objects.mpr ⟨hc, hm⟩)
  have hsome : ((entries fingerprint components).lookup c.2.type.fingerprint).isSome = true :=
    Json.lookup_isSome_iff.mpr (List.mem_map_of_mem (f := (·.1)) hmem)
  obtain ⟨name, hname⟩ := Option.isSome_iff_exists.mp hsome
  obtain ⟨d, rfl, hfirst⟩ := first_of_lookup hname
  refine ⟨d, ?_, hfirst⟩
  rw [name?_ofComponents, name?_plain]
  exact congrArg (Option.or · _) hname

theorem name?_fingerprint {c : String × Component} (hc : c ∈ components)
    (hm : c.2.type.hasMembers = true) :
    ∃ d ∈ components, (ofComponents components).name? c.2.type.fingerprint = some d.1 ∧
      d.2.type.fingerprint = c.2.type.fingerprint := by
  obtain ⟨d, hname, hfirst⟩ := first_of_fingerprint hc hm
  exact ⟨d, hfirst.mem, hname, hfirst.prop.2⟩

end Index

/-! ### Components written out -/

/-- A type and the same type with references to objects written out, at any depth. -/
inductive WrittenOut (components : List (String × Component)) : TypeExpr → TypeExpr → Prop where
  | same (t : TypeExpr) : WrittenOut components t t
  | body {name : String} {c : Component} {t : TypeExpr} (hc : components.lookup name = some c)
      (hm : c.type.hasMembers = true) (ht : WrittenOut components c.type t) :
    WrittenOut components (.ref name) t
  | children {t : TypeExpr} {f g : TypeExpr → TypeExpr}
      (h : ∀ c ∈ t.children, WrittenOut components (f c) (g c)) :
    WrittenOut components (t.mapChildren f) (t.mapChildren g)

/-- Every component is known under its own name, with the components inside it replaced. -/
def Settled (components : List (String × Component)) : Prop :=
  ∀ c ∈ components, c.2.type.hasMembers = true →
    (Index.ofComponents components).name?
      ((Index.ofComponents components).abridged c.2.type) = some c.1

theorem WrittenOut.text_eq (hs : Settled components) {t u : TypeExpr}
    (h : WrittenOut components t u) :
    within (Index.ofComponents components).name? t = within (Index.ofComponents components).name? u ∧
      (t.hasMembers = true → u.hasMembers = true ∧
        (Index.ofComponents components).abridged t = (Index.ofComponents components).abridged u) := by
  induction h with
  | same t => exact ⟨rfl, fun ht => ⟨ht, rfl⟩⟩
  | @body name c u hc hm _ ih =>
    obtain ⟨hu, habridged⟩ := ih.2 hm
    refine ⟨?_, fun ht => nomatch ht⟩
    have hname := hs (name, c) (Json.mem_of_lookup hc) hm
    rw [habridged, Index.abridged] at hname
    rw [within, within, TypeExpr.nested, TypeExpr.nested, if_pos hu, hname]
    rfl
  | @children t f g _ ih =>
    let text := within (Index.ofComponents components).name?
    have hlayout : TypeExpr.abridged (Index.ofComponents components).name? (t.mapChildren f) =
        TypeExpr.abridged (Index.ofComponents components).name? (t.mapChildren g) :=
      calc _ = TypeExpr.layout text (t.mapChildren f) := TypeExpr.abridged_eq_layout _ _
        _ = TypeExpr.layout (fun c => text (f c)) t :=
          (TypeExpr.layout_mapChildren (f := f) fun _ _ => rfl).symm
        _ = TypeExpr.layout text (t.mapChildren g) :=
          TypeExpr.layout_mapChildren fun c hc => (ih c hc).1
        _ = _ := (TypeExpr.abridged_eq_layout _ _).symm
    refine ⟨?_, fun ht => ⟨?_, hlayout⟩⟩
    · rw [within, within, TypeExpr.nested, TypeExpr.nested, hlayout, TypeExpr.hasMembers_mapChildren,
        TypeExpr.hasMembers_mapChildren]
    · rw [TypeExpr.hasMembers_mapChildren] at ht ⊢
      exact ht

/-- An object that collapses to the body of a component is found as the first component of that
structure, and if all components are settled, so is every copy of a component in which others
are written out. -/
theorem find?_of_collapse (components : List (String × Component)) (t : TypeExpr)
    (ht : t.hasMembers = true) :
    (∀ c ∈ components, Similar (t.collapse (Index.ofComponents components).find?) c.2.type →
      ∃ d ∈ components, (Index.ofComponents components).find? t = some d.1 ∧
        d.2.type.fingerprint = c.2.type.fingerprint ∧
        (d.2.type.Legible → c.2.type.Legible → Similar d.2.type c.2.type)) ∧
    (Settled components → ∀ c ∈ components, c.2.type.hasMembers = true →
      WrittenOut components c.2.type t → (Index.ofComponents components).find? t = some c.1) := by
  constructor
  · intro c hc hsimilar
    rw [Index.collapse_find?] at hsimilar
    have hm : c.2.type.hasMembers = true :=
      hsimilar.hasMembers.symm.trans ((TypeExpr.hasMembers_resolve _ t).trans ht)
    obtain ⟨d, hd, hname, hkey⟩ := Index.name?_fingerprint hc hm
    refine ⟨d, hd, ?_, hkey, fun hdl hcl => TypeExpr.similar_of_fingerprint_eq hdl hcl hkey⟩
    rw [Index.find?_eq _ ht, fingerprint, hsimilar.abridged_eq, ← fingerprint, hname, Option.some_or]
  · intro hs c hc hm hwritten
    obtain ⟨-, habridged⟩ := (hwritten.text_eq hs).2 hm
    rw [Index.find?, if_pos ht, ← habridged, hs c hc hm]
    rfl

/-- The wrapper of an item is found with the item written out. -/
theorem find?_of_collapse_wrapping :
    let t : TypeExpr := .single "d" (.single "a" .string)
    Settled wrapping ∧ WrittenOut wrapping (.single "d" (.ref "Item")) t ∧
      (Index.ofComponents wrapping).find? t = some "Wrapper" := by
  intro t
  have hsettled : Settled wrapping := by
    unfold Settled
    rw [ofComponents_wrapping]
    simp [wrapping, Index.name?, Index.abridged, TypeExpr.abridged_single, within, TypeExpr.nested,
      TypeExpr.string, TypeExpr.abridged, Primitive.name, List.lookup_cons]
  have hwritten : WrittenOut wrapping (.single "d" (.ref "Item")) t := by
    refine .children (t := .single "d" .unknown) (f := fun _ => .ref "Item")
      (g := fun _ => .single "a" .string) fun c _ => ?_
    exact .body rfl rfl (.same _)
  exact ⟨hsettled, hwritten, (find?_of_collapse wrapping t rfl).2 hsettled
    ("Wrapper", { type := .single "d" (.ref "Item") }) (by simp [wrapping]) rfl hwritten⟩

/-! ### Components that are not settled -/

/-- Components that are written out inside each other, and a wrapper that refers to the last. -/
def chain : List (String × Component) :=
  [("A", { type := .single "a" .string }),
    ("B", { type := .single "b" (.single "a" .string) }),
    ("C", { type := .single "c" (.single "b" (.single "a" .string)) }),
    ("W", { type := .single "d" (.ref "C") })]

theorem ofComponents_chain :
    Index.ofComponents chain =
      ⟨[("\x7ba!:string\x7d", "A"), ("\x7bb!:\x7ba!:string\x7d\x7d", "B"),
        ("\x7bc!:\x7bb!:\x7ba!:string\x7d\x7d\x7d", "C"), ("\x7bd!:$C\x7d", "W"),
        ("\x7bb!:$A\x7d", "B"), ("\x7bc!:\x7bb!:$A\x7d\x7d", "C")]⟩ := by
  have hobjects : Index.objects chain = chain := rfl
  have hplain : Index.plain chain =
      ⟨[("\x7ba!:string\x7d", "A"), ("\x7bb!:\x7ba!:string\x7d\x7d", "B"),
        ("\x7bc!:\x7bb!:\x7ba!:string\x7d\x7d\x7d", "C"), ("\x7bd!:$C\x7d", "W")]⟩ := by
    rw [Index.plain, hobjects]
    simp [chain, Index.addAll, Index.add, Index.name?, fingerprint, TypeExpr.abridged_single, within,
      TypeExpr.nested, TypeExpr.string, TypeExpr.abridged, Primitive.name, List.lookup_cons]
  have hindex : Index.ofComponents chain = (Index.plain chain).addAll
      (chain.map fun c => ((Index.plain chain).abridged c.2.type, c.1)) := rfl
  rw [hindex, hplain]
  simp [chain, Index.addAll, Index.add, Index.name?, Index.abridged, TypeExpr.abridged_single, within,
    TypeExpr.nested, TypeExpr.string, TypeExpr.abridged, Primitive.name, List.lookup_cons]

/-- The wrapper is lost where the component inside it is written out: the text of the copy names
`B`, and the index has `C` only with `B` written out. -/
theorem find?_chain :
    let t : TypeExpr := .single "d" (.single "c" (.single "b" (.single "a" .string)))
    WrittenOut chain (.single "d" (.ref "C")) t ∧ (Index.ofComponents chain).find? t = none := by
  intro t
  constructor
  · refine .children (t := .single "d" .unknown) (f := fun _ => .ref "C")
      (g := fun _ => .single "c" (.single "b" (.single "a" .string))) fun c _ => ?_
    exact .body rfl rfl (.same _)
  · rw [ofComponents_chain]
    simp [t, Index.find?, Index.name?, Index.abridged, fingerprint, TypeExpr.abridged_single, within,
      TypeExpr.nested, TypeExpr.string, TypeExpr.abridged, Primitive.name, List.lookup_cons]

end TypedApi.Api
