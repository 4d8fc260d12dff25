import TypedApi.Proofs.SchemaTable.Layers
import TypedApi.Proofs.SchemaTable.Placement
import TypedApi.Proofs.SourceType.Aliases

/-! Schemas of raw bytes, and the types that they come from.

A schema holds bytes if it is a text in binary format or a list of such schemas, itself or as one of
its alternatives, where references lead into the table. Such a schema is made from a type that is
seen to be binary, or from one whose bytes are veiled: a type that is hidden behind another one or
behind its name, or to which a rule gives the format (`holdsBytes_shown`). -/
namespace TypedApi.SchemaTable

open OpenApi
open Registry (Leads)

/-! ### Bytes in schemas -/

section Bytes

variable (named : List (String × Schema))

/-- The first schema stands for the second, as a reference or by one of its alternatives. -/
inductive Reaches : Schema → Schema → Prop
  | here {s : Schema} : Reaches s s
  | ref {s u v : Schema} {key : String} (href : s.ref = some (componentRef key))
      (hentry : named.lookup key = some u) (h : Reaches u v) : Reaches s v
  | alternative {s u v : Schema} (hmem : u ∈ s.anyOf.getD []) (h : Reaches u v) : Reaches s v

/-- The schema stands for bytes or for a list of them. -/
inductive HoldsBytes : Schema → Prop
  | bytes {s u : Schema} (h : Reaches named s u) (htype : u.type = some (.single "string"))
      (hformat : u.format = some "binary") : HoldsBytes s
  | list {s u i : Schema} (h : Reaches named s u) (htype : u.type = some (.single "array"))
      (hitems : u.items = some i) (hi : HoldsBytes i) : HoldsBytes s

variable {named} {s u : Schema}

theorem Reaches.eq_of_plain (h : Reaches named s u) (href : s.ref = none) (hanyOf : s.anyOf = none) :
    u = s := by
  cases h with
  | here => rfl
  | ref href' _ _ =>
    rw [href] at href'
    cases href'
  | alternative hmem _ =>
    rw [hanyOf] at hmem
    cases hmem

theorem not_holdsBytes (hstring : s.format ≠ some "binary") (harray : s.type ≠ some (.single "array"))
    (href : s.ref = none) (hanyOf : s.anyOf = none) : ¬ HoldsBytes named s := by
  intro h
  cases h with
  | bytes h _ hformat =>
    cases h.eq_of_plain href hanyOf
    exact hstring hformat
  | list h htype _ _ =>
    cases h.eq_of_plain href hanyOf
    exact harray htype

end Bytes

/-! ### What rules and modifiers leave -/

/-- `u` is `s` with other keywords that do not tell where bytes are, but for the format. -/
structure Shaped (s u : Schema) : Prop where
  ref : u.ref = s.ref
  anyOf : u.anyOf = s.anyOf
  items : u.items = s.items
  properties : u.properties = s.properties
  string : u.type = some (.single "string") ↔ s.type = some (.single "string")
  array : u.type = some (.single "array") ↔ s.type = some (.single "array")

/-- A rule gives the binary format. -/
def BinaryRule (rules : Option Constraints) : Prop := ∃ c ∈ rules, c.format = some "binary"

section Shaped

variable {s u : Schema} {named : List (String × Schema)}

theorem shaped_narrowed (s : Schema) (n : Option NumericType) : Shaped s (narrowed s n) := by
  cases n with
  | none => exact ⟨rfl, rfl, rfl, rfl, .rfl, .rfl⟩
  | some n =>
    show Shaped s (applyNumericType s n)
    unfold applyNumericType
    split
    · next hnumeric =>
      refine ⟨rfl, rfl, rfl, rfl, ?_, ?_⟩ <;>
        rcases hnumeric with htype | htype <;> cases n <;> simp [htype, NumericType.isInteger]
    · exact ⟨rfl, rfl, rfl, rfl, .rfl, .rfl⟩

theorem format_narrowed {n : Option NumericType} (h : (narrowed s n).format = some "binary") :
    s.format = some "binary" := by
  cases n with
  | none => exact h
  | some n =>
    have hother : n.format ≠ "binary" := by cases n <;> decide
    have h : (applyNumericType s n).format = some "binary" := h
    unfold applyNumericType at h
    split at h
    · exact absurd (Option.some.inj h) hother
    · exact h

theorem shaped_applyRules (s : Schema) (c : Constraints) : Shaped s (applyRules s c) := by
  rw [applyRules_eq]
  have h := shaped_narrowed s c.numericType
  exact ⟨h.ref, h.anyOf, h.items, h.properties, h.string, h.array⟩

theorem format_applyRules {c : Constraints} (h : (applyRules s c).format = some "binary") :
    c.format = some "binary" ∨ s.format = some "binary" := by
  rw [applyRules_eq] at h
  cases hf : c.format with
  | none =>
    refine .inr (format_narrowed (n := c.numericType) ?_)
    simpa [hf] using h
  | some f => exact .inl (by simpa [hf] using h)

theorem shaped_finish (type : SourceType) (s : Schema) : Shaped s (finish type s) := by
  unfold finish
  cases type.constraints with
  | none => exact ⟨rfl, rfl, rfl, rfl, .rfl, .rfl⟩
  | some c =>
    have h := shaped_applyRules { s with description := type.description <|> s.description } c
    exact ⟨h.ref, h.anyOf, h.items, h.properties, h.string, h.array⟩

theorem format_finish {type : SourceType} (h : (finish type s).format = some "binary") :
    BinaryRule type.constraints ∨ s.format = some "binary" := by
  unfold finish at h
  cases hrules : type.constraints with
  | none =>
    rw [hrules] at h
    exact .inr h
  | some c =>
    rw [hrules] at h
    exact (format_applyRules h).imp_left fun hc => ⟨c, rfl, hc⟩

theorem shaped_decorate (p : Property) (s : Schema) : Shaped s (decorate p s) := by
  unfold decorate
  cases p.constraints with
  | none => exact ⟨rfl, rfl, rfl, rfl, .rfl, .rfl⟩
  | some c =>
    have h := shaped_applyRules s c
    exact ⟨h.ref, h.anyOf, h.items, h.properties, h.string, h.array⟩

theorem format_decorate {p : Property} (h : (decorate p s).format = some "binary") :
    BinaryRule p.constraints ∨ s.format = some "binary" := by
  unfold decorate at h
  cases hrules : p.constraints with
  | none =>
    rw [hrules] at h
    exact .inr h
  | some c =>
    rw [hrules] at h
    exact (format_applyRules h).imp_left fun hc => ⟨c, rfl, hc⟩

/-- Modifiers do not make bytes of anything, but for a rule. -/
theorem HoldsBytes.of_decorate {p : Property} (h : HoldsBytes named (decorate p s)) :
    BinaryRule p.constraints ∨ HoldsBytes named s := by
  have hshaped := shaped_decorate p s
  have hreaches : ∀ {u}, Reaches named (decorate p s) u → u = decorate p s ∨ Reaches named s u := by
    intro u hu
    cases hu with
    | here => exact .inl rfl
    | ref href hentry hu => exact .inr (.ref (hshaped.ref ▸ href) hentry hu)
    | alternative hmem hu => exact .inr (.alternative (hshaped.anyOf ▸ hmem) hu)
  cases h with
  | bytes hu htype hformat =>
    rcases hreaches hu with rfl | hu
    · exact (format_decorate hformat).imp_right (.bytes .here (hshaped.string.mp htype))
    · exact .inr (.bytes hu htype hformat)
  | list hu htype hitems hi =>
    rcases hreaches hu with rfl | hu
    · exact .inr (.list .here (hshaped.array.mp htype) (hshaped.items ▸ hitems) hi)
    · exact .inr (.list hu htype hitems hi)

end Shaped

/-! ### The types that schemas are made from -/

/-- The schema is itself neither a text nor a list nor an object with properties. -/
structure Bare (s : Schema) : Prop where
  string : s.type ≠ some (.single "string")
  array : s.type ≠ some (.single "array")
  properties : s.properties = none

/-- Nothing is in the schema but a reference to what is stored for the name, if it has an entry. -/
structure Points (t : SchemaTable) (name : String) (s : Schema) : Prop where
  bare : Bare s
  anyOf : s.anyOf = none
  ref : ∀ r, s.ref = some r → ∃ key, r = componentRef key ∧ (name, key) ∈ t.keys

/-- The schema is that of a type that is no reference, as it is made at its site or for its entry. -/
def Made (registry : Registry) (t : SchemaTable) (type : SourceType) (s : Schema) : Prop :=
  (∀ target, type.form ≠ .ref target) ∧
    ∃ t₁ ss t₂, Sites registry (parts type.form) t₁ ss t₂ ∧ Extends t₂ t ∧
      s = finish type (assemble type.form ss)

/-- The schema stands for the type in the table, with the null that may be added. -/
inductive Shows (registry : Registry) (t : SchemaTable) (type : SourceType) : Schema → Prop
  | points {name : String} {s : Schema} (null : Bool) (hname : referredName? type = some name)
      (h : Points t name s) : Shows registry t type (withNull null s)
  | made {s : Schema} (null : Bool) (h : Made registry t type s) :
      Shows registry t type (withNull null s)

section Shows

variable {registry : Registry} {types : List SourceType} {type : SourceType} {name : String}
  {found : Option (SourceType × Bool)} {t₁ t₂ t : SchemaTable} {s : Schema}

theorem bare_of_untyped (htype : s.type = none) (hproperties : s.properties = none) : Bare s :=
  ⟨by simp [htype], by simp [htype], hproperties⟩

theorem Bare.finish (h : Bare s) (type : SourceType) : Bare (SchemaTable.finish type s) :=
  have hshaped := shaped_finish type s
  ⟨mt hshaped.string.mp h.string, mt hshaped.array.mp h.array, hshaped.properties.trans h.properties⟩

theorem Entry.points (h : Entry registry name found t₁ s t₂) (hg : Extends t₂ t) : Points t name s := by
  have hreference : ∀ {key}, (name, key) ∈ t.keys → Points t name (.reference key) := fun hkey =>
    ⟨bare_of_untyped rfl rfl, rfl, fun r hr => ⟨_, (Option.some.inj hr).symm, hkey⟩⟩
  cases h with
  | known hkey _ => exact hreference (hg.keys.subset (mem_of_keyFor hkey))
  | missing _ _ => exact ⟨bare_of_untyped rfl rfl, rfl, fun r hr => by cases hr⟩
  | fill key hkey _ hbody =>
    have hopened := (Extends.store _ key {}).trans (.of_writes hbody.writes)
    have hfilled := (hopened.trans (.store _ key _)).trans hg
    exact hreference (hfilled.keys.subset (mem_of_keyFor hkey))

theorem Points.finish (h : Points t name s) (type : SourceType) :
    Points t name (SchemaTable.finish type s) :=
  have hshaped := shaped_finish type s
  ⟨h.bare.finish type, hshaped.anyOf.trans h.anyOf, fun r hr => h.ref r (hshaped.ref ▸ hr)⟩

theorem Body.shows (h : Body registry type t₁ s t₂) (hg : Extends t₂ t) (null : Bool) :
    Shows registry t type (withNull null s) := by
  cases h with
  | parts hform hparts => exact .made null ⟨hform, _, _, _, hparts, hg, rfl⟩
  | ref hform hentry =>
    exact .points null (referredName?_ref hform) ((hentry.points hg).finish type)

theorem Site.shows (h : Site registry type t₁ s t₂) (hg : Extends t₂ t) : Shows registry t type s := by
  cases h with
  | ref hform hentry => exact .points _ (referredName?_ref hform) (hentry.points hg)
  | named hform hname hentry =>
    exact .points _ (referredName?_eq_some_iff.mpr (.inr ⟨hform, hname⟩)) (hentry.points hg)
  | inline _ _ hbody => exact hbody.shows hg _

/-- Each type of a list is shown by the schema that it is converted to. -/
theorem Sites.shows {parts : List SourceType} {ss : List Schema} (h : Sites registry parts t₁ ss t₂)
    (hg : Extends t₂ t) : List.Forall₂ (Shows registry t) parts ss := by
  induction parts generalizing t₁ ss with
  | nil =>
    cases h
    exact .nil
  | cons part parts ih =>
    cases h with
    | cons hsite hrest =>
      exact .cons (hsite.shows ((Extends.of_writes hrest.writes).trans hg)) (ih hrest)

/-- What a table has under the key of a name shows a type that is stored for the name. -/
theorem Consistent.shows {ss : List Schema} (hc : Consistent registry types ss t) {key : String}
    (hkey : (name, key) ∈ t.keys) (hentry : t.named.lookup key = some s) :
    ∃ u null, Registers registry types name u null ∧ Shows registry t u s := by
  obtain ⟨other, u, null, body, before, after, hother, hregisters, -, hrun, hg, rfl, -⟩ :=
    hc.completed _ (Json.mem_of_lookup hentry)
  cases hc.injective hkey hother
  exact ⟨u, null, hregisters, (runs_bodyWithin registry _ _ _ _ _ hrun).shows hg null⟩

end Shows

/-! ### Types behind others -/

/-- The schema of the form may be that of one of its parts. -/
def Wraps (form : Form) : Prop :=
  (∃ members d, form = .union members d) ∨ ∃ args, form = .native "Promise" args

/-- The type that is to be stored for the name of a type: the registered one for a reference. -/
def intended? (registry : Registry) (type : SourceType) : Option SourceType :=
  match type.form with
  | .ref target => registry.get? target
  | _ => some type

/-- The schema of the type may be that of another one: of a part, or of a type that is stored under
the same name. -/
inductive Obscured (registry : Registry) (types : List SourceType) : SourceType → Prop
  | wrapped {type : SourceType} (hform : Wraps type.form) : Obscured registry types type
  | mistaken {type u : SourceType} {name : String} {null : Bool}
      (hname : referredName? type = some name) (hstored : Registers registry types name u null)
      (hne : intended? registry type ≠ some u) : Obscured registry types type
  | target {type u : SourceType} {target : String} (hform : type.form = .ref target)
      (hget : registry.get? target = some u) (h : Obscured registry types u) :
      Obscured registry types type

section Obscured

variable {registry : Registry} {types : List SourceType} {type : SourceType} {t : SchemaTable}
  {s u : Schema} {ss : List Schema}

theorem plain_assemble {form : Form} (h : ¬ Wraps form) (ss : List Schema) :
    (assemble form ss).ref = none ∧ (assemble form ss).anyOf = none := by
  cases form with
  | union ms d => exact absurd (.inl ⟨ms, d, rfl⟩) h
  | atomic a => cases a <;> exact ⟨rfl, rfl⟩
  | native name args =>
    rw [assemble]
    unfold nativeOf
    split
    case h_6 => exact absurd (.inr ⟨args, rfl⟩) h
    case h_8 => split <;> (try split) <;> exact ⟨rfl, rfl⟩
    all_goals exact ⟨rfl, rfl⟩
  | _ => exact ⟨rfl, rfl⟩

theorem plain_made (h : Made registry t type s) (hwraps : ¬ Wraps type.form) :
    s.ref = none ∧ s.anyOf = none := by
  obtain ⟨-, -, parts, -, -, -, rfl⟩ := h
  have hplain := plain_assemble hwraps parts
  have hshaped := shaped_finish type (assemble type.form parts)
  exact ⟨hshaped.ref.trans hplain.1, hshaped.anyOf.trans hplain.2⟩

/-- The type that is intended for a name is the type itself, or that to which it refers. -/
theorem intended_cases {w : SourceType} (h : intended? registry type = some w) :
    w = type ∨ ∃ target, type.form = .ref target ∧ registry.get? target = some w := by
  unfold intended? at h
  split at h
  · next target hform => exact .inr ⟨target, hform, h⟩
  · exact .inl (Option.some.inj h).symm

theorem Obscured.of_leads {names : List String} {o : SourceType} (h : Leads registry type names o)
    (ho : Obscured registry types o) : Obscured registry types type := by
  induction h with
  | here _ => exact ho
  | ref hform hget _ ih => exact .target hform hget (ih ho)

/-- A reference that stands for a type leads to a schema that stands for it or for its target. -/
theorem Shows.referred (hc : Consistent registry types ss t) (h : Shows registry t type s)
    {key : String} (href : s.ref = some (componentRef key)) (hentry : t.named.lookup key = some u) :
    Obscured registry types type ∨ Shows registry t type u ∨
      ∃ target w, type.form = .ref target ∧ registry.get? target = some w ∧ Shows registry t w u := by
  cases h with
  | points null hname hpoints =>
    cases null with
    | true => cases href
    | false =>
      obtain ⟨_, hkey, hmem⟩ := hpoints.ref _ href
      cases (String.append_right_inj componentRoot).mp hkey
      obtain ⟨w, null', hstored, hshows⟩ := hc.shows hmem hentry
      by_cases hintended : intended? registry type = some w
      · rcases intended_cases hintended with rfl | ⟨target, hform, hget⟩
        · exact .inr (.inl hshows)
        · exact .inr (.inr ⟨target, w, hform, hget, hshows⟩)
      · exact .inl (.mistaken hname hstored hintended)
  | @made c null hmade =>
    cases null with
    | true => cases href
    | false =>
      by_cases hwraps : Wraps type.form
      · exact .inl (.wrapped hwraps)
      · have href : c.ref = some (componentRef key) := href
        rw [(plain_made hmade hwraps).1] at href
        cases href

/-- An alternative of a schema that stands for a type stands for it too, or is null. -/
theorem Shows.alternative (types : List SourceType) (h : Shows registry t type s)
    (hmem : u ∈ s.anyOf.getD []) :
    Obscured registry types type ∨ Shows registry t type u ∨ u = .ofType "null" := by
  have hnull : ∀ {c : Schema}, Shows registry t type (withNull false c) → u ∈ [c, .ofType "null"] →
      Shows registry t type u ∨ u = .ofType "null" := by
    intro c hc hu
    rcases List.mem_cons.mp hu with rfl | hu
    · exact .inl hc
    · exact .inr (List.mem_singleton.mp hu)
  cases h with
  | @points name c null hname hpoints =>
    cases null with
    | true => exact .inr (hnull (.points false hname hpoints) hmem)
    | false =>
      have hmem : u ∈ c.anyOf.getD [] := hmem
      rw [hpoints.anyOf] at hmem
      cases hmem
  | @made c null hmade =>
    cases null with
    | true => exact .inr (hnull (.made false hmade) hmem)
    | false =>
      by_cases hwraps : Wraps type.form
      · exact .inl (.wrapped hwraps)
      · have hmem : u ∈ c.anyOf.getD [] := hmem
        rw [(plain_made hmade hwraps).2] at hmem
        cases hmem

theorem bare_orNull (s : Schema) : Bare s.orNull := bare_of_untyped rfl rfl

theorem bare_null : Bare (.ofType "null") := ⟨by decide, by decide, rfl⟩

/-- A schema for which the site or the entry of a type stands, and which is more than a reference or
a choice, is that of the type to which its references lead, unless another type is in the way. -/
theorem reaches_shown (hc : Consistent registry types ss t) (h : Reaches t.named s u)
    (hs : Shows registry t type s) :
    Bare u ∨ Obscured registry types type ∨
      ∃ names o, Leads registry type names o ∧ Made registry t o u := by
  induction h generalizing type with
  | here =>
    cases hs with
    | points null hname hpoints =>
      cases null with
      | true => exact .inl (bare_orNull _)
      | false => exact .inl hpoints.bare
    | made null hmade =>
      cases null with
      | true => exact .inl (bare_orNull _)
      | false => exact .inr (.inr ⟨[], type, .here hmade.1, hmade⟩)
  | ref href hentry _ ih =>
    rcases hs.referred hc href hentry with hobscured | hshows | ⟨target, w, hform, hget, hshows⟩
    · exact .inr (.inl hobscured)
    · exact ih hshows
    · rcases ih hshows with hbare | hobscured | ⟨names, o, hleads, hmade⟩
      · exact .inl hbare
      · exact .inr (.inl (.target hform hget hobscured))
      · exact .inr (.inr ⟨target :: names, o, .ref hform hget hleads, hmade⟩)
  | alternative hmem hu ih =>
    rcases hs.alternative types hmem with hobscured | hshows | rfl
    · exact .inr (.inl hobscured)
    · exact ih hshows
    · cases hu.eq_of_plain rfl rfl
      exact .inl bare_null

end Obscured

/-! ### Veiled bytes -/

/-- If the type is one of bytes, these are not seen in it: they are behind another type or a name, in
a tuple, a set or shared memory, or all that makes them bytes is a rule. -/
inductive Veiled (registry : Registry) (types : List SourceType) : SourceType → Prop
  | obscured {type : SourceType} (h : Obscured registry types type) : Veiled registry types type
  | reference {type : SourceType} {target : String} (hform : type.form = .ref target) :
      Veiled registry types type
  | tuple {type : SourceType} {elements : List TupleElement} (hform : type.form = .tuple elements) :
      Veiled registry types type
  | native {type : SourceType} {name : String} {args : List SourceType}
      (hform : type.form = .native name args) (hname : name ∈ ["Set", "SharedArrayBuffer"]) :
      Veiled registry types type
  | rule {type : SourceType} (h : BinaryRule type.constraints) : Veiled registry types type
  | element {type element : SourceType} (hform : type.form = .array element)
      (h : Veiled registry types element) : Veiled registry types type

section Veiled

variable {registry : Registry} {types : List SourceType} {type : SourceType} {t : SchemaTable}
  {s u : Schema} {ss : List Schema}

/-- A native that is written as bytes travels as such, or is shared memory. -/
theorem binary_of_byteNatives {name : String} (h : byteNatives.contains name = true) :
    SourceType.binaryNatives.contains name = true ∨ name = "SharedArrayBuffer" := by
  simp only [byteNatives, SourceType.binaryNatives, List.contains_iff_mem, List.mem_cons,
    List.not_mem_nil, or_false] at h ⊢
  tauto

theorem format_assemble {form : Form} {ss : List Schema}
    (h : (assemble form ss).format = some "binary") :
    Wraps form ∨ ∃ name args, form = .native name args ∧ byteNatives.contains name = true := by
  cases form with
  | union ms d => exact .inl (.inl ⟨ms, d, rfl⟩)
  | atomic a =>
    have hother : (atomicSchema a).format ≠ some "binary" := by cases a <;> decide
    exact absurd h hother
  | native name args =>
    rw [assemble] at h
    unfold nativeOf at h
    split at h
    case h_6 => exact .inl (.inr ⟨args, rfl⟩)
    case h_8 =>
      split at h
      · cases h
      · split at h
        · exact .inr ⟨name, args, rfl, ‹_›⟩
        · cases h
    all_goals first | cases h | exact absurd h (by decide)
  | _ => cases h

/-- What the items of a list are made of. -/
theorem items_assemble {form : Form} {ss : List Schema} {i : Schema}
    (hitems : (assemble form ss).items = some i) :
    Wraps form ∨ (∃ elements, form = .tuple elements) ∨ (∃ args, form = .native "Set" args) ∨
      (∃ element, form = .array element ∧ i = ss.headD {}) ∨ i = .ofType "number" := by
  cases form with
  | union ms d => exact .inl (.inl ⟨ms, d, rfl⟩)
  | tuple es => exact .inr (.inl ⟨es, rfl⟩)
  | array e => exact .inr (.inr (.inr (.inl ⟨e, rfl, (Option.some.inj hitems).symm⟩)))
  | atomic a => cases a <;> cases hitems
  | native name args =>
    rw [assemble] at hitems
    unfold nativeOf at hitems
    split at hitems
    case h_5 => exact .inr (.inr (.inl ⟨args, rfl⟩))
    case h_6 => exact .inl (.inr ⟨args, rfl⟩)
    case h_8 =>
      split at hitems
      · exact .inr (.inr (.inr (.inr (Option.some.inj hitems).symm)))
      · split at hitems <;> cases hitems
    all_goals cases hitems
  | _ => cases hitems

/-- Bytes that are made of a type are seen in it or veiled. -/
theorem bytes_made (hmade : Made registry t type u) (hformat : u.format = some "binary") :
    type.isBinary = true ∨ Veiled registry types type := by
  obtain ⟨-, -, parts, -, -, -, rfl⟩ := hmade
  rcases format_finish hformat with hrule | hformat
  · exact .inr (.rule hrule)
  · rcases format_assemble hformat with hwraps | ⟨name, args, hform, hname⟩
    · exact .inr (.obscured (.wrapped hwraps))
    · rcases binary_of_byteNatives hname with hseen | rfl
      · refine .inl ?_
        cases type
        cases hform
        rwa [SourceType.isBinary, Form.isBinary]
      · exact .inr (.native hform (by decide))

/-- Where the items of a list hold bytes, they are those of an element, or veiled. -/
theorem list_made (types : List SourceType) {i : Schema} (hmade : Made registry t type u)
    (hitems : u.items = some i) (hi : HoldsBytes t.named i) :
    Veiled registry types type ∨
      ∃ element, type.form = .array element ∧ Shows registry t element i := by
  obtain ⟨-, t₁, parts, t₂, hsites, hg, rfl⟩ := hmade
  have hshaped := shaped_finish type (assemble type.form parts)
  rcases items_assemble (hshaped.items.symm.trans hitems) with
    hwraps | ⟨elements, hform⟩ | ⟨args, hform⟩ | ⟨element, hform, rfl⟩ | rfl
  · exact .inl (.obscured (.wrapped hwraps))
  · exact .inl (.tuple hform)
  · exact .inl (.native hform (by decide))
  · rw [hform] at hsites
    cases hsites.shows hg with
    | cons hshows _ => exact .inr ⟨element, hform, hshows⟩
  · exact absurd hi (not_holdsBytes (by decide) (by decide) rfl rfl)

/-- A type whose schema holds bytes is seen to be binary, or its bytes are veiled. -/
theorem holdsBytes_shown (hc : Consistent registry types ss t) (h : HoldsBytes t.named s)
    (hs : Shows registry t type s) : type.isBinary = true ∨ Veiled registry types type := by
  have hmade : ∀ {type : SourceType} {s u : Schema}, Shows registry t type s →
      Reaches t.named s u → (u.type = some (.single "string") ∨ u.type = some (.single "array")) →
      Veiled registry types type ∨ Made registry t type u := by
    intro type s u hs hu htype
    rcases reaches_shown hc hu hs with hbare | hobscured | ⟨names, o, hleads, hmade⟩
    · exact absurd htype (not_or.mpr ⟨hbare.string, hbare.array⟩)
    · exact .inl (.obscured hobscured)
    · cases hleads with
      | here _ => exact .inr hmade
      | ref hform _ _ => exact .inl (.reference hform)
  induction h generalizing type with
  | bytes hu htype hformat =>
    rcases hmade hs hu (.inl htype) with hveiled | hmade
    · exact .inr hveiled
    · exact bytes_made hmade hformat
  | list hu htype hitems hi ih =>
    rcases hmade hs hu (.inr htype) with hveiled | hmade
    · exact .inr hveiled
    · rcases list_made types hmade hitems hi with hveiled | ⟨element, hform, hshows⟩
      · exact .inr hveiled
      · refine (ih hshows).imp (fun hseen => ?_) (.element hform)
        cases type
        cases hform
        rwa [SourceType.isBinary, Form.isBinary]

end Veiled

/-! ### Properties -/

section Properties

variable {registry : Registry} {types : List SourceType} {type : SourceType} {t : SchemaTable}
  {s u v : Schema} {ss : List Schema} {name : String}

theorem properties_assemble {form : Form} {ss : List Schema} {properties : List (String × Schema)}
    (h : (assemble form ss).properties = some properties) :
    Wraps form ∨ properties = [("message", .ofType "string"), ("name", .ofType "string")] ∨
      ∃ ps index strictness, form = .object ps index strictness ∧
        properties = Json.table (List.zipWith (fun p s => (p.name, decorate p s)) ps ss) := by
  cases form with
  | union ms d => exact .inl (.inl ⟨ms, d, rfl⟩)
  | object ps index strictness =>
    refine .inr (.inr ⟨ps, index, strictness, rfl, ?_⟩)
    simp only [assemble, objectOf, objectSchema] at h
    split at h
    · cases h
    · exact (Option.some.inj h).symm
  | atomic a => cases a <;> cases h
  | native name args =>
    rw [assemble] at h
    unfold nativeOf at h
    split at h
    case h_6 => exact .inl (.inr ⟨args, rfl⟩)
    case h_7 => exact .inr (.inl (Option.some.inj h).symm)
    case h_8 => split at h <;> (try split at h) <;> cases h
    all_goals cases h
  | _ => cases h

/-- What is put together from related lists comes from related members. -/
theorem exists_of_mem_zipWith {α β γ δ : Type} {R : γ → β → Prop} {f : α → β → δ} {g : α → γ}
    {xs : List α} {more : List γ} {ys : List β} (h : List.Forall₂ R (xs.map g ++ more) ys) {z : δ}
    (hz : z ∈ List.zipWith f xs ys) : ∃ x ∈ xs, ∃ y, R (g x) y ∧ z = f x y := by
  induction xs generalizing ys with
  | nil => cases hz
  | cons x xs ih =>
    cases h with
    | @cons _ y _ ys hxy h =>
      rcases List.mem_cons.mp hz with rfl | hz
      · exact ⟨x, List.mem_cons_self, y, hxy, rfl⟩
      · obtain ⟨x', hx', y', hr, rfl⟩ := ih h hz
        exact ⟨x', List.mem_cons_of_mem _ hx', y', hr, rfl⟩

/-- Where a property of an object holds bytes, they are seen in the type of the property, or veiled,
or due to one of its rules. -/
theorem property_made (hc : Consistent registry types ss t) (hmade : Made registry t type u)
    (hproperty : propertySchema? u name = some v) (hv : HoldsBytes t.named v) :
    Obscured registry types type ∨ ∃ ps index strictness, type.form = .object ps index strictness ∧
      ∃ p ∈ ps, p.name = name ∧
        (p.type.isBinary = true ∨ Veiled registry types p.type ∨ BinaryRule p.constraints) := by
  obtain ⟨-, t₁, schemas, t₂, hsites, hg, rfl⟩ := hmade
  have hentries := (shaped_finish type (assemble type.form schemas)).properties
  obtain ⟨properties, hproperties, hmem⟩ : ∃ properties,
      (assemble type.form schemas).properties = some properties ∧ (name, v) ∈ properties := by
    rw [propertySchema?, hentries] at hproperty
    cases hproperties : (assemble type.form schemas).properties with
    | none =>
      rw [hproperties] at hproperty
      cases hproperty
    | some properties =>
      rw [hproperties] at hproperty
      exact ⟨properties, rfl, Json.mem_of_lookup hproperty⟩
  rcases properties_assemble hproperties with hwraps | rfl | ⟨ps, index, strictness, hform, rfl⟩
  · exact .inl (.wrapped hwraps)
  · have htext : v = .ofType "string" := by
      rcases List.mem_cons.mp hmem with heq | hmem
      · exact congrArg Prod.snd heq
      · exact congrArg Prod.snd (List.mem_singleton.mp hmem)
    rw [htext] at hv
    exact absurd hv (not_holdsBytes (by decide) (by decide) rfl rfl)
  · rw [hform] at hsites
    obtain ⟨p, hp, s, hshows, heq⟩ := exists_of_mem_zipWith (hsites.shows hg)
      (Json.mem_of_mem_table hmem)
    cases heq
    refine .inr ⟨ps, index, strictness, hform, p, hp, rfl, ?_⟩
    rcases hv.of_decorate with hrule | hs
    · exact .inr (.inr hrule)
    · exact (holdsBytes_shown hc hs hshows).imp_right .inl

end Properties

end TypedApi.SchemaTable
