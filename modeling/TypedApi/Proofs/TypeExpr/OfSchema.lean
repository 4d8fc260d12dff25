import Mathlib.Data.List.Forall2
import TypedApi.TypeExpr.OfSchema
import TypedApi.Proofs.Json.Table
import TypedApi.Proofs.OpenApi.Encoding

/-! What a written schema is read as.

`read s` is the type expression of the JSON text of `s`. There is one lemma for each kind of
schema that a conversion makes. Only some keywords are looked at (`ofSchema_congr`), so the marks
that a property puts on the schema of its type do not change what it is read as. -/
namespace TypedApi.TypeExpr

open OpenApi Json.Fields

def read (s : Schema) : TypeExpr := ofSchema s.encode

theorem schemasOf_encode (ss : List Schema) : schemasOf (ss.map Schema.encode) = ss.map read := by
  induction ss with
  | nil => rfl
  | cons s ss ih => rw [List.map_cons, schemasOf, ih]; rfl

theorem membersOf_encode (ps : List (String × Schema)) :
    membersOf (ps.map fun e => (e.1, e.2.encode)) = ps.map fun e =>
      { name := e.1
        type := read e.2
        description := (e.2.encode.get? "description").bind Json.asString?
        readOnly := (e.2.encode.get? "readOnly").bind Json.asBool? == some true } := by
  induction ps with
  | nil => rfl
  | cons p ps ih =>
    rw [List.map_cons, membersOf, ih]
    rfl

/-! ### Keywords -/

/-- What is read under a keyword. -/
def partOf (key : String) (v : Json) : Part :=
  if key = "properties" then partOfProperties v
  else if schemasKeywords.contains key then partOfList v
  else if schemaKeywords.contains key then .schema (ofSchema v)
  else .none

theorem lookup_partsOf (entries : List (String × Json)) (key : String) :
    (partsOf entries).lookup key = (entries.lookup key).map (partOf key) := by
  induction entries with
  | nil => rfl
  | cons e entries ih =>
    obtain ⟨k, v⟩ := e
    rw [partsOf]
    by_cases hk : key = k
    · subst hk
      simp [partOf]
    · have hne : (key == k) = false := beq_eq_false_iff_ne.mpr hk
      rw [List.lookup_cons, List.lookup_cons, hne, ih]

/-- The keywords that are looked at. -/
def readKeywords : List String :=
  ["$ref", "nullable", "const", "enum", "oneOf", "anyOf", "allOf", "discriminator", "type", "format",
    "properties", "required", "additionalProperties", "items", "prefixItems"]

section
variable {xs ys : List (String × Json)} {key : String}

theorem schema?_congr (h : xs.lookup key = ys.lookup key) :
    (partsOf xs).schema? key = (partsOf ys).schema? key := by
  rw [Parts.schema?, Parts.schema?, lookup_partsOf, lookup_partsOf, h]

theorem schemas?_congr (h : xs.lookup key = ys.lookup key) :
    (partsOf xs).schemas? key = (partsOf ys).schemas? key := by
  rw [Parts.schemas?, Parts.schemas?, lookup_partsOf, lookup_partsOf, h]

theorem objectOf_congr (hproperties : xs.lookup "properties" = ys.lookup "properties")
    (hrequired : xs.lookup "required" = ys.lookup "required")
    (hadditional : xs.lookup "additionalProperties" = ys.lookup "additionalProperties") :
    objectOf xs (partsOf xs) = objectOf ys (partsOf ys) := by
  unfold objectOf Parts.members
  rw [lookup_partsOf, lookup_partsOf, schema?_congr hadditional, hrequired, hproperties, hadditional]

theorem arrayOf_congr (hitems : xs.lookup "items" = ys.lookup "items")
    (hprefixItems : xs.lookup "prefixItems" = ys.lookup "prefixItems") :
    arrayOf xs (partsOf xs) = arrayOf ys (partsOf ys) := by
  unfold arrayOf
  rw [schemas?_congr hprefixItems, schema?_congr hitems, hitems]

/-- Beside its format, a named type is an object or an array or needs nothing else. -/
theorem typed_congr (hformat : xs.lookup "format" = ys.lookup "format")
    (hobject : objectOf xs (partsOf xs) = objectOf ys (partsOf ys))
    (harray : arrayOf xs (partsOf xs) = arrayOf ys (partsOf ys)) :
    typed xs (partsOf xs) = typed ys (partsOf ys) := by
  funext kind
  unfold typed textAt
  rw [hformat, harray, hobject]

/-- Other keywords make no difference. -/
theorem ofSchema_congr (h : ∀ key ∈ readKeywords, xs.lookup key = ys.lookup key) :
    ofSchema (.obj xs) = ofSchema (.obj ys) := by
  simp only [readKeywords, List.forall_mem_cons, List.not_mem_nil, false_imp_iff, implies_true,
    and_true] at h
  obtain ⟨href, hnullable, hconst, henum, honeOf, hanyOf, hallOf, hdiscriminator, htype, hformat,
    hproperties, hrequired, hadditional, hitems, hprefixItems⟩ := h
  have halternatives : alternatives xs = alternatives ys := by
    funext ts
    unfold alternatives
    rw [hdiscriminator]
  have hobject := objectOf_congr hproperties hrequired hadditional
  have harray := arrayOf_congr hitems hprefixItems
  have htyped := typed_congr hformat hobject harray
  have hbyType : byType xs (partsOf xs) = byType ys (partsOf ys) := by
    unfold byType typedAny hasKey
    rw [htype, hproperties, hadditional, hitems, hprefixItems, htyped, hobject, harray]
  have hshape : shape xs (partsOf xs) = shape ys (partsOf ys) := by
    unfold shape composition hasKey
    rw [hconst, henum, schemas?_congr honeOf, schemas?_congr hanyOf, schemas?_congr hallOf,
      hproperties, halternatives, hobject, hbyType]
  rw [ofSchema, ofSchema]
  unfold assemble textAt boolAt
  rw [href, hnullable, hshape]

end

section
-- A schema with few keywords is written and then read by evaluation.
attribute [local simp] read Schema.encode present OpenApi.encodeProperties OpenApi.encodeAdditional
  encodeOption encodeOptionList encodeSchemas_eq ofSchema assemble shape textAt boolAt partsOf
  Parts.schemas? byType partOfList schemasKeywords schemaKeywords schemasOf_encode TypeNames.encode
  List.lookup_cons

/-! ### Schemas with one keyword -/

theorem read_empty : read {} = .unknown := by
  simp [hasKey]

theorem read_never : read { negated := some {} } = .unknown := by
  simp [hasKey]

theorem read_const (v : Json) : read { constValue := some v } = .const v := by
  simp

theorem read_enum (vs : List Json) : read { enumValues := some vs } = .enum vs := by
  simp [Json.asArray?]

theorem afterLast_append {c : Char} {cs : List Char} (h : c ∉ cs) (before : List Char) :
    Text.afterLast c (before ++ c :: cs) = cs := by
  have hnone : ∀ d ∈ cs, (d == c) = false := fun d hd =>
    beq_eq_false_iff_ne.mpr fun heq => h (heq ▸ hd)
  have hsplit : (before ++ c :: cs).splitOn c = before.splitOn c ++ [cs] := by
    rw [← List.splitOnP_eq_singleton hnone]
    exact List.splitOnP_append_cons (p := fun d => d == c) before cs (beq_self_eq_true c)
  rw [Text.afterLast, hsplit]
  simp

/-- A reference is read as the key that it was made of. -/
theorem read_reference {key : String} (h : '/' ∉ key.toList) : read (.reference key) = .ref key := by
  have hroot : componentRoot.toList = "#/components/schemas".toList ++ ['/'] := by decide
  have hname : refName (componentRef key) = key := by
    rw [refName, componentRef, String.toList_append, hroot, List.append_assoc, List.singleton_append,
      afterLast_append h, String.ofList_toList]
  simp [Schema.reference, Json.asString?, hname]

/-! ### Compositions -/

/-- Several types as alternatives; a single one stands for itself. -/
def alternative (discriminator : Option String) : List TypeExpr → TypeExpr
  | [t] => t
  | ts => .union ts discriminator

theorem read_anyOf (ss : List Schema) : read { anyOf := some ss } = alternative none (ss.map read) := by
  have hread : read { anyOf := some ss } =
      alternatives [("anyOf", .arr (ss.map Schema.encode))] (ss.map read) := by simp
  rw [hread]
  rcases ss with _ | ⟨s, _ | ⟨u, ss⟩⟩ <;> simp [alternatives, alternative]

theorem read_oneOf (ss : List Schema) (d : OpenApi.Discriminator) :
    read { oneOf := some ss, discriminator := some d } =
      alternative (some d.propertyName) (ss.map read) := by
  have hread : read { oneOf := some ss, discriminator := some d } =
      alternatives [("oneOf", .arr (ss.map Schema.encode)), ("discriminator", d.encode)]
        (ss.map read) := by simp
  rw [hread]
  rcases ss with _ | ⟨s, _ | ⟨u, ss⟩⟩ <;>
    simp [alternatives, alternative, Discriminator.encode, always, Json.get?, Json.asString?]

/-- Several types as one; a single one stands for itself. -/
def together : List TypeExpr → TypeExpr
  | [t] => t
  | ts => .intersection ts

theorem read_allOf (ss : List Schema) : read { allOf := some ss } = together (ss.map read) := by
  have hread : read { allOf := some ss } =
      composition [("allOf", .arr (ss.map Schema.encode))]
        (partsOf [("allOf", .arr (ss.map Schema.encode))]) (ss.map read) := by simp
  rw [hread, composition]
  rcases ss with _ | ⟨s, _ | ⟨u, ss⟩⟩ <;> simp [together, hasKey]

theorem read_ofType (kind : String) :
    read (.ofType kind) = typed [("type", .str kind)] [("type", .none)] kind := by
  simp [Schema.ofType]

theorem read_formatted (kind format : String) :
    read (.formatted kind format) =
      typed [("type", .str kind), ("format", .str format)] [("type", .none), ("format", .none)] kind := by
  simp [Schema.formatted]

theorem read_orNull (s : Schema) : read s.orNull = .union [read s, null] none := by
  rw [Schema.orNull, read_anyOf, List.map_cons, List.map_singleton, read_ofType]
  rfl

/-! ### Schemas with a type -/

theorem read_arrayOf (s : Schema) : read (.arrayOf s) = .array (read s) := by
  simp [Schema.arrayOf, Parts.schema?, typed, arrayOf]

theorem encode_object (s : Schema) : ∃ ms, s.encode = .obj ms := ⟨_, s.encode_eq⟩

theorem read_tuple (fixed : List Schema) (rest : Option Schema) (least : Nat) (most : Option Nat) :
    read { Schema.ofType "array" with
      minItems := some least, items := rest, maxItems := most, prefixItems := some fixed } =
      .tuple (fixed.map read) (rest.map read) := by
  cases rest with
  | none =>
    cases most <;> simp [Schema.ofType, typed, arrayOf]
  | some s =>
    obtain ⟨ms, hms⟩ := encode_object s
    have hread : read s = ofSchema (.obj ms) := congrArg ofSchema hms
    rw [Option.map_some, hread]
    cases most <;> simp [Schema.ofType, Parts.schema?, typed, arrayOf, hms]

end

/-- What an object is read to have besides its members. -/
def additionalOf : Option OpenApi.Additional → Option TypedApi.Additional
  | none => none
  | some (.bool true) => some .any
  | some (.bool false) => some .forbidden
  | some (.schema s) => if s.encode matches .obj [] then some .any else some (.of (read s))

/-- A member of an object, from the name and the schema of a property. -/
def memberOf (required : List String) (e : String × Schema) : Member :=
  { name := e.1
    type := read e.2
    required := required.contains e.1
    description := (e.2.encode.get? "description").bind Json.asString?
    readOnly := (e.2.encode.get? "readOnly").bind Json.asBool? == some true }

theorem read_object (ps : Option (List (String × Schema))) (required : Option (List String))
    (a : Option OpenApi.Additional) :
    read { Schema.ofType "object" with
      properties := ps, required := required, additional := a } =
      .object ((ps.getD []).map (memberOf (required.getD []))) (additionalOf a) := by
  let entries : List (String × Json) := ("type", .str "object") ::
    (present "properties" ps (tableJson Schema.encode) ++ (present "required" required texts ++
      present "additionalProperties" a Additional.encode))
  have hencode : Schema.encode { Schema.ofType "object" with
      properties := ps, required := required, additional := a } = .obj entries := by
    simp [entries, Schema.ofType, Schema.encode, OpenApi.encodeProperties_eq, encodeAdditional_eq,
      encodeOption, encodeOptionList, present, TypeNames.encode]
  have hproperties : entries.lookup "properties" = ps.map (tableJson Schema.encode) := by
    simp [entries, List.lookup_cons, List.lookup_append, lookup_present]
  have hrequired : entries.lookup "required" = required.map texts := by
    simp [entries, List.lookup_cons, List.lookup_append, lookup_present]
  have hadditional : entries.lookup "additionalProperties" = a.map Additional.encode := by
    simp [entries, List.lookup_cons, List.lookup_append, lookup_present]
  have htype : entries.lookup "type" = some (.str "object") := rfl
  have hnone : ∀ key ∈ ["$ref", "nullable", "const", "enum", "oneOf", "anyOf", "allOf"],
      entries.lookup key = none := by
    simp [entries, List.lookup_cons, List.lookup_append, lookup_present]
  simp only [List.forall_mem_cons, List.not_mem_nil, false_imp_iff, implies_true, and_true] at hnone
  obtain ⟨href, hnullable, hconst, henum, honeOf, hanyOf, hallOf⟩ := hnone
  have hread : ofSchema (.obj entries) = objectOf entries (partsOf entries) := by
    simp [ofSchema, assemble, shape, textAt, boolAt, byType, typed, Parts.schemas?, lookup_partsOf,
      href, hnullable, hconst, henum, honeOf, hanyOf, hallOf, htype]
  have hnames : (((required.map texts).bind Json.asArray?).getD []).filterMap Json.asString? =
      required.getD [] := by
    cases required with
    | none => rfl
    | some names => simp [texts, Json.asArray?, List.filterMap_map, Function.comp_def, Json.asString?]
  have hmembers : (partsOf entries).members.map (fun m =>
      { m with required := (required.getD []).contains m.name }) =
        (ps.getD []).map (memberOf (required.getD [])) := by
    rw [Parts.members, lookup_partsOf, hproperties]
    cases ps with
    | none => rfl
    | some ps =>
      show (membersOf (ps.map fun e => (e.1, e.2.encode))).map _ = _
      rw [membersOf_encode, List.map_map]
      rfl
  rw [read, hencode, hread, objectOf, hadditional, hrequired, hnames, hmembers]
  refine congrArg (TypeExpr.object _) ?_
  rw [Parts.schema?, lookup_partsOf, hadditional]
  rcases a with _ | (_ | _) | s
  · rfl
  · rfl
  · rfl
  · obtain ⟨ms, hms⟩ := encode_object s
    have hs : read s = ofSchema (.obj ms) := congrArg ofSchema hms
    rcases ms with _ | ⟨m, ms⟩ <;>
      simp [Additional.encode, additionalOf, hms, hs, partOf, schemasKeywords, schemaKeywords]

/-! ### Schemas that read alike -/

/-- The same keys, and the same values under those that are looked at. -/
def Agree (xs ys : List (String × Option Json)) : Prop :=
  List.Forall₂ (fun a b => a.1 = b.1 ∧ (a.1 ∈ readKeywords → a.2 = b.2)) xs ys

theorem Agree.lookup_eq {xs ys : List (String × Option Json)} (h : Agree xs ys) {key : String}
    (hkey : key ∈ readKeywords) : xs.lookup key = ys.lookup key := by
  unfold Agree at h
  induction h with
  | nil => rfl
  | @cons a b xs ys hab _ ih =>
    obtain ⟨hname, hvalue⟩ := hab
    rw [List.lookup_cons, List.lookup_cons, ← hname, ih]
    cases heq : key == a.1 with
    | false => rfl
    | true => exact congrArg some (hvalue (beq_iff_eq.mp heq ▸ hkey))

theorem read_congr {s u : Schema} (hs : s.extensions = []) (hu : u.extensions = [])
    (h : Agree s.slots u.slots) : read s = read u := by
  have hn : ∀ s : Schema, (s.slots.map (·.1)).Nodup := fun _ => Schema.nodup_keywords
  rw [read, read, s.encode_eq, u.encode_eq, hs, hu, List.append_nil, List.append_nil]
  refine ofSchema_congr fun key hkey => ?_
  rw [lookup_ofSlots_eq (hn s), lookup_ofSlots_eq (hn u), h.lookup_eq hkey]

end TypedApi.TypeExpr
