import TypedApi.Proofs.TypeExpr.OfSchema

/-! The spellings of a nullable type.

A schema with one type name can allow null in four ways: `null` is a second name behind its own or
in front of it, the schema is marked `nullable`, or it is an alternative beside the schema of null.
All of them are read as the union of null and what the schema itself is read as
(`nullable_spellings`), whatever else the schema says. Two facts carry this: the other keywords are
read without a look at the type names, and of the type names only `null` is read as a type that
has null already. -/
namespace TypedApi.TypeExpr

/-! ### Adding null -/

/-- Null is the type or one of its alternatives. -/
def HasNull : TypeExpr → Prop
  | .union variants _ => variants.any isNull = true
  | .primitive kind _ => kind = .null
  | _ => False

theorem orNull_of_hasNull {t : TypeExpr} (h : HasNull t) : t.orNull = t := by
  cases t with
  | union variants d => exact if_pos h
  | primitive kind format =>
    cases kind with
    | null => rfl
    | _ => cases h
  | _ => cases h

theorem hasNull_orNull (t : TypeExpr) : HasNull t.orNull := by
  cases t with
  | union variants d =>
    rw [orNull]
    split
    · assumption
    · show (variants ++ [null]).any isNull = true
      rw [List.any_append]
      exact Bool.or_true _
  | primitive kind format => cases kind <;> rfl
  | _ => rfl

/-! ### Schemas with one type name -/

/-- The keywords that are looked at before the type name, and the mark for null. -/
def overrulingKeywords : List String :=
  ["$ref", "const", "enum", "oneOf", "anyOf", "allOf", "nullable"]

/-- The kind of type is decided by one type name, which is not `null`. Any keyword that does not
overrule it may be there. -/
structure Named (kind : String) (entries : List (String × Json)) : Prop where
  type : entries.lookup "type" = some (.str kind)
  ne_null : kind ≠ "null"
  unruled : ∀ key ∈ overrulingKeywords, entries.lookup key = none

/-- The entries `es` are `entries` with `v` under `key`, wherever that stands. -/
structure Sets (key : String) (v : Json) (entries es : List (String × Json)) : Prop where
  here : es.lookup key = some v
  elsewhere : ∀ other, other ≠ key → es.lookup other = entries.lookup other

theorem sets_assign (key : String) (v : Json) (entries : List (String × Json)) :
    Sets key v entries (Json.assign key v entries) :=
  ⟨Json.lookup_assign_self key v entries, fun _ h => Json.lookup_assign_of_ne h v entries⟩

/-- The ways to let the schema with these entries allow null. -/
inductive Spelling (kind : String) (entries : List (String × Json)) : Json → Prop
  | nullLast {es} : Sets "type" (.arr [.str kind, .str "null"]) entries es →
    Spelling kind entries (.obj es)
  | nullFirst {es} : Sets "type" (.arr [.str "null", .str kind]) entries es →
    Spelling kind entries (.obj es)
  | marked {es} : Sets "nullable" (.bool true) entries es → Spelling kind entries (.obj es)
  | alternative : Spelling kind entries
    (.obj [("anyOf", .arr [.obj entries, .obj [("type", .str "null")]])])

section
variable {kind : String} {entries es : List (String × Json)}

/-- A type name but `null` is read as a type that null has to be put beside. -/
theorem orNull_typed (h : kind ≠ "null") (parts : Parts) :
    (typed entries parts kind).orNull = .union [typed entries parts kind, null] none := by
  unfold typed
  dsimp only
  split
  · split <;> rfl
  · rfl
  · rfl
  · rfl
  · exact absurd rfl h
  · unfold arrayOf
    split <;> rfl
  · rfl
  · rfl

/-- Where nothing overrules it the type decides, and the mark adds null to it. -/
theorem ofSchema_of_unruled
    (h : ∀ key ∈ overrulingKeywords, key ≠ "nullable" → es.lookup key = none) :
    ofSchema (.obj es) =
      if boolAt es "nullable" = some true then (byType es (partsOf es)).orNull
      else byType es (partsOf es) := by
  have href : es.lookup "$ref" = none := h _ (by decide) (by decide)
  have hconst : es.lookup "const" = none := h _ (by decide) (by decide)
  have henum : es.lookup "enum" = none := h _ (by decide) (by decide)
  have honeOf : es.lookup "oneOf" = none := h _ (by decide) (by decide)
  have hanyOf : es.lookup "anyOf" = none := h _ (by decide) (by decide)
  have hallOf : es.lookup "allOf" = none := h _ (by decide) (by decide)
  simp [ofSchema, assemble, shape, textAt, Parts.schemas?, lookup_partsOf, href, hconst, henum,
    honeOf, hanyOf, hallOf]

theorem Named.ofSchema_eq (h : Named kind entries) :
    ofSchema (.obj entries) = typed entries (partsOf entries) kind := by
  have hnullable : entries.lookup "nullable" = none := h.unruled _ (by decide)
  rw [ofSchema_of_unruled fun key hkey _ => h.unruled key hkey]
  simp [boolAt, hnullable, byType, h.type]

/-- What a type name asks for stays the same under other names and under the mark. -/
theorem Sets.typed_eq {key : String} {v : Json} (h : Sets key v entries es)
    (hkey : key = "type" ∨ key = "nullable") :
    typed es (partsOf es) = typed entries (partsOf entries) := by
  have hother : ∀ other, other ≠ "type" → other ≠ "nullable" →
      es.lookup other = entries.lookup other := fun other htype hnullable =>
    h.elsewhere other (hkey.elim (fun hk => hk ▸ htype) fun hk => hk ▸ hnullable)
  refine typed_congr (hother _ (by decide) (by decide)) (objectOf_congr ?_ ?_ ?_) (arrayOf_congr ?_ ?_)
  all_goals exact hother _ (by decide) (by decide)

/-- Of two type names, one of which is `null`, the other one is read, and null is added. -/
theorem ofSchema_of_names {kinds : List Json} (h : Named kind entries)
    (hs : Sets "type" (.arr kinds) entries es)
    (hkinds : kinds = [.str kind, .str "null"] ∨ kinds = [.str "null", .str kind]) :
    ofSchema (.obj es) = .union [ofSchema (.obj entries), null] none := by
  have hunruled : ∀ key ∈ overrulingKeywords, es.lookup key = none := fun key hkey => by
    have hne : key ≠ "type" := by
      rintro rfl
      exact absurd hkey (by decide)
    rw [hs.elsewhere key hne, h.unruled key hkey]
  have hnullable : es.lookup "nullable" = none := hunruled _ (by decide)
  have hread : ofSchema (.obj es) = typedAny es (partsOf es) (kinds.filterMap Json.asString?) := by
    rw [ofSchema_of_unruled fun key hkey _ => hunruled key hkey]
    simp [boolAt, hnullable, byType, hs.here]
  have hany : typedAny es (partsOf es) (kinds.filterMap Json.asString?) =
      (typed es (partsOf es) kind).orNull := by
    rcases hkinds with rfl | rfl <;> simp [typedAny, Json.asString?, h.ne_null]
  rw [hread, hany, orNull_typed h.ne_null, hs.typed_eq (.inl rfl), h.ofSchema_eq]

/-- The mark adds null to what the type name is read as. -/
theorem ofSchema_of_marked (h : Named kind entries)
    (hs : Sets "nullable" (.bool true) entries es) :
    ofSchema (.obj es) = .union [ofSchema (.obj entries), null] none := by
  have htype : es.lookup "type" = some (.str kind) :=
    (hs.elsewhere _ (by decide)).trans h.type
  have hread : ofSchema (.obj es) = (typed es (partsOf es) kind).orNull := by
    rw [ofSchema_of_unruled fun key hkey hne => (hs.elsewhere key hne).trans (h.unruled key hkey)]
    simp [boolAt, hs.here, Json.asBool?, byType, htype]
  rw [hread, orNull_typed h.ne_null, hs.typed_eq (.inr rfl), h.ofSchema_eq]

end

/-- All spellings of a nullable type are read alike, and null is not added a second time. -/
theorem nullable_spellings :
    (∀ {kind entries}, Named kind entries → ∀ {s}, Spelling kind entries s →
      ofSchema s = .union [ofSchema (.obj entries), null] none) ∧
    ∀ t : TypeExpr, t.orNull.orNull = t.orNull := by
  refine ⟨fun h s hs => ?_, fun t => orNull_of_hasNull (hasNull_orNull t)⟩
  cases hs with
  | nullLast hs => exact ofSchema_of_names h hs (.inl rfl)
  | nullFirst hs => exact ofSchema_of_names h hs (.inr rfl)
  | marked hs => exact ofSchema_of_marked h hs
  | alternative => rfl

/-- A tuple whose first element is itself nullable, and that has a description and a format. -/
theorem nullable_spellings_tuple :
    let entries : List (String × Json) := [("description", .str "A range"), ("type", .str "array"),
      ("prefixItems", .arr [.obj [("type", .arr [.str "integer", .str "null"])], .obj []]),
      ("items", .bool false), ("format", .str "range")]
    let t : TypeExpr := .tuple [.union [.primitive .integer none, .null] none, .unknown] none
    ofSchema (.obj entries) = t ∧
      ofSchema (.obj (Json.assign "type" (.arr [.str "null", .str "array"]) entries)) =
        .union [t, null] none ∧
      ofSchema (.obj (Json.assign "nullable" (.bool true) entries)) = .union [t, null] none := by
  intro entries t
  have hentries : Named "array" entries := ⟨rfl, by decide, by decide⟩
  exact ⟨rfl, nullable_spellings.1 hentries (.nullFirst (sets_assign _ _ _)),
    nullable_spellings.1 hentries (.marked (sets_assign _ _ _))⟩

end TypedApi.TypeExpr
