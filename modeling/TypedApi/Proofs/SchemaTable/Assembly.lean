import TypedApi.SchemaTable.Conversion

/-! The conversion of a form in two steps.

`parts` lists the types that the conversion of a form goes to, in order, and `assemble`
puts the schemas of these parts together without looking at the table.
`formWith_eq_assemble` says that the two steps are the conversion of the form, so what is
true of a conversion follows from what is true of a list of sites and of `assemble`. -/
namespace TypedApi.SchemaTable

open OpenApi

/-- The members of a union that count. -/
def unionMembers (members : List SourceType) : List SourceType := members.filter (!·.isUndefined)

/-- A union that only enumerates values. -/
def isEnumeration (members : List SourceType) : Bool :=
  !(unionMembers members).isEmpty && (unionMembers members).all (·.isLiteral)

/-- The types that the conversion of a form goes to. -/
def parts : Form → List SourceType
  | .object properties index _ => properties.map (·.type) ++ (index.map (·.value)).toList
  | .array element => [element]
  | .tuple elements => elements.map TupleElement.itemType
  | .union members _ => if isEnumeration members then [] else unionMembers members
  | .intersection members => members
  | .native "Map" args => args[1]?.toList
  | .native "Set" args => args[0]?.toList
  | .native "Promise" args => args[0]?.toList
  | _ => []

/-! ### Putting the parts together -/

/-- An object, given its converted properties and then the index value, if there is one. -/
def objectSchema (properties : List Property) (index : Option IndexSignature)
    (strictness : Strictness) (converted : List (String × Schema)) (schemas : List Schema) :
    Schema :=
  let required := (properties.filter (·.required)).map (·.name)
  { Schema.ofType "object" with
    properties := if converted.isEmpty then none else some (Json.table converted)
    required := if required.isEmpty then none else some required
    additional := match index, schemas with
      | some _, s :: _ => some (.schema s)
      | _, _ => if strictness = .strict then some (.bool false) else none }

def objectOf (properties : List Property) (index : Option IndexSignature)
    (strictness : Strictness) (schemas : List Schema) : Schema :=
  objectSchema properties index strictness
    (List.zipWith (fun p s => (p.name, decorate p s)) properties schemas)
    (schemas.drop properties.length)

def tupleOf (elements : List TupleElement) (schemas : List Schema) : Schema :=
  let converted := List.zipWith (fun e s => (e.rest, s)) elements schemas
  let fixed := (converted.filter (!·.1)).map (·.2)
  let rest := ((converted.filter (·.1)).map (·.2)).getLast?
  { Schema.ofType "array" with
    minItems := some ((elements.filter (!·.rest)).takeWhile (!·.optional)).length
    items := rest
    maxItems := if rest.isSome then none else some fixed.length
    prefixItems := if fixed.isEmpty then none else some fixed }

def unionOf (members : List SourceType) (discriminant : Option Discriminant)
    (schemas : List Schema) : Schema :=
  if isEnumeration members then
    { enumValues := some (distinctValues ((unionMembers members).filterMap literalValue?)) }
  else
    match discriminant, schemas with
    | some d, schemas =>
      { oneOf := some schemas
        discriminator := some {
          propertyName := d.property
          mapping := if (mappingOf d schemas).isEmpty then none else some (mappingOf d schemas) } }
    | none, [s] => s
    | none, schemas => { anyOf := some schemas }

def nativeOf (name : String) (schemas : List Schema) : Schema :=
  match name with
  | "Date" => .formatted "string" "date-time"
  | "RegExp" => .formatted "string" "regex"
  | "URL" => .formatted "string" "uri"
  | "Map" => { Schema.ofType "object" with
      additional := some (match schemas with | s :: _ => .schema s | [] => .bool true) }
  | "Set" => { Schema.arrayOf (schemas.headD {}) with uniqueItems := some true }
  | "Promise" => schemas.headD {}
  | "Error" => errorSchema
  | name =>
    if typedArrays.contains name then .arrayOf (.ofType "number")
    else if byteNatives.contains name then .formatted "string" "binary"
    else .ofType "object"

/-- The schema of a form, given the schemas of its parts. -/
def assemble : Form → List Schema → Schema
  | .any, _ | .unknown, _ | .void, _ => {}
  | .never, _ => { negated := some {} }
  | .atomic a, _ => atomicSchema a
  | .literal v, _ => { constValue := some v }
  | .object ps index strictness, schemas => objectOf ps index strictness schemas
  | .array _, schemas => .arrayOf (schemas.headD {})
  | .tuple es, schemas => tupleOf es schemas
  | .union ms d, schemas => unionOf ms d schemas
  | .intersection _, schemas => { allOf := some schemas }
  | .enum ms, _ => { enumValues := some (ms.map (·.value)) }
  | .native name _, schemas => nativeOf name schemas
  | .ref _, _ => {}

/-- What a type adds to the schema of its form. -/
def finish (type : SourceType) (s : Schema) : Schema :=
  let s := { s with description := type.description <|> s.description }
  match type.constraints with
  | some c => applyRules s c
  | none => s

/-- The schema at the places where a type is used: with the null it may be. -/
def withNull (null : Bool) (s : Schema) : Schema := if null then s.orNull else s

/-! ### The two steps are the conversion -/

theorem zipWith_left {α β γ : Type} {f : α → γ} {xs : List α} {ys : List β}
    (h : xs.length ≤ ys.length) : List.zipWith (fun x _ => f x) xs ys = xs.map f := by
  induction xs generalizing ys with
  | nil => rfl
  | cons x xs ih =>
    cases ys with
    | nil => cases h
    | cons y ys => rw [List.zipWith_cons_cons, ih (Nat.le_of_succ_le_succ h), List.map_cons]

variable {m : Type → Type} [Monad m] [LawfulMonad m]

/-- Results that are paired with what they come from can be paired afterwards. -/
theorem mapM_pairing {α β γ δ : Type} (xs : List α) (k : α → β) (f : β → m γ) (g : α → γ → δ) :
    (xs.mapM fun x => g x <$> f (k x)) =
      (fun ys => List.zipWith g xs ys) <$> (xs.map k).mapM f := by
  induction xs with
  | nil => simp
  | cons x xs ih =>
    simp only [List.mapM_cons, List.map_cons, ih, bind_pure_comp, bind_map_left, map_bind,
      Functor.map_map, List.zipWith_cons_cons]

/-- The same when further results come behind the paired ones. -/
theorem mapM_pairing_append {α β γ δ ε : Type} (xs : List α) (more : List β) (k : α → β)
    (f : β → m γ) (g : α → γ → δ) (h : List δ → List γ → ε) :
    (do
      let ds ← xs.mapM fun x => g x <$> f (k x)
      let ys ← more.mapM f
      return h ds ys) =
      (fun ys => h (List.zipWith g xs ys) (ys.drop xs.length)) <$> (xs.map k ++ more).mapM f := by
  induction xs generalizing h with
  | nil => simp
  | cons x xs ih =>
    have step := fun y => ih fun ds ys => h (g x y :: ds) ys
    simp only [bind_pure_comp] at step
    simp only [List.mapM_cons, List.map_cons, List.cons_append, bind_pure_comp, bind_map_left,
      map_bind, Functor.map_map, List.zipWith_cons_cons, List.length_cons, List.drop_succ_cons,
      bind_assoc, step]

variable (registry : Registry) (body : SourceType → Conversion Schema)

theorem objectWith_eq (site : SourceType → Conversion Schema) (ps : List Property)
    (index : Option IndexSignature) (strictness : Strictness) :
    objectWith site ps index strictness =
      objectOf ps index strictness <$> (parts (.object ps index strictness)).mapM site := by
  have h := mapM_pairing_append ps (index.map (·.value)).toList Property.type site
    (fun p s => (p.name, decorate p s)) (objectSchema ps index strictness)
  rw [parts]
  refine Eq.trans ?_ h
  cases index with
  | none => simp [objectWith, objectSchema]
  | some signature => simp [objectWith, objectSchema]

theorem tupleWith_eq (site : SourceType → Conversion Schema) (es : List TupleElement) :
    tupleWith site es = tupleOf es <$> (parts (.tuple es)).mapM site := by
  have h := mapM_pairing es TupleElement.itemType site fun e s => (e.rest, s)
  simp only [tupleWith, parts, bind_pure_comp]
  rw [h, Functor.map_map]
  rfl

theorem unionWith_eq (site : SourceType → Conversion Schema) (ms : List SourceType)
    (d : Option Discriminant) :
    unionWith site ms d = unionOf ms d <$> (parts (.union ms d)).mapM site := by
  by_cases h : isEnumeration ms = true
  · have h' := h
    simp only [isEnumeration, unionMembers] at h'
    simp only [unionWith, parts, unionOf, h, h', if_true, List.mapM_nil, map_pure, unionMembers]
  · have h' := h
    simp only [isEnumeration, unionMembers] at h'
    simp only [unionWith, parts, unionOf, h, h', ← bind_pure_comp, unionMembers]
    refine bind_congr fun schemas => ?_
    cases d with
    | some d => rfl
    | none => rcases schemas with _ | ⟨s, _ | ⟨u, rest⟩⟩ <;> rfl

theorem nativeWith_eq (site : SourceType → Conversion Schema) (name : String)
    (args : List SourceType) :
    nativeWith site name args = nativeOf name <$> (parts (.native name args)).mapM site := by
  unfold nativeWith
  split
  · simp [parts, nativeOf]
  · simp [parts, nativeOf]
  · simp [parts, nativeOf]
  · cases h : args[1]? <;> simp [parts, nativeOf, h]
  · cases h : args[0]? <;> simp [parts, nativeOf, h]
  · cases h : args[0]? <;> simp [parts, nativeOf, h]
  · simp [parts, nativeOf]
  · next hDate hRegExp hUrl hMap hSet hPromise hError =>
    have hparts : parts (.native name args) = [] := by
      unfold parts
      split <;> simp_all
    have hnative : nativeOf name [] =
        if typedArrays.contains name then .arrayOf (.ofType "number")
        else if byteNatives.contains name then .formatted "string" "binary"
        else .ofType "object" := by
      unfold nativeOf
      split <;> simp_all
    rw [hparts, List.mapM_nil, map_pure, hnative]
    split
    · rfl
    · split <;> rfl

/-- The conversion of a form is that of its parts, put together. -/
theorem formWith_eq_assemble (form : Form) (h : ∀ target, form ≠ .ref target) :
    formWith registry body form =
      assemble form <$> (parts form).mapM (siteWith registry body) := by
  cases form with
  | object ps index strictness => exact objectWith_eq _ ps index strictness
  | array element => simp [formWith, parts, assemble]
  | tuple es => exact tupleWith_eq _ es
  | union ms d => exact unionWith_eq _ ms d
  | intersection ms => simp only [formWith, parts, bind_pure_comp]; rfl
  | native name args => exact nativeWith_eq _ name args
  | ref target => exact absurd rfl (h target)
  | _ => simp [formWith, parts, assemble]

/-- The body of a type that is no reference is its form's parts, put together. -/
theorem bodyWith_eq_assemble (type : SourceType) (h : ∀ target, type.form ≠ .ref target) :
    bodyWith registry body type = (fun ss => finish type (assemble type.form ss)) <$>
      (parts type.form).mapM (siteWith registry body) := by
  rw [bodyWith, formWith_eq_assemble registry body _ h, bind_map_left, ← bind_pure_comp]
  refine bind_congr fun ss => ?_
  cases hc : type.constraints <;> simp only [finish, hc]

/-- A type is a reference or not, which decides the way that its conversion takes. -/
theorem ref_or_ne (type : SourceType) :
    (∃ target, type.form = .ref target) ∨ ∀ target, type.form ≠ .ref target := by
  by_cases href : ∃ target, type.form = .ref target
  · exact .inl href
  · exact .inr fun target hform => href ⟨target, hform⟩

/-- The body of a reference is that of its target. -/
theorem bodyWith_ref (type : SourceType) {target : String} (h : type.form = .ref target) :
    bodyWith registry body type = finish type <$> refWith registry body target := by
  rw [bodyWith, h, formWith, ← bind_pure_comp]
  refine bind_congr fun s => ?_
  cases hc : type.constraints <;> simp only [finish, hc]

/-! ### The parts of a form -/

theorem height_le_heightTypes {type : SourceType} {types : List SourceType} (h : type ∈ types) :
    type.height ≤ heightTypes types := by
  induction types with
  | nil => cases h
  | cons t ts ih =>
    rw [heightTypes]
    rcases List.mem_cons.mp h with rfl | h
    · exact Nat.le_max_left ..
    · exact Nat.le_trans (ih h) (Nat.le_max_right ..)

theorem height_le_heightProperties {p : Property} {ps : List Property} (h : p ∈ ps) :
    p.type.height ≤ heightProperties ps := by
  induction ps with
  | nil => cases h
  | cons q qs ih =>
    cases q
    rw [heightProperties]
    rcases List.mem_cons.mp h with rfl | h
    · exact Nat.le_max_left ..
    · exact Nat.le_trans (ih h) (Nat.le_max_right ..)

theorem height_le_heightElements {e : TupleElement} {es : List TupleElement} (h : e ∈ es) :
    e.type.height ≤ heightElements es := by
  induction es with
  | nil => cases h
  | cons q qs ih =>
    cases q
    rw [heightElements]
    rcases List.mem_cons.mp h with rfl | h
    · exact Nat.le_max_left ..
    · exact Nat.le_trans (ih h) (Nat.le_max_right ..)

theorem height_eq (type : SourceType) : type.height = type.form.height + 1 := by
  cases type
  rfl

theorem height_itemType_le (e : TupleElement) : (TupleElement.itemType e).height ≤ e.type.height := by
  unfold TupleElement.itemType
  split
  · split
    · next element h =>
      rw [height_eq e.type, h, Form.height]
      omega
    · exact Nat.le_refl _
  · exact Nat.le_refl _

/-- A part is nested less deep than the form. -/
theorem height_le_of_mem_parts {form : Form} {type : SourceType} (h : type ∈ parts form) :
    type.height ≤ form.height := by
  unfold parts at h
  split at h
  · next ps index _ =>
    rw [Form.height]
    rcases List.mem_append.mp h with h | h
    · obtain ⟨p, hp, rfl⟩ := List.mem_map.mp h
      exact Nat.le_trans (height_le_heightProperties hp) (Nat.le_max_left ..)
    · cases index with
      | none => simp at h
      | some signature =>
        have hv : type = signature.value := by simpa using h
        cases signature
        rw [hv, heightIndex]
        exact Nat.le_trans (Nat.le_max_right ..) (Nat.le_max_right ..)
  · next element =>
    obtain rfl := List.mem_singleton.mp h
    exact Nat.le_refl type.height
  · next es =>
    obtain ⟨e, he, rfl⟩ := List.mem_map.mp h
    exact Nat.le_trans (height_itemType_le e) (height_le_heightElements he)
  · next ms _ =>
    split at h
    · cases h
    · exact height_le_heightTypes (List.mem_filter.mp h).1
  · exact height_le_heightTypes h
  · exact height_le_heightTypes (List.mem_of_getElem? (Option.mem_toList.mp h))
  · exact height_le_heightTypes (List.mem_of_getElem? (Option.mem_toList.mp h))
  · exact height_le_heightTypes (List.mem_of_getElem? (Option.mem_toList.mp h))
  · cases h

end TypedApi.SchemaTable
