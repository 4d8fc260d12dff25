import TypedApi.Proofs.Json.StableRecord
import TypedApi.SourceType.Decoding
import TypedApi.SourceType.Encoding

/-! The members that types are written with.

The encoder recurses through the lists of a type by hand. Here every record in a type is a list
of slots (`encode_eq_shape`), and a type is the members of its form followed by its modifiers
(`SourceType.encode_eq`). -/
namespace TypedApi

open Json Json.Fields

/-! ### Records -/

def Constraints.shape : Shape Constraints where
  slots c := [
    .optional "minimum" c.minimum .num,
    .optional "maximum" c.maximum .num,
    .optional "exclusiveMinimum" c.exclusiveMinimum .num,
    .optional "exclusiveMaximum" c.exclusiveMaximum .num,
    .optional "multipleOf" c.multipleOf .num,
    .optional "numericType" c.numericType fun t => .str t.name,
    .optional "minLength" c.minLength .ofNat,
    .optional "maxLength" c.maxLength .ofNat,
    .optional "format" c.format .str,
    .optional "pattern" c.pattern .str,
    .optional "startsWith" c.startsWith .str,
    .optional "endsWith" c.endsWith .str,
    .optional "includes" c.includes .str,
    .listed "transforms" c.transforms transformsJson,
    .optional "minItems" c.minItems .ofNat,
    .optional "maxItems" c.maxItems .ofNat,
    .optional "uniqueItems" c.uniqueItems .bool,
    .required "coerce" c.coerce .bool,
    .optional "customValidator" c.customValidator .str,
    .optional "default" c.default id,
    .listed "errorMessages" c.errorMessages messagesJson]

theorem Constraints.encode_eq_shape (c : Constraints) : c.encode = Constraints.shape.encode c := by
  rw [Shape.encode_closed rfl]
  simp only [Constraints.encode, always_eq_ofSlots, present_eq_ofSlots, nonEmpty_eq_ofSlots,
    ← ofSlots_append, List.cons_append, List.nil_append]
  rfl

def EnumMember.shape : Shape EnumMember where
  slots m := [.required "name" m.name .str, .required "value" m.value id]

theorem EnumMember.encode_eq_shape (m : EnumMember) : m.encode = EnumMember.shape.encode m := rfl

def Discriminant.shape : Shape Discriminant where
  slots d := [
    .required "property" d.property .str,
    .required "mapping" d.mapping fun es => .obj (es.map fun e => (e.1, .ofNat e.2))]

theorem Discriminant.encode_eq_shape (d : Discriminant) : d.encode = Discriminant.shape.encode d :=
  rfl

def Property.shape : Shape Property where
  slots p := [
    .required "name" p.name .str,
    .required "type" p.type SourceType.encode,
    .required "required" p.required .bool,
    .flag "readonly" p.readonly,
    .flag "write_only" p.writeOnly,
    .optional "description" p.description .str,
    .optional "example" p.example? id,
    .optional "constraints" p.constraints Constraints.encode]

theorem Property.encode_eq_shape (p : Property) : p.encode = Property.shape.encode p := by
  rw [Shape.encode_closed rfl]
  cases p
  simp only [Property.encode, always_eq_ofSlots, present_eq_ofSlots, flag_eq_ofSlots,
    ← ofSlots_append]
  rfl

def TupleElement.shape : Shape TupleElement where
  slots e := [
    .required "type" e.type SourceType.encode,
    .required "optional" e.optional .bool,
    .required "rest" e.rest .bool]

theorem TupleElement.encode_eq_shape (e : TupleElement) : e.encode = TupleElement.shape.encode e := by
  cases e
  rfl

def IndexSignature.encode (i : IndexSignature) : Json :=
  .obj [("key", i.key.encode), ("value", i.value.encode)]

def IndexSignature.shape : Shape IndexSignature where
  slots i := [
    .required "key" i.key SourceType.encode,
    .required "value" i.value SourceType.encode]

theorem IndexSignature.encode_eq_shape (i : IndexSignature) :
    i.encode = IndexSignature.shape.encode i := rfl

/-! ### Lists -/

theorem encodeTypes_eq (ts : List SourceType) : encodeTypes ts = ts.map SourceType.encode := by
  induction ts with
  | nil => rfl
  | cons t ts ih => rw [encodeTypes, ih, List.map_cons]

theorem encodeProperties_eq (ps : List Property) : encodeProperties ps = ps.map Property.encode := by
  induction ps with
  | nil => rfl
  | cons p ps ih => rw [encodeProperties, ih, List.map_cons]

theorem encodeElements_eq (es : List TupleElement) :
    encodeElements es = es.map TupleElement.encode := by
  induction es with
  | nil => rfl
  | cons e es ih => rw [encodeElements, ih, List.map_cons]

theorem encodeIndex_eq (i : Option IndexSignature) :
    encodeIndex i = present "index_signature" i IndexSignature.encode := by
  cases i with
  | none => rfl
  | some i =>
    cases i
    rfl

/-! ### Types -/

/-- What a form is written with besides its kind. -/
def Form.slots : Form → List (String × Option Json)
  | .atomic a => [("atomic", some (.str a.name))]
  | .literal v => [("value", some v)]
  | .object ps index strictness => [
      ("properties", some (.arr (ps.map Property.encode))),
      ("index_signature", index.map IndexSignature.encode),
      ("strictness", some (.str strictness.name))]
  | .array e => [("element", some e.encode)]
  | .tuple es => [("elements", some (.arr (es.map TupleElement.encode)))]
  | .union ts d => [
      ("members", some (.arr (ts.map SourceType.encode))),
      ("discriminant", d.map Discriminant.encode)]
  | .intersection ts => [("members", some (.arr (ts.map SourceType.encode)))]
  | .enum ms => [("members", some (.arr (ms.map EnumMember.encode)))]
  | .native name args => [
      ("native", some (.str name)),
      ("type_args", if args.isEmpty then none else some (.arr (args.map SourceType.encode)))]
  | .ref target => [("target", some (.str target))]
  | _ => []

/-- The members that tell the form of a type. -/
def Form.members (f : Form) : List (String × Json) :=
  ofSlots (("kind", some (.str f.kind)) :: f.slots)

theorem Form.members_eq (f : Form) : f.members = always "kind" (.str f.kind) ++ f.encodeMembers := by
  cases f with
  | object ps index strictness =>
    rw [encodeMembers, encodeProperties_eq, encodeIndex_eq]
    cases index <;> rfl
  | tuple es =>
    rw [encodeMembers, encodeElements_eq]
    rfl
  | union ts d =>
    rw [encodeMembers, encodeTypes_eq]
    cases d <;> rfl
  | intersection ts =>
    rw [encodeMembers, encodeTypes_eq]
    rfl
  | native name args =>
    rw [encodeMembers, encodeTypes_eq]
    cases args <;> rfl
  | _ => rfl

/-- What a type is written with besides its form. -/
def SourceType.slots (t : SourceType) : List Slot := [
  .flag "nullable" t.nullable,
  .flag "optional" t.optional,
  .optional "name" t.name .str,
  .optional "description" t.description .str,
  .optional "constraints" t.constraints Constraints.encode]

/-- The members that tell the modifiers of a type. -/
def SourceType.modifiers (t : SourceType) : List (String × Json) := ofSlots (t.slots.map Slot.entry)

theorem SourceType.modifiers_eq (t : SourceType) :
    t.modifiers = flag "nullable" t.nullable ++ (flag "optional" t.optional ++
      (present "name" t.name .str ++ (present "description" t.description .str ++
        present "constraints" t.constraints Constraints.encode))) := by
  simp only [flag_eq_ofSlots, present_eq_ofSlots, ← ofSlots_append]
  rfl

theorem SourceType.encode_eq (t : SourceType) : t.encode = .obj (t.form.members ++ t.modifiers) := by
  rw [modifiers_eq, Form.members_eq]
  cases t
  simp only [encode, List.append_assoc]

theorem SourceType.encode_eq_ofSlots (t : SourceType) :
    t.encode = .obj (ofSlots (("kind", some (.str t.form.kind)) ::
      (t.form.slots ++ t.slots.map Slot.entry))) := by
  rw [encode_eq, Form.members, modifiers, ← ofSlots_append, List.cons_append]

end TypedApi
