import TypedApi.Proofs.SchemaTable.Clean
import TypedApi.Proofs.SchemaTable.Consistency
import TypedApi.Proofs.TypeExpr.OfSchema

/-! Source types as type expressions.

`translated` says, form by form, which type expression a source type stands for on a table, and
does not mention schemas except where the empty one makes a difference. `read_convert` says that
this is what is read from the schema that the type is converted to. -/
namespace TypedApi

/-! ### Plain types -/

/-- No type of the runtime and no rules or descriptions of properties. Properties have names of
their own, and a tuple has an element besides its rest. -/
def Form.Plain : Form → Prop
  | .native _ _ => False
  | .object ps _ _ =>
    (ps.map (·.name)).Nodup ∧ ∀ p ∈ ps, p.description = none ∧ p.constraints = none
  | .tuple es => ∃ e ∈ es, e.rest = false
  | _ => True

structure SourceType.PlainNode (t : SourceType) : Prop where
  description : t.description = none
  constraints : t.constraints = none
  form : t.form.Plain

/-- A type that is plain at every depth. -/
def SourceType.Plain (t : SourceType) : Prop := t.All PlainNode

namespace SchemaTable

open OpenApi

/-! ### The translation -/

def atomicType : Atomic → TypeExpr
  | .string => .primitive .string none
  | .number => .primitive .number none
  | .boolean => .primitive .boolean none
  | .bigint => .primitive .integer (some "int64")
  | .null => .null
  | .undefined => .unknown

mutual
/-- Named types are referred to, and null is one more alternative. -/
def translated (registry : Registry) : SourceType → SchemaTable → TypeExpr
  | { form, nullable, name, .. }, t =>
    let type := match name with
      | some name =>
        if isRegistrable form then .ref (t.keyFor name).1 else translatedForm registry form t
      | none => translatedForm registry form t
    if nullable then .union [type, .null] none else type

def translatedForm (registry : Registry) : Form → SchemaTable → TypeExpr
  | .any, _ | .unknown, _ | .void, _ | .never, _ | .native .., _ => .unknown
  | .atomic a, _ => atomicType a
  | .literal v, _ => .const v
  | .enum ms, _ => .enum (ms.map (·.value))
  | .ref target, t =>
    let key := (t.keyFor target).1
    if t.has key || registry.has target then .ref key else .unknown
  | .object ps index strictness, t =>
    .object (translatedProperties registry ps t)
      (translatedIndex registry index strictness (convertAll registry (ps.map (·.type)) t).2)
  | .array element, t => .array (translated registry element t)
  | .tuple es, t =>
    let items := translatedElements registry es t
    .tuple ((items.filter (!·.1)).map (·.2)) ((items.filter (·.1)).map (·.2)).getLast?
  | .union ms d, t =>
    if isEnumeration ms then
      .enum ((ms.filterMap literalValue?).eraseDupsBy fun v w => w.same v)
    else .alternative (d.map (·.property)) (translatedVariants registry ms t)
  | .intersection ms, t => .together (translatedTypes registry ms t)

/-- Each type on the table that the types before it leave. -/
def translatedTypes (registry : Registry) : List SourceType → SchemaTable → List TypeExpr
  | [], _ => []
  | type :: types, t =>
    translated registry type t :: translatedTypes registry types (convert registry type t).2

/-- Members that are undefined do not count. -/
def translatedVariants (registry : Registry) : List SourceType → SchemaTable → List TypeExpr
  | [], _ => []
  | type :: types, t =>
    if type.isUndefined then translatedVariants registry types t
    else
      translated registry type t :: translatedVariants registry types (convert registry type t).2

def translatedProperties (registry : Registry) : List Property → SchemaTable → List Member
  | [], _ => []
  | { name, type, required, readonly, .. } :: ps, t =>
    { name, type := translated registry type t, required, readOnly := readonly } ::
      translatedProperties registry ps (convert registry type t).2

/-- The items of a tuple, and whether they are the rest of it. -/
def translatedElements (registry : Registry) :
    List TupleElement → SchemaTable → List (Bool × TypeExpr)
  | [], _ => []
  | { type := { form := .array item, .. }, rest := true, .. } :: es, t =>
    (true, translated registry item t) ::
      translatedElements registry es (convert registry item t).2
  | { type, rest, .. } :: es, t =>
    (rest, translated registry type t) ::
      translatedElements registry es (convert registry type t).2

/-- Besides its properties an object has what its index allows, and a strict one without an index
has nothing. -/
def translatedIndex (registry : Registry) :
    Option IndexSignature → Strictness → SchemaTable → Option TypedApi.Additional
  | some { value, .. }, _, t =>
    if (convert registry value t).1.encode matches .obj [] then some .any
    else some (.of (translated registry value t))
  | none, .strict, _ => some .forbidden
  | none, _, _ => none
end

/-! ### The parts of a form -/

section
variable {registry : Registry}

theorem translatedVariants_eq (types : List SourceType) (t : SchemaTable) :
    translatedVariants registry types t = translatedTypes registry (unionMembers types) t := by
  induction types generalizing t with
  | nil => rfl
  | cons type types ih =>
    rw [translatedVariants, unionMembers, List.filter_cons, ← unionMembers]
    cases hundefined : type.isUndefined with
    | true => exact ih t
    | false => exact congrArg (_ :: ·) (ih _)

def memberFor (p : Property) (u : TypeExpr) : Member :=
  { name := p.name, type := u, required := p.required, readOnly := p.readonly }

theorem translatedProperties_eq (ps : List Property) (t : SchemaTable) :
    translatedProperties registry ps t =
      List.zipWith memberFor ps (translatedTypes registry (ps.map (·.type)) t) := by
  induction ps generalizing t with
  | nil => rfl
  | cons p ps ih =>
    cases p
    exact congrArg _ (ih _)

theorem translatedElements_eq (es : List TupleElement) (t : SchemaTable) :
    translatedElements registry es t = List.zipWith (fun e u => (e.rest, u)) es
      (translatedTypes registry (es.map TupleElement.itemType) t) := by
  induction es generalizing t with
  | nil => rfl
  | cons e es ih =>
    obtain ⟨⟨form, nullable, optional, name, description, constraints⟩, optional', rest⟩ := e
    cases form <;> cases rest <;> exact congrArg _ (ih _)

end

/-! ### Putting the parts together -/

open TypeExpr (read memberOf additionalOf alternative together)

/-- Nothing is written about the schema besides its structure. -/
structure Unmarked (s : Schema) : Prop where
  extensions : s.extensions = []
  description : s.description = none
  readOnly : s.readOnly = none

theorem unmarked_withNull {s : Schema} (h : Unmarked s) (null : Bool) : Unmarked (withNull null s) := by
  cases null with
  | false => exact h
  | true => exact ⟨rfl, rfl, rfl⟩

theorem read_withNull (null : Bool) (s : Schema) :
    read (withNull null s) = if null then .union [read s, .null] none else read s := by
  cases null with
  | false => rfl
  | true => exact TypeExpr.read_orNull s

/-- What a property adds to the schema of its type makes no difference to its structure. -/
theorem memberOf_decorate {p : Property} {s : Schema} (hp : p.description = none ∧ p.constraints = none)
    (hs : Unmarked s) (required : List String) :
    memberOf required (p.name, decorate p s) =
      { memberFor p (read s) with required := required.contains p.name } := by
  have hextensions : (decorate p s).extensions = [] := by simp [decorate, hp.2, hs.extensions]
  have hplain : (decorate p s).PlainExtensions := fun e he => by rw [hextensions] at he; cases he
  have hread : read (decorate p s) = read s := by
    refine TypeExpr.read_congr hextensions hs.extensions ?_
    simp [TypeExpr.Agree, Schema.slots, decorate, hp.2, TypeExpr.readKeywords]
  have hlookup : ∀ {key : String} {value : Option Json}, (key, value) ∈ (decorate p s).slots →
      (decorate p s).encode.get? key = value := fun hslot => by
    rw [Schema.encode_eq, Json.get?, Schema.lookup_slot hplain hslot]
  have hdescription : (decorate p s).encode.get? "description" = none :=
    hlookup (by simp [Schema.slots, decorate, hp, hs.description])
  have hreadOnly : (decorate p s).encode.get? "readOnly" =
      if p.readonly then some (.bool true) else none :=
    hlookup (by cases hr : p.readonly <;> simp [Schema.slots, decorate, hp.2, hr, hs.readOnly])
  rw [memberOf, hread, hdescription, hreadOnly]
  cases hr : p.readonly <;> simp [memberFor, hr, Json.asBool?]

theorem zipWith_congr {α β γ δ : Type} {f : α → β → δ} {g : α → γ → δ} {k : β → γ} {xs : List α}
    {ys : List β} (h : ∀ x ∈ xs, ∀ y ∈ ys, f x y = g x (k y)) :
    List.zipWith f xs ys = List.zipWith g xs (ys.map k) := by
  induction xs generalizing ys with
  | nil => rfl
  | cons x xs ih =>
    cases ys with
    | nil => rfl
    | cons y ys =>
      rw [List.map_cons, List.zipWith_cons_cons, List.zipWith_cons_cons,
        h x List.mem_cons_self y List.mem_cons_self, ih fun x hx y hy =>
          h x (List.mem_cons_of_mem _ hx) y (List.mem_cons_of_mem _ hy)]

theorem contains_required {ps : List Property} (hn : (ps.map (·.name)).Nodup) {p : Property}
    (hp : p ∈ ps) : ((ps.filter (·.required)).map (·.name)).contains p.name = p.required := by
  rw [Bool.eq_iff_iff, List.contains_iff_mem, List.mem_map]
  constructor
  · rintro ⟨q, hq, hname⟩
    obtain ⟨hq, hrequired⟩ := List.mem_filter.mp hq
    exact List.inj_on_of_nodup_map hn hq hp hname ▸ hrequired
  · exact fun hrequired => ⟨p, List.mem_filter.mpr ⟨hp, hrequired⟩, rfl⟩

/-- The members of an object are read from its properties. -/
theorem members_objectSchema {ps : List Property} (hn : (ps.map (·.name)).Nodup)
    (hp : ∀ p ∈ ps, p.description = none ∧ p.constraints = none) {ss : List Schema}
    (hs : ∀ s ∈ ss, Unmarked s) :
    (List.zipWith (fun p s => (p.name, decorate p s)) ps ss).map
        (memberOf ((ps.filter (·.required)).map (·.name))) =
      List.zipWith memberFor ps (ss.map read) := by
  rw [List.map_zipWith]
  refine zipWith_congr fun p hm s hs' => ?_
  rw [memberOf_decorate (hp p hm) (hs s hs'), contains_required hn hm]
  rfl

theorem read_objectSchema (ps : List Property) (index : Option IndexSignature)
    (strictness : Strictness) (converted : List (String × Schema)) (ss : List Schema)
    (hn : (converted.map (·.1)).Nodup) :
    read (objectSchema ps index strictness converted ss) =
      .object (converted.map (memberOf ((ps.filter (·.required)).map (·.name))))
        (additionalOf (objectSchema ps index strictness converted ss).additional) := by
  have hproperties : (if converted.isEmpty then none else some (Json.table converted)).getD [] =
      converted := by
    rw [Json.table_of_nodup hn]
    cases converted <;> rfl
  have hrequired : ∀ names : List String,
      (if names.isEmpty then none else some names).getD [] = names := fun names => by
    cases names <;> rfl
  unfold objectSchema
  rw [TypeExpr.read_object, hproperties, hrequired]

theorem read_tupleOf {es : List TupleElement} (h : ∃ e ∈ es, e.rest = false) {ss : List Schema}
    (hlength : ss.length = es.length) :
    read (tupleOf es ss) =
      let items := List.zipWith (fun e u => (e.rest, u)) es (ss.map read)
      .tuple ((items.filter (!·.1)).map (·.2)) ((items.filter (·.1)).map (·.2)).getLast? := by
  let converted := List.zipWith (fun e s => (e.rest, s)) es ss
  have hitems : List.zipWith (fun e u => (e.rest, u)) es (ss.map read) =
      converted.map fun x => (x.1, read x.2) := by
    rw [List.zipWith_map_right, List.map_zipWith]
  have hparts : ∀ keep : Bool → Bool,
      (((converted.map fun x => (x.1, read x.2)).filter (keep ·.1)).map (·.2)) =
        ((converted.filter (keep ·.1)).map (·.2)).map read := fun keep => by
    rw [List.filter_map, List.map_map, List.map_map]
    rfl
  have hflags : converted.map (·.1) = es.map (·.rest) := by
    rw [List.map_zipWith, zipWith_left (Nat.le_of_eq hlength.symm)]
  have hfixed : ((converted.filter (!·.1)).map (·.2)).isEmpty = false := by
    obtain ⟨e, he, hrest⟩ := h
    have hflag : e.rest ∈ converted.map (·.1) := hflags ▸ List.mem_map.mpr ⟨e, he, rfl⟩
    obtain ⟨x, hx, hflag⟩ := List.mem_map.mp hflag
    rw [List.isEmpty_eq_false_iff]
    refine List.ne_nil_of_mem (List.mem_map.mpr ⟨x, List.mem_filter.mpr ⟨hx, ?_⟩, rfl⟩)
    rw [hflag, hrest]
    rfl
  have hread : read (tupleOf es ss) = .tuple (((converted.filter (!·.1)).map (·.2)).map read)
      (((converted.filter (·.1)).map (·.2)).getLast?.map read) := by
    rw [← TypeExpr.read_tuple]
    refine congrArg read ?_
    simp only [tupleOf]
    rw [if_neg]
    exact Bool.eq_false_iff.mp hfixed
  rw [hread, hitems, ← List.getLast?_map]
  exact congr (congrArg TypeExpr.tuple (hparts not).symm)
    (congrArg List.getLast? (hparts id).symm)

/-! ### Values of a union -/

theorem distinctValues_eq (vs : List Json) :
    distinctValues vs = vs.eraseDupsBy fun v w => w.same v := by
  have hloop : ∀ acc : List Json,
      vs.foldl (fun acc v => if acc.any fun w => w.same v then acc else acc ++ [v]) acc =
        List.eraseDupsBy.loop (fun v w => w.same v) vs acc.reverse := by
    induction vs with
    | nil => intro acc; simp [List.eraseDupsBy.loop]
    | cons v vs ih =>
      intro acc
      rw [List.foldl_cons, ih, List.eraseDupsBy.loop, List.any_reverse]
      cases acc.any fun w => w.same v with
      | true => rfl
      | false => simp
  exact hloop []

theorem filterMap_literalValue? (ms : List SourceType) :
    (unionMembers ms).filterMap literalValue? = ms.filterMap literalValue? := by
  rw [unionMembers, List.filterMap_filter]
  refine List.filterMap_congr fun m _ => ?_
  cases hundefined : m.isUndefined with
  | false => rfl
  | true =>
    obtain ⟨form, _, _, _, _, _⟩ := m
    cases form <;> first | cases hundefined | rfl

theorem read_unionOf (ms : List SourceType) (d : Option Discriminant) (ss : List Schema) :
    read (unionOf ms d ss) =
      if isEnumeration ms then
        .enum ((ms.filterMap literalValue?).eraseDupsBy fun v w => w.same v)
      else alternative (d.map (·.property)) (ss.map read) := by
  unfold unionOf
  split
  · rw [TypeExpr.read_enum, distinctValues_eq, filterMap_literalValue?]
  · cases d with
    | some d => exact TypeExpr.read_oneOf _ _
    | none =>
      rcases ss with _ | ⟨s, _ | ⟨u, ss⟩⟩
      · exact TypeExpr.read_anyOf []
      · rfl
      · exact TypeExpr.read_anyOf (s :: u :: ss)

/-! ### What a type is read as -/

section
variable {registry : Registry} {t t' : SchemaTable}

theorem slash_notMem_keyFor (h : WellKeyed t) (name : String) : '/' ∉ (t.keyFor name).1.toList := by
  have hlegal := (h.keyFor name).legal _ (List.mem_map_of_mem (mem_keyFor t name))
  obtain ⟨-, hchars⟩ := isComponentKey_iff.mp hlegal
  exact fun hmem => absurd (hchars '/' hmem) (by decide)

/-- A name that stands for something is read as a reference to its key. -/
theorem Entry.reads {name : String} {found : Option (SourceType × Bool)} {s : Schema}
    (h : Entry registry name found t s t') (hw : WellKeyed t) :
    read s = (if t.has (t.keyFor name).1 || found.isSome then .ref (t.keyFor name).1 else .unknown) ∧
      Unmarked s := by
  rw [h.schema_eq]
  split
  · exact ⟨TypeExpr.read_reference (slash_notMem_keyFor hw name), rfl, rfl, rfl⟩
  · exact ⟨TypeExpr.read_empty, rfl, rfl, rfl⟩

/-- Wherever the type is used, its schema is read as its translation. -/
def Reads (registry : Registry) (type : SourceType) : Prop :=
  ∀ t s t', WellKeyed t → Site registry type t s t' → read s = translated registry type t ∧ Unmarked s

theorem Sites.reads {types : List SourceType} {ss : List Schema} (h : Sites registry types t ss t')
    (hw : WellKeyed t) (hr : ∀ type ∈ types, Reads registry type) :
    ss.map read = translatedTypes registry types t ∧ ∀ s ∈ ss, Unmarked s := by
  induction types generalizing t ss with
  | nil =>
    cases h
    exact ⟨rfl, by simp⟩
  | cons type types ih =>
    cases h with
    | cons hsite hrest =>
      obtain ⟨hread, hunmarked⟩ := hr type List.mem_cons_self _ _ _ hw hsite
      obtain ⟨hreads, hmarks⟩ := ih hrest (hw.of_writes hsite.writes) fun u hu =>
        hr u (List.mem_cons_of_mem _ hu)
      rw [List.map_cons, translatedTypes, hread, convert_eq hsite, hreads]
      exact ⟨rfl, List.forall_mem_cons.mpr ⟨hunmarked, hmarks⟩⟩

theorem additionalOf_objectSchema {index : Option IndexSignature} {ss : List Schema}
    (h : Sites registry (index.map (·.value)).toList t ss t') (hw : WellKeyed t)
    (hr : ∀ value ∈ (index.map (·.value)).toList, Reads registry value) (ps : List Property)
    (strictness : Strictness) (converted : List (String × Schema)) :
    additionalOf (objectSchema ps index strictness converted ss).additional =
      translatedIndex registry index strictness t := by
  cases index with
  | none => cases strictness <;> rfl
  | some signature =>
    obtain ⟨key, value⟩ := signature
    cases h with
    | cons hsite hrest =>
      next s _ _ =>
      obtain ⟨hread, -⟩ := hr value List.mem_cons_self _ _ _ hw hsite
      obtain ⟨ms, hms⟩ := TypeExpr.encode_object s
      show additionalOf (some (.schema s)) = _
      cases ms <;> simp only [additionalOf, translatedIndex, convert_eq hsite, hread, hms]

theorem unmarked_unionOf {ms : List SourceType} {d : Option Discriminant} {ss : List Schema}
    (h : ∀ s ∈ ss, Unmarked s) : Unmarked (unionOf ms d ss) := by
  unfold unionOf
  split
  · exact ⟨rfl, rfl, rfl⟩
  · split
    · exact ⟨rfl, rfl, rfl⟩
    · exact h _ List.mem_cons_self
    · exact ⟨rfl, rfl, rfl⟩

theorem read_atomicSchema (a : Atomic) : read (atomicSchema a) = atomicType a := by
  cases a with
  | undefined => exact TypeExpr.read_empty
  | bigint => exact (TypeExpr.read_formatted "integer" "int64").trans rfl
  | string => exact (TypeExpr.read_ofType "string").trans rfl
  | number => exact (TypeExpr.read_ofType "number").trans rfl
  | boolean => exact (TypeExpr.read_ofType "boolean").trans rfl
  | null => exact (TypeExpr.read_ofType "null").trans rfl

/-- The schema of a plain form is read as what the form is translated to. -/
theorem read_assemble {form : Form} {ss : List Schema} (hplain : form.Plain)
    (hform : ∀ target, form ≠ .ref target) (h : Sites registry (parts form) t ss t')
    (hw : WellKeyed t) (hr : ∀ type ∈ parts form, Reads registry type) :
    read (assemble form ss) = translatedForm registry form t ∧ Unmarked (assemble form ss) := by
  cases form with
  | any | unknown | void => exact ⟨TypeExpr.read_empty, rfl, rfl, rfl⟩
  | never => exact ⟨TypeExpr.read_never, rfl, rfl, rfl⟩
  | atomic a => exact ⟨read_atomicSchema a, by cases a <;> exact ⟨rfl, rfl, rfl⟩⟩
  | literal v => exact ⟨TypeExpr.read_const v, rfl, rfl, rfl⟩
  | object ps index strictness =>
    obtain ⟨ss₁, t₁, ss₂, rfl, hproperties, hindex⟩ := Sites.split h
    have hlength : ss₁.length = ps.length := by rw [hproperties.length_eq, List.length_map]
    obtain ⟨hreads, hmarks⟩ := hproperties.reads hw fun type htype =>
      hr type (List.mem_append_left _ htype)
    have hw₁ := hw.of_writes hproperties.writes
    let converted := List.zipWith (fun p s => (p.name, decorate p s)) ps ss₁
    have hobject : objectOf ps index strictness (ss₁ ++ ss₂) =
        objectSchema ps index strictness converted ss₂ := by
      have hzip : List.zipWith (fun p s => (p.name, decorate p s)) (ps ++ []) (ss₁ ++ ss₂) =
          converted ++ List.zipWith (fun p s => (p.name, decorate p s)) [] ss₂ :=
        List.zipWith_append hlength.symm
      rw [List.append_nil, List.zipWith_nil_left, List.append_nil] at hzip
      rw [objectOf, hzip, ← hlength, List.drop_left]
    have hnames : converted.map (·.1) = ps.map (·.name) := by
      rw [List.map_zipWith, zipWith_left (Nat.le_of_eq hlength.symm)]
    refine ⟨?_, rfl, rfl, rfl⟩
    rw [assemble, hobject, read_objectSchema _ _ _ _ _ (hnames ▸ hplain.1),
      members_objectSchema hplain.1 hplain.2 hmarks, hreads,
      additionalOf_objectSchema hindex hw₁ fun value hvalue => hr value (List.mem_append_right _ hvalue)]
    rw [translatedForm, translatedProperties_eq, convertAll_eq hproperties]
  | array element =>
    cases h with
    | cons hsite hrest =>
      obtain ⟨hread, -⟩ := hr element List.mem_cons_self _ _ _ hw hsite
      exact ⟨(TypeExpr.read_arrayOf _).trans (congrArg _ hread), rfl, rfl, rfl⟩
  | tuple es =>
    obtain ⟨hreads, -⟩ := Sites.reads h hw hr
    have hlength : ss.length = es.length := h.length_eq.trans (List.length_map _)
    refine ⟨?_, rfl, rfl, rfl⟩
    rw [assemble, read_tupleOf hplain hlength, hreads, translatedForm, translatedElements_eq]
    rfl
  | union ms d =>
    obtain ⟨hreads, hmarks⟩ := Sites.reads h hw hr
    refine ⟨?_, unmarked_unionOf hmarks⟩
    rw [assemble, read_unionOf, translatedForm, translatedVariants_eq, hreads, parts]
    cases isEnumeration ms <;> rfl
  | intersection ms =>
    obtain ⟨hreads, -⟩ := Sites.reads h hw hr
    exact ⟨(TypeExpr.read_allOf ss).trans (congrArg _ hreads), rfl, rfl, rfl⟩
  | enum ms => exact ⟨TypeExpr.read_enum _, rfl, rfl, rfl⟩
  | native name args => exact absurd hplain id
  | ref target => exact absurd rfl (hform target)

theorem finish_eq {type : SourceType} (h : type.PlainNode) {s : Schema} (hs : Unmarked s) :
    finish type s = s := by
  rw [finish, h.constraints, h.description, hs.description]
  cases s
  cases hs.description
  rfl

theorem translated_named {type : SourceType} {name : String}
    (hform : isRegistrable type.form = true) (hname : type.name = some name) (t : SchemaTable) :
    translated registry type t =
      if type.nullable then .union [.ref (t.keyFor name).1, .null] none
      else .ref (t.keyFor name).1 := by
  obtain ⟨form, nullable, optional, name, description, constraints⟩ := type
  cases hname
  rw [translated, if_pos hform]

theorem translated_inline {type : SourceType}
    (hname : isRegistrable type.form = true → type.name = none) (t : SchemaTable) :
    translated registry type t =
      if type.nullable then .union [translatedForm registry type.form t, .null] none
      else translatedForm registry type.form t := by
  obtain ⟨form, nullable, optional, name, description, constraints⟩ := type
  cases name with
  | none => rw [translated]
  | some name =>
    have hform : isRegistrable form = false := Bool.eq_false_iff.mpr fun hc => by cases hname hc
    rw [translated, hform]
    rfl

/-- One step: where the parts of a plain type are read as their translations, so is the type. -/
theorem reads_of_parts {type : SourceType} (hplain : type.PlainNode)
    (hr : ∀ part ∈ parts type.form, Reads registry part) : Reads registry type := by
  intro t s t' hw h
  cases h with
  | @ref _ target _ s _ hform hentry =>
    obtain ⟨hread, hunmarked⟩ := hentry.reads hw
    refine ⟨?_, unmarked_withNull hunmarked _⟩
    have hname : isRegistrable type.form = true → type.name = none := fun hc => by
      rw [hform] at hc
      cases hc
    rw [read_withNull, hread, translated_inline hname, hform, translatedForm, Option.isSome_map]
    rfl
  | named hform hname hentry =>
    obtain ⟨hread, hunmarked⟩ := hentry.reads hw
    refine ⟨?_, unmarked_withNull hunmarked _⟩
    rw [read_withNull, hread, translated_named hform hname, Option.isSome_some, Bool.or_true]
    rfl
  | inline hform hname hbody =>
    cases hbody with
    | ref href _ => exact absurd href (hform _)
    | parts _ hparts =>
      obtain ⟨hread, hunmarked⟩ := read_assemble hplain.form hform hparts hw hr
      rw [finish_eq hplain hunmarked]
      exact ⟨by rw [read_withNull, hread, translated_inline hname],
        unmarked_withNull hunmarked _⟩

theorem reads_of_plain {type : SourceType} (h : type.Plain) : Reads registry type := by
  refine reads_of_parts h.here fun part hpart => ?_
  have hsmaller : part.height < type.height := by
    rw [height_eq type]
    exact Nat.lt_succ_of_le (height_le_of_mem_parts hpart)
  exact reads_of_plain (all_parts h part hpart)
termination_by type.height

end

/-- Whatever is registered and was converted before, what is read from the schema of a plain type
is the translation of the type. -/
theorem read_convert (registry : Registry) (types : List SourceType) {type : SourceType}
    (h : type.Plain) :
    TypeExpr.ofSchema (convert registry type (convertAll registry types {}).2).1.encode =
      translated registry type (convertAll registry types {}).2 := by
  have hw := WellKeyed.fresh.of_writes (sites_convertAll registry types {}).writes
  exact (reads_of_plain h _ _ _ hw (site_convert registry type _)).1

def people : Registry :=
  ⟨[("Person", .ofForm (.object
    [{ name := "name", type := .ofForm (.atomic .string), required := true }] none .strict))]⟩

/-- Some people and how they are sorted. Nothing is registered for the next page. -/
def page : SourceType :=
  .ofForm (.object
    [{ name := "items", type := .ofForm (.array (.ofForm (.ref "Person"))), required := true },
      { name := "next", type := { form := .ref "Page<Person>", nullable := true }, readonly := true },
      { name := "order"
        type := .ofForm (.union [.ofForm (.literal (.str "up")), .ofForm (.literal (.str "down")),
          .ofForm (.atomic .undefined)] none) }]
    none .strict)

theorem plain_page : page.Plain := by
  have hleaf : ∀ {form : Form} {nullable : Bool}, form.Plain → form.types = [] →
      SourceType.Plain { form, nullable } := fun hform htypes =>
    .intro ⟨rfl, rfl, hform⟩ (by rw [htypes]; simp)
  have hitems : SourceType.Plain (.ofForm (.array (.ofForm (.ref "Person")))) :=
    .intro ⟨rfl, rfl, trivial⟩ (List.forall_mem_singleton.mpr (hleaf trivial rfl))
  have horder : SourceType.Plain (.ofForm (.union [.ofForm (.literal (.str "up")),
      .ofForm (.literal (.str "down")), .ofForm (.atomic .undefined)] none)) := by
    refine .intro ⟨rfl, rfl, trivial⟩ ?_
    simp only [SourceType.ofForm, Form.types, List.forall_mem_cons, List.not_mem_nil, false_imp_iff,
      implies_true, and_true]
    exact ⟨hleaf trivial rfl, hleaf trivial rfl, hleaf trivial rfl⟩
  refine .intro ⟨rfl, rfl, by decide, by decide⟩ ?_
  show ∀ u ∈ [_, _, _], SourceType.Plain u
  simp only [List.forall_mem_cons, List.not_mem_nil, false_imp_iff, implies_true, and_true]
  exact ⟨hitems, hleaf trivial rfl, horder⟩

/-- A page after a person was converted: its schema has a reference, and the next page may be
anything. -/
theorem read_convert_page : page.Plain ∧
    TypeExpr.ofSchema (convert people page (convertAll people [.ofForm (.ref "Person")] {}).2).1.encode =
      .object
        [{ name := "items", type := .array (.ref "Person"), required := true },
          { name := "next", type := .union [.unknown, .null] none, readOnly := true },
          { name := "order", type := .enum [.str "up", .str "down"] }]
        (some .forbidden) :=
  ⟨plain_page, (read_convert people [.ofForm (.ref "Person")] plain_page).trans (by rfl)⟩

end SchemaTable
end TypedApi
