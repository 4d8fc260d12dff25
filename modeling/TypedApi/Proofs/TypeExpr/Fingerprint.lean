import Mathlib.Data.Sum.Basic
import TypedApi.Proofs.TypeExpr.Marks
import TypedApi.Proofs.TypeExpr.Layout

/-! What a fingerprint tells about a type.

Similar types have the same fingerprint, whatever the names that it is abridged by. The other
way round, a type comes back from its fingerprint, up to similarity, as long as no name and no
format in it can be taken for the marks between the parts (`Legible`). One type is told from
another by reading both texts together: the texts open alike, so the types are of one kind, and
then part by part, each of which shows where it stops. -/
namespace TypedApi.TypeExpr

/-! ### How a text opens -/

/-- The kinds of types that a text tells apart as it opens. -/
inductive Form where
  | ref
  | primitive (kind : Primitive)
  | binary | const | enum | array | tuple | object | union | intersection | unknown

def Form.opening : Form → String
  | .ref => "$"
  | .primitive kind => kind.name
  | .binary => "binary"
  | .const => "const("
  | .enum => "enum("
  | .array => "["
  | .tuple => "tuple("
  | .object => "\x7b"
  | .union => "anyOf("
  | .intersection => "allOf("
  | .unknown => "unknown"

def form : TypeExpr → Form
  | .ref _ => .ref
  | .primitive kind _ => .primitive kind
  | .binary => .binary
  | .const _ => .const
  | .enum _ => .enum
  | .array _ => .array
  | .tuple _ _ => .tuple
  | .object _ _ => .object
  | .union _ _ => .union
  | .intersection _ => .intersection
  | .unknown => .unknown

def Form.all : List Form :=
  [.ref, .primitive .string, .primitive .number, .primitive .integer, .primitive .boolean,
    .primitive .null, .binary, .const, .enum, .array, .tuple, .object, .union, .intersection,
    .unknown]

deriving instance DecidableEq for Form

theorem Form.mem_all (f : Form) : f ∈ Form.all := by
  cases f with
  | primitive kind => cases kind <;> decide
  | _ => decide

theorem Form.opening_inj {f g : Form} (h : f.opening.toList <+: g.opening.toList) : f = g :=
  have hall : ∀ f ∈ Form.all, ∀ g ∈ Form.all, f.opening.toList <+: g.opening.toList → f = g := by
    decide
  hall f f.mem_all g g.mem_all h

theorem Form.opening_head (f : Form) :
    ∃ c more, f.opening.toList = c :: more ∧ c ∉ '.' :: stops := by
  have hall : ∀ f ∈ Form.all,
      f.opening.toList.head?.any (fun c => decide (c ∉ '.' :: stops)) = true := by decide
  obtain ⟨c, hc, hstops⟩ := (Option.any_eq_true _ _).mp (hall f f.mem_all)
  obtain ⟨more, hmore⟩ := List.head?_eq_some_iff.mp hc
  exact ⟨c, more, hmore, of_decide_eq_true hstops⟩

theorem startsWith_opening (t : TypeExpr) : t.form.opening.toList <+: t.fingerprint.toList := by
  have happend : ∀ s s' : String, s.toList <+: (s ++ s').toList := fun s s' => by
    rw [String.toList_append]
    exact List.prefix_append _ _
  cases t with
  | primitive kind format =>
    cases format with
    | none => exact List.prefix_refl _
    | some format => exact (happend _ _).trans ((happend _ _).trans (happend _ _))
  | ref name => exact happend _ _
  | binary => exact List.prefix_refl _
  | unknown => exact List.prefix_refl _
  | object members additional => exact (happend _ _).trans ((happend _ _).trans (happend _ _))
  | _ => exact (happend _ _).trans (happend _ _)

theorem form_eq {t u : TypeExpr} {r r' : List Char}
    (h : t.fingerprint.toList ++ r = u.fingerprint.toList ++ r') : t.form = u.form := by
  have ht := (startsWith_opening t).trans (List.prefix_append _ r)
  have hu := (startsWith_opening u).trans (List.prefix_append _ r')
  rw [h] at ht
  obtain hpre | hpre := List.prefix_or_prefix_of_prefix ht hu
  · exact Form.opening_inj hpre
  · exact (Form.opening_inj hpre).symm

/-- No mark that ends a list of parts begins a type. -/
theorem not_begins_fingerprint (marks : List Char) (hmarks : marks ⊆ '.' :: stops) (t : TypeExpr)
    (rest : List Char) : ¬ Begins marks (t.fingerprint.toList ++ rest) := by
  rintro ⟨d, hd, _, heq⟩
  obtain ⟨c, more, hopening, hc⟩ := t.form.opening_head
  obtain ⟨body, hbody⟩ := startsWith_opening t
  rw [← hbody, hopening] at heq
  exact hc ((List.cons.inj heq).1 ▸ hmarks hd)

/-! ### One kind of type after the other -/

theorem tells_ref {a b : String} (ha : ∀ c ∈ a.toList, c ∉ stops) (hb : ∀ c ∈ b.toList, c ∉ stops) :
    Tells fingerprint Similar (.ref a) (.ref b) := by
  intro r r' hr hr' h
  simp only [fingerprint, abridged, String.toList_append, List.append_assoc] at h
  obtain ⟨hname, rfl⟩ := stretch_inj ha hb hr.head hr'.head (List.append_cancel_left h)
  rw [String.toList_inj.mp hname]
  exact ⟨.ref b, rfl⟩

theorem tells_primitive {kind : Primitive} {f g : Option String} (hf : ∀ s ∈ f, ')' ∉ s.toList)
    (hg : ∀ s ∈ g, ')' ∉ s.toList) :
    Tells fingerprint Similar (.primitive kind f) (.primitive kind g) := by
  have hopen : ∀ {r : List Char}, Stops r → ∀ more, r ≠ '(' :: more := fun hr more heq => by
    rw [heq] at hr
    exact absurd (hr.head '(' rfl) (by decide)
  intro r r' hr hr' h
  cases f with
  | none =>
    cases g with
    | none => exact ⟨.primitive kind none, List.append_cancel_left h⟩
    | some g =>
      simp only [fingerprint, abridged, String.toList_append, List.append_assoc] at h
      exact absurd (List.append_cancel_left h) (hopen hr _)
  | some f =>
    cases g with
    | none =>
      simp only [fingerprint, abridged, String.toList_append, List.append_assoc] at h
      exact absurd (List.append_cancel_left h).symm (hopen hr' _)
    | some g =>
      simp only [fingerprint, abridged, String.toList_append, List.append_assoc] at h
      obtain ⟨hformat, hrest⟩ := stretch_mark_inj (hf f rfl) (hg g rfl)
        (List.append_cancel_left (List.append_cancel_left h))
      rw [String.toList_inj.mp hformat]
      exact ⟨.primitive kind (some g), hrest⟩

theorem tells_compact {v w : Json} (hv : v.Readable) (hw : w.Readable) :
    Tells Json.compact Eq v w := by
  intro r r' hr hr' h
  rw [Json.toList_compact_append, Json.toList_compact_append] at h
  exact Json.write_inj hr.delimited hr'.delimited v hv w hw h

theorem tells_const {v w : Json} (hv : v.Readable) (hw : w.Readable) :
    Tells fingerprint Similar (.const v) (.const w) := by
  intro r r' hr hr' h
  simp only [fingerprint, abridged, String.toList_append, List.append_assoc] at h
  obtain ⟨rfl, hrest⟩ := tells_compact hv hw (stops_cons (by decide) r) (stops_cons (by decide) r')
    (List.append_cancel_left h)
  exact ⟨.const v, (List.cons.inj hrest).2⟩

/-- The text of a value begins as no closing mark does. -/
theorem not_begins_compact {v : Json} (hv : v.Readable) (rest : List Char) :
    ¬ Begins [')'] (v.compact.toList ++ rest) := by
  rintro ⟨d, hd, _, heq⟩
  obtain rfl := List.mem_singleton.mp hd
  obtain ⟨c, more, hwrite, -⟩ := Json.opens_write hv []
  rw [Json.compact, String.toList_ofList, hwrite, List.cons_append, List.cons.injEq] at heq
  exact Json.write_ne_parenthesis hv more (heq.1 ▸ hwrite)

theorem tells_enum {vs ws : List Json} (hv : ∀ v ∈ vs, v.Readable) (hw : ∀ w ∈ ws, w.Readable) :
    Tells fingerprint Similar (.enum vs) (.enum ws) := by
  intro r r' hr hr' h
  simp only [fingerprint, abridged, String.toList_append, List.append_assoc] at h
  obtain ⟨hvalues, hrest⟩ := commas_inj [')'] (by decide) (by decide) ⟨_, List.mem_cons_self, _, rfl⟩
    ⟨_, List.mem_cons_self, _, rfl⟩ (fun v hm => not_begins_compact (hm.elim (hv v) (hw v)))
    (fun v hvs w hws => tells_compact (hv v hvs) (hw w hws)) (List.append_cancel_left h)
  rw [List.forall₂_eq_eq_eq] at hvalues
  subst hvalues
  exact ⟨.enum vs, (List.cons.inj hrest).2⟩

/-! ### Types inside a type -/

theorem tells_array {t u : TypeExpr} (h : Tells fingerprint Similar t u) :
    Tells fingerprint Similar (.array t) (.array u) := by
  intro r r' hr hr' heq
  rw [fingerprint_eq_layout (.array t), fingerprint_eq_layout (.array u)] at heq
  simp only [layout, String.toList_append, List.append_assoc] at heq
  obtain ⟨hitem, hrest⟩ := h (stops_cons (by decide) r) (stops_cons (by decide) r')
    (List.append_cancel_left heq)
  exact ⟨.array hitem, (List.cons.inj hrest).2⟩

/-- A part of a tuple: one of the elements, or the type of the rest. -/
def elementText : TypeExpr ⊕ TypeExpr → String :=
  Sum.elim fingerprint fun t => "..." ++ fingerprint t

def tupleParts (elements : List TypeExpr) (rest : Option TypeExpr) : List (TypeExpr ⊕ TypeExpr) :=
  elements.map .inl ++ rest.toList.map .inr

theorem fingerprint_tuple (elements : List TypeExpr) (rest : Option TypeExpr) :
    fingerprint (.tuple elements rest) =
      "tuple(" ++ commas ((tupleParts elements rest).map elementText) ++ ")" := by
  rw [fingerprint_eq_layout, layout, tupleParts, List.map_append, List.map_map, List.map_map]
  rfl

theorem forall₂_of_tupleParts {R : TypeExpr → TypeExpr → Prop} {ts us : List TypeExpr}
    {r s : Option TypeExpr}
    (h : List.Forall₂ (Sum.LiftRel R R) (tupleParts ts r) (tupleParts us s)) :
    List.Forall₂ R ts us ∧ Option.Rel R r s := by
  induction ts generalizing us with
  | nil =>
    cases us with
    | nil =>
      cases r <;> cases s <;> cases h
      · exact ⟨.nil, .none⟩
      next hrest _ =>
        cases hrest with
        | inr hrest => exact ⟨.nil, .some hrest⟩
    | cons u us =>
      cases r <;> cases h
      next hrest _ => cases hrest
  | cons t ts ih =>
    cases us with
    | nil =>
      cases s <;> cases h
      next hrest _ => cases hrest
    | cons u us =>
      cases h with
      | cons hhead htail =>
        cases hhead with
        | inl hhead =>
          obtain ⟨helements, hrest⟩ := ih htail
          exact ⟨.cons hhead helements, hrest⟩

theorem tells_element {p q : TypeExpr ⊕ TypeExpr}
    (h : ∀ t, p = .inl t ∨ p = .inr t → ∀ u, q = .inl u ∨ q = .inr u → Tells fingerprint Similar t u) :
    Tells elementText (Sum.LiftRel Similar Similar) p q := by
  have hdot : ∀ (t : TypeExpr) (r more : List Char), t.fingerprint.toList ++ r ≠ '.' :: more :=
    fun t r more heq => not_begins_fingerprint ['.'] (by decide) t r
      ⟨_, List.mem_singleton_self _, more, heq⟩
  intro r r' hr hr' heq
  rcases p with t | t <;> rcases q with u | u <;>
    simp only [elementText, Sum.elim_inl, Sum.elim_inr, String.toList_append, List.append_assoc] at heq
  · obtain ⟨hsimilar, rfl⟩ := h t (.inl rfl) u (.inl rfl) hr hr' heq
    exact ⟨.inl hsimilar, rfl⟩
  · exact absurd heq (hdot t _ _)
  · exact absurd heq.symm (hdot u _ _)
  · obtain ⟨hsimilar, rfl⟩ := h t (.inr rfl) u (.inr rfl) hr hr' (List.append_cancel_left heq)
    exact ⟨.inr hsimilar, rfl⟩

theorem tells_tuple {ts us : List TypeExpr} {r s : Option TypeExpr}
    (h : ∀ t ∈ (tuple ts r).children, ∀ u ∈ (tuple us s).children, Tells fingerprint Similar t u) :
    Tells fingerprint Similar (.tuple ts r) (.tuple us s) := by
  have hmem : ∀ {es : List TypeExpr} {rest : Option TypeExpr} {p : TypeExpr ⊕ TypeExpr},
      p ∈ tupleParts es rest → ∀ t, p = .inl t ∨ p = .inr t → t ∈ (tuple es rest).children := by
    intro es rest p hp t ht
    simp only [tupleParts, List.mem_append, List.mem_map, Option.mem_toList] at hp
    rcases hp with ⟨e, he, rfl⟩ | ⟨e, he, rfl⟩
    · rcases ht with ht | ht <;> cases ht
      exact mem_children_element he
    · rcases ht with ht | ht <;> cases ht
      exact mem_children_rest he
  have hopen : ∀ (p : TypeExpr ⊕ TypeExpr) (rest : List Char),
      ¬ Begins [')'] ((elementText p).toList ++ rest) := by
    rintro (t | t) rest
    · exact not_begins_fingerprint [')'] (by decide) t rest
    · rintro ⟨c, hc, _, heq⟩
      obtain rfl := List.mem_singleton.mp hc
      simp only [elementText, Sum.elim_inr, String.toList_append, List.append_assoc] at heq
      exact absurd (List.cons.inj heq).1 (by decide)
  intro x y hx hy heq
  simp only [fingerprint_tuple, String.toList_append, List.append_assoc] at heq
  obtain ⟨hparts, hrest⟩ := commas_inj [')'] (by decide) (by decide)
    ⟨_, List.mem_cons_self, _, rfl⟩ ⟨_, List.mem_cons_self, _, rfl⟩ (fun p _ => hopen p)
    (fun p hp q hq => tells_element fun t ht u hu => h t (hmem hp t ht) u (hmem hq u hu))
    (List.append_cancel_left heq)
  obtain ⟨helements, hlast⟩ := forall₂_of_tupleParts hparts
  exact ⟨.tuple helements hlast, (List.cons.inj hrest).2⟩

theorem tells_types {ts us : List TypeExpr} {r r' : List Char}
    (h : ∀ t ∈ ts, ∀ u ∈ us, Tells fingerprint Similar t u)
    (heq : (commas (ts.map fingerprint)).toList ++ (')' :: r) =
      (commas (us.map fingerprint)).toList ++ (')' :: r')) :
    List.Forall₂ Similar ts us ∧ r = r' := by
  obtain ⟨htypes, hrest⟩ := commas_inj [')'] (by decide) (by decide)
    ⟨_, List.mem_cons_self, _, rfl⟩ ⟨_, List.mem_cons_self, _, rfl⟩
    (fun t _ => not_begins_fingerprint [')'] (by decide) t) h heq
  exact ⟨htypes, (List.cons.inj hrest).2⟩

/-! ### Objects -/

/-- The name of a member is all that stands in front of the first colon, and it cannot be taken
for the end of the object. -/
def LegibleName (name : String) : Prop :=
  ':' ∉ name.toList ∧ ∀ c ∈ name.toList.head?, c ∉ ['\x7d', '|']

instance (name : String) : Decidable (LegibleName name) :=
  decidable_of_iff (':' ∉ name.toList ∧
    name.toList.head?.all (fun c => decide (c ∉ ['\x7d', '|'])) = true) <| by
      rw [LegibleName]
      cases name.toList.head? <;> simp

theorem tells_member {m n : Member} (hm : LegibleName m.name) (hn : LegibleName n.name)
    (h : Tells fingerprint Similar m.type n.type) :
    Tells (memberText fingerprint) SimilarMember m n := by
  have hstretch : ∀ m : Member, LegibleName m.name →
      ':' ∉ m.name.toList ++ [if m.required then '!' else '?'] := by
    intro m hm hc
    rcases List.mem_append.mp hc with hc | hc
    · exact hm.1 hc
    · cases hrequired : m.required <;> rw [hrequired] at hc <;> exact absurd hc (by decide)
  have htext : ∀ (m : Member) (r : List Char), (memberText fingerprint m).toList ++ r =
      (m.name.toList ++ [if m.required then '!' else '?']) ++
        ':' :: (m.type.fingerprint.toList ++ r) := by
    intro m r
    cases hrequired : m.required <;> simp [memberText, hrequired]
  intro r r' hr hr' heq
  rw [htext, htext] at heq
  obtain ⟨hhead, htail⟩ := stretch_mark_inj (hstretch m hm) (hstretch n hn) heq
  obtain ⟨hname, hmark⟩ := List.append_inj' hhead rfl
  obtain ⟨htype, rfl⟩ := h hr hr' htail
  refine ⟨.intro (String.toList_inj.mp hname) ?_ htype, rfl⟩
  cases hrm : m.required <;> cases hrn : n.required <;> rw [hrm, hrn] at hmark <;>
    first | rfl | exact absurd hmark (by decide)

theorem not_begins_member {m : Member} (hm : LegibleName m.name) (rest : List Char) :
    ¬ Begins ['\x7d', '|'] ((memberText fingerprint m).toList ++ rest) := by
  rintro ⟨c, hc, more, heq⟩
  simp only [memberText, String.toList_append, List.append_assoc] at heq
  cases hname : m.name.toList with
  | nil =>
    rw [hname] at heq
    cases hrequired : m.required <;> rw [hrequired] at heq <;>
      exact absurd ((List.cons.inj heq).1 ▸ hc) (by decide)
  | cons d ds =>
    rw [hname] at heq
    exact hm.2 c (by rw [hname, (List.cons.inj heq).1]; rfl) hc

/-- What stands behind the members shows what the object has besides. -/
theorem tells_additional {a b : Option Additional}
    (h : ∀ t, a = some (.of t) → ∀ u, b = some (.of u) → Tells fingerprint Similar t u)
    {r r' : List Char}
    (heq : (additionalText fingerprint a).toList ++ '\x7d' :: r =
      (additionalText fingerprint b).toList ++ '\x7d' :: r') :
    SimilarAdditional a b ∧ r = r' := by
  rcases a with _ | _ | _ | t <;> rcases b with _ | _ | _ | u <;>
    simp [additionalText] at heq
  · exact ⟨.none, heq⟩
  · exact ⟨.any, heq⟩
  · exact ⟨.forbidden, heq⟩
  · obtain ⟨htype, hrest⟩ := h t rfl u rfl (stops_cons (by decide) r) (stops_cons (by decide) r') heq
    exact ⟨.of htype, (List.cons.inj hrest).2⟩

theorem begins_additional (a : Option Additional) (rest : List Char) :
    Begins ['\x7d', '|'] ((additionalText fingerprint a).toList ++ '\x7d' :: rest) := by
  rcases a with _ | _ | _ | t
  · exact ⟨'\x7d', by decide, _, rfl⟩
  · exact ⟨'|', by decide, _, rfl⟩
  · exact ⟨'|', by decide, _, rfl⟩
  · rw [additionalText, String.toList_append]
    exact ⟨'|', by decide, _, rfl⟩

theorem tells_object {ms ns : List Member} {a b : Option Additional}
    (hms : ∀ m ∈ ms, LegibleName m.name) (hns : ∀ n ∈ ns, LegibleName n.name)
    (h : ∀ t ∈ (object ms a).children, ∀ u ∈ (object ns b).children, Tells fingerprint Similar t u) :
    Tells fingerprint Similar (.object ms a) (.object ns b) := by
  let text := memberText fingerprint
  let le := fun m n : Member => decide (text m ≤ text n)
  have hsorted : ∀ ms : List Member, sorted (ms.map text) = (ms.mergeSort le).map text :=
    fun ms => (List.map_mergeSort (f := text) (r := le) fun _ _ _ _ => rfl).symm
  have hmem : ∀ {ms : List Member} {m : Member}, m ∈ ms.mergeSort le → m ∈ ms :=
    fun hm => (List.mergeSort_perm _ le).mem_iff.mp hm
  intro r r' hr hr' heq
  rw [fingerprint_eq_layout (.object ms a), fingerprint_eq_layout (.object ns b), layout, layout, hsorted,
    hsorted] at heq
  simp only [String.toList_append, List.append_assoc] at heq
  obtain ⟨hmembers, hbehind⟩ := commas_inj (R := SimilarMember) ['\x7d', '|'] (by decide)
    (by decide) (begins_additional a r) (begins_additional b r')
    (fun m hm => not_begins_member (hm.elim (hms m ∘ hmem) (hns m ∘ hmem)))
    (fun m hm n hn => tells_member (hms m (hmem hm)) (hns n (hmem hn))
      (h _ (mem_children_member (hmem hm)) _ (mem_children_member (hmem hn))))
    (List.append_cancel_left heq)
  have hof : ∀ {ms : List Member} {a : Option Additional} (t), a = some (.of t) →
      t ∈ (object ms a).children := fun t ht => ht ▸ mem_children_additional
  obtain ⟨hadditional, rfl⟩ := tells_additional (fun t ht u hu => h t (hof t ht) u (hof u hu)) hbehind
  have hperm : Relation.Comp List.Perm (List.Forall₂ SimilarMember) (ms.mergeSort le) ns := by
    rw [← List.forall₂_comp_perm_eq_perm_comp_forall₂]
    exact ⟨_, hmembers, List.mergeSort_perm ns le⟩
  obtain ⟨ms', hperm, hmembers⟩ := hperm
  exact ⟨.object ((List.mergeSort_perm ms le).symm.trans hperm) hmembers hadditional, rfl⟩

/-! ### Types that come back -/

/-- Neither the names and formats of a type nor its values can be taken for the marks around
them. This says nothing of the types inside it. -/
def Clear : TypeExpr → Prop
  | .ref name => ∀ c ∈ name.toList, c ∉ stops
  | .primitive _ format => ∀ f ∈ format, ')' ∉ f.toList
  | .const v => v.Readable
  | .enum vs => ∀ v ∈ vs, v.Readable
  | .object ms _ => ∀ m ∈ ms, LegibleName m.name
  | _ => True

theorem Clear.mapChildren (f : TypeExpr → TypeExpr) {t : TypeExpr} (h : t.Clear) :
    (t.mapChildren f).Clear := by
  cases t with
  | object members additional =>
    intro m hm
    obtain ⟨n, hn, rfl⟩ := List.mem_map.mp hm
    exact h n hn
  | _ => exact h

/-- A type whose parts can all be read from its fingerprint. -/
def Legible (t : TypeExpr) : Prop := t.All Clear

theorem tells_fingerprint {t u : TypeExpr} (ht : t.Legible) (hu : u.Legible) :
    Tells fingerprint Similar t u := by
  induction t using induct generalizing u with
  | step t ih =>
    have hchildren : ∀ c ∈ t.children, ∀ d ∈ u.children, Tells fingerprint Similar c d :=
      fun c hc d hd => ih c hc (ht.child c hc) (hu.child d hd)
    intro r r' hr hr' heq
    have hform := form_eq heq
    cases t with
    | ref a =>
      cases u with
      | ref b => exact tells_ref ht.here hu.here hr hr' heq
      | _ => cases hform
    | primitive kind f =>
      cases u with
      | primitive kind' g =>
        obtain rfl : kind = kind' := Form.primitive.inj hform
        exact tells_primitive ht.here hu.here hr hr' heq
      | _ => cases hform
    | binary =>
      cases u with
      | binary => exact ⟨.binary, List.append_cancel_left heq⟩
      | _ => cases hform
    | const v =>
      cases u with
      | const w => exact tells_const ht.here hu.here hr hr' heq
      | _ => cases hform
    | enum vs =>
      cases u with
      | enum ws => exact tells_enum ht.here hu.here hr hr' heq
      | _ => cases hform
    | array item =>
      cases u with
      | array item' =>
        exact tells_array (hchildren item mem_children_array item' mem_children_array) hr hr' heq
      | _ => cases hform
    | tuple elements rest =>
      cases u with
      | tuple elements' rest' => exact tells_tuple hchildren hr hr' heq
      | _ => cases hform
    | object members additional =>
      cases u with
      | object members' additional' => exact tells_object ht.here hu.here hchildren hr hr' heq
      | _ => cases hform
    | union variants d =>
      cases u with
      | union variants' d' =>
        rw [fingerprint_eq_layout (.union variants d), fingerprint_eq_layout (.union variants' d')] at heq
        simp only [layout, String.toList_append, List.append_assoc] at heq
        obtain ⟨hvariants, rfl⟩ := tells_types hchildren (List.append_cancel_left heq)
        exact ⟨.union hvariants d d', rfl⟩
      | _ => cases hform
    | intersection members =>
      cases u with
      | intersection members' =>
        rw [fingerprint_eq_layout (.intersection members),
          fingerprint_eq_layout (.intersection members')] at heq
        simp only [layout, String.toList_append, List.append_assoc] at heq
        obtain ⟨hmembers, rfl⟩ := tells_types hchildren (List.append_cancel_left heq)
        exact ⟨.intersection hmembers, rfl⟩
      | _ => cases hform
    | unknown =>
      cases u with
      | unknown => exact ⟨.unknown, List.append_cancel_left heq⟩
      | _ => cases hform

theorem similar_of_fingerprint_eq {t u : TypeExpr} (ht : t.Legible) (hu : u.Legible)
    (h : t.fingerprint = u.fingerprint) : Similar t u :=
  (tells_fingerprint ht hu (.inl rfl) (.inl rfl) (by rw [h])).1

/-- Legible types have the same fingerprint exactly if they are similar. -/
theorem fingerprint_eq_iff_similar {t u : TypeExpr} (ht : t.Legible) (hu : u.Legible) :
    t.fingerprint = u.fingerprint ↔ Similar t u :=
  ⟨similar_of_fingerprint_eq ht hu, Similar.abridged_eq _⟩

/-- A page of users, its members in either order. -/
theorem fingerprint_eq_iff_similar_page :
    let items : Member := { name := "items", type := .array (.ref "User"), required := true }
    let total : Member := { name := "total", type := .primitive .integer none }
    let page := TypeExpr.object [items, total] (some .any)
    let egap := TypeExpr.object [{ total with description := some "All pages" }, items] (some .any)
    page.Legible ∧ egap.Legible ∧ (page.fingerprint = egap.fingerprint ↔ Similar page egap) := by
  intro items total page egap
  have huser : Clear (.ref "User") := by
    simp only [Clear]
    exact Json.forall_mem_of_all (by decide)
  have hitems : Legible (.array (.ref "User")) :=
    .intro trivial (List.forall_mem_singleton.mpr (all_of_childless rfl huser))
  have htotal : Legible (.primitive .integer none) := all_of_childless rfl nofun
  have hpage : page.Legible := .intro (by simp only [Clear]; decide)
    (List.forall_mem_cons.mpr ⟨hitems, List.forall_mem_singleton.mpr htotal⟩)
  have hegap : egap.Legible := .intro (by simp only [Clear]; decide)
    (List.forall_mem_cons.mpr ⟨htotal, List.forall_mem_singleton.mpr hitems⟩)
  exact ⟨hpage, hegap, fingerprint_eq_iff_similar hpage hegap⟩

/-- The members of an object in order are shown as they stand. -/
theorem fingerprint_ordered {ms : List Member} {a : Option Additional}
    (h : (ms.map (memberText fingerprint)).Pairwise (· ≤ ·)) :
    fingerprint (.object ms a) = "\x7b" ++ commas (ms.map (memberText fingerprint)) ++
      additionalText fingerprint a ++ "\x7d" := by
  rw [fingerprint_eq_layout, layout, sorted, List.mergeSort_of_pairwise (h.imp decide_eq_true)]

theorem Similar.single_length {name : String} {ms ns : List Member}
    (h : Similar (single name (.object ms none)) (single name (.object ns none))) :
    ms.length = ns.length := by
  cases h with
  | object order members _ =>
    obtain rfl := List.perm_singleton.mp order.symm
    cases members with
    | cons hmember _ =>
      cases hmember with
      | intro _ _ htype =>
        cases htype with
        | object order members _ => exact order.length_eq.trans members.length_eq

/-- A name with a colon in it can be taken for two members. -/
theorem fingerprint_misread :
    let one := single "p" (single "a!:string,b" .string)
    let two := single "p" (.object [{ name := "a", type := .string, required := true },
      { name := "b", type := .string, required := true }] none)
    one.fingerprint = two.fingerprint ∧ ¬ Similar one two := by
  refine ⟨?_, fun h => absurd h.single_length (by decide)⟩
  rw [fingerprint, abridged_single, fingerprint, abridged_single, within_none, single,
    fingerprint_ordered (by decide), fingerprint_ordered (by decide)]
  rfl

end TypedApi.TypeExpr
