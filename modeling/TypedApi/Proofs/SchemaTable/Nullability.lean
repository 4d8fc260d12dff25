import TypedApi.Proofs.SchemaTable.Placement

/-! Unions with a member that may be null.

`AllowsNull` says which schemas accept null, `RefusesNull` which do not, and no schema does both
(`AllowsNull.not_refuses`). The schema of a union with a member that may be null accepts null, for one
of its alternatives is a schema or null, whether it stands at the site or in the entry that the site
refers to (`allowsNull_convert`). Where exactly one alternative may hold, the others have to refuse null
for that. Two more kinds of unions are not covered: a union of literals enumerates their values, of
which null need not be one, and the site of a union whose name has an entry already refers to what is
there (`not_allowsNull_convert`). -/
namespace TypedApi.SchemaTable

open OpenApi

/-! ### Schemas that accept null -/

mutual

/-- No keyword of the schema refuses null, where references lead into `named`. -/
inductive AllowsNull (named : List (String × Schema)) : Schema → Prop
  | intro {s : Schema}
      (type : ∀ names ∈ s.type,
        names = .single "null" ∨ ∃ all, names = .multiple all ∧ "null" ∈ all)
      (enum : ∀ values ∈ s.enumValues, Json.null ∈ values)
      (const : ∀ value ∈ s.constValue, value = .null)
      (ref : ∀ r, s.ref = some r → TargetAllowsNull named r)
      (anyOf : ∀ us, s.anyOf = some us → SomeAllowsNull named us)
      (oneOf : ∀ us, s.oneOf = some us → OneAllowsNull named us)
      (allOf : ∀ us, s.allOf = some us → ∀ u ∈ us, AllowsNull named u)
      (negated : ∀ u, s.negated = some u → RefusesNull named u) : AllowsNull named s

inductive SomeAllowsNull (named : List (String × Schema)) : List Schema → Prop
  | intro {us : List Schema} {u : Schema} (hmem : u ∈ us) (h : AllowsNull named u) :
      SomeAllowsNull named us

/-- The alternative at one place accepts null, and those at all other places refuse it. -/
inductive OneAllowsNull (named : List (String × Schema)) : List Schema → Prop
  | intro {us : List Schema} {i : Nat} {u : Schema} (hat : us[i]? = some u) (h : AllowsNull named u)
      (others : ∀ j v, us[j]? = some v → j ≠ i → RefusesNull named v) : OneAllowsNull named us

inductive TargetAllowsNull (named : List (String × Schema)) : String → Prop
  | intro {key : String} {s : Schema} (hentry : named.lookup key = some s)
      (h : AllowsNull named s) : TargetAllowsNull named (componentRef key)

/-- Some keyword of the schema refuses null. -/
inductive RefusesNull (named : List (String × Schema)) : Schema → Prop
  | single {s : Schema} {name : String} (h : s.type = some (.single name)) (hname : name ≠ "null") :
      RefusesNull named s
  | multiple {s : Schema} {names : List String} (h : s.type = some (.multiple names))
      (hnames : "null" ∉ names) : RefusesNull named s
  | enum {s : Schema} {values : List Json} (h : s.enumValues = some values)
      (hvalues : .null ∉ values) : RefusesNull named s
  | const {s : Schema} {value : Json} (h : s.constValue = some value) (hvalue : value ≠ .null) :
      RefusesNull named s
  | ref {s : Schema} {r : String} (h : s.ref = some r) (htarget : TargetRefusesNull named r) :
      RefusesNull named s
  | anyOf {s : Schema} {us : List Schema} (h : s.anyOf = some us)
      (hus : ∀ u ∈ us, RefusesNull named u) : RefusesNull named s
  | noneOf {s : Schema} {us : List Schema} (h : s.oneOf = some us)
      (hus : ∀ u ∈ us, RefusesNull named u) : RefusesNull named s
  /-- Exactly one alternative may hold, but null is accepted at two places. -/
  | severalOf {s : Schema} {us : List Schema} (h : s.oneOf = some us) {i j : Nat} {u v : Schema}
      (hi : us[i]? = some u) (hj : us[j]? = some v) (hne : i ≠ j) (hu : AllowsNull named u)
      (hv : AllowsNull named v) : RefusesNull named s
  | allOf {s u : Schema} {us : List Schema} (h : s.allOf = some us) (hmem : u ∈ us)
      (hu : RefusesNull named u) : RefusesNull named s
  | negated {s u : Schema} (h : s.negated = some u) (hu : AllowsNull named u) : RefusesNull named s

inductive TargetRefusesNull (named : List (String × Schema)) : String → Prop
  | intro {key : String} {s : Schema} (hentry : named.lookup key = some s)
      (h : RefusesNull named s) : TargetRefusesNull named (componentRef key)

end

section AllowsNull

variable {named : List (String × Schema)} {s : Schema} {key : String}

/-- An entry is found under one key only. -/
theorem entry_unique {key other : String} {u : Schema} (hs : named.lookup key = some s)
    (hu : named.lookup other = some u) (h : componentRef key = componentRef other) : s = u := by
  cases (String.append_right_inj componentRoot).mp h
  exact Option.some.inj (hs.symm.trans hu)

-- The induction is on the first verdict of the two, and each keyword meets the other one there.
mutual

theorem AllowsNull.not_refuses {s : Schema} : AllowsNull named s → ¬ RefusesNull named s
  | .intro type enum const ref anyOf oneOf allOf negated, h => by
    cases h with
    | single h hname => simpa [hname] using type _ h
    | multiple h hnames => simpa [hnames] using type _ h
    | enum h hvalues => exact hvalues (enum _ h)
    | const h hvalue => exact hvalue (const _ h)
    | ref h htarget => exact (ref _ h).not_refuses htarget
    | anyOf h hus => exact (anyOf _ h).not_refused hus
    | noneOf h hus => exact (oneOf _ h).not_refused hus
    | severalOf h hi hj hne hu hv => exact (oneOf _ h).not_several hi hj hne hu hv
    | allOf h hmem hu => exact (allOf _ h _ hmem).not_refuses hu
    | negated h hu => exact (negated _ h).not_allows hu
termination_by structural h => h

theorem SomeAllowsNull.not_refused {us : List Schema} :
    SomeAllowsNull named us → ¬ ∀ u ∈ us, RefusesNull named u
  | .intro hmem h, hus => h.not_refuses (hus _ hmem)
termination_by structural h => h

theorem OneAllowsNull.not_refused {us : List Schema} :
    OneAllowsNull named us → ¬ ∀ u ∈ us, RefusesNull named u
  | .intro hat h _, hus => h.not_refuses (hus _ (List.mem_of_getElem? hat))
termination_by structural h => h

theorem OneAllowsNull.not_several {us : List Schema} {i j : Nat} {u v : Schema} :
    OneAllowsNull named us → us[i]? = some u → us[j]? = some v → i ≠ j → AllowsNull named u →
      ¬ AllowsNull named v
  | .intro (i := k) _ _ others, hi, hj, hne, hu, hv => by
    by_cases hik : i = k
    · exact (others j v hj (hik ▸ hne.symm)).not_allows hv
    · exact (others i u hi hik).not_allows hu
termination_by structural h => h

theorem TargetAllowsNull.not_refuses {r : String} :
    TargetAllowsNull named r → ¬ TargetRefusesNull named r
  | .intro hentry h, htarget => by
    generalize hr : componentRef _ = r at htarget
    obtain ⟨hother, hs⟩ := htarget
    exact h.not_refuses (entry_unique hentry hother hr ▸ hs)
termination_by structural h => h

theorem RefusesNull.not_allows {s : Schema} : RefusesNull named s → ¬ AllowsNull named s
  | .single h hname, .intro type _ _ _ _ _ _ _ => by simpa [hname] using type _ h
  | .multiple h hnames, .intro type _ _ _ _ _ _ _ => by simpa [hnames] using type _ h
  | .enum h hvalues, .intro _ enum _ _ _ _ _ _ => hvalues (enum _ h)
  | .const h hvalue, .intro _ _ const _ _ _ _ _ => hvalue (const _ h)
  | .ref h htarget, .intro _ _ _ ref _ _ _ _ => htarget.not_allows (ref _ h)
  | .anyOf h hus, .intro _ _ _ _ anyOf _ _ _ => by
    obtain ⟨hmem, hu⟩ := anyOf _ h
    exact (hus _ hmem).not_allows hu
  | .noneOf h hus, .intro _ _ _ _ _ oneOf _ _ => by
    obtain ⟨hat, hu, -⟩ := oneOf _ h
    exact (hus _ (List.mem_of_getElem? hat)).not_allows hu
  | .severalOf (i := i) (j := j) h hi hj hne hu hv, .intro _ _ _ _ _ oneOf _ _ => by
    cases oneOf _ h with
    | @intro _ k _ _ _ others =>
      by_cases hik : i = k
      · exact hv.not_refuses (others j _ hj (hik ▸ hne.symm))
      · exact hu.not_refuses (others i _ hi hik)
  | .allOf h hmem hu, .intro _ _ _ _ _ _ allOf _ => hu.not_allows (allOf _ h _ hmem)
  | .negated h hu, .intro _ _ _ _ _ _ _ negated => hu.not_refuses (negated _ h)
termination_by structural h => h

theorem TargetRefusesNull.not_allows {r : String} :
    TargetRefusesNull named r → ¬ TargetAllowsNull named r
  | .intro hentry h, htarget => by
    generalize hr : componentRef _ = r at htarget
    obtain ⟨hother, hs⟩ := htarget
    exact h.not_allows (entry_unique hentry hother hr ▸ hs)
termination_by structural h => h

end

theorem refusesNull_ofType {name : String} (h : name ≠ "null") :
    RefusesNull named (.ofType name) := .single rfl h

theorem allowsNull_null : AllowsNull named (.ofType "null") :=
  .intro (by simp [Schema.ofType]) (by simp [Schema.ofType]) (by simp [Schema.ofType])
    (by simp [Schema.ofType]) (by simp [Schema.ofType]) (by simp [Schema.ofType])
    (by simp [Schema.ofType]) (by simp [Schema.ofType])

/-- A schema with alternatives only. -/
theorem allowsNull_anyOf {us : List Schema} (h : SomeAllowsNull named us) :
    AllowsNull named { anyOf := some us } :=
  .intro (by simp) (by simp) (by simp) (by simp)
    (fun _ heq => Option.some.inj heq ▸ h) (by simp) (by simp) (by simp)

theorem allowsNull_orNull (s : Schema) : AllowsNull named s.orNull :=
  allowsNull_anyOf (.intro (List.mem_cons_of_mem _ List.mem_cons_self) allowsNull_null)

theorem allowsNull_withNull (null : Bool) (h : AllowsNull named s) :
    AllowsNull named (withNull null s) := by
  cases null with
  | false => exact h
  | true => exact allowsNull_orNull s

theorem allowsNull_reference_iff :
    AllowsNull named (.reference key) ↔ ∃ s, named.lookup key = some s ∧ AllowsNull named s := by
  constructor
  · intro h
    cases h with
    | intro _ _ _ ref =>
      have htarget := ref _ rfl
      generalize hr : componentRef key = r at htarget
      obtain ⟨hentry, hs⟩ := htarget
      cases (String.append_right_inj componentRoot).mp hr
      exact ⟨_, hentry, hs⟩
  · rintro ⟨s, hentry, hs⟩
    exact .intro (by simp [Schema.reference]) (by simp [Schema.reference])
      (by simp [Schema.reference]) (fun _ heq => Option.some.inj heq ▸ .intro hentry hs)
      (by simp [Schema.reference]) (by simp [Schema.reference]) (by simp [Schema.reference])
      (by simp [Schema.reference])

/-- A schema that accepts null is no schema of numbers. -/
theorem AllowsNull.numericType_eq (h : AllowsNull named s) (n : NumericType) :
    applyNumericType s n = s := by
  cases h with
  | intro type =>
    refine if_neg ?_
    rintro (heq | heq) <;> rcases type _ heq with hname | ⟨all, hnames, -⟩ <;> simp_all

theorem AllowsNull.applyRules (h : AllowsNull named s) (c : Constraints) :
    AllowsNull named (SchemaTable.applyRules s c) := by
  have hnumeric := h.numericType_eq
  cases h with
  | intro type enum const ref anyOf oneOf allOf negated =>
    unfold SchemaTable.applyRules
    cases c.numericType with
    | none => exact .intro type enum const ref anyOf oneOf allOf negated
    | some n =>
      dsimp only
      rw [hnumeric n]
      exact .intro type enum const ref anyOf oneOf allOf negated

theorem AllowsNull.finish (h : AllowsNull named s) (type : SourceType) :
    AllowsNull named (SchemaTable.finish type s) := by
  have hdescribed :
      AllowsNull named { s with description := type.description <|> s.description } := by
    cases h with
    | intro type enum const ref anyOf oneOf allOf negated =>
      exact .intro type enum const ref anyOf oneOf allOf negated
  unfold SchemaTable.finish
  cases type.constraints with
  | none => exact hdescribed
  | some c => exact hdescribed.applyRules c

end AllowsNull

/-! ### Exactly one alternative -/

/-- At all places but one the alternatives refuse null. -/
def AllButOne (named : List (String × Schema)) (us : List Schema) : Prop :=
  ∃ i : Nat, ∀ (j : Nat) (v : Schema), us[j]? = some v → j ≠ i → RefusesNull named v

/-- If the schema, or the entry that it refers to, asks for exactly one of several alternatives, all
but one refuse null. -/
structure Exclusive (named : List (String × Schema)) (s : Schema) : Prop where
  here : ∀ us, s.oneOf = some us → AllButOne named us
  entry : ∀ key u us, s = .reference key → named.lookup key = some u → u.oneOf = some us →
    AllButOne named us

/-- Of two alternatives, the second refuses null. -/
theorem allButOne_pair {named : List (String × Schema)} (u : Schema) {v : Schema}
    (hv : RefusesNull named v) : AllButOne named [u, v] := by
  refine ⟨0, fun j w hw hne => ?_⟩
  match j, hw, hne with
  | 0, _, hne => exact absurd rfl hne
  | 1, hw, _ => exact Option.some.inj hw ▸ hv

theorem exclusive_reference {named : List (String × Schema)} {key : String} {u : Schema}
    (hentry : named.lookup key = some u) (h : ∀ us, u.oneOf = some us → AllButOne named us) :
    Exclusive named (.reference key) where
  here := nofun
  entry other v us heq hother hus := by
    have hv := entry_unique hentry hother (Option.some.inj (congrArg Schema.ref heq))
    exact h us (hv ▸ hus)

/-- An alternative that accepts null is the one if the others refuse it. -/
theorem AllButOne.oneAllowsNull {named : List (String × Schema)} {us : List Schema}
    (hone : AllButOne named us) {u : Schema} (hmem : u ∈ us) (h : AllowsNull named u) :
    OneAllowsNull named us := by
  obtain ⟨i, hothers⟩ := hone
  obtain ⟨j, hat⟩ := List.mem_iff_getElem?.mp hmem
  by_cases hji : j = i
  · exact .intro (hji ▸ hat) h hothers
  · exact absurd (hothers j u hat hji) h.not_refuses

theorem oneOf_applyRules (s : Schema) (c : Constraints) : (applyRules s c).oneOf = s.oneOf := by
  unfold applyRules
  cases c.numericType with
  | none => rfl
  | some n =>
    dsimp only [applyNumericType]
    split <;> rfl

theorem oneOf_finish (type : SourceType) (s : Schema) : (finish type s).oneOf = s.oneOf := by
  unfold finish
  cases type.constraints with
  | none => rfl
  | some c => exact oneOf_applyRules _ c

/-! ### Unions -/

/-- A union with a member that may be null. If it only enumerates values, null is one of them, or
else `null` says that the whole may be null. -/
structure OffersNull (type : SourceType) (null : Bool) (members : List SourceType)
    (d : Option Discriminant) : Prop where
  form : type.form = .union members d
  member : ∃ m ∈ members, m.isUndefined = false ∧ m.nullable = true
  values : isEnumeration members = true → null = true ∨ ∃ m ∈ members, m.form = .literal .null

section Unions

variable {registry : Registry} {type : SourceType} {members : List SourceType}
  {d : Option Discriminant} {t t' : SchemaTable} {s : Schema} {ss : List Schema}

theorem Site.orNull (h : Site registry type t s t') (hnull : type.nullable = true) :
    ∃ u, s = Schema.orNull u := by
  cases h with
  | ref _ _ => exact ⟨_, by rw [hnull]; rfl⟩
  | named _ _ _ => exact ⟨_, by rw [hnull]; rfl⟩
  | inline _ _ _ => exact ⟨_, by rw [hnull]; rfl⟩

theorem Sites.orNull (h : Sites registry members t ss t') {m : SourceType} (hm : m ∈ members)
    (hnull : m.nullable = true) : ∃ u, Schema.orNull u ∈ ss := by
  induction members generalizing t ss with
  | nil => cases hm
  | cons first members ih =>
    cases h with
    | cons hsite hrest =>
      rcases List.mem_cons.mp hm with rfl | hm
      · obtain ⟨u, rfl⟩ := hsite.orNull hnull
        exact ⟨u, List.mem_cons_self⟩
      · obtain ⟨u, hu⟩ := ih hrest hm
        exact ⟨u, List.mem_cons_of_mem _ hu⟩

/-- Of the values that are the same as `v`, one is kept. -/
theorem exists_same_distinctValues {v : Json} (hv : v.same v = true) {values : List Json}
    (h : v ∈ values) : ∃ w ∈ distinctValues values, w.same v = true := by
  suffices hfold : ∀ (vs acc : List Json), (∃ w ∈ acc, w.same v = true) ∨ v ∈ vs →
      ∃ w ∈ vs.foldl (fun acc v => if acc.any fun w => w.same v then acc else acc ++ [v]) acc,
        w.same v = true from hfold values [] (.inr h)
  intro vs
  induction vs with
  | nil => exact fun acc h => h.elim id fun h => by cases h
  | cons u vs ih =>
    intro acc h
    refine ih _ ?_
    dsimp only
    split
    · next hany =>
      refine h.elim .inl fun h => ?_
      rcases List.mem_cons.mp h with rfl | h
      · exact .inl (List.any_eq_true.mp hany)
      · exact .inr h
    · rcases h with ⟨w, hw, hsame⟩ | h
      · exact .inl ⟨w, List.mem_append_left _ hw, hsame⟩
      · rcases List.mem_cons.mp h with rfl | h
        · exact .inl ⟨v, List.mem_append_right _ List.mem_cons_self, hv⟩
        · exact .inr h

theorem null_mem_distinctValues {values : List Json} (h : .null ∈ values) :
    .null ∈ distinctValues values := by
  obtain ⟨w, hw, hsame⟩ := exists_same_distinctValues rfl h
  cases w <;> first | exact hw | cases hsame

theorem allowsNull_enumeration {named : List (String × Schema)}
    (hkinds : isEnumeration members = true) {m : SourceType} (hm : m ∈ members)
    (hform : m.form = .literal .null) :
    AllowsNull named (unionOf members d ss) := by
  have hcounted : m ∈ unionMembers members :=
    List.mem_filter.mpr ⟨hm, by simp [SourceType.isUndefined, hform]⟩
  have hvalue : literalValue? m = some .null := by rw [literalValue?, hform]
  have hnull := null_mem_distinctValues (List.mem_filterMap.mpr ⟨m, hcounted, hvalue⟩)
  unfold unionOf
  rw [if_pos hkinds]
  exact .intro (by simp) (fun _ heq => Option.some.inj heq ▸ hnull) (by simp) (by simp) (by simp)
    (by simp) (by simp) (by simp)

theorem allowsNull_unionOf {named : List (String × Schema)} (hkinds : isEnumeration members = false)
    (hone : d ≠ none → ∀ us, (unionOf members d ss).oneOf = some us → AllButOne named us) {u : Schema}
    (hmem : u ∈ ss) (h : AllowsNull named u) : AllowsNull named (unionOf members d ss) := by
  cases d with
  | some e =>
    have hunion := hone (Option.some_ne_none e)
    simp only [unionOf, hkinds, Bool.false_eq_true, if_false, Option.some.injEq,
      forall_eq'] at hunion ⊢
    exact .intro (by simp) (by simp) (by simp) (by simp) (by simp)
      (fun _ heq => Option.some.inj heq ▸ hunion.oneAllowsNull hmem h) (by simp) (by simp)
  | none =>
    unfold unionOf
    rw [if_neg (by simp [hkinds])]
    split
    · contradiction
    · exact List.mem_singleton.mp hmem ▸ h
    · exact allowsNull_anyOf (.intro hmem h)

/-- The schema that is made for the union accepts null, whatever the table holds, if with a
discriminant all its alternatives but one refuse null. -/
theorem Body.allowsNull {null : Bool} (h : Body registry type t s t')
    (hoffers : OffersNull type null members d) {named : List (String × Schema)}
    (hone : null = false → d ≠ none → ∀ us, s.oneOf = some us → AllButOne named us) :
    AllowsNull named (withNull null s) := by
  obtain ⟨hform, ⟨m, hm, hdefined, hnull⟩, hvalues⟩ := hoffers
  cases null with
  | true => exact allowsNull_orNull s
  | false =>
    cases h with
    | ref href _ =>
      rw [hform] at href
      cases href
    | parts _ hparts =>
      rw [hform] at hparts hone ⊢
      have hunion := hone rfl
      rw [oneOf_finish] at hunion
      refine AllowsNull.finish ?_ type
      cases hkinds : isEnumeration members with
      | true =>
        obtain ⟨v, hv, hliteral⟩ := (hvalues hkinds).resolve_left Bool.false_ne_true
        exact allowsNull_enumeration hkinds hv hliteral
      | false =>
        rw [SchemaTable.parts, if_neg (by simp [hkinds])] at hparts
        have hcounted : m ∈ unionMembers members := List.mem_filter.mpr ⟨hm, by simp [hdefined]⟩
        obtain ⟨u, hu⟩ := hparts.orNull hcounted hnull
        exact allowsNull_unionOf hkinds hunion hu (allowsNull_orNull u)

/-- Each entry of the name is made for a union that offers null, with the null of the entry. -/
def NamesUnions (registry : Registry) (types : List SourceType) (name : String) : Prop :=
  ∀ found null, Registers registry types name found null →
    ∃ members d, OffersNull found null members d

/-- The union has a discriminant, or one has that is stored under its name. -/
def Discriminated (registry : Registry) (types : List SourceType) (type : SourceType) : Prop :=
  (∃ members d, type.form = .union members (some d)) ∨
    ∃ name found null members d, type.name = some name ∧ Registers registry types name found null ∧
      found.form = .union members (some d)

/-- What stands under such a name after a run accepts null, if with a discriminant all its
alternatives but one refuse null. -/
theorem NamesUnions.allowsNull {types : List SourceType} {name : String}
    (hname : type.name = some name) (h : NamesUnions registry types name)
    (hentry : (convertAll registry types {}).2.named.lookup
      ((convertAll registry types {}).2.keyFor name).1 = some s) {named : List (String × Schema)}
    (hone : Discriminated registry types type → ∀ us, s.oneOf = some us → AllButOne named us) :
    AllowsNull named s := by
  have hconsistent := consistent_convertAll registry types
  have hkeyed := WellKeyed.fresh.of_writes (sites_convertAll registry types {}).writes
  generalize (convertAll registry types {}).2 = t at *
  obtain ⟨other, found, null, body, before, after, hkey, hregisters, -, hrun, -, rfl, -⟩ :=
    hconsistent.completed _ (Json.mem_of_lookup hentry)
  -- The key of the name is its own one also where it is chosen only now.
  have hgrown := Extends.keyFor t name
  have hsame : other = name :=
    (hkeyed.keyFor name).key_injective (hgrown.keys.subset hkey) (mem_keyFor t name)
  subst hsame
  obtain ⟨members, d, hoffers⟩ := h found null hregisters
  refine (runs_bodyWithin registry _ _ _ _ _ hrun).allowsNull hoffers fun hnull hd us hus => ?_
  obtain ⟨e, rfl⟩ := Option.ne_none_iff_exists'.mp hd
  refine hone (.inr ⟨other, found, null, members, e, hname, hregisters, hoffers.form⟩) us ?_
  rwa [hnull]

/-- Where the name of a type that may not be null itself has an entry, this accepts null. -/
def KnownAllowsNull (type : SourceType) (t : SchemaTable) : Prop :=
  type.nullable = false → ∀ name s, type.name = some name →
    t.named.lookup (t.keyFor name).1 = some s → AllowsNull t.named s

/-- A union whose name has an entry is converted to the reference to it. -/
theorem convert_known (registry : Registry) (hform : type.form = .union members d)
    (hnull : type.nullable = false) {name : String} (hname : type.name = some name)
    (hhas : t.has (t.keyFor name).1 = true) :
    convert registry type t = (.reference (t.keyFor name).1, (t.keyFor name).2) := by
  have hsite := site_convert registry type t
  generalize convert registry type t = r at hsite
  obtain ⟨s, t'⟩ := r
  cases hsite with
  | ref href _ =>
    rw [hform] at href
    cases href
  | inline _ hunnamed _ =>
    rw [hunnamed (by rw [hform]; rfl)] at hname
    cases hname
  | named _ hother hentry =>
    cases hname.symm.trans hother
    cases hentry with
    | known hkey _ =>
      rw [hkey, hnull]
      rfl
    | fill key hkey hfree _ =>
      have hsame := has_keyFor t name key
      rw [hkey] at hhas hsame
      rw [hsame, hhas] at hfree
      cases hfree

/-- A union with a member that may be null accepts null wherever it stands, unless its name has an
entry that does not. There is none after a run in which the name was that of such unions. With a
discriminant, all alternatives but one have to refuse null. -/
theorem allowsNull_convert (registry : Registry) {type : SourceType} {members : List SourceType}
    {d : Option Discriminant} (hoffers : OffersNull type type.nullable members d) :
    (∀ t, KnownAllowsNull type t →
      (d ≠ none → Exclusive (convert registry type t).2.named (convert registry type t).1) →
      AllowsNull (convert registry type t).2.named (convert registry type t).1) ∧
    ∀ types, (∀ name, type.name = some name → NamesUnions registry types name) →
      (Discriminated registry types type →
        Exclusive (convert registry type (convertAll registry types {}).2).2.named
          (convert registry type (convertAll registry types {}).2).1) →
      AllowsNull (convert registry type (convertAll registry types {}).2).2.named
        (convert registry type (convertAll registry types {}).2).1 := by
  have hany : ∀ t, KnownAllowsNull type t →
      (d ≠ none → Exclusive (convert registry type t).2.named (convert registry type t).1) →
      AllowsNull (convert registry type t).2.named (convert registry type t).1 := by
    intro t ht hone
    have hsite := site_convert registry type t
    generalize convert registry type t = r at hsite hone
    obtain ⟨s, t'⟩ := r
    cases hnull : type.nullable with
    | true =>
      obtain ⟨u, rfl⟩ := hsite.orNull hnull
      exact allowsNull_orNull u
    | false =>
      cases hsite with
      | ref href _ =>
        rw [hoffers.form] at href
        cases href
      | inline _ _ hbody =>
        refine hbody.allowsNull hoffers fun hfalse hd us hus => (hone hd).here us ?_
        rwa [hfalse]
      | named hform hname hentry =>
        refine allowsNull_withNull _ ?_
        cases hentry with
        | known hkey hhas =>
          obtain ⟨u, hu⟩ := Option.isSome_iff_exists.mp hhas
          rw [named_of_keyFor hkey] at hu ⊢
          refine allowsNull_reference_iff.mpr ⟨u, hu, ht hnull _ u hname ?_⟩
          rw [hkey]
          exact hu
        | fill key hkey hhas hbody =>
          refine allowsNull_reference_iff.mpr ⟨_, lookup_store_self .., ?_⟩
          refine hbody.allowsNull (hnull ▸ hoffers) fun _ hd us hus => ?_
          exact (hone hd).entry _ _ us (by rw [hnull]; rfl) (lookup_store_self ..) hus
  refine ⟨hany, fun types htypes hone => hany _ (fun hnull name s hname hentry => ?_) fun hd => ?_⟩
  · have hknown := convert_known registry hoffers.form hnull hname
      (Option.isSome_iff_exists.mpr ⟨s, hentry⟩)
    refine (htypes name hname).allowsNull hname hentry fun hd us hus => ?_
    have hexclusive := hone hd
    rw [hknown, named_keyFor] at hexclusive
    exact hexclusive.entry _ s us rfl hentry hus
  · obtain ⟨e, he⟩ := Option.ne_none_iff_exists'.mp hd
    exact hone (.inl ⟨members, e, he ▸ hoffers.form⟩)

end Unions

/-! ### Answers, statuses and pets -/

/-- A text that may be absent. -/
def maybeText : SourceType where
  form := .atomic .string
  nullable := true

def amount : SourceType := .ofForm (.atomic .number)

/-- A named union that selects between a text that may be absent and an amount. -/
def answer : SourceType where
  form := .union [maybeText, amount] (some ⟨"kind", [("other", 1)]⟩)
  name := some "Answer"

theorem namesUnions_answer : NamesUnions ⟨[]⟩ [answer] "Answer" := by
  have hreached : ∀ type, Reached ⟨[]⟩ [answer] type →
      type = answer ∨ type ∈ [maybeText, amount] := by
    intro type h
    induction h with
    | root hmem => exact .inl (List.mem_singleton.mp hmem)
    | registered hget => cases hget
    | part _ hp ih =>
      rcases ih with rfl | ih
      · exact .inr hp
      · simp only [List.mem_cons, List.not_mem_nil, or_false] at ih
        rcases ih with rfl | rfl <;> cases hp
  rintro found null (⟨hget, -⟩ | ⟨h, hname, -, -⟩)
  · cases hget
  · rcases hreached found h with rfl | hpart
    · exact ⟨_, _, rfl, ⟨_, List.mem_cons_self, rfl, rfl⟩, fun h => absurd h (by decide)⟩
    · simp only [List.mem_cons, List.not_mem_nil, or_false] at hpart
      rcases hpart with rfl | rfl <;> cases hname

/-- The entry of an answer: an amount is never null. -/
theorem exclusive_answer {named : List (String × Schema)} {d : Discriminator}
    (hentry : named.lookup "Answer" = some {
      oneOf := some [Schema.orNull (.ofType "string"), .ofType "number"], discriminator := some d }) :
    Exclusive named (.reference "Answer") := by
  refine exclusive_reference hentry fun us hus => ?_
  cases hus
  exact allButOne_pair _ (refusesNull_ofType (by decide))

/-- The answer is a reference to an entry that accepts null, on a fresh table and when it was
converted before. -/
theorem allowsNull_convert_answer :
    OffersNull answer false [maybeText, amount] (some ⟨"kind", [("other", 1)]⟩) ∧
    KnownAllowsNull answer {} ∧
    Exclusive (convert ⟨[]⟩ answer {}).2.named (convert ⟨[]⟩ answer {}).1 ∧
    (convert ⟨[]⟩ answer {}).1 = .reference "Answer" ∧
    AllowsNull (convert ⟨[]⟩ answer {}).2.named (convert ⟨[]⟩ answer {}).1 ∧
    NamesUnions ⟨[]⟩ [answer] "Answer" ∧
    Exclusive (convert ⟨[]⟩ answer (convertAll ⟨[]⟩ [answer] {}).2).2.named
      (convert ⟨[]⟩ answer (convertAll ⟨[]⟩ [answer] {}).2).1 ∧
    AllowsNull (convert ⟨[]⟩ answer (convertAll ⟨[]⟩ [answer] {}).2).2.named
      (convert ⟨[]⟩ answer (convertAll ⟨[]⟩ [answer] {}).2).1 := by
  have hoffers : OffersNull answer false [maybeText, amount] (some ⟨"kind", [("other", 1)]⟩) :=
    ⟨rfl, ⟨_, List.mem_cons_self, rfl, rfl⟩, fun h => absurd h (by decide)⟩
  have hfresh : KnownAllowsNull answer {} := by
    rintro - name s - ⟨⟩
  have hone : Exclusive (convert ⟨[]⟩ answer {}).2.named (convert ⟨[]⟩ answer {}).1 :=
    exclusive_answer (d := ⟨"kind", none⟩) (by rfl)
  have hagain : Exclusive (convert ⟨[]⟩ answer (convertAll ⟨[]⟩ [answer] {}).2).2.named
      (convert ⟨[]⟩ answer (convertAll ⟨[]⟩ [answer] {}).2).1 :=
    exclusive_answer (d := ⟨"kind", none⟩) (by rfl)
  obtain ⟨hany, hrun⟩ := allowsNull_convert ⟨[]⟩ hoffers
  refine ⟨hoffers, hfresh, hone, by rfl, hany {} hfresh fun _ => hone, namesUnions_answer, hagain,
    hrun [answer] ?_ fun _ => hagain⟩
  rintro name ⟨⟩
  exact namesUnions_answer

/-- A union of two literals, one of which may be absent. -/
def mood : SourceType :=
  .ofForm (.union [{ form := .literal (.str "up"), nullable := true },
    .ofForm (.literal (.str "down"))] none)

/-- A union that has the name of an object. -/
def status : SourceType where
  form := .union [maybeText, amount] none
  name := some "Status"

def statusObject : SourceType := { user with name := some "Status" }

/-- An object that may be absent. -/
def maybePet (name : String) : SourceType := { user with name := some name, nullable := true }

/-- A union that selects between two objects, each of which may be absent. -/
def maybePets : SourceType :=
  .ofForm (.union [maybePet "Cat", maybePet "Dog"] (some ⟨"kind", [("cat", 0), ("dog", 1)]⟩))

/-- Three unions with a member that may be null, none of which accepts null: literals give an
enumeration of their values, the name of the second one has the entry of an object, and of the
alternatives for pets, of which exactly one may hold, null meets both. -/
theorem not_allowsNull_convert :
    ((convert ⟨[]⟩ mood {}).1 = { enumValues := some [.str "up", .str "down"] } ∧
      ¬ AllowsNull (convert ⟨[]⟩ mood {}).2.named (convert ⟨[]⟩ mood {}).1) ∧
    (OffersNull status false [maybeText, amount] none ∧
      (convertAll ⟨[]⟩ [statusObject, status] {}).1 = [.reference "Status", .reference "Status"] ∧
      ¬ AllowsNull (convertAll ⟨[]⟩ [statusObject, status] {}).2.named (.reference "Status")) ∧
    (convert ⟨[]⟩ maybePets {}).1 = {
        oneOf := some [Schema.orNull (.reference "Cat"), Schema.orNull (.reference "Dog")]
        discriminator := some ⟨"kind", none⟩ } ∧
      ¬ AllowsNull (convert ⟨[]⟩ maybePets {}).2.named (convert ⟨[]⟩ maybePets {}).1 := by
  have hmood : (convert ⟨[]⟩ mood {}).1 = { enumValues := some [.str "up", .str "down"] } := by rfl
  have hoffers : OffersNull status false [maybeText, amount] none :=
    ⟨rfl, ⟨_, List.mem_cons_self, rfl, rfl⟩, fun h => absurd h (by decide)⟩
  have hpets : (convert ⟨[]⟩ maybePets {}).1 = {
      oneOf := some [Schema.orNull (.reference "Cat"), Schema.orNull (.reference "Dog")]
      discriminator := some ⟨"kind", none⟩ } := by rfl
  refine ⟨⟨hmood, ?_⟩, ⟨hoffers, by rfl, ?_⟩, hpets, ?_⟩
  · rw [hmood]
    exact RefusesNull.not_allows (.enum rfl (by simp))
  · have hobject : (convertAll ⟨[]⟩ [statusObject, status] {}).2.named.lookup "Status" =
        some (.ofType "object") := by rfl
    exact RefusesNull.not_allows (.ref rfl (.intro hobject (refusesNull_ofType (by decide))))
  · rw [hpets]
    exact RefusesNull.not_allows (.severalOf rfl (i := 0) (j := 1) rfl rfl (by decide)
      (allowsNull_orNull _) (allowsNull_orNull _))

end TypedApi.SchemaTable
