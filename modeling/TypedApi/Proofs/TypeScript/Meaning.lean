import TypedApi.Proofs.Api.Index
import TypedApi.Proofs.TypeExpr.Forms
import TypedApi.Proofs.TypeScript.Phrases
import TypedApi.Proofs.TypeScript.Renaming

/-! The text of a type means the type.

`s.Means p t` says that the phrase `p` has the structure of the type `t`: the variants as
alternatives, the members of an intersection as operands, the item of an array as one operand, the
elements of a tuple with its rest, and the members of an object. The text of a type is read as such
a phrase as long as names are names, and no intersection is empty or has an enumeration of several
literals as a member, which would fall apart there. -/
namespace TypedApi.TypeScript

/-! ### What a phrase means -/

/-- `ys` are the `xs` without some that are repeated. -/
def Dropped {α : Type} (xs ys : List α) : Prop := ys.Sublist xs ∧ ∀ x ∈ xs, x ∈ ys

/-- A phrase stands as one operand, if need be in parentheses. -/
inductive Stands : Phrase → Operand → Prop where
  | alone (o : Operand) : Stands [[o]] o
  | group (p : Phrase) : Stands p (.group p)

/-- A phrase stands as operands of one alternative, if need be in parentheses. -/
inductive Joins : Phrase → List Operand → Prop where
  | alone (a : List Operand) : Joins [a] a
  | group (p : Phrase) : Joins p [.group p]

/-- Some phrases are the alternatives of one. -/
inductive Alternatives : List Phrase → Phrase → Prop where
  | none : Alternatives [] [[.keyword "never"]]
  | some {ps qs : List Phrase} (hps : ps ≠ []) (h : Dropped ps qs) : Alternatives ps qs.flatten

/-- The type of further members takes in the types of the declared ones, unless it is unknown. -/
inductive Widened (q : Phrase) (ps : List Phrase) : Phrase → Prop where
  | unknown (hq : q = [[.keyword "unknown"]]) : Widened q ps q
  | joined {qs : List Phrase} (h : Dropped (q :: ps) qs) : Widened q ps qs.flatten

/-- An object without declared members, all of whose members have one type. -/
inductive Indexed (q : Phrase) : Operand → Prop where
  | record : Indexed q (.applied "Record" [[[.keyword "string"]], q])
  | signature : Indexed q (.object [] (some q))

/-- A literal; lists and objects are unknown. -/
def literalOperand : Json → Operand
  | .null => .keyword "null"
  | .bool true => .keyword "true"
  | .bool false => .keyword "false"
  | .num n => .literal (.num n)
  | .str s => .literal (.str s)
  | .arr _ => .keyword "unknown"
  | .obj _ => .keyword "unknown"

namespace Scope

/-- A phrase has the structure of a type. -/
inductive Means (s : Scope) : Phrase → TypeExpr → Prop where
  | ref (name : String) : Means s [[.name name]] (.ref name)
  | primitive (kind : Primitive) (format : Option String) :
    Means s [[.keyword (TypeScript.primitive kind)]] (.primitive kind format)
  | binary : Means s [[.name (s.builtin "Blob")]] .binary
  | const (v : Json) : Means s [[literalOperand v]] (.const v)
  | enum {vs : List Json} {p : Phrase} (h : Alternatives (vs.map fun v => [[literalOperand v]]) p) :
    Means s p (.enum vs)
  | array {q : Phrase} {o : Operand} {item : TypeExpr} (hq : Means s q item) (ho : Stands q o) :
    Means s [[.array o]] (.array item)
  | tuple {ps : List Phrase} {elements : List TypeExpr} (h : List.Forall₂ (Means s) ps elements) :
    Means s [[.tuple ps none]] (.tuple elements none)
  | tupleRest {ps : List Phrase} {elements : List TypeExpr} {q : Phrase} {o : Operand}
    {rest : TypeExpr} (h : List.Forall₂ (Means s) ps elements) (hq : Means s q rest)
    (ho : Stands q o) : Means s [[.tuple ps (some [[.array o]])]] (.tuple elements (some rest))
  /-- A component stands for the object. -/
  | known {ms : List Member} {a : Option Additional} {name : String}
    (h : s.index.find? (.object ms a) = some name) : Means s [[.name name]] (.object ms a)
  | empty {o : Operand} (ho : Indexed [[.keyword "never"]] o) :
    Means s [[o]] (.object [] (some .forbidden))
  | any {a : Option Additional} {o : Operand} (ha : a = none ∨ a = some .any)
    (ho : Indexed [[.keyword "unknown"]] o) : Means s [[o]] (.object [] a)
  | indexed {q : Phrase} {o : Operand} {t : TypeExpr} (hq : Means s q t) (ho : Indexed q o) :
    Means s [[o]] (.object [] (some (.of t)))
  | members {ms : List Member} {a : Option Additional} {ps : List Phrase}
    (hfind : s.index.find? (.object ms a) = none) (hms : ms ≠ [])
    (ha : a = none ∨ a = some .forbidden) (h : List.Forall₂ (fun p m => Means s p m.type) ps ms) :
    Means s [[.object ((ms.map Head.of).zip ps) none]] (.object ms a)
  | membersAny {ms : List Member} {ps : List Phrase}
    (hfind : s.index.find? (.object ms (some .any)) = none) (hms : ms ≠ [])
    (h : List.Forall₂ (fun p m => Means s p m.type) ps ms) :
    Means s [[.object ((ms.map Head.of).zip ps) (some [[.keyword "unknown"]])]]
      (.object ms (some .any))
  | membersIndexed {ms : List Member} {ps : List Phrase} {q r : Phrase} {t : TypeExpr}
    (hfind : s.index.find? (.object ms (some (.of t))) = none) (hms : ms ≠ [])
    (h : List.Forall₂ (fun p m => Means s p m.type) ps ms) (hq : Means s q t) (hr : Widened q ps r) :
    Means s [[.object ((ms.map Head.of).zip ps) (some r)]] (.object ms (some (.of t)))
  | union {ps : List Phrase} {variants : List TypeExpr} {d : Option String} {p : Phrase}
    (h : List.Forall₂ (Means s) ps variants) (hp : Alternatives ps p) : Means s p (.union variants d)
  | intersection {ps : List Phrase} {members : List TypeExpr} {as bs : List (List Operand)}
    (h : List.Forall₂ (Means s) ps members) (has : List.Forall₂ Joins ps as) (hbs : Dropped as bs) :
    Means s [bs.flatten] (.intersection members)
  | unknown : Means s [[.keyword "unknown"]] .unknown

end Scope

/-! ### Parts that are written once -/

theorem eraseDups_sublist : (xs : List String) → xs.eraseDups.Sublist xs
  | [] => List.Sublist.refl []
  | x :: xs => by
    rw [List.eraseDups_cons]
    have hfilter : (xs.filter fun y => !y == x).Sublist xs := List.filter_sublist
    exact ((eraseDups_sublist _).trans hfilter).cons_cons x
termination_by xs => xs.length
decreasing_by
  have hlength := List.length_filter_le (fun y => !y == x) xs
  simp only [List.length_cons]
  omega

theorem dropped_eraseDups {α : Type} (f : String → α) (xs : List String) :
    Dropped (xs.map f) (xs.eraseDups.map f) := by
  refine ⟨(eraseDups_sublist xs).map f, fun a ha => ?_⟩
  obtain ⟨x, hx, rfl⟩ := List.mem_map.mp ha
  exact List.mem_map_of_mem (List.mem_eraseDups.mpr hx)

theorem eraseDups_ne_nil {xs : List String} (h : xs ≠ []) : xs.eraseDups ≠ [] := by
  obtain ⟨x, xs, rfl⟩ := List.exists_cons_of_ne_nil h
  rw [List.eraseDups_cons]
  exact List.cons_ne_nil _ _

theorem reads_joined {xs : List String} (hxs : xs ≠ []) (h : ∀ x ∈ xs, Reads x (phraseOf x)) :
    Reads (joined " | " xs) (xs.eraseDups.map phraseOf).flatten := by
  rw [joined, ← List.flatMap_def]
  exact reads_alternatives (eraseDups_ne_nil hxs) fun x hx => h x (List.mem_eraseDups.mp hx)

/-! ### Literals -/

theorem reads_literal {v : Json} (hv : v.Readable) : Reads (literal v) [[literalOperand v]] := by
  cases v with
  | null => exact reads_keyword (w := "null") (by decide)
  | bool b =>
    cases b with
    | true => exact reads_keyword (w := "true") (by decide)
    | false => exact reads_keyword (w := "false") (by decide)
  | num n =>
    have htext : literal (.num n) = String.ofList n.render := by
      rw [← toList_literal, String.ofList_toList]
    rw [htext]
    exact reads_number hv.number
  | str s => exact reads_string s
  | arr xs => exact reads_keyword (w := "unknown") (by decide)
  | obj ms => exact reads_keyword (w := "unknown") (by decide)

/-! ### Types that are read as what they are -/

/-- An enumeration of several literals is written as several alternatives. -/
def isSplit : TypeExpr → Bool
  | .enum vs => 1 < (vs.map literal).eraseDups.length
  | _ => false

/-- The text of a type is read as what the type is. It is one operand unless an array puts it in
parentheses, and one alternative unless an intersection does or the type is split. -/
structure Expressed (s : Scope) (t : TypeExpr) : Prop where
  reads : Reads (s.type t) (phraseOf (s.type t))
  means : s.Means (phraseOf (s.type t)) t
  alone : isCompound t = false → ∃ o, phraseOf (s.type t) = [[o]]
  joint : isUnion t = false → isSplit t = false → ∃ a, phraseOf (s.type t) = [a]

namespace Expressed
variable {s : Scope} {t : TypeExpr} {ts : List TypeExpr} {o : Operand}

theorem of_operand (h : Reads (s.type t) [[o]]) (hs : s.Means [[o]] t) : Expressed s t where
  reads := h.self
  means := h.phraseOf_eq.symm ▸ hs
  alone _ := ⟨o, h.phraseOf_eq⟩
  joint _ _ := ⟨[o], h.phraseOf_eq⟩

theorem reads_types (h : ∀ t ∈ ts, Expressed s t) : ∀ x ∈ ts.map s.type, Reads x (phraseOf x) :=
  List.forall_mem_map.mpr fun t ht => (h t ht).reads

theorem means_types (h : ∀ t ∈ ts, Expressed s t) :
    List.Forall₂ s.Means ((ts.map s.type).map phraseOf) ts := by
  rw [List.map_map, List.forall₂_map_left_iff]
  exact List.forall₂_same.mpr fun t ht => (h t ht).means

theorem const {v : Json} (hv : v.Readable) : Expressed s (.const v) :=
  .of_operand (reads_literal hv) (.const v)

theorem enum {vs : List Json} (hvs : ∀ v ∈ vs, v.Readable) : Expressed s (.enum vs) := by
  have hreads : ∀ x ∈ vs.map literal, ∃ o, Reads x [[o]] :=
    List.forall_mem_map.mpr fun v hv => ⟨_, reads_literal (hvs v hv)⟩
  cases vs with
  | nil => exact .of_operand (reads_keyword (w := "never") (by decide)) (.enum .none)
  | cons v vs =>
    have hne : (v :: vs).map literal ≠ [] := List.cons_ne_nil _ _
    have hphrases : ((v :: vs).map literal).map phraseOf =
        (v :: vs).map fun v => [[literalOperand v]] := by
      rw [List.map_map]
      exact List.map_congr_left fun w hw => (reads_literal (hvs w hw)).phraseOf_eq
    have htext : Reads (s.type (.enum (v :: vs)))
        (((v :: vs).map literal).eraseDups.map phraseOf).flatten :=
      reads_joined hne fun x hx => (hreads x hx).choose_spec.self
    have hdropped := dropped_eraseDups phraseOf ((v :: vs).map literal)
    rw [hphrases] at hdropped
    have hsingle : isSplit (.enum (v :: vs)) = false →
        ∃ o, phraseOf (s.type (.enum (v :: vs))) = [[o]] := by
      intro hsplit
      obtain ⟨x, xs, hxs⟩ := List.exists_cons_of_ne_nil (eraseDups_ne_nil hne)
      have hlength : xs.length = 0 := by
        rw [isSplit, hxs, List.length_cons, decide_eq_false_iff_not] at hsplit
        omega
      have hx : x ∈ (v :: vs).map literal :=
        List.mem_eraseDups.mp (hxs ▸ List.mem_cons_self)
      obtain ⟨o, ho⟩ := hreads x hx
      refine ⟨o, ?_⟩
      rw [htext.phraseOf_eq, hxs, List.length_eq_zero_iff.mp hlength, List.map_singleton,
        List.flatten_singleton, ho.phraseOf_eq]
    refine ⟨htext.self, ?_, fun hcompound => hsingle ?_, fun _ hsplit => ?_⟩
    · rw [htext.phraseOf_eq]
      exact .enum (.some (List.cons_ne_nil _ _) hdropped)
    · have hle := (eraseDups_sublist ((v :: vs).map literal)).length_le
      rw [List.length_map] at hle
      rw [isCompound, decide_eq_false_iff_not] at hcompound
      rw [isSplit, decide_eq_false_iff_not]
      omega
    · obtain ⟨o, ho⟩ := hsingle hsplit
      exact ⟨[o], ho⟩

/-- Null is the only variant that may stand alone. -/
theorem union {d : Option String} (h : ∀ t ∈ ts, Expressed s t)
    (hone : ∀ t, ts = [t] → t = TypeExpr.null) : Expressed s (.union ts d) := by
  have htext : s.type (.union ts d) = alternatives (ts.map s.type) := by
    rw [Scope.type, Scope.types_eq]
  rcases ts with _ | ⟨t, _ | ⟨u, us⟩⟩
  · exact .of_operand (reads_keyword (w := "never") (by decide)) (.union .nil .none)
  · obtain rfl := hone t rfl
    have hnull : s.Means [[.keyword "null"]] TypeExpr.null := .primitive .null none
    exact .of_operand (reads_keyword (w := "null") (by decide))
      (.union (.cons hnull .nil) (.some (List.cons_ne_nil _ []) ⟨List.Sublist.refl _, fun _ => id⟩))
  · have hreads := reads_joined (List.cons_ne_nil _ _) (reads_types h)
    have hdropped := dropped_eraseDups phraseOf ((t :: u :: us).map s.type)
    have hall : Reads (s.type (.union (t :: u :: us) d))
        (((t :: u :: us).map s.type).eraseDups.map phraseOf).flatten := by
      rw [htext]
      exact hreads
    refine ⟨hall.self, ?_, fun hcompound => ?_, fun hunion => by cases hunion⟩
    · rw [hall.phraseOf_eq]
      exact .union (means_types h) (.some (List.cons_ne_nil _ _) hdropped)
    · simp [isCompound] at hcompound

/-- The item of an array. -/
theorem arrayOf (h : Expressed s t) :
    ∃ o, Stands (phraseOf (s.type t)) o ∧ Reads (arrayOf t (s.type t)) [[.array o]] := by
  unfold TypeScript.arrayOf
  split
  · have hreads := h.reads.group.array
    rw [String.append_assoc] at hreads
    exact ⟨.group (phraseOf (s.type t)), .group _, hreads⟩
  next hcompound =>
    obtain ⟨o, ho⟩ := h.alone (Bool.eq_false_iff.mpr hcompound)
    have hreads := h.reads
    rw [ho] at hreads ⊢
    exact ⟨o, .alone o, hreads.array⟩

theorem array (h : Expressed s t) : Expressed s (.array t) := by
  obtain ⟨o, hstands, hreads⟩ := h.arrayOf
  refine .of_operand (o := .array o) ?_ (.array h.means hstands)
  rw [Scope.type]
  exact hreads

theorem tuple {rest : Option TypeExpr} (h : ∀ t ∈ ts, Expressed s t)
    (hrest : ∀ t ∈ rest, Expressed s t) : Expressed s (.tuple ts rest) := by
  have hrests : s.restType rest =
      (rest.map fun t => TypeScript.arrayOf t (s.type t)).toList.map ("..." ++ ·) := by
    cases rest <;> rfl
  have htext : Reads (s.type (.tuple ts rest))
      [[.tuple ((ts.map s.type).map phraseOf)
        ((rest.map fun t => TypeScript.arrayOf t (s.type t)).map phraseOf)]] := by
    rw [Scope.type, Scope.types_eq, hrests]
    refine reads_tuple (reads_types h) fun y hy => ?_
    obtain ⟨t, ht, rfl⟩ := Option.map_eq_some_iff.mp hy
    obtain ⟨o, -, hreads⟩ := (hrest t ht).arrayOf
    exact hreads.self
  refine .of_operand htext ?_
  cases rest with
  | none => exact .tuple (means_types h)
  | some t =>
    obtain ⟨o, hstands, hreads⟩ := (hrest t rfl).arrayOf
    rw [Option.map_some, Option.map_some, hreads.phraseOf_eq]
    exact .tupleRest (means_types h) (hrest t rfl).means hstands

/-- A member of an intersection, which stands in parentheses if it is a union. -/
theorem operand (h : Expressed s t) (hsplit : isSplit t = false) :
    ∃ a, Joins (phraseOf (s.type t)) a ∧ Reads (s.operand t) [a] := by
  unfold Scope.operand
  split
  · exact ⟨[.group (phraseOf (s.type t))], .group _, h.reads.group⟩
  next hunion =>
    obtain ⟨a, ha⟩ := h.joint (Bool.eq_false_iff.mpr hunion) hsplit
    have hreads := h.reads
    rw [ha] at hreads ⊢
    exact ⟨a, .alone a, hreads⟩

theorem intersection (h : ∀ t ∈ ts, Expressed s t) (hne : ts ≠ [])
    (hsplit : ∀ t ∈ ts, isSplit t = false) : Expressed s (.intersection ts) := by
  have hreads : ∀ x ∈ ts.map s.operand, ∃ a, Reads x [a] := List.forall_mem_map.mpr fun t ht => by
    obtain ⟨a, -, hreads⟩ := (h t ht).operand (hsplit t ht)
    exact ⟨a, hreads⟩
  have htext : Reads (s.type (.intersection ts))
      [((ts.map s.operand).eraseDups.map fun x => (phraseOf x).flatten).flatten] := by
    rw [Scope.type, Scope.operands_eq, joined, ← List.flatMap_def]
    exact reads_conjuncts (eraseDups_ne_nil (mt List.map_eq_nil_iff.mp hne)) fun x hx =>
      hreads x (List.mem_eraseDups.mp hx)
  have hjoins : List.Forall₂ Joins ((ts.map s.type).map phraseOf)
      ((ts.map s.operand).map fun x => (phraseOf x).flatten) := by
    rw [List.map_map, List.map_map, List.forall₂_map_left_iff, List.forall₂_map_right_iff]
    refine List.forall₂_same.mpr fun t ht => ?_
    obtain ⟨a, hjoins, hreads⟩ := (h t ht).operand (hsplit t ht)
    rw [Function.comp_apply, Function.comp_apply, hreads.phraseOf_eq, List.flatten_singleton]
    exact hjoins
  refine ⟨htext.self, ?_, fun hcompound => ?_, fun _ _ => ⟨_, htext.phraseOf_eq⟩⟩
  · rw [htext.phraseOf_eq]
    exact .intersection (means_types h) hjoins (dropped_eraseDups _ _)
  · cases hcompound

/-! ### Objects -/

theorem reads_unknown : Reads "unknown" [[.keyword "unknown"]] := reads_keyword (by decide)

/-- An object without declared members. -/
theorem recordType {a : Option Additional} (ha : ∀ t, a = some (.of t) → Expressed s t) :
    ∃ o, Reads (s.recordType a (s.furtherValue a)) [[o]] ∧ s.Means [[o]] (.object [] a) := by
  rcases a with _ | _ | _ | t
  · exact ⟨_, reads_record reads_unknown, .any (.inl rfl) .record⟩
  · exact ⟨_, reads_record reads_unknown, .any (.inr rfl) .record⟩
  · exact ⟨_, reads_record (reads_keyword (w := "never") (by decide)), .empty .record⟩
  · have ht := ha t rfl
    rw [Scope.furtherValue, Scope.recordType]
    split
    · exact ⟨_, reads_signature ht.reads, .indexed ht.means .signature⟩
    · exact ⟨_, reads_record ht.reads, .indexed ht.means .record⟩

/-- The type of further members beside declared ones. -/
theorem furtherType {x : String} {xs : List String} (hx : Reads x (phraseOf x))
    (h : ∀ y ∈ xs, Reads y (phraseOf y)) (hxs : xs ≠ []) :
    Reads (TypeScript.furtherType x xs) (phraseOf (TypeScript.furtherType x xs)) ∧
      Widened (phraseOf x) (xs.map phraseOf) (phraseOf (TypeScript.furtherType x xs)) := by
  by_cases hunknown : x = "unknown"
  · subst hunknown
    exact ⟨hx, .unknown reads_unknown.phraseOf_eq⟩
  · have hempty : ¬ (x = "unknown" || xs.isEmpty) = true := by
      simp [hunknown, hxs]
    have hreads := reads_joined (List.cons_ne_nil x xs) (List.forall_mem_cons.mpr ⟨hx, h⟩)
    rw [TypeScript.furtherType, if_neg hempty, hreads.phraseOf_eq]
    exact ⟨hreads, .joined (dropped_eraseDups phraseOf (x :: xs))⟩

/-- An object with declared members that is no component. -/
theorem objectType {ms : List Member} {a : Option Additional}
    (hfind : s.index.find? (.object ms a) = none) (hms : ms ≠ []) (h : ∀ m ∈ ms, Expressed s m.type)
    (ha : ∀ t, a = some (.of t) → Expressed s t) :
    ∃ o, Reads (Scope.objectType (s.memberTypes ms) (s.furtherValue a)) [[o]] ∧
      s.Means [[o]] (.object ms a) := by
  have hreads : ∀ m ∈ ms, Reads (s.type m.type) (phraseOf (s.type m.type)) := fun m hm =>
    (h m hm).reads
  have hmeans : List.Forall₂ (fun p (m : Member) => s.Means p m.type)
      (ms.map fun m => phraseOf (s.type m.type)) ms := by
    rw [List.forall₂_map_left_iff]
    exact List.forall₂_same.mpr fun m hm => (h m hm).means
  have hzip : (ms.map fun m => (Head.of m, phraseOf (s.type m.type))) =
      (ms.map Head.of).zip (ms.map fun m => phraseOf (s.type m.type)) := List.zip_map'.symm
  have htypes : ∀ y ∈ ms.map fun m => s.type m.type, Reads y (phraseOf y) :=
    List.forall_mem_map.mpr hreads
  have hne : (ms.map fun m => s.type m.type) ≠ [] := mt List.map_eq_nil_iff.mp hms
  have htext := reads_objectType hms hreads (s.furtherValue a)
  rw [← Scope.memberTypes_eq] at htext
  rcases a with _ | _ | _ | t
  · exact ⟨_, htext nofun, hzip ▸ .members hfind hms (.inl rfl) hmeans⟩
  · have hany : TypeScript.furtherType "unknown" (ms.map fun m => s.type m.type) = "unknown" := rfl
    have hread := htext fun v hv => by
      cases hv
      rw [hany]
      exact reads_unknown.self
    rw [Scope.furtherValue, Option.map_some, hany, reads_unknown.phraseOf_eq, hzip] at hread
    exact ⟨_, hread, .membersAny hfind hms hmeans⟩
  · exact ⟨_, htext nofun, hzip ▸ .members hfind hms (.inr rfl) hmeans⟩
  · obtain ⟨hfurther, hwidened⟩ := furtherType (ha t rfl).reads htypes hne
    rw [List.map_map] at hwidened
    have hread := htext fun v hv => by
      cases hv
      exact hfurther
    rw [hzip] at hread
    exact ⟨_, hread, .membersIndexed hfind hms hmeans (ha t rfl).means hwidened⟩

/-- A component that is written in place of an object. -/
theorem known {name : String} (hfind : s.index.find? t = some name)
    (hname : isTypeName name = true) : Expressed s t := by
  have hmembers := Api.Index.hasMembers_of_find? hfind
  cases t with
  | object ms a =>
    refine .of_operand (o := .name name) ?_ (.known hfind)
    rw [Scope.type, hfind]
    exact reads_name hname
  | _ => cases hmembers

theorem object {ms : List Member} {a : Option Additional}
    (hfind : s.index.find? (.object ms a) = none) (h : ∀ m ∈ ms, Expressed s m.type)
    (ha : ∀ t, a = some (.of t) → Expressed s t) : Expressed s (.object ms a) := by
  by_cases hms : ms = []
  · subst hms
    obtain ⟨o, hreads, hmeans⟩ := recordType ha
    refine .of_operand ?_ hmeans
    rw [Scope.type, hfind]
    exact hreads
  · obtain ⟨o, hreads, hmeans⟩ := objectType hfind hms h ha
    refine .of_operand ?_ hmeans
    have hempty : ms.isEmpty = false := List.isEmpty_eq_false_iff.mpr hms
    rw [Scope.type, hfind, hempty]
    exact hreads

end Expressed

/-! ### Types of schemas -/

/-- Nothing in the text of the type falls apart but what is inside it: a reference is to a name, and
an intersection neither is empty nor has a split member. -/
def Intact : TypeExpr → Prop
  | .ref name => isTypeName name = true
  | .intersection members => members ≠ [] ∧ ∀ t ∈ members, isSplit t = false
  | _ => True

/-- All that is written out in the text of a type is intact, and what stands for an object is a
name. -/
inductive Scope.Writable (s : Scope) : TypeExpr → Prop where
  | known {t : TypeExpr} {name : String} (hfind : s.index.find? t = some name)
    (hname : isTypeName name = true) : Writable s t
  | written {t : TypeExpr} (hfind : s.index.find? t = none) (h : Intact t)
    (hc : ∀ c ∈ t.children, Writable s c) : Writable s t

/-- Literals are values of texts, and a variant that stands alone is null. -/
def Formed : TypeExpr → Prop
  | .const v => v.Readable
  | .enum vs => ∀ v ∈ vs, v.Readable
  | .union [t] _ => t = .null
  | _ => True

theorem common_formed : TypeExpr.Common Formed where
  primitive _ _ := trivial
  binary := trivial
  array _ := trivial
  tuple _ _ := trivial
  object _ _ := trivial
  union variants _ hlength := by
    rcases variants with _ | ⟨t, _ | ⟨u, us⟩⟩
    · trivial
    · exact absurd rfl hlength
    · trivial
  onlyNull _ := rfl
  intersection _ := trivial
  unknown := trivial

theorem inherited_readable : TypeExpr.Inherited Json.Readable where
  properties h hv := (h.members _ (Json.mem_of_lookup hv)).members
  items h hv _ := (h.members _ (Json.mem_of_lookup hv)).items
  single h hv _ := h.members _ (Json.mem_of_lookup hv)

theorem formed_ofSchema {j : Json} (hj : j.Readable) : (TypeExpr.ofSchema j).All Formed := by
  refine TypeExpr.all_ofSchema common_formed inherited_readable (fun entries h => ?_) j hj
  refine { ref := fun _ _ => trivial, const := fun v hv => h.members _ (Json.mem_of_lookup hv),
           enum := fun vs hvs => ?_ }
  obtain ⟨w, hw, hitems⟩ := Option.bind_eq_some_iff.mp hvs
  have hreadable := h.members _ (Json.mem_of_lookup hw)
  cases w with
  | arr xs => cases hitems; exact hreadable.items
  | _ => cases hitems

theorem reads_blob (s : Scope) : Reads (s.builtin "Blob") [[.name (s.builtin "Blob")]] := by
  rw [Scope.builtin]
  split
  · exact reads_word (w := "globalThis." ++ "Blob") (by decide) rfl
  · exact reads_name (by decide)

/-- The induction takes each form of type from the types inside it. -/
theorem expressed {s : Scope} {t : TypeExpr} (hw : s.Writable t) (hf : t.All Formed) :
    Expressed s t := by
  induction hw with
  | known hfind hname => exact .known hfind hname
  | @written t hfind hintact _ ih =>
    have hchild : ∀ c ∈ t.children, Expressed s c := fun c hc => ih c hc (hf.child c hc)
    have hformed := hf.here
    cases t with
    | ref name => exact .of_operand (reads_name hintact) (.ref name)
    | primitive kind format =>
      have hkeyword : ∀ kind, primitive kind ∈ keywordTypes := by
        intro kind
        cases kind <;> decide
      exact .of_operand (reads_keyword (hkeyword kind)) (.primitive kind format)
    | binary => exact .of_operand (reads_blob s) .binary
    | const v => exact .const hformed
    | enum vs => exact .enum hformed
    | array item => exact (hchild item TypeExpr.mem_children_array).array
    | tuple elements rest =>
      exact .tuple (fun e he => hchild e (TypeExpr.mem_children_element he))
        (fun r hr => hchild r (TypeExpr.mem_children_rest hr))
    | object members additional =>
      refine .object hfind (fun m hm => hchild _ (TypeExpr.mem_children_member hm)) ?_
      rintro u rfl
      exact hchild u TypeExpr.mem_children_additional
    | union variants d =>
      refine .union hchild fun u hu => ?_
      subst hu
      exact hformed
    | intersection members => exact .intersection hchild hintact.1 hintact.2
    | unknown => exact .of_operand Expressed.reads_unknown .unknown

/-- **The text of a type is read as what the type is**, if names are names and no intersection is
empty or has an enumeration of several literals as a member. -/
theorem read?_type_ofSchema {s : Scope} {j : Json} (hj : j.Readable)
    (h : s.Writable (TypeExpr.ofSchema j)) :
    s.type (TypeExpr.ofSchema j) ≠ "" ∧
      ∃ p, read? (s.type (TypeExpr.ofSchema j)) = some p ∧ s.Means p (TypeExpr.ofSchema j) := by
  have hexpressed := expressed h (formed_ofSchema hj)
  exact ⟨hexpressed.reads.ne_empty, _, hexpressed.reads.read?_eq, hexpressed.means⟩

/-- An intersection of a union with an object, in which an array has an enumeration as its item. -/
def taggedSchema : Json :=
  .obj [("allOf", .arr [
    .obj [("oneOf", .arr [.obj [("$ref", .str "#/components/schemas/Post")],
      .obj [("$ref", .str "#/components/schemas/Page")]])],
    .obj [("type", .str "object"), ("properties", .obj [("tags", .obj [("type", .str "array"),
      ("items", .obj [("enum", .arr [.str "new", .str "hot"])])])])]])]

theorem ofSchema_taggedSchema :
    TypeExpr.ofSchema taggedSchema = .intersection [.union [.ref "Post", .ref "Page"] none,
      .object [{ name := "tags", type := .array (.enum [.str "new", .str "hot"]) }] none] := by
  rfl

theorem readable_taggedSchema : taggedSchema.Readable := by
  have hone : ∀ {key : String} {v : Json}, v.Readable → (Json.obj [(key, v)]).Readable :=
    fun hv => .obj (List.pairwise_singleton _ _) (List.forall_mem_singleton.mpr hv)
  have htyped : ∀ {kind key : String} {v : Json}, key ≠ "type" → v.Readable →
      (Json.obj [("type", .str kind), (key, v)]).Readable := fun hkey hv =>
    .obj (by simpa using hkey.symm)
      (List.forall_mem_cons.mpr ⟨.str _, List.forall_mem_singleton.mpr hv⟩)
  have hpair : ∀ {v w : Json}, v.Readable → w.Readable → (Json.arr [v, w]).Readable := fun hv hw =>
    .arr (List.forall_mem_cons.mpr ⟨hv, List.forall_mem_singleton.mpr hw⟩)
  exact hone (hpair (hone (hpair (hone (.str _)) (hone (.str _))))
    (htyped (by decide) (hone (htyped (by decide) (hone (hpair (.str _) (.str _)))))))

/-- The union stands in parentheses, and so does the item of the array. -/
theorem read?_type_ofSchema_tagged :
    ({} : Scope).type (TypeExpr.ofSchema taggedSchema) =
        "(Post | Page) & \x7b tags?: (\"new\" | \"hot\")[] \x7d" ∧
      ({} : Scope).type (TypeExpr.ofSchema taggedSchema) ≠ "" ∧
      ∃ p, read? (({} : Scope).type (TypeExpr.ofSchema taggedSchema)) = some p ∧
        ({} : Scope).Means p (TypeExpr.ofSchema taggedSchema) := by
  refine ⟨?_, read?_type_ofSchema readable_taggedSchema ?_⟩
  · rw [ofSchema_taggedSchema]
    rfl
  · have hfind : ∀ t : TypeExpr, ({} : Scope).index.find? t = none := fun t => by
      rw [Api.Index.find?]
      split <;> rfl
    have hintact : ∀ {t : TypeExpr}, Intact t → (∀ c ∈ t.children, ({} : Scope).Writable c) →
        ({} : Scope).Writable t := .written (hfind _)
    have href : ∀ name, isTypeName name = true → ({} : Scope).Writable (.ref name) := fun name h =>
      hintact h (List.forall_mem_nil _)
    have hlist : ({} : Scope).Writable (.array (.enum [.str "new", .str "hot"])) :=
      hintact trivial (List.forall_mem_singleton.mpr (hintact trivial (List.forall_mem_nil _)))
    rw [ofSchema_taggedSchema]
    refine hintact ⟨List.cons_ne_nil _ _, ?_⟩ (List.forall_mem_cons.mpr ⟨?_, ?_⟩)
    · exact List.forall_mem_cons.mpr ⟨rfl, List.forall_mem_singleton.mpr rfl⟩
    · exact hintact trivial (List.forall_mem_cons.mpr ⟨href "Post" (by decide),
        List.forall_mem_singleton.mpr (href "Page" (by decide))⟩)
    · exact List.forall_mem_singleton.mpr
        (hintact trivial (List.forall_mem_singleton.mpr hlist))

/-! ### An enumeration in an intersection -/

/-- An intersection is one alternative. -/
theorem Scope.Means.intersection_length {s : Scope} {p : Phrase} {ts : List TypeExpr}
    (h : s.Means p (.intersection ts)) : p.length = 1 := by
  cases h with
  | intersection => rfl

/-- An intersection of an enumeration with a component. -/
def splitSchema : Json :=
  .obj [("allOf", .arr [.obj [("enum", .arr [.str "a", .str "b"])],
    .obj [("$ref", .str "#/components/schemas/Tag")]])]

/-- The enumeration falls apart: only its last literal is read as a member of the intersection. -/
theorem misread_intersection :
    ({} : Scope).type (TypeExpr.ofSchema splitSchema) = "\"a\" | \"b\" & Tag" ∧
      read? "\"a\" | \"b\" & Tag" =
        some [[.literal (.str "a")], [.literal (.str "b"), .name "Tag"]] ∧
      ¬ ({} : Scope).Means [[.literal (.str "a")], [.literal (.str "b"), .name "Tag"]]
        (TypeExpr.ofSchema splitSchema) := by
  have hschema : TypeExpr.ofSchema splitSchema =
      .intersection [.enum [.str "a", .str "b"], .ref "Tag"] := rfl
  refine ⟨?_, ?_, ?_⟩
  · rw [hschema]
    rfl
  · have htag : Reads "Tag" [[.name "Tag"]] := reads_name (by decide)
    exact ((reads_string "a").alternative ((reads_string "b").conjunct htag)).read?_eq
  · rw [hschema]
    intro h
    cases h.intersection_length

end TypedApi.TypeScript
