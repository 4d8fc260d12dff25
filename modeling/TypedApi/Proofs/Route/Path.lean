import TypedApi.OpenApi.Violation
import TypedApi.Route.Operation

/-! The placeholders of path templates.

Two scans look for placeholders: the one that makes parameters takes all that stands
between two braces, and the one of the validator stops at a slash. On the template of a
path that has no braces of its own they find the same (`placeholders_template`). A version
segment in front adds none (`placeholders_versionPath`). -/
namespace TypedApi.Route

open OpenApi

/-- Neither brace occurs. -/
def BraceFree (s : String) : Prop := '\x7b' ∉ s.toList ∧ '\x7d' ∉ s.toList

instance (s : String) : Decidable (BraceFree s) := inferInstanceAs (Decidable (_ ∧ _))

/-! ### The two scans -/

theorem scanPlaceholders_plain {cs : List Char} (h : '\x7b' ∉ cs) (rest : List Char) :
    Violation.scanPlaceholders none (cs ++ rest) = Violation.scanPlaceholders none rest := by
  induction cs with
  | nil => rfl
  | cons c cs ih =>
    have hc : c ≠ '\x7b' := fun hc => h (hc ▸ List.mem_cons_self)
    rw [List.cons_append, Violation.scanPlaceholders, if_neg hc]
    exact ih fun hm => h (List.mem_cons_of_mem _ hm)

theorem scanBraces_plain {cs : List Char} (h : '\x7b' ∉ cs) (rest : List Char) :
    scanBraces none (cs ++ rest) = scanBraces none rest := by
  induction cs with
  | nil => rfl
  | cons c cs ih =>
    have hc : c ≠ '\x7b' := fun hc => h (hc ▸ List.mem_cons_self)
    rw [List.cons_append, scanBraces, if_neg hc]
    exact ih fun hm => h (List.mem_cons_of_mem _ hm)

theorem scanBraces_name {name : List Char} (h : '\x7d' ∉ name) (acc rest : List Char) :
    scanBraces (some acc) (name ++ '\x7d' :: rest) =
      (acc.reverse ++ name) :: scanBraces none rest := by
  induction name generalizing acc with
  | nil => simp [scanBraces]
  | cons c cs ih =>
    have hc : c ≠ '\x7d' := fun hc => h (hc ▸ List.mem_cons_self)
    have hcs : '\x7d' ∉ cs := fun hm => h (List.mem_cons_of_mem _ hm)
    rw [List.cons_append, scanBraces]
    simp [hc, ih hcs]

theorem scanPlaceholders_name {name : List Char} (h : '\x7d' ∉ name) (hs : '/' ∉ name)
    (acc rest : List Char) :
    Violation.scanPlaceholders (some acc) (name ++ '\x7d' :: rest) =
      [acc.reverse ++ name].filter (!·.isEmpty) ++ Violation.scanPlaceholders none rest := by
  induction name generalizing acc with
  | nil =>
    rw [List.nil_append, Violation.scanPlaceholders]
    cases acc <;> simp
  | cons c cs ih =>
    have hc : c ≠ '\x7d' := fun hc => h (hc ▸ List.mem_cons_self)
    have hc' : c ≠ '/' := fun hc => hs (hc ▸ List.mem_cons_self)
    have hcs : '\x7d' ∉ cs := fun hm => h (List.mem_cons_of_mem _ hm)
    have hcs' : '/' ∉ cs := fun hm => hs (List.mem_cons_of_mem _ hm)
    rw [List.cons_append, Violation.scanPlaceholders]
    simp only [hc, hc', if_false]
    rw [ih hcs hcs']
    simp

/-! ### Templates -/

/-- A segment of a template: a text without an opening brace, or a name in braces. -/
inductive IsSegment : List Char → Prop
  | plain {cs} : '\x7b' ∉ cs → IsSegment cs
  | named {name} : '\x7d' ∉ name → '/' ∉ name → IsSegment ('\x7b' :: name ++ ['\x7d'])

theorem scans_segment {segment : List Char} (h : IsSegment segment) {rest : List Char}
    (hrest : Violation.scanPlaceholders none rest = (scanBraces none rest).filter (!·.isEmpty)) :
    Violation.scanPlaceholders none (segment ++ rest) =
      (scanBraces none (segment ++ rest)).filter (!·.isEmpty) := by
  cases h with
  | plain h => rw [scanPlaceholders_plain h, scanBraces_plain h, hrest]
  | @named name h hs =>
    rw [List.append_assoc, List.cons_append, List.singleton_append]
    have hp : Violation.scanPlaceholders none ('\x7b' :: (name ++ '\x7d' :: rest)) =
        Violation.scanPlaceholders (some []) (name ++ '\x7d' :: rest) := by
      rw [Violation.scanPlaceholders, if_pos rfl]
    have hb : scanBraces none ('\x7b' :: (name ++ '\x7d' :: rest)) =
        scanBraces (some []) (name ++ '\x7d' :: rest) := by
      rw [scanBraces, if_pos rfl]
    rw [hp, hb, scanPlaceholders_name h hs, scanBraces_name h, hrest, ← List.filter_append,
      List.singleton_append]

theorem scans_joinSegments {ss : List (List Char)} (h : ∀ s ∈ ss, IsSegment s) :
    Violation.scanPlaceholders none (joinSegments ss) =
      (scanBraces none (joinSegments ss)).filter (!·.isEmpty) := by
  have hjoin : ∀ ss : List (List Char), (∀ s ∈ ss, IsSegment s) →
      Violation.scanPlaceholders none (ss.flatMap ('/' :: ·)) =
        (scanBraces none (ss.flatMap ('/' :: ·))).filter (!·.isEmpty) := by
    intro ss h
    induction ss with
    | nil => rfl
    | cons s ss ih =>
      have hslash : '\x7b' ∉ ['/'] := by decide
      have hrest := ih fun t ht => h t (List.mem_cons_of_mem _ ht)
      have hs := scans_segment (h s List.mem_cons_self) hrest
      rw [List.flatMap_cons, List.cons_append, ← List.singleton_append,
        scanPlaceholders_plain hslash, scanBraces_plain hslash, hs]
  cases ss with
  | nil => rfl
  | cons s ss => exact hjoin (s :: ss) h

theorem mem_of_mem_splitOnPPrepend {p : Char → Bool} {cs acc segment : List Char}
    (h : segment ∈ cs.splitOnPPrepend p acc) :
    ∀ c ∈ segment, c ∈ acc ∨ c ∈ cs ∧ p c = false := by
  induction cs generalizing acc with
  | nil =>
    intro c hc
    rw [List.splitOnPPrepend, List.mem_singleton] at h
    exact .inl (List.mem_reverse.mp (h ▸ hc))
  | cons d cs ih =>
    intro c hc
    rw [List.splitOnPPrepend] at h
    split at h
    · rcases List.mem_cons.mp h with rfl | h
      · exact .inl (List.mem_reverse.mp hc)
      · rcases ih h c hc with hm | ⟨hm, hp⟩
        · cases hm
        · exact .inr ⟨List.mem_cons_of_mem _ hm, hp⟩
    · next hd =>
      rcases ih h c hc with hm | ⟨hm, hp⟩
      · rcases List.mem_cons.mp hm with rfl | hm
        · exact .inr ⟨List.mem_cons_self, by simpa using hd⟩
        · exact .inl hm
      · exact .inr ⟨List.mem_cons_of_mem _ hm, hp⟩

/-- The characters of a segment come from the path, and a slash is none of them. -/
theorem mem_of_mem_segments {cs segment : List Char} (h : segment ∈ segments cs) :
    ∀ c ∈ segment, c ∈ cs ∧ c ≠ '/' := by
  intro c hc
  have hm : segment ∈ cs.splitOnPPrepend (· == '/') [] := (List.mem_filter.mp h).1
  rcases mem_of_mem_splitOnPPrepend hm c hc with hn | ⟨hc, hp⟩
  · cases hn
  · exact ⟨hc, by simpa using hp⟩

theorem isSegment_templateSegment {cs : List Char} (ho : '\x7b' ∉ cs) (hc : '\x7d' ∉ cs)
    (hs : '/' ∉ cs) : IsSegment (templateSegment cs) := by
  unfold templateSegment
  split
  · next name =>
    have hsub : ∀ c ∈ (name.reverse.dropWhile (· = '?')).reverse, c ∈ ':' :: name := by
      intro c hm
      have hm := (List.dropWhile_sublist _).subset (List.mem_reverse.mp hm)
      exact List.mem_cons_of_mem _ (List.mem_reverse.mp hm)
    exact .named (fun hm => hc (hsub _ hm)) (fun hm => hs (hsub _ hm))
  · show IsSegment ('\x7b' :: "path".toList ++ ['\x7d'])
    exact .named (by decide) (by decide)
  · exact .plain ho

/-- On the template of a path without braces the scans find the same. -/
theorem scans_template {path : String} (h : BraceFree path) :
    Violation.scanPlaceholders none (template path).toList =
      (scanBraces none (template path).toList).filter (!·.isEmpty) := by
  rw [template, String.toList_ofList]
  refine scans_joinSegments fun s hs => ?_
  obtain ⟨segment, hm, rfl⟩ := List.mem_map.mp hs
  have hmem := mem_of_mem_segments hm
  exact isSegment_templateSegment (fun hc => h.1 (hmem _ hc).1) (fun hc => h.2 (hmem _ hc).1)
    fun hc => (hmem _ hc).2 rfl

theorem mem_distinct {xs : List String} {x : String} : x ∈ distinct xs ↔ x ∈ xs := by
  have hfold : ∀ (xs acc : List String),
      x ∈ xs.foldl (fun acc x => if acc.contains x then acc else acc ++ [x]) acc ↔
        x ∈ acc ∨ x ∈ xs := by
    intro xs
    induction xs with
    | nil => simp
    | cons y ys ih =>
      intro acc
      rw [List.foldl_cons, ih]
      by_cases hy : acc.contains y = true
      · rw [if_pos hy]
        have hy : y ∈ acc := by simpa using hy
        grind
      · rw [if_neg hy]
        simp [or_assoc]
  rw [distinct, hfold]
  simp

/-- Every placeholder that the validator sees in a template gets its parameter. -/
theorem placeholders_template {path : String} (h : BraceFree path) :
    ∀ name ∈ Violation.templatePlaceholders (template path), name ∈ placeholders (template path) := by
  intro name hn
  rw [Violation.templatePlaceholders, scans_template h] at hn
  exact mem_distinct.mpr hn

theorem head?_template (path : String) : (template path).toList.head? = some '/' := by
  rw [template, String.toList_ofList]
  cases (segments path.toList).map templateSegment <;> rfl

/-! ### Versions -/

theorem braceFree_versionSegment {mark version : String} (hm : BraceFree mark)
    (hv : BraceFree version) : BraceFree (versionSegment mark version) := by
  unfold versionSegment
  split
  · exact hv
  · rw [BraceFree, String.toList_append]
    refine ⟨fun hc => ?_, fun hc => ?_⟩
    · rcases List.mem_append.mp hc with hc | hc
      · exact hm.1 hc
      · exact hv.1 hc
    · rcases List.mem_append.mp hc with hc | hc
      · exact hm.2 hc
      · exact hv.2 hc

theorem placeholders_versionPath {segment path : String} (h : BraceFree segment) :
    ∀ name ∈ Violation.templatePlaceholders (versionPath segment path),
      name ∈ Violation.templatePlaceholders path := by
  intro name hn
  have hslash : '\x7b' ∉ '/' :: segment.toList := by
    simpa using h.1
  unfold versionPath at hn
  split at hn
  · rw [Violation.templatePlaceholders, String.toList_append] at hn
    have hnone := scanPlaceholders_plain hslash []
    rw [List.append_nil] at hnone
    have hscan : Violation.scanPlaceholders none ("/".toList ++ segment.toList) = [] := hnone
    rw [hscan] at hn
    cases hn
  · rw [Violation.templatePlaceholders, String.toList_append, String.toList_append] at hn
    have hplain := scanPlaceholders_plain hslash path.toList
    have hscan : Violation.scanPlaceholders none ("/".toList ++ segment.toList ++ path.toList) =
        Violation.scanPlaceholders none path.toList := hplain
    rwa [hscan] at hn

theorem head?_versionPath (segment path : String) :
    (versionPath segment path).toList.head? = some '/' := by
  unfold versionPath
  split <;> simp

end TypedApi.Route
