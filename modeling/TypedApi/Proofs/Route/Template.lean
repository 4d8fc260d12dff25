import Mathlib.Data.List.DropRight
import TypedApi.Proofs.Json.Table
import TypedApi.Proofs.Route.Path

/-! The template of a path.

A template has one segment for each segment of its path, and none of them is empty or can be taken
apart (`segments_joinSegments`). So it is its own template. The parameters that are found in it are
those that the segments of the path mark, each once, if the path itself has no braces
(`templated_template`). -/
namespace TypedApi.Route

/-! ### Segments -/

/-- Segments behind slashes are found again, whatever segment stands in front. -/
theorem splitOn_segments {segment : List Char} {ss : List (List Char)} (h : '/' ∉ segment)
    (hss : ∀ s ∈ ss, '/' ∉ s) :
    (segment ++ ss.flatMap ('/' :: ·)).splitOn '/' = segment :: ss := by
  induction ss generalizing segment with
  | nil =>
    rw [List.flatMap_nil, List.append_nil]
    exact List.splitOn_eq_singleton h
  | cons s ss ih =>
    have hsegment : ∀ c ∈ segment, (c == '/') = false := fun c hc =>
      beq_eq_false_iff_ne.mpr fun heq => h (heq ▸ hc)
    obtain ⟨hs, hss⟩ := List.forall_mem_cons.mp hss
    rw [List.flatMap_cons, List.cons_append]
    refine (List.splitOnP_append_cons_of_forall_mem hsegment '/' rfl _).trans ?_
    exact congrArg (segment :: ·) (ih hs hss)

/-- A segment is not empty and has no slash. -/
structure IsPart (segment : List Char) : Prop where
  ne_nil : segment ≠ []
  within : '/' ∉ segment

theorem isPart_of_mem_segments {cs segment : List Char} (h : segment ∈ segments cs) :
    IsPart segment where
  ne_nil := by simpa using (List.mem_filter.mp h).2
  within := fun hslash => (mem_of_mem_segments h _ hslash).2 rfl

theorem segments_joinSegments {ss : List (List Char)} (h : ∀ s ∈ ss, IsPart s) :
    segments (joinSegments ss) = ss := by
  cases ss with
  | nil => rfl
  | cons s ss =>
    have hsplit : (joinSegments (s :: ss)).splitOn '/' = [] :: s :: ss :=
      splitOn_segments List.not_mem_nil fun t ht => (h t ht).within
    have hfilled : (s :: ss).filter (!·.isEmpty) = s :: ss :=
      List.filter_eq_self.mpr fun t ht => by simpa using (h t ht).ne_nil
    rw [segments, hsplit]
    exact hfilled

/-! ### Segments of templates -/

/-- The name that a segment of a path marks: what is behind a colon, without question marks at the
end, or `path` for an asterisk. -/
def markedName : List Char → Option (List Char)
  | ':' :: name => some (name.rdropWhile (· = '?'))
  | ['*'] => some "path".toList
  | _ => none

/-- A segment of a template is a name in braces, or the segment of the path as it is. -/
theorem templateSegment_cases (segment : List Char) :
    (∃ name, markedName segment = some name ∧
      templateSegment segment = '\x7b' :: (name ++ ['\x7d']) ∧
      ∀ c ∈ name, c ∈ segment ∨ c ∈ "path".toList) ∨
    (markedName segment = none ∧ templateSegment segment = segment) := by
  unfold templateSegment
  split
  · next name =>
    exact .inl ⟨_, rfl, rfl, fun c hc =>
      .inl (List.mem_cons_of_mem _ ((List.rdropWhile_prefix _ name).subset hc))⟩
  · exact .inl ⟨_, rfl, rfl, fun c hc => .inr hc⟩
  · next hcolon hstar =>
    refine .inr ⟨?_, rfl⟩
    unfold markedName
    split
    · exact absurd rfl (hcolon _)
    · exact absurd rfl hstar
    · rfl

theorem isPart_templateSegment {segment : List Char} (h : IsPart segment) :
    IsPart (templateSegment segment) := by
  obtain ⟨name, -, heq, hname⟩ | ⟨-, heq⟩ := templateSegment_cases segment
  · rw [heq]
    refine ⟨List.cons_ne_nil _ _, fun hslash => ?_⟩
    have hmem : '/' ∈ name := by simpa using hslash
    exact (hname _ hmem).elim h.within (by decide)
  · rwa [heq]

/-- A segment of a template marks nothing any more. -/
theorem templateSegment_templateSegment (segment : List Char) :
    templateSegment (templateSegment segment) = templateSegment segment := by
  obtain ⟨name, -, heq, -⟩ | ⟨-, heq⟩ := templateSegment_cases segment
  · rw [heq, templateSegment]
    · exact fun rest hrest => absurd (List.cons.inj hrest).1 (by decide)
    · exact fun hstar => absurd (List.cons.inj hstar).1 (by decide)
  · rw [heq, heq]

/-- The braces of a template stand around the names that are marked. -/
theorem scanBraces_templateSegment {segment : List Char} (ho : '\x7b' ∉ segment)
    (hc : '\x7d' ∉ segment) (rest : List Char) :
    scanBraces none (templateSegment segment ++ rest) =
      (markedName segment).toList ++ scanBraces none rest := by
  obtain ⟨name, hmarked, heq, hname⟩ | ⟨hmarked, heq⟩ := templateSegment_cases segment
  · have hclose : '\x7d' ∉ name := fun hm => (hname _ hm).elim hc (by decide)
    have hscan := scanBraces_name hclose [] rest
    rw [heq, hmarked, List.cons_append, List.append_assoc, List.singleton_append, scanBraces,
      if_pos rfl, hscan]
    rfl
  · rw [heq, hmarked, scanBraces_plain ho]
    rfl

theorem scanBraces_joinSegments {ss : List (List Char)}
    (h : ∀ s ∈ ss, '\x7b' ∉ s ∧ '\x7d' ∉ s) :
    scanBraces none (joinSegments (ss.map templateSegment)) = ss.filterMap markedName := by
  have hjoin : scanBraces none ((ss.map templateSegment).flatMap ('/' :: ·)) =
      ss.filterMap markedName := by
    induction ss with
    | nil => rfl
    | cons s ss ih =>
      obtain ⟨⟨ho, hc⟩, hss⟩ := List.forall_mem_cons.mp h
      have hslash : '\x7b' ∉ ['/'] := by decide
      rw [List.map_cons, List.flatMap_cons, List.cons_append, ← List.singleton_append,
        scanBraces_plain hslash, scanBraces_templateSegment ho hc, ih hss]
      cases hmarked : markedName s with
      | none => rw [List.filterMap_cons_none hmarked]; rfl
      | some name => rw [List.filterMap_cons_some hmarked]; rfl
  cases ss with
  | nil => rfl
  | cons s ss => exact hjoin

/-! ### Templates -/

theorem toList_template (path : String) :
    (template path).toList = joinSegments ((segments path.toList).map templateSegment) :=
  String.toList_ofList

theorem isPart_of_mem_template (path : String) :
    ∀ s ∈ (segments path.toList).map templateSegment, IsPart s := by
  intro s hs
  obtain ⟨segment, hsegment, rfl⟩ := List.mem_map.mp hs
  exact isPart_templateSegment (isPart_of_mem_segments hsegment)

theorem segments_template (path : String) :
    segments (template path).toList = (segments path.toList).map templateSegment := by
  rw [toList_template, segments_joinSegments (isPart_of_mem_template path)]

theorem template_template (path : String) : template (template path) = template path := by
  have hsame : templateSegment ∘ templateSegment = templateSegment :=
    funext templateSegment_templateSegment
  have hsegments : (segments (template path).toList).map templateSegment =
      (segments path.toList).map templateSegment := by
    rw [segments_template, List.map_map, hsame]
  show String.ofList (joinSegments ((segments (template path).toList).map templateSegment)) = _
  rw [hsegments]
  rfl

/-- What comes again later is dropped. -/
theorem distinct_eq_eraseDups (xs : List String) : distinct xs = xs.eraseDups := by
  induction xs using List.reverseRecOn with
  | nil => rfl
  | append_singleton xs x ih =>
    have hstep : distinct (xs ++ [x]) =
        if (distinct xs).contains x then distinct xs else distinct xs ++ [x] := by
      rw [distinct, List.foldl_append]
      rfl
    have hseen : (distinct xs).contains x = true ↔ x ∈ xs := List.contains_iff_mem.trans mem_distinct
    rw [hstep, Json.eraseDups_append_singleton, ← ih]
    exact if_congr hseen rfl rfl

/-- The template of a path: each segment of the path behind a slash, and the names that the path
marks as its placeholders. -/
structure Templated (path template : String) : Prop where
  rooted : template.toList.head? = some '/'
  /-- There are as many segments as in the path, none of them empty, or there is a slash alone. -/
  parts : (segments path.toList = [] ∧ template = "/") ∨
    ∃ ss, template.toList.splitOn '/' = [] :: ss ∧ (∀ s ∈ ss, s ≠ []) ∧
      ss.length = (segments path.toList).length
  settled : Route.template template = template
  /-- The names that are marked and not empty, each where it comes first. -/
  names : placeholders template =
    ((((segments path.toList).filterMap markedName).filter (!·.isEmpty)).map String.ofList).eraseDups

theorem templated_template {path : String} (h : BraceFree path) : Templated path (template path) where
  rooted := head?_template path
  parts := by
    have hparts := isPart_of_mem_template path
    cases hsegments : segments path.toList with
    | nil =>
      refine .inl ⟨rfl, ?_⟩
      rw [template, hsegments]
      rfl
    | cons s ss =>
      rw [hsegments] at hparts
      refine .inr ⟨(s :: ss).map templateSegment, ?_, fun t ht => (hparts t ht).ne_nil,
        List.length_map _⟩
      rw [toList_template, hsegments]
      exact splitOn_segments List.not_mem_nil fun t ht => (hparts t ht).within
  settled := template_template path
  names := by
    have hplain : ∀ s ∈ segments path.toList, '\x7b' ∉ s ∧ '\x7d' ∉ s := fun s hs =>
      ⟨fun ho => h.1 (mem_of_mem_segments hs _ ho).1, fun hc => h.2 (mem_of_mem_segments hs _ hc).1⟩
    rw [placeholders, toList_template, scanBraces_joinSegments hplain, distinct_eq_eraseDups]

/-- Slashes at every place, a name that comes twice, one that is empty, and question marks. -/
theorem templated_template_orgs :
    let path := "//orgs/:org?/:/*/:id??/a:b?/:org"
    let template := "/orgs/\x7borg\x7d/\x7b\x7d/\x7bpath\x7d/\x7bid\x7d/a:b?/\x7borg\x7d"
    BraceFree path ∧ Route.template path = template ∧ Templated path template ∧
      placeholders template = ["org", "path", "id"] := by
  intro path template
  have hfree : BraceFree path := by decide
  have htemplate : Route.template path = template := by decide
  have hnames : placeholders template = ["org", "path", "id"] := by decide
  exact ⟨hfree, htemplate, htemplate ▸ templated_template hfree, hnames⟩

end TypedApi.Route
