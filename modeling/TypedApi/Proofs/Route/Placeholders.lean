import Mathlib.Data.List.TakeWhile
import TypedApi.Proofs.Route.Operation
import TypedApi.Proofs.TypeExpr.OfSchema

/-! The two scans for placeholders, compared.

The scan that makes parameters takes whatever stands between an opening brace and the next closing
one (`Braced`). The validator searches for a name in braces that stays in one segment (`Captures`).
So of a text in braces that runs over a slash the validator sees the part that is in braces in the
last segment, if there is one, and the scans find the same names exactly if no text in braces has a
slash (`scans_agree_iff`). Where one has, the validator may ask for a parameter that is not made
(`missed_placeholder`). -/
namespace TypedApi.Route

open OpenApi
open OpenApi.Violation (scanPlaceholders templatePlaceholders)

/-! ### What the scans look for -/

/-- The texts in braces, the first of which is opened behind `before`. -/
inductive Braced : List Char → List (List Char) → Prop
  | plain {cs} : '\x7b' ∉ cs → Braced cs []
  | unclosed {before cs} : '\x7b' ∉ before → '\x7d' ∉ cs → Braced (before ++ '\x7b' :: cs) []
  | closed {before text rest texts} : '\x7b' ∉ before → '\x7d' ∉ text → Braced rest texts →
    Braced (before ++ '\x7b' :: (text ++ '\x7d' :: rest)) (text :: texts)

/-- A name that stays in its segment. -/
structure IsName (name : List Char) : Prop where
  ne_nil : name ≠ []
  unclosed : '\x7d' ∉ name
  within : '/' ∉ name

/-- The text begins with a name in braces. -/
def Matches (cs : List Char) : Prop :=
  ∃ name rest, IsName name ∧ cs = '\x7b' :: (name ++ '\x7d' :: rest)

/-- The names in the matches of a search for names in braces, from the left and without overlap. -/
inductive Captures : List Char → List (List Char) → Prop
  | nil : Captures [] []
  | hit {name rest names} : IsName name → Captures rest names →
    Captures ('\x7b' :: (name ++ '\x7d' :: rest)) (name :: names)
  | miss {c cs names} : ¬ Matches (c :: cs) → Captures cs names → Captures (c :: cs) names

/-! ### The scan that makes parameters -/

theorem scanBraces_unclosed {cs : List Char} (h : '\x7d' ∉ cs) (acc : List Char) :
    scanBraces (some acc) cs = [] := by
  induction cs generalizing acc with
  | nil => rfl
  | cons c cs ih =>
    obtain ⟨hc, hcs⟩ := not_or.mp (mt List.mem_cons.mpr h)
    rw [scanBraces, if_neg (Ne.symm hc), ih hcs]

theorem scanBraces_opened {before : List Char} (h : '\x7b' ∉ before) (rest : List Char) :
    scanBraces none (before ++ '\x7b' :: rest) = scanBraces (some []) rest := by
  rw [scanBraces_plain h, scanBraces, if_pos rfl]

/-- The scan finds all texts in braces. -/
theorem braced_scanBraces (cs : List Char) : Braced cs (scanBraces none cs) := by
  -- The scan goes on behind a closing brace, so the induction is on the length.
  induction hn : cs.length using Nat.strongRecOn generalizing cs with
  | ind n ih =>
    by_cases hopen : '\x7b' ∈ cs
    · obtain ⟨before, opened, rfl, hbefore⟩ := List.eq_append_cons_of_mem hopen
      rw [scanBraces_opened hbefore]
      by_cases hclose : '\x7d' ∈ opened
      · obtain ⟨text, rest, rfl, htext⟩ := List.eq_append_cons_of_mem hclose
        rw [scanBraces_name htext]
        refine .closed hbefore htext (ih rest.length ?_ rest rfl)
        rw [← hn]
        simp only [List.length_append, List.length_cons]
        omega
      · rw [scanBraces_unclosed hclose]
        exact .unclosed hbefore hclose
    · have hnone := scanBraces_plain hopen []
      rw [List.append_nil] at hnone
      rw [hnone]
      exact .plain hopen

/-! ### The scan of the validator -/

theorem scanPlaceholders_unclosed {cs : List Char} (h : '\x7d' ∉ cs) (opened : Option (List Char)) :
    scanPlaceholders opened cs = [] := by
  induction cs generalizing opened with
  | nil => cases opened <;> rfl
  | cons c cs ih =>
    obtain ⟨hc, hcs⟩ := not_or.mp (mt List.mem_cons.mpr h)
    cases opened with
    | none =>
      rw [scanPlaceholders]
      split <;> exact ih hcs _
    | some acc =>
      rw [scanPlaceholders, if_neg (Ne.symm hc)]
      split <;> exact ih hcs _

/-- A slash ends what was opened in front of it. -/
theorem scanPlaceholders_slash {cs : List Char} (h : '\x7d' ∉ cs) (opened : Option (List Char))
    (rest : List Char) :
    scanPlaceholders opened (cs ++ '/' :: rest) = scanPlaceholders none rest := by
  induction cs generalizing opened with
  | nil => cases opened <;> simp [scanPlaceholders]
  | cons c cs ih =>
    obtain ⟨hc, hcs⟩ := not_or.mp (mt List.mem_cons.mpr h)
    cases opened with
    | none =>
      rw [List.cons_append, scanPlaceholders]
      split <;> exact ih hcs _
    | some acc =>
      rw [List.cons_append, scanPlaceholders, if_neg (Ne.symm hc)]
      split <;> exact ih hcs _

theorem scanPlaceholders_opened {before : List Char} (h : '\x7b' ∉ before) (rest : List Char) :
    scanPlaceholders none (before ++ '\x7b' :: rest) = scanPlaceholders (some []) rest := by
  rw [scanPlaceholders_plain h, scanPlaceholders, if_pos rfl]

theorem scanPlaceholders_closed (rest : List Char) :
    scanPlaceholders none ('\x7d' :: rest) = scanPlaceholders none rest := by
  rw [scanPlaceholders, if_neg (by decide)]

theorem scanPlaceholders_hit {name : List Char} (h : IsName name) (rest : List Char) :
    scanPlaceholders none ('\x7b' :: (name ++ '\x7d' :: rest)) =
      name :: scanPlaceholders none rest := by
  have hscan := scanPlaceholders_name h.unclosed h.within [] rest
  have hfilled : [name].filter (!·.isEmpty) = [name] := by simp [h.ne_nil]
  rw [scanPlaceholders, if_pos rfl, hscan, List.reverse_nil, List.nil_append, hfilled,
    List.singleton_append]

/-- Where no match begins the first character can be left out. -/
theorem scanPlaceholders_miss {c : Char} {cs : List Char} (h : ¬ Matches (c :: cs)) :
    scanPlaceholders none (c :: cs) = scanPlaceholders none cs := by
  by_cases hc : c = '\x7b'
  · subst hc
    rw [scanPlaceholders, if_pos rfl]
    -- What the brace opens ends at a slash, at once or never: the scan is as if it were not there.
    by_cases hclose : '\x7d' ∈ cs
    · obtain ⟨text, rest, rfl, htext⟩ := List.eq_append_cons_of_mem hclose
      by_cases hslash : '/' ∈ text
      · obtain ⟨a, b, rfl⟩ := List.append_of_mem hslash
        have ha : '\x7d' ∉ a := fun hm => htext (List.mem_append_left _ hm)
        rw [List.append_assoc, List.cons_append, scanPlaceholders_slash ha, scanPlaceholders_slash ha]
      · have hnil : text = [] := by
          by_contra hne
          exact h ⟨text, rest, ⟨hne, htext, hslash⟩, rfl⟩
        subst hnil
        rw [List.nil_append, scanPlaceholders_closed, scanPlaceholders, if_pos rfl]
        rfl
    · rw [scanPlaceholders_unclosed hclose, scanPlaceholders_unclosed hclose]
  · rw [scanPlaceholders, if_neg hc]

/-- The validator finds the matches of its search and nothing else. -/
theorem captures_iff {cs : List Char} {names : List (List Char)} :
    Captures cs names ↔ names = scanPlaceholders none cs := by
  constructor
  · intro h
    induction h with
    | nil => rfl
    | hit hname _ ih => rw [scanPlaceholders_hit hname, ih]
    | miss hmiss _ ih => rw [scanPlaceholders_miss hmiss, ih]
  · rintro rfl
    induction hn : cs.length using Nat.strongRecOn generalizing cs with
    | ind n ih =>
      cases cs with
      | nil => exact .nil
      | cons c cs =>
        by_cases hmatch : Matches (c :: cs)
        · obtain ⟨name, rest, hname, heq⟩ := hmatch
          rw [heq, scanPlaceholders_hit hname]
          refine .hit hname (ih rest.length ?_ rfl)
          rw [← hn, heq]
          simp only [List.length_cons, List.length_append]
          omega
        · rw [scanPlaceholders_miss hmatch]
          refine .miss hmatch (ih cs.length ?_ rfl)
          rw [← hn]
          exact Nat.lt_succ_self _

/-! ### One scan from the other -/

/-- What the validator sees of a text in braces: all of it if it has no slash, and else what is
behind the first opening brace of its last segment. -/
def lastSegmentName (text : List Char) : List Char :=
  if '/' ∈ text then ((Text.afterLast '/' text).dropWhile (· ≠ '\x7b')).tail else text

/-- Of a text without a slash, what is behind its first opening brace. -/
theorem scanPlaceholders_segment {text : List Char} (hclose : '\x7d' ∉ text) (hslash : '/' ∉ text)
    (rest : List Char) :
    scanPlaceholders none (text ++ '\x7d' :: rest) =
      [(text.dropWhile (· ≠ '\x7b')).tail].filter (!·.isEmpty) ++ scanPlaceholders none rest := by
  by_cases hopen : '\x7b' ∈ text
  · obtain ⟨before, name, rfl, hbefore⟩ := List.eq_append_cons_of_mem hopen
    have hplain : ∀ c ∈ before, decide (c ≠ '\x7b') = true := fun c hc =>
      decide_eq_true fun heq => hbefore (heq ▸ hc)
    have hname : ((before ++ '\x7b' :: name).dropWhile (· ≠ '\x7b')).tail = name := by
      rw [List.dropWhile_append_of_pos hplain]
      simp
    have hclose' : '\x7d' ∉ name := fun hm =>
      hclose (List.mem_append_right _ (List.mem_cons_of_mem _ hm))
    have hslash' : '/' ∉ name := fun hm =>
      hslash (List.mem_append_right _ (List.mem_cons_of_mem _ hm))
    rw [hname, List.append_assoc, List.cons_append, scanPlaceholders_opened hbefore,
      scanPlaceholders_name hclose' hslash', List.reverse_nil, List.nil_append]
  · have hnone : text.dropWhile (· ≠ '\x7b') = [] := List.dropWhile_eq_nil_iff.mpr fun c hc =>
      decide_eq_true fun heq => hopen (heq ▸ hc)
    rw [hnone, scanPlaceholders_plain hopen, scanPlaceholders_closed]
    rfl

/-- What is found of a text that has been opened by a brace. -/
theorem scanPlaceholders_text {text : List Char} (h : '\x7d' ∉ text) (rest : List Char) :
    scanPlaceholders (some []) (text ++ '\x7d' :: rest) =
      [lastSegmentName text].filter (!·.isEmpty) ++ scanPlaceholders none rest := by
  unfold lastSegmentName
  split
  · next hslash =>
    -- the last slash is the first one of the reversed text
    obtain ⟨b, a, hreverse, hb⟩ := List.eq_append_cons_of_mem (List.mem_reverse.mpr hslash)
    have htext : text = a.reverse ++ '/' :: b.reverse := by
      rw [← List.reverse_reverse text, hreverse]
      simp
    have hlast : '/' ∉ b.reverse := fun hm => hb (List.mem_reverse.mp hm)
    subst htext
    have ha : '\x7d' ∉ a.reverse := fun hm => h (List.mem_append_left _ hm)
    have hb' : '\x7d' ∉ b.reverse := fun hm =>
      h (List.mem_append_right _ (List.mem_cons_of_mem _ hm))
    rw [TypeExpr.afterLast_append hlast, List.append_assoc, List.cons_append,
      scanPlaceholders_slash ha, scanPlaceholders_segment hb' hlast]
  · next hslash =>
    exact scanPlaceholders_name h hslash [] rest

theorem Braced.scanPlaceholders_eq {cs : List Char} {texts : List (List Char)} (h : Braced cs texts) :
    scanPlaceholders none cs = (texts.map lastSegmentName).filter (!·.isEmpty) := by
  induction h with
  | @plain cs hopen =>
    have hnone := scanPlaceholders_plain hopen []
    rw [List.append_nil] at hnone
    exact hnone
  | unclosed hbefore hclose =>
    rw [scanPlaceholders_opened hbefore, scanPlaceholders_unclosed hclose]
    rfl
  | closed hbefore htext _ ih =>
    rw [scanPlaceholders_opened hbefore, scanPlaceholders_text htext, ih, List.map_cons,
      ← List.filter_append]
    rfl

theorem lastSegmentName_of_within {text : List Char} (h : '/' ∉ text) : lastSegmentName text = text :=
  if_neg h

theorem Captures.isName {cs : List Char} {names : List (List Char)} (h : Captures cs names) :
    ∀ name ∈ names, IsName name := by
  induction h with
  | nil => exact List.forall_mem_nil _
  | hit hname _ ih => exact List.forall_mem_cons.mpr ⟨hname, ih⟩
  | miss _ _ ih => exact ih

/-! ### Templates -/

theorem mem_placeholders {path name : String} :
    name ∈ placeholders path ↔ name ≠ "" ∧ name.toList ∈ scanBraces none path.toList := by
  rw [placeholders, mem_distinct, List.mem_map]
  constructor
  · rintro ⟨text, htext, rfl⟩
    obtain ⟨hm, hfilled⟩ := List.mem_filter.mp htext
    refine ⟨fun heq => ?_, by rwa [String.toList_ofList]⟩
    have hnil : text = [] := by simpa using congrArg String.toList heq
    rw [hnil] at hfilled
    cases hfilled
  · rintro ⟨hne, hm⟩
    refine ⟨name.toList, List.mem_filter.mpr ⟨hm, ?_⟩, String.ofList_toList⟩
    simpa using hne

/-- The validator asks for what it sees of the texts in braces. -/
theorem mem_templatePlaceholders {path name : String} :
    name ∈ templatePlaceholders path ↔
      name ≠ "" ∧ ∃ text ∈ placeholders path, lastSegmentName text.toList = name.toList := by
  have hscan := (braced_scanBraces path.toList).scanPlaceholders_eq
  have hname : name ∈ templatePlaceholders path ↔ name.toList ∈ scanPlaceholders none path.toList := by
    rw [templatePlaceholders, List.mem_map]
    refine ⟨?_, fun hm => ⟨_, hm, String.ofList_toList⟩⟩
    rintro ⟨cs, hcs, rfl⟩
    rwa [String.toList_ofList]
  have hfilled : (!name.toList.isEmpty) = true ↔ name ≠ "" := by simp
  rw [hname, hscan, List.mem_filter, List.mem_map, hfilled, and_comm]
  refine and_congr_right fun hne => ⟨?_, ?_⟩
  · rintro ⟨text, htext, heq⟩
    refine ⟨String.ofList text, mem_placeholders.mpr ⟨fun hnil => hne ?_, ?_⟩, ?_⟩
    · have hempty : text = [] := by simpa using congrArg String.toList hnil
      subst hempty
      exact String.toList_inj.mp heq.symm
    · rwa [String.toList_ofList]
    · rwa [String.toList_ofList]
  · rintro ⟨text, htext, heq⟩
    exact ⟨text.toList, (mem_placeholders.mp htext).2, heq⟩

/-- The validator finds the matches of its search. They come from the texts in braces, and are
these texts exactly if none of them has a slash; then every parameter that the validator asks for
is declared or made. -/
theorem scans_agree_iff (path : String) :
    (∀ names, Captures path.toList names ↔ names = (templatePlaceholders path).map String.toList) ∧
    (∀ name, name ∈ templatePlaceholders path ↔
      name ≠ "" ∧ ∃ text ∈ placeholders path, lastSegmentName text.toList = name.toList) ∧
    ((∀ name, name ∈ placeholders path ↔ name ∈ templatePlaceholders path) ↔
      ∀ name ∈ placeholders path, '/' ∉ name.toList) ∧
    ((∀ name ∈ placeholders path, '/' ∉ name.toList) → ∀ declared,
      ∀ name ∈ templatePlaceholders path, name ∈ pathNames (undeclared path declared ++ declared)) := by
  have hscan : (templatePlaceholders path).map String.toList = scanPlaceholders none path.toList := by
    rw [templatePlaceholders, List.map_map]
    exact (List.map_congr_left fun cs _ => String.toList_ofList).trans (List.map_id _)
  have hcaptures := captures_iff.mpr hscan
  have hagree (h : ∀ name ∈ placeholders path, '/' ∉ name.toList) (name : String) :
      name ∈ placeholders path ↔ name ∈ templatePlaceholders path := by
    rw [mem_templatePlaceholders]
    constructor
    · intro hm
      exact ⟨(mem_placeholders.mp hm).1, name, hm, lastSegmentName_of_within (h name hm)⟩
    · rintro ⟨-, text, htext, heq⟩
      rw [lastSegmentName_of_within (h text htext)] at heq
      rwa [← String.toList_inj.mp heq]
  refine ⟨fun names => hscan ▸ captures_iff, fun name => mem_templatePlaceholders,
    ⟨fun h name hm => ?_, hagree⟩, ?_⟩
  · have hname : name.toList ∈ (templatePlaceholders path).map String.toList :=
      List.mem_map_of_mem ((h name).mp hm)
    exact (hcaptures.isName _ hname).within
  · intro h declared name hm
    exact declared_undeclared path declared name ((hagree h name).mpr hm)

/-- A brace that is opened in one segment and again in the next: the scans find different names,
and the parameter that the validator asks for is not made. -/
theorem missed_placeholder :
    let path := "/\x7ba/\x7bb\x7d"
    placeholders path = ["a/\x7bb"] ∧ templatePlaceholders path = ["b"] ∧
      ¬ (∀ name, name ∈ placeholders path ↔ name ∈ templatePlaceholders path) ∧
      "b" ∉ pathNames (undeclared path []) := by
  have hfound : "b" ∈ templatePlaceholders "/\x7ba/\x7bb\x7d" := by decide
  have hmissed : "b" ∉ placeholders "/\x7ba/\x7bb\x7d" := by decide
  exact ⟨by decide, by decide, fun h => hmissed ((h "b").mpr hfound), by decide⟩

end TypedApi.Route
