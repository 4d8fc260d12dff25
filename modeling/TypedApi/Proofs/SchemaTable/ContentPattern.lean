import TypedApi.Proofs.SchemaTable.Layers
import TypedApi.Proofs.TypeScript.Pattern

/-! What the pattern of content checks looks for.

The checks on the beginning, the inside and the end of a text are folded into one pattern. One check
alone gives a pattern that is found in exactly the texts that pass it. Several are looked ahead for
from the beginning of the text, and what is to be inside or at the end is looked for behind a
repeated point, which goes no further than the first line (`finds_contentPattern`). So a text of
several lines can pass all checks without being found (`unfound_lines`). -/
namespace TypedApi.SchemaTable

open OpenApi
open TypeScript (lineEnds)
open TypeScript.Pattern

/-! ### What is asked -/

/-- The text passes all checks. -/
structure Passes (c : Constraints) (text : String) : Prop where
  startsWith : ∀ s ∈ c.startsWith, s.toList <+: text.toList
  includes : ∀ s ∈ c.includes, s.toList <:+: text.toList
  endsWith : ∀ s ∈ c.endsWith, s.toList <:+ text.toList

/-- No line ends in front of what is to be at the end, nor in front of what is to be inside, at one
of its places at least. -/
structure OnFirstLine (c : Constraints) (text : String) : Prop where
  includes : ∀ s ∈ c.includes, ∃ before after,
    text.toList = before ++ (s.toList ++ after) ∧ ∀ x ∈ before, x ∉ lineEnds
  endsWith : ∀ s ∈ c.endsWith, ∃ before,
    text.toList = before ++ s.toList ∧ ∀ x ∈ before, x ∉ lineEnds

/-- In a text of one line everything is on the first line. -/
theorem Passes.onFirstLine {c : Constraints} {text : String} (h : Passes c text)
    (hline : ∀ x ∈ text.toList, x ∉ lineEnds) : OnFirstLine c text where
  includes s hs := by
    obtain ⟨before, after, heq⟩ := h.includes s hs
    rw [List.append_assoc] at heq
    exact ⟨before, after, heq.symm, fun x hx => hline x (heq ▸ List.mem_append_left _ hx)⟩
  endsWith s hs := by
    obtain ⟨before, heq⟩ := h.endsWith s hs
    exact ⟨before, heq.symm, fun x hx => hline x (heq ▸ List.mem_append_left _ hx)⟩

/-! ### One check -/

theorem reads_escapePattern (s : String) : Reads (escapePattern s).toList (literal s.toList) := by
  have hmarks : marks.all (patternSpecials.contains ·) = true := by decide +kernel
  have hescaped : patternSpecials.all (!Text.isAlphanumeric ·) = true := by decide +kernel
  rw [escapePattern, String.toList_ofList]
  induction s.toList with
  | nil => exact .nil
  | cons c cs ih =>
    have hone : Reads (if patternSpecials.contains c then ['\\', c] else [c]) [.one (.char c)] := by
      split
      · next hspecial =>
        have hplain := List.all_eq_true.mp hescaped c (List.contains_iff_mem.mp hspecial)
        exact fun more terms outer => readFrom_escaped (by simpa using hplain)
      · next hspecial =>
        exact fun more terms outer =>
          readFrom_char fun hmem => hspecial (List.all_eq_true.mp hmarks c hmem)
    exact hone.append ih

section Single

variable {text : String} {s : String}

theorem found_first {whole : List Char} :
    (∃ left, left ∈ restsOf whole (literal s.toList ++ []) whole) ↔ s.toList <+: whole := by
  simp only [mem_restsOf_literal, mem_restsOf_nil]
  constructor
  · rintro ⟨after, _, heq, rfl⟩
    exact ⟨after, heq.symm⟩
  · rintro ⟨after, heq⟩
    exact ⟨after, after, heq.symm, rfl⟩

theorem finds_prefix_iff : finds (.start :: (literal s.toList ++ [])) text = true ↔
    s.toList <+: text.toList :=
  finds_start_iff.trans found_first

theorem finds_infix_iff : finds (literal s.toList ++ []) text = true ↔ s.toList <:+: text.toList := by
  simp only [finds_iff, mem_restsOf_literal, mem_restsOf_nil]
  constructor
  · rintro ⟨_, ⟨before, heq⟩, after, _, rfl, rfl⟩
    exact ⟨before, after, by rw [List.append_assoc, heq]⟩
  · rintro ⟨before, after, heq⟩
    rw [List.append_assoc] at heq
    exact ⟨_, ⟨before, heq⟩, after, after, rfl, rfl⟩

theorem finds_suffix_iff : finds (literal s.toList ++ [.finish]) text = true ↔
    s.toList <:+ text.toList := by
  simp only [finds_iff, mem_restsOf_literal, mem_restsOf_finish, mem_restsOf_nil]
  constructor
  · rintro ⟨_, hrest, _, _, rfl, rfl, rfl⟩
    rwa [List.append_nil] at hrest
  · intro h
    exact ⟨_, h, [], [], (List.append_nil _).symm, rfl, rfl⟩

end Single

/-! ### Several checks -/

/-- A look ahead as it is written. -/
def lookText (before : String) (check : Option String) (after : String) : String :=
  match check with
  | none => ""
  | some s => "(?=" ++ before ++ escapePattern s ++ after ++ ")"

/-- What a look ahead is for. -/
def lookFor (before : List Term) (check : Option String) (after : List Term) : List (List Term) :=
  check.toList.map fun s => before ++ (literal s.toList ++ after)

/-- Where something begins, behind characters that end no line. -/
def anywhere : List Term := [.many .any]

def looks (c : Constraints) : List (List Term) :=
  lookFor [] c.startsWith [] ++ lookFor anywhere c.includes [] ++ lookFor anywhere c.endsWith [.finish]

theorem contentPattern_of_several {c : Constraints} (h : 1 < checkCount c) :
    contentPattern c = some ("^" ++ lookText "" c.startsWith "" ++ lookText ".*" c.includes "" ++
      lookText ".*" c.endsWith "$") := by
  unfold checkCount at h
  unfold contentPattern
  cases hs : c.startsWith <;> cases hi : c.includes <;> cases he : c.endsWith <;>
    simp [hs, hi, he, lookText, String.append_assoc] at h ⊢

theorem reads_lookText (before after : String) {bs as : List Term} (hbefore : Reads before.toList bs)
    (hafter : Reads after.toList as) (check : Option String) :
    Reads (lookText before check after).toList ((lookFor bs check as).map .ahead) := by
  cases check with
  | none => exact .nil
  | some s =>
    have hinside := (hbefore.append ((reads_escapePattern s).append hafter)).ahead
    have htext : (lookText before (some s) after).toList =
        '(' :: '?' :: '=' ::
          (before.toList ++ ((escapePattern s).toList ++ after.toList) ++ [')']) := by
      simp [lookText]
    rw [htext]
    exact hinside

theorem reads_several (c : Constraints) :
    Reads ("^" ++ lookText "" c.startsWith "" ++ lookText ".*" c.includes "" ++
      lookText ".*" c.endsWith "$").toList (.start :: (looks c).map .ahead) := by
  have hstart := reads_lookText "" "" .nil .nil c.startsWith
  have hinside := reads_lookText ".*" "" reads_anything .nil c.includes
  have hend := reads_lookText ".*" "$" reads_anything reads_finish c.endsWith
  have hall := reads_start.append (hstart.append (hinside.append hend))
  rw [looks, List.map_append, List.map_append, List.append_assoc, String.toList_append,
    String.toList_append, String.toList_append, List.append_assoc, List.append_assoc]
  exact hall

section Several

variable {text : List Char} {s : String}

theorem accepts_any {c : Char} : Atom.any.accepts c = true ↔ c ∉ lineEnds := by
  rw [Atom.accepts, decide_eq_true_iff]

theorem found_inside : (∃ left, left ∈ restsOf text (anywhere ++ (literal s.toList ++ [])) text) ↔
    ∃ before after, text = before ++ (s.toList ++ after) ∧ ∀ x ∈ before, x ∉ lineEnds := by
  simp only [anywhere, List.singleton_append, mem_restsOf_many, accepts_any, mem_restsOf_literal,
    mem_restsOf_nil]
  constructor
  · rintro ⟨_, before, _, hbefore, heq, after, rfl, rfl⟩
    exact ⟨before, _, heq, hbefore⟩
  · rintro ⟨before, after, heq, hbefore⟩
    exact ⟨after, before, _, hbefore, heq, after, rfl, rfl⟩

theorem found_last :
    (∃ left, left ∈ restsOf text (anywhere ++ (literal s.toList ++ [.finish])) text) ↔
      ∃ before, text = before ++ s.toList ∧ ∀ x ∈ before, x ∉ lineEnds := by
  simp only [anywhere, List.singleton_append, mem_restsOf_many, accepts_any, mem_restsOf_literal,
    mem_restsOf_finish, mem_restsOf_nil]
  constructor
  · rintro ⟨_, before, _, hbefore, heq, _, rfl, rfl, rfl⟩
    rw [List.append_nil] at heq
    exact ⟨before, heq, hbefore⟩
  · rintro ⟨before, heq, hbefore⟩
    exact ⟨[], before, _, hbefore, heq, [], (List.append_nil _).symm, rfl, rfl⟩

end Several

/-- Several checks: the text passes them all, on its first line. -/
theorem finds_several (c : Constraints) (text : String) :
    finds (.start :: (looks c).map .ahead) text = true ↔ Passes c text ∧ OnFirstLine c text := by
  have hlooks : finds (.start :: (looks c).map .ahead) text = true ↔
      (∀ s ∈ c.startsWith, s.toList <+: text.toList) ∧
      (∀ s ∈ c.includes, ∃ before after,
        text.toList = before ++ (s.toList ++ after) ∧ ∀ x ∈ before, x ∉ lineEnds) ∧
      ∀ s ∈ c.endsWith, ∃ before,
        text.toList = before ++ s.toList ∧ ∀ x ∈ before, x ∉ lineEnds := by
    simp only [finds_start_iff, exists_mem_restsOf_aheads, looks, lookFor, List.forall_mem_append,
      List.forall_mem_map, List.nil_append, found_first, found_inside, found_last,
      Option.mem_toList, Option.mem_def, and_assoc]
  rw [hlooks]
  constructor
  · rintro ⟨hstart, hinside, hend⟩
    refine ⟨⟨hstart, fun s hs => ?_, fun s hs => ?_⟩, hinside, hend⟩
    · obtain ⟨before, after, heq, -⟩ := hinside s hs
      exact ⟨before, after, by rw [heq, List.append_assoc]⟩
    · obtain ⟨before, heq, -⟩ := hend s hs
      exact ⟨before, heq.symm⟩
  · rintro ⟨hpasses, hfirst⟩
    exact ⟨hpasses.startsWith, hfirst.includes, hfirst.endsWith⟩

/-! ### The pattern -/

/-- One check: the text passes it. -/
theorem finds_single {c : Constraints} (h : checkCount c = 1) :
    ∃ p terms, contentPattern c = some p ∧ Reads p.toList terms ∧
      ∀ text, finds terms text = true ↔ Passes c text := by
  have hpasses (text : String) : Passes c text ↔
      (∀ s ∈ c.startsWith, s.toList <+: text.toList) ∧
      (∀ s ∈ c.includes, s.toList <:+: text.toList) ∧
      ∀ s ∈ c.endsWith, s.toList <:+ text.toList :=
    ⟨fun h => ⟨h.startsWith, h.includes, h.endsWith⟩, fun h => ⟨h.1, h.2.1, h.2.2⟩⟩
  simp only [hpasses]
  unfold checkCount at h
  unfold contentPattern
  cases hs : c.startsWith <;> cases hi : c.includes <;> cases he : c.endsWith <;>
    simp [hs, hi, he] at h
  case none.none.some e =>
    refine ⟨_, literal e.toList ++ [.finish], rfl, ?_, fun text => ?_⟩
    · rw [String.toList_append]
      exact (reads_escapePattern e).append reads_finish
    · simp [finds_suffix_iff]
  case none.some.none i =>
    refine ⟨_, literal i.toList ++ [], rfl, ?_, fun text => ?_⟩
    · rw [List.append_nil]
      exact reads_escapePattern i
    · rw [finds_infix_iff]
      simp
  case some.none.none b =>
    refine ⟨_, .start :: (literal b.toList ++ []), rfl, ?_, fun text => ?_⟩
    · rw [String.toList_append, List.append_nil]
      exact reads_start.append (reads_escapePattern b)
    · rw [finds_prefix_iff]
      simp

/-- Without an explicit pattern, the checks give one that can be read. It is found in the texts that
pass all checks: in all of them if there is one check, in those that pass them on their first line
if there are several. -/
theorem finds_contentPattern {c : Constraints} (hpattern : c.pattern = none)
    (hasked : 0 < checkCount c) :
    ∃ p terms, (∀ s, (applyRules s c).pattern = some p) ∧ read? p = some terms ∧
      ∀ text,
        (finds terms text = true ↔ Passes c text ∧ (1 < checkCount c → OnFirstLine c text)) ∧
        ((1 < checkCount c → ∀ x ∈ text.toList, x ∉ lineEnds) →
          (finds terms text = true ↔ Passes c text)) := by
  suffices hfound : ∃ p terms, contentPattern c = some p ∧ Reads p.toList terms ∧
      ∀ text, finds terms text = true ↔ Passes c text ∧ (1 < checkCount c → OnFirstLine c text) by
    obtain ⟨p, terms, hcontent, hreads, hfinds⟩ := hfound
    refine ⟨p, terms, fun s => ?_, hreads.read?, fun text => ⟨hfinds text, fun hline => ?_⟩⟩
    · rw [pattern_applyRules, hpattern, hcontent]
      rfl
    · rw [hfinds]
      exact ⟨And.left, fun hpasses => ⟨hpasses, fun hmany => hpasses.onFirstLine (hline hmany)⟩⟩
  rcases Nat.lt_or_ge 1 (checkCount c) with hmany | hsingle
  · refine ⟨_, _, contentPattern_of_several hmany, reads_several c, fun text => ?_⟩
    rw [finds_several]
    exact and_congr_right fun _ => ⟨fun h _ => h, fun h => h hmany⟩
  · obtain ⟨p, terms, hcontent, hreads, hfinds⟩ := finds_single (Nat.le_antisymm hsingle hasked)
    refine ⟨p, terms, hcontent, hreads, fun text => ?_⟩
    rw [hfinds]
    exact ⟨fun h => ⟨h, fun hmany => absurd hmany (Nat.not_lt.mpr hsingle)⟩, And.left⟩

/-- From an `a` to a `b`. -/
def fromAToB : Constraints := { startsWith := some "a", endsWith := some "b" }

theorem finds_contentPattern_fromAToB : fromAToB.pattern = none ∧ 0 < checkCount fromAToB ∧
    ∃ p terms, (∀ s, (applyRules s fromAToB).pattern = some p) ∧ read? p = some terms ∧
      ∀ text,
        (finds terms text = true ↔
          Passes fromAToB text ∧ (1 < checkCount fromAToB → OnFirstLine fromAToB text)) ∧
        ((1 < checkCount fromAToB → ∀ x ∈ text.toList, x ∉ lineEnds) →
          (finds terms text = true ↔ Passes fromAToB text)) :=
  ⟨rfl, by decide, finds_contentPattern rfl (by decide)⟩

/-- The `b` at the end of the second line is not found, though both checks pass. -/
theorem unfound_lines : ∃ terms,
    (∀ s, (applyRules s fromAToB).pattern = some "^(?=a)(?=.*b$)") ∧
    read? "^(?=a)(?=.*b$)" = some terms ∧
    Passes fromAToB "a\nb" ∧ finds terms "a\nb" = false := by
  have hcontent : contentPattern fromAToB = some "^(?=a)(?=.*b$)" := by decide +kernel
  have htext := contentPattern_of_several (c := fromAToB) (by decide)
  rw [hcontent, Option.some_inj] at htext
  refine ⟨.start :: (looks fromAToB).map .ahead, fun s => ?_, ?_, ⟨?_, ?_, ?_⟩, by decide +kernel⟩
  · rw [pattern_applyRules, hcontent]
    rfl
  · rw [htext]
    exact (reads_several fromAToB).read?
  · rintro _ ⟨⟩
    exact ⟨['\n', 'b'], rfl⟩
  · rintro _ ⟨⟩
  · rintro _ ⟨⟩
    exact ⟨['a', '\n'], rfl⟩

end TypedApi.SchemaTable
