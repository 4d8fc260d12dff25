import Mathlib.Data.List.Chain
import TypedApi.TypeScript.Comment

/-! The comments of a client end where they should.

A comment ends at its first end mark. The texts that come into comments have their end marks broken
(`unended_replaceFrom`), and what is put around their lines makes no new one. So whatever a document
says in titles and descriptions, the end mark of a comment is the only one in it
(`enclosed_summary`), and a reader of the text goes on right behind the comment
(`pastComment_summary`). -/
namespace TypedApi.TypeScript

/-- No end mark of a comment stands in the text. -/
def Unended (cs : List Char) : Prop := cs.IsChain fun a b => ¬ (a = '*' ∧ b = '/')

instance (cs : List Char) : Decidable (Unended cs) :=
  inferInstanceAs (Decidable (cs.IsChain fun a b => ¬ (a = '*' ∧ b = '/')))

/-- What stands behind the first end mark. -/
def pastMark : List Char → Option (List Char)
  | [] => none
  | '*' :: '/' :: rest => some rest
  | _ :: rest => pastMark rest

/-- What stands behind the comment that a text begins with, and behind the blanks there. -/
def pastComment (cs : List Char) : List Char :=
  match Text.afterPrefix? ['/', '*'] cs with
  | none => cs
  | some rest => ((pastMark rest).map Text.trimStart).getD []

/-! ### Texts without an end mark -/

variable {cs ds : List Char}

theorem Unended.append (hc : Unended cs) (hd : Unended ds)
    (hmeet : cs.getLast? ≠ some '*' ∨ ds.head? ≠ some '/') : Unended (cs ++ ds) := by
  refine List.isChain_append.mpr ⟨hc, hd, fun a ha b hb hmark => ?_⟩
  obtain ⟨rfl, rfl⟩ := hmark
  exact hmeet.elim (· ha) (· hb)

theorem unended_flatten {pieces : List (List Char)} (h : ∀ p ∈ pieces, Unended p)
    (hlast : ∀ p ∈ pieces, p.getLast? ≠ some '*') : Unended pieces.flatten := by
  induction pieces with
  | nil => exact .nil
  | cons p pieces ih =>
    obtain ⟨hp, hpieces⟩ := List.forall_mem_cons.mp h
    obtain ⟨hplast, hplasts⟩ := List.forall_mem_cons.mp hlast
    exact hp.append (ih hpieces hplasts) (.inl hplast)

theorem unended_of_notMem (h : '/' ∉ cs) : Unended cs := by
  induction cs with
  | nil => exact .nil
  | cons c cs ih =>
    rw [List.mem_cons, not_or] at h
    refine List.isChain_cons.mpr ⟨fun b hb hmark => h.2 ?_, ih h.2⟩
    rw [hmark.2] at hb
    exact List.mem_of_mem_head? hb

theorem not_unended_mark (before after : List Char) : ¬ Unended (before ++ '*' :: '/' :: after) :=
  fun h => (List.isChain_cons_cons.mp (List.isChain_append.mp h).2.1).1 ⟨rfl, rfl⟩

/-- Nothing else stands behind an end mark, if it is the first and none begins behind its star. -/
theorem eq_of_mark {before after rest : List Char} (hcs : Unended cs) (hrest : Unended ('/' :: rest))
    (h : cs ++ '*' :: '/' :: rest = before ++ '*' :: '/' :: after) : after = rest := by
  induction cs generalizing before with
  | nil =>
    cases before with
    | nil => exact (List.cons.inj (List.cons.inj h).2).2.symm
    | cons b before =>
      rw [(List.cons.inj h).2] at hrest
      exact absurd hrest (not_unended_mark before after)
  | cons c cs ih =>
    cases before with
    | nil =>
      -- the star that ends `cs` or a slash behind a star in it
      cases cs with
      | nil => cases h
      | cons d cs =>
        obtain ⟨rfl, htail⟩ := List.cons.inj h
        obtain ⟨rfl, -⟩ := List.cons.inj htail
        exact absurd hcs (not_unended_mark [] cs)
    | cons b before => exact ih hcs.tail (List.cons.inj h).2

theorem pastMark_cons {c : Char} (h : ∀ b ∈ cs.head?, ¬ (c = '*' ∧ b = '/')) :
    pastMark (c :: cs) = pastMark cs := by
  rw [pastMark]
  rintro rest rfl rfl
  exact h '/' rfl ⟨rfl, rfl⟩

/-- The first end mark is the one behind a text without any. -/
theorem pastMark_append (h : Unended cs) (rest : List Char) :
    pastMark (cs ++ '*' :: '/' :: rest) = some rest := by
  induction cs with
  | nil => rfl
  | cons c cs ih =>
    obtain ⟨hc, hcs⟩ := List.isChain_cons.mp h
    rw [List.cons_append, pastMark_cons, ih hcs]
    cases cs with
    | nil =>
      rintro b hb ⟨-, rfl⟩
      cases hb
    | cons d cs => exact hc

/-- What comes out begins with a slash only if the text did: a new mark begins with a star. -/
theorem head?_replace (h : (Text.replace ['*', '/'] ['*', '\\', '/'] cs).head? = some '/') :
    cs.head? = some '/' := by
  cases cs with
  | nil => cases h
  | cons c cs =>
    rw [Text.replace, Text.replaceFrom] at h
    split at h
    · cases h
    · exact h

/-- Breaking every end mark leaves none. -/
theorem unended_replaceFrom (skip : Nat) (cs : List Char) :
    Unended (Text.replaceFrom ['*', '/'] ['*', '\\', '/'] skip cs) := by
  induction cs generalizing skip with
  | nil => cases skip <;> exact .nil
  | cons c cs ih =>
    cases skip with
    | succ skip => exact ih skip
    | zero =>
      rw [Text.replaceFrom]
      split
      · exact Unended.append (by decide) (ih 1) (.inl (by decide))
      · next hmark =>
        refine List.isChain_cons.mpr ⟨fun b hb hended => hmark ?_, ih 0⟩
        obtain ⟨rfl, rfl⟩ := hended
        obtain ⟨ds, rfl⟩ := List.head?_eq_some_iff.mp (head?_replace hb)
        rfl

/-! ### Lines -/

theorem trimEnd_isPrefix (cs : List Char) : Text.trimEnd cs <+: cs := by
  induction cs with
  | nil => exact List.prefix_rfl
  | cons c cs ih =>
    rw [Text.trimEnd]
    split
    · split
      · exact List.nil_prefix
      · exact List.cons_prefix_cons.mpr ⟨rfl, List.nil_prefix⟩
    · exact List.cons_prefix_cons.mpr ⟨rfl, ih⟩

theorem dropReturn_isPrefix (cs : List Char) : Text.dropReturn cs <+: cs := by
  induction cs with
  | nil => exact List.prefix_rfl
  | cons c cs ih =>
    unfold Text.dropReturn
    split
    · exact List.nil_prefix
    · exact List.nil_prefix
    · next heq =>
      cases heq
      exact List.cons_prefix_cons.mpr ⟨rfl, ih⟩

theorem infix_intercalate {sep line : List Char} {lines : List (List Char)} (h : line ∈ lines) :
    line <:+: sep.intercalate lines := by
  induction lines with
  | nil => cases h
  | cons first lines ih =>
    cases lines with
    | nil =>
      simp only [List.mem_singleton.mp h, List.intercalate_singleton]
      exact List.infix_rfl
    | cons second lines =>
      rw [List.intercalate_cons_cons]
      rcases List.mem_cons.mp h with rfl | h
      · rw [List.append_assoc]
        exact (List.prefix_append _ _).isInfix
      · exact (ih h).trans (List.suffix_append _ _).isInfix

theorem infix_of_mem_splitOn {line : List Char} {c : Char} (h : line ∈ cs.splitOn c) : line <:+: cs := by
  have hinfix : line <:+: [c].intercalate (cs.splitOn c) := infix_intercalate h
  rwa [List.intercalate_splitOn] at hinfix

/-- A line stands in the text. -/
theorem infix_of_mem_lines {line : List Char} (h : line ∈ Text.lines cs) : line <:+: cs := by
  unfold Text.lines at h
  have hsplit : ∀ line ∈ (cs.splitOn '\n').reverse, line <:+: cs := fun line h =>
    infix_of_mem_splitOn (List.mem_reverse.mp h)
  have hdrop : ∀ full : List (List Char), (∀ line ∈ full, line <:+: cs) →
      ∀ line ∈ full.map Text.dropReturn, line <:+: cs := by
    intro full hfull line hline
    obtain ⟨l, hl, rfl⟩ := List.mem_map.mp hline
    exact (dropReturn_isPrefix l).isInfix.trans (hfull l hl)
  split at h
  · cases h
  · next full heq =>
    rw [heq] at hsplit
    exact hdrop full (List.forall_mem_cons.mp hsplit).2 line (List.mem_reverse.mp h)
  · next last full _ heq =>
    rw [heq] at hsplit
    obtain ⟨hlast, hfull⟩ := List.forall_mem_cons.mp hsplit
    rcases List.mem_cons.mp (List.mem_reverse.mp h) with rfl | h
    · exact hlast
    · exact hdrop full hfull line h

/-! ### Comments -/

theorem unended_commentText (s : String) : Unended (commentText s) := unended_replaceFrom 0 _

theorem unended_commentLine {line : List Char} (h : Unended line) : Unended (commentLine line) := by
  unfold commentLine
  split
  · decide
  · have hline : Unended (Text.trimEnd line) := h.prefix (trimEnd_isPrefix line)
    exact (Unended.append (by decide) hline (.inl (by decide))).append (by decide) (.inr (by decide))

theorem head?_commentLine (line : List Char) : (commentLine line).head? = some ' ' := by
  unfold commentLine
  split <;> rfl

theorem getLast?_commentLine (line : List Char) : (commentLine line).getLast? = some '\n' := by
  unfold commentLine
  split
  · rfl
  · exact List.getLast?_concat

/-- A comment stands between its marks, and its own end mark is the first. -/
theorem comment_eq {indent : String} (hindent : '/' ∉ indent.toList) (s : String) :
    ∃ body, (comment s indent).toList = indent.toList ++ '/' :: '*' :: (body ++ "*/\n".toList) ∧
      body.head? = some '*' ∧ Unended body := by
  have hmargin : Unended indent.toList := unended_of_notMem hindent
  have htext := unended_commentText s
  unfold comment
  dsimp only
  rw [String.toList_ofList]
  split
  · let block := (Text.lines (commentText s)).flatMap fun line => indent.toList ++ commentLine line
    have hblock : Unended block := by
      refine unended_flatten (fun p hp => ?_) fun p hp => ?_
      · obtain ⟨line, hline, rfl⟩ := List.mem_map.mp hp
        have hinside : Unended line := htext.infix (infix_of_mem_lines hline)
        refine hmargin.append (unended_commentLine hinside) (.inr ?_)
        rw [head?_commentLine]
        decide
      · obtain ⟨line, -, rfl⟩ := List.mem_map.mp hp
        rw [List.getLast?_append, getLast?_commentLine, Option.some_or]
        decide
    have hopen : Unended ['*', '\n'] := by decide
    have hclose : Unended (indent.toList ++ [' ']) := hmargin.append (by decide) (.inr (by decide))
    have hhead : (indent.toList ++ [' ']).head? ≠ some '/' := fun hslash => by
      rcases List.mem_append.mp (List.mem_of_mem_head? hslash) with hmem | hmem
      · exact hindent hmem
      · exact absurd (List.mem_singleton.mp hmem) (by decide)
    refine ⟨['*', '\n'] ++ block ++ (indent.toList ++ [' ']), by simp [block], rfl, ?_⟩
    exact (hopen.append hblock (.inl (by decide))).append hclose (.inr hhead)
  · refine ⟨['*', ' '] ++ commentText s ++ [' '], by simp, rfl, ?_⟩
    exact (Unended.append (by decide) htext (.inl (by decide))).append (by decide) (.inr (by decide))

/-- A reader goes on behind the comment of a title and a description, whatever they say. -/
theorem pastComment_summary (title description : Option String) {c : Char} (hslash : c ≠ '/')
    (hblank : Text.isBlank c = false) (rest : List Char) :
    pastComment ((summary title description "").toList ++ c :: rest) = c :: rest := by
  have hmargin : '/' ∉ "".toList := by decide
  have hcomment : ∀ s, pastComment ((comment s "").toList ++ c :: rest) = c :: rest := by
    intro s
    obtain ⟨body, heq, -, hbody⟩ := comment_eq hmargin s
    have htext : (comment s "").toList ++ c :: rest =
        ['/', '*'] ++ (body ++ '*' :: '/' :: '\n' :: c :: rest) := by
      rw [heq]
      simp
    rw [htext, pastComment, Text.afterPrefix?_append]
    dsimp only
    have hfeed : Text.isBlank '\n' = true := by decide
    rw [pastMark_append hbody]
    simp [Text.trimStart, hfeed, hblank]
  have hnone : pastComment (c :: rest) = c :: rest := by
    simp [pastComment, Text.afterPrefix?, Ne.symm hslash]
  unfold summary
  split
  · exact hnone
  · exact hcomment _
  · exact hcomment _
  · split
    · exact hcomment _
    · exact hcomment _

/-- A text is one comment behind a margin. -/
structure Enclosed (margin text : List Char) : Prop where
  opened : margin ++ "/**".toList <+: text
  closed : "*/\n".toList <:+ text
  /-- Its own end mark is the only one. -/
  once : ∀ before after, text = before ++ '*' :: '/' :: after → after = ['\n']
  /-- A reader that is inside goes on behind it, whatever follows. -/
  passed : ∃ inside, text = margin ++ '/' :: '*' :: inside ∧
    ∀ rest, pastMark (inside ++ rest) = some ('\n' :: rest)

theorem enclosed_comment {indent : String} (hindent : ∀ c ∈ indent.toList, Text.isBlank c = true)
    (s : String) : Enclosed indent.toList (comment s indent).toList := by
  have hmark : ∀ c, Text.isBlank c = false → c ∉ indent.toList := fun c hc hmem => by
    rw [hindent c hmem] at hc
    cases hc
  have hslash : '/' ∉ indent.toList := hmark '/' (by decide)
  have hstar : indent.toList.getLast? ≠ some '*' := fun hlast =>
    hmark '*' (by decide) (List.mem_of_getLast? hlast)
  obtain ⟨body, heq, hopen, hbody⟩ := comment_eq hslash s
  have hinside : Unended ('/' :: '*' :: body) := by
    refine List.isChain_cons_cons.mpr ⟨by decide, List.isChain_cons.mpr ⟨fun c hc hended => ?_, hbody⟩⟩
    rw [hopen] at hc
    obtain rfl := Option.some.inj hc
    exact absurd hended (by decide)
  refine ⟨?_, ?_, fun before after hsplit => ?_, _, heq, fun rest => ?_⟩
  · obtain ⟨more, rfl⟩ := List.head?_eq_some_iff.mp hopen
    exact ⟨more ++ "*/\n".toList, by simp [heq]⟩
  · exact ⟨indent.toList ++ '/' :: '*' :: body, by simp [heq]⟩
  · have hbefore : Unended (indent.toList ++ '/' :: '*' :: body) :=
      (unended_of_notMem hslash).append hinside (.inl hstar)
    have hclose : Unended ['/', '\n'] := by decide
    have hmarks : (indent.toList ++ '/' :: '*' :: body) ++ '*' :: '/' :: ['\n'] =
        before ++ '*' :: '/' :: after := by
      rw [← hsplit, heq]
      simp
    exact eq_of_mark hbefore hclose hmarks
  · rw [List.append_assoc]
    exact pastMark_append hbody ('\n' :: rest)

/-- Whatever a document says, its comments end at their last mark and nowhere else. There is none
where it says nothing. -/
theorem enclosed_summary {indent : String} (hindent : ∀ c ∈ indent.toList, Text.isBlank c = true) :
    (∀ s, Enclosed indent.toList (comment s indent).toList) ∧
      ∀ title description,
        (summary title description indent = "" ∧ filled? title = none ∧ filled? description = none) ∨
          Enclosed indent.toList (summary title description indent).toList := by
  have hcomment := enclosed_comment hindent
  refine ⟨hcomment, fun title description => ?_⟩
  unfold summary
  split
  · next htitle hdescription => exact .inl ⟨rfl, htitle, hdescription⟩
  · exact .inr (hcomment _)
  · exact .inr (hcomment _)
  · split
    · exact .inr (hcomment _)
    · exact .inr (hcomment _)

/-- End marks that overlap, and one that comes together from two lines. -/
theorem enclosed_summary_marks :
    (∀ c ∈ "  ".toList, Text.isBlank c = true) ∧
      summary (some "**//") (some "a*\r\n/b */") "  " =
        "  /**\n   * **\\//\n   *\n   * a*\n   * /b *\\/\n   */\n" ∧
      Enclosed "  ".toList (summary (some "**//") (some "a*\r\n/b */") "  ").toList := by
  have hindent : ∀ c ∈ "  ".toList, Text.isBlank c = true :=
    List.all_eq_true.mp (by decide)
  refine ⟨hindent, by decide +kernel, ?_⟩
  exact ((enclosed_summary hindent).2 _ _).resolve_left fun h => absurd h.2.1 (by decide +kernel)

end TypedApi.TypeScript
