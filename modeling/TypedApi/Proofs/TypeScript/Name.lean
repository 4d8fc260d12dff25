import Mathlib.Data.List.Infix
import TypedApi.Proofs.TypeScript.Numbering

/-! The names of functions, types and files.

A name is cut into words of ASCII letters and digits. What identifiers are made of comes from words
and from the underscore in front, and a file name is words in small letters with hyphens between
them. So whatever a document names its operations and tags, the identifiers are legal, also with the
number of a repetition behind them, and a file name is its own file name. All of them are spelled
with the letters and digits of the name (`legal_names`). -/
namespace TypedApi.TypeScript

/-! ### ASCII -/

/-- What holds of each ASCII letter and digit by its code. -/
theorem of_isAlphanumeric {p : Char → Prop}
    (hall : ∀ n < 128, Text.isAlphanumeric (Char.ofNat n) = true → p (Char.ofNat n)) {c : Char}
    (hc : Text.isAlphanumeric c = true) : p c := by
  have hsmall : c.toNat < 128 := by
    have hcodes : 'z'.val.toNat = 122 ∧ 'Z'.val.toNat = 90 ∧ '9'.val.toNat = 57 := ⟨rfl, rfl, rfl⟩
    simp only [Text.isAlphanumeric, Text.isLetter, Text.isDigit, Bool.or_eq_true, Bool.and_eq_true,
      decide_eq_true_eq, Char.le_def, UInt32.le_iff_toNat_le] at hc
    show c.val.toNat < 128
    omega
  have h := hall c.toNat hsmall
  rw [Char.ofNat_toNat] at h
  exact h hc

/-- A small letter or a digit. -/
def isSmall (c : Char) : Bool := ('a' ≤ c && c ≤ 'z') || Text.isDigit c

variable {c : Char}

theorem isAlphanumeric_of_isSmall (h : isSmall c = true) : Text.isAlphanumeric c = true := by
  rw [isSmall, Bool.or_eq_true] at h
  rw [Text.isAlphanumeric, Text.isLetter]
  rcases h with h | h <;> simp [h]

theorem isSmall_toLower (h : Text.isAlphanumeric c = true) : isSmall c.toLower = true :=
  of_isAlphanumeric (p := fun c => isSmall c.toLower = true) (by decide) h

theorem isAlphanumeric_toUpper (h : Text.isAlphanumeric c = true) :
    Text.isAlphanumeric c.toUpper = true :=
  of_isAlphanumeric (p := fun c => Text.isAlphanumeric c.toUpper = true) (by decide) h

theorem uppercase_eq (h : Text.isAlphanumeric c = true) : Text.uppercase c = [c.toUpper] :=
  of_isAlphanumeric (p := fun c => Text.uppercase c = [c.toUpper]) (by decide) h

theorem toLower_toLower (h : Text.isAlphanumeric c = true) : c.toLower.toLower = c.toLower :=
  of_isAlphanumeric (p := fun c => c.toLower.toLower = c.toLower) (by decide) h

theorem toLower_toUpper (h : Text.isAlphanumeric c = true) : c.toUpper.toLower = c.toLower :=
  of_isAlphanumeric (p := fun c => c.toUpper.toLower = c.toLower) (by decide) h

theorem toLower_of_isSmall (h : isSmall c = true) : c.toLower = c :=
  of_isAlphanumeric (p := fun c => isSmall c = true → c.toLower = c) (by decide)
    (isAlphanumeric_of_isSmall h) h

theorem isUpper_of_isSmall (h : isSmall c = true) : isUpper c = false :=
  of_isAlphanumeric (p := fun c => isSmall c = true → isUpper c = false) (by decide)
    (isAlphanumeric_of_isSmall h) h

/-! ### Words -/

/-- A word of such characters. -/
def IsWord (p : Char → Bool) (w : List Char) : Prop := w ≠ [] ∧ ∀ c ∈ w, p c = true

variable {w word cs : List Char} {ws : List (List Char)} {small : Bool}

theorem mem_closeWord (h : w ∈ closeWord word ws) : (w = word ∧ word ≠ []) ∨ w ∈ ws := by
  unfold closeWord at h
  split at h
  · exact .inr h
  · next hne => exact (List.mem_cons.mp h).imp_left fun heq => ⟨heq, by simpa using hne⟩

theorem isWord_of_mem_wordsFrom (hword : ∀ c ∈ word, Text.isAlphanumeric c = true)
    (h : w ∈ wordsFrom word small cs) : IsWord Text.isAlphanumeric w := by
  have hclosed : w = word ∧ word ≠ [] → IsWord Text.isAlphanumeric w := fun h =>
    h.1 ▸ ⟨h.2, hword⟩
  induction cs generalizing word small with
  | nil =>
    rw [wordsFrom] at h
    exact (mem_closeWord h).elim hclosed fun h => by cases h
  | cons c cs ih =>
    rw [wordsFrom] at h
    split at h
    · refine (mem_closeWord h).elim hclosed fun h => ih (List.forall_mem_nil _) h ?_
      exact fun hw => absurd rfl hw.2
    · next hc =>
      have hc : Text.isAlphanumeric c = true := by simpa using hc
      split at h
      · have hopen : ∀ d ∈ [c], Text.isAlphanumeric d = true := List.forall_mem_singleton.mpr hc
        refine (mem_closeWord h).elim hclosed fun h => ih hopen h ?_
        rintro ⟨rfl, hne⟩
        exact ⟨hne, hopen⟩
      · have hlonger : ∀ d ∈ word ++ [c], Text.isAlphanumeric d = true :=
          List.forall_mem_append.mpr ⟨hword, List.forall_mem_singleton.mpr hc⟩
        refine ih hlonger h ?_
        rintro ⟨rfl, hne⟩
        exact ⟨hne, hlonger⟩

theorem isWord_of_mem_words (h : w ∈ words cs) : IsWord Text.isAlphanumeric w :=
  isWord_of_mem_wordsFrom (List.forall_mem_nil _) h

theorem flatten_closeWord (word : List Char) (ws : List (List Char)) :
    (closeWord word ws).flatten = word ++ ws.flatten := by
  unfold closeWord
  split
  · next h => rw [List.isEmpty_iff.mp h, List.nil_append]
  · rfl

theorem flatten_wordsFrom (word : List Char) (small : Bool) (cs : List Char) :
    (wordsFrom word small cs).flatten = word ++ cs.filter Text.isAlphanumeric := by
  induction cs generalizing word small with
  | nil => rw [wordsFrom, flatten_closeWord, List.flatten_nil, List.filter_nil]
  | cons c cs ih =>
    rw [wordsFrom]
    split
    · next hc => rw [flatten_closeWord, ih, List.nil_append, List.filter_cons_of_neg (by simpa using hc)]
    · next hc =>
      rw [List.filter_cons_of_pos (by simpa using hc)]
      split
      · rw [flatten_closeWord, ih, List.singleton_append]
      · rw [ih, List.append_assoc, List.singleton_append]

/-- Nothing but letters and digits comes into words, and all of them do. -/
theorem flatten_words (cs : List Char) : (words cs).flatten = cs.filter Text.isAlphanumeric :=
  flatten_wordsFrom [] false cs

/-- Small letters and digits go on with the word that is open. -/
theorem wordsFrom_small (hw : ∀ c ∈ w, isSmall c = true) (hopen : w ≠ [] ∨ small = true)
    (rest : List Char) : wordsFrom word small (w ++ rest) = wordsFrom (word ++ w) true rest := by
  induction w generalizing word small with
  | nil =>
    obtain rfl := hopen.resolve_left (absurd rfl)
    rw [List.nil_append, List.append_nil]
  | cons c w ih =>
    obtain ⟨hc, hw⟩ := List.forall_mem_cons.mp hw
    have hletter := isAlphanumeric_of_isSmall hc
    have hupper := isUpper_of_isSmall hc
    rw [List.cons_append, wordsFrom, hletter, hupper, if_neg (by decide), if_neg (by simp),
      Bool.not_false, ih hw (.inr rfl), List.append_assoc, List.singleton_append]

/-- Small words with hyphens between them are cut at the hyphens. -/
theorem words_intercalate (h : ∀ w ∈ ws, IsWord isSmall w) : words (['-'].intercalate ws) = ws := by
  induction ws with
  | nil => rfl
  | cons w ws ih =>
    obtain ⟨⟨hne, hsmall⟩, hws⟩ := List.forall_mem_cons.mp h
    have hempty : w.isEmpty = false := List.isEmpty_eq_false_iff.mpr hne
    cases ws with
    | nil =>
      have hlast : wordsFrom [] false (w ++ []) = wordsFrom ([] ++ w) true [] :=
        wordsFrom_small hsmall (.inl hne) []
      rw [List.append_nil] at hlast
      rw [List.intercalate_singleton, words, hlast, List.nil_append, wordsFrom, closeWord, hempty]
      rfl
    | cons next ws =>
      have hhyphen : Text.isAlphanumeric '-' = false := by decide
      rw [List.intercalate_cons_cons, List.append_assoc, words,
        wordsFrom_small hsmall (.inl hne), List.singleton_append, wordsFrom, hhyphen, Bool.not_false,
        if_pos rfl, List.nil_append, closeWord, hempty, if_neg Bool.false_ne_true]
      exact congrArg (w :: ·) (ih hws)

/-! ### File names -/

/-- Small words with hyphens between them. -/
def Hyphenated (name : String) (ws : List (List Char)) : Prop :=
  name.toList = ['-'].intercalate ws ∧ ws ≠ [] ∧ ∀ w ∈ ws, IsWord isSmall w

theorem kebabCase_eq {name : String} (hws : words name.toList ≠ []) :
    (kebabCase name).toList =
      ['-'].intercalate ((words name.toList).map fun w => w.map Char.toLower) := by
  unfold kebabCase
  split
  · next h => exact absurd h hws
  · next h =>
    rw [String.toList_intercalate, List.map_map]
    simp only [Function.comp_def, String.toList_ofList]
    rfl

theorem kebabCase_of_words {name : String} (hws : words name.toList = []) :
    kebabCase name = "default" := by
  rw [kebabCase, hws]

theorem hyphenated_of_words {name : String} (hws : words name.toList ≠ []) :
    Hyphenated (kebabCase name) ((words name.toList).map fun w => w.map Char.toLower) := by
  refine ⟨kebabCase_eq hws, by simpa using hws, fun w hw => ?_⟩
  obtain ⟨v, hv, rfl⟩ := List.mem_map.mp hw
  obtain ⟨hne, hletters⟩ := isWord_of_mem_words hv
  refine ⟨by simpa using hne, fun c hc => ?_⟩
  obtain ⟨d, hd, rfl⟩ := List.mem_map.mp hc
  exact isSmall_toLower (hletters d hd)

theorem hyphenated_kebabCase (name : String) : ∃ ws, Hyphenated (kebabCase name) ws := by
  by_cases hws : words name.toList = []
  · rw [kebabCase_of_words hws]
    exact ⟨["default".toList], rfl, by decide,
      List.forall_mem_singleton.mpr ⟨by decide, List.all_eq_true.mp (by decide)⟩⟩
  · exact ⟨_, hyphenated_of_words hws⟩

theorem Hyphenated.words_eq {name : String} (h : Hyphenated name ws) : words name.toList = ws := by
  rw [h.1, words_intercalate h.2.2]

/-- A file name is its own file name. -/
theorem Hyphenated.kebabCase_eq {name : String} (h : Hyphenated name ws) : kebabCase name = name := by
  have hsame : ws.map (fun w => w.map Char.toLower) = ws := by
    refine (List.map_congr_left fun w hw => ?_).trans (List.map_id ws)
    exact (List.map_congr_left fun c hc => toLower_of_isSmall ((h.2.2 w hw).2 c hc)).trans (List.map_id w)
  have hne : words name.toList ≠ [] := h.words_eq ▸ h.2.1
  refine String.toList_inj.mp ?_
  rw [TypeScript.kebabCase_eq hne, h.words_eq, hsame, h.1]

/-! ### Identifiers -/

/-- A letter or an underscore, and letters, digits and underscores behind it. -/
def isPlainName : List Char → Bool
  | [] => false
  | c :: cs => (Text.isLetter c || c == '_') && cs.all fun d => Text.isAlphanumeric d || d == '_'

/-- The name of a function or a type. -/
structure Legal (name : String) : Prop where
  plain : isPlainName name.toList = true
  free : name ∉ reservedWords

/-- What a camel-case name is made of. -/
def camelWords : List (List Char) → List Char
  | [] => []
  | w :: ws => lowerFirst w ++ ws.flatMap Text.capitalize

theorem camelCase_eq (name : String) :
    camelCase name = String.ofList (guarded (camelWords (words name.toList))) := by
  rw [camelCase]
  cases words name.toList <;> rfl

theorem isAlphanumeric_lowerFirst (hw : ∀ c ∈ w, Text.isAlphanumeric c = true) :
    ∀ c ∈ lowerFirst w, Text.isAlphanumeric c = true := by
  cases w with
  | nil => exact hw
  | cons d w =>
    obtain ⟨hd, hw⟩ := List.forall_mem_cons.mp hw
    exact List.forall_mem_cons.mpr ⟨isAlphanumeric_of_isSmall (isSmall_toLower hd), hw⟩

theorem capitalize_cons (hc : Text.isAlphanumeric c = true) (cs : List Char) :
    Text.capitalize (c :: cs) = c.toUpper :: cs := by
  rw [Text.capitalize, uppercase_eq hc, List.singleton_append]

theorem isAlphanumeric_capitalize (hw : ∀ c ∈ w, Text.isAlphanumeric c = true) :
    ∀ c ∈ Text.capitalize w, Text.isAlphanumeric c = true := by
  cases w with
  | nil => exact hw
  | cons d w =>
    obtain ⟨hd, hw⟩ := List.forall_mem_cons.mp hw
    rw [capitalize_cons hd]
    exact List.forall_mem_cons.mpr ⟨isAlphanumeric_toUpper hd, hw⟩

theorem isAlphanumeric_flatMap_capitalize (hws : ∀ w ∈ ws, IsWord Text.isAlphanumeric w) :
    ∀ c ∈ ws.flatMap Text.capitalize, Text.isAlphanumeric c = true := by
  intro c hc
  obtain ⟨w, hw, hc⟩ := List.mem_flatMap.mp hc
  exact isAlphanumeric_capitalize (hws w hw).2 c hc

theorem isAlphanumeric_camelWords (hws : ∀ w ∈ ws, IsWord Text.isAlphanumeric w) :
    ∀ c ∈ camelWords ws, Text.isAlphanumeric c = true := by
  cases ws with
  | nil => exact List.forall_mem_nil _
  | cons w ws =>
    obtain ⟨hw, hws⟩ := List.forall_mem_cons.mp hws
    exact List.forall_mem_append.mpr
      ⟨isAlphanumeric_lowerFirst hw.2, isAlphanumeric_flatMap_capitalize hws⟩

/-- What is put in front of an identifier can be told from it. -/
theorem filter_guarded (hne : cs ≠ []) (hcs : ∀ c ∈ cs, Text.isAlphanumeric c = true) :
    (guarded cs).filter Text.isAlphanumeric = cs := by
  have hsame : cs.filter Text.isAlphanumeric = cs := List.filter_eq_self.mpr hcs
  have hmark : ∀ ds : List Char, ('_' :: ds).filter Text.isAlphanumeric = ds.filter Text.isAlphanumeric :=
    fun ds => List.filter_cons_of_neg (by decide)
  unfold guarded
  rw [if_neg (by simpa using hne)]
  dsimp only
  split <;> split <;> simp only [hmark, hsame]

/-- No reserved word begins with an underscore, so one in front is enough. -/
theorem notMem_reservedWords (cs : List Char) : String.ofList ('_' :: cs) ∉ reservedWords := by
  have hall : ∀ word ∈ reservedWords, word.toList.head? ≠ some '_' := by decide +kernel
  intro hmem
  have hhead := hall _ hmem
  rw [String.toList_ofList] at hhead
  exact hhead rfl

theorem legal_guarded (hcs : ∀ c ∈ cs, Text.isAlphanumeric c = true) :
    Legal (String.ofList (guarded cs)) := by
  have hparts : (cs.all fun d => Text.isAlphanumeric d || d == '_') = true := by
    refine List.all_eq_true.mpr fun d hd => ?_
    rw [hcs d hd, Bool.true_or]
  have hmarked : ∀ ds, (ds.all fun d => Text.isAlphanumeric d || d == '_') = true →
      Legal (String.ofList ('_' :: ds)) := fun ds hds => by
    refine ⟨?_, notMem_reservedWords ds⟩
    rw [String.toList_ofList, isPlainName, hds]
    decide
  unfold guarded
  split
  · exact ⟨by decide, by decide⟩
  · next hne =>
    dsimp only
    obtain ⟨c, ds, rfl⟩ := List.exists_cons_of_ne_nil (by simpa using hne)
    by_cases hdigit : Text.isDigit c = true
    · have hhead : ((c :: ds).head?.any Text.isDigit) = true := hdigit
      rw [if_pos hhead]
      split
      · exact hmarked _ (by rw [List.all_cons, hparts]; decide)
      · exact hmarked _ hparts
    · have hhead : ¬ ((c :: ds).head?.any Text.isDigit) = true := hdigit
      rw [if_neg hhead]
      split
      · exact hmarked _ hparts
      · next hfree =>
        refine ⟨?_, fun hmem => hfree (List.contains_iff_mem.mpr hmem)⟩
        have hletter := hcs c List.mem_cons_self
        rw [Text.isAlphanumeric, Bool.eq_false_iff.mpr hdigit, Bool.or_false] at hletter
        rw [List.all_cons, Bool.and_eq_true] at hparts
        rw [String.toList_ofList, isPlainName, hletter, hparts.2]
        rfl

theorem legal_camelCase (name : String) : Legal (camelCase name) := by
  rw [camelCase_eq]
  exact legal_guarded (isAlphanumeric_camelWords fun _ hw => isWord_of_mem_words hw)

theorem legal_pascalCase (name : String) : Legal (pascalCase name) :=
  legal_guarded (isAlphanumeric_flatMap_capitalize fun _ hw => isWord_of_mem_words hw)

/-! ### Spelling -/

/-- The letters and digits of a name, all of them small. -/
def letters (name : String) : List Char := (name.toList.filter Text.isAlphanumeric).map Char.toLower

theorem letters_eq (name : String) : letters name = (words name.toList).flatten.map Char.toLower := by
  rw [letters, flatten_words]

theorem map_toLower_lowerFirst (hw : ∀ c ∈ w, Text.isAlphanumeric c = true) :
    (lowerFirst w).map Char.toLower = w.map Char.toLower := by
  cases w with
  | nil => rfl
  | cons c w => rw [lowerFirst, List.map_cons, List.map_cons, toLower_toLower (hw c List.mem_cons_self)]

theorem map_toLower_capitalize (hw : ∀ c ∈ w, Text.isAlphanumeric c = true) :
    (Text.capitalize w).map Char.toLower = w.map Char.toLower := by
  cases w with
  | nil => rfl
  | cons c w =>
    have hc := hw c List.mem_cons_self
    rw [capitalize_cons hc, List.map_cons, List.map_cons, toLower_toUpper hc]

theorem map_toLower_flatMap_capitalize (hws : ∀ w ∈ ws, IsWord Text.isAlphanumeric w) :
    (ws.flatMap Text.capitalize).map Char.toLower = ws.flatten.map Char.toLower := by
  induction ws with
  | nil => rfl
  | cons w ws ih =>
    obtain ⟨hw, hws⟩ := List.forall_mem_cons.mp hws
    rw [List.flatMap_cons, List.flatten_cons, List.map_append, List.map_append, ih hws,
      map_toLower_capitalize hw.2]

theorem map_toLower_camelWords (hws : ∀ w ∈ ws, IsWord Text.isAlphanumeric w) :
    (camelWords ws).map Char.toLower = ws.flatten.map Char.toLower := by
  cases ws with
  | nil => rfl
  | cons w ws =>
    obtain ⟨hw, hws⟩ := List.forall_mem_cons.mp hws
    rw [camelWords, List.flatten_cons, List.map_append, List.map_append,
      map_toLower_lowerFirst hw.2, map_toLower_flatMap_capitalize hws]

theorem letters_guarded (hne : cs ≠ []) (hcs : ∀ c ∈ cs, Text.isAlphanumeric c = true) :
    letters (String.ofList (guarded cs)) = cs.map Char.toLower := by
  rw [letters, String.toList_ofList, filter_guarded hne hcs]

theorem Hyphenated.letters_eq {name : String} (h : Hyphenated name ws) : letters name = ws.flatten := by
  rw [TypeScript.letters_eq, h.words_eq]
  refine (List.map_congr_left fun c hc => ?_).trans (List.map_id _)
  obtain ⟨w, hw, hc⟩ := List.mem_flatten.mp hc
  exact toLower_of_isSmall ((h.2.2 w hw).2 c hc)

theorem words_eq_nil_iff (name : String) : words name.toList = [] ↔ letters name = [] := by
  rw [letters_eq, List.map_eq_nil_iff, List.flatten_eq_nil_iff]
  constructor
  · intro h
    rw [h]
    exact List.forall_mem_nil _
  · intro h
    refine List.eq_nil_iff_forall_not_mem.mpr fun w hw => (isWord_of_mem_words hw).1 (h w hw)

/-- An identifier for letters and digits that a name is spelled with. -/
theorem letters_identifier {name : String} (hname : letters name ≠ [])
    (hcs : ∀ c ∈ cs, Text.isAlphanumeric c = true)
    (hsame : cs.map Char.toLower = (words name.toList).flatten.map Char.toLower) :
    letters (String.ofList (guarded cs)) = letters name := by
  rw [← letters_eq] at hsame
  have hne : cs ≠ [] := by
    rintro rfl
    exact hname hsame.symm
  rw [letters_guarded hne hcs, hsame]

/-- The three cases of a name are spelled like the name, up to capitals. -/
structure Spelled (name : String) : Prop where
  camel : letters (camelCase name) = letters name
  pascal : letters (pascalCase name) = letters name
  kebab : letters (kebabCase name) = letters name

theorem spelled {name : String} (hname : letters name ≠ []) : Spelled name := by
  have hwords : ∀ w ∈ words name.toList, IsWord Text.isAlphanumeric w := fun _ => isWord_of_mem_words
  refine ⟨?_, ?_, ?_⟩
  · rw [camelCase_eq]
    exact letters_identifier hname (isAlphanumeric_camelWords hwords) (map_toLower_camelWords hwords)
  · exact letters_identifier hname (isAlphanumeric_flatMap_capitalize hwords)
      (map_toLower_flatMap_capitalize hwords)
  · have hws : words name.toList ≠ [] := fun h => hname ((words_eq_nil_iff name).mp h)
    rw [(hyphenated_of_words hws).letters_eq, letters_eq, List.map_flatten]

/-! ### Numbers behind names -/

theorem isDigit_of_mem_toDigits {n : Nat} (h : c ∈ Nat.toDigits 10 n) : Text.isDigit c = true :=
  Nat.isDigit_of_mem_toDigits (by decide) (by decide) h

/-- No reserved word ends with a digit. -/
theorem Legal.append_number {name : String} (h : Legal name) (n : Nat) : Legal (name ++ toString n) := by
  have hdigits : (toString n).toList = Nat.toDigits 10 n := by
    rw [Nat.toString_eq_ofList_toDigits, String.toList_ofList]
  refine ⟨?_, fun hmem => ?_⟩
  · have hplain := h.plain
    rw [String.toList_append, hdigits]
    cases hname : name.toList with
    | nil =>
      rw [hname] at hplain
      cases hplain
    | cons c cs =>
      rw [hname, isPlainName, Bool.and_eq_true] at hplain
      rw [List.cons_append, isPlainName, List.all_append, hplain.1, hplain.2]
      refine List.all_eq_true.mpr fun d hd => ?_
      rw [Text.isAlphanumeric, isDigit_of_mem_toDigits hd, Bool.or_true, Bool.true_or]
  · have hall : ∀ word ∈ reservedWords, word.toList.getLast?.any Text.isDigit = false := by
      decide +kernel
    have hlast := hall _ hmem
    have hne : Nat.toDigits 10 n ≠ [] := List.ne_nil_of_length_pos Nat.length_toDigits_pos
    rw [String.toList_append, hdigits, List.getLast?_append, List.getLast?_eq_some_getLast hne,
      Option.some_or, Option.any_some, isDigit_of_mem_toDigits (List.getLast_mem hne)] at hlast
    cases hlast

theorem Legal.numberedName {name : String} (h : Legal name) (n : Nat) :
    Legal (Signature.numberedName name n) := by
  unfold Signature.numberedName
  split
  · exact h
  · exact h.append_number _

theorem Signature.exists_of_mem_numbered {ss : List Signature} {t : Signature}
    (h : t ∈ numbered ss) : ∃ s ∈ ss, ∃ n, t = s.number n := by
  obtain ⟨i, hi⟩ := List.mem_iff_getElem?.mp h
  rw [getElem?_numbered] at hi
  obtain ⟨s, hs, rfl⟩ := Option.map_eq_some_iff.mp hi
  exact ⟨s, List.mem_of_getElem? hs, _, rfl⟩

/-- Identifiers are legal, numbered or not, and file names are words that stay as they are. They are
spelled like the name, or fixed if it has no letters and digits. -/
theorem legal_names :
    (∀ name, Legal (camelCase name) ∧ Legal (pascalCase name)) ∧
    (∀ ss : List Signature, (∀ s ∈ ss, Legal s.functionName) →
      ∀ s ∈ Signature.numbered ss, Legal s.functionName) ∧
    (∀ name, (∃ ws, Hyphenated (kebabCase name) ws) ∧ kebabCase (kebabCase name) = kebabCase name) ∧
    ∀ name, Spelled name ∨ letters name = [] ∧
      camelCase name = "_empty" ∧ pascalCase name = "_empty" ∧ kebabCase name = "default" := by
  refine ⟨fun name => ⟨legal_camelCase name, legal_pascalCase name⟩, fun ss hss s hs => ?_,
    fun name => ⟨hyphenated_kebabCase name, ?_⟩, fun name => ?_⟩
  · obtain ⟨t, ht, n, rfl⟩ := Signature.exists_of_mem_numbered hs
    exact (hss t ht).numberedName n
  · obtain ⟨ws, hws⟩ := hyphenated_kebabCase name
    exact hws.kebabCase_eq
  · by_cases hname : letters name = []
    · have hws := (words_eq_nil_iff name).mpr hname
      refine .inr ⟨hname, ?_, ?_, kebabCase_of_words hws⟩
      · rw [camelCase_eq, hws]
        rfl
      · rw [pascalCase, hws]
        rfl
    · exact .inl (spelled hname)

end TypedApi.TypeScript
