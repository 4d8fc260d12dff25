import TypedApi.Json.Printer
import TypedApi.Json.Reader

/-! Strings come back from their text.

The writer escapes one character at a time, and the reader takes each escaped character as
one unit: the character itself, or its code where it was written in hexadecimal. Codes below
U+0020 are no surrogates, so the units name the characters that were written. -/
namespace TypedApi.Json

/-- The unit that an escaped character is read as. -/
def unitOf (c : Char) : TextUnit :=
  if c.toNat < 0x20 ∧ c ∉ ['\n', '\r', '\t', '\x08', '\x0c'] then .code c.toNat else .plain c

theorem hexCode?_hexDigit : ∀ n < 0x20, hexCode? '0' '0' (hexDigit (n / 16)) (hexDigit n) = some n := by
  decide

theorem readText_plain {c : Char} (hq : c ≠ '"') (hb : c ≠ '\\') (hc : ¬ c.toNat < 0x20)
    (acc : List TextUnit) (rest : List Char) :
    readText acc (c :: rest) = readText (.plain c :: acc) rest := by
  rw [readText.eq_def]
  split
  case h_7 h =>
    cases h
    exact if_neg hc
  all_goals
    next h => cases h <;> contradiction

/-- The reader takes an escaped character as one unit. -/
theorem readText_escapeChar (c : Char) (acc : List TextUnit) (rest : List Char) :
    readText acc (escapeChar c ++ rest) = readText (unitOf c :: acc) rest := by
  unfold escapeChar
  split
  · next h => subst h; rfl
  split
  · next h => subst h; rfl
  split
  · next h => subst h; rfl
  split
  · next h => subst h; rfl
  split
  · next h => subst h; rfl
  split
  · next h => subst h; rfl
  split
  · next h => subst h; rfl
  split
  · next h₁ h₂ h₃ h₄ h₅ h₆ h₇ hc =>
    have hunit : unitOf c = .code c.toNat := if_pos ⟨hc, by simp [h₃, h₄, h₅, h₆, h₇]⟩
    simp only [List.cons_append, List.nil_append]
    rw [readText, hexCode?_hexDigit c.toNat hc, hunit]
  · next hq hb _ _ _ _ _ hc =>
    have hunit : unitOf c = .plain c := if_neg fun h => hc h.1
    rw [List.singleton_append, readText_plain hq hb hc, hunit]

/-- A code that is no surrogate names its character, whatever follows. -/
theorem unitChars?_code {n : Nat} (hn : n < 0xD800) {us : List TextUnit} {cs : List Char}
    (h : unitChars? us = some cs) : unitChars? (.code n :: us) = some (Char.ofNat n :: cs) := by
  have htrail : isTrail n = false := by simp [isTrail]; omega
  have hlead : isLead n = false := by simp [isLead]; omega
  cases us with
  | nil =>
    cases h
    simp [unitChars?, htrail, hlead]
  | cons u us =>
    cases u with
    | plain c => rw [unitChars?, htrail, hlead, h]; rfl; intro _ _ hc; cases hc
    | code m => rw [unitChars?, htrail, hlead, h]; rfl

section
variable {escape : Char → List Char} {unit : Char → TextUnit}

/-- Units that each stand for one character name the text. -/
theorem unitChars?_map (hunit : ∀ c, unit c = .plain c ∨ c.toNat < 0xD800 ∧ unit c = .code c.toNat)
    (cs : List Char) : unitChars? (cs.map unit) = some cs := by
  induction cs with
  | nil => rfl
  | cons c cs ih =>
    rw [List.map_cons]
    rcases hunit c with hplain | ⟨hsmall, hcode⟩
    · rw [hplain, unitChars?, ih]
      rfl
    · rw [hcode, unitChars?_code hsmall ih, Char.ofNat_toNat]

/-- A text that is escaped character by character is read unit by unit. -/
theorem readText_escape
    (hread : ∀ c acc rest, readText acc (escape c ++ rest) = readText (unit c :: acc) rest)
    (hunit : ∀ c, unit c = .plain c ∨ c.toNat < 0xD800 ∧ unit c = .code c.toNat) (cs : List Char)
    (rest : List Char) :
    readText [] (cs.foldr (fun c more => escape c ++ more) ('"' :: rest)) =
      .closed (some (String.ofList cs)) rest := by
  have hunits : ∀ (cs : List Char) (acc : List TextUnit),
      readText acc (cs.foldr (fun c more => escape c ++ more) ('"' :: rest)) =
        .closed ((unitChars? (acc.reverse ++ cs.map unit)).map String.ofList) rest := by
    intro cs
    induction cs with
    | nil =>
      intro acc
      rw [List.foldr_nil, List.map_nil, List.append_nil, readText]
    | cons c cs ih =>
      intro acc
      rw [List.foldr_cons, hread, ih, List.reverse_cons, List.map_cons, List.append_assoc,
        List.singleton_append]
  rw [hunits, List.reverse_nil, List.nil_append, unitChars?_map hunit]
  rfl

end

theorem unitOf_cases (c : Char) :
    unitOf c = .plain c ∨ c.toNat < 0xD800 ∧ unitOf c = .code c.toNat := by
  by_cases hc : c.toNat < 0x20 ∧ c ∉ ['\n', '\r', '\t', '\x08', '\x0c']
  · exact .inr ⟨by omega, if_pos hc⟩
  · exact .inl (if_neg hc)

/-- A string comes back from its text. -/
theorem readText_writeString (s : String) (rest : List Char) :
    ∃ more, writeString s rest = '"' :: more ∧ readText [] more = .closed (some s) rest := by
  refine ⟨_, rfl, ?_⟩
  rw [readText_escape readText_escapeChar unitOf_cases, String.ofList_toList]

end TypedApi.Json
