import Mathlib.Data.List.TakeWhile
import TypedApi.Json.Reader
import TypedApi.Text.Search

/-! What string literals and line comments say.

`stringLiteral?` reads a literal in double quotes as strict code means it: character by character, up
to the closing quote, into the code units of its value. An escape is longer than what it stands for
(`Reading.length_next?`), and so a literal stands for the text between its quotes exactly if that
text has no quote, no backslash and no end of a line in it (`stringLiteral?_iff`). A comment behind
two slashes goes on to the end of its line (`lineComment?_line`). -/
namespace TypedApi.TypeScript

open Json (hexValue?)

/-! ### Code units -/

/-- The UTF-16 code units of a code point. -/
def codeUnits (n : Nat) : List Nat :=
  if n < 0x10000 then [n]
  else [0xD800 + (n - 0x10000) / 0x400, 0xDC00 + (n - 0x10000) % 0x400]

def textUnits (cs : List Char) : List Nat := cs.flatMap fun c => codeUnits c.toNat

theorem textUnits_cons (c : Char) (cs : List Char) :
    textUnits (c :: cs) = codeUnits c.toNat ++ textUnits cs := List.flatMap_cons

theorem length_codeUnits (n : Nat) : 1 ≤ (codeUnits n).length ∧ (codeUnits n).length ≤ 2 := by
  unfold codeUnits
  split
  · exact ⟨le_rfl, Nat.le_succ 1⟩
  · exact ⟨Nat.le_succ 1, le_rfl⟩

/-- A text is told by the codes of its characters, if each code is told from what follows it. -/
theorem eq_of_flatMap_eq {α : Type} {code : Char → List α} {p : Char → Prop}
    (hne : ∀ c, code c ≠ [])
    (hcode : ∀ {c d us vs}, p c → p d → code c ++ us = code d ++ vs → c = d ∧ us = vs)
    {cs ds : List Char} (hcs : ∀ c ∈ cs, p c) (hds : ∀ d ∈ ds, p d)
    (h : cs.flatMap code = ds.flatMap code) : cs = ds := by
  induction cs generalizing ds with
  | nil =>
    cases ds with
    | nil => rfl
    | cons d ds => exact absurd (List.append_eq_nil_iff.mp h.symm).1 (hne d)
  | cons c cs ih =>
    cases ds with
    | nil => exact absurd (List.append_eq_nil_iff.mp h).1 (hne c)
    | cons d ds =>
      rw [List.forall_mem_cons] at hcs hds
      rw [List.flatMap_cons, List.flatMap_cons] at h
      obtain ⟨rfl, hrest⟩ := hcode hcs.1 hds.1 h
      exact congrArg (c :: ·) (ih hcs.2 hds.2 hrest)

/-- A unit on its own is no half of a pair. -/
theorem codeUnits_inj {c d : Char} {us vs : List Nat}
    (h : codeUnits c.toNat ++ us = codeUnits d.toNat ++ vs) : c = d ∧ us = vs := by
  have hvalid : ∀ e : Char, e.toNat < 0xD800 ∨ 0xDFFF < e.toNat ∧ e.toNat < 0x110000 := fun e => e.valid
  have hc := hvalid c
  have hd := hvalid d
  unfold codeUnits at h
  split at h <;> split at h <;>
    simp only [List.cons_append, List.nil_append, List.cons.injEq] at h
  · exact ⟨Char.toNat_inj.mp h.1, h.2⟩
  · omega
  · omega
  · refine ⟨Char.toNat_inj.mp ?_, h.2.2⟩
    omega

theorem textUnits_injective : Function.Injective textUnits := fun _ _ h =>
  eq_of_flatMap_eq (p := fun _ => True)
    (fun c => List.ne_nil_of_length_pos (length_codeUnits c.toNat).1)
    (fun _ _ => codeUnits_inj) (fun _ _ => trivial) (fun _ _ => trivial) h

/-! ### Literals -/

/-- Where a reader is in a literal. -/
inductive Reading where
  | text
  /-- Behind a backslash. -/
  | escape
  /-- Behind an escaped zero, where no digit may follow. -/
  | zero
  /-- Behind an escaped carriage return, which takes a line feed with it. -/
  | carriage
  /-- Behind the letter of a code unit or a code point. -/
  | code
  /-- In the digits of a code unit: the value so far, and how many digits follow the next one. -/
  | unit (more value : Nat)
  /-- In the braces around a code point: the value so far. -/
  | point (value : Option Nat)
deriving DecidableEq

/-- The units that a character adds and where it leaves the reader, outside of escapes. -/
def plain? (c : Char) : Option (List Nat × Reading) :=
  if c = '\\' then some ([], .escape)
  else if c = '\n' ∨ c = '\r' then none
  else some (codeUnits c.toNat, .text)

/-- The same behind a backslash. Strict code knows no octal digits there. -/
def escaped? : Char → Option (List Nat × Reading)
  | 'b' => some ([0x8], .text)
  | 't' => some ([0x9], .text)
  | 'n' => some ([0xA], .text)
  | 'v' => some ([0xB], .text)
  | 'f' => some ([0xC], .text)
  | 'r' => some ([0xD], .text)
  | '0' => some ([0], .zero)
  | 'x' => some ([], .unit 1 0)
  | 'u' => some ([], .code)
  | '\r' => some ([], .carriage)
  | '\n' | '\u2028' | '\u2029' => some ([], .text)
  | c => if Text.isDigit c then none else some (codeUnits c.toNat, .text)

namespace Reading

def next? : Reading → Char → Option (List Nat × Reading)
  | text, c => plain? c
  | escape, c => escaped? c
  | zero, c => if Text.isDigit c then none else plain? c
  | carriage, c => if c = '\n' then some ([], text) else plain? c
  | code, c =>
    if c = '\x7b' then some ([], point none) else (hexValue? c).map fun d => ([], unit 2 d)
  | unit 0 n, c => (hexValue? c).map fun d => ([n * 16 + d], text)
  | unit (more + 1) n, c => (hexValue? c).map fun d => ([], unit more (n * 16 + d))
  | point none, c => (hexValue? c).map fun d => ([], point (some d))
  | point (some n), c =>
    if c = '\x7d' then some (codeUnits n, text)
    else (hexValue? c).bind fun d =>
      if n * 16 + d ≤ 0x10FFFF then some ([], point (some (n * 16 + d))) else none

/-- A quote ends the literal here. -/
def closes : Reading → Bool
  | text | zero | carriage => true
  | _ => false

/-- Reads up to the closing quote: the units of the value, and what follows. -/
def read? : Reading → List Char → Option (List Nat × List Char)
  | _, [] => none
  | r, c :: cs =>
    if c = '"' ∧ r.closes then some ([], cs)
    else (r.next? c).bind fun step => (step.2.read? cs).map fun read => (step.1 ++ read.1, read.2)

end Reading

/-- Reads the literal that a text begins with. -/
def stringLiteral? : List Char → Option (List Nat × List Char)
  | '"' :: cs => Reading.text.read? cs
  | _ => none

/-! ### Escapes are long -/

namespace Reading

variable {r r' : Reading} {c : Char} {us : List Nat} {cs rest : List Char}

/-- How many units a reader may still add beyond the characters to come. -/
def due : Reading → Nat
  | point _ => 1
  | _ => 0

theorem length_plain? (h : plain? c = some (us, r')) :
    us.length + r'.due ≤ (codeUnits c.toNat).length := by
  have hpos := (length_codeUnits c.toNat).1
  unfold plain? at h
  split at h
  · cases h
    exact Nat.zero_le _
  split at h
  · cases h
  · cases h
    exact le_rfl

theorem length_escaped? (h : escaped? c = some (us, r')) :
    us.length + r'.due ≤ (codeUnits c.toNat).length := by
  have hpos := (length_codeUnits c.toNat).1
  unfold escaped? at h
  split at h
  iterate 13
    cases h
    first
    | exact hpos
    | exact Nat.zero_le _
  split at h
  · cases h
  · cases h
    exact le_rfl

/-- A character adds no more units than it has. Only a code point in braces adds two at its end, and
its opening brace has added none. -/
theorem length_next? (h : r.next? c = some (us, r')) :
    us.length + r'.due ≤ r.due + (codeUnits c.toNat).length := by
  obtain ⟨hpos, -⟩ := length_codeUnits c.toNat
  cases r with
  | text => exact (length_plain? h).trans (Nat.le_add_left _ _)
  | escape => exact (length_escaped? h).trans (Nat.le_add_left _ _)
  | zero =>
    rw [next?] at h
    split at h
    · cases h
    · exact (length_plain? h).trans (Nat.le_add_left _ _)
  | carriage =>
    rw [next?] at h
    split at h
    · cases h
      exact Nat.zero_le _
    · exact (length_plain? h).trans (Nat.le_add_left _ _)
  | code =>
    rw [next?] at h
    split at h
    · cases h
      exact hpos.trans (Nat.le_add_left _ _)
    · obtain ⟨d, -, heq⟩ := Option.map_eq_some_iff.mp h
      cases heq
      exact Nat.zero_le _
  | unit more n =>
    cases more with
    | zero =>
      obtain ⟨d, -, heq⟩ := Option.map_eq_some_iff.mp h
      cases heq
      exact hpos.trans (Nat.le_add_left _ _)
    | succ more =>
      obtain ⟨d, -, heq⟩ := Option.map_eq_some_iff.mp h
      cases heq
      exact Nat.zero_le _
  | point value =>
    cases value with
    | none =>
      obtain ⟨d, -, heq⟩ := Option.map_eq_some_iff.mp h
      cases heq
      exact Nat.le_add_right _ _
    | some n =>
      rw [next?] at h
      split at h
      · cases h
        exact (length_codeUnits n).2.trans (Nat.add_le_add_left hpos 1)
      · obtain ⟨d, -, hd⟩ := Option.bind_eq_some_iff.mp h
        split at hd
        · cases hd
          exact Nat.le_add_right _ _
        · cases hd

/-- One step of a reader that comes to an end. -/
theorem read?_cons (h : r.read? (c :: cs) = some (us, rest)) :
    (c = '"' ∧ r.closes = true ∧ us = [] ∧ rest = cs) ∨
      ¬ (c = '"' ∧ r.closes = true) ∧ ∃ added more r', r.next? c = some (added, r') ∧
        r'.read? cs = some (more, rest) ∧ us = added ++ more := by
  rw [read?] at h
  split at h
  · next hquote =>
    cases h
    exact .inl ⟨hquote.1, hquote.2, rfl, rfl⟩
  · next hopen =>
    obtain ⟨⟨added, r'⟩, hnext, h⟩ := Option.bind_eq_some_iff.mp h
    obtain ⟨⟨more, rest'⟩, hread, heq⟩ := Option.map_eq_some_iff.mp h
    cases heq
    exact .inr ⟨hopen, added, more, r', hnext, hread, rfl⟩

/-- The value of a literal is no longer than the literal. -/
theorem length_read? (h : r.read? cs = some (us, rest)) :
    ∃ body, cs = body ++ '"' :: rest ∧ us.length ≤ r.due + (textUnits body).length := by
  induction cs generalizing r us with
  | nil => cases h
  | cons c cs ih =>
    rcases read?_cons h with ⟨rfl, -, rfl, rfl⟩ | ⟨-, added, more, r', hnext, hread, rfl⟩
    · exact ⟨[], rfl, Nat.zero_le _⟩
    · obtain ⟨body, rfl, hbody⟩ := ih hread
      have hadded := length_next? hnext
      refine ⟨c :: body, rfl, ?_⟩
      rw [textUnits_cons, List.length_append, List.length_append]
      omega

end Reading

/-! ### Literals of plain text -/

/-- The characters that do not stand for themselves in a literal. -/
def special : List Char := ['"', '\\', '\n', '\r']

variable {cs rest : List Char} {us : List Nat} {c : Char}

theorem plain?_of_notMem (h : c ∉ special) : plain? c = some (codeUnits c.toNat, .text) := by
  have hne : ∀ d ∈ special, c ≠ d := fun d hd heq => h (heq ▸ hd)
  simp [plain?, hne '\\' (by decide), hne '\n' (by decide), hne '\r' (by decide)]

theorem Reading.read?_text (h : ∀ c ∈ cs, c ∉ special) :
    Reading.text.read? (cs ++ '"' :: rest) = some (textUnits cs, rest) := by
  induction cs with
  | nil => rfl
  | cons c cs ih =>
    obtain ⟨hc, hcs⟩ := List.forall_mem_cons.mp h
    have hquote : c ≠ '"' := by
      rintro rfl
      exact hc List.mem_cons_self
    rw [List.cons_append, read?, if_neg (fun h => hquote h.1), next?, plain?_of_notMem hc,
      Option.bind_some, ih hcs]
    rfl

/-- A literal that is read to its end is plain text, or longer than its value. -/
theorem Reading.plain_or_lt (h : Reading.text.read? cs = some (us, rest)) :
    ∃ body, cs = body ++ '"' :: rest ∧
      ((∀ c ∈ body, c ∉ special) ∨ us.length < (textUnits body).length) := by
  induction cs generalizing us with
  | nil => cases h
  | cons c cs ih =>
    rcases read?_cons h with ⟨rfl, -, rfl, rfl⟩ | ⟨hopen, added, more, r', hnext, hread, rfl⟩
    · exact ⟨[], rfl, .inl (List.forall_mem_nil _)⟩
    by_cases hspecial : c ∈ special
    · -- the quote would have closed the literal, and a line does not end in it
      have hslash : c = '\\' := by
        simp only [special, List.mem_cons, List.not_mem_nil, or_false] at hspecial
        rcases hspecial with rfl | rfl | rfl | rfl
        · exact absurd ⟨rfl, rfl⟩ hopen
        · rfl
        · cases hnext
        · cases hnext
      subst hslash
      cases hnext
      obtain ⟨body, rfl, hbody⟩ := length_read? hread
      have hescape : (codeUnits '\\'.toNat).length = 1 := by decide
      have hbody : more.length ≤ (textUnits body).length := hbody.trans_eq (Nat.zero_add _)
      refine ⟨'\\' :: body, rfl, .inr ?_⟩
      rw [textUnits_cons, List.length_append, List.length_append, hescape, List.length_nil]
      omega
    · rw [next?, plain?_of_notMem hspecial] at hnext
      cases hnext
      obtain ⟨body, rfl, hbody⟩ := ih hread
      refine ⟨c :: body, rfl, hbody.imp (fun h => List.forall_mem_cons.mpr ⟨hspecial, h⟩) fun h => ?_⟩
      rw [textUnits_cons, List.length_append, List.length_append]
      exact Nat.add_lt_add_left h _

/-- A literal stands for the text between its quotes, and ends with it, exactly if every character
of the text stands for itself. -/
theorem stringLiteral?_iff :
    stringLiteral? ('"' :: (cs ++ '"' :: rest)) = some (textUnits cs, rest) ↔
      ∀ c ∈ cs, c ∉ special := by
  refine ⟨fun h => ?_, Reading.read?_text⟩
  obtain ⟨body, heq, hbody⟩ := Reading.plain_or_lt h
  obtain rfl : cs = body := List.append_cancel_right heq
  exact hbody.resolve_right (lt_irrefl _)

example : stringLiteral? "\"\\x41\\u\x7b1f600\x7d\\\n\\0\";".toList =
    some ([0x41, 0xD83D, 0xDE00, 0], [';']) := by
  decide

/-! ### Line comments -/

/-- The characters that end a line. -/
def lineEnds : List Char := ['\n', '\r', '\u2028', '\u2029']

/-- Reads the comment that a text begins with, up to the end of the line. -/
def lineComment? (cs : List Char) : Option (List Char × List Char) :=
  (Text.afterPrefix? ['/', '/'] cs).map fun rest =>
    (rest.takeWhile (· ∉ lineEnds), rest.dropWhile (· ∉ lineEnds))

/-- No line ends in a comment. -/
theorem notMem_lineComment? {text : List Char} (h : lineComment? text = some (cs, rest)) :
    ∀ c ∈ cs, c ∉ lineEnds := by
  obtain ⟨behind, -, heq⟩ := Option.map_eq_some_iff.mp h
  cases heq
  intro c hc
  simpa using List.mem_takeWhile_imp hc

/-- A comment says all that stands on its line. -/
theorem lineComment?_line (h : ∀ c ∈ cs, c ∉ lineEnds) :
    lineComment? ('/' :: '/' :: (cs ++ '\n' :: rest)) = some (cs, '\n' :: rest) := by
  have hcomment : lineComment? ('/' :: '/' :: (cs ++ '\n' :: rest)) =
      some ((cs ++ '\n' :: rest).takeWhile (· ∉ lineEnds),
        (cs ++ '\n' :: rest).dropWhile (· ∉ lineEnds)) := rfl
  have hinside : ∀ c ∈ cs, decide (c ∉ lineEnds) = true := fun c hc => decide_eq_true (h c hc)
  rw [hcomment, List.takeWhile_append_of_pos hinside, List.dropWhile_append_of_pos hinside,
    List.takeWhile_cons_of_neg (by decide), List.dropWhile_cons_of_neg (by decide), List.append_nil]

end TypedApi.TypeScript
