/-! Looking for one text inside another.

Everything here works on lists of characters and recurses on the text that is
left. -/
namespace TypedApi.Text

/-- What follows `p` in a text that begins with it. -/
def afterPrefix? : List Char → List Char → Option (List Char)
  | [], cs => some cs
  | _ :: _, [] => none
  | p :: ps, c :: cs => if p = c then afterPrefix? ps cs else none

theorem afterPrefix?_append (p cs : List Char) : afterPrefix? p (p ++ cs) = some cs := by
  induction p with
  | nil => rfl
  | cons c p ih => simp [afterPrefix?, ih]

theorem append_of_afterPrefix? {p cs rest : List Char} (h : afterPrefix? p cs = some rest) :
    cs = p ++ rest := by
  induction p generalizing cs with
  | nil => simpa [afterPrefix?] using h
  | cons c p ih =>
    cases cs with
    | nil => simp [afterPrefix?] at h
    | cons d cs =>
      simp only [afterPrefix?] at h
      split at h
      · next hc => rw [hc, ih h, List.cons_append]
      · cases h

def afterPrefixText? (p s : String) : Option String :=
  (afterPrefix? p.toList s.toList).map String.ofList

/-- Replaces every occurrence of `pattern`, from the left and without overlap.
`skip` counts the characters of an occurrence that are still to be passed over. -/
def replaceFrom (pattern new : List Char) : Nat → List Char → List Char
  | _, [] => []
  | skip + 1, _ :: cs => replaceFrom pattern new skip cs
  | 0, c :: cs =>
    if !pattern.isEmpty && pattern.isPrefixOf (c :: cs) then
      new ++ replaceFrom pattern new (pattern.length - 1) cs
    else c :: replaceFrom pattern new 0 cs

def replace (pattern new cs : List Char) : List Char := replaceFrom pattern new 0 cs

/-- The part after the last `c`, or the whole text. -/
def afterLast (c : Char) (cs : List Char) : List Char :=
  (cs.splitOn c).getLastD []

/-- The part before the first `c` and the part after it. -/
def cut? (c : Char) : List Char → Option (List Char × List Char)
  | [] => none
  | d :: cs => if d = c then some ([], cs) else (cut? c cs).map fun (a, b) => (d :: a, b)

def isDigit (c : Char) : Bool := '0' ≤ c && c ≤ '9'

def isLetter (c : Char) : Bool := ('a' ≤ c && c ≤ 'z') || ('A' ≤ c && c ≤ 'Z')

def isAlphanumeric (c : Char) : Bool := isLetter c || isDigit c

end TypedApi.Text
