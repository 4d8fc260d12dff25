import Mathlib.Algebra.Order.Ring.Int
import TypedApi.Json.Printer
import TypedApi.Json.Reader

/-! Numbers and their text.

A decimal is `Settled` when trimming and settling leave it as it is. Whatever the reader
makes of a number is settled or an integer of 64 bits (`Number.Readable`). The text of such a
number is one numeral whatever follows it, and the number nearest to that numeral
(`readScalar_render`), so no two readable numbers have one text. The reader need not find
this number again: it rounds at each step. A number that it finds again is told by
`Number.ReadsBack`, and every readable integer is one. -/
namespace TypedApi.Json

/-- What holds of the characters of a text can be checked one by one. -/
theorem forall_mem_of_all {p : Char → Prop} [DecidablePred p] {cs : List Char}
    (h : cs.all (fun c => decide (p c)) = true) : ∀ c ∈ cs, p c := by
  simpa using h

namespace Decimal

/-! ### Trimming -/

/-- The digits do not end in a zero. -/
def Trimmed (d : Decimal) : Prop :=
  (d.digits = 0 → d.exponent = 0) ∧ (d.digits ≠ 0 → d.digits % 10 ≠ 0)

theorem stripZeros_of_mod (fuel : Nat) {m : Nat} (hm : m % 10 ≠ 0) (e : Int) :
    stripZeros fuel m e = (m, e) := by
  cases fuel with
  | zero => rfl
  | succ fuel => simp [stripZeros, hm]

theorem stripZeros_mul_pow {fuel m k : Nat} (hm : m % 10 ≠ 0) (hk : k ≤ fuel) (e : Int) :
    stripZeros fuel (m * 10 ^ k) e = (m, e + k) := by
  induction k generalizing fuel e with
  | zero => simpa using stripZeros_of_mod fuel hm e
  | succ k ih =>
    obtain ⟨fuel, rfl⟩ : ∃ f, fuel = f + 1 := ⟨fuel - 1, by omega⟩
    have hpos : m * 10 ^ (k + 1) ≠ 0 := by
      have : 0 < 10 ^ (k + 1) := Nat.pow_pos (by decide)
      exact Nat.mul_ne_zero (by omega) (by omega)
    have hsplit : m * 10 ^ (k + 1) = m * 10 ^ k * 10 := by rw [Nat.pow_succ, Nat.mul_assoc]
    have hmod : m * 10 ^ (k + 1) % 10 = 0 := by rw [hsplit]; exact Nat.mul_mod_left _ _
    have hdiv : m * 10 ^ (k + 1) / 10 = m * 10 ^ k := by
      rw [hsplit]; exact Nat.mul_div_cancel _ (by decide)
    simp only [stripZeros, hmod, hdiv, bne_iff_ne, ne_eq, hpos, not_false_eq_true,
      beq_self_eq_true, Bool.and_true, if_true]
    rw [ih (by omega)]
    simp only [Prod.mk.injEq, true_and]
    omega

/-- Enough fuel leaves no zero at the end. -/
theorem mod_stripZeros {fuel m : Nat} (hm : m ≠ 0) (hf : m < 10 ^ fuel) (e : Int) :
    (stripZeros fuel m e).1 % 10 ≠ 0 := by
  induction fuel generalizing m e with
  | zero => exact absurd (Nat.lt_one_iff.mp hf) hm
  | succ fuel ih =>
    by_cases hz : m % 10 = 0
    · have hdiv : m / 10 < 10 ^ fuel := by rw [Nat.pow_succ] at hf; omega
      simp only [stripZeros, bne_iff_ne, ne_eq, hm, not_false_eq_true, hz, beq_self_eq_true,
        Bool.and_true, if_true]
      exact ih (by omega) hdiv _
    · rw [stripZeros_of_mod _ hz]
      exact hz

theorem trimmed_trim (d : Decimal) : d.trim.Trimmed := by
  unfold trim
  split
  · next h => exact ⟨fun _ => rfl, fun hne => absurd h hne⟩
  · next h =>
    have hlt := (Nat.length_toDigits_le_iff (b := 10) (n := d.digits) (by decide)
      Nat.length_toDigits_pos).mp (Nat.le_refl _)
    have hmod := mod_stripZeros h hlt d.exponent
    refine ⟨fun hz => ?_, fun _ => hmod⟩
    have hz : (stripZeros (Nat.toDigits 10 d.digits).length d.digits d.exponent).1 = 0 := hz
    rw [hz] at hmod
    exact absurd rfl hmod

/-- Zeros written at the end of the digits are trimmed away. -/
theorem trim_mul_pow {d : Decimal} (hd : d.Trimmed) (k : Nat) :
    trim ⟨d.negative, d.digits * 10 ^ k, d.exponent - k⟩ = d := by
  obtain ⟨s, m, e⟩ := d
  by_cases hm : m = 0
  · subst hm
    have he : e = 0 := hd.1 rfl
    simp [trim, he]
  · have hmod : m % 10 ≠ 0 := hd.2 hm
    have hpow : 0 < 10 ^ k := Nat.pow_pos (by decide)
    have hpos : m * 10 ^ k ≠ 0 := Nat.mul_ne_zero hm (by omega)
    have hfuel : k ≤ (Nat.toDigits 10 (m * 10 ^ k)).length := by
      by_cases hk : k = 0
      · omega
      · by_contra hlt
        have hle := (Nat.length_toDigits_le_iff (b := 10) (n := m * 10 ^ k) (by decide)
          (Nat.pos_of_ne_zero hk)).mp (by omega)
        have hge := Nat.le_mul_of_pos_left (10 ^ k) (Nat.pos_of_ne_zero hm)
        omega
    simp only [trim, hpos, if_false, stripZeros_mul_pow hmod hfuel]
    simp

/-! ### Settling -/

/-- A decimal that trimming and settling leave as it is. -/
structure Settled (d : Decimal) : Prop where
  trimmed : d.Trimmed
  settle : d.settle = some d

theorem trimmed_of_search {b : Binary} {fuel places : Nat} {d : Decimal}
    (h : b.search fuel places = some d) : d.Trimmed := by
  induction fuel generalizing places with
  | zero => cases h
  | succ fuel ih =>
    unfold Binary.search at h
    split at h
    · next s hs =>
      cases h
      obtain ⟨m, -, rfl⟩ := Option.map_eq_some_iff.mp hs
      exact trimmed_trim _
    · exact ih h

/-- Settling once is enough. -/
theorem settled_of_settle {d s : Decimal} (hd : d.Trimmed) (h : d.settle = some s) : s.Settled := by
  have horig := h
  unfold settle at h
  split at h
  · cases h
  · next b hb =>
    split at h
    · next hz =>
      cases h
      exact ⟨⟨fun _ => rfl, fun hne => absurd rfl hne⟩, rfl⟩
    · next hz =>
      split at h
      · next t ht =>
        split at h
        · next hback =>
          cases h
          have htrim : t.Trimmed := trimmed_of_search ht
          refine ⟨htrim, ?_⟩
          unfold settle
          simp only [toBinary?_sign, hback, hz, if_false, ht, if_true]
        · cases h
          exact ⟨hd, horig⟩
      · cases h
        exact ⟨hd, horig⟩

end Decimal

/-! ### Readable numbers -/

/-- The numbers that texts name. -/
def Number.Readable : Number → Prop
  | .int n => -(2 ^ 63) ≤ n ∧ n < 2 ^ 64
  | .real d => d.Settled

namespace Numeral

theorem readable_of_int? {n : Numeral} {i : Int} (h : n.int? = some i) :
    (Number.int i).Readable := by
  unfold int? at h
  dsimp only at h
  split at h
  · split at h
    · next hm =>
      cases h
      simp only [Bool.and_eq_true, bne_iff_ne, decide_eq_true_eq] at hm
      constructor <;> omega
    · split at h
      · next hm =>
        cases h
        simp only [Bool.and_eq_true, decide_eq_true_eq] at hm
        constructor <;> omega
      · cases h
  · cases h

/-- The digits of an integer name it. -/
theorem int?_toDigits {i : Int} (hi : (Number.int i).Readable) :
    int? ⟨decide (i < 0), Nat.toDigits 10 i.natAbs, [], none⟩ = some i := by
  obtain ⟨hlow, hhigh⟩ := hi
  by_cases hneg : i < 0
  · have hfit : (i.natAbs != 0 && i.natAbs ≤ 0x8000000000000000) = true := by
      simp only [Bool.and_eq_true, bne_iff_ne, decide_eq_true_eq]
      omega
    simp only [int?, Nat.ofDigitChars_ten_toDigits, hneg, decide_true, Bool.true_and, hfit, if_true]
    exact congrArg some (by omega)
  · have hfit : i.natAbs < 0x10000000000000000 := by omega
    simp only [int?, Nat.ofDigitChars_ten_toDigits, hneg, decide_false, Bool.false_and,
      Bool.false_eq_true, if_false, Bool.not_false, Bool.true_and, decide_eq_true_eq, hfit, if_true]
    exact congrArg some (by omega)

/-- What is computed in steps is settled in the end. -/
theorem readable_of_stepwise? {n : Numeral} {x : Number} (h : n.stepwise? = some x) :
    x.Readable := by
  unfold stepwise? number? at h
  split at h
  · next hi =>
    cases h
    exact readable_of_int? hi
  · obtain ⟨d, hd, rfl⟩ := Option.map_eq_some_iff.mp h
    obtain ⟨b, -, hsettle⟩ := Option.bind_eq_some_iff.mp hd
    exact Decimal.settled_of_settle (Decimal.trimmed_trim _) hsettle

/-- All readings agree on the integers. -/
theorem number?_of_int {n : Numeral} {i : Int} {real? : Numeral → Option Decimal}
    (h : n.number? real? = some (.int i)) (other? : Numeral → Option Decimal) :
    n.number? other? = some (.int i) := by
  unfold number? at h ⊢
  split at h
  · exact h
  · obtain ⟨d, -, hd⟩ := Option.map_eq_some_iff.mp h
    cases hd

/-- The numeral has a fraction or an exponent, and writes the decimal `d`. -/
structure Writes (n : Numeral) (d : Decimal) : Prop where
  notInt : n.int? = none
  decimal : n.decimal.trim = d

/-- Digits with zeros behind them write the same decimal. -/
theorem Writes.of_zeros {n : Numeral} {d : Decimal} (hd : d.Trimmed) (hsign : n.negative = d.negative)
    (hform : n.places ≠ [] ∨ n.exponent ≠ none) (k : Nat)
    (hdigits : Nat.ofDigitChars 10 (n.whole ++ n.places) 0 = d.digits * 10 ^ k)
    (hexponent : n.exponent.getD 0 - n.places.length = d.exponent - k) : n.Writes d where
  notInt := by
    unfold int?
    split
    · next hplaces hexponent => exact (hform.elim (· hplaces) (· hexponent)).elim
    · rfl
  decimal := by
    rw [Numeral.decimal, hsign, hdigits, hexponent]
    exact Decimal.trim_mul_pow hd k

theorem Writes.nearest? {n : Numeral} {d : Decimal} (h : n.Writes d) (hd : d.Settled) :
    n.nearest? = some (.real d) := by
  rw [Numeral.nearest?, number?, h.notInt]
  show (n.decimal.trim.settle).map Number.real = _
  rw [h.decimal, hd.settle]
  rfl

end Numeral

/-! ### Digits -/

theorem isNumeral_eq (c : Char) : isNumeral c = c.isDigit := rfl

theorem isNumeral_of_mem_toDigits {n : Nat} {c : Char} (h : c ∈ Nat.toDigits 10 n) :
    isNumeral c = true := by
  rw [isNumeral_eq]
  exact Nat.isDigit_of_mem_toDigits (by decide) (by decide) h

theorem isNumeral_of_mem_zeros {n : Nat} {c : Char} (h : c ∈ List.replicate n '0') :
    isNumeral c = true := by
  rw [(List.mem_replicate.mp h).2]
  decide

theorem ofDigitChars_zeros_append (k n : Nat) :
    Nat.ofDigitChars 10 (List.replicate k '0' ++ Nat.toDigits 10 n) 0 = n := by
  rw [Nat.ofDigitChars_append, Nat.ofDigitChars_replicate_zero, Nat.mul_zero,
    Nat.ofDigitChars_ten_toDigits]

theorem ofDigitChars_append_zeros (n k : Nat) :
    Nat.ofDigitChars 10 (Nat.toDigits 10 n ++ List.replicate k '0') 0 = n * 10 ^ k := by
  rw [Nat.ofDigitChars_append, Nat.ofDigitChars_replicate_zero, Nat.ofDigitChars_ten_toDigits,
    Nat.mul_comm]

theorem head?_append {ds more : List Char} (h : ds ≠ []) : (ds ++ more).head? = ds.head? := by
  cases ds with
  | nil => exact absurd rfl h
  | cons d ds => rfl

/-- Only zero is written with a zero in front. -/
theorem head_toDigits {n : Nat} (h : (Nat.toDigits 10 n).head? = some '0') : n = 0 := by
  induction n using Nat.strongRecOn with
  | ind n ih =>
    by_cases hn : n < 10
    · rw [Nat.toDigits_of_lt_base hn] at h
      simpa using h
    · rw [Nat.toDigits_of_base_le (by decide) (by omega), head?_append Nat.toDigits_ne_nil] at h
      have := ih (n / 10) (by omega) h
      omega

/-- Text that does not go on with a numeral. -/
def NoNumeral (cs : List Char) : Prop := ∀ c ∈ cs.head?, isNumeral c = false

theorem spanDigits_append {ds rest : List Char} (hd : ∀ c ∈ ds, isNumeral c = true)
    (hr : NoNumeral rest) : spanDigits (ds ++ rest) = (ds, rest) := by
  have hstop : rest.takeWhile isNumeral = [] ∧ rest.dropWhile isNumeral = rest := by
    cases rest with
    | nil => exact ⟨rfl, rfl⟩
    | cons c rest =>
      have hc : isNumeral c = false := hr c rfl
      simp [hc]
  rw [spanDigits, List.takeWhile_append_of_pos hd, List.dropWhile_append_of_pos hd, hstop.1, hstop.2,
    List.append_nil]

/-- The digits in front of the point: only a zero that stands alone comes first. -/
structure Whole (ds : List Char) : Prop where
  nonempty : ds ≠ []
  numerals : ∀ c ∈ ds, isNumeral c = true
  leading : ds.head? = some '0' → ds = ['0']

theorem whole_toDigits (n : Nat) : Whole (Nat.toDigits 10 n) where
  nonempty := Nat.toDigits_ne_nil
  numerals _ := isNumeral_of_mem_toDigits
  leading h := by rw [head_toDigits h]; rfl

/-- More digits behind digits that do not begin with a zero. -/
theorem Whole.append {ds more : List Char} (h : Whole ds) (hz : ds.head? ≠ some '0')
    (hm : ∀ c ∈ more, isNumeral c = true) : Whole (ds ++ more) where
  nonempty := List.append_ne_nil_of_left_ne_nil h.nonempty _
  numerals c hc := (List.mem_append.mp hc).elim (h.numerals c) (hm c)
  leading hh := absurd (head?_append h.nonempty ▸ hh) hz

theorem Whole.take {ds : List Char} (h : Whole ds) (hz : ds.head? ≠ some '0') (n : Nat) :
    Whole (ds.take (n + 1)) := by
  obtain ⟨c, rest, rfl⟩ := List.exists_cons_of_ne_nil h.nonempty
  exact ⟨by simp, fun x hx => h.numerals x (List.mem_of_mem_take hx), fun hh => absurd hh hz⟩

/-! ### Reading numbers -/

/-- What may follow a number in a text. -/
def Delimited (rest : List Char) : Prop :=
  ∀ c ∈ rest.head?, isNumeral c = false ∧ c ≠ '.' ∧ c ≠ 'e' ∧ c ≠ 'E'

theorem Delimited.noNumeral {rest : List Char} (h : Delimited rest) : NoNumeral rest :=
  fun c hc => (h c hc).1

theorem scanTail_delimited {rest : List Char} (h : Delimited rest) (n : Numeral) :
    scanTail n rest = .ok (n, rest) := by
  unfold scanTail
  split
  case h_7 => rfl
  all_goals
    have := h _ rfl
    simp at this

/-- Digits without a fraction. -/
theorem scanNumber_whole {ds rest : List Char} (hd : Whole ds) (hr : NoNumeral rest)
    (hp : rest.head? ≠ some '.') (negative : Bool) :
    scanNumber negative (ds ++ rest) = scanTail ⟨negative, ds, [], none⟩ rest := by
  unfold scanNumber
  rw [spanDigits_append hd.numerals hr]
  dsimp only
  split
  · exact absurd rfl hd.nonempty
  · have := hd.leading rfl
    simp at this
  · split
    · simp at hp
    · rfl

/-- Digits with a fraction. -/
theorem scanNumber_places {ds places rest : List Char} (hd : Whole ds) (hne : places ≠ [])
    (hp : ∀ c ∈ places, isNumeral c = true) (hr : NoNumeral rest) (negative : Bool) :
    scanNumber negative (ds ++ '.' :: (places ++ rest)) =
      scanTail ⟨negative, ds, places, none⟩ rest := by
  have hpoint : NoNumeral ('.' :: (places ++ rest)) := fun c hc => by cases hc; decide
  unfold scanNumber
  rw [spanDigits_append hd.numerals hpoint]
  dsimp only
  split
  · exact absurd rfl hd.nonempty
  · have := hd.leading rfl
    simp at this
  · have hfalse : places.isEmpty = false := by simpa using hne
    simp only [spanDigits_append hp hr, hfalse, Bool.false_eq_true, if_false]

/-- An exponent behind the digits. -/
theorem scanTail_exponent (n : Numeral) {rest : List Char} (hr : NoNumeral rest) (size : Nat)
    (down : Bool) :
    scanTail n ('e' :: (if down then '-' else '+') :: (Nat.toDigits 10 size ++ rest)) =
      .ok ({ n with exponent := some (if down then -(size : Int) else size) }, rest) := by
  have hread : scanExponent n down (Nat.toDigits 10 size ++ rest) =
      .ok ({ n with exponent := some (if down then -(size : Int) else size) }, rest) := by
    unfold scanExponent
    rw [spanDigits_append (fun _ => isNumeral_of_mem_toDigits) hr]
    have hne : (Nat.toDigits 10 size).isEmpty = false := by simp
    simp only [hne, Bool.false_eq_true, if_false, Nat.ofDigitChars_ten_toDigits]
  cases down <;> exact hread

/-! ### Trimmed decimals

One lemma for each way in which a decimal is written. -/

/-- A text is scanned as one numeral, whatever follows it, and the numeral writes `d`. -/
def Scans (d : Decimal) (body : List Char) : Prop :=
  ∃ n : Numeral, n.Writes d ∧
    ∀ rest, Delimited rest → scanNumber d.negative (body ++ rest) = .ok (n, rest)

section Trimmed

variable {d : Decimal} (hd : d.Trimmed)

include hd

/-- Digits on both sides of a point. -/
theorem scans_places {ds places : List Char} (hwhole : Whole ds) (hne : places ≠ [])
    (hplaces : ∀ c ∈ places, isNumeral c = true) (k : Nat)
    (hdigits : Nat.ofDigitChars 10 (ds ++ places) 0 = d.digits * 10 ^ k)
    (hexponent : -(places.length : Int) = d.exponent - k) : Scans d (ds ++ '.' :: places) := by
  refine ⟨⟨d.negative, ds, places, none⟩,
    .of_zeros hd rfl (.inl hne) k hdigits (by simpa using hexponent), fun rest hr => ?_⟩
  rw [List.append_assoc, List.cons_append,
    scanNumber_places hwhole hne hplaces hr.noNumeral d.negative, scanTail_delimited hr]

theorem scans_zero (hz : d.digits = 0) : Scans d ['0', '.', '0'] := by
  show Scans d (['0'] ++ '.' :: ['0'])
  refine scans_places hd (whole_toDigits 0) (by decide) (forall_mem_of_all (by decide)) 1 ?_ ?_
  · rw [hz]
    decide
  · rw [hd.1 hz]
    decide

/-- Below one: zeros behind the point come first. -/
theorem scans_small {k : Nat} (hk : d.exponent = -(k + (Nat.toDigits 10 d.digits).length : Int)) :
    Scans d ('0' :: '.' :: (List.replicate k '0' ++ Nat.toDigits 10 d.digits)) := by
  show Scans d (['0'] ++ '.' :: (List.replicate k '0' ++ Nat.toDigits 10 d.digits))
  refine scans_places hd (whole_toDigits 0) (by simp)
    (fun c hc => (List.mem_append.mp hc).elim isNumeral_of_mem_zeros isNumeral_of_mem_toDigits)
    0 ?_ ?_
  · have hvalue := ofDigitChars_zeros_append (k + 1) d.digits
    rw [List.replicate_succ, List.cons_append] at hvalue
    rwa [Nat.pow_zero, Nat.mul_one]
  · rw [List.length_append, List.length_replicate, hk]
    omega

/-- A whole number: zeros behind the digits and one behind the point. -/
theorem scans_scaled (hz : d.digits ≠ 0) {k : Nat} (hk : d.exponent = k) :
    Scans d (Nat.toDigits 10 d.digits ++ List.replicate k '0' ++ ['.', '0']) := by
  have hwhole := (whole_toDigits d.digits).append (fun h => hz (head_toDigits h))
    (fun _ => isNumeral_of_mem_zeros (n := k))
  refine scans_places hd hwhole (by decide) (forall_mem_of_all (by decide)) (k + 1) ?_ ?_
  · rw [List.append_assoc, show (['0'] : List Char) = List.replicate 1 '0' from rfl,
      List.replicate_append_replicate]
    exact ofDigitChars_append_zeros d.digits (k + 1)
  · rw [hk, List.length_singleton]
    omega

/-- Digits on both sides of the point, and no other zeros. -/
theorem scans_split (hz : d.digits ≠ 0) {k : Nat}
    (hk : d.exponent = k + 1 - (Nat.toDigits 10 d.digits).length) (he : d.exponent < 0) :
    Scans d ((Nat.toDigits 10 d.digits).take (k + 1) ++
      '.' :: (Nat.toDigits 10 d.digits).drop (k + 1)) := by
  have hwhole := (whole_toDigits d.digits).take (fun h => hz (head_toDigits h)) k
  refine scans_places hd hwhole ?_
    (fun c hc => isNumeral_of_mem_toDigits (List.mem_of_mem_drop hc)) 0 ?_ ?_
  · rw [Ne, List.drop_eq_nil_iff]
    omega
  · rw [List.take_append_drop, Nat.ofDigitChars_ten_toDigits, Nat.pow_zero, Nat.mul_one]
  · rw [List.length_drop]
    omega

/-- One digit before the point and an exponent. -/
theorem scans_scientific {c : Char} {more mantissa : List Char}
    (hds : Nat.toDigits 10 d.digits = c :: more)
    (hm : mantissa = if more.isEmpty then [c] else c :: '.' :: more) {place : Int}
    (hp : d.exponent = place - more.length) :
    Scans d (mantissa ++ 'e' :: (if place < 0 then '-' else '+') :: Nat.toDigits 10 place.natAbs) := by
  have hwhole : Whole [c] := by
    have hw := whole_toDigits d.digits
    rw [hds] at hw
    refine ⟨by simp, fun x hx => hw.numerals x ?_, fun hh => by simpa using hh⟩
    rw [List.mem_singleton.mp hx]
    exact List.mem_cons_self
  have hstop : ∀ cs : List Char, NoNumeral ('e' :: cs) := fun cs x hx => by cases hx; decide
  have hsize : (if place < 0 then -(place.natAbs : Int) else place.natAbs) = place := by
    split <;> omega
  have hwrites : (⟨d.negative, [c], more, some place⟩ : Numeral).Writes d := by
    refine .of_zeros hd rfl (.inr (by simp)) 0 ?_ (by simp [hp])
    show Nat.ofDigitChars 10 (c :: more) 0 = _
    rw [← hds, Nat.ofDigitChars_ten_toDigits, Nat.pow_zero, Nat.mul_one]
  refine ⟨_, hwrites, fun rest hr => ?_⟩
  have htail := scanTail_exponent ⟨d.negative, [c], more, none⟩ hr.noNumeral place.natAbs
    (decide (place < 0))
  simp only [decide_eq_true_eq, hsize] at htail
  rw [List.append_assoc, List.cons_append, List.cons_append, ← htail, hm]
  cases more with
  | nil => exact scanNumber_whole hwhole (hstop _) (by simp) d.negative
  | cons x xs =>
    have hnum : ∀ y ∈ x :: xs, isNumeral y = true := fun y hy =>
      isNumeral_of_mem_toDigits (n := d.digits) (hds ▸ List.mem_cons_of_mem c hy)
    exact scanNumber_places hwhole (by simp) hnum (hstop _) d.negative

/-- The text of a trimmed decimal, its sign aside, is a numeral that writes it. -/
theorem exists_body : ∃ body, d.render = (if d.negative then ['-'] else []) ++ body ∧ Scans d body := by
  refine ⟨_, rfl, ?_⟩
  dsimp only
  have hlength : 0 < (Nat.toDigits 10 d.digits).length := Nat.length_toDigits_pos
  split
  · next hz => exact scans_zero hd hz
  · next hz =>
    split
    · next hplace =>
      simp only [Bool.and_eq_true, decide_eq_true_eq] at hplace
      exact scans_small hd (by omega)
    · split
      · next hplace =>
        simp only [Bool.and_eq_true, decide_eq_true_eq] at hplace
        split
        · exact scans_scaled hd hz (by omega)
        · exact scans_split hd hz (by omega) (by omega)
      · obtain ⟨c, more, hds⟩ := List.exists_cons_of_length_pos hlength
        have hplace : d.exponent =
            d.exponent + (Nat.toDigits 10 d.digits).length - 1 - more.length := by
          rw [hds, List.length_cons]
          omega
        refine scans_scientific hd hds ?_ hplace
        rw [hds]
        cases more <;> rfl

end Trimmed

/-! ### All numbers -/

/-- A number is written with digits, signs, a point and the mark of an exponent. -/
theorem Number.forall_mem_render {P : Char → Prop} (hdigit : ∀ c, isNumeral c = true → P c)
    (hmark : ∀ c ∈ ['-', '+', '.', 'e'], P c) (n : Number) : ∀ c ∈ n.render, P c := by
  have hdigits : ∀ {m : Nat}, ∀ c ∈ Nat.toDigits 10 m, P c := fun c hc =>
    hdigit c (isNumeral_of_mem_toDigits hc)
  have hzeros : ∀ {m : Nat}, ∀ c ∈ List.replicate m '0', P c := fun c hc =>
    hdigit c (isNumeral_of_mem_zeros hc)
  have hzero : P '0' := hdigit '0' (by decide)
  have hnil : ∀ c ∈ ([] : List Char), P c := List.forall_mem_nil _
  simp only [List.forall_mem_cons] at hmark
  obtain ⟨hminus, hplus, hpoint, he, -⟩ := hmark
  have hnegative : ∀ {p : Prop} [Decidable p], ∀ c ∈ if p then ['-'] else [], P c := by
    intro p _
    split
    · exact List.forall_mem_singleton.mpr hminus
    · exact hnil
  cases n with
  | int n => exact List.forall_mem_append.mpr ⟨hnegative, hdigits⟩
  | real d =>
    rw [Number.render, Decimal.render]
    refine List.forall_mem_append.mpr ⟨hnegative, ?_⟩
    dsimp only
    split
    · exact List.forall_mem_cons.mpr ⟨hzero, List.forall_mem_cons.mpr ⟨hpoint,
        List.forall_mem_singleton.mpr hzero⟩⟩
    split
    · exact List.forall_mem_cons.mpr ⟨hzero, List.forall_mem_cons.mpr ⟨hpoint,
        List.forall_mem_append.mpr ⟨hzeros, hdigits⟩⟩⟩
    split
    · split
      · exact List.forall_mem_append.mpr ⟨List.forall_mem_append.mpr ⟨hdigits, hzeros⟩,
          List.forall_mem_cons.mpr ⟨hpoint, List.forall_mem_singleton.mpr hzero⟩⟩
      · exact List.forall_mem_append.mpr ⟨fun c hc => hdigits c (List.mem_of_mem_take hc),
          List.forall_mem_cons.mpr ⟨hpoint, fun c hc => hdigits c (List.mem_of_mem_drop hc)⟩⟩
    · refine List.forall_mem_append.mpr ⟨?_, List.forall_mem_cons.mpr ⟨he,
        List.forall_mem_cons.mpr ⟨?_, hdigits⟩⟩⟩
      · split
        · exact hnil
        · next c heq => exact heq ▸ hdigits
        · next c rest heq =>
          obtain ⟨hc, hrest⟩ := List.forall_mem_cons.mp (heq ▸ hdigits)
          exact List.forall_mem_cons.mpr ⟨hc, List.forall_mem_cons.mpr ⟨hpoint, hrest⟩⟩
      · split
        · exact hminus
        · exact hplus

/-- What is scanned as a number begins with a digit. -/
theorem numeral_of_scanNumber {negative : Bool} {cs rest : List Char} {m : Numeral}
    (h : scanNumber negative cs = .ok (m, rest)) : ∃ c more, cs = c :: more ∧ isNumeral c = true := by
  cases cs with
  | nil => cases h
  | cons c more =>
    by_cases hc : isNumeral c = true
    · exact ⟨c, more, rfl, hc⟩
    · rw [scanNumber, spanDigits] at h
      simp [hc] at h

/-- The text of a readable number, split at its sign. -/
theorem Number.exists_body {n : Number} (hn : n.Readable) :
    ∃ (negative : Bool) (body : List Char) (m : Numeral),
      n.render = (if negative then ['-'] else []) ++ body ∧ m.nearest? = some n ∧
      ∀ rest, Delimited rest → scanNumber negative (body ++ rest) = .ok (m, rest) := by
  cases n with
  | real d =>
    obtain ⟨body, hrender, m, hwrites, hscan⟩ := TypedApi.Json.exists_body hn.trimmed
    exact ⟨d.negative, body, m, hrender, hwrites.nearest? hn, hscan⟩
  | int i =>
    refine ⟨decide (i < 0), Nat.toDigits 10 i.natAbs,
      ⟨decide (i < 0), Nat.toDigits 10 i.natAbs, [], none⟩, by simp [Number.render], ?_,
      fun rest hr => ?_⟩
    · rw [Numeral.nearest?, Numeral.number?, Numeral.int?_toDigits hn]
    · have hpoint : rest.head? ≠ some '.' := fun h => (hr '.' h).2.1 rfl
      rw [scanNumber_whole (whole_toDigits _) hr.noNumeral hpoint, scanTail_delimited hr]

/-- The text of a number begins with a digit or a minus. -/
theorem Number.head_render {n : Number} (hn : n.Readable) :
    ∃ c more, n.render = c :: more ∧ (isNumeral c = true ∨ c = '-') := by
  obtain ⟨negative, body, m, hrender, -, hscan⟩ := n.exists_body hn
  obtain ⟨c, more, hbody, hc⟩ := numeral_of_scanNumber (hscan [] fun c hc => by cases hc)
  rw [List.append_nil] at hbody
  cases negative with
  | true => exact ⟨'-', body, hrender, .inr rfl⟩
  | false => exact ⟨c, more, by rw [hrender, hbody]; rfl, .inl hc⟩

theorem readScalar_numeral {c : Char} (hc : isNumeral c = true) (value? : Numeral → Option Number)
    (rest : List Char) : readScalar value? (c :: rest) = readNumber value? false (c :: rest) := by
  unfold readScalar
  split
  case h_7 h => cases h; rw [if_pos hc]
  all_goals
    next h => cases h <;> exact absurd hc (by decide)

/-- The text of a readable number is one numeral, and the number is the nearest to it. -/
theorem readScalar_render {n : Number} (hn : n.Readable) :
    ∃ m : Numeral, m.nearest? = some n ∧ ∀ (value? : Numeral → Option Number) (rest : List Char),
      Delimited rest →
        readScalar value? (n.render ++ rest) = (.ofNumber? (value? m), some rest) := by
  obtain ⟨negative, body, m, hrender, hnearest, hscan⟩ := n.exists_body hn
  refine ⟨m, hnearest, fun value? rest hr => ?_⟩
  have hread : readNumber value? negative (body ++ rest) = (.ofNumber? (value? m), some rest) := by
    rw [readNumber, hscan rest hr]
  obtain ⟨c, more, hbody, hc⟩ := numeral_of_scanNumber (hscan rest hr)
  rw [hrender]
  cases negative with
  | true => exact hread
  | false => rwa [if_neg (by simp), List.nil_append, hbody, readScalar_numeral hc, ← hbody]

/-- A readable number is the nearest one to its text. -/
theorem readScalar_nearest {n : Number} (hn : n.Readable) {rest : List Char} (hr : Delimited rest) :
    readScalar Numeral.nearest? (n.render ++ rest) = (.num n, some rest) := by
  obtain ⟨m, hm, hread⟩ := readScalar_render hn
  rw [hread _ _ hr, hm]
  rfl

/-! ### Numbers that read back -/

/-- What the reader makes of the text of a number. -/
def Number.reread? (n : Number) : Option Number :=
  match readScalar Numeral.stepwise? n.render with
  | (.num m, some []) => some m
  | _ => none

/-- The reader finds the number again in its text. -/
def Number.ReadsBack (n : Number) : Prop := n.reread? = some n

instance (n : Number) : Decidable n.ReadsBack := inferInstanceAs (Decidable (_ = _))

/-- A readable number is read from its text alike wherever the text stands. -/
theorem readScalar_reread {n : Number} (hn : n.Readable) {rest : List Char} (hr : Delimited rest) :
    readScalar Numeral.stepwise? (n.render ++ rest) = (.ofNumber? n.reread?, some rest) := by
  obtain ⟨m, -, hread⟩ := readScalar_render hn
  have hend := hread Numeral.stepwise? [] nofun
  rw [List.append_nil] at hend
  have hreread : n.reread? = m.stepwise? := by
    rw [Number.reread?, hend]
    cases m.stepwise? <;> rfl
  rw [hread _ _ hr, hreread]

/-- Readable integers read back. -/
theorem Number.readsBack_int {i : Int} (hi : (Number.int i).Readable) : (Number.int i).ReadsBack := by
  obtain ⟨m, hm, hread⟩ := readScalar_render hi
  have hend := hread Numeral.stepwise? [] nofun
  have hsame : m.stepwise? = some (.int i) := Numeral.number?_of_int hm _
  rw [List.append_nil, hsame] at hend
  rw [ReadsBack, reread?, hend]
  rfl

-- Of the real numbers some read back, and some as the one next to them.
example : (Number.real ⟨false, 5, -1⟩).ReadsBack ∧ ¬ (Number.real ⟨false, 1, -30⟩).ReadsBack := by
  decide +kernel

end TypedApi.Json
