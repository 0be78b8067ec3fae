import Mathlib.Data.Int.Lemmas
import Mathlib.Data.List.Basic
import Mathlib.Tactic.SplitIfs

/-!
# Java decimal numerals

`Integer.parseInt(s)` for the UTF-16 code units of `s`, with the 32-bit arithmetic of its loop.  The
digits are accumulated negatively, with two tests against overflow in each round.  It returns a
number exactly for the numerals of the numbers that an `int` can hold (`parseInt_eq_some_iff`).
-/

namespace Integer

/-- The code points of the digits zero, as far as they are one UTF-16 unit. -/
def digitZeros : List ℕ :=
  [0x30, 0x660, 0x6F0, 0x7C0, 0x966, 0x9E6, 0xA66, 0xAE6, 0xB66, 0xBE6, 0xC66, 0xCE6, 0xD66, 0xDE6,
    0xE50, 0xED0, 0xF20, 0x1040, 0x1090, 0x17E0, 0x1810, 0x1946, 0x19D0, 0x1A80, 0x1A90, 0x1B50,
    0x1BB0, 0x1C40, 0x1C50, 0xA620, 0xA8D0, 0xA900, 0xA9D0, 0xA9F0, 0xAA50, 0xABF0, 0xFF10]

/-- `Character.digit(c, 10)`; `none` for its -1. -/
def digit (c : UInt16) : Option ℕ :=
  (digitZeros.find? fun z => z ≤ c.toNat && c.toNat < z + 10).map (c.toNat - ·)

/-- The loop of `parseInt`; `none` for a NumberFormatException. -/
def accumulate (limit result : Int32) : List UInt16 → Option Int32
  | [] => some result
  | c :: cs =>
    match digit c with
    | none => none
    | some d =>
      if result < limit / 10 then none
      else if result * 10 < limit + Int32.ofNat d then none
      else accumulate limit (result * 10 - Int32.ofNat d) cs

/-- `parseInt`; `none` for a NumberFormatException.  An empty text throws one too. -/
def parseInt : List UInt16 → Option Int32
  | [] => none
  | c :: cs =>
    if c < 48 then
      if c = 45 then if cs = [] then none else accumulate Int32.minValue 0 cs
      else if c ≠ 43 then none
      else if cs = [] then none else (accumulate (-Int32.maxValue) 0 cs).map (-·)
    else (accumulate (-Int32.maxValue) 0 (c :: cs)).map (-·)

/-! ## What a numeral denotes -/

/-- The number of digits that follow those of `n`. -/
def numeral (n : ℕ) : List UInt16 → Option ℕ
  | [] => some n
  | c :: cs => (digit c).bind fun d => numeral (n * 10 + d) cs

/-- An optional sign and at least one digit denote a number. -/
inductive Denotes : List UInt16 → ℤ → Prop
  | unsigned {cs n} (hne : cs ≠ []) (hn : numeral 0 cs = some n) : Denotes cs n
  | plus {cs n} (hne : cs ≠ []) (hn : numeral 0 cs = some n) : Denotes (43 :: cs) n
  | minus {cs n} (hne : cs ≠ []) (hn : numeral 0 cs = some n) : Denotes (45 :: cs) (-n)

theorem digit_lt {c : UInt16} {d : ℕ} (h : digit c = some d) : d < 10 := by
  obtain ⟨z, hz, rfl⟩ := Option.map_eq_some_iff.1 h
  have hp := List.find?_some hz
  simp only [Bool.and_eq_true, decide_eq_true_eq] at hp
  omega

/-- No digit comes before `0`. -/
theorem le_of_digit {c : UInt16} {d : ℕ} (h : digit c = some d) : 48 ≤ c.toNat := by
  obtain ⟨z, hz, rfl⟩ := Option.map_eq_some_iff.1 h
  have hp := List.find?_some hz
  have hall : ∀ z ∈ digitZeros, 48 ≤ z := by decide
  have hle := hall z (List.mem_of_find?_eq_some hz)
  simp only [Bool.and_eq_true, decide_eq_true_eq] at hp
  omega

theorem le_of_numeral {cs : List UInt16} {m n : ℕ} (h : numeral m cs = some n) : m ≤ n := by
  induction cs generalizing m with
  | nil => exact (Option.some.inj h).le
  | cons c cs ih =>
    obtain ⟨d, -, hrest⟩ := Option.bind_eq_some_iff.1 h
    have hle := ih hrest
    omega

/-! ## The loop -/

theorem toInt_ofNat_digit {d : ℕ} (h : d < 10) : (Int32.ofNat d).toInt = d :=
  Int32.toInt_ofNat_of_lt (by omega)

/-- The bound of the first test. -/
theorem toInt_multmin {limit : Int32} (h : limit.toInt ≤ -(2 ^ 31 - 1)) :
    (limit / 10).toInt = -214748364 := by
  have hlow := limit.le_toInt
  have hcases : limit.toInt = -2147483648 ∨ limit.toInt = -2147483647 := by omega
  rw [Int32.toInt_div_of_ne_right limit 10 (by decide)]
  rcases hcases with h | h <;> rw [h] <;> rfl

/-- A product by ten that the first test has let through. -/
theorem toInt_mul_ten {result : Int32} {m : ℕ} (hresult : result.toInt = -m) (hm : m ≤ 214748364) :
    (result * 10).toInt = -(m * 10 : ℕ) := by
  rw [Int32.toInt_mul, hresult, show (10 : Int32).toInt = 10 from rfl]
  rw [Int.bmod_eq_of_le (by omega) (by omega)]
  omega

/-- The bound of the second test. -/
theorem toInt_limit_add {limit : Int32} {d : ℕ} (hd : d < 10)
    (hlimit : limit.toInt ≤ -(2 ^ 31 - 1)) :
    (limit + Int32.ofNat d).toInt = limit.toInt + d := by
  have hlow := limit.le_toInt
  rw [Int32.toInt_add, toInt_ofNat_digit hd]
  exact Int.bmod_eq_of_le (by omega) (by omega)

theorem toInt_round {limit result : Int32} {d m : ℕ} (hd : d < 10) (hresult : result.toInt = -m)
    (hle : limit.toInt ≤ -(m * 10 + d : ℕ)) :
    (result * 10 - Int32.ofNat d).toInt = -(m * 10 + d : ℕ) := by
  have hlow := limit.le_toInt
  rw [Int32.toInt_sub, toInt_mul_ten hresult (by omega), toInt_ofNat_digit hd]
  rw [Int.bmod_eq_of_le (by omega) (by omega)]
  omega

/-- One round: no test fails exactly when the number with the digit is within the limit. -/
theorem accumulate_cons {limit result : Int32} {c : UInt16} {d m : ℕ} (hd : digit c = some d)
    (hlimit : limit.toInt ≤ -(2 ^ 31 - 1)) (hresult : result.toInt = -m) (cs : List UInt16) :
    accumulate limit result (c :: cs) =
      if limit.toInt ≤ -(m * 10 + d : ℕ) then
        accumulate limit (result * 10 - Int32.ofNat d) cs
      else none := by
  have hlow := limit.le_toInt
  have hten := digit_lt hd
  rw [accumulate, hd]
  simp only [Int32.lt_iff_toInt_lt, toInt_multmin hlimit, toInt_limit_add hten hlimit, hresult]
  by_cases hm : m ≤ 214748364
  · rw [if_neg (by omega), toInt_mul_ten hresult hm]
    by_cases hle : limit.toInt ≤ -(m * 10 + d : ℕ)
    · rw [if_neg (by omega), if_pos hle]
    · rw [if_pos (by omega), if_neg hle]
  · rw [if_pos (by omega), if_neg (by omega)]

/-- The loop keeps the number negated, and ends with a number within the limit. -/
theorem accumulate_eq_some_iff {limit : Int32} (hlimit : limit.toInt ≤ -(2 ^ 31 - 1))
    {cs : List UInt16} {result r : Int32} {m : ℕ} (hresult : result.toInt = -m)
    (hle : limit.toInt ≤ -m) :
    accumulate limit result cs = some r ↔
      ∃ n : ℕ, numeral m cs = some n ∧ limit.toInt ≤ -n ∧ r.toInt = -n := by
  induction cs generalizing result m with
  | nil =>
    simp only [accumulate, numeral, Option.some.injEq]
    constructor
    · rintro rfl
      exact ⟨m, rfl, hle, hresult⟩
    · rintro ⟨n, rfl, -, hr⟩
      exact Int32.toInt_inj.1 (hresult.trans hr.symm)
  | cons c cs ih =>
    cases hd : digit c with
    | none => simp [accumulate, numeral, hd]
    | some d =>
      rw [accumulate_cons hd hlimit hresult, numeral, hd, Option.bind_some]
      split_ifs with hnext
      · exact ih (toInt_round (digit_lt hd) hresult hnext) hnext
      · refine ⟨nofun, ?_⟩
        rintro ⟨n, hn, hlen, -⟩
        have hgrow := le_of_numeral hn
        omega

/-! ## The whole text -/

theorem accumulate_positive {cs : List UInt16} {n : Int32} :
    (accumulate (-Int32.maxValue) 0 cs).map (-·) = some n ↔
      ∃ k : ℕ, numeral 0 cs = some k ∧ n.toInt = k := by
  have hmax : (-Int32.maxValue).toInt = -(2 ^ 31 - 1) := rfl
  have hhigh := n.toInt_lt
  rw [Option.map_eq_some_iff]
  constructor
  · rintro ⟨r, hr, rfl⟩
    obtain ⟨k, hk, hle, hrk⟩ :=
      (accumulate_eq_some_iff (m := 0) hmax.le rfl (by omega)).1 hr
    refine ⟨k, hk, ?_⟩
    rw [Int32.toInt_neg, hrk, Int.bmod_eq_of_le (by omega) (by omega), neg_neg]
  · rintro ⟨k, hk, hn⟩
    have hneg : (-n).toInt = -k := by
      rw [Int32.toInt_neg, hn, Int.bmod_eq_of_le (by omega) (by omega)]
    refine ⟨-n, ?_, Int32.neg_neg⟩
    exact (accumulate_eq_some_iff (m := 0) hmax.le rfl (by omega)).2 ⟨k, hk, by omega, hneg⟩

theorem accumulate_negative {cs : List UInt16} {n : Int32} :
    accumulate Int32.minValue 0 cs = some n ↔
      ∃ k : ℕ, numeral 0 cs = some k ∧ n.toInt = -k := by
  have hmin : Int32.minValue.toInt = -2 ^ 31 := rfl
  have hlow := n.le_toInt
  rw [accumulate_eq_some_iff (m := 0) (by omega) rfl (by omega)]
  constructor
  · rintro ⟨k, hk, -, hn⟩
    exact ⟨k, hk, hn⟩
  · rintro ⟨k, hk, hn⟩
    exact ⟨k, hk, by omega, hn⟩

theorem numeral_of_lt {c : UInt16} (h : c < 48) (m : ℕ) (cs : List UInt16) :
    numeral m (c :: cs) = none := by
  have hd : digit c = none := by
    by_contra hne
    obtain ⟨d, hd⟩ := Option.ne_none_iff_exists'.1 hne
    have hle := le_of_digit hd
    have hlt := UInt16.lt_iff_toNat_lt.1 h
    exact absurd hle (by simpa using hlt)
  rw [numeral, hd, Option.bind_none]

/-- A text that begins with a minus sign. -/
theorem denotes_minus_iff {cs : List UInt16} {z : ℤ} :
    Denotes (45 :: cs) z ↔ cs ≠ [] ∧ ∃ k : ℕ, numeral 0 cs = some k ∧ z = -k := by
  constructor
  · intro h
    cases h with
    | unsigned _ hn => exact absurd hn (by simp [numeral_of_lt (show (45 : UInt16) < 48 by decide)])
    | minus hne hn => exact ⟨hne, _, hn, rfl⟩
  · rintro ⟨hne, k, hk, rfl⟩
    exact .minus hne hk

/-- A text that begins with a plus sign. -/
theorem denotes_plus_iff {cs : List UInt16} {z : ℤ} :
    Denotes (43 :: cs) z ↔ cs ≠ [] ∧ ∃ k : ℕ, numeral 0 cs = some k ∧ z = k := by
  constructor
  · intro h
    cases h with
    | unsigned _ hn => exact absurd hn (by simp [numeral_of_lt (show (43 : UInt16) < 48 by decide)])
    | plus hne hn => exact ⟨hne, _, hn, rfl⟩
  · rintro ⟨hne, k, hk, rfl⟩
    exact .plus hne hk

/-- A text that begins with no sign. -/
theorem denotes_unsigned_iff {c : UInt16} (hminus : c ≠ 45) (hplus : c ≠ 43) {cs : List UInt16}
    {z : ℤ} : Denotes (c :: cs) z ↔ ∃ k : ℕ, numeral 0 (c :: cs) = some k ∧ z = k := by
  constructor
  · intro h
    cases h with
    | unsigned _ hn => exact ⟨_, hn, rfl⟩
    | plus => exact absurd rfl hplus
    | minus => exact absurd rfl hminus
  · rintro ⟨k, hk, rfl⟩
    exact .unsigned (List.cons_ne_nil c cs) hk

theorem not_denotes_nil (z : ℤ) : ¬ Denotes [] z := by
  intro h
  cases h with
  | unsigned hne => exact hne rfl

/-- `parseInt` returns the number that the text denotes, when an `int` can hold it, and throws a
NumberFormatException otherwise. -/
theorem parseInt_eq_some_iff {s : List UInt16} {n : Int32} :
    parseInt s = some n ↔ Denotes s n.toInt := by
  cases s with
  | nil => exact ⟨nofun, fun h => absurd h (not_denotes_nil _)⟩
  | cons c cs =>
    rw [parseInt]
    split_ifs with hsign hminus hempty hplus hempty
    · rw [hminus, denotes_minus_iff]
      simp [hempty]
    · rw [hminus, denotes_minus_iff, accumulate_negative]
      simp [hempty]
    · rw [denotes_unsigned_iff hminus hplus, numeral_of_lt hsign]
      simp
    · rw [not_not.1 hplus, denotes_plus_iff]
      simp [hempty]
    · rw [not_not.1 hplus, denotes_plus_iff, accumulate_positive]
      simp [hempty]
    · have hminus : c ≠ 45 := by
        rintro rfl
        exact hsign (by decide)
      have hplus : c ≠ 43 := by
        rintro rfl
        exact hsign (by decide)
      rw [denotes_unsigned_iff hminus hplus, accumulate_positive]

/-! ## The numeral of a number -/

/-- The unit of an ASCII digit. -/
def digitUnit (d : ℕ) : UInt16 := UInt16.ofNat (48 + d)

/-- The digits of a number, the last one first. -/
def digitsRev (n : ℕ) : List UInt16 :=
  if n < 10 then [digitUnit n] else digitUnit (n % 10) :: digitsRev (n / 10)

/-- `Integer.toString(n)`. -/
def toDecimal (n : ℤ) : List UInt16 :=
  if n < 0 then 45 :: (digitsRev n.natAbs).reverse else (digitsRev n.natAbs).reverse

theorem digit_digitUnit {d : ℕ} (h : d < 10) : digit (digitUnit d) = some d := by
  have hall : ∀ k : Fin 10, digit (digitUnit k) = some k.val := by decide
  exact hall ⟨d, h⟩

theorem numeral_append (cs ds : List UInt16) (m : ℕ) :
    numeral m (cs ++ ds) = (numeral m cs).bind fun n => numeral n ds := by
  induction cs generalizing m with
  | nil => rfl
  | cons c cs ih =>
    rw [List.cons_append, numeral, numeral, Option.bind_assoc]
    exact congrArg _ (funext fun d => ih _)

theorem numeral_digitsRev (n : ℕ) : numeral 0 (digitsRev n).reverse = some n := by
  induction n using digitsRev.induct with
  | case1 n h =>
    rw [digitsRev, if_pos h]
    simp [numeral, digit_digitUnit h]
  | case2 n h ih =>
    rw [digitsRev, if_neg h, List.reverse_cons, numeral_append, ih, Option.bind_some, numeral,
      digit_digitUnit (Nat.mod_lt n (by omega)), Option.bind_some, numeral]
    congr 1
    omega

theorem digitsRev_ne_nil (n : ℕ) : digitsRev n ≠ [] := by
  rw [digitsRev]
  split_ifs <;> simp

theorem denotes_toDecimal (n : ℤ) : Denotes (toDecimal n) n := by
  have hne : (digitsRev n.natAbs).reverse ≠ [] := by simp [digitsRev_ne_nil]
  have hn := numeral_digitsRev n.natAbs
  rw [toDecimal]
  split_ifs with hneg
  · have h := Denotes.minus hne hn
    rwa [show -(n.natAbs : ℤ) = n by omega] at h
  · have h := Denotes.unsigned hne hn
    rwa [show (n.natAbs : ℤ) = n by omega] at h

end Integer
