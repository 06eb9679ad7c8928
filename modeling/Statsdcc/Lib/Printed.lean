import Mathlib
import Statsdcc.Lib.Double

/-!
# Printed numbers

`std::to_string` prints a `double` in fixed notation with six digits behind the
point. What it prints of a finite value is a decimal text, which denotes the value
rounded to six digits.

## Main definitions

- `Exact.printed` — the value that the printed text denotes
- `Exact.decimal` — the printed text in its parts

## Main results

- `value_natDigits`, `natText_injective` — the digits of a natural number denote it
- `Exact.text_decimal`, `Exact.value_decimal` — text and value of a printed number
- `Exact.length_toText_le` — a printed `double` is not long
- `Exact.abs_printed_sub_le` — printing is off by half of the last digit at most
-/

open Bytes

namespace Digits

theorem value_append (ds es : Digits) :
    (ds ++ es).value = ds.value * 10 ^ es.length + es.value := by
  induction es using List.reverseRecOn with
  | nil => simp [value]
  | append_singleton es e ih =>
    have hlast : ∀ fs : Digits, value (fs ++ [e]) = 10 * fs.value + e.val := by
      simp [value]
    rw [← List.append_assoc, hlast, hlast, ih, List.length_append, List.length_singleton, pow_succ]
    ring

theorem value_singleton (d : Fin 10) : value [d] = d.val := by
  simp [value]

end Digits

namespace Bytes

theorem natDigits_of_lt {n : ℕ} (h : n < 10) : natDigits n = [Fin.ofNat 10 n] := by
  rw [natDigits, Nat.toDigits_of_lt_base h, List.map_singleton,
    Nat.toNat_digitChar_sub_48_of_lt_ten h]

theorem natDigits_of_le {n : ℕ} (h : 10 ≤ n) :
    natDigits n = natDigits (n / 10) ++ [Fin.ofNat 10 n] := by
  rw [natDigits, Nat.toDigits_of_base_le (by decide) h, List.map_append, List.map_singleton,
    Nat.toNat_digitChar_sub_48_of_lt_ten (Nat.mod_lt n (by decide))]
  congr 2
  exact Fin.ext (Nat.mod_mod n 10)

theorem natDigits_ne_nil (n : ℕ) : natDigits n ≠ [] := by
  simp [natDigits]

/-- The digits of a number denote it. -/
theorem value_natDigits (n : ℕ) : (natDigits n).value = n := by
  induction n using Nat.strong_induction_on with
  | _ n ih =>
    by_cases h : n < 10
    · rw [natDigits_of_lt h, Digits.value_singleton]
      exact Nat.mod_eq_of_lt h
    · have hvalue := ih (n / 10) (by omega)
      rw [natDigits_of_le (by omega), Digits.value_append, hvalue, Digits.value_singleton,
        List.length_singleton, pow_one]
      show n / 10 * 10 + n % 10 = n
      omega

/-- Different numbers have different texts. -/
theorem natText_injective : Function.Injective natText := by
  have hbyte : Function.Injective Digits.byte := by decide
  intro m n h
  have hdigits : natDigits m = natDigits n := List.map_injective_iff.mpr hbyte h
  rw [← value_natDigits m, hdigits, value_natDigits]

theorem length_natDigits_le {n k : ℕ} (hk : 0 < k) (h : n < 10 ^ k) :
    (natDigits n).length ≤ k := by
  rw [natDigits, List.length_map]
  exact (Nat.length_toDigits_le_iff (by decide) hk).mpr h

end Bytes

namespace Exact

/-- The digits behind the point. -/
def sixDigitList (n : ℕ) : Digits :=
  (List.range 6).map fun i => Fin.ofNat 10 (n / 10 ^ (5 - i))

theorem value_sixDigitList {n : ℕ} (h : n < 10 ^ 6) : (sixDigitList n).value = n := by
  simp only [sixDigitList, Digits.value, List.range_succ, List.range_zero, List.nil_append,
    List.map_append, List.map_singleton, List.foldl_append, List.foldl_cons, List.foldl_nil,
    Fin.ofNat]
  omega

/-- The value that the text of `std::to_string` denotes. -/
def printed (q : ℚ) : ℚ := (if q < 0 then -1 else 1) * (scaled q / 10 ^ 6)

/-- The text of `std::to_string`. -/
def decimal (q : ℚ) : Decimal where
  sign := if q < 0 then .minus else .none
  int := natDigits (scaled q / 10 ^ 6)
  frac := some (sixDigitList (scaled q % 10 ^ 6))
  exp := none
  mantissa_ne := by simp [natDigits_ne_nil]

theorem text_decimal (q : ℚ) : (decimal q).text = toText (.fin q) := by
  simp only [Decimal.text, decimal, toText, Decimal.fracText, Decimal.expText, List.append_nil]
  split_ifs <;> rfl

theorem value_decimal (q : ℚ) : (decimal q).value = printed q := by
  have hmod : scaled q % 10 ^ 6 < 10 ^ 6 := Nat.mod_lt _ (by decide)
  have hlength : (sixDigitList (scaled q % 10 ^ 6)).length = 6 := by simp [sixDigitList]
  have hmantissa : (natDigits (scaled q / 10 ^ 6) ++ sixDigitList (scaled q % 10 ^ 6)).value =
      scaled q := by
    rw [Digits.value_append, value_natDigits, value_sixDigitList hmod, hlength]
    omega
  simp only [Decimal.value, decimal, Option.getD_some, hmantissa, hlength, Decimal.expValue,
    zpow_zero, mul_one, printed]
  split_ifs
  · simp [Sign.apply]
  · simp [Sign.apply]

/-- A negative value is printed with a sign. -/
theorem head?_toText_of_neg {q : ℚ} (h : q < 0) : (toText (.fin q)).head? = some minus := by
  rw [toText, if_pos h]
  rfl

/-- Any other value begins with a digit. -/
theorem exists_head?_toText {q : ℚ} (h : 0 ≤ q) :
    ∃ d, (toText (.fin q)).head? = some (Digits.byte d) := by
  obtain ⟨d, ds, hdigits⟩ := List.exists_cons_of_ne_nil (natDigits_ne_nil (scaled q / 10 ^ 6))
  refine ⟨d, ?_⟩
  rw [toText, if_neg (not_lt.mpr h), natText, hdigits]
  rfl

/-- The largest finite `double`. -/
def maxDouble : ℕ := (2 ^ 53 - 1) * 2 ^ 971

theorem maxDouble_pos : 0 < maxDouble := by
  rw [maxDouble]
  positivity

theorem two_pow_le (k : ℕ) : 2 ^ (2 * k) ≤ 10 ^ k := by
  rw [pow_mul]
  exact Nat.pow_le_pow_left (by decide) k

theorem maxDouble_le : maxDouble ≤ 10 ^ 512 := by
  have hpow := two_pow_le 512
  have hsum : 2 * 512 = 53 + 971 := rfl
  rw [hsum, pow_add] at hpow
  exact (Nat.mul_le_mul_right _ (Nat.sub_le _ _)).trans hpow

/-- Rounding adds at most one unit of the last printed digit. -/
theorem scaled_le {q : ℚ} {bound : ℕ} (h : |q| ≤ bound) : scaled q ≤ bound * 10 ^ 6 + 1 := by
  have hnum : q.num.natAbs ≤ bound * q.den := by
    have habs : |(q.num : ℚ)| ≤ bound * q.den := by
      rw [← Rat.mul_den_eq_num, abs_mul, Nat.abs_cast]
      exact mul_le_mul_of_nonneg_right h (Nat.cast_nonneg _)
    have hcast : (q.num.natAbs : ℚ) = |(q.num : ℚ)| := by
      rw [Nat.cast_natAbs, Int.cast_abs]
    exact_mod_cast hcast ▸ habs
  have hdiv : q.num.natAbs * 10 ^ 6 / q.den ≤ bound * 10 ^ 6 := by
    apply Nat.div_le_of_le_mul
    calc q.num.natAbs * 10 ^ 6 ≤ bound * q.den * 10 ^ 6 := Nat.mul_le_mul_right _ hnum
      _ = q.den * (bound * 10 ^ 6) := by ring
  rw [scaled]
  generalize q.num.natAbs * 10 ^ 6 / q.den = whole at hdiv
  split_ifs
  · exact hdiv.trans (Nat.le_succ _)
  · exact Nat.add_le_add hdiv (Nat.le_of_lt_succ (Nat.mod_lt whole Nat.two_pos))
  · exact Nat.add_le_add_right hdiv 1

/-- The text of a number below a power of ten. -/
theorem length_toText_of_le {q : ℚ} {k : ℕ} (h : |q| ≤ (10 ^ k : ℕ)) :
    (toText (.fin q)).length ≤ k + 9 := by
  have hscaled : scaled q / 10 ^ 6 < 10 ^ (k + 1) := by
    have hle := scaled_le h
    have hpos : 0 < 10 ^ k := Nat.pow_pos (by decide)
    rw [pow_succ]
    omega
  have hint := length_natDigits_le (Nat.succ_pos k) hscaled
  have hsign : (if q < 0 then [minus] else []).length ≤ 1 := by
    split_ifs <;> simp
  simp only [toText, natText, Digits.text, sixDigits, List.length_append, List.length_cons,
    List.length_map, List.length_range]
  omega

/-- A printed `double` is not long. -/
theorem length_toText_le {q : ℚ} (h : |q| ≤ maxDouble) : (toText (.fin q)).length ≤ 521 :=
  length_toText_of_le (h.trans (by exact_mod_cast maxDouble_le))

-- ════════════════════════════════════════════════════════════════════════
-- Reading back
-- ════════════════════════════════════════════════════════════════════════

/-- The last printed digit is rounded. -/
theorem abs_scaled_sub_le (q : ℚ) : |(scaled q : ℚ) - |q| * 10 ^ 6| ≤ 1 / 2 := by
  have hden : (0 : ℚ) < q.den := by exact_mod_cast q.den_pos
  have hq : |q| * 10 ^ 6 = (q.num.natAbs * 10 ^ 6 : ℕ) / q.den := by
    have hnum : (q.num.natAbs : ℚ) = |(q.num : ℚ)| := by rw [Nat.cast_natAbs, Int.cast_abs]
    have habs : |q| = |(q.num : ℚ)| / q.den := by
      conv_lhs => rw [← Rat.num_div_den q]
      rw [abs_div, Nat.abs_cast]
    rw [habs, Nat.cast_mul, hnum]
    push_cast
    ring
  rw [hq, scaled]
  generalize q.num.natAbs * 10 ^ 6 = n
  have hsplit : (n : ℚ) / q.den = (n / q.den : ℕ) + (n % q.den : ℕ) / q.den := by
    have hcast : (n : ℚ) = q.den * (n / q.den : ℕ) + (n % q.den : ℕ) := by
      exact_mod_cast (Nat.div_add_mod n q.den).symm
    conv_lhs => rw [hcast]
    rw [add_div, mul_div_cancel_left₀ _ hden.ne']
  have hrest : ((n % q.den : ℕ) : ℚ) / q.den < 1 := by
    rw [div_lt_one hden]
    exact_mod_cast Nat.mod_lt n q.den_pos
  have hnonneg : (0 : ℚ) ≤ (n % q.den : ℕ) / q.den := by positivity
  rw [hsplit]
  split_ifs with hlow hhalf
  · have hlt : ((n % q.den : ℕ) : ℚ) / q.den < 1 / 2 := by
      rw [div_lt_div_iff₀ hden two_pos, mul_comm, one_mul]
      exact_mod_cast hlow
    rw [abs_le]
    constructor <;> linarith
  · have heq : ((n % q.den : ℕ) : ℚ) / q.den = 1 / 2 := by
      rw [div_eq_div_iff hden.ne' two_ne_zero, mul_comm, one_mul]
      exact_mod_cast hhalf
    rw [heq]
    rcases Nat.mod_two_eq_zero_or_one (n / q.den) with hmod | hmod
    · rw [hmod, abs_le]
      constructor <;> push_cast <;> linarith
    · rw [hmod, abs_le]
      constructor <;> push_cast <;> linarith
  · have hgt : 1 / 2 < ((n % q.den : ℕ) : ℚ) / q.den := by
      rw [div_lt_div_iff₀ two_pos hden, mul_comm _ (2 : ℚ), one_mul]
      exact_mod_cast (by omega : q.den < 2 * (n % q.den))
    rw [abs_le]
    constructor <;> push_cast <;> linarith

/-- What is printed of a number is off by half of the last digit at most. -/
theorem abs_printed_sub_le (q : ℚ) : |printed q - q| ≤ 1 / (2 * 10 ^ 6) := by
  have hscaled := abs_scaled_sub_le q
  have hmag : |(scaled q : ℚ) / 10 ^ 6 - (|q|)| ≤ 1 / (2 * 10 ^ 6) := by
    have heq : (scaled q : ℚ) / 10 ^ 6 - (|q|) = ((scaled q : ℚ) - |q| * 10 ^ 6) / 10 ^ 6 := by ring
    rw [heq, abs_div, abs_of_pos (by positivity : (0 : ℚ) < 10 ^ 6), div_le_iff₀ (by positivity)]
    calc |(scaled q : ℚ) - |q| * 10 ^ 6| ≤ 1 / 2 := hscaled
      _ = 1 / (2 * 10 ^ 6) * 10 ^ 6 := by norm_num
  rw [printed]
  by_cases hneg : q < 0
  · rw [if_pos hneg, neg_one_mul]
    rw [abs_of_neg hneg] at hmag
    rw [← abs_neg]
    convert hmag using 2
    ring
  · rw [if_neg hneg, one_mul]
    rwa [abs_of_nonneg (not_lt.mp hneg)] at hmag

/-- The number that a text denotes, and `0` if it is none. -/
def textValue (s : Bytes) : ℚ :=
  match scanDecimal s with
  | some (d, []) => d.value
  | _ => 0

/-- A printed number is read as its rounded value. -/
theorem textValue_toText (q : ℚ) : textValue (toText (.fin q)) = printed q := by
  rw [← text_decimal, textValue, Decimal.scanDecimal_text]
  exact value_decimal q

end Exact
