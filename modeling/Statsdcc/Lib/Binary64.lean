import Mathlib
import Statsdcc.Lib.Double

/-!
# Doubles

`Binary64` is the number format of IEEE 754 with 53 bits: an operation computes the exact
result and rounds it to the nearest number of the format, of two that are as near to the
even one. A result that rounds past the largest number is infinite. There is one zero: the
sign of a zero shows only in its text and in a division by it.

## Main definitions

- `Binary64.nearest` — the nearest number of the format, its range aside
- `Binary64.Overflows` — the rational numbers that round to an infinity
- `Binary64` — the numbers of the format, with infinities and NaN

## Main results

- `Binary64.representable_nearest`, `Binary64.nearest_eq_self` — rounding gives a number of
  the format and keeps it
- `Binary64.abs_nearest_sub_le` — the error of rounding
- `Binary64.nearest_intCast` — integers of 53 bits are numbers of the format
-/

namespace Binary64

/-- The distance of two numbers of the format around a rational number: `52` binary digits
behind the first one, but no less than the least positive number. -/
def ulp (q : ℚ) : ℚ := 2 ^ max (Int.log 2 |q| - 52) (-1074)

/-- The nearest integer, of two the even one. -/
def roundEven (x : ℚ) : ℤ :=
  let f := ⌊x⌋
  if x - f < 1 / 2 then f else if x - f = 1 / 2 then f + f % 2 else f + 1

/-- The nearest number with 53 binary digits. -/
def nearest (q : ℚ) : ℚ := roundEven (q / ulp q) * ulp q

/-- The number is nearer to `2 ^ 1024` than to the largest number of the format. -/
def Overflows (q : ℚ) : Prop := 2 ^ 1024 - 2 ^ 970 ≤ |q|

instance (q : ℚ) : Decidable (Overflows q) := inferInstanceAs (Decidable (_ ≤ _))

/-- The finite numbers of the format. -/
def Representable (q : ℚ) : Prop :=
  ∃ m e : ℤ, |m| < 2 ^ 53 ∧ -1074 ≤ e ∧ e ≤ 971 ∧ q = m * 2 ^ e

-- ════════════════════════════════════════════════════════════════════════
-- Rounding to an integer
-- ════════════════════════════════════════════════════════════════════════

theorem roundEven_intCast (n : ℤ) : roundEven n = n := by
  simp [roundEven]

theorem abs_roundEven_sub_le (x : ℚ) : |(roundEven x : ℚ) - x| ≤ 1 / 2 := by
  have hle := Int.floor_le x
  have hlt := Int.lt_floor_add_one x
  rw [abs_le]
  simp only [roundEven]
  split_ifs with hbelow hhalf
  · exact ⟨by linarith, by linarith⟩
  · rcases Int.emod_two_eq_zero_or_one ⌊x⌋ with hparity | hparity <;> rw [hparity] <;> push_cast <;>
      exact ⟨by linarith, by linarith⟩
  · have habove : 1 / 2 < x - ⌊x⌋ := lt_of_le_of_ne (not_lt.mp hbelow) (Ne.symm hhalf)
    push_cast
    exact ⟨by linarith, by linarith⟩

-- ════════════════════════════════════════════════════════════════════════
-- Rounding to the format
-- ════════════════════════════════════════════════════════════════════════

theorem ulp_pos (q : ℚ) : 0 < ulp q := zpow_pos two_pos _

theorem nearest_zero : nearest 0 = 0 := by
  have h := roundEven_intCast 0
  rw [Int.cast_zero] at h
  rw [nearest, zero_div, h, Int.cast_zero, zero_mul]

/-- In units of its distance a number has at most 53 binary digits. -/
theorem abs_div_ulp_lt (q : ℚ) : |q / ulp q| < 2 ^ 53 := by
  have hlog : |q| < (2 : ℚ) ^ (Int.log 2 |q| + 1) :=
    Int.lt_zpow_succ_log_self (b := 2) one_lt_two |q|
  have hulp : (2 : ℚ) ^ (Int.log 2 |q| + 1) ≤ 2 ^ 53 * ulp q := by
    rw [ulp, ← zpow_natCast, ← zpow_add₀ two_ne_zero]
    exact zpow_le_zpow_right₀ one_le_two (by push_cast; omega)
  rw [abs_div, abs_of_pos (ulp_pos q), div_lt_iff₀ (ulp_pos q)]
  exact hlog.trans_le hulp

/-- Rounding does not pass an integer. -/
theorem abs_roundEven_le {x : ℚ} {n : ℕ} (h : |x| ≤ n) : |roundEven x| ≤ n := by
  have hround := abs_le.mp (abs_roundEven_sub_le x)
  have hx := abs_le.mp h
  have hlow : (-n - 1 : ℚ) < roundEven x := by linarith [hround.1, hx.1]
  have hhigh : (roundEven x : ℚ) < n + 1 := by linarith [hround.2, hx.2]
  have hlow' : (-n - 1 : ℤ) < roundEven x := by exact_mod_cast hlow
  have hhigh' : roundEven x < n + 1 := by exact_mod_cast hhigh
  exact abs_le.mpr ⟨by omega, by omega⟩

/-- Rounding does not pass a power of two. -/
theorem abs_nearest_le {q : ℚ} {n : ℕ} (h : |q| ≤ 2 ^ n) : |nearest q| ≤ 2 ^ n := by
  rcases eq_or_ne q 0 with rfl | hq
  · rw [nearest_zero, abs_zero]
    positivity
  have hlog : Int.log 2 |q| ≤ n := by
    rw [← Int.log_zpow (R := ℚ) (b := 2) one_lt_two n]
    exact Int.log_mono_right (abs_pos.mpr hq) (by exact_mod_cast h)
  obtain ⟨k, hk⟩ : ∃ k : ℕ, (n : ℤ) = max (Int.log 2 |q| - 52) (-1074) + k :=
    ⟨(n - max (Int.log 2 |q| - 52) (-1074)).toNat, by omega⟩
  have hpower : (2 : ℚ) ^ n = 2 ^ k * ulp q := by
    rw [ulp, ← zpow_natCast, hk, zpow_add₀ two_ne_zero, zpow_natCast, mul_comm]
  have hunits : |q / ulp q| ≤ (2 ^ k : ℕ) := by
    rw [abs_div, abs_of_pos (ulp_pos q), div_le_iff₀ (ulp_pos q)]
    push_cast
    exact hpower ▸ h
  have hround : |(roundEven (q / ulp q) : ℚ)| ≤ 2 ^ k := by exact_mod_cast abs_roundEven_le hunits
  rw [nearest, abs_mul, abs_of_pos (ulp_pos q), hpower]
  exact mul_le_mul_of_nonneg_right hround (ulp_pos q).le

/-- The error of rounding is at most half the distance. -/
theorem abs_nearest_sub_le_ulp (q : ℚ) : |nearest q - q| ≤ ulp q / 2 := by
  have hpos := ulp_pos q
  have hscaled : nearest q - q = (roundEven (q / ulp q) - q / ulp q) * ulp q := by
    rw [nearest, sub_mul, div_mul_cancel₀ _ hpos.ne']
  rw [hscaled, abs_mul, abs_of_pos hpos]
  calc |(roundEven (q / ulp q) : ℚ) - q / ulp q| * ulp q ≤ 1 / 2 * ulp q :=
        mul_le_mul_of_nonneg_right (abs_roundEven_sub_le _) hpos.le
    _ = ulp q / 2 := by ring

theorem roundEven_pos_iff (x : ℚ) : 0 < roundEven x ↔ 1 / 2 < x := by
  have hle := Int.floor_le x
  have hlt := Int.lt_floor_add_one x
  simp only [roundEven]
  split_ifs with hbelow hhalf
  · rw [Int.floor_pos]
    constructor <;> intro h
    · linarith
    · by_contra hone
      have hzero : ⌊x⌋ ≤ 0 := by
        rw [← Int.lt_add_one_iff, Int.floor_lt]
        push_cast
        linarith
      have hcast : (⌊x⌋ : ℚ) ≤ 0 := by exact_mod_cast hzero
      linarith
  · constructor <;> intro h
    · have hone : 1 ≤ ⌊x⌋ := by omega
      have hcast : (1 : ℚ) ≤ ⌊x⌋ := by exact_mod_cast hone
      linarith
    · have hpos : (0 : ℚ) < ⌊x⌋ := by linarith
      have hpos' : 0 < ⌊x⌋ := by exact_mod_cast hpos
      omega
  · have habove : 1 / 2 < x - ⌊x⌋ := lt_of_le_of_ne (not_lt.mp hbelow) (Ne.symm hhalf)
    constructor <;> intro h
    · have hnonneg : 0 ≤ ⌊x⌋ := by omega
      have hcast : (0 : ℚ) ≤ ⌊x⌋ := by exact_mod_cast hnonneg
      linarith
    · have hneg : (-1 : ℚ) < ⌊x⌋ := by linarith
      have hneg' : -1 < ⌊x⌋ := by exact_mod_cast hneg
      omega

/-- Half the least positive number is rounded to zero, anything above is not. -/
theorem nearest_pos_iff (q : ℚ) : 0 < nearest q ↔ 2 ^ (-1075 : ℤ) < q := by
  have hulp := ulp_pos q
  have hleast : (2 : ℚ) ^ (-1074 : ℤ) = 2 ^ (-1075 : ℤ) * 2 := by
    rw [← zpow_add_one₀ two_ne_zero]
    norm_num
  have hle : (2 : ℚ) ^ (-1074 : ℤ) ≤ ulp q := zpow_le_zpow_right₀ one_le_two (le_max_right _ _)
  rw [nearest, mul_pos_iff_of_pos_right hulp, Int.cast_pos, roundEven_pos_iff, lt_div_iff₀ hulp]
  constructor
  · intro h
    linarith
  · intro h
    have hpos : 0 < q := (zpow_pos two_pos _).trans h
    rcases le_total (Int.log 2 |q| - 52) (-1074) with hsmall | hlarge
    · rw [ulp, max_eq_right hsmall, hleast]
      linarith
    · have hself : (2 : ℚ) ^ Int.log 2 |q| ≤ |q| :=
        Int.zpow_log_le_self (b := 2) one_lt_two (abs_pos.mpr hpos.ne')
      have hless : ulp q ≤ 2 ^ Int.log 2 |q| := by
        rw [ulp, max_eq_left hlarge]
        exact zpow_le_zpow_right₀ one_le_two (by omega)
      rw [abs_of_pos hpos] at hself hless
      linarith

/-- The error of rounding, but for numbers below the least normal one. -/
theorem abs_nearest_sub_le {q : ℚ} (h : 2 ^ (-1022 : ℤ) ≤ |q|) :
    |nearest q - q| ≤ |q| * 2 ^ (-53 : ℤ) := by
  have hpos : 0 < |q| := (zpow_pos two_pos _).trans_le h
  have hlog : (-1022 : ℤ) ≤ Int.log 2 |q| := (Int.zpow_le_iff_le_log one_lt_two hpos).mp h
  have hself : (2 : ℚ) ^ Int.log 2 |q| ≤ |q| := Int.zpow_log_le_self (b := 2) one_lt_two hpos
  have hulp : ulp q = 2 ^ Int.log 2 |q| * 2 ^ (-52 : ℤ) := by
    rw [ulp, max_eq_left (by omega), sub_eq_add_neg, zpow_add₀ two_ne_zero]
  calc |nearest q - q| ≤ ulp q / 2 := abs_nearest_sub_le_ulp q
    _ = 2 ^ Int.log 2 |q| * 2 ^ (-53 : ℤ) := by rw [hulp]; norm_num; ring
    _ ≤ |q| * 2 ^ (-53 : ℤ) := mul_le_mul_of_nonneg_right hself (zpow_pos two_pos _).le

/-- The least number that overflows, in units of the largest distance. -/
theorem overflow_eq : (2 : ℚ) ^ 1024 - 2 ^ 970 = (2 ^ 53 - 1 / 2) * 2 ^ (971 : ℤ) := by
  have htop : (2 : ℚ) ^ 1024 = 2 ^ 53 * 2 ^ (971 : ℤ) := by
    rw [← zpow_natCast, ← zpow_natCast, ← zpow_add₀ two_ne_zero]
    rfl
  have hhalf : (2 : ℚ) ^ (971 : ℤ) = 2 ^ 970 * 2 := by
    rw [← zpow_natCast, ← zpow_add_one₀ two_ne_zero]
    rfl
  rw [htop, hhalf]
  generalize (2 : ℚ) ^ 970 = x
  ring

theorem not_overflows_of_le {q : ℚ} (h : |q| ≤ 2 ^ 1023) : ¬Overflows q := by
  have htop : (2 : ℚ) ^ 1024 = 2 ^ 1023 * 2 := pow_succ _ _
  have hpart : (2 : ℚ) ^ 970 < 2 ^ 1023 := pow_lt_pow_right₀ one_lt_two (by decide)
  rw [Overflows, not_le, htop]
  generalize (2 : ℚ) ^ 1023 = x at *
  generalize (2 : ℚ) ^ 970 = y at *
  linarith

/-- A number that does not overflow is rounded to one of the format. -/
theorem representable_nearest {q : ℚ} (h : ¬Overflows q) : Representable (nearest q) := by
  rw [Overflows, not_le] at h
  obtain ⟨e, he⟩ : ∃ e, max (Int.log 2 |q| - 52) (-1074) = e := ⟨_, rfl⟩
  have hulp : ulp q = 2 ^ e := by rw [ulp, he]
  have hlog : Int.log 2 |q| ≤ 1023 := by
    rcases eq_or_ne q 0 with rfl | hq
    · rw [abs_zero, Int.log_zero_right]
      norm_num
    · have hlt : |q| < (2 : ℚ) ^ (1024 : ℤ) := h.trans (by norm_num)
      have := (Int.lt_zpow_iff_log_lt (b := 2) one_lt_two (abs_pos.mpr hq)).mp hlt
      omega
  have hround := abs_le.mp (abs_roundEven_sub_le (q / ulp q))
  have hbound := abs_lt.mp (abs_div_ulp_lt q)
  have hm : |roundEven (q / ulp q)| ≤ 2 ^ 53 := by
    rw [abs_le]
    constructor
    · have hlow : (-(2 ^ 53) - 1 : ℚ) < roundEven (q / ulp q) := by linarith [hround.1, hbound.1]
      have hlow' : (-(2 ^ 53) - 1 : ℤ) < roundEven (q / ulp q) := by exact_mod_cast hlow
      omega
    · have hhigh : (roundEven (q / ulp q) : ℚ) < 2 ^ 53 + 1 := by linarith [hround.2, hbound.2]
      have hhigh' : roundEven (q / ulp q) < 2 ^ 53 + 1 := by exact_mod_cast hhigh
      omega
  rcases lt_or_eq_of_le hm with hlt | heq
  · exact ⟨roundEven (q / ulp q), e, hlt, by omega, by omega, by rw [nearest, ← hulp]⟩
  · -- the number is rounded up to a power of two, which has a larger exponent
    have hexp : e ≠ 971 := by
      rintro rfl
      have hclose : 2 ^ 53 - 1 / 2 ≤ |q / ulp q| := by
        rcases abs_eq (by norm_num : (0 : ℤ) ≤ 2 ^ 53) |>.mp heq with hpos | hneg
        · rw [hpos] at hround
          push_cast at hround
          exact (by linarith [hround.2] : (2 : ℚ) ^ 53 - 1 / 2 ≤ q / ulp q).trans (le_abs_self _)
        · rw [hneg] at hround
          push_cast at hround
          exact (by linarith [hround.1] : (2 : ℚ) ^ 53 - 1 / 2 ≤ -(q / ulp q)).trans
            (neg_le_abs _)
      rw [abs_div, abs_of_pos (ulp_pos q), le_div_iff₀ (ulp_pos q), hulp, ← overflow_eq] at hclose
      exact absurd h (not_lt.mpr hclose)
    rcases abs_eq (by norm_num : (0 : ℤ) ≤ 2 ^ 53) |>.mp heq with hpos | hneg
    · refine ⟨2 ^ 52, e + 1, by norm_num, by omega, by omega, ?_⟩
      rw [nearest, hpos, hulp, zpow_add₀ two_ne_zero]
      push_cast
      ring
    · refine ⟨-2 ^ 52, e + 1, by norm_num, by omega, by omega, ?_⟩
      rw [nearest, hneg, hulp, zpow_add₀ two_ne_zero]
      push_cast
      ring

/-- A number of the format is not changed. -/
theorem nearest_eq_self {q : ℚ} (h : Representable q) : nearest q = q := by
  obtain ⟨m, e, hm, he, -, rfl⟩ := h
  rcases eq_or_ne m 0 with rfl | hne
  · rw [Int.cast_zero, zero_mul, nearest_zero]
  have hq : (m : ℚ) * 2 ^ e ≠ 0 :=
    mul_ne_zero (Int.cast_ne_zero.mpr hne) (zpow_ne_zero _ two_ne_zero)
  have hlog : Int.log 2 |(m : ℚ) * 2 ^ e| < 53 + e := by
    apply (Int.lt_zpow_iff_log_lt (b := 2) one_lt_two (abs_pos.mpr hq)).mp
    have hm' : |(m : ℚ)| < 2 ^ 53 := by exact_mod_cast hm
    rw [abs_mul, abs_of_pos (zpow_pos two_pos e : (0 : ℚ) < 2 ^ e), Nat.cast_ofNat,
      zpow_add₀ two_ne_zero]
    exact mul_lt_mul_of_pos_right (by exact_mod_cast hm') (zpow_pos two_pos e)
  obtain ⟨u, hu⟩ : ∃ u, max (Int.log 2 |(m : ℚ) * 2 ^ e| - 52) (-1074) = u := ⟨_, rfl⟩
  obtain ⟨k, hk⟩ : ∃ k : ℕ, e = u + k := ⟨(e - u).toNat, by omega⟩
  have hulp : ulp ((m : ℚ) * 2 ^ e) = 2 ^ u := by rw [ulp, hu]
  have hunits : (m : ℚ) * 2 ^ e / 2 ^ u = ((m * 2 ^ k : ℤ) : ℚ) := by
    rw [hk, zpow_add₀ two_ne_zero, zpow_natCast]
    push_cast
    field_simp
  rw [nearest, hulp, hunits, roundEven_intCast, ← hunits,
    div_mul_cancel₀ _ (zpow_ne_zero _ two_ne_zero)]

/-- Integers of 53 bits are numbers of the format. -/
theorem representable_intCast {n : ℤ} (h : |n| < 2 ^ 53) : Representable n :=
  ⟨n, 0, h, by norm_num, by norm_num, by rw [zpow_zero, mul_one]⟩

theorem nearest_intCast {n : ℤ} (h : |n| < 2 ^ 53) : nearest n = n :=
  nearest_eq_self (representable_intCast h)

/-- Numbers of the format do not overflow. -/
theorem Representable.not_overflows {q : ℚ} (h : Representable q) : ¬Overflows q := by
  obtain ⟨m, e, hm, -, he, rfl⟩ := h
  have hm' : |(m : ℚ)| ≤ 2 ^ 53 - 1 := by
    have hle : |m| ≤ 2 ^ 53 - 1 := by omega
    exact_mod_cast hle
  have he' : (2 : ℚ) ^ e ≤ 2 ^ (971 : ℤ) := zpow_le_zpow_right₀ one_le_two he
  rw [Overflows, not_le, abs_mul, abs_of_pos (zpow_pos two_pos e : (0 : ℚ) < 2 ^ e)]
  calc |(m : ℚ)| * 2 ^ e ≤ (2 ^ 53 - 1) * 2 ^ (971 : ℤ) :=
        mul_le_mul hm' he' (zpow_pos two_pos e).le (by norm_num)
    _ < (2 ^ 53 - 1 / 2) * 2 ^ (971 : ℤ) :=
        mul_lt_mul_of_pos_right (by norm_num) (zpow_pos two_pos _)
    _ = 2 ^ 1024 - 2 ^ 970 := overflow_eq.symm

end Binary64

/-- An exact result, rounded. -/
def Exact.rounded : Exact → Exact
  | .fin q => if Binary64.Overflows q then .inf (decide (q < 0)) else .fin (Binary64.nearest q)
  | .inf neg => .inf neg
  | .nan => .nan

/-- A value of type `double`. -/
structure Binary64 where
  val : Exact
  representable : ∀ q, val = .fin q → Binary64.Representable q

namespace Binary64

@[ext] theorem ext {x y : Binary64} (h : x.val = y.val) : x = y := by
  cases x
  cases y
  cases h
  rfl

instance : DecidableEq Binary64 := fun x y =>
  decidable_of_iff (x.val = y.val) ⟨Binary64.ext, congrArg val⟩

/-- The double nearest to an exact result. -/
def ofExact (x : Exact) : Binary64 where
  val := x.rounded
  representable q h := by
    cases x with
    | fin p =>
      rw [Exact.rounded] at h
      split at h
      · cases h
      · rename_i hfits
        cases h
        exact representable_nearest hfits
    | inf neg => cases h
    | nan => cases h

instance : CDouble Binary64 where
  zero := ofExact (.fin 0)
  one := ofExact (.fin 1)
  add x y := ofExact (x.val + y.val)
  mul x y := ofExact (x.val * y.val)
  div x y := ofExact (x.val / y.val)
  ofRat q := if Overflows q then none else some (ofExact (.fin q))
  ofInt n := ofExact (.fin n)
  intOfSize n := Int.bmod n (2 ^ 32)
  inf neg := ofExact (.inf neg)
  nan := ofExact .nan
  lowest := ofExact CDouble.lowest
  lt x y := x.val.lt y.val
  floor x := x.val.floor
  roundToNat x := x.val.roundToNat
  toInt x := x.val.toInt
  toText x := x.val.toText
  isPlain_toText x := x.val.isPlain_toText

theorem val_add (x y : Binary64) : (x + y).val = (x.val + y.val).rounded := rfl

theorem val_mul (x y : Binary64) : (x * y).val = (x.val * y.val).rounded := rfl

theorem val_div (x y : Binary64) : (x / y).val = (x.val / y.val).rounded := rfl

theorem rounded_fin {q : ℚ} (h : ¬Overflows q) : (Exact.fin q).rounded = .fin (nearest q) :=
  if_neg h

/-- A result is finite exactly when it does not overflow. -/
theorem exists_rounded_iff {q : ℚ} : (∃ p, (Exact.fin q).rounded = .fin p) ↔ ¬Overflows q := by
  constructor
  · rintro ⟨p, hp⟩ hover
    rw [Exact.rounded, if_pos hover] at hp
    cases hp
  · intro h
    exact ⟨_, rounded_fin h⟩

theorem rounded_intCast {n : ℤ} (h : |n| < 2 ^ 53) : (Exact.fin n).rounded = .fin n := by
  rw [rounded_fin (representable_intCast h).not_overflows, nearest_intCast h]

theorem val_zero : (0 : Binary64).val = .fin 0 := by
  have h := rounded_intCast (n := 0) (by norm_num)
  rw [Int.cast_zero] at h
  exact h

theorem val_one : (1 : Binary64).val = .fin 1 := by
  have h := rounded_intCast (n := 1) (by norm_num)
  rw [Int.cast_one] at h
  exact h

-- ════════════════════════════════════════════════════════════════════════
-- Finite results
-- ════════════════════════════════════════════════════════════════════════

/-- Neither an infinity nor NaN. -/
def IsFinite (x : Binary64) : Prop := ∃ q, x.val = .fin q

/-- The value of a finite number. -/
def toRat (x : Binary64) : ℚ := x.val.toRat

theorem IsFinite.val_eq {x : Binary64} (h : x.IsFinite) : x.val = .fin x.toRat := by
  obtain ⟨q, hq⟩ := h
  rw [toRat, hq, Exact.toRat]

theorem isFinite_zero : (0 : Binary64).IsFinite := ⟨0, val_zero⟩

theorem val_eq_of_not_overflows {x : Binary64} {q : ℚ} (h : x.val = (Exact.fin q).rounded)
    (hfits : ¬Overflows q) : x.IsFinite ∧ x.toRat = nearest q := by
  rw [rounded_fin hfits] at h
  exact ⟨⟨_, h⟩, by rw [toRat, h, Exact.toRat]⟩

theorem isFinite_iff_of_val {x : Binary64} {q : ℚ} (h : x.val = (Exact.fin q).rounded) :
    x.IsFinite ↔ ¬Overflows q := by
  rw [IsFinite, h, exists_rounded_iff]

/-- A sum of finite numbers is finite exactly when it does not overflow. -/
theorem isFinite_add_iff {x : Binary64} (hx : x.IsFinite) (y : Binary64) :
    (x + y).IsFinite ↔ y.IsFinite ∧ ¬Overflows (x.toRat + y.toRat) := by
  by_cases hy : y.IsFinite
  · rw [and_iff_right hy]
    refine isFinite_iff_of_val ?_
    rw [val_add, hx.val_eq, hy.val_eq, Exact.fin_add_fin]
  · refine iff_of_false ?_ fun h => hy h.1
    rintro ⟨q, hq⟩
    rw [val_add, hx.val_eq] at hq
    cases hval : y.val with
    | fin p => exact hy ⟨p, hval⟩
    | inf neg =>
      rw [hval] at hq
      cases hq
    | nan =>
      rw [hval] at hq
      cases hq

/-- So is a product. -/
theorem isFinite_mul_iff {x : Binary64} (hx : x.IsFinite) (y : Binary64) :
    (x * y).IsFinite ↔ y.IsFinite ∧ ¬Overflows (x.toRat * y.toRat) := by
  by_cases hy : y.IsFinite
  · rw [and_iff_right hy]
    refine isFinite_iff_of_val ?_
    rw [val_mul, hx.val_eq, hy.val_eq, Exact.fin_mul_fin]
  · refine iff_of_false ?_ fun h => hy h.1
    rintro ⟨q, hq⟩
    rw [val_mul, hx.val_eq] at hq
    cases hval : y.val with
    | fin p => exact hy ⟨p, hval⟩
    | inf neg =>
      have hmul : Exact.fin x.toRat * .inf neg = Exact.mul (.fin x.toRat) (.inf neg) := rfl
      rw [hval, hmul, Exact.mul] at hq
      split_ifs at hq <;> cases hq
    | nan =>
      rw [hval] at hq
      cases hq

/-- The product, where it is finite. -/
theorem toRat_mul {x y : Binary64} (hx : x.IsFinite) (hxy : (x * y).IsFinite) :
    (x * y).toRat = nearest (x.toRat * y.toRat) := by
  obtain ⟨hy, hfits⟩ := (isFinite_mul_iff hx y).mp hxy
  refine (val_eq_of_not_overflows ?_ hfits).2
  rw [val_mul, hx.val_eq, hy.val_eq, Exact.fin_mul_fin]

theorem val_one_div {x : Binary64} (hx : x.IsFinite) (hne : x.toRat ≠ 0) :
    (1 / x).val = (Exact.fin (1 / x.toRat)).rounded := by
  rw [val_div, val_one, hx.val_eq, Exact.fin_div_fin _ hne]

/-- Adding `1` does not overflow. -/
theorem isFinite_add_one {x : Binary64} (hx : x.IsFinite) : (x + 1).IsFinite := by
  obtain ⟨m, e, hm, -, he, heq⟩ := x.representable _ hx.val_eq
  have hone : (1 : Binary64).toRat = 1 := by rw [toRat, val_one, Exact.toRat]
  refine (isFinite_add_iff hx 1).mpr ⟨⟨1, val_one⟩, ?_⟩
  have hm' : |(m : ℚ)| ≤ 2 ^ 53 - 1 := by
    have hle : |m| ≤ 2 ^ 53 - 1 := by omega
    exact_mod_cast hle
  have he' : (2 : ℚ) ^ e ≤ 2 ^ (971 : ℤ) := zpow_le_zpow_right₀ one_le_two he
  have hsmall : (2 : ℚ) ^ (1 : ℤ) < 2 ^ (971 : ℤ) := zpow_lt_zpow_right₀ one_lt_two (by norm_num)
  have hlargest : |(m : ℚ)| * 2 ^ e ≤ (2 ^ 53 - 1) * 2 ^ (971 : ℤ) :=
    mul_le_mul hm' he' (zpow_pos two_pos e).le (by norm_num)
  rw [hone, Overflows, not_le, overflow_eq, heq]
  calc |(m : ℚ) * 2 ^ e + 1| ≤ |(m : ℚ) * 2 ^ e| + |1| := abs_add_le _ _
    _ = |(m : ℚ)| * 2 ^ e + 1 := by
        rw [abs_mul, abs_of_pos (zpow_pos two_pos e : (0 : ℚ) < 2 ^ e), abs_one]
    _ < (2 ^ 53 - 1 / 2) * 2 ^ (971 : ℤ) := by
        rw [zpow_one] at hsmall
        generalize (2 : ℚ) ^ (971 : ℤ) = x at *
        linarith

end Binary64
