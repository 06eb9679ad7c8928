import Mathlib
import Statsdcc.Ledger.Percentiles
import Statsdcc.Lib.Binary64

/-!
# Subscripts inside the samples

The loop over the percentiles reads as many samples as `pct / 100 * count`, rounded, where
`count` is the number of samples in an `int`. A percentile above `100` can ask for more
samples than there are.

## Main definitions

- `checkedStep` — an iteration whose subscripts are checked
- `PercentileFits` — a percentile asks for no more samples than there are

## Main results

- `checkedStep_eq` — when an iteration passes its checks
- `nearest_rank_lt_iff` — rounding decides nothing below `2 ^ 31` samples
- `inRange_iff` — which percentiles stay inside the samples
-/

open Bytes

namespace Statsdcc

section

variable {R : Type} [CDouble R]

/-- An iteration in which every subscript of `values` is checked. -/
def checkedStep (values : List R) (acc : R × UnorderedMap Bytes R) (threshold : ℤ) :
    Option (R × UnorderedMap Bytes R) :=
  let k := numInThreshold R values.length threshold
  if 1 < sampleCount R values.length ∧ k = 0 then some acc
  else
    (if 1 < sampleCount R values.length then values[k - 1]? else some acc.1).bind fun boundary =>
      ((List.range k).foldlM (fun sum i => (values[i]?).map (sum + ·)) 0).map fun pctSum =>
        (boundary, (((acc.2.insert (PercentileStat.upper.name threshold) boundary).insert
          (PercentileStat.count.name threshold) (CDouble.ofInt k)).insert
          (PercentileStat.sum.name threshold) pctSum).insert
          (PercentileStat.mean.name threshold) (pctSum / CDouble.ofInt k))

/-- The checked sum of the first `k` values. -/
theorem foldlM_range (values : List R) {k : ℕ} (hk : k ≤ values.length) :
    (List.range k).foldlM (fun sum i => (values[i]?).map (sum + ·)) (0 : R) =
      some ((values.take k).foldl (· + ·) 0) := by
  induction k with
  | zero => rfl
  | succ k ih =>
    have hlt : k < values.length := by omega
    rw [List.range_succ, List.foldlM_append, ih (by omega), List.take_succ_eq_append_getElem hlt,
      List.foldl_concat]
    simp [List.getElem?_eq_getElem hlt]

/-- An iteration passes its checks exactly when its rank is no more than the number
of values, and then it does what the unchecked one does. -/
theorem checkedStep_eq (values : List R) (acc : R × UnorderedMap Bytes R) (threshold : ℤ) :
    checkedStep values acc threshold =
      if numInThreshold R values.length threshold ≤ values.length then
        some (percentileStep values acc threshold)
      else none := by
  rw [checkedStep, percentileStep_eq]
  obtain ⟨k, hk⟩ : ∃ k, numInThreshold R values.length threshold = k := ⟨_, rfl⟩
  simp only [hk]
  by_cases hskip : 1 < sampleCount R values.length ∧ k = 0
  · rw [if_pos hskip, if_pos hskip, if_pos (by omega)]
  · rw [if_neg hskip, if_neg hskip]
    by_cases hle : k ≤ values.length
    · rw [if_pos hle, foldlM_range values hle]
      by_cases hn : 1 < sampleCount R values.length
      · have hpos : k ≠ 0 := fun hzero => hskip ⟨hn, hzero⟩
        have hlt : k - 1 < values.length := by omega
        simp only [if_pos hn, List.getElem?_eq_getElem hlt, List.getD_eq_getElem values 0 hlt,
          Option.bind_some, Option.map_some]
        rfl
      · simp only [if_neg hn, Option.bind_some, Option.map_some]
        rfl
    · have hn : 1 < sampleCount R values.length := by
        by_contra hn
        have hzero : numInThreshold R values.length threshold = 0 := if_neg hn
        omega
      rw [if_neg hle, if_pos hn, List.getElem?_eq_none (by omega), Option.bind_none]

/-- The checked loop succeeds exactly when every iteration stays inside the values. -/
theorem foldlM_checkedStep (values : List R) (percentiles : List ℤ)
    (acc : R × UnorderedMap Bytes R) :
    percentiles.foldlM (checkedStep values) acc =
      some (percentiles.foldl (percentileStep values) acc) ↔
      ∀ p ∈ percentiles, numInThreshold R values.length p ≤ values.length := by
  induction percentiles generalizing acc with
  | nil => simp
  | cons p percentiles ih =>
    rw [List.foldlM_cons, checkedStep_eq, List.forall_mem_cons]
    by_cases hp : numInThreshold R values.length p ≤ values.length
    · rw [if_pos hp, List.foldl_cons]
      exact (ih _).trans (by simp [hp])
    · rw [if_neg hp]
      simp [hp]

end

-- ════════════════════════════════════════════════════════════════════════
-- Ranks in double arithmetic
-- ════════════════════════════════════════════════════════════════════════

open Binary64

/-- `pct / 100 * count`, rounded twice. -/
def roundedRank (pct : ℕ) (count : ℤ) : ℚ := nearest (nearest (pct / 100) * count)

/-- Where the product is `n + 1 / 2`, nothing is lost in rounding. -/
theorem roundedRank_of_tie {pct n : ℕ} (hn : 1 < n) (htie : pct * n = 100 * n + 50) :
    roundedRank pct n = n + 1 / 2 := by
  have hdvd : n ∣ 50 :=
    (Nat.dvd_add_right (Dvd.intro_left 100 rfl)).mp (htie ▸ Dvd.intro_left pct rfl)
  have hle : n ≤ 50 := Nat.le_of_dvd (by decide) hdvd
  have hcases : n = 2 ∧ pct = 125 ∨ n = 5 ∧ pct = 110 ∨ n = 10 ∧ pct = 105 ∨
      n = 25 ∧ pct = 102 ∨ n = 50 ∧ pct = 101 := by
    interval_cases n <;> omega
  rcases hcases with ⟨rfl, rfl⟩ | ⟨rfl, rfl⟩ | ⟨rfl, rfl⟩ | ⟨rfl, rfl⟩ | ⟨rfl, rfl⟩ <;>
    decide +kernel

/-- The two roundings change the product by a small part of it. -/
theorem abs_roundedRank_sub_le {pct n : ℕ} (hpct : 0 < pct) (hn : 0 < n) :
    |roundedRank pct n - pct * n / 100| ≤ pct * n / 100 * 2 ^ (-51 : ℤ) := by
  have hpct' : (1 : ℚ) ≤ pct := by exact_mod_cast hpct
  have hn' : (1 : ℚ) ≤ n := by exact_mod_cast hn
  have hquotient : (0 : ℚ) < pct / 100 := by positivity
  have hnormal : (2 : ℚ) ^ (-1022 : ℤ) ≤ 1 / 200 :=
    (zpow_le_zpow_right₀ one_le_two (by norm_num : (-1022 : ℤ) ≤ -8)).trans (by norm_num)
  have hfirst := abs_nearest_sub_le (q := (pct : ℚ) / 100)
    (by rw [abs_of_pos hquotient]; linarith)
  rw [abs_of_pos hquotient, abs_le] at hfirst
  obtain ⟨y, hy⟩ : ∃ y, nearest ((pct : ℚ) / 100) = y := ⟨_, rfl⟩
  have htiny : (2 : ℚ) ^ (-53 : ℤ) = 1 / 9007199254740992 := by norm_num
  have hbound : (2 : ℚ) ^ (-51 : ℤ) = 4 / 9007199254740992 := by norm_num
  rw [hy, htiny] at hfirst
  have hypos : 1 / 200 ≤ y := by linarith [hfirst.1]
  have hproduct : (1 : ℚ) / 200 ≤ y * n := by nlinarith
  have hsecond := abs_nearest_sub_le (q := y * n)
    (by rw [abs_of_pos (by linarith)]; exact hnormal.trans hproduct)
  rw [abs_of_pos (by linarith : 0 < y * n), abs_le, htiny] at hsecond
  have hlow : (pct : ℚ) * n / 100 * (1 - 1 / 9007199254740992) ≤ y * n := by nlinarith [hfirst.1]
  have hhigh : y * n ≤ (pct : ℚ) * n / 100 * (1 + 1 / 9007199254740992) := by
    nlinarith [hfirst.2]
  have hx : (0 : ℚ) < pct * n / 100 := by positivity
  rw [roundedRank, Int.cast_natCast, hy, abs_le, hbound]
  constructor <;> linarith [hsecond.1, hsecond.2]

/-- Rounding does not decide whether a percentile of fewer than `2 ^ 31` samples asks for
more of them than there are. -/
theorem nearest_rank_lt_iff {pct n : ℕ} (hn : 1 < n) (hlt : n < 2 ^ 31) :
    roundedRank pct n < n + 1 / 2 ↔ pct * n < 100 * n + 50 := by
  have hlt' : (n : ℚ) < 2 ^ 31 := by exact_mod_cast hlt
  have hbound : (2 : ℚ) ^ (-51 : ℤ) = 1 / 2251799813685248 := by norm_num
  rcases Nat.eq_zero_or_pos pct with rfl | hpct
  · refine iff_of_true ?_ (by omega)
    rw [roundedRank, Nat.cast_zero, zero_div, nearest_zero, zero_mul, nearest_zero]
    positivity
  have herror := abs_le.mp (abs_roundedRank_sub_le hpct (by omega : 0 < n))
  rw [hbound] at herror
  rcases lt_trichotomy (pct * n) (100 * n + 50) with hbelow | htie | habove
  · refine iff_of_true ?_ hbelow
    have hle : (pct : ℚ) * n ≤ 100 * n + 49 := by exact_mod_cast (by omega : pct * n ≤ 100 * n + 49)
    linarith [herror.2]
  · rw [roundedRank_of_tie hn htie, htie]
    exact iff_of_false (lt_irrefl _) (lt_irrefl _)
  · refine iff_of_false (not_lt.mpr ?_) (by omega)
    have hle : 100 * (n : ℚ) + 51 ≤ pct * n := by exact_mod_cast (by omega : 100 * n + 51 ≤ pct * n)
    linarith [herror.1]

/-- The percentile asks for no more than the `n` samples. Only a number of samples that is
no `int` needs the arithmetic of the source for this. -/
def PercentileFits (n : ℕ) (threshold : ℤ) : Prop :=
  if n < 2 ^ 31 then threshold.natAbs * n < 100 * n + 50
  else roundedRank threshold.natAbs (Int.bmod n (2 ^ 32)) < n + 1 / 2

theorem sampleCount_binary64 (n : ℕ) : sampleCount Binary64 n = Int.bmod n (2 ^ 32) := by
  rw [sampleCount]
  rfl

/-- The percentile as a double. -/
theorem val_ofInt {n : ℤ} (h : |n| < 2 ^ 53) : (CDouble.ofInt n : Binary64).val = .fin n :=
  rounded_intCast h

theorem not_overflows_quotient {pct : ℕ} (hint : pct ≤ 2 ^ 31) : ¬Overflows ((pct : ℚ) / 100) := by
  have hpctLe : (pct : ℚ) ≤ 2 ^ 31 := by exact_mod_cast hint
  have hpctNonneg : (0 : ℚ) ≤ pct := Nat.cast_nonneg pct
  refine not_overflows_of_le ?_
  rw [abs_of_nonneg (by positivity)]
  exact (by linarith : (pct : ℚ) / 100 ≤ 2 ^ 31).trans
    (pow_le_pow_right₀ one_le_two (by decide))

theorem not_overflows_product {pct : ℕ} (hint : pct ≤ 2 ^ 31) {count : ℤ} (hpos : 0 ≤ count)
    (hcount : count ≤ 2 ^ 31) : ¬Overflows (nearest ((pct : ℚ) / 100) * count) := by
  have hpctLe : (pct : ℚ) / 100 ≤ 2 ^ 31 := by
    have hcast : (pct : ℚ) ≤ 2 ^ 31 := by exact_mod_cast hint
    linarith
  have hcountLe : |(count : ℚ)| ≤ 2 ^ 31 := by
    rw [abs_of_nonneg (by exact_mod_cast hpos)]
    exact_mod_cast hcount
  have hnearest : |nearest ((pct : ℚ) / 100)| ≤ 2 ^ 31 := by
    have hbound := abs_nearest_le (n := 31) (q := (pct : ℚ) / 100)
      (by rw [abs_of_nonneg (by positivity)]; exact hpctLe)
    exact hbound
  refine not_overflows_of_le ?_
  rw [abs_mul]
  calc |nearest ((pct : ℚ) / 100)| * |(count : ℚ)| ≤ 2 ^ 31 * 2 ^ 31 :=
        mul_le_mul hnearest hcountLe (abs_nonneg _) (by positivity)
    _ = 2 ^ 62 := by norm_num
    _ ≤ 2 ^ 1023 := pow_le_pow_right₀ one_le_two (by decide)

/-- `num_in_threshold` is the rounded rank where there is more than one sample. -/
theorem numInThreshold_binary64 {n : ℕ} (hn : 1 < Int.bmod n (2 ^ 32)) {threshold : ℤ}
    (hint : threshold.natAbs ≤ 2 ^ 31) :
    numInThreshold Binary64 n threshold =
      ⌊roundedRank threshold.natAbs (Int.bmod n (2 ^ 32)) + 1 / 2⌋.toNat := by
  have hcount : Int.bmod n (2 ^ 32) < 2 ^ 31 :=
    (Int.bmod_lt (by norm_num)).trans_eq (by norm_num)
  obtain ⟨count, hcountDef⟩ : ∃ count, Int.bmod n (2 ^ 32) = count := ⟨_, rfl⟩
  have hsample : sampleCount Binary64 n = count := (sampleCount_binary64 n).trans hcountDef
  rw [hcountDef] at hn hcount ⊢
  have hpct : (CDouble.ofInt (threshold.natAbs : ℤ) : Binary64).val = .fin threshold.natAbs :=
    val_ofInt (n := threshold.natAbs) (by rw [abs_of_nonneg] <;> omega)
  have hhundred : (CDouble.ofInt 100 : Binary64).val = .fin 100 := val_ofInt (by norm_num)
  have hval : (CDouble.ofInt count : Binary64).val = .fin count :=
    val_ofInt (by rw [abs_of_pos] <;> omega)
  have hfirst := rounded_fin (not_overflows_quotient hint)
  have hsecond := rounded_fin (not_overflows_product hint (by omega : 0 ≤ count) hcount.le)
  rw [numInThreshold, hsample, if_pos hn]
  show Exact.roundToNat ((_ : Binary64).val) = _
  rw [val_mul, val_div, hpct, hhundred, hval, Exact.fin_div_fin _ (by norm_num), hfirst,
    Exact.fin_mul_fin, hsecond]
  rfl

/-- Where there is more than one sample, the rank is inside them exactly when the percentile
fits. -/
theorem numInThreshold_le_iff {n : ℕ} (hn : 1 < Int.bmod n (2 ^ 32)) {threshold : ℤ}
    (hint : threshold.natAbs ≤ 2 ^ 31) :
    numInThreshold Binary64 n threshold ≤ n ↔ PercentileFits n threshold := by
  have hrank : numInThreshold Binary64 n threshold ≤ n ↔
      roundedRank threshold.natAbs (Int.bmod n (2 ^ 32)) < n + 1 / 2 := by
    rw [numInThreshold_binary64 hn hint, Int.toNat_le, ← Int.lt_add_one_iff, Int.floor_lt]
    push_cast
    constructor <;> intro h <;> linarith
  rw [hrank, PercentileFits]
  split_ifs with hlt
  · have hcount : Int.bmod n (2 ^ 32) = n := Int.bmod_eq_of_le (by omega) (by omega)
    rw [hcount] at hn ⊢
    exact nearest_rank_lt_iff (by omega) hlt
  · rfl

/-- **The subscripts of the loop stay inside the samples** exactly when their number as an
`int` is at most `1`, or every percentile fits. -/
theorem inRange_iff (samples : List Binary64) {percentiles : List ℤ}
    (hint : ∀ p ∈ percentiles, p.natAbs ≤ 2 ^ 31) :
    let values := timerValues samples
    ((∀ p ∈ percentiles, numInThreshold Binary64 values.length p ≤ samples.length) ∧
        percentiles.foldlM (checkedStep values) (values.getLastD 0, ∅) =
          some (percentiles.foldl (percentileStep values) (values.getLastD 0, ∅))) ↔
      Int.bmod samples.length (2 ^ 32) ≤ 1 ∨
        ∀ p ∈ percentiles, PercentileFits samples.length p := by
  simp only [foldlM_checkedStep, length_timerValues, and_self]
  rcases le_or_gt (Int.bmod samples.length (2 ^ 32)) 1 with hle | hn
  · refine iff_of_true (fun p _ => ?_) (.inl hle)
    have hcount : ¬1 < sampleCount Binary64 samples.length := by
      rw [sampleCount_binary64]
      exact not_lt.mpr hle
    have hzero : numInThreshold Binary64 samples.length p = 0 := by
      rw [numInThreshold, if_neg hcount]
    rw [hzero]
    exact Nat.zero_le _
  · rw [or_iff_right (not_le.mpr hn)]
    exact forall₂_congr fun p hp => numInThreshold_le_iff hn (hint p hp)

/-- Two samples, `1` and `2`. -/
def twoSamples : List Binary64 := [1, CDouble.ofInt 2]

theorem inRange_two :
    ((∀ p ∈ [(90 : ℤ)], numInThreshold Binary64 (timerValues twoSamples).length p ≤ 2) ∧
        [(90 : ℤ)].foldlM (checkedStep (timerValues twoSamples))
            ((timerValues twoSamples).getLastD 0, ∅) =
          some ([(90 : ℤ)].foldl (percentileStep (timerValues twoSamples))
            ((timerValues twoSamples).getLastD 0, ∅))) ↔
      Int.bmod 2 (2 ^ 32) ≤ 1 ∨ ∀ p ∈ [(90 : ℤ)], PercentileFits 2 p :=
  inRange_iff twoSamples (by decide)

/-- The percentile `200` asks for four of two samples. -/
theorem not_inRange_two :
    numInThreshold Binary64 (timerValues twoSamples).length 200 = 4 ∧
      [(200 : ℤ)].foldlM (checkedStep (timerValues twoSamples))
        ((timerValues twoSamples).getLastD 0, ∅) = none := by
  have hlength : (timerValues twoSamples).length = 2 := length_timerValues _
  have hrank : numInThreshold Binary64 (timerValues twoSamples).length 200 = 4 := by
    rw [hlength]
    decide +kernel
  refine ⟨hrank, ?_⟩
  rw [List.foldlM_cons, checkedStep_eq, hrank, hlength]
  rfl

end Statsdcc
