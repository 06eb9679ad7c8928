import Mathlib
import Statsdcc.Ledger.Processed
import Statsdcc.Ledger.Entries
import Statsdcc.Lib.Printed

/-!
# The loop over the percentiles

What `process` stores for the percentiles of a timer.

## Main definitions

- `numInThreshold` — the number of samples up to a percentile
- `PercentileStat` — the four statistics of a percentile

## Main results

- `lookup_foldl_percentileStep` — what the loop leaves under the name of a statistic
- `numInThreshold_exact` — the number of samples in exact arithmetic
-/

open Bytes

namespace Statsdcc

-- ════════════════════════════════════════════════════════════════════════
-- The loop over the percentiles
-- ════════════════════════════════════════════════════════════════════════

/-- `count`: the number of samples, stored in an `int`. -/
def sampleCount (R : Type) [CDouble R] (n : ℕ) : ℤ := CDouble.intOfSize (R := R) n

/-- `num_in_threshold` of an iteration over `n` samples. -/
def numInThreshold (R : Type) [CDouble R] (n : ℕ) (threshold : ℤ) : ℕ :=
  let count := sampleCount R n
  if 1 < count then
    CDouble.roundToNat
      (CDouble.ofInt threshold.natAbs / CDouble.ofInt 100 * CDouble.ofInt count : R)
  else 0

/-- The statistics that an iteration stores. -/
inductive PercentileStat
  | upper
  | count
  | sum
  | mean
  deriving DecidableEq

namespace PercentileStat

def word : PercentileStat → Bytes
  | upper => ascii "upper_"
  | count => ascii "count_"
  | sum => ascii "sum_"
  | mean => ascii "mean_"

/-- The name under which the statistic of a percentile is stored. -/
def name (s : PercentileStat) (threshold : ℤ) : Bytes := s.word ++ cleanPct threshold.natAbs

/-- The statistic of the first `k` values. -/
def value {R : Type} [CDouble R] (values : List R) (boundary : R) (k : ℕ) : PercentileStat → R
  | upper => boundary
  | count => CDouble.ofInt k
  | sum => (values.take k).foldl (· + ·) 0
  | mean => (values.take k).foldl (· + ·) 0 / CDouble.ofInt k

theorem head?_name (s : PercentileStat) (threshold : ℤ) :
    (s.name threshold).head? = s.word.head? := by
  cases s <;> rfl

/-- The four names begin with different characters. -/
theorem name_ne {s s' : PercentileStat} (h : s ≠ s') (p q : ℤ) : s.name p ≠ s'.name q := by
  intro heq
  have hhead := congrArg List.head? heq
  rw [head?_name, head?_name] at hhead
  exact h (by revert hhead; cases s <;> cases s' <;> decide)

theorem underscore_mem_name (s : PercentileStat) (threshold : ℤ) :
    underscore ∈ s.name threshold :=
  List.mem_append_left _ (by cases s <;> decide)

/-- A name without an underscore is none of the statistics of a percentile. -/
theorem ne_name {k : Bytes} (h : underscore ∉ k) (s : PercentileStat) (threshold : ℤ) :
    k ≠ s.name threshold := by
  rintro rfl
  exact h (s.underscore_mem_name threshold)

end PercentileStat

/-- Up to six digits are printed as they are. -/
theorem cleanPct_eq_natText {n : ℕ} (h : n < 10 ^ 6) : cleanPct n = natText n := by
  have hpoint : point ∉ natText n := notMem_natText (by decide) n
  have hsame : ∀ c ∈ natText n, (if c = point then underscore else c) = id c := by
    intro c hc
    have hne : c ≠ point := fun heq => hpoint (heq ▸ hc)
    rw [if_neg hne, id]
  rw [cleanPct, gText, if_pos h, List.map_congr_left hsame, List.map_id]

/-- The texts of these percentiles are different. -/
theorem cleanPct_inj {m n : ℕ} (hm : m < 10 ^ 6) (hn : n < 10 ^ 6)
    (h : cleanPct m = cleanPct n) : m = n := by
  rw [cleanPct_eq_natText hm, cleanPct_eq_natText hn] at h
  exact natText_injective h

theorem PercentileStat.name_eq_iff {s : PercentileStat} {p q : ℤ} (hp : p.natAbs ≤ 100)
    (hq : q.natAbs ≤ 100) : s.name p = s.name q ↔ p.natAbs = q.natAbs := by
  constructor
  · intro h
    exact cleanPct_inj (by omega) (by omega) (List.append_cancel_left h)
  · intro h
    rw [name, name, h]

section

variable {R : Type} [CDouble R]

/-- The values of a timer in the order of the statistics. -/
def timerValues (samples : List R) : List R := samples.mergeSort fun a b => !CDouble.lt b a

@[simp] theorem length_timerValues (samples : List R) :
    (timerValues samples).length = samples.length := List.length_mergeSort _

/-- An iteration skips its percentile, or stores four statistics. -/
theorem percentileStep_eq (values : List R) (acc : R × UnorderedMap Bytes R) (threshold : ℤ) :
    percentileStep values acc threshold =
      let k := numInThreshold R values.length threshold
      if 1 < sampleCount R values.length ∧ k = 0 then acc
      else
        let boundary := if 1 < sampleCount R values.length then values.getD (k - 1) 0 else acc.1
        (boundary, [PercentileStat.upper, .count, .sum, .mean].foldl
          (fun data s => data.insert (s.name threshold) (s.value values boundary k)) acc.2) :=
  rfl

/-- An iteration that does not skip its percentile stores its four statistics. -/
theorem lookup_percentileStep_self {values : List R} {threshold : ℤ}
    (h : ¬(1 < sampleCount R values.length ∧ numInThreshold R values.length threshold = 0))
    (acc : R × UnorderedMap Bytes R) (s : PercentileStat) :
    (percentileStep values acc threshold).2.lookup (s.name threshold) =
      some (s.value values
        (if 1 < sampleCount R values.length then
          values.getD (numInThreshold R values.length threshold - 1) 0 else acc.1)
        (numInThreshold R values.length threshold)) := by
  rw [percentileStep_eq]
  simp only [if_neg h, List.foldl_cons, List.foldl_nil]
  have hne := fun s' (hs : s ≠ s') => PercentileStat.name_ne hs threshold threshold
  cases s with
  | mean => rw [AList.lookup_insert]
  | sum => rw [AList.lookup_insert_ne (hne .mean (by decide)), AList.lookup_insert]
  | count =>
    rw [AList.lookup_insert_ne (hne .mean (by decide)),
      AList.lookup_insert_ne (hne .sum (by decide)), AList.lookup_insert]
  | upper =>
    rw [AList.lookup_insert_ne (hne .mean (by decide)),
      AList.lookup_insert_ne (hne .sum (by decide)),
      AList.lookup_insert_ne (hne .count (by decide)), AList.lookup_insert]

/-- No iteration touches another name. -/
theorem lookup_percentileStep_ne (values : List R) (acc : R × UnorderedMap Bytes R)
    {threshold : ℤ} {k : Bytes} (hk : ∀ s : PercentileStat, k ≠ s.name threshold) :
    (percentileStep values acc threshold).2.lookup k = acc.2.lookup k := by
  rw [percentileStep_eq]
  dsimp only
  split
  · rfl
  · simp only [List.foldl_cons, List.foldl_nil, AList.lookup_insert_ne (hk _)]

/-- What the loop leaves under the name of a statistic: percentiles with the same
absolute value store the same. -/
theorem lookup_foldl_percentileStep {values : List R} (hn : 1 < sampleCount R values.length)
    {percentiles : List ℤ} (hps : ∀ p ∈ percentiles, p.natAbs ≤ 100) {q : ℤ}
    (hq : q.natAbs ≤ 100) (acc : R × UnorderedMap Bytes R) (s : PercentileStat) :
    (percentiles.foldl (percentileStep values) acc).2.lookup (s.name q) =
      if (∃ p ∈ percentiles, p.natAbs = q.natAbs) ∧ numInThreshold R values.length q ≠ 0 then
        some (s.value values (values.getD (numInThreshold R values.length q - 1) 0)
          (numInThreshold R values.length q))
      else acc.2.lookup (s.name q) := by
  induction percentiles generalizing acc with
  | nil => simp
  | cons p percentiles ih =>
    have hp := hps p (List.mem_cons_self ..)
    rw [List.foldl_cons, ih fun p' hp' => hps p' (List.mem_cons_of_mem _ hp')]
    by_cases hpq : p.natAbs = q.natAbs
    · have hname : s.name p = s.name q := (PercentileStat.name_eq_iff hp hq).mpr hpq
      have hrank : numInThreshold R values.length p = numInThreshold R values.length q := by
        rw [numInThreshold, numInThreshold, hpq]
      by_cases hk : numInThreshold R values.length q = 0
      · have hskip : percentileStep values acc p = acc := by
          rw [percentileStep_eq]
          exact if_pos ⟨hn, hrank.trans hk⟩
        simp [hk, hskip]
      · have hstep := lookup_percentileStep_self (by rw [hrank]; exact fun h => hk h.2) acc s
        rw [hname, hrank, if_pos hn] at hstep
        simp [hk, hpq, hstep]
    · have hother : ∀ s' : PercentileStat, s.name q ≠ s'.name p := by
        intro s' heq
        by_cases hs : s = s'
        · subst hs
          exact hpq ((PercentileStat.name_eq_iff hp hq).mp heq.symm)
        · exact PercentileStat.name_ne hs q p heq
      simp [lookup_percentileStep_ne values acc hother, hpq]

/-- The four values that are stored behind the loop. -/
theorem lookup_timerStats (config : AggregatorConfig) {key : Bytes} (hkey : key ≠ [])
    (samples : List R) (timerCounter : R) :
    let values := timerValues samples
    let data := timerStats config key samples timerCounter
    data.lookup (ascii "upper") = some (values.getLastD 0) ∧
      data.lookup (ascii "lower") = some (values.headD 0) ∧
      data.lookup (ascii "count") = some timerCounter ∧
      data.lookup (ascii "mean") =
        some (values.foldl (· + ·) 0 / CDouble.ofInt (sampleCount R values.length)) := by
  simp only [timerStats, if_neg hkey, timerValues]
  refine ⟨?_, ?_, ?_, AList.lookup_insert _⟩
  · rw [AList.lookup_insert_ne (by decide), AList.lookup_insert_ne (by decide),
      AList.lookup_insert_ne (by decide), AList.lookup_insert]
  · rw [AList.lookup_insert_ne (by decide), AList.lookup_insert_ne (by decide),
      AList.lookup_insert]
  · rw [AList.lookup_insert_ne (by decide), AList.lookup_insert]

/-- The statistics of the percentiles are those of the loop. -/
theorem lookup_timerStats_name (config : AggregatorConfig) {key : Bytes} (hkey : key ≠ [])
    (samples : List R) (timerCounter : R) (s : PercentileStat) (p : ℤ) :
    (timerStats config key samples timerCounter).lookup (s.name p) =
      (config.percentiles.foldl (percentileStep (timerValues samples))
        ((timerValues samples).getLastD 0, ∅)).2.lookup (s.name p) := by
  have hne : ∀ k : Bytes, underscore ∉ k → s.name p ≠ k :=
    fun k hk => (s.ne_name hk p).symm
  simp only [timerStats, if_neg hkey, timerValues]
  rw [AList.lookup_insert_ne (hne _ (by decide)), AList.lookup_insert_ne (hne _ (by decide)),
    AList.lookup_insert_ne (hne _ (by decide)), AList.lookup_insert_ne (hne _ (by decide))]

/-- `process` stores the statistics of every timer. -/
theorem lookup_timerData_process (config : AggregatorConfig) (elapsed : ℤ) {l : Ledger R}
    {key : Bytes} {samples : List R} (h : l.timers.lookup key = some samples) :
    (l.process config elapsed).timerData.lookup key =
      some (timerStats config key samples ((l.timerCounters.lookup key).getD 0)) := by
  show (UnorderedMap.insertEach l.timerData l.timers _).lookup key = _
  rw [UnorderedMap.lookup_insertEach, h]
  rfl

/-- A ledger that has buffered lines has no timer with an empty name. -/
theorem ne_nil_of_mem_timers (env : Env R) (lines : List Bytes) {key : Bytes}
    (hkey : key ∈ (Ledger.replay env lines).timers) : key ≠ [] := by
  have hnew : ∀ key ∈ ({} : Ledger R).timers, key ≠ [] := fun key h => by cases h
  refine Ledger.replay_induction (P := fun l => ∀ key ∈ l.timers, key ≠ []) hnew ?_ key hkey
  intro l metric _ ih key hkey
  rcases hparse : parseLine env.lexicalCast metric with _ | ⟨buffers, type, x⟩
  · rw [buffer_of_bad hparse] at hkey
    exact ih key hkey
  · rw [buffer_of_parse hparse] at hkey
    rcases (Ledger.has_store hkey : _ ∨ Ledger.Has _ .timer key) with rfl | hold
    · obtain ⟨name, value, rest, hsplit, rfl, -⟩ := parseLine_eq_some.mp hparse
      exact (splitLine_eq_some.mp hsplit).2.1.2.1
    · exact ih key hold

end

-- ════════════════════════════════════════════════════════════════════════
-- Exact ranks
-- ════════════════════════════════════════════════════════════════════════

/-- The rank of a percentile among `n` samples: half a sample counts as one. -/
def rank (threshold : ℤ) (n : ℕ) : ℕ := (round ((threshold.natAbs : ℚ) * n / 100)).toNat

theorem rank_eq_div (threshold : ℤ) (n : ℕ) :
    rank threshold n = (threshold.natAbs * n + 50) / 100 := by
  have hcast : (threshold.natAbs : ℚ) * n / 100 + 1 / 2 =
      ((threshold.natAbs * n + 50 : ℕ) : ℚ) / ((100 : ℕ) : ℚ) := by
    push_cast
    ring
  rw [rank, round_eq, hcast, Rat.floor_natCast_div_natCast]
  rfl

theorem sampleCount_exact (n : ℕ) : sampleCount Exact n = n := rfl

theorem numInThreshold_exact {n : ℕ} (hn : 1 < n) (threshold : ℤ) :
    numInThreshold Exact n threshold = rank threshold n := by
  have hcast : ((threshold.natAbs : ℤ) : ℚ) / ((100 : ℤ) : ℚ) * ((n : ℤ) : ℚ) =
      (threshold.natAbs : ℚ) * n / 100 := by
    rw [Int.cast_natCast, Int.cast_natCast, Int.cast_ofNat]
    ring
  have hcount : (1 : ℤ) < sampleCount Exact n := by
    rw [sampleCount_exact]
    omega
  rw [rank, round_eq, ← hcast]
  simp only [numInThreshold, if_pos hcount]
  show Exact.roundToNat (Exact.fin _ / Exact.fin _ * Exact.fin _) = _
  rw [Exact.fin_div_fin _ (by norm_num), Exact.fin_mul_fin]
  rfl

end Statsdcc
