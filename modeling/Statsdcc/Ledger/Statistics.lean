import Mathlib
import Statsdcc.Ledger.Percentiles
import Statsdcc.Lib.OrderStatistics

/-!
# Percentile statistics

The statistics of a timer with finite samples. With two samples or more they are
nearest-rank statistics; with one sample the loop runs without a rank and stores
a count of zero.

## Main definitions

- `Consistent` — the statistics fit together
- `NearestRank` — the statistics of a percentile are those of its rank

## Main results

- `lookup_timerStats_exact` — the statistics as functions of the sorted samples
- `consistent_process_iff` — they are consistent from two samples on
- `nearestRank_process` — and then they are nearest-rank statistics
- `nearestRank_replay` — for the lines that a ledger has buffered
-/

open Bytes

namespace Statsdcc

-- ════════════════════════════════════════════════════════════════════════
-- Finite samples
-- ════════════════════════════════════════════════════════════════════════

/-- Finite samples in ascending order. -/
def sortedSamples (samples : List ℚ) : List ℚ := samples.mergeSort fun a b => decide (a ≤ b)

theorem perm_sortedSamples (samples : List ℚ) : (sortedSamples samples).Perm samples :=
  List.mergeSort_perm _ _

@[simp] theorem length_sortedSamples (samples : List ℚ) :
    (sortedSamples samples).length = samples.length := List.length_mergeSort _

theorem pairwise_sortedSamples (samples : List ℚ) :
    (sortedSamples samples).Pairwise (· ≤ ·) := by
  have hsorted : (sortedSamples samples).Pairwise fun a b => decide (a ≤ b) = true :=
    List.pairwise_mergeSort (by simpa using fun _ _ _ => le_trans)
      (by simpa using fun _ _ => le_total _ _) samples
  exact hsorted.imp fun h => of_decide_eq_true h

theorem timerValues_map_fin (samples : List ℚ) :
    timerValues (samples.map Exact.fin) = (sortedSamples samples).map Exact.fin := by
  refine (List.map_mergeSort fun a _ b _ => ?_).symm
  show decide (a ≤ b) = !decide (b < a)
  rw [Bool.eq_iff_iff]
  simp

theorem foldl_map_fin (xs : List ℚ) : (xs.map Exact.fin).foldl (· + ·) 0 = .fin xs.sum := by
  have hfold : ∀ a : ℚ, (xs.map Exact.fin).foldl (· + ·) (.fin a) = .fin (a + xs.sum) := by
    induction xs with
    | nil => intro a; simp
    | cons x xs ih =>
      intro a
      rw [List.map_cons, List.foldl_cons, Exact.fin_add_fin, ih, List.sum_cons, add_assoc]
  have hzero := hfold 0
  rwa [zero_add] at hzero

/-- The statistic of the first `k` of the sorted samples. -/
def PercentileStat.exact (values : List ℚ) (k : ℕ) : PercentileStat → ℚ
  | upper => values.getD (k - 1) 0
  | count => k
  | sum => (values.take k).sum
  | mean => (values.take k).sum / k

theorem PercentileStat.value_map_fin (values : List ℚ) {k : ℕ} (hk : k ≠ 0) (s : PercentileStat) :
    s.value (values.map Exact.fin) ((values.map Exact.fin).getD (k - 1) 0) k =
      .fin (s.exact values k) := by
  have hsum : ((values.map Exact.fin).take k).foldl (· + ·) 0 = .fin (values.take k).sum := by
    rw [← List.map_take, foldl_map_fin]
  cases s with
  | upper => exact List.getD_map values 0 Exact.fin
  | count => exact congrArg Exact.fin (Int.cast_natCast k)
  | sum => exact hsum
  | mean =>
    rw [value, hsum]
    show Exact.fin _ / Exact.fin ((k : ℤ) : ℚ) = _
    rw [Int.cast_natCast, Exact.fin_div_fin _ (Nat.cast_ne_zero.mpr hk)]
    rfl

theorem rank_le {p : ℤ} (hp : p.natAbs ≤ 100) (n : ℕ) : rank p n ≤ n := by
  have hle : p.natAbs * n ≤ 100 * n := Nat.mul_le_mul_right n hp
  rw [rank_eq_div]
  omega

section

variable {config : AggregatorConfig} {key : Bytes} {samples : List ℚ}

/-- The statistics of a percentile with two samples or more. -/
theorem lookup_timerStats_exact (hkey : key ≠ []) (hn : 2 ≤ samples.length)
    (hps : ∀ p ∈ config.percentiles, p.natAbs ≤ 100) (timerCounter : Exact) {p : ℤ}
    (hp : p ∈ config.percentiles) (s : PercentileStat) :
    (timerStats config key (samples.map .fin) timerCounter).lookup (s.name p) =
      if rank p samples.length = 0 then none
      else some (.fin (s.exact (sortedSamples samples) (rank p samples.length))) := by
  have hlength : ((sortedSamples samples).map Exact.fin).length = samples.length := by simp
  rw [lookup_timerStats_name config hkey, timerValues_map_fin,
    lookup_foldl_percentileStep (by rw [hlength, sampleCount_exact]; omega) hps (hps p hp), hlength,
    numInThreshold_exact (by omega)]
  by_cases hrank : rank p samples.length = 0
  · simp [hrank]
  · rw [if_pos ⟨⟨p, hp, rfl⟩, hrank⟩, if_neg hrank, PercentileStat.value_map_fin _ hrank]

/-- The bounds and the mean of a timer. -/
theorem lookup_timerStats_overall (config : AggregatorConfig) (hkey : key ≠ []) (hne : samples ≠ [])
    (timerCounter : Exact) :
    let data := timerStats config key (samples.map .fin) timerCounter
    data.lookup (ascii "lower") = some (.fin ((sortedSamples samples).headD 0)) ∧
      data.lookup (ascii "mean") =
        some (.fin ((sortedSamples samples).sum / (sortedSamples samples).length)) ∧
      data.lookup (ascii "upper") = some (.fin ((sortedSamples samples).getLastD 0)) := by
  have hpos : ((sortedSamples samples).length : ℚ) ≠ 0 := by
    rw [length_sortedSamples]
    exact Nat.cast_ne_zero.mpr (by simpa using hne)
  obtain ⟨hupper, hlower, -, hmean⟩ :=
    lookup_timerStats config hkey (samples.map Exact.fin) timerCounter
  rw [timerValues_map_fin] at hupper hlower hmean
  refine ⟨hlower.trans ?_, hmean.trans ?_, hupper.trans ?_⟩
  · cases sortedSamples samples <;> rfl
  · rw [foldl_map_fin, List.length_map]
    show some (Exact.fin _ / Exact.fin (((sortedSamples samples).length : ℤ) : ℚ)) = _
    rw [Int.cast_natCast, Exact.fin_div_fin _ hpos]
  · rw [List.getLastD_eq_getLast?, List.getLastD_eq_getLast?, List.getLast?_map]
    cases (sortedSamples samples).getLast? <;> rfl

end

/-- The values of the first `k` samples lie between the bounds of all. -/
theorem exact_bounds {values : List ℚ} (hsorted : values.Pairwise (· ≤ ·)) {k : ℕ} (hpos : 0 < k)
    (hk : k ≤ values.length) :
    values.headD 0 ≤ PercentileStat.mean.exact values k ∧
      PercentileStat.mean.exact values k ≤ PercentileStat.upper.exact values k ∧
      PercentileStat.upper.exact values k ≤ values.getLastD 0 := by
  have hlt : k - 1 < values.length := by omega
  have hne : values.take k ≠ [] := by
    rw [← List.length_pos_iff, List.length_take]
    omega
  have hlength : (values.take k).length = k := by
    rw [List.length_take, min_eq_left hk]
  have hle : ∀ (i j : ℕ) (hi : i < values.length) (hj : j < values.length), i ≤ j →
      values[i] ≤ values[j] := by
    intro i j hi hj hij
    rcases Nat.lt_or_eq_of_le hij with h | rfl
    · exact List.pairwise_iff_getElem.mp hsorted i j hi hj h
    · exact le_rfl
  have hupper : PercentileStat.upper.exact values k = values[k - 1] :=
    List.getD_eq_getElem values 0 hlt
  have hmean : PercentileStat.mean.exact values k =
      (values.take k).sum / (values.take k).length := by
    rw [hlength]
    rfl
  have hhead : values.headD 0 = values[0] := by
    cases values with
    | nil => exact absurd hlt (Nat.not_lt_zero _)
    | cons x xs => rfl
  have hlast : values.getLastD 0 = values[values.length - 1] := by
    rw [List.getLastD_eq_getLast?, List.getLast?_eq_getElem?,
      List.getElem?_eq_getElem (by omega), Option.getD_some]
  rw [hupper, hmean, hhead, hlast]
  refine ⟨le_div_length hne fun x hx => ?_, div_length_le hne fun x hx => ?_,
    hle _ _ hlt (by omega) (by omega)⟩
  · obtain ⟨j, hj, rfl⟩ := List.mem_take_iff_getElem.mp hx
    exact hle 0 j (by omega) (by omega) (Nat.zero_le j)
  · obtain ⟨j, hj, rfl⟩ := List.mem_take_iff_getElem.mp hx
    exact hle j (k - 1) (by omega) hlt (by omega)

-- ════════════════════════════════════════════════════════════════════════
-- Consistent statistics
-- ════════════════════════════════════════════════════════════════════════

/-- Both are numbers, the first of them not greater. -/
def AtMost (x y : Exact) : Prop := ∃ a b : ℚ, x = .fin a ∧ y = .fin b ∧ a ≤ b

/-- What is stored under the two names is in order. -/
def StoredLe (data : UnorderedMap Bytes Exact) (k k' : Bytes) : Prop :=
  ∀ x y, data.lookup k = some x → data.lookup k' = some y → AtMost x y

/-- The stored statistics of a timer fit together. -/
structure Consistent (percentiles : List ℤ) (data : UnorderedMap Bytes Exact) : Prop where
  lower_le_mean : StoredLe data (ascii "lower") (ascii "mean")
  mean_le_upper : StoredLe data (ascii "mean") (ascii "upper")
  mean_eq : ∀ p ∈ percentiles, ∀ s : PercentileStat, s.name p ∈ data → ∃ count sum : ℚ,
    data.lookup (PercentileStat.count.name p) = some (.fin count) ∧ 1 ≤ count ∧
      data.lookup (PercentileStat.sum.name p) = some (.fin sum) ∧
      data.lookup (PercentileStat.mean.name p) = some (.fin (sum / count))
  lower_le : ∀ p ∈ percentiles, StoredLe data (ascii "lower") (PercentileStat.mean.name p)
  mean_le : ∀ p ∈ percentiles,
    StoredLe data (PercentileStat.mean.name p) (PercentileStat.upper.name p)
  le_upper : ∀ p ∈ percentiles, StoredLe data (PercentileStat.upper.name p) (ascii "upper")

theorem StoredLe.of_lookup {data : UnorderedMap Bytes Exact} {k k' : Bytes} {a b : ℚ}
    (hk : data.lookup k = some (.fin a)) (hk' : data.lookup k' = some (.fin b)) (h : a ≤ b) :
    StoredLe data k k' := by
  intro x y hx hy
  rw [hk, Option.some.injEq] at hx
  rw [hk', Option.some.injEq] at hy
  exact ⟨a, b, hx.symm, hy.symm, h⟩

theorem StoredLe.of_none {data : UnorderedMap Bytes Exact} {k k' : Bytes}
    (h : data.lookup k = none ∨ data.lookup k' = none) : StoredLe data k k' := by
  intro x y hx hy
  rcases h with h | h
  · rw [h] at hx
    cases hx
  · rw [h] at hy
    cases hy

section

variable {config : AggregatorConfig} {key : Bytes} {samples : List ℚ}

/-- The mean of all samples lies between their bounds. -/
theorem overall_bounds (hne : samples ≠ []) :
    (sortedSamples samples).headD 0 ≤
        (sortedSamples samples).sum / (sortedSamples samples).length ∧
      (sortedSamples samples).sum / (sortedSamples samples).length ≤
        (sortedSamples samples).getLastD 0 := by
  have hpos : 0 < (sortedSamples samples).length := by
    rw [length_sortedSamples]
    exact List.length_pos_iff.mpr hne
  have hbounds := exact_bounds (pairwise_sortedSamples samples) hpos le_rfl
  simp only [PercentileStat.exact, List.take_length] at hbounds
  exact ⟨hbounds.1, hbounds.2.1.trans hbounds.2.2⟩

/-- From two samples on the statistics are consistent. -/
theorem consistent_of_two (hkey : key ≠ []) (hn : 2 ≤ samples.length)
    (hps : ∀ p ∈ config.percentiles, p.natAbs ≤ 100) (timerCounter : Exact) :
    Consistent config.percentiles (timerStats config key (samples.map .fin) timerCounter) := by
  have hne : samples ≠ [] := by
    rintro rfl
    simp at hn
  obtain ⟨hlower, hmean, hupper⟩ :=
    lookup_timerStats_overall config hkey hne timerCounter
  obtain ⟨hlowerMean, hmeanUpper⟩ := overall_bounds hne
  have hstat := fun p hp => lookup_timerStats_exact hkey hn hps timerCounter (p := p) hp
  have hbounds : ∀ p ∈ config.percentiles, rank p samples.length ≠ 0 →
      _ := fun p hp hrank => exact_bounds (pairwise_sortedSamples samples)
        (k := rank p samples.length)
        (Nat.pos_of_ne_zero hrank) (by
          rw [length_sortedSamples]
          exact rank_le (hps p hp) _)
  refine ⟨.of_lookup hlower hmean hlowerMean, .of_lookup hmean hupper hmeanUpper,
    fun p hp s hs => ?_, fun p hp => ?_, fun p hp => ?_, fun p hp => ?_⟩
  · have hrank : rank p samples.length ≠ 0 := by
      intro hrank
      obtain ⟨x, hx⟩ := UnorderedMap.exists_lookup hs
      rw [hstat p hp, if_pos hrank] at hx
      cases hx
    refine ⟨(rank p samples.length : ℚ), PercentileStat.sum.exact (sortedSamples samples)
      (rank p samples.length), ?_, ?_, ?_, ?_⟩
    · rw [hstat p hp, if_neg hrank]
      rfl
    · exact_mod_cast Nat.pos_of_ne_zero hrank
    · rw [hstat p hp, if_neg hrank]
    · rw [hstat p hp, if_neg hrank]
      rfl
  all_goals
    by_cases hrank : rank p samples.length = 0
    · exact .of_none (by simp [hstat p hp, hrank])
  · exact .of_lookup hlower (by rw [hstat p hp, if_neg hrank]) (hbounds p hp hrank).1
  · exact .of_lookup (by rw [hstat p hp, if_neg hrank]) (by rw [hstat p hp, if_neg hrank])
      (hbounds p hp hrank).2.1
  · exact .of_lookup (by rw [hstat p hp, if_neg hrank]) hupper (hbounds p hp hrank).2.2

/-- Without percentiles nothing but the bounds and the mean is stored. -/
theorem consistent_of_no_percentiles (hkey : key ≠ []) (hne : samples ≠ [])
    (hps : config.percentiles = []) (timerCounter : Exact) :
    Consistent config.percentiles (timerStats config key (samples.map .fin) timerCounter) := by
  obtain ⟨hlower, hmean, hupper⟩ :=
    lookup_timerStats_overall config hkey hne timerCounter
  obtain ⟨hlowerMean, hmeanUpper⟩ := overall_bounds hne
  rw [hps]
  constructor
  case lower_le_mean => exact .of_lookup hlower hmean hlowerMean
  case mean_le_upper => exact .of_lookup hmean hupper hmeanUpper
  all_goals exact fun p hp => absurd hp List.not_mem_nil

theorem cleanPct_ne_ps {n : ℕ} (hn : n ≤ 100) : cleanPct n ≠ ascii "ps" := by
  intro heq
  have hp : (112 : Byte) ∉ cleanPct n := by
    rw [cleanPct_eq_natText (by omega)]
    exact notMem_natText (by decide) n
  exact hp (heq ▸ by decide)

/-- A timer without a name has none of these statistics. -/
theorem consistent_of_nil (hps : ∀ p ∈ config.percentiles, p.natAbs ≤ 100)
    (samples : List Exact) (timerCounter : Exact) :
    Consistent config.percentiles (timerStats config [] samples timerCounter) := by
  have hdata : timerStats config [] samples timerCounter =
      ((∅ : UnorderedMap Bytes Exact).insert (ascii "count_ps") 0).insert (ascii "count") 0 := rfl
  have hname : ∀ p ∈ config.percentiles, ∀ s : PercentileStat,
      s.name p ∉ timerStats config [] samples timerCounter := by
    intro p hp s hmem
    rw [hdata, AList.mem_insert, AList.mem_insert] at hmem
    rcases hmem with heq | heq | hempty
    · exact s.ne_name (by decide) p heq.symm
    · by_cases hs : s = .count
      · subst hs
        exact cleanPct_ne_ps (hps p hp)
          (List.append_cancel_left (show ascii "count_" ++ _ = _ ++ _ from heq))
      · have hhead := congrArg List.head? heq
        rw [PercentileStat.head?_name] at hhead
        exact hs (by revert hhead; cases s <;> decide)
    · exact absurd hempty (AList.notMem_empty _)
  have hnone := fun p hp s => AList.lookup_eq_none.mpr (hname p hp s)
  constructor
  case lower_le_mean => exact .of_none (.inl rfl)
  case mean_le_upper => exact .of_none (.inl rfl)
  case mean_eq => exact fun p hp s hs => absurd hs (hname p hp s)
  case lower_le => exact fun p hp => .of_none (.inr (hnone p hp _))
  case mean_le => exact fun p hp => .of_none (.inl (hnone p hp _))
  case le_upper => exact fun p hp => .of_none (.inl (hnone p hp _))

/-- With one sample the loop stores the statistics of no sample at all. -/
theorem lookup_timerStats_one (hkey : key ≠ []) {samples : List Exact} (hone : samples.length = 1)
    {percentiles : List ℤ} {p : ℤ} (hps : config.percentiles = percentiles ++ [p])
    (timerCounter : Exact) (s : PercentileStat) :
    ∃ boundary, (timerStats config key samples timerCounter).lookup (s.name p) =
      some (s.value (timerValues samples) boundary 0) := by
  have hlength : (timerValues samples).length = 1 := by rw [length_timerValues, hone]
  have hcount : ¬1 < sampleCount Exact (timerValues samples).length := by
    rw [hlength, sampleCount_exact]
    decide
  have hrank : numInThreshold Exact (timerValues samples).length p = 0 := if_neg hcount
  rw [lookup_timerStats_name config hkey, hps, List.foldl_concat,
    lookup_percentileStep_self (fun h => hcount h.1), hrank]
  exact ⟨_, rfl⟩

/-- A count of zero is not consistent. -/
theorem not_consistent_of_one (hkey : key ≠ []) {samples : List Exact} (hone : samples.length = 1)
    (hps : config.percentiles ≠ []) (timerCounter : Exact) :
    ¬Consistent config.percentiles (timerStats config key samples timerCounter) := by
  intro h
  obtain ⟨percentiles, p, hconcat⟩ := (List.eq_nil_or_concat' config.percentiles).resolve_left hps
  have hp : p ∈ config.percentiles := by simp [hconcat]
  obtain ⟨boundary, hcount⟩ := lookup_timerStats_one hkey hone hconcat timerCounter .count
  obtain ⟨count, sum, hstored, hle, -⟩ :=
    h.mean_eq p hp .count (UnorderedMap.mem_of_lookup hcount)
  have hzero : (0 : ℚ) = count := Exact.fin.inj (Option.some.inj (hcount.symm.trans hstored))
  rw [← hzero] at hle
  norm_num at hle

/-- **Percentile statistics are consistent** exactly for the timers with two samples or
more, unless there is no percentile or no name. -/
theorem consistent_process_iff (config : AggregatorConfig) (elapsed : ℤ) {l : Ledger Exact}
    {key : Bytes} {samples : List ℚ} (hsamples : l.timers.lookup key = some (samples.map .fin))
    (hne : samples ≠ []) (hps : ∀ p ∈ config.percentiles, 1 ≤ p.natAbs ∧ p.natAbs ≤ 100) :
    ∃ data, (l.process config elapsed).timerData.lookup key = some data ∧
      (Consistent config.percentiles data ↔
        2 ≤ samples.length ∨ config.percentiles = [] ∨ key = []) := by
  have hps' : ∀ p ∈ config.percentiles, p.natAbs ≤ 100 := fun p hp => (hps p hp).2
  refine ⟨_, lookup_timerData_process config elapsed hsamples, fun h => ?_, fun h => ?_⟩
  · by_contra hnot
    obtain ⟨hn, hpercentiles, hkey⟩ : ¬2 ≤ samples.length ∧ config.percentiles ≠ [] ∧ key ≠ [] := by
      simpa only [not_or] using hnot
    have hpos := List.length_pos_iff.mpr hne
    exact not_consistent_of_one hkey (by rw [List.length_map]; omega) hpercentiles _ h
  · by_cases hkey : key = []
    · subst hkey
      exact consistent_of_nil hps' _ _
    · rcases h with hn | hpercentiles | hnil
      · exact consistent_of_two hkey hn hps' _
      · exact consistent_of_no_percentiles hkey hne hpercentiles _
      · exact absurd hnil hkey

/-- A ledger with one timer. -/
def timerLedger (samples : List ℚ) : Ledger Exact :=
  { timers := (∅ : UnorderedMap Bytes (List Exact)).insert (ascii "a") (samples.map .fin) }

theorem consistent_process_two :
    ∃ data, ((timerLedger [3, 1]).process {} 0).timerData.lookup (ascii "a") = some data ∧
      (Consistent [90] data ↔ 2 ≤ [3, 1].length ∨ [(90 : ℤ)] = [] ∨ ascii "a" = []) :=
  consistent_process_iff {} 0 (show _ = some ([3, 1].map Exact.fin) from AList.lookup_insert _)
    (by simp) (by decide)

/-- The mean of the one sample up to its percentile is `0 / 0`. -/
theorem not_consistent_process_one :
    ∃ data, ((Ledger.replay ⟨{}, lexicalCast⟩ [ascii "a:5|ms"]).process {} 0).timerData.lookup
        (ascii "a") = some data ∧
      data.lookup (ascii "count_90") = some (.fin 0) ∧ data.lookup (ascii "mean_90") = some .nan ∧
        ¬Consistent [90] data := by
  have hsamples : (Ledger.replay ⟨{}, lexicalCast⟩ [ascii "a:5|ms"]).timers.lookup (ascii "a") =
      some [Exact.fin 5] := by decide +kernel
  have hstat : ∀ (timerCounter : Exact) (s : PercentileStat), ∃ boundary,
      (timerStats {} (ascii "a") [.fin 5] timerCounter).lookup (s.name 90) =
        some (s.value (timerValues [.fin 5]) boundary 0) :=
    fun timerCounter s => lookup_timerStats_one (by decide) rfl
      (show _ = [] ++ [90] from rfl) timerCounter s
  refine ⟨_, lookup_timerData_process {} 0 hsamples, ?_, ?_,
    @not_consistent_of_one {} (ascii "a") (by decide) _ rfl (by decide) _⟩
  · exact (hstat _ .count).choose_spec
  · exact (hstat _ .mean).choose_spec

end

-- ════════════════════════════════════════════════════════════════════════
-- Nearest-rank statistics
-- ════════════════════════════════════════════════════════════════════════

/-- The statistics of a percentile are those of as many of the smallest samples as
its rank says, and there are none for rank zero. -/
structure NearestRank (samples : List ℚ) (data : UnorderedMap Bytes Exact) (p : ℤ) : Prop where
  stored : ∀ s : PercentileStat, s.name p ∈ data ↔ 0 < rank p samples.length
  values : 0 < rank p samples.length → ∃ upper sum : ℚ,
    data.lookup (PercentileStat.count.name p) = some (.fin (rank p samples.length)) ∧
      data.lookup (PercentileStat.upper.name p) = some (.fin upper) ∧
      OrderStatistic samples (rank p samples.length) upper ∧
      data.lookup (PercentileStat.sum.name p) = some (.fin sum) ∧
      IsLeast {x | IsSubSum samples (rank p samples.length) x} sum ∧
      data.lookup (PercentileStat.mean.name p) = some (.fin (sum / rank p samples.length))

theorem rank_mono {p q : ℤ} (h : p.natAbs ≤ q.natAbs) (n : ℕ) : rank p n ≤ rank q n := by
  have hle : p.natAbs * n ≤ q.natAbs * n := Nat.mul_le_mul_right n h
  rw [rank_eq_div, rank_eq_div]
  omega

/-- The count and the bound of a percentile do not exceed those of a greater one. -/
theorem NearestRank.mono {samples : List ℚ} {data : UnorderedMap Bytes Exact} {p q : ℤ}
    (hp : NearestRank samples data p) (hq : NearestRank samples data q)
    (h : p.natAbs ≤ q.natAbs) (hpos : 0 < rank p samples.length) (s : PercentileStat)
    (hs : s = .count ∨ s = .upper) :
    ∃ x y, data.lookup (s.name p) = some x ∧ data.lookup (s.name q) = some y ∧ AtMost x y := by
  have hrank := rank_mono h samples.length
  obtain ⟨upper, sum, hcount, hupper, hstat, -⟩ := hp.values hpos
  obtain ⟨upper', sum', hcount', hupper', hstat', -⟩ := hq.values (hpos.trans_le hrank)
  rcases hs with rfl | rfl
  · exact ⟨_, _, hcount, hcount', _, _, rfl, rfl, Nat.cast_le.mpr hrank⟩
  · exact ⟨_, _, hupper, hupper', _, _, rfl, rfl, hstat.mono hstat' hrank⟩

section

variable {config : AggregatorConfig} {key : Bytes} {samples : List ℚ}

theorem nearestRank_timerStats (hkey : key ≠ []) (hn : 2 ≤ samples.length)
    (hps : ∀ p ∈ config.percentiles, p.natAbs ≤ 100) (timerCounter : Exact) {p : ℤ}
    (hp : p ∈ config.percentiles) :
    NearestRank samples (timerStats config key (samples.map .fin) timerCounter) p := by
  have hstat := lookup_timerStats_exact hkey hn hps timerCounter hp
  have hperm := perm_sortedSamples samples
  have hsorted := pairwise_sortedSamples samples
  constructor
  case stored =>
    intro s
    rw [← AList.lookup_isSome, hstat]
    split <;> simp <;> omega
  case values =>
    intro hpos
    have hk : rank p samples.length ≤ (sortedSamples samples).length := by
      rw [length_sortedSamples]
      exact rank_le (hps p hp) _
    simp only [hstat, if_neg hpos.ne']
    refine ⟨_, _, rfl, rfl, ?_, rfl, ?_, rfl⟩
    · have hlt : rank p samples.length - 1 < (sortedSamples samples).length := by omega
      have hrank := (orderStatistic_getElem hsorted hlt).of_perm hperm
      rw [Nat.sub_add_cancel hpos] at hrank
      rw [PercentileStat.exact, List.getD_eq_getElem _ 0 hlt]
      exact hrank
    · obtain ⟨hmem, hleast⟩ := isLeast_sum_take hsorted hk
      exact ⟨hmem.of_perm hperm, fun x hx => hleast (IsSubSum.of_perm hx hperm.symm)⟩

/-- The percentile `100` covers all samples. -/
theorem lookup_timerStats_hundred (hkey : key ≠ []) (hn : 2 ≤ samples.length)
    (hps : ∀ p ∈ config.percentiles, p.natAbs ≤ 100) (timerCounter : Exact) {p : ℤ}
    (hp : p ∈ config.percentiles) (hhundred : p.natAbs = 100) :
    let data := timerStats config key (samples.map .fin) timerCounter
    data.lookup (PercentileStat.upper.name p) = data.lookup (ascii "upper") ∧
      data.lookup (PercentileStat.mean.name p) = data.lookup (ascii "mean") := by
  have hne : samples ≠ [] := by
    rintro rfl
    simp at hn
  have hrank : rank p samples.length = (sortedSamples samples).length := by
    rw [rank_eq_div, hhundred, length_sortedSamples]
    omega
  have hnonzero : (sortedSamples samples).length ≠ 0 := by
    rw [length_sortedSamples]
    omega
  have hstat := lookup_timerStats_exact hkey hn hps timerCounter hp
  obtain ⟨-, hmean, hupper⟩ := lookup_timerStats_overall config hkey hne timerCounter
  simp only [hstat, hrank, if_neg hnonzero, hmean, hupper]
  constructor
  · rw [PercentileStat.exact, List.getLastD_eq_getLast?, List.getLast?_eq_getElem?,
      List.getD_eq_getElem?_getD]
  · rw [PercentileStat.exact, List.take_length]

/-- The timers of the lines of a ledger, whose names are never empty. -/
theorem nearestRank_replay (env : Env Exact) (lines : List Bytes) (elapsed : ℤ)
    (hsamples : (Ledger.replay env lines).timers.lookup key = some (samples.map .fin))
    (hn : 2 ≤ samples.length) (hps : ∀ p ∈ env.config.percentiles, p.natAbs ≤ 100) :
    ∃ data, ((Ledger.replay env lines).process env.config elapsed).timerData.lookup key =
      some data ∧ ∀ p ∈ env.config.percentiles, NearestRank samples data p := by
  have hkey : key ≠ [] := by
    refine ne_nil_of_mem_timers env lines (AList.lookup_isSome.mp ?_)
    rw [hsamples, Option.isSome_some]
  exact ⟨_, lookup_timerData_process env.config elapsed hsamples,
    fun p hp => nearestRank_timerStats hkey hn hps _ hp⟩

/-- **Percentiles are nearest-rank statistics** for every timer with two samples or
more: of the samples up to the rank that the percentile rounds to, increasing with the
percentile, and of all samples for the percentile `100`. -/
theorem nearestRank_process (config : AggregatorConfig) (elapsed : ℤ) {l : Ledger Exact}
    (hkey : key ≠ []) (hsamples : l.timers.lookup key = some (samples.map .fin))
    (hn : 2 ≤ samples.length)
    (hps : ∀ p ∈ config.percentiles, 1 ≤ p.natAbs ∧ p.natAbs ≤ 100) :
    ∃ data, (l.process config elapsed).timerData.lookup key = some data ∧
      (∀ p ∈ config.percentiles, NearestRank samples data p) ∧
      (∀ p ∈ config.percentiles, ∀ q ∈ config.percentiles, p.natAbs ≤ q.natAbs →
        0 < rank p samples.length → ∀ s : PercentileStat, s = .count ∨ s = .upper →
          ∃ x y, data.lookup (s.name p) = some x ∧ data.lookup (s.name q) = some y ∧
            AtMost x y) ∧
      ∀ p ∈ config.percentiles, p.natAbs = 100 → ∃ upper mean,
        data.lookup (PercentileStat.upper.name p) = some upper ∧
          data.lookup (ascii "upper") = some upper ∧
          data.lookup (PercentileStat.mean.name p) = some mean ∧
          data.lookup (ascii "mean") = some mean := by
  have hps' : ∀ p ∈ config.percentiles, p.natAbs ≤ 100 := fun p hp => (hps p hp).2
  have hne : samples ≠ [] := by
    rintro rfl
    simp at hn
  refine ⟨_, lookup_timerData_process config elapsed hsamples, fun p hp => ?_,
    fun p hp q hq hpq hpos => ?_, fun p hp hhundred => ?_⟩
  · exact nearestRank_timerStats hkey hn hps' _ hp
  · exact (nearestRank_timerStats hkey hn hps' _ hp).mono
      (nearestRank_timerStats hkey hn hps' _ hq) hpq hpos
  · obtain ⟨-, hmean, hupper⟩ := lookup_timerStats_overall config hkey hne
      ((l.timerCounters.lookup key).getD 0)
    obtain ⟨hupperAll, hmeanAll⟩ := lookup_timerStats_hundred hkey hn hps'
      ((l.timerCounters.lookup key).getD 0) hp hhundred
    exact ⟨_, _, hupperAll.trans hupper, hupper, hmeanAll.trans hmean, hmean⟩

end

theorem nearestRank_process_two :
    ∃ data, ((timerLedger [3, 1]).process {} 0).timerData.lookup (ascii "a") = some data ∧
      (∀ p ∈ [(90 : ℤ)], NearestRank [3, 1] data p) ∧
      (∀ p ∈ [(90 : ℤ)], ∀ q ∈ [(90 : ℤ)], p.natAbs ≤ q.natAbs → 0 < rank p 2 →
        ∀ s : PercentileStat, s = .count ∨ s = .upper →
          ∃ x y, data.lookup (s.name p) = some x ∧ data.lookup (s.name q) = some y ∧
            AtMost x y) ∧
      ∀ p ∈ [(90 : ℤ)], p.natAbs = 100 → ∃ upper mean,
        data.lookup (PercentileStat.upper.name p) = some upper ∧
          data.lookup (ascii "upper") = some upper ∧
          data.lookup (PercentileStat.mean.name p) = some mean ∧
          data.lookup (ascii "mean") = some mean :=
  nearestRank_process {} 0 (by decide)
    (show _ = some ([3, 1].map Exact.fin) from AList.lookup_insert _) (by simp) (by decide)

end Statsdcc
