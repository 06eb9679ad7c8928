import Mathlib
import Statsdcc.Carbon

/-!
# What a flush reports

A flush of a ledger is to report each of its statistics once, whatever the
backend calls it. `Stat` names the statistics without the texts of a backend.

## Main definitions

- `Stat` — a statistic of a ledger
- `Stat.In`, `Stat.text` — the statistics that a ledger has, and their values
- `stats` — all of them, in the order in which the backends visit them

## Main results

- `nodup_stats`, `mem_stats` — each statistic is visited once
- `Carbon.records_eq` — the carbon backend writes one line for each statistic
-/

open Bytes

namespace Statsdcc

/-- A statistic that is reported in a flush. -/
inductive Stat
  | rate (key : Bytes)
  | count (key : Bytes)
  | timer (key stat : Bytes)
  | gauge (key : Bytes)
  | set (key : Bytes)
  | numStats
  | calculationTime
  | own (name : Bytes)
  deriving DecidableEq

section

variable {R : Type}

/-- The statistics of a ledger. -/
def Stat.In (ledger : Ledger R) : Stat → Prop
  | rate key | count key => key ∈ ledger.counters
  | timer key stat => ∃ data, ledger.timerData.lookup key = some data ∧ stat ∈ data
  | gauge key => key ∈ ledger.gauges
  | set key => key ∈ ledger.sets
  | numStats | calculationTime => True
  | own name => name ∈ ledger.statsdMetrics

/-- The names of the entries are visited one by one. -/
def stats (ledger : Ledger R) : List Stat :=
  (ledger.counters.keys.flatMap fun key => [.rate key, .count key]) ++
    (ledger.timerData.entries.flatMap fun timer => timer.2.keys.map (.timer timer.1)) ++
    ledger.gauges.keys.map .gauge ++ ledger.sets.keys.map .set ++
    .numStats :: .calculationTime :: ledger.statsdMetrics.keys.map .own

theorem mem_stats (ledger : Ledger R) (stat : Stat) : stat ∈ stats ledger ↔ stat.In ledger := by
  have htimers : ∀ key name, (∃ timer ∈ ledger.timerData.entries, timer.1 = key ∧ name ∈ timer.2) ↔
      Stat.In ledger (.timer key name) := by
    intro key name
    constructor
    · rintro ⟨⟨key, data⟩, htimer, rfl, hname⟩
      exact ⟨data, AList.mem_lookup_iff.mpr htimer, hname⟩
    · rintro ⟨data, hdata, hname⟩
      exact ⟨⟨key, data⟩, AList.mem_lookup_iff.mp hdata, rfl, hname⟩
  cases stat with
  | timer key name =>
    rw [← htimers]
    simp [stats, AList.mem_keys, and_comm]
  | _ => simp [stats, Stat.In, AList.mem_keys]

theorem nodup_counterStats (ledger : Ledger R) :
    (ledger.counters.keys.flatMap fun key => [Stat.rate key, Stat.count key]).Nodup := by
  rw [List.nodup_flatMap]
  refine ⟨fun key _ => by simp, (AList.keys_nodup ledger.counters).imp fun hne => ?_⟩
  simp [Function.onFun, List.disjoint_left, hne]

theorem nodup_timerStats (ledger : Ledger R) :
    (ledger.timerData.entries.flatMap
      fun timer => timer.2.keys.map (Stat.timer timer.1)).Nodup := by
  rw [List.nodup_flatMap]
  refine ⟨fun timer _ => (AList.keys_nodup timer.2).map fun _ _ h => by cases h; rfl, ?_⟩
  refine (List.NodupKeys.pairwise_ne (AList.nodupKeys _)).imp fun hne => ?_
  intro stat hstat hstat'
  obtain ⟨name, -, rfl⟩ := List.mem_map.mp hstat
  obtain ⟨name', -, heq⟩ := List.mem_map.mp hstat'
  exact hne (Stat.timer.inj heq).1.symm

theorem nodup_stats (ledger : Ledger R) : (stats ledger).Nodup := by
  have hgauges : (ledger.gauges.keys.map Stat.gauge).Nodup :=
    (AList.keys_nodup ledger.gauges).map fun _ _ h => by cases h; rfl
  have hsets : (ledger.sets.keys.map Stat.set).Nodup :=
    (AList.keys_nodup ledger.sets).map fun _ _ h => by cases h; rfl
  have hnames : (ledger.statsdMetrics.keys.map Stat.own).Nodup :=
    (AList.keys_nodup ledger.statsdMetrics).map fun _ _ h => by cases h; rfl
  have hown :
      (Stat.numStats :: .calculationTime :: ledger.statsdMetrics.keys.map Stat.own).Nodup := by
    simpa using hnames
  -- no constructor occurs in two sections
  refine ((((nodup_counterStats ledger).append (nodup_timerStats ledger) ?_).append hgauges
    ?_).append hsets ?_).append hown ?_ <;> intro stat h h' <;> cases stat <;> simp at h h'

variable [CDouble R]

/-- The printed value of a statistic of the ledger; `totalTime` is the time that
the flush has taken. -/
def Stat.text (ledger : Ledger R) (totalTime : ℕ) : Stat → Bytes
  | rate key => CDouble.toText ((ledger.counterRates.lookup key).getD 0)
  | count key => CDouble.toText ((ledger.counters.lookup key).getD 0)
  | timer key stat =>
    CDouble.toText ((((ledger.timerData.lookup key).getD ∅).lookup stat).getD 0)
  | gauge key => CDouble.toText ((ledger.gauges.lookup key).getD 0)
  | set key => natText ((ledger.sets.lookup key).getD ∅).card
  | numStats => natText (ledger.counters.entries.length + ledger.timerData.entries.length +
      ledger.gauges.entries.length + ledger.sets.entries.length)
  | calculationTime => natText totalTime
  | own name => intText ((ledger.statsdMetrics.lookup name).getD 0)

/-- Two flushes of a ledger differ in the time they take only. -/
theorem Stat.text_of_ne {stat : Stat} (h : stat ≠ .calculationTime) (ledger : Ledger R)
    (totalTime totalTime' : ℕ) : stat.text ledger totalTime = stat.text ledger totalTime' := by
  cases stat with
  | calculationTime => exact absurd rfl h
  | _ => rfl

end

namespace Carbon

/-- The key by which the server of a statistic is chosen. -/
def routingKey (env : CarbonEnv) (flusherId : ℤ) : Stat → Bytes
  | .rate key | .count key | .timer key _ | .gauge key | .set key => key
  | .numStats => prefixStats env flusherId ++ ascii ".numStats"
  | .calculationTime => prefixStats env flusherId ++ ascii ".carbonStats.calculationtime"
  | .own name => prefixStats env flusherId ++ (ascii "." ++ name)

/-- The path under which a statistic is sent. -/
def carbonPath (env : CarbonEnv) (flusherId : ℤ) : Stat → Bytes
  | .rate key =>
    env.config.prefixAll ++ env.config.prefixCounter ++ processName env key ++ ascii ".rate"
  | .count key =>
    env.config.prefixAll ++ env.config.prefixCounter ++ processName env key ++ ascii ".count"
  | .timer key stat =>
    env.config.prefixAll ++ env.config.prefixTimer ++ processName env key ++ ascii "." ++ stat
  | .gauge key => env.config.prefixAll ++ env.config.prefixGauge ++ processName env key
  | .set key =>
    env.config.prefixAll ++ env.config.prefixSet ++ processName env key ++ ascii ".count"
  | .numStats => prefixStats env flusherId ++ ascii ".numStats"
  | .calculationTime => prefixStats env flusherId ++ ascii ".carbonStats.calculationtime"
  | .own name => prefixStats env flusherId ++ (ascii "." ++ name)

variable {R : Type} [CDouble R] {ledger : Ledger R}

/-- The line of a statistic. -/
def recordOf (env : CarbonEnv) (ledger : Ledger R) (flusherId : ℤ) (totalTime : ℕ) (stat : Stat) :
    Record :=
  { key := routingKey env flusherId stat
    path := carbonPath env flusherId stat
    value := stat.text ledger totalTime }

theorem counterRecords_eq (env : CarbonEnv) (h : ledger.Rated) (flusherId : ℤ) (totalTime : ℕ) :
    counterRecords env ledger =
      some ((ledger.counters.keys.flatMap fun key => [Stat.rate key, Stat.count key]).map
        (recordOf env ledger flusherId totalTime)) := by
  have hentry : ∀ e ∈ ledger.counters.entries,
      counterPair env e.1 e.2 ((ledger.counterRates.lookup e.1).getD 0) =
        [Stat.rate e.1, Stat.count e.1].map (recordOf env ledger flusherId totalTime) := by
    intro e he
    have hvalue : ledger.counters.lookup e.1 = some e.2 := AList.mem_lookup_iff.mpr he
    simp [counterPair, recordOf, routingKey, carbonPath, Stat.text, hvalue]
  rw [counterRecords, h.mapM_rates (counterPair env), List.map_congr_left hentry, Option.map_some,
    AList.keys, List.keys, List.flatMap_map, List.map_flatMap, List.flatMap_def]

theorem timerRecords_eq (env : CarbonEnv) (ledger : Ledger R) (flusherId : ℤ) (totalTime : ℕ) :
    timerRecords env ledger = (ledger.timerData.entries.flatMap
      fun timer => timer.2.keys.map (Stat.timer timer.1)).map
        (recordOf env ledger flusherId totalTime) := by
  rw [timerRecords, List.map_flatMap]
  refine List.flatMap_congr fun timer htimer => ?_
  have hdata : ledger.timerData.lookup timer.1 = some timer.2 := AList.mem_lookup_iff.mpr htimer
  rw [List.map_map]
  apply UnorderedMap.map_entries
  intro stat value hvalue
  simp [recordOf, routingKey, carbonPath, Stat.text, hdata, hvalue]

theorem gaugeRecords_eq (env : CarbonEnv) (ledger : Ledger R) (flusherId : ℤ) (totalTime : ℕ) :
    gaugeRecords env ledger =
      (ledger.gauges.keys.map Stat.gauge).map (recordOf env ledger flusherId totalTime) := by
  rw [gaugeRecords, List.map_map]
  apply UnorderedMap.map_entries
  intro key value hvalue
  simp [recordOf, routingKey, carbonPath, Stat.text, hvalue]

theorem setRecords_eq (env : CarbonEnv) (ledger : Ledger R) (flusherId : ℤ) (totalTime : ℕ) :
    setRecords env ledger =
      (ledger.sets.keys.map Stat.set).map (recordOf env ledger flusherId totalTime) := by
  rw [setRecords, List.map_map]
  apply UnorderedMap.map_entries
  intro key value hvalue
  simp [recordOf, routingKey, carbonPath, Stat.text, hvalue]

theorem statRecords_eq (env : CarbonEnv) (ledger : Ledger R) (flusherId : ℤ) (totalTime : ℕ) :
    statRecords env ledger flusherId totalTime =
      (.numStats :: .calculationTime :: ledger.statsdMetrics.keys.map Stat.own).map
        (recordOf env ledger flusherId totalTime) := by
  simp only [statRecords, List.map_cons]
  refine congrArg (_ :: _ :: ·) ?_
  rw [List.map_map]
  apply UnorderedMap.map_entries
  intro name value hvalue
  simp [recordOf, routingKey, carbonPath, Stat.text, hvalue]

/-- **The carbon backend writes one line for each statistic**, and nothing else. -/
theorem records_eq (env : CarbonEnv) (h : ledger.Rated) (flusherId : ℤ) (totalTime : ℕ) :
    records env ledger flusherId totalTime =
      some ((stats ledger).map (recordOf env ledger flusherId totalTime)) := by
  rw [records, counterRecords_eq env h flusherId totalTime, Option.map_some,
    timerRecords_eq env ledger flusherId totalTime, gaugeRecords_eq env ledger flusherId totalTime,
    setRecords_eq env ledger flusherId totalTime, statRecords_eq env ledger flusherId totalTime]
  simp only [stats, List.map_append]

end Carbon

end Statsdcc
