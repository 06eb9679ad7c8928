import Mathlib
import Statsdcc.Report

/-!
# The stdout backend

`Stdout::flush_stats` prints a ledger in the format of the carbon backend, but
with the names as the clients sent them and without choosing a server.

## Main definitions

- `Stdout.lines` — the lines of one flush
- `Stdout.flushStats` — what is printed

## Main results

- `Stdout.lines_eq` — one line for each statistic of the ledger
- `Stdout.agrees_with_carbon` — the two backends report the same statistics with
  the same values, and each line goes to the server of its key
-/

open Bytes

namespace Statsdcc

namespace Stdout

/-- One line before the time stamp: a name and a value. -/
structure Line where
  name : Bytes
  value : Bytes
  deriving DecidableEq

/-- `ts_suffix` -/
def tsSuffix (timeStamp : ℕ) : Bytes := ascii " " ++ natText timeStamp ++ ascii "\n"

def Line.text (timeStamp : ℕ) (line : Line) : Bytes :=
  line.name ++ ascii " " ++ line.value ++ tsSuffix timeStamp

section Flush

variable {R : Type} [CDouble R]

/-- The two lines of a counter. -/
def counterPair (key : Bytes) (value rate : R) : List Line :=
  [{ name := key ++ ascii ".rate", value := CDouble.toText rate },
   { name := key ++ ascii ".count", value := CDouble.toText value }]

/-- The lines of the counters; `counter_rates.at` throws when there is no rate. -/
def counterLines (ledger : Ledger R) : Option (List Line) :=
  (ledger.counters.entries.mapM fun counter =>
    (ledger.counterRates.lookup counter.1).map fun rate =>
      counterPair counter.1 counter.2 rate).map List.flatten

def timerLines (ledger : Ledger R) : List Line :=
  ledger.timerData.entries.flatMap fun timer => timer.2.entries.map fun timerData =>
    { name := timer.1 ++ ascii "." ++ timerData.1, value := CDouble.toText timerData.2 }

def gaugeLines (ledger : Ledger R) : List Line :=
  ledger.gauges.entries.map fun gauge => { name := gauge.1, value := CDouble.toText gauge.2 }

def setLines (ledger : Ledger R) : List Line :=
  ledger.sets.entries.map fun set =>
    { name := set.1 ++ ascii ".count", value := natText set.2.card }

/-- `num_stats` -/
def numStats (ledger : Ledger R) : ℕ :=
  ledger.counters.entries.length + ledger.timerData.entries.length +
    ledger.gauges.entries.length + ledger.sets.entries.length

/-- `prefix` -/
def prefixStats (config : AggregatorConfig) (flusherId : ℤ) : Bytes :=
  config.name ++ ascii ".thread_" ++ intText flusherId

/-- The lines of the ledger's own statistics. -/
def statLines (config : AggregatorConfig) (ledger : Ledger R) (flusherId : ℤ) (totalTime : ℕ) :
    List Line :=
  { name := prefixStats config flusherId ++ ascii ".numStats",
    value := natText (numStats ledger) } ::
    { name := prefixStats config flusherId ++ ascii ".graphiteStats.calculationtime",
      value := natText totalTime } ::
    ledger.statsdMetrics.entries.map fun statsdMetric =>
      { name := prefixStats config flusherId ++ ascii "." ++ statsdMetric.1,
        value := intText statsdMetric.2 }

/-- All lines of one flush. -/
def lines (config : AggregatorConfig) (ledger : Ledger R) (flusherId : ℤ) (totalTime : ℕ) :
    Option (List Line) :=
  (counterLines ledger).map fun counters =>
    counters ++ timerLines ledger ++ gaugeLines ledger ++ setLines ledger ++
      statLines config ledger flusherId totalTime

/-- `flush_stats`: the output, which `std::endl` ends with one more newline. -/
def flushStats (config : AggregatorConfig) (ledger : Ledger R) (flusherId : ℤ)
    (timeStamp totalTime : ℕ) : Option Bytes :=
  (lines config ledger flusherId totalTime).map fun lines =>
    lines.flatMap (Line.text timeStamp) ++ ascii "\n"

end Flush

/-- The name under which a statistic is printed. -/
def stdoutName (config : AggregatorConfig) (flusherId : ℤ) : Stat → Bytes
  | .rate key => key ++ ascii ".rate"
  | .count key => key ++ ascii ".count"
  | .timer key stat => key ++ ascii "." ++ stat
  | .gauge key => key
  | .set key => key ++ ascii ".count"
  | .numStats => prefixStats config flusherId ++ ascii ".numStats"
  | .calculationTime => prefixStats config flusherId ++ ascii ".graphiteStats.calculationtime"
  | .own name => prefixStats config flusherId ++ ascii "." ++ name

variable {R : Type} [CDouble R] {ledger : Ledger R}

/-- The line of a statistic. -/
def lineOf (config : AggregatorConfig) (ledger : Ledger R) (flusherId : ℤ) (totalTime : ℕ)
    (stat : Stat) : Line :=
  { name := stdoutName config flusherId stat, value := stat.text ledger totalTime }

theorem counterLines_eq (config : AggregatorConfig) (h : ledger.Rated) (flusherId : ℤ)
    (totalTime : ℕ) :
    counterLines ledger =
      some ((ledger.counters.keys.flatMap fun key => [Stat.rate key, Stat.count key]).map
        (lineOf config ledger flusherId totalTime)) := by
  have hentry : ∀ e ∈ ledger.counters.entries,
      counterPair e.1 e.2 ((ledger.counterRates.lookup e.1).getD 0) =
        [Stat.rate e.1, Stat.count e.1].map (lineOf config ledger flusherId totalTime) := by
    intro e he
    have hvalue : ledger.counters.lookup e.1 = some e.2 := AList.mem_lookup_iff.mpr he
    simp [counterPair, lineOf, stdoutName, Stat.text, hvalue]
  rw [counterLines, h.mapM_rates counterPair, List.map_congr_left hentry, Option.map_some,
    AList.keys, List.keys, List.flatMap_map, List.map_flatMap, List.flatMap_def]

theorem timerLines_eq (config : AggregatorConfig) (ledger : Ledger R) (flusherId : ℤ)
    (totalTime : ℕ) :
    timerLines ledger = (ledger.timerData.entries.flatMap
      fun timer => timer.2.keys.map (Stat.timer timer.1)).map
        (lineOf config ledger flusherId totalTime) := by
  rw [timerLines, List.map_flatMap]
  refine List.flatMap_congr fun timer htimer => ?_
  have hdata : ledger.timerData.lookup timer.1 = some timer.2 := AList.mem_lookup_iff.mpr htimer
  rw [List.map_map]
  apply UnorderedMap.map_entries
  intro stat value hvalue
  simp [lineOf, stdoutName, Stat.text, hdata, hvalue]

theorem gaugeLines_eq (config : AggregatorConfig) (ledger : Ledger R) (flusherId : ℤ)
    (totalTime : ℕ) :
    gaugeLines ledger =
      (ledger.gauges.keys.map Stat.gauge).map (lineOf config ledger flusherId totalTime) := by
  rw [gaugeLines, List.map_map]
  apply UnorderedMap.map_entries
  intro key value hvalue
  simp [lineOf, stdoutName, Stat.text, hvalue]

theorem setLines_eq (config : AggregatorConfig) (ledger : Ledger R) (flusherId : ℤ)
    (totalTime : ℕ) :
    setLines ledger =
      (ledger.sets.keys.map Stat.set).map (lineOf config ledger flusherId totalTime) := by
  rw [setLines, List.map_map]
  apply UnorderedMap.map_entries
  intro key value hvalue
  simp [lineOf, stdoutName, Stat.text, hvalue]

theorem statLines_eq (config : AggregatorConfig) (ledger : Ledger R) (flusherId : ℤ)
    (totalTime : ℕ) :
    statLines config ledger flusherId totalTime =
      (.numStats :: .calculationTime :: ledger.statsdMetrics.keys.map Stat.own).map
        (lineOf config ledger flusherId totalTime) := by
  simp only [statLines, List.map_cons]
  refine congrArg (_ :: _ :: ·) ?_
  rw [List.map_map]
  apply UnorderedMap.map_entries
  intro name value hvalue
  simp [lineOf, stdoutName, Stat.text, hvalue]

/-- **The stdout backend prints one line for each statistic**, and nothing else. -/
theorem lines_eq (config : AggregatorConfig) (h : ledger.Rated) (flusherId : ℤ) (totalTime : ℕ) :
    lines config ledger flusherId totalTime =
      some ((stats ledger).map (lineOf config ledger flusherId totalTime)) := by
  rw [lines, counterLines_eq config h flusherId totalTime, Option.map_some,
    timerLines_eq config ledger flusherId totalTime,
    gaugeLines_eq config ledger flusherId totalTime,
    setLines_eq config ledger flusherId totalTime,
    statLines_eq config ledger flusherId totalTime]
  simp only [stats, List.map_append]

/-- **Carbon and Stdout report the same statistics**: of a processed ledger both
write one line for each statistic, with equal values but for the calculation
time, and the payload of a server is made of the lines of the keys it owns. -/
theorem agrees_with_carbon (env : CarbonEnv) (unprocessed : Ledger R) (elapsed flusherId : ℤ)
    (timeStamp stdoutTime carbonTime : ℕ) :
    let ledger := unprocessed.process env.config elapsed
    ∃ reported : List Stat, reported.Nodup ∧ (∀ stat, stat ∈ reported ↔ stat.In ledger) ∧
      lines env.config ledger flusherId stdoutTime =
        some (reported.map (lineOf env.config ledger flusherId stdoutTime)) ∧
      Carbon.records env ledger flusherId carbonTime =
        some (reported.map (Carbon.recordOf env ledger flusherId carbonTime)) ∧
      (∀ stat ≠ .calculationTime, (lineOf env.config ledger flusherId stdoutTime stat).value =
        (Carbon.recordOf env ledger flusherId carbonTime stat).value) ∧
      flushStats env.config ledger flusherId timeStamp stdoutTime =
        some ((reported.flatMap fun stat =>
          (lineOf env.config ledger flusherId stdoutTime stat).text timeStamp) ++ ascii "\n") ∧
      ∃ payloads, Carbon.flushStats env ledger flusherId timeStamp carbonTime = some payloads ∧
        ∀ dest, payloads.lookup dest =
          let owned := reported.filter fun stat =>
            env.hashring (Carbon.routingKey env flusherId stat) = dest
          if owned = [] then none
          else some (owned.flatMap fun stat =>
            (Carbon.recordOf env ledger flusherId carbonTime stat).text timeStamp) := by
  intro ledger
  have hrated : ledger.Rated := Ledger.rated_process env.config elapsed unprocessed
  have hlines := lines_eq env.config hrated flusherId stdoutTime
  have hrecords := Carbon.records_eq env hrated flusherId carbonTime
  refine ⟨stats ledger, nodup_stats ledger, mem_stats ledger, hlines, hrecords,
    fun stat hstat => Stat.text_of_ne hstat ledger _ _, ?_, ?_⟩
  · rw [flushStats, hlines, Option.map_some, List.flatMap_map]
  · refine ⟨_, by rw [Carbon.flushStats, hrecords, Option.map_some], fun dest => ?_⟩
    rw [List.map_map, UnorderedMap.lookup_gather, List.filter_map]
    simp only [List.map_eq_nil_iff, List.flatMap_map]
    rfl

end Stdout

end Statsdcc
