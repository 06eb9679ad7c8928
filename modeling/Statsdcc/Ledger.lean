import Mathlib
import Statsdcc.Config
import Statsdcc.Lib.UnorderedMap
import Statsdcc.Lib.LexicalCast

/-!
# The ledger

`Ledger` holds what one worker has aggregated since its last flush. `buffer`
parses one line into it and `process` computes the statistics that the backends
send. The number type is any `CDouble`, and `boost::lexical_cast` is a parameter.

## Main definitions

- `Ledger.buffer` — `Ledger::buffer`
- `Ledger.process` — `Ledger::process`
- `Ledger.copy` — the copy constructor
-/

open Bytes

namespace Statsdcc

/-- The configuration and the code outside the repository that a ledger uses. -/
structure Env (R : Type) where
  config : AggregatorConfig
  lexicalCast : Bytes → Option R

/-- `Ledger::MetricType`. -/
inductive MetricType
  | counter
  | timer
  | gauge
  | set
  deriving DecidableEq

/-- The data members of `Ledger`. -/
structure Ledger (R : Type) where
  frequency : UnorderedMap Bytes ℤ := ∅
  counters : UnorderedMap Bytes R := ∅
  timers : UnorderedMap Bytes (List R) := ∅
  timerCounters : UnorderedMap Bytes R := ∅
  gauges : UnorderedMap Bytes R := ∅
  sets : UnorderedMap Bytes (Finset Bytes) := ∅
  counterRates : UnorderedMap Bytes R := ∅
  timerData : UnorderedMap Bytes (UnorderedMap Bytes R) := ∅
  statsdMetrics : UnorderedMap Bytes ℤ := ∅

section

variable {R : Type} [CDouble R]

-- ════════════════════════════════════════════════════════════════════════
-- Parsing a line
-- ════════════════════════════════════════════════════════════════════════

/-- `MAX_TOKEN_STRING_LENGTH`: the most characters of a name or of a value. -/
def maxTokenStringLength : ℕ := 1496

/-- The format `%1496[^:]:%1496[^|]|%2[^|]|@%lf` that `buffer` gives to `sscanf`. -/
def lineFormat : List Directive :=
  [.scanset maxTokenStringLength colon, .lit colon,
   .scanset maxTokenStringLength bar, .lit bar,
   .scanset 2 bar, .lit bar, .lit atSign, .float]

/-- The local variables of `buffer` that `sscanf` assigns. -/
structure ScanBuffers (R : Type) where
  nameBuffer : Bytes
  metricValueBuffer : Bytes
  typeBuffer : Bytes
  sampleRate : R

/-- A character buffer that was zeroed before the call. -/
def bufferText : Option (Conversion R) → Bytes
  | some (.str s) => s
  | _ => []

/-- `sample_rate`, which is `1` before the call. -/
def sampleRateOf : Option (Conversion R) → R
  | some (.num rate) => rate
  | _ => 1

/-- The buffers after the call of `sscanf`; what it did not reach keeps its
initial value. -/
def scanLine (metricCstr : Bytes) : ScanBuffers R :=
  let assigned : List (Conversion R) := sscanf metricCstr lineFormat
  { nameBuffer := bufferText assigned[0]?
    metricValueBuffer := bufferText assigned[1]?
    typeBuffer := bufferText assigned[2]?
    sampleRate := sampleRateOf assigned[3]? }

/-- The tests that decide whether a line is bad, and its type and value when it
is not. A set keeps the initial value, which nothing reads. -/
def checkLine (cast : Bytes → Option R) (metricTypeStr metricValueBuffer : Bytes) :
    Option (MetricType × R) :=
  if metricTypeStr = [] then none
  else if (ascii "ms").isPrefixOf metricTypeStr then
    (cast metricValueBuffer).map (MetricType.timer, ·)
  else if (ascii "c").isPrefixOf metricTypeStr then
    (cast metricValueBuffer).map (MetricType.counter, ·)
  else if (ascii "g").isPrefixOf metricTypeStr then
    (cast metricValueBuffer).map (MetricType.gauge, ·)
  else if (ascii "s").isPrefixOf metricTypeStr then
    some (MetricType.set, CDouble.lowest)
  -- any other type keeps the initial `MetricType::counter`
  else (cast metricValueBuffer).map (MetricType.counter, ·)

/-- `metric_csty[metric.find_first_of(":") + 1]`; without a colon the sum wraps
to `0`, and behind the last character stands the terminator. -/
def charAfterColon (metric : Bytes) : Byte :=
  metric.getD ((metric.idxOf? colon).elim 0 (· + 1)) nul

-- ════════════════════════════════════════════════════════════════════════
-- Buffering
-- ════════════════════════════════════════════════════════════════════════

/-- `++statsd_metrics["metrics_processed"]`. -/
def Ledger.countCall (l : Ledger R) : Ledger R :=
  { l with statsdMetrics := l.statsdMetrics.modify (ascii "metrics_processed") 0 (· + 1) }

/-- `++counters[bad_lines_seen]`. -/
def Ledger.countBadLine (config : AggregatorConfig) (l : Ledger R) : Ledger R :=
  { l with counters := l.counters.modify config.badLinesSeen 0 (· + 1) }

/-- The effect of a line that is not bad. -/
def Ledger.store (l : Ledger R) (metric : Bytes) (buffers : ScanBuffers R) (type : MetricType)
    (metricValue : R) : Ledger R :=
  let metricName := buffers.nameBuffer
  let l := { l with frequency := l.frequency.modify metricName 0 (· + 1) }
  match type with
  | .timer =>
    { l with
      timerCounters := l.timerCounters.modify metricName 0 (· + 1 / buffers.sampleRate)
      timers := l.timers.modify metricName [] (· ++ [metricValue]) }
  | .gauge =>
    if charAfterColon metric = plus ∨ charAfterColon metric = minus then
      { l with gauges := l.gauges.modify metricName 0 (· + metricValue) }
    else { l with gauges := l.gauges.insert metricName metricValue }
  | .set => { l with sets := l.sets.modify metricName ∅ (insert buffers.metricValueBuffer) }
  | .counter =>
    { l with
      counters := l.counters.modify metricName 0 (· + metricValue * (1 / buffers.sampleRate)) }

/-- `Ledger::buffer`. -/
def Ledger.buffer (env : Env R) (l : Ledger R) (metric : Bytes) : Ledger R :=
  let buffers : ScanBuffers R := scanLine (cStr metric)
  let metricTypeStr := buffers.typeBuffer.dropWhile (· = space)
  match checkLine env.lexicalCast metricTypeStr buffers.metricValueBuffer with
  | none => l.countCall.countBadLine env.config
  | some (type, metricValue) => l.countCall.store metric buffers type metricValue

/-- `buffer` called on each line in turn, starting from a new ledger. -/
def Ledger.replay (env : Env R) (lines : List Bytes) : Ledger R :=
  lines.foldl (Ledger.buffer env) {}

theorem Ledger.replay_concat (env : Env R) (lines : List Bytes) (metric : Bytes) :
    Ledger.replay env (lines ++ [metric]) = (Ledger.replay env lines).buffer env metric := by
  rw [Ledger.replay, List.foldl_concat, ← Ledger.replay]

/-- What holds of a new ledger and is kept by every line of a sequence holds of the
ledger behind it. -/
theorem Ledger.replay_induction {env : Env R} {lines : List Bytes} {P : Ledger R → Prop}
    (new : P {}) (step : ∀ l, ∀ metric ∈ lines, P l → P (l.buffer env metric)) :
    P (Ledger.replay env lines) := by
  induction lines using List.reverseRecOn with
  | nil => exact new
  | append_singleton lines metric ih =>
    rw [Ledger.replay_concat]
    exact step _ metric (by simp) (ih fun l metric' hmem => step l metric' (by simp [hmem]))

-- ════════════════════════════════════════════════════════════════════════
-- Processing
-- ════════════════════════════════════════════════════════════════════════

/-- `%g` of a natural number: up to six digits are printed as they are, more
digits in scientific notation with six significant ones. -/
def gText (n : ℕ) : Bytes :=
  if n < 10 ^ 6 then natText n
  else
    let e := (natDigits n).length - 1
    let unit := 10 ^ (e - 5)
    let m := n / unit + (if 2 * (n % unit) < unit then 0
      else if 2 * (n % unit) = unit then n / unit % 2 else 1)
    let (m, e) := if m = 10 ^ 6 then (10 ^ 5, e + 1) else (m, e)
    let digits := (natDigits m).reverse.dropWhile (· = 0) |>.reverse
    Digits.text (digits.take 1) ++
      (if digits.tail = [] then [] else point :: Digits.text digits.tail) ++
      ascii "e+" ++ (if e < 10 then ascii "0" else []) ++ natText e

/-- `clean_pct`: the percentile with its point replaced. -/
def cleanPct (pct : ℕ) : Bytes :=
  (gText pct).map fun c => if c = point then underscore else c

/-- One iteration over `config->percentiles`. `threshold_boundary` is declared
outside the loop and carried from one iteration to the next. -/
def percentileStep (values : List R) (acc : R × UnorderedMap Bytes R) (threshold : ℤ) :
    R × UnorderedMap Bytes R :=
  let pct := threshold.natAbs
  let count : ℤ := CDouble.intOfSize (R := R) values.length
  let numInThreshold :=
    if 1 < count then
      CDouble.roundToNat (CDouble.ofInt pct / CDouble.ofInt 100 * CDouble.ofInt count : R)
    else 0
  if 1 < count ∧ numInThreshold = 0 then acc
  else
    let thresholdBoundary := if 1 < count then values.getD (numInThreshold - 1) 0 else acc.1
    let pctSum := (values.take numInThreshold).foldl (· + ·) 0
    let pctMean := pctSum / CDouble.ofInt numInThreshold
    (thresholdBoundary,
      (((acc.2.insert (ascii "upper_" ++ cleanPct pct) thresholdBoundary).insert
        (ascii "count_" ++ cleanPct pct) (CDouble.ofInt numInThreshold)).insert
        (ascii "sum_" ++ cleanPct pct) pctSum).insert
        (ascii "mean_" ++ cleanPct pct) pctMean)

/-- `current_timer_data` of one timer. -/
def timerStats (config : AggregatorConfig) (key : Bytes) (samples : List R) (timerCounter : R) :
    UnorderedMap Bytes R :=
  if key = [] then
    ((∅ : UnorderedMap Bytes R).insert (ascii "count_ps") 0).insert (ascii "count") 0
  else
    let values := samples.mergeSort fun a b => !CDouble.lt b a
    let min := values.headD 0
    let max := values.getLastD 0
    let count : ℤ := CDouble.intOfSize (R := R) values.length
    let mean := values.foldl (· + ·) 0 / CDouble.ofInt count
    let data := (config.percentiles.foldl (percentileStep values) (max, ∅)).2
    (((data.insert (ascii "upper") max).insert (ascii "lower") min).insert
      (ascii "count") timerCounter).insert (ascii "mean") mean

/-- The subscripts `timer_counters[key]` of the loop over the timers, which
create what is absent. -/
def readTimerCounters (timerCounters : UnorderedMap Bytes R)
    (timers : UnorderedMap Bytes (List R)) : UnorderedMap Bytes R :=
  timers.entries.foldl
    (fun acc timer => if timer.1 = [] then acc else acc.modify timer.1 0 id) timerCounters

/-- `Ledger::process`; `elapsed` is the time it takes, in milliseconds. -/
def Ledger.process (config : AggregatorConfig) (elapsed : ℤ) (l : Ledger R) : Ledger R :=
  { l with
    counterRates := UnorderedMap.insertEach l.counterRates l.counters
      fun _ value => value / CDouble.ofInt config.frequency
    timerCounters := readTimerCounters l.timerCounters l.timers
    timerData := UnorderedMap.insertEach l.timerData l.timers
      fun key samples => timerStats config key samples ((l.timerCounters.lookup key).getD 0)
    statsdMetrics := l.statsdMetrics.insert (ascii "processing_time") elapsed }

/-- The copy constructor, which leaves `frequency` behind. -/
def Ledger.copy (l : Ledger R) : Ledger R := { l with frequency := ∅ }

/-- `Ledger::bad_lines_seen`. -/
def Ledger.badLinesSeen (config : AggregatorConfig) (l : Ledger R) : ℤ :=
  (l.counters.lookup config.badLinesSeen).elim 0 fun x => storeInt (CDouble.toInt x)

end

end Statsdcc
