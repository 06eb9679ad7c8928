import Mathlib
import Statsdcc.Hashring
import Statsdcc.Ledger.Processed

/-!
# The carbon backend

`Carbon::flush_stats` writes one line `path value timestamp` for each statistic
of a ledger into the payload of the server that owns the key, and sends each
payload. The calls of `boost::regex_replace` and the hash ring are parameters.

## Main definitions

- `Carbon.processName` — `process_name`
- `Carbon.flushStats` — the payloads that `flush_stats` sends

## Main results

- `Carbon.getlines_payload` — the lines of a payload are those of the server's records
- `Carbon.nodup_linePath_of_records` — records with distinct paths give lines with
  distinct paths
-/

open Bytes

namespace Statsdcc

/-- The configuration of the backend and the code that it calls. -/
structure CarbonEnv where
  config : AggregatorConfig
  /-- `boost::regex_replace` with a text, a pattern and a replacement. -/
  regexReplace : Bytes → Bytes → Bytes → Bytes
  /-- `hashring->get`. -/
  hashring : Bytes → Hostport

namespace Carbon

/-- The characters of `[a-zA-Z_\-0-9\.]`. -/
def isNameChar (c : Byte) : Bool :=
  (48 ≤ c.toNat && c.toNat ≤ 57) || (65 ≤ c.toNat && c.toNat ≤ 90) ||
    (97 ≤ c.toNat && c.toNat ≤ 122) || c = underscore || c = minus || c = point

/-- Every run of white space becomes one underscore; `inRun` tells that the
character before was white space. -/
def squeezeSpaces (inRun : Bool) : Bytes → Bytes
  | [] => []
  | c :: s =>
    if isSpace c then
      if inRun then squeezeSpaces true s else underscore :: squeezeSpaces true s
    else c :: squeezeSpaces false s

/-- What is documented of `boost::regex_replace` for the patterns in use: a run
of white space becomes an underscore, a slash a dash, and all characters outside
the class are dropped. -/
structure RegexSpec (regexReplace : Bytes → Bytes → Bytes → Bytes) : Prop where
  spaces : ∀ s, regexReplace s (ascii "\\s+") (ascii "_") = squeezeSpaces false s
  slashes : ∀ s, regexReplace s (ascii "/") (ascii "-") =
    s.map fun c => if c = slash then minus else c
  others : ∀ s, regexReplace s (ascii "[^a-zA-Z_\\-0-9\\.]") [] = s.filter isNameChar

/-- `process_name` -/
def processName (env : CarbonEnv) (name : Bytes) : Bytes :=
  let resultName := env.regexReplace name (ascii "\\s+") (ascii "_")
  let resultName := env.regexReplace resultName (ascii "/") (ascii "-")
  env.regexReplace resultName (ascii "[^a-zA-Z_\\-0-9\\.]") []

/-- One line: the key by which its server is chosen, its path and its value. -/
structure Record where
  key : Bytes
  path : Bytes
  value : Bytes
  deriving DecidableEq

/-- `ts_suffix` -/
def tsSuffix (timeStamp : ℕ) : Bytes := ascii " " ++ natText timeStamp ++ ascii "\n"

def Record.text (timeStamp : ℕ) (r : Record) : Bytes :=
  r.path ++ ascii " " ++ r.value ++ tsSuffix timeStamp

section Flush

variable {R : Type} [CDouble R]

/-- The two lines of a counter. -/
def counterPair (env : CarbonEnv) (key : Bytes) (value rate : R) : List Record :=
  let metricName := env.config.prefixAll ++ env.config.prefixCounter ++ processName env key
  [{ key, path := metricName ++ ascii ".rate", value := CDouble.toText rate },
   { key, path := metricName ++ ascii ".count", value := CDouble.toText value }]

/-- The lines of the counters; `none` when a counter has no rate, for which
`counter_rates.at` throws. -/
def counterRecords (env : CarbonEnv) (ledger : Ledger R) : Option (List Record) :=
  (ledger.counters.entries.mapM fun counter =>
    (ledger.counterRates.lookup counter.1).map fun rate =>
      counterPair env counter.1 counter.2 rate).map List.flatten

def timerRecords (env : CarbonEnv) (ledger : Ledger R) : List Record :=
  ledger.timerData.entries.flatMap fun timer =>
    let metricName := env.config.prefixAll ++ env.config.prefixTimer ++ processName env timer.1
    timer.2.entries.map fun timerData =>
      { key := timer.1, path := metricName ++ ascii "." ++ timerData.1,
        value := CDouble.toText timerData.2 }

def gaugeRecords (env : CarbonEnv) (ledger : Ledger R) : List Record :=
  ledger.gauges.entries.map fun gauge =>
    { key := gauge.1
      path := env.config.prefixAll ++ env.config.prefixGauge ++ processName env gauge.1
      value := CDouble.toText gauge.2 }

def setRecords (env : CarbonEnv) (ledger : Ledger R) : List Record :=
  ledger.sets.entries.map fun set =>
    let metricName := env.config.prefixAll ++ env.config.prefixSet ++ processName env set.1
    { key := set.1, path := metricName ++ ascii ".count", value := natText set.2.card }

/-- `num_stats` -/
def numStats (ledger : Ledger R) : ℕ :=
  ledger.counters.entries.length + ledger.timerData.entries.length +
    ledger.gauges.entries.length + ledger.sets.entries.length

/-- `prefix_stats` -/
def prefixStats (env : CarbonEnv) (flusherId : ℤ) : Bytes :=
  env.config.name ++ ascii ".thread_" ++ intText flusherId

/-- The lines of the ledger's own statistics, whose keys are their paths. -/
def statRecords (env : CarbonEnv) (ledger : Ledger R) (flusherId : ℤ) (totalTime : ℕ) :
    List Record :=
  let stat (name value : Bytes) : Record :=
    { key := prefixStats env flusherId ++ name, path := prefixStats env flusherId ++ name,
      value := value }
  stat (ascii ".numStats") (natText (numStats ledger)) ::
    stat (ascii ".carbonStats.calculationtime") (natText totalTime) ::
    ledger.statsdMetrics.entries.map fun statsdMetric =>
      stat (ascii "." ++ statsdMetric.1) (intText statsdMetric.2)

/-- All lines of one flush. -/
def records (env : CarbonEnv) (ledger : Ledger R) (flusherId : ℤ) (totalTime : ℕ) :
    Option (List Record) :=
  (counterRecords env ledger).map fun counters =>
    counters ++ timerRecords env ledger ++ gaugeRecords env ledger ++ setRecords env ledger ++
      statRecords env ledger flusherId totalTime

/-- `flush_stats`: the payload for each server. -/
def flushStats (env : CarbonEnv) (ledger : Ledger R) (flusherId : ℤ) (timeStamp totalTime : ℕ) :
    Option (UnorderedMap Hostport Bytes) :=
  (records env ledger flusherId totalTime).map fun records =>
    UnorderedMap.gather (records.map fun r => (env.hashring r.key, r.text timeStamp))

end Flush

/-- The lines of all payloads. -/
def sentLines (payloads : UnorderedMap Hostport Bytes) : List Bytes :=
  payloads.entries.flatMap fun payload => getlines payload.2

/-- The metric path of a line, which is its first field. -/
def linePath (line : Bytes) : Bytes := line.takeWhile (· ≠ space)

/-- A text without blanks and newlines. -/
def Clean (s : Bytes) : Prop := space ∉ s ∧ newline ∉ s

instance (s : Bytes) : Decidable (Clean s) := inferInstanceAs (Decidable (_ ∧ _))

theorem Clean.append {s t : Bytes} (hs : Clean s) (ht : Clean t) : Clean (s ++ t) :=
  ⟨by simp [hs.1, ht.1], by simp [hs.2, ht.2]⟩

theorem clean_of_isPlain {s : Bytes} (h : ∀ c ∈ s, isPlain c = true) : Clean s :=
  ⟨notMem_of_forall h (by decide), notMem_of_forall h (by decide)⟩

theorem clean_of_isStatChar {s : Bytes} (h : ∀ c ∈ s, isStatChar c = true) : Clean s :=
  ⟨notMem_of_forall h (by decide), notMem_of_forall h (by decide)⟩

theorem clean_natText (n : ℕ) : Clean (natText n) :=
  clean_of_isPlain fun _ => isPlain_natText

theorem clean_toText {R : Type} [CDouble R] (x : R) : Clean (CDouble.toText x) :=
  clean_of_isPlain (CDouble.isPlain_toText x)

theorem clean_intText (n : ℤ) : Clean (intText n) := by
  have hnat := clean_natText n.natAbs
  rw [intText]
  split
  · exact ⟨by simpa [space, minus] using hnat.1, by simpa [newline, minus] using hnat.2⟩
  · exact hnat

theorem clean_processName {env : CarbonEnv} (h : RegexSpec env.regexReplace) (name : Bytes) :
    Clean (processName env name) := by
  have hall : ∀ c ∈ processName env name, isNameChar c = true := by
    rw [processName, h.others]
    exact fun c hc => (List.mem_filter.mp hc).2
  exact ⟨notMem_of_forall hall (by decide), notMem_of_forall hall (by decide)⟩

/-- A line without its newline. -/
def Record.line (timeStamp : ℕ) (r : Record) : Bytes :=
  r.path ++ space :: (r.value ++ ascii " " ++ natText timeStamp)

theorem Record.text_eq (timeStamp : ℕ) (r : Record) :
    r.text timeStamp = r.line timeStamp ++ [newline] := by
  simp [text, line, tsSuffix, ascii, space, newline]

theorem Record.linePath_line {r : Record} (h : Clean r.path) (timeStamp : ℕ) :
    linePath (r.line timeStamp) = r.path :=
  takeWhile_ne_append h.1 _

theorem Record.newline_notMem_line {r : Record} (hpath : Clean r.path) (hvalue : Clean r.value)
    (timeStamp : ℕ) : newline ∉ r.line timeStamp := by
  have htime := clean_natText timeStamp
  simp only [line, List.mem_append, List.mem_cons, not_or]
  exact ⟨hpath.2, by decide, ⟨hvalue.2, by decide⟩, htime.2⟩

/-- The payload of a server is split into the lines of its records. -/
theorem getlines_payload (env : CarbonEnv) {rs : List Record} (timeStamp : ℕ)
    (hclean : ∀ r ∈ rs, Clean r.path ∧ Clean r.value) {dest : Hostport} {payload : Bytes}
    (h : (UnorderedMap.gather
      (rs.map fun r => (env.hashring r.key, r.text timeStamp))).lookup dest = some payload) :
    getlines payload =
      (rs.filter fun r => env.hashring r.key = dest).map (Record.line timeStamp) := by
  rw [UnorderedMap.lookup_gather] at h
  split_ifs at h with hnil
  rw [Option.some.injEq] at h
  have hlines : payload =
      ((rs.filter fun r => env.hashring r.key = dest).map (Record.line timeStamp)).flatMap
        (· ++ [newline]) := by
    rw [← h, List.filter_map, List.flatMap_map, List.flatMap_map]
    refine List.flatMap_congr fun r _ => ?_
    exact r.text_eq timeStamp
  rw [hlines, getlines_flatMap]
  intro l hl
  obtain ⟨r, hr, rfl⟩ := List.mem_map.mp hl
  obtain ⟨hpath, hvalue⟩ := hclean r (List.mem_of_mem_filter hr)
  exact Record.newline_notMem_line hpath hvalue timeStamp

/-- When the records have distinct paths, so have the lines of all payloads. -/
theorem nodup_linePath_of_records (env : CarbonEnv) {rs : List Record} (timeStamp : ℕ)
    (hclean : ∀ r ∈ rs, Clean r.path ∧ Clean r.value) (hnodup : (rs.map Record.path).Nodup) :
    ((sentLines (UnorderedMap.gather
      (rs.map fun r => (env.hashring r.key, r.text timeStamp)))).map linePath).Nodup := by
  have hpaths : ∀ entry ∈ (UnorderedMap.gather
      (rs.map fun r => (env.hashring r.key, r.text timeStamp))).entries,
      (getlines entry.2).map linePath =
        (rs.filter fun r => env.hashring r.key = entry.1).map Record.path := by
    intro entry hentry
    rw [getlines_payload env timeStamp hclean (AList.mem_lookup_iff.mpr hentry), List.map_map]
    refine List.map_congr_left fun r hr => ?_
    exact Record.linePath_line (hclean r (List.mem_of_mem_filter hr)).1 timeStamp
  rw [sentLines, List.map_flatMap, List.nodup_flatMap]
  constructor
  · intro entry hentry
    rw [hpaths entry hentry]
    exact hnodup.sublist (List.filter_sublist.map _)
  · refine (List.NodupKeys.pairwise_ne (AList.nodupKeys _)).imp_of_mem ?_
    intro entry entry' hentry hentry' hne path hpath hpath'
    dsimp only at hpath hpath'
    -- a path belongs to one record, and this to one server
    rw [hpaths entry hentry] at hpath
    rw [hpaths entry' hentry'] at hpath'
    obtain ⟨r, hr, rfl⟩ := List.mem_map.mp hpath
    obtain ⟨r', hr', hrr'⟩ := List.mem_map.mp hpath'
    obtain ⟨hmem, hdest⟩ := List.mem_filter.mp hr
    obtain ⟨hmem', hdest'⟩ := List.mem_filter.mp hr'
    obtain rfl := List.inj_on_of_nodup_map hnodup hmem' hmem hrr'
    exact hne ((of_decide_eq_true hdest).symm.trans (of_decide_eq_true hdest'))

/-- The three calls of `boost::regex_replace`. -/
def regexReplace (s pattern _replacement : Bytes) : Bytes :=
  if pattern = ascii "\\s+" then squeezeSpaces false s
  else if pattern = ascii "/" then s.map fun c => if c = slash then minus else c
  else s.filter isNameChar

theorem regexSpec : RegexSpec regexReplace :=
  ⟨fun _ => rfl, fun _ => rfl, fun _ => rfl⟩

end Carbon

end Statsdcc
