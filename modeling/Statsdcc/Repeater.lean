import Mathlib
import Statsdcc.UdpServer
import Statsdcc.Ledger.Grammar
import Statsdcc.Ledger.Processed

/-!
# The repeater backend

`Repeater::flush_stats` forwards a ledger to other instances of the program as
lines of the format that `Ledger::buffer` reads. What an instance reads of it is
compared with what was to be forwarded.

## Main definitions

- `Repeater.send` — `send`, which cuts a character for each destination
- `Repeater.flushStats` — the datagrams of one flush
- `Repeater.Forwarded` — the entries that a flush is to forward
- `Repeater.ReadBack` — a downstream ledger that holds just these

## Main results

- `Repeater.send_same_iff` — when all destinations are sent the same bytes
- `Repeater.accepted_of_message` — what the downstream instance accepts
- `Repeater.readBack_iff` — when it holds what was to be forwarded
-/

open Bytes

namespace Statsdcc

namespace Repeater

/-- `send`: the last character of `metric` goes before each call of `sendto`. -/
def send {Dest : Type} : List Dest → Bytes → List (Dest × Bytes)
  | [], _ => []
  | dest :: destinations, metric =>
    let metric := metric.dropLast
    (dest, metric) :: send destinations metric

section Flush

variable {R : Type} [CDouble R]

def counterMetric (key valuePerSecond value : Bytes) : Bytes :=
  key ++ ascii ".rate:" ++ valuePerSecond ++ ascii "|c\n" ++ key ++ ascii ".count:" ++ value ++
    ascii "|c"

/-- The messages of the counters; `counter_rates.at` throws when there is no rate. -/
def counterMetrics (ledger : Ledger R) : Option (List Bytes) :=
  ledger.counters.entries.mapM fun counter =>
    (ledger.counterRates.lookup counter.1).map fun rate =>
      counterMetric counter.1 (CDouble.toText rate) (CDouble.toText counter.2)

/-- `out` before its last character is erased. -/
def timerOut (key : Bytes) (timerData : UnorderedMap Bytes R) : Bytes :=
  timerData.entries.flatMap fun stat =>
    key ++ ascii "." ++ stat.1 ++ ascii ":" ++ CDouble.toText stat.2 ++ ascii "|ms"

/-- The messages of the timers; an empty `out` has no last character to erase. -/
def timerMetrics (ledger : Ledger R) : Option (List Bytes) :=
  ledger.timerData.entries.mapM fun timer =>
    let out := timerOut timer.1 timer.2
    if out = [] then none else some out.dropLast

def gaugeMetric (key value : Bytes) : Bytes := key ++ ascii ":" ++ value ++ ascii "|g"

def gaugeMetrics (ledger : Ledger R) : List Bytes :=
  ledger.gauges.entries.map fun gauge => gaugeMetric gauge.1 (CDouble.toText gauge.2)

def setMetric (key size : Bytes) : Bytes := key ++ ascii ".count:" ++ size ++ ascii "|s"

def setMetrics (ledger : Ledger R) : List Bytes :=
  ledger.sets.entries.map fun set => setMetric set.1 (natText set.2.card)

/-- The messages of one flush. -/
def metrics (ledger : Ledger R) : Option (List Bytes) :=
  (counterMetrics ledger).bind fun counters => (timerMetrics ledger).map fun timers =>
    counters ++ timers ++ gaugeMetrics ledger ++ setMetrics ledger

/-- `flush_stats`: the datagrams and their destinations. -/
def flushStats {Dest : Type} (destinations : List Dest) (ledger : Ledger R) :
    Option (List (Dest × Bytes)) :=
  (metrics ledger).map fun metrics => metrics.flatMap (send destinations)

end Flush

/-- The lines that a destination reads from the datagrams sent to it. -/
def linesAt {Dest : Type} [DecidableEq Dest] (dest : Dest) (sent : List (Dest × Bytes)) :
    List Bytes :=
  (sent.filter fun datagram => datagram.1 = dest).flatMap fun datagram =>
    UdpServer.listen datagram.2

section Purpose

variable {R : Type} [CDouble R]

/-- The entries that a flush is to forward: a type, a name and a printed value. -/
inductive Forwarded (ledger : Ledger R) : MetricType → Bytes → Bytes → Prop
  | rate {key : Bytes} {rate : R} : key ∈ ledger.counters →
      ledger.counterRates.lookup key = some rate →
      Forwarded ledger .counter (key ++ ascii ".rate") (CDouble.toText rate)
  | count {key : Bytes} {value : R} : ledger.counters.lookup key = some value →
      Forwarded ledger .counter (key ++ ascii ".count") (CDouble.toText value)
  | stat {key stat : Bytes} {data : UnorderedMap Bytes R} {value : R} :
      ledger.timerData.lookup key = some data → data.lookup stat = some value →
      Forwarded ledger .timer (key ++ ascii "." ++ stat) (CDouble.toText value)
  | gauge {key : Bytes} {value : R} : ledger.gauges.lookup key = some value →
      Forwarded ledger .gauge key (CDouble.toText value)
  | set {key : Bytes} {values : Finset Bytes} : ledger.sets.lookup key = some values →
      Forwarded ledger .set (key ++ ascii ".count") (natText values.card)

/-- The ledger has taken the printed value once under the name. -/
def Took (cast : Bytes → Option R) (l : Ledger R) (name text : Bytes) : MetricType → Prop
  | .counter => ∃ x, cast text = some x ∧ l.counters.lookup name = some x
  | .timer => ∃ x, cast text = some x ∧ l.timers.lookup name = some [x]
  | .gauge => ∃ x, cast text = some x ∧ l.gauges.lookup name = some x
  | .set => l.sets.lookup name = some {text}

/-- A new ledger that buffers the lines rejects none of them, and holds the
forwarded entries and no others. -/
structure ReadBack (env : Env R) (ledger : Ledger R) (lines : List Bytes) : Prop where
  accepted : ∀ line ∈ lines, parseLine env.lexicalCast line ≠ none
  took : ∀ type name text, Forwarded ledger type name text →
    Took env.lexicalCast (Ledger.replay env lines) name text type
  only : ∀ type name, (Ledger.replay env lines).Has type name →
    ∃ text, Forwarded ledger type name text

end Purpose

/-- The line of a gauge would be read back, if it were sent whole. -/
example : ReadBack ⟨{}, lexicalCast⟩ (Ledger.flushed {} [ascii "a:1|g"])
    [ascii "a:1.000000|g"] := by
  have hkey : ∀ k ∈ (Ledger.flushed {} [ascii "a:1|g"]).gauges.keys, k = ascii "a" := by
    decide +kernel
  have hvalue : (Ledger.flushed {} [ascii "a:1|g"]).gauges.lookup (ascii "a") = some (.fin 1) := by
    decide +kernel
  constructor
  case accepted =>
    intro line hline
    rw [List.mem_singleton.mp hline]
    decide +kernel
  case took =>
    intro type name text hforward
    cases hforward with
    | rate hmem | count hmem | stat hmem | set hmem => cases hmem
    | gauge hlookup =>
      obtain rfl := hkey _ (UnorderedMap.mem_of_lookup hlookup)
      rw [hvalue] at hlookup
      cases hlookup
      exact ⟨.fin 1, by decide +kernel, by decide +kernel⟩
  case only =>
    intro type name hname
    cases type with
    | counter | timer | set => cases hname
    | gauge =>
      have hread : ∀ k ∈ (Ledger.replay (R := Exact) ⟨{}, lexicalCast⟩
          [ascii "a:1.000000|g"]).gauges.keys, k = ascii "a" := by
        decide +kernel
      obtain rfl := hread name hname
      exact ⟨_, .gauge hvalue⟩

-- ════════════════════════════════════════════════════════════════════════
-- What becomes of a message
-- ════════════════════════════════════════════════════════════════════════

/-- A destination is sent a part of the message without its last character. -/
theorem part_of_send {Dest : Type} {destinations : List Dest} {metric : Bytes}
    {datagram : Dest × Bytes} (h : datagram ∈ send destinations metric) :
    datagram.2 <+: metric.dropLast := by
  induction destinations generalizing metric with
  | nil => cases h
  | cons dest destinations ih =>
    rcases List.mem_cons.mp h with rfl | h
    · exact List.prefix_refl _
    · exact (ih h).trans (List.dropLast_prefix _)

/-- What the loop of `send` has cut when it comes to a destination. -/
theorem send_eq_mapIdx {Dest : Type} (destinations : List Dest) (metric : Bytes) :
    send destinations metric =
      destinations.mapIdx fun i dest => (dest, metric.take (metric.length - (i + 1))) := by
  induction destinations generalizing metric with
  | nil => rfl
  | cons dest destinations ih =>
    rw [send, ih, List.mapIdx_cons, List.dropLast_eq_take]
    congr 1
    refine congrArg (List.mapIdx · destinations) (funext fun i => funext fun dest => ?_)
    rw [List.take_take, List.length_take]
    congr 2
    omega

/-- **One cut for each destination**: all destinations are sent the same bytes just
when there is no second one, or nothing is left behind the first cut. -/
theorem send_same_iff {Dest : Type} (destinations : List Dest) (metric : Bytes) :
    (∃ data, send destinations metric = destinations.map fun dest => (dest, data)) ↔
      destinations.length ≤ 1 ∨ metric.length ≤ 1 := by
  constructor
  · rintro ⟨data, hdata⟩
    match destinations with
    | [] | [_] => exact .inl (by simp)
    | first :: second :: _ =>
      rw [send_eq_mapIdx] at hdata
      simp only [List.mapIdx_cons, List.map_cons, List.cons.injEq, Prod.mk.injEq, true_and]
        at hdata
      have hlength := congrArg List.length (hdata.1.trans hdata.2.1.symm)
      rw [List.length_take, List.length_take] at hlength
      exact .inr (by omega)
  · rintro (hone | hshort)
    · match destinations, hone with
      | [], _ => exact ⟨[], rfl⟩
      | [_], _ => exact ⟨metric.dropLast, rfl⟩
    · refine ⟨[], ?_⟩
      rw [send_eq_mapIdx, List.mapIdx_eq_iff]
      intro i
      rw [List.getElem?_map, Nat.sub_eq_zero_of_le (by omega), List.take_zero]

/-- The second destination is sent one character less than the first. -/
theorem not_send_same_counter :
    ascii "a:1|c" ≠ [] ∧ ¬∃ data, send [8125, 8126] (ascii "a:1|c") =
      [8125, 8126].map fun port => (port, data) := by
  refine ⟨by decide, fun ⟨data, hdata⟩ => ?_⟩
  have hfirst : ascii "a:1|" = data := congrArg (fun sent => (sent.headI).2) hdata
  have hsecond : ascii "a:1" = data := congrArg (fun sent => (sent.tail.headI).2) hdata
  exact absurd (hfirst.trans hsecond.symm) (by decide)

/-- `name:value|type`, a line or the beginning of one. -/
def lineText (name value type : Bytes) : Bytes := name ++ colon :: (value ++ bar :: type)

/-- The text has no character that structures a line. -/
def Inner (s : Bytes) : Prop := colon ∉ s ∧ bar ∉ s ∧ newline ∉ s

theorem inner_of_isPlain {s : Bytes} (h : ∀ c ∈ s, isPlain c = true) : Inner s :=
  ⟨notMem_of_forall h (by decide), notMem_of_forall h (by decide),
    notMem_of_forall h (by decide)⟩

/-- A name that a line can carry. -/
def CleanName (s : Bytes) : Prop := colon ∉ s ∧ newline ∉ s

theorem CleanName.append {s t : Bytes} (hs : CleanName s) (ht : CleanName t) :
    CleanName (s ++ t) :=
  ⟨by simp [hs.1, ht.1], by simp [hs.2, ht.2]⟩

theorem cleanName_of_isStatChar {s : Bytes} (h : ∀ c ∈ s, isStatChar c = true) : CleanName s :=
  ⟨notMem_of_forall h (by decide), notMem_of_forall h (by decide)⟩

theorem newline_notMem_lineText {name value : Bytes} (hname : CleanName name)
    (hvalue : Inner value) {type : Bytes} (htype : newline ∉ type) :
    newline ∉ lineText name value type := by
  simp only [lineText, List.mem_append, List.mem_cons, not_or]
  exact ⟨hname.2, by decide, hvalue.2.2, by decide, htype⟩

theorem counterMetric_dropLast (key valuePerSecond value : Bytes) :
    (counterMetric key valuePerSecond value).dropLast =
      lineText (key ++ ascii ".rate") valuePerSecond (ascii "c") ++
        newline :: lineText (key ++ ascii ".count") value [] := by
  have hlast : counterMetric key valuePerSecond value =
      (lineText (key ++ ascii ".rate") valuePerSecond (ascii "c") ++
        newline :: lineText (key ++ ascii ".count") value []) ++ ascii "c" := by
    simp [counterMetric, lineText, ascii, colon, bar, newline]
  rw [hlast]
  exact List.dropLast_concat

theorem gaugeMetric_dropLast (key value : Bytes) :
    (gaugeMetric key value).dropLast = lineText key value [] := by
  have hlast : gaugeMetric key value = lineText key value [] ++ ascii "g" := by
    simp [gaugeMetric, lineText, ascii, colon, bar]
  rw [hlast]
  exact List.dropLast_concat

theorem setMetric_dropLast (key size : Bytes) :
    (setMetric key size).dropLast = lineText (key ++ ascii ".count") size [] := by
  have hlast : setMetric key size = lineText (key ++ ascii ".count") size [] ++ ascii "s" := by
    simp [setMetric, lineText, ascii, colon, bar]
  rw [hlast]
  exact List.dropLast_concat

section Accepted

variable {R : Type} [CDouble R] {cast : Bytes → Option R} {s line : Bytes}
  {buffers : ScanBuffers R} {type : MetricType} {x : R}

/-- Without its last character a line has no type and is not accepted. -/
theorem not_accepted_of_part {name value : Bytes} (hname : CleanName name) (hvalue : Inner value)
    (hpart : line <+: lineText name value []) : parseLine cast line = none := by
  rcases hparse : parseLine cast line with _ | ⟨buffers, type, x⟩
  · rfl
  · obtain ⟨-, part, hpart, hne, -⟩ := accepted_of_part hname.1 hvalue.2.1 hpart hparse
    exact absurd (List.prefix_nil.mp hpart) hne

theorem not_accepted_single {name value : Bytes} (hname : CleanName name) (hvalue : Inner value)
    (hs : s <+: lineText name value []) (hline : line ∈ getlines s) :
    parseLine cast line = none := by
  have hone : newline ∉ lineText name value [] :=
    newline_notMem_lineText hname hvalue (by decide)
  exact not_accepted_of_part hname hvalue (mem_getlines_of_part hone hs hline)

/-- Of the two lines of a counter only the first may be accepted. -/
theorem accepted_counter {key valuePerSecond value : Bytes} (hkey : CleanName key)
    (hrate : Inner valuePerSecond) (hvalue : Inner value)
    (hs : s <+: (counterMetric key valuePerSecond value).dropLast) (hline : line ∈ getlines s)
    (h : parseLine cast line = some (buffers, type, x)) :
    type = .counter ∧ buffers.nameBuffer = key ++ ascii ".rate" := by
  rw [counterMetric_dropLast] at hs
  have hname : CleanName (key ++ ascii ".rate") := hkey.append ⟨by decide, by decide⟩
  have hname' : CleanName (key ++ ascii ".count") := hkey.append ⟨by decide, by decide⟩
  have hfirst : newline ∉ lineText (key ++ ascii ".rate") valuePerSecond (ascii "c") :=
    newline_notMem_lineText hname hrate (by decide)
  have hsecond : newline ∉ lineText (key ++ ascii ".count") value [] :=
    newline_notMem_lineText hname' hvalue (by decide)
  rcases mem_getlines_of_part_two hfirst hsecond hs hline with hpart | hpart
  · obtain ⟨hbuffer, part, hpart, hne, rfl⟩ := accepted_of_part hname.1 hrate.2.1 hpart h
    have hc : part <+: [] ++ [99] := hpart
    rcases List.prefix_concat_iff.mp hc with rfl | hnil
    · exact ⟨rfl, hbuffer⟩
    · exact absurd (List.prefix_nil.mp hnil) hne
  · rw [not_accepted_of_part hname' hvalue hpart] at h
    cases h

/-- All statistics of a timer are on one line, which is accepted under the name
of the first one only. -/
theorem accepted_timer {key : Bytes} {timerData : UnorderedMap Bytes R} (hkey : CleanName key)
    (hstats : StatNames timerData) (hs : s <+: (timerOut key timerData).dropLast)
    (hline : line ∈ getlines s) (h : parseLine cast line = some (buffers, type, x)) :
    ∃ stat, timerData.keys.head? = some stat ∧ buffers.nameBuffer = key ++ point :: stat := by
  have hclean : ∀ e ∈ timerData.entries, CleanName (key ++ point :: e.1) := by
    intro e he
    have hstat := cleanName_of_isStatChar (hstats e.1 (List.mem_map_of_mem he))
    exact hkey.append (CleanName.append (s := [point]) ⟨by decide, by decide⟩ hstat)
  have hvalue : ∀ x : R, Inner (CDouble.toText x) := fun x =>
    inner_of_isPlain (CDouble.isPlain_toText x)
  have hout : timerOut key timerData = timerData.entries.flatMap fun e =>
      lineText (key ++ point :: e.1) (CDouble.toText e.2) (ascii "ms") := by
    refine List.flatMap_congr fun e _ => ?_
    simp [lineText, ascii, point, colon, bar]
  have hnewline : newline ∉ timerOut key timerData := by
    rw [hout, List.mem_flatMap]
    rintro ⟨e, he, hmem⟩
    exact newline_notMem_lineText (hclean e he) (hvalue e.2) (by decide) hmem
  have hpart : line <+: timerOut key timerData :=
    mem_getlines_of_part hnewline (hs.trans (List.dropLast_prefix _)) hline
  cases hentries : timerData.entries with
  | nil =>
    rw [hout, hentries, List.flatMap_nil, List.prefix_nil] at hpart
    subst hpart
    cases h
  | cons e es =>
    have hfirst : e ∈ timerData.entries := by simp [hentries]
    rw [hout, hentries, List.flatMap_cons] at hpart
    simp only [lineText, List.append_assoc, List.cons_append] at hpart
    rw [← List.cons_append, ← List.append_assoc] at hpart
    obtain ⟨hbuffer, -⟩ := accepted_of_part (hclean e hfirst).1 (hvalue e.2).2.1 hpart h
    exact ⟨e.1, by simp [AList.keys, List.keys, hentries], hbuffer⟩

end Accepted

-- ════════════════════════════════════════════════════════════════════════
-- What becomes of a ledger
-- ════════════════════════════════════════════════════════════════════════

section Ledgers

variable {R : Type} [CDouble R] {config : AggregatorConfig} {ledger : Ledger R}

/-- The messages of a flush, by the entry of the ledger they are made of. -/
inductive Message (ledger : Ledger R) : Bytes → Prop
  | counter {key : Bytes} (rate value : R) : key ∈ ledger.counters →
      Message ledger (counterMetric key (CDouble.toText rate) (CDouble.toText value))
  | timer {key : Bytes} {data : UnorderedMap Bytes R} : ledger.timerData.lookup key = some data →
      Message ledger (timerOut key data).dropLast
  | gauge {key : Bytes} (value : R) : key ∈ ledger.gauges →
      Message ledger (gaugeMetric key (CDouble.toText value))
  | set {key : Bytes} (values : Finset Bytes) : key ∈ ledger.sets →
      Message ledger (setMetric key (natText values.card))

/-- A flush of a processed ledger throws nothing. -/
theorem exists_metrics (h : ledger.Processed config) :
    ∃ ms, metrics ledger = some ms ∧ ∀ metric ∈ ms, Message ledger metric := by
  have hcounters : counterMetrics ledger = some (ledger.counters.entries.map fun e =>
      counterMetric e.1 (CDouble.toText ((ledger.counterRates.lookup e.1).getD 0))
        (CDouble.toText e.2)) :=
    h.rated.mapM_rates fun key value rate =>
      counterMetric key (CDouble.toText rate) (CDouble.toText value)
  have htimers : timerMetrics ledger =
      some (ledger.timerData.entries.map fun e => (timerOut e.1 e.2).dropLast) := by
    refine UnorderedMap.mapM_eq_some_map fun e he => if_neg fun hnil => ?_
    obtain ⟨stat, hstat, -⟩ := h.exists_two_stats (AList.mem_lookup_iff.mpr he)
    obtain ⟨entry, hentry, -⟩ := List.mem_map.mp hstat
    simpa [ascii] using List.flatMap_eq_nil_iff.mp hnil entry hentry
  refine ⟨_, by rw [metrics, hcounters, htimers]; rfl, fun metric hmetric => ?_⟩
  simp only [List.mem_append] at hmetric
  rcases hmetric with ((hmetric | hmetric) | hmetric) | hmetric <;>
    obtain ⟨e, he, rfl⟩ := List.mem_map.mp hmetric
  · exact .counter _ _ (List.mem_map_of_mem he)
  · exact .timer (AList.mem_lookup_iff.mpr he)
  · exact .gauge _ (List.mem_map_of_mem he)
  · exact .set _ (List.mem_map_of_mem he)

/-- A line that a destination reads comes from a message without its last
character. -/
theorem message_of_line {Dest : Type} [DecidableEq Dest] {destinations : List Dest} {dest : Dest}
    {ms : List Bytes} {line : Bytes} (h : line ∈ linesAt dest (ms.flatMap (send destinations))) :
    ∃ metric ∈ ms, ∃ s, s <+: metric.dropLast ∧ line ∈ getlines s := by
  obtain ⟨datagram, hdatagram, hline⟩ := List.mem_flatMap.mp h
  obtain ⟨metric, hmetric, hsent⟩ := List.mem_flatMap.mp (List.mem_of_mem_filter hdatagram)
  obtain ⟨s, hs, hlisten⟩ := UdpServer.part_of_listen datagram.2
  exact ⟨metric, hmetric, s, hs.trans (part_of_send hsent), hlisten ▸ hline⟩

/-- **What a destination accepts**: from each counter its rate, and from each
timer its first statistic. -/
theorem accepted_of_message (h : ledger.Processed config)
    (hnames : ∀ type key, ledger.Has type key → CleanName key) {metric s line : Bytes}
    (hmetric : Message ledger metric) (hs : s <+: metric.dropLast) (hline : line ∈ getlines s)
    {cast : Bytes → Option R} {buffers : ScanBuffers R} {type : MetricType} {x : R}
    (hparse : parseLine cast line = some (buffers, type, x)) :
    (type = .counter ∧ ∃ key ∈ ledger.counters, buffers.nameBuffer = key ++ ascii ".rate") ∨
      ∃ key data stat, ledger.timerData.lookup key = some data ∧ data.keys.head? = some stat ∧
        buffers.nameBuffer = key ++ point :: stat := by
  have hvalue : ∀ x : R, Inner (CDouble.toText x) := fun x =>
    inner_of_isPlain (CDouble.isPlain_toText x)
  cases hmetric with
  | counter rate value hkey =>
    obtain ⟨htype, hname⟩ := accepted_counter (hnames .counter _ hkey) (hvalue rate)
      (hvalue value) hs hline hparse
    exact .inl ⟨htype, _, hkey, hname⟩
  | timer hdata =>
    rename_i key data
    have hkey := (h.mem_timerData key).mp (UnorderedMap.mem_of_lookup hdata)
    obtain ⟨stat, hstat, hname⟩ := accepted_timer (hnames .timer _ hkey) (h.statNames hdata)
      (hs.trans (List.dropLast_prefix _)) hline hparse
    exact .inr ⟨key, data, stat, hdata, hstat, hname⟩
  | gauge value hkey =>
    rw [gaugeMetric_dropLast] at hs
    rw [not_accepted_single (hnames .gauge _ hkey) (hvalue value) hs hline] at hparse
    cases hparse
  | set values hkey =>
    rw [setMetric_dropLast] at hs
    have hname := (hnames .set _ hkey).append (t := ascii ".count") ⟨by decide, by decide⟩
    have hsize : Inner (natText values.card) := inner_of_isPlain fun c => isPlain_natText
    rw [not_accepted_single hname hsize hs hline] at hparse
    cases hparse

omit [CDouble R] in
theorem Took.has {cast : Bytes → Option R} {l : Ledger R} {name text : Bytes}
    {type : MetricType} (h : Took cast l name text type) : l.Has type name := by
  cases type with
  | counter | timer | gauge =>
    obtain ⟨x, -, hlookup⟩ := h
    exact UnorderedMap.mem_of_lookup hlookup
  | set => exact UnorderedMap.mem_of_lookup h

variable {env : Env R} {Dest : Type} [DecidableEq Dest] {destinations : List Dest} {dest : Dest}
  {ms : List Bytes}

/-- What was forwarded and is held comes from an accepted line. -/
theorem ReadBack.sender (h : ledger.Processed config)
    (hnames : ∀ type key, ledger.Has type key → CleanName key)
    (hmessage : ∀ metric ∈ ms, Message ledger metric)
    (hback : ReadBack env ledger (linesAt dest (ms.flatMap (send destinations))))
    {type : MetricType} {name text : Bytes} (hforward : Forwarded ledger type name text) :
    (type = .counter ∧ ∃ key ∈ ledger.counters, name = key ++ ascii ".rate") ∨
      ∃ key data stat, ledger.timerData.lookup key = some data ∧ data.keys.head? = some stat ∧
        name = key ++ point :: stat := by
  obtain ⟨line, hline, buffers, x, hparse, rfl⟩ :=
    Ledger.exists_line_of_has hback.accepted (hback.took type name text hforward).has
  obtain ⟨metric, hmetric, s, hs, hgetlines⟩ := message_of_line hline
  exact accepted_of_message h hnames (hmessage metric hmetric) hs hgetlines hparse

/-- A timer has several statistics, of which one arrives. -/
theorem ReadBack.no_timers (h : ledger.Processed config)
    (hnames : ∀ type key, ledger.Has type key → CleanName key)
    (hmessage : ∀ metric ∈ ms, Message ledger metric)
    (hback : ReadBack env ledger (linesAt dest (ms.flatMap (send destinations)))) :
    ∀ key, ledger.timerData.lookup key = none := by
  intro key
  by_contra hne
  obtain ⟨data, hdata⟩ := Option.ne_none_iff_exists'.mp hne
  have hfirst : ∀ stat ∈ data, data.keys.head? = some stat := by
    intro stat hstat
    obtain ⟨value, hvalue⟩ := UnorderedMap.exists_lookup hstat
    have hpoint : ∀ {key' data' stat'}, ledger.timerData.lookup key' = some data' →
        stat' ∈ data' → point ∉ stat' := fun hdata' hstat' =>
      notMem_of_forall (h.statNames hdata' _ hstat') (by decide)
    rcases hback.sender h hnames hmessage (.stat hdata hvalue) with ⟨htype, -⟩ | hsender
    · cases htype
    · obtain ⟨key', data', stat', hdata', hhead, hname⟩ := hsender
      have hstat' : stat' ∈ data' := AList.mem_keys.mpr (List.mem_of_head? hhead)
      have hname' : key ++ point :: stat = key' ++ point :: stat' := by
        simpa [ascii, point] using hname
      obtain ⟨rfl, rfl⟩ := append_cons_inj_right (hpoint hdata hstat) (hpoint hdata' hstat') hname'
      rw [hdata] at hdata'
      cases hdata'
      exact hhead
  obtain ⟨s, hs, s', hs', hss'⟩ := h.exists_two_stats hdata
  exact hss' (Option.some.inj ((hfirst s hs).symm.trans (hfirst s' hs')))

theorem no_message_of_nothing (h : ledger.Processed config)
    (hnothing : ∀ type key, ¬ledger.Has type key) (metric : Bytes) : ¬Message ledger metric := by
  intro hmetric
  cases hmetric with
  | counter _ _ hkey => exact hnothing .counter _ hkey
  | timer hdata =>
    exact hnothing .timer _ ((h.mem_timerData _).mp (UnorderedMap.mem_of_lookup hdata))
  | gauge _ hkey => exact hnothing .gauge _ hkey
  | set _ hkey => exact hnothing .set _ hkey

theorem not_forwarded_of_nothing (h : ledger.Processed config)
    (hnothing : ∀ type key, ¬ledger.Has type key) (type : MetricType) (name text : Bytes) :
    ¬Forwarded ledger type name text := by
  intro hforward
  cases hforward with
  | rate hkey _ => exact hnothing .counter _ hkey
  | count hvalue => exact hnothing .counter _ (UnorderedMap.mem_of_lookup hvalue)
  | stat hdata _ =>
    exact hnothing .timer _ ((h.mem_timerData _).mp (UnorderedMap.mem_of_lookup hdata))
  | gauge hvalue => exact hnothing .gauge _ (UnorderedMap.mem_of_lookup hvalue)
  | set hvalues => exact hnothing .set _ (UnorderedMap.mem_of_lookup hvalues)

/-- What is read back of a flush with messages is not what was to be forwarded. -/
theorem ReadBack.nothing (h : ledger.Processed config)
    (hnames : ∀ type key, ledger.Has type key → CleanName key)
    (hmessage : ∀ metric ∈ ms, Message ledger metric)
    (hback : ReadBack env ledger (linesAt dest (ms.flatMap (send destinations)))) :
    ∀ type key, ¬ledger.Has type key := by
  have hnone := hback.no_timers h hnames hmessage
  -- what is held comes from the first line of a counter
  have hrate : ∀ {type name text}, Forwarded ledger type name text →
      type = .counter ∧ ∃ key ∈ ledger.counters, name = key ++ ascii ".rate" := by
    intro type name text hforward
    rcases hback.sender h hnames hmessage hforward with hrate | ⟨key, data, stat, hdata, -⟩
    · exact hrate
    · rw [hnone key] at hdata
      cases hdata
  intro type key hkey
  cases type with
  | counter =>
    obtain ⟨value, hvalue⟩ := UnorderedMap.exists_lookup hkey
    obtain ⟨-, key', -, hname⟩ := hrate (.count hvalue)
    have hstat : key ++ point :: ascii "count" = key' ++ point :: ascii "rate" := hname
    exact absurd (append_cons_inj_right (by decide) (by decide) hstat).2 (by decide)
  | timer =>
    obtain ⟨data, hdata⟩ := UnorderedMap.exists_lookup ((h.mem_timerData key).mpr hkey)
    rw [hnone key] at hdata
    cases hdata
  | gauge =>
    obtain ⟨value, hvalue⟩ := UnorderedMap.exists_lookup hkey
    cases (hrate (.gauge hvalue)).1
  | set =>
    obtain ⟨values, hvalues⟩ := UnorderedMap.exists_lookup hkey
    cases (hrate (.set hvalues)).1

/-- A flush of an empty ledger sends nothing. -/
theorem readBack_of_nothing (h : ledger.Processed config)
    (hnothing : ∀ type key, ¬ledger.Has type key)
    (hmessage : ∀ metric ∈ ms, Message ledger metric) :
    ReadBack env ledger (linesAt dest (ms.flatMap (send destinations))) := by
  have hms : ms = [] := List.eq_nil_iff_forall_not_mem.mpr fun metric hmetric =>
    no_message_of_nothing h hnothing metric (hmessage metric hmetric)
  subst hms
  constructor
  case accepted => exact fun line hline => by cases hline
  case took =>
    exact fun type name text hforward =>
      absurd hforward (not_forwarded_of_nothing h hnothing type name text)
  case only => exact fun type name hname => by cases type <;> cases hname

/-- **The round trip** through a flush succeeds for empty ledgers only. -/
theorem readBack_iff (env : Env R) (destinations : List Dest) (dest : Dest)
    (h : ledger.Processed config)
    (hnames : ∀ type key, ledger.Has type key → colon ∉ key ∧ newline ∉ key) :
    ∃ sent, flushStats destinations ledger = some sent ∧
      (ReadBack env ledger (linesAt dest sent) ↔ ∀ type key, ¬ledger.Has type key) := by
  obtain ⟨ms, hms, hmessage⟩ := exists_metrics h
  refine ⟨ms.flatMap (send destinations), by rw [flushStats, hms]; rfl, ?_, ?_⟩
  · intro hback
    exact hback.nothing h hnames hmessage
  · intro hnothing
    exact readBack_of_nothing h hnothing hmessage

end Ledgers

theorem readBack_iff_counter :
    ∃ sent, flushStats [()] (Ledger.flushed {} [ascii "a:1|c"]) = some sent ∧
      (ReadBack ⟨{}, lexicalCast⟩ (Ledger.flushed {} [ascii "a:1|c"]) (linesAt () sent) ↔
        ∀ type key, ¬(Ledger.flushed {} [ascii "a:1|c"]).Has type key) := by
  refine readBack_iff ⟨{}, lexicalCast⟩ [()] () (Ledger.processed_flushed _ _ _) ?_
  intro type key hkey
  have hcounters : ∀ k ∈ (Ledger.flushed {} [ascii "a:1|c"]).counters.keys,
      colon ∉ k ∧ newline ∉ k := by
    decide +kernel
  cases type with
  | counter => exact hcounters key hkey
  | timer | gauge | set => cases hkey

/-- The only destination is sent the two lines of a counter, of which the second
has lost its type. -/
theorem not_readBack_counter :
    (Ledger.flushed {} [ascii "a:1|c"]).Processed {} ∧
      (Ledger.flushed {} [ascii "a:1|c"]).counters.keys = [ascii "a"] ∧
      (Ledger.flushed {} [ascii "a:1|c"]).counters.lookup (ascii "a") = some (.fin 1) ∧
      flushStats [()] (Ledger.flushed {} [ascii "a:1|c"]) =
        some [((), ascii "a.rate:0.100000|c\na.count:1.000000|")] ∧
      ¬ReadBack ⟨{}, lexicalCast⟩ (Ledger.flushed {} [ascii "a:1|c"])
        (linesAt () [((), ascii "a.rate:0.100000|c\na.count:1.000000|")]) := by
  refine ⟨Ledger.processed_flushed _ _ _, rfl, by decide +kernel, by decide +kernel, fun h => ?_⟩
  exact h.accepted (ascii "a.count:1.000000|") (by decide +kernel) rfl

end Repeater

end Statsdcc
