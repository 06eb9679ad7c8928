import Mathlib
import Statsdcc.Disjoint
import Statsdcc.Lib.Printed
import Statsdcc.Report
import Statsdcc.Totals

/-!
# What the carbon servers are told of counters

Each flush writes the value of every counter in fixed notation under a path, and the
servers add up what they read there. Names that `process_name` makes equal share a
path. Over a whole run the servers get what the lines in the flushed ledgers add under
all these names, but for what is lost in printing.

## Main definitions

- `Carbon.countRecords` — the lines of a flush under the path of some counters
- `Carbon.told` — what the servers read in them
- `lineCount` — what a line adds under these names

## Main results

- `Carbon.abs_told_sub_le` — one flush tells what the ledger holds
- `Aggregator.counts_told` — all flushes of a run tell what the lines add
-/

open Bytes

namespace Statsdcc

namespace Carbon

/-- The path of the counters with the processed name `name`. -/
def countPath (env : CarbonEnv) (name : Bytes) : Bytes :=
  env.config.prefixAll ++ env.config.prefixCounter ++ name ++ ascii ".count"

/-- The lines that the loop over the counters writes under this path. -/
def countRecords (env : CarbonEnv) (ledger : Ledger Exact) (name : Bytes) : List Record :=
  ((counterRecords env ledger).getD []).filter fun r => r.path = countPath env name

/-- What the servers read in them, together. -/
def told (env : CarbonEnv) (ledger : Ledger Exact) (name : Bytes) : ℚ :=
  ((countRecords env ledger name).map fun r => Exact.textValue r.value).sum

/-- What a counter adds under a processed name. -/
def share (env : CarbonEnv) (name key : Bytes) (x : Exact) : ℚ :=
  if processName env key = name then x.toRat else 0

/-- What some counters add under a processed name. -/
def shares (env : CarbonEnv) (name : Bytes) (counters : UnorderedMap Bytes Exact) : ℚ :=
  (counters.entries.map fun e => share env name e.1 e.2).sum

end Carbon

open Carbon

-- ════════════════════════════════════════════════════════════════════════
-- One flush
-- ════════════════════════════════════════════════════════════════════════

namespace Carbon

variable {env : CarbonEnv} {name : Bytes}

/-- Of the two lines of a counter one is under the path of its name. -/
theorem filter_counterPair (env : CarbonEnv) (name key : Bytes) (value rate : Exact) :
    (counterPair env key value rate).filter (fun r => r.path = countPath env name) =
      if processName env key = name then
        [{ key, path := countPath env name, value := CDouble.toText value }]
      else [] := by
  have hrate : env.config.prefixAll ++ env.config.prefixCounter ++ processName env key ++
      ascii ".rate" ≠ countPath env name := by
    intro heq
    have hlast := congrArg List.getLast? heq
    rw [countPath, List.getLast?_append_of_ne_nil _ (by decide),
      List.getLast?_append_of_ne_nil _ (by decide)] at hlast
    exact absurd hlast (by decide)
  have hcount : env.config.prefixAll ++ env.config.prefixCounter ++ processName env key ++
      ascii ".count" = countPath env name ↔ processName env key = name := by
    rw [countPath, List.append_cancel_right_eq, List.append_cancel_left_eq]
  rw [counterPair, List.filter_cons_of_neg (by simpa using hrate)]
  by_cases hname : processName env key = name
  · rw [if_pos hname, List.filter_cons_of_pos (by simpa using hcount.mpr hname), hcount.mpr hname]
    rfl
  · rw [if_neg hname, List.filter_cons_of_neg (by simpa using fun h => hname (hcount.mp h))]
    rfl

/-- The lines of a flush under the path, one for each counter with the name. -/
theorem countRecords_eq {ledger : Ledger Exact} (h : ledger.Rated) :
    countRecords env ledger name =
      (ledger.counters.entries.filter fun e => processName env e.1 = name).map fun e =>
        { key := e.1, path := countPath env name, value := CDouble.toText e.2 } := by
  have hloop := h.mapM_rates (counterPair env)
  rw [countRecords, counterRecords, hloop, Option.map_some, Option.getD_some]
  induction ledger.counters.entries with
  | nil => rfl
  | cons e es ih =>
    rw [List.map_cons, List.flatten_cons, List.filter_append, ih, filter_counterPair]
    by_cases hname : processName env e.1 = name
    · rw [if_pos hname, List.filter_cons_of_pos (by simpa using hname)]
      rfl
    · rw [if_neg hname, List.filter_cons_of_neg (by simpa using hname)]
      rfl

/-- **One flush tells what the ledger holds**, up to printing. -/
theorem abs_told_sub_le {ledger : Ledger Exact} (h : ledger.Rated)
    (hfinite : EveryEntry IsNumber ledger.counters) :
    |told env ledger name - shares env name ledger.counters| ≤
      (countRecords env ledger name).length * (1 / (2 * 10 ^ 6)) := by
  have hvalues : ∀ e ∈ ledger.counters.entries, IsNumber e.2 := fun e he =>
    hfinite e.1 e.2 (AList.mem_lookup_iff.mpr he)
  rw [told, countRecords_eq h, shares, List.map_map, List.length_map]
  generalize ledger.counters.entries = es at hvalues
  induction es with
  | nil => simp
  | cons e es ih =>
    have hrest := ih fun e' he' => hvalues e' (List.mem_cons_of_mem _ he')
    rw [List.map_cons, List.sum_cons, share]
    by_cases hname : processName env e.1 = name
    · have hone : |Exact.textValue (CDouble.toText e.2) - e.2.toRat| ≤ 1 / (2 * 10 ^ 6) := by
        obtain ⟨q, hq⟩ := hvalues e List.mem_cons_self
        rw [hq]
        exact (Exact.textValue_toText q).symm ▸ Exact.abs_printed_sub_le q
      rw [List.filter_cons_of_pos (by simpa using hname), List.map_cons, List.sum_cons,
        if_pos hname, List.length_cons, Nat.cast_succ, add_mul, one_mul, add_sub_add_comm]
      calc _ ≤ _ := abs_add_le _ _
        _ ≤ _ := (add_le_add hone hrest).trans_eq (add_comm _ _)
    · rw [List.filter_cons_of_neg (by simpa using hname), if_neg hname, zero_add]
      exact hrest

end Carbon

-- ════════════════════════════════════════════════════════════════════════
-- The lines behind a ledger
-- ════════════════════════════════════════════════════════════════════════

/-- What a line adds under a processed name: to the counter of its own name, or to that
of the bad lines. -/
def lineCount (env : Env Exact) (carbon : CarbonEnv) (name line : Bytes) : ℚ :=
  share carbon name (touchedKey env line)
    ((lineTally env line (touchedKey env line)).counter.getD 0)

def lineCounts (env : Env Exact) (carbon : CarbonEnv) (name : Bytes) (lines : Multiset Bytes) : ℚ :=
  (lines.map (lineCount env carbon name)).sum

/-- The line keeps the counters finite. -/
def FiniteLine (env : Env Exact) (line : Bytes) : Prop :=
  CounterValue IsNumber env.lexicalCast line ∧ (Sampled env.lexicalCast line → GoodRate line)

section Lines

variable {env : Env Exact} {carbon : CarbonEnv} {name : Bytes}

theorem lineCounts_add (lines lines' : Multiset Bytes) :
    lineCounts env carbon name (lines + lines') =
      lineCounts env carbon name lines + lineCounts env carbon name lines' := by
  rw [lineCounts, Multiset.map_add, Multiset.sum_add, lineCounts, lineCounts]

theorem lineCounts_sum {ι : Type*} (s : Finset ι) (lines : ι → Multiset Bytes) :
    lineCounts env carbon name (∑ i ∈ s, lines i) =
      ∑ i ∈ s, lineCounts env carbon name (lines i) := by
  classical
  induction s using Finset.induction_on with
  | empty => rfl
  | insert i s hi ih => rw [Finset.sum_insert hi, Finset.sum_insert hi, lineCounts_add, ih]

/-- Adding to one counter. -/
theorem shares_modify {counters : UnorderedMap Bytes Exact} (hfinite : EveryEntry IsNumber counters)
    (key : Bytes) {y : Exact} (hy : IsNumber y) :
    shares carbon name (counters.modify key 0 (· + y)) =
      shares carbon name counters + share carbon name key y := by
  refine UnorderedMap.sum_modify counters key 0 (· + y) (share carbon name) ?_
  obtain ⟨q, rfl⟩ := hy
  cases hold : counters.lookup key with
  | none => rw [Option.getD_none, Exact.zero_add, Option.elim_none, zero_add]
  | some x =>
    obtain ⟨p, rfl⟩ := hfinite key x hold
    rw [Option.getD_some, Option.elim_some, Exact.fin_add_fin, share, share, share]
    split_ifs
    · rfl
    · exact (add_zero 0).symm

/-- One line adds its count. -/
theorem shares_buffer {l : Ledger Exact} (h : l.EveryCounter IsNumber) {line : Bytes}
    (hline : FiniteLine env line) :
    shares carbon name (l.buffer env line).counters =
      shares carbon name l.counters + lineCount env carbon name line := by
  rw [lineCount, lineTally, touchedKey]
  rcases hparse : parseLine env.lexicalCast line with _ | ⟨buffers, type, x⟩
  · rw [buffer_of_bad hparse]
    dsimp only
    rw [if_pos rfl]
    exact shares_modify h.counters _ ⟨1, rfl⟩
  · rw [buffer_of_parse hparse]
    dsimp only
    rw [if_pos rfl]
    have hsame : share carbon name buffers.nameBuffer 0 = 0 := ite_self _
    cases type with
    | counter =>
      obtain ⟨p, rfl⟩ := hline.1 buffers x hparse
      obtain ⟨q, hq, hpos⟩ := (rate_pos_iff hparse).mpr (hline.2 ⟨_, _, _, hparse, .inl rfl⟩)
      have hnumber : IsNumber (Exact.fin p * (1 / buffers.sampleRate)) := by
        rw [hq, Exact.one_div_fin hpos.ne']
        exact ⟨_, rfl⟩
      exact shares_modify h.counters _ hnumber
    | timer => exact (add_eq_left.mpr hsame).symm
    | set => exact (add_eq_left.mpr hsame).symm
    | gauge =>
      simp only [Ledger.store]
      split_ifs <;> exact (add_eq_left.mpr hsame).symm

/-- A ledger holds what its lines add. -/
theorem shares_replay {lines : List Bytes} (hlines : ∀ line ∈ lines, FiniteLine env line) :
    shares carbon name (Ledger.replay env lines).counters =
      lineCounts env carbon name ↑lines := by
  induction lines using List.reverseRecOn with
  | nil => rfl
  | append_singleton lines line ih =>
    have hfront : ∀ line' ∈ lines, FiniteLine env line' := fun line' hline' =>
      hlines line' (List.mem_append_left _ hline')
    have hfinite : (Ledger.replay env lines).EveryCounter IsNumber :=
      finiteCounters_replay (fun line' hline' => (hfront line' hline').1)
        fun line' hline' => (hfront line' hline').2
    rw [Ledger.replay_concat, shares_buffer hfinite (hlines line (by simp)), ih hfront,
      ← Multiset.coe_add, lineCounts_add]
    refine congrArg _ ?_
    simp [lineCounts]

end Lines

-- ════════════════════════════════════════════════════════════════════════
-- Whole runs
-- ════════════════════════════════════════════════════════════════════════

/-- What the servers are told of the ledgers that were handed to flusher threads. -/
def Worker.told (w : Worker Exact) (carbon : CarbonEnv) (name : Bytes) : ℚ :=
  (w.flushers.map fun f => Carbon.told carbon f.ledger name).sum

/-- The number of lines in which they are told. -/
def Worker.countLines (w : Worker Exact) (carbon : CarbonEnv) (name : Bytes) : ℕ :=
  (w.flushers.map fun f => (countRecords carbon f.ledger name).length).sum

/-- The strings of the consumed lines that are not in a ledger that was handed on. -/
def Aggregator.untold {W T : ℕ} [NeZero W] (consumer : AggregatorConsumer W)
    (s : Aggregator Exact W T) : Multiset Bytes :=
  Aggregator.strings consumer s.pending +
    ∑ i, ((s.workers i).outside + ↑((s.workers i).unflushedLines.map Prod.fst))

section Runs

variable {env : Env Exact} {carbon : CarbonEnv} {name : Bytes}

/-- All flushes of a worker tell what its flushed lines add. -/
theorem Worker.Faithful.abs_told_sub_le {w : Worker Exact} (h : w.Faithful env)
    (hlines : ∀ line ∈ w.flushedLines.map Prod.fst, FiniteLine env line) :
    |w.told carbon name - lineCounts env carbon name ↑(w.flushedLines.map Prod.fst)| ≤
      w.countLines carbon name * (1 / (2 * 10 ^ 6)) := by
  have hflushed := h.flushed
  rw [Worker.told, Worker.countLines]
  rw [Worker.flushedLines] at hlines ⊢
  generalize w.flushers = fs at hlines hflushed
  induction fs with
  | nil => simp [lineCounts]
  | cons f fs ih =>
    simp only [List.map_cons, List.flatten_cons, List.map_append, List.sum_cons] at hlines ⊢
    have hrest := ih (fun line hline => hlines line (List.mem_append_right _ hline))
      fun f' hf' => hflushed f' (List.mem_cons_of_mem _ hf')
    have hfirst : ∀ line ∈ f.lines.map Prod.fst, FiniteLine env line := fun line hline =>
      hlines line (List.mem_append_left _ hline)
    obtain ⟨elapsed, hledger⟩ := hflushed f List.mem_cons_self
    have hone : |Carbon.told carbon f.ledger name -
        lineCounts env carbon name ↑(f.lines.map Prod.fst)| ≤
          (countRecords carbon f.ledger name).length * (1 / (2 * 10 ^ 6)) := by
      rw [← shares_replay hfirst, hledger]
      have hfinite := finiteCounters_replay (fun line hline => (hfirst line hline).1)
        fun line hline => (hfirst line hline).2
      have hprocessed := Ledger.processed_flushed env (f.lines.map Prod.fst) elapsed
      exact Carbon.abs_told_sub_le hprocessed.rated hfinite.counters
    rw [← Multiset.coe_add, lineCounts_add, Nat.cast_add, add_mul, add_sub_add_comm]
    exact (abs_add_le _ _).trans (add_le_add hone hrest)

namespace Aggregator

variable {W T : ℕ} [NeZero W] {consumer : AggregatorConsumer W}

/-- A consumed line is in a flushed ledger, or is not. -/
theorem Balanced.strings_consumed {as : List (Action W T)} {s : Aggregator Exact W T}
    (h : Balanced consumer as s) (hfaithful : ∀ i, (s.workers i).Faithful env) :
    Aggregator.strings consumer ↑(consumedLines as) =
      s.untold consumer + ∑ i, ((s.workers i).flushedLines.map Prod.fst : Multiset Bytes) := by
  have hworker : ∀ i, (s.submittedTo consumer i : Multiset Bytes) = (s.workers i).outside +
      ↑((s.workers i).unflushedLines.map Prod.fst) +
      ↑((s.workers i).flushedLines.map Prod.fst) := fun i => by
    rw [h.arrived i, ← (hfaithful i).held_eq_arrived, Worker.held, Worker.outside]
  rw [h.calls, Aggregator.strings, Multiset.map_add, ← Aggregator.strings, ← Aggregator.strings,
    h.strings_submitted,
    ← sum_submittedTo consumer s, Finset.sum_congr rfl fun i _ => hworker i,
    Finset.sum_add_distrib, untold, add_assoc]

/-- **The servers are told what the lines add**: in every run, and under every processed
name, all that is read in the flushed counts and all that the strings add that are not in
a flushed ledger is what the strings of the consumed lines add, but for half a unit of the
last digit in each count. -/
theorem counts_told (env : Env Exact) (carbon : CarbonEnv) (consumer : AggregatorConsumer W)
    {s₀ s : Aggregator Exact W T} (hs₀ : s₀.Initial) (as : List (Action W T))
    (hrun : Transition.run (Aggregator.step env consumer) s₀ as = some s)
    (hlines : ∀ line ∈ strings consumer ↑(consumedLines as), FiniteLine env line) (name : Bytes) :
    |∑ i, (s.workers i).told carbon name + lineCounts env carbon name (s.untold consumer) -
        lineCounts env carbon name (strings consumer ↑(consumedLines as))| ≤
      (∑ i, (s.workers i).countLines carbon name : ℕ) * (1 / (2 * 10 ^ 6)) := by
  have hfaithful : ∀ i, (s.workers i).Faithful env := hs₀.faithful_of_run hrun
  have hstrings := (hs₀.balanced_of_run hrun).strings_consumed hfaithful
  rw [hstrings] at hlines ⊢
  have hworker : ∀ i, |(s.workers i).told carbon name -
      lineCounts env carbon name ↑((s.workers i).flushedLines.map Prod.fst)| ≤
        (s.workers i).countLines carbon name * (1 / (2 * 10 ^ 6)) := by
    intro i
    refine (hfaithful i).abs_told_sub_le fun line hline => hlines line ?_
    exact Multiset.mem_add.mpr (.inr (Multiset.mem_sum.mpr ⟨i, Finset.mem_univ i, hline⟩))
  rw [lineCounts_add, lineCounts_sum, add_comm (lineCounts env carbon name _),
    add_sub_add_right_eq_sub, ← Finset.sum_sub_distrib, Nat.cast_sum, Finset.sum_mul]
  exact (Finset.abs_sum_le_sum_abs _ _).trans (Finset.sum_le_sum fun i _ => hworker i)

/-- Two lines, the first one in a ledger that is flushed. -/
def sampledRun {W T : ℕ} [NeZero W] [NeZero T] : List (Action W T) :=
  [.consume 0 (ascii "a:4|c|@0.5"), .push 0 true, .worker 0 .pop, .worker 0 .test,
   .worker 0 .buffer, .interrupt 0, .consume 0 (ascii "a:4|c|@0.5"), .push 0 true,
   .worker 0 .pop, .worker 0 .test, .worker 0 (.process 1), .worker 0 .handOff]

theorem finiteLine_sampled : FiniteLine ⟨{}, lexicalCast⟩ (ascii "a:4|c|@0.5") := by
  constructor
  · intro buffers x hparse
    have hvalue : (parseLine lexicalCast (ascii "a:4|c|@0.5")).map (fun parsed => parsed.2.2) =
        some (Exact.fin 4) := by decide +kernel
    rw [hparse, Option.map_some, Option.some.injEq] at hvalue
    exact ⟨4, hvalue⟩
  · intro _ x hx
    have hrate : scannedRate (ascii "a:4|c|@0.5") = some (.finite (1 / 2)) := by decide +kernel
    rw [hrate, Option.mem_some_iff] at hx
    exact ⟨1 / 2, hx.symm, by norm_num⟩

theorem counts_told_sampledRun :
    ∃ s : Aggregator Exact 1 1,
      Transition.run (step ⟨{}, lexicalCast⟩ (.new {} List.length)) init sampledRun = some s ∧
      (s.workers 0).countLines ⟨{}, regexReplace, fun _ => ⟨[], 0⟩⟩ (ascii "a") = 1 ∧
      |∑ i, (s.workers i).told ⟨{}, regexReplace, fun _ => ⟨[], 0⟩⟩ (ascii "a") +
          lineCounts ⟨{}, lexicalCast⟩ ⟨{}, regexReplace, fun _ => ⟨[], 0⟩⟩ (ascii "a")
            (s.untold (.new {} List.length)) -
          lineCounts ⟨{}, lexicalCast⟩ ⟨{}, regexReplace, fun _ => ⟨[], 0⟩⟩ (ascii "a")
            (strings (W := 1) (.new {} List.length)
              ↑(consumedLines (sampledRun : List (Action 1 1))))| ≤
        (∑ i, (s.workers i).countLines ⟨{}, regexReplace, fun _ => ⟨[], 0⟩⟩ (ascii "a") : ℕ) *
          (1 / (2 * 10 ^ 6)) := by
  refine ⟨_, rfl, ?_, counts_told ⟨{}, lexicalCast⟩ _ (.new {} List.length) initial_init sampledRun
    rfl (fun line hline => ?_) (ascii "a")⟩
  · decide +kernel
  · have hall : ∀ line ∈ (consumedLines (sampledRun : List (Action 1 1))).map fun line =>
        ((AggregatorConsumer.new (W := 1) {} List.length).consume line).2,
          line = ascii "a:4|c|@0.5" := by decide
    rw [hall line hline]
    exact finiteLine_sampled

end Aggregator

end Runs

end Statsdcc
