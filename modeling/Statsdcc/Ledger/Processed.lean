import Mathlib
import Statsdcc.Ledger

/-!
# Processed ledgers

What the backends rely on in a ledger that has been processed: every counter has
a rate, the timers with statistics are the timers, and the names of the
statistics are made of few characters.

## Main results

- `timersFilled_replay` — every buffered timer has samples and a counter
- `Rated.mapM_rates` — a loop over the counters that looks up each rate
- `Processed.mem_counterRates`, `Processed.mem_timerData` — the keys of the
  computed maps
- `Processed.isStatChar` — the characters of the names of timer statistics
- `Processed.statsdMetric_eq` — the names of the ledger's own statistics
-/

open Bytes

namespace Statsdcc

/-- The characters of the name of a timer statistic. -/
def isStatChar (c : Byte) : Bool := (isPlain c && c ≠ point) || c = underscore

variable {R : Type} [CDouble R]

namespace Ledger

/-- A ledger that has only buffered lines. -/
structure Unprocessed (l : Ledger R) : Prop where
  counterRates : l.counterRates = ∅
  timerData : l.timerData = ∅
  statsdMetrics : ∀ k ∈ l.statsdMetrics, k = ascii "metrics_processed"

/-- A ledger that was processed after it had buffered lines. -/
def Processed (config : AggregatorConfig) (l : Ledger R) : Prop :=
  ∃ (l₀ : Ledger R) (elapsed : ℤ), l₀.Unprocessed ∧ l = l₀.process config elapsed

theorem unprocessed_buffer {env : Env R} {l : Ledger R} (h : l.Unprocessed) (metric : Bytes) :
    (l.buffer env metric).Unprocessed := by
  have hcount : ∀ k ∈ l.countCall.statsdMetrics, k = ascii "metrics_processed" := by
    intro k hk
    rcases (UnorderedMap.mem_modify _ _ _ _ _).mp hk with hk | hk
    · exact hk
    · exact h.statsdMetrics k hk
  have hstore : ∀ (buffers : ScanBuffers R) (type : MetricType) (x : R),
      (l.countCall.store metric buffers type x).Unprocessed := by
    intro buffers type x
    cases type with
    | gauge =>
      simp only [store]
      split <;> exact ⟨h.counterRates, h.timerData, hcount⟩
    | _ => exact ⟨h.counterRates, h.timerData, hcount⟩
  simp only [buffer]
  split
  · exact ⟨h.counterRates, h.timerData, hcount⟩
  · exact hstore _ _ _

theorem unprocessed_replay (env : Env R) (lines : List Bytes) :
    (Ledger.replay env lines).Unprocessed := by
  have hnew : ({} : Ledger R).Unprocessed := ⟨rfl, rfl, fun k hk => by cases hk⟩
  exact replay_induction hnew fun l metric _ h => unprocessed_buffer h metric

omit [CDouble R] in
/-- Every timer has a counter and at least one sample. -/
structure TimersFilled (l : Ledger R) : Prop where
  counters : ∀ key, key ∈ l.timerCounters ↔ key ∈ l.timers
  samples : ∀ key samples, l.timers.lookup key = some samples → samples ≠ []

omit [CDouble R] in
/-- A step that does not touch the timers. -/
theorem TimersFilled.of_eq {l l' : Ledger R} (h : l.TimersFilled) (htimers : l'.timers = l.timers)
    (hcounters : l'.timerCounters = l.timerCounters) : l'.TimersFilled where
  counters := by rw [htimers, hcounters]; exact h.counters
  samples := by rw [htimers]; exact h.samples

theorem TimersFilled.store {l : Ledger R} (h : l.TimersFilled) (metric : Bytes)
    (buffers : ScanBuffers R) (type : MetricType) (x : R) :
    (l.store metric buffers type x).TimersFilled := by
  cases type with
  | timer =>
    constructor
    case counters =>
      intro key
      show key ∈ l.timerCounters.modify _ _ _ ↔ key ∈ l.timers.modify _ _ _
      rw [UnorderedMap.mem_modify, UnorderedMap.mem_modify, h.counters]
    case samples =>
      intro key samples hsamples
      change (l.timers.modify buffers.nameBuffer [] (· ++ [x])).lookup key = some samples
        at hsamples
      by_cases hkey : key = buffers.nameBuffer
      · subst hkey
        rw [UnorderedMap.lookup_modify_self, Option.some.injEq] at hsamples
        rw [← hsamples]
        exact List.append_ne_nil_of_right_ne_nil _ (List.cons_ne_nil _ _)
      · rw [UnorderedMap.lookup_modify_ne _ hkey] at hsamples
        exact h.samples key samples hsamples
  | gauge =>
    simp only [Ledger.store]
    split <;> exact h.of_eq rfl rfl
  | counter | set => exact h.of_eq rfl rfl

/-- A rejected line writes a counter and leaves the timers alone. -/
theorem TimersFilled.buffer {l : Ledger R} (h : l.TimersFilled) (env : Env R) (metric : Bytes) :
    (l.buffer env metric).TimersFilled := by
  have hcount : l.countCall.TimersFilled := h.of_eq rfl rfl
  simp only [Ledger.buffer]
  split
  · exact hcount.of_eq rfl rfl
  · exact hcount.store _ _ _ _

theorem timersFilled_replay (env : Env R) (lines : List Bytes) :
    (Ledger.replay env lines).TimersFilled := by
  have hnew : ({} : Ledger R).TimersFilled := ⟨fun key => Iff.rfl, fun key samples h => by cases h⟩
  exact replay_induction hnew fun l metric _ h => h.buffer env metric

/-- The subscripts of `process` read counters that exist, and change nothing. -/
theorem lookup_readTimerCounters {timerCounters : UnorderedMap Bytes R}
    {timers : UnorderedMap Bytes (List R)} (h : ∀ key ∈ timers, key ∈ timerCounters) (key : Bytes) :
    (readTimerCounters timerCounters timers).lookup key = timerCounters.lookup key := by
  have hfold : ∀ (es : List (Σ _ : Bytes, List R)) (acc : UnorderedMap Bytes R),
      (∀ e ∈ es, e.1 ∈ acc) →
      (es.foldl (fun acc timer => if timer.1 = [] then acc else acc.modify timer.1 0 id)
        acc).lookup key = acc.lookup key := by
    intro es
    induction es with
    | nil => exact fun acc _ => rfl
    | cons e es ih =>
      intro acc hes
      have hhead : e.1 ∈ acc := hes e (List.mem_cons_self ..)
      have htail : ∀ e' ∈ es, e'.1 ∈ acc := fun e' he' => hes e' (List.mem_cons_of_mem _ he')
      rw [List.foldl_cons]
      by_cases hempty : e.1 = []
      · rw [if_pos hempty]
        exact ih acc htail
      · rw [if_neg hempty,
          ih _ fun e' he' => (UnorderedMap.mem_modify ..).mpr (.inr (htail e' he'))]
        by_cases hkey : key = e.1
        · obtain ⟨x, hx⟩ := UnorderedMap.exists_lookup hhead
          rw [hkey, UnorderedMap.lookup_modify_self, hx]
          rfl
        · exact UnorderedMap.lookup_modify_ne _ hkey _ _
  exact hfold timers.entries timerCounters fun e he => h e.1 (List.mem_map_of_mem he)

/-- The ledger that a flusher thread is given has been processed. -/
theorem processed_flushed (env : Env R) (lines : List Bytes) (elapsed : ℤ) :
    ((Ledger.replay env lines).process env.config elapsed).copy.Processed env.config := by
  obtain ⟨hrates, hdata, hstats⟩ := unprocessed_replay env lines
  exact ⟨(Ledger.replay env lines).copy, elapsed, ⟨hrates, hdata, hstats⟩, rfl⟩

/-- The ledger that is flushed after the lines, in exact arithmetic. -/
def flushed (config : AggregatorConfig) (lines : List Bytes) : Ledger Exact :=
  ((Ledger.replay ⟨config, lexicalCast⟩ lines).process config 0).copy

/-- Every counter has a rate, which is what the backends rely on. -/
def Rated (ledger : Ledger R) : Prop := ∀ key ∈ ledger.counters, key ∈ ledger.counterRates

/-- `process` gives every counter a rate. -/
theorem rated_process (config : AggregatorConfig) (elapsed : ℤ) (ledger : Ledger R) :
    (ledger.process config elapsed).Rated := fun _ hkey =>
  (UnorderedMap.mem_insertEach _ _ _ _).mpr (.inl hkey)

/-- The loop over the counters of a flush: `counter_rates.at` throws for none of them. -/
theorem Rated.mapM_rates {l : Ledger R} (h : l.Rated) {β : Type} (f : Bytes → R → R → β) :
    (l.counters.entries.mapM fun e => (l.counterRates.lookup e.1).map (f e.1 e.2)) =
      some (l.counters.entries.map fun e =>
        f e.1 e.2 ((l.counterRates.lookup e.1).getD 0)) := by
  apply UnorderedMap.mapM_eq_some_map
  intro e he
  obtain ⟨rate, hrate⟩ := UnorderedMap.exists_lookup (h e.1 (List.mem_map_of_mem he))
  rw [hrate]
  rfl

namespace Processed

variable {config : AggregatorConfig} {l : Ledger R}

/-- Every counter, and nothing else, has a rate. -/
theorem mem_counterRates (h : l.Processed config) (k : Bytes) :
    k ∈ l.counterRates ↔ k ∈ l.counters := by
  obtain ⟨l₀, elapsed, hl₀, rfl⟩ := h
  show k ∈ UnorderedMap.insertEach l₀.counterRates l₀.counters _ ↔ k ∈ l₀.counters
  rw [UnorderedMap.mem_insertEach, hl₀.counterRates]
  simp

theorem rated (h : l.Processed config) : l.Rated := fun key => (h.mem_counterRates key).mpr

/-- Every timer, and nothing else, has statistics. -/
theorem mem_timerData (h : l.Processed config) (k : Bytes) : k ∈ l.timerData ↔ k ∈ l.timers := by
  obtain ⟨l₀, elapsed, hl₀, rfl⟩ := h
  show k ∈ UnorderedMap.insertEach l₀.timerData l₀.timers _ ↔ k ∈ l₀.timers
  rw [UnorderedMap.mem_insertEach, hl₀.timerData]
  simp

/-- The statistics of a timer are computed from its samples. -/
theorem exists_timerStats (h : l.Processed config) {k : Bytes} {data : UnorderedMap Bytes R}
    (hk : l.timerData.lookup k = some data) :
    ∃ samples timerCounter, data = timerStats config k samples timerCounter := by
  obtain ⟨l₀, elapsed, hl₀, rfl⟩ := h
  change (UnorderedMap.insertEach l₀.timerData l₀.timers _).lookup k = some data at hk
  rw [UnorderedMap.lookup_insertEach, hl₀.timerData] at hk
  cases hsamples : l₀.timers.lookup k with
  | none => simp [hsamples] at hk
  | some samples =>
    simp only [hsamples, Option.map_some, Option.some_or, Option.some.injEq] at hk
    exact ⟨samples, _, hk.symm⟩

theorem statsdMetric_eq (h : l.Processed config) {k : Bytes} (hk : k ∈ l.statsdMetrics) :
    k = ascii "metrics_processed" ∨ k = ascii "processing_time" := by
  obtain ⟨l₀, elapsed, hl₀, rfl⟩ := h
  rcases (AList.mem_insert _).mp hk with hk | hk
  · exact .inr hk
  · exact .inl (hl₀.statsdMetrics k hk)

end Processed

end Ledger

theorem isPlain_gText (n : ℕ) : ∀ c ∈ gText n, isPlain c = true := by
  have hdigits : ∀ ds : Digits, ∀ c ∈ ds.text, isPlain c = true := by
    intro ds c hc
    obtain ⟨d, -, rfl⟩ := List.mem_map.mp hc
    exact isPlain_byte d
  have hscientific : ∀ (digits : Digits) (e : ℕ),
      ∀ c ∈ Digits.text (digits.take 1) ++
          (if digits.tail = [] then [] else point :: Digits.text digits.tail) ++ ascii "e+" ++
          (if e < 10 then ascii "0" else []) ++ natText e, isPlain c = true := by
    intro digits e c hc
    simp only [List.mem_append] at hc
    rcases hc with (((hc | hc) | hc) | hc) | hc
    · exact hdigits _ c hc
    · split at hc
      · cases hc
      · rcases List.mem_cons.mp hc with rfl | hc
        · decide
        · exact hdigits _ c hc
    · have hall : ∀ c ∈ ascii "e+", isPlain c = true := List.all_eq_true.mp rfl
      exact hall c hc
    · split at hc
      · have hall : ∀ c ∈ ascii "0", isPlain c = true := List.all_eq_true.mp rfl
        exact hall c hc
      · cases hc
    · exact isPlain_natText hc
  intro c hc
  rw [gText] at hc
  split at hc
  · exact isPlain_natText hc
  · exact hscientific _ _ c hc

theorem isStatChar_cleanPct (n : ℕ) : ∀ c ∈ cleanPct n, isStatChar c = true := by
  intro c hc
  obtain ⟨b, hb, rfl⟩ := List.mem_map.mp hc
  have hplain := isPlain_gText n b hb
  split
  · rfl
  · rename_i hpoint
    simp [isStatChar, hplain, hpoint]

/-- The names in the map are names of statistics. -/
def StatNames (data : UnorderedMap Bytes R) : Prop := ∀ k ∈ data, ∀ c ∈ k, isStatChar c = true

omit [CDouble R] in
theorem StatNames.insert {data : UnorderedMap Bytes R} (h : StatNames data) {k : Bytes}
    (hk : ∀ c ∈ k, isStatChar c = true) (x : R) : StatNames (AList.insert k x data) := by
  intro k' hk'
  rcases (AList.mem_insert _).mp hk' with rfl | hk'
  · exact hk
  · exact h k' hk'

theorem statNames_percentileStep (values : List R) {acc : R × UnorderedMap Bytes R}
    (h : StatNames acc.2) (threshold : ℤ) :
    StatNames (percentileStep values acc threshold).2 := by
  have hname : ∀ word : Bytes, word.all isStatChar = true →
      ∀ c ∈ word ++ cleanPct threshold.natAbs, isStatChar c = true := by
    intro word hword c hc
    rcases List.mem_append.mp hc with hc | hc
    · exact List.all_eq_true.mp hword c hc
    · exact isStatChar_cleanPct _ c hc
  have hskip : ∀ (p : Prop) [Decidable p] (acc' : R × UnorderedMap Bytes R),
      StatNames acc'.2 → StatNames (if p then acc else acc').2 := by
    intro p _ acc' hacc
    split
    · exact h
    · exact hacc
  refine hskip _ _ ?_
  exact (((h.insert (hname (ascii "upper_") rfl) _).insert (hname (ascii "count_") rfl) _).insert
    (hname (ascii "sum_") rfl) _).insert (hname (ascii "mean_") rfl) _

theorem statNames_timerStats (config : AggregatorConfig) (key : Bytes) (samples : List R)
    (timerCounter : R) : StatNames (timerStats config key samples timerCounter) := by
  have hempty : StatNames (∅ : UnorderedMap Bytes R) := fun k hk => by cases hk
  have hfixed : ∀ word : Bytes, word.all isStatChar = true → ∀ c ∈ word, isStatChar c = true :=
    fun word hword => List.all_eq_true.mp hword
  have hfold : ∀ (values : List R) (percentiles : List ℤ) (acc : R × UnorderedMap Bytes R),
      StatNames acc.2 → StatNames (percentiles.foldl (percentileStep values) acc).2 := by
    intro values percentiles
    induction percentiles with
    | nil => exact fun acc h => h
    | cons threshold percentiles ih =>
      exact fun acc h => ih _ (statNames_percentileStep values h threshold)
  simp only [timerStats]
  split
  · exact (hempty.insert (hfixed _ rfl) _).insert (hfixed _ rfl) _
  · exact ((((hfold _ _ _ hempty).insert (hfixed _ rfl) _).insert (hfixed _ rfl) _).insert
      (hfixed _ rfl) _).insert (hfixed _ rfl) _

theorem exists_two_stats_timerStats (config : AggregatorConfig) (key : Bytes) (samples : List R)
    (timerCounter : R) :
    ∃ s ∈ timerStats config key samples timerCounter,
      ∃ s' ∈ timerStats config key samples timerCounter, s ≠ s' := by
  have hself : ∀ (m : UnorderedMap Bytes R) (k : Bytes) (x : R), k ∈ m.insert k x :=
    fun m k x => (AList.mem_insert m).mpr (.inl rfl)
  have hlast : ∀ (m : UnorderedMap Bytes R) (k k' : Bytes) (x x' : R), k ≠ k' →
      ∃ s ∈ (m.insert k x).insert k' x', ∃ s' ∈ (m.insert k x).insert k' x', s ≠ s' :=
    fun m k k' x x' hne =>
      ⟨k, (AList.mem_insert _).mpr (.inr (hself m k x)), k', hself _ k' x', hne⟩
  simp only [timerStats]
  split
  · exact hlast _ _ _ _ _ (by decide)
  · exact hlast _ _ _ _ _ (by decide)

/-- The names of a processed ledger's timer statistics. -/
theorem Ledger.Processed.statNames {config : AggregatorConfig} {l : Ledger R}
    (h : l.Processed config) {k : Bytes} {data : UnorderedMap Bytes R}
    (hk : l.timerData.lookup k = some data) : StatNames data := by
  obtain ⟨samples, timerCounter, rfl⟩ := h.exists_timerStats hk
  exact statNames_timerStats config k samples timerCounter

/-- A timer of a processed ledger has several statistics. -/
theorem Ledger.Processed.exists_two_stats {config : AggregatorConfig} {l : Ledger R}
    (h : l.Processed config) {k : Bytes} {data : UnorderedMap Bytes R}
    (hk : l.timerData.lookup k = some data) : ∃ s ∈ data, ∃ s' ∈ data, s ≠ s' := by
  obtain ⟨samples, timerCounter, rfl⟩ := h.exists_timerStats hk
  exact exists_two_stats_timerStats config k samples timerCounter

end Statsdcc
