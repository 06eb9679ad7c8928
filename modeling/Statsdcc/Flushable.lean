import Mathlib
import Statsdcc.Accounting
import Statsdcc.Repeater
import Statsdcc.Stdout

/-!
# Flushable ledgers

The backends subscript the maps of a ledger with keys of its other maps, and
`process` takes the first and the last of a timer's samples. Both are safe for
every ledger that reaches a flusher thread.

## Main definitions

- `Ledger.Flushable` — the maps of a ledger agree about their keys

## Main results

- `Ledger.flushable_process` — `process` makes a ledger flushable
- `Aggregator.flushable_of_run` — every ledger handed to a flusher thread
  is flushable, and no backend throws
-/

open Bytes

namespace Statsdcc

variable {R : Type}

namespace Ledger

/-- The maps of a ledger agree about their keys. -/
structure Flushable [CDouble R] (config : AggregatorConfig) (l : Ledger R) : Prop where
  rates : ∀ key, l.counterRates.lookup key =
    (l.counters.lookup key).map (· / CDouble.ofInt config.frequency)
  timerData : ∀ key, key ∈ l.timerData ↔ key ∈ l.timers
  filled : l.TimersFilled

section

variable [CDouble R]

/-- `process` makes a ledger that has only buffered lines flushable. -/
theorem flushable_process {l : Ledger R} (hl : l.Unprocessed) (hfilled : l.TimersFilled)
    (config : AggregatorConfig) (elapsed : ℤ) :
    (l.process config elapsed).copy.Flushable config where
  rates key := by
    show (UnorderedMap.insertEach l.counterRates l.counters _).lookup key = _
    rw [UnorderedMap.lookup_insertEach, hl.counterRates, AList.lookup_empty, Option.or_none]
    rfl
  timerData key := by
    show key ∈ UnorderedMap.insertEach l.timerData l.timers _ ↔ key ∈ l.timers
    rw [UnorderedMap.mem_insertEach, hl.timerData]
    exact or_iff_left (AList.notMem_empty key)
  filled := by
    constructor
    case counters =>
      intro key
      show key ∈ readTimerCounters l.timerCounters l.timers ↔ key ∈ l.timers
      rw [← hfilled.counters, ← AList.lookup_isSome, ← AList.lookup_isSome,
        lookup_readTimerCounters fun key => (hfilled.counters key).mpr]
    case samples => exact hfilled.samples

end

end Ledger

section Runs

variable [CDouble R]

/-- No backend throws when it flushes the ledger, whatever it is configured with. -/
structure NeverThrows (l : Ledger R) : Prop where
  carbon : ∀ (env : CarbonEnv) (flusherId : ℤ) (timeStamp totalTime : ℕ),
    ∃ payloads, Carbon.flushStats env l flusherId timeStamp totalTime = some payloads
  repeater : ∀ {Dest : Type} (destinations : List Dest),
    ∃ datagrams, Repeater.flushStats destinations l = some datagrams
  stdout : ∀ (config : AggregatorConfig) (flusherId : ℤ) (timeStamp totalTime : ℕ),
    ∃ output, Stdout.flushStats config l flusherId timeStamp totalTime = some output

theorem neverThrows_of_processed {config : AggregatorConfig} {l : Ledger R}
    (h : l.Processed config) : NeverThrows l where
  carbon env flusherId timeStamp totalTime := by
    rw [Carbon.flushStats, Carbon.records_eq env h.rated]
    exact ⟨_, rfl⟩
  repeater destinations := by
    obtain ⟨metrics, hmetrics, -⟩ := Repeater.exists_metrics h
    rw [Repeater.flushStats, hmetrics]
    exact ⟨_, rfl⟩
  stdout config flusherId timeStamp totalTime := by
    rw [Stdout.flushStats, Stdout.lines_eq config h.rated]
    exact ⟨_, rfl⟩

variable {W T : ℕ} [NeZero W]

/-- **Every backend can flush every ledger it is given**, in any interleaving: the
ledgers of the flusher threads are flushable and no backend throws, and `process`
finds samples in every timer. -/
theorem Aggregator.flushable_of_run (env : Env R) (consumer : AggregatorConsumer W)
    {s₀ s : Aggregator R W T} (hs₀ : s₀.Initial) (as : List (Action W T))
    (hrun : Transition.run (Aggregator.step env consumer) s₀ as = some s) (i : Fin W) :
    (∀ f ∈ (s.workers i).flushers, f.ledger.Flushable env.config ∧ NeverThrows f.ledger) ∧
      ∀ item, (s.workers i).pc = .process item →
        ∀ key samples, (s.workers i).currentLedger.timers.lookup key = some samples →
          samples ≠ [] := by
  have hfaithful := hs₀.faithful_of_run hrun i
  constructor
  · intro f hf
    obtain ⟨elapsed, hledger⟩ := hfaithful.flushed f hf
    rw [hledger]
    constructor
    · exact Ledger.flushable_process (Ledger.unprocessed_replay env _)
        (Ledger.timersFilled_replay env _) env.config elapsed
    · exact neverThrows_of_processed (Ledger.processed_flushed env _ elapsed)
  · intro item hpc
    have hbuffered : (s.workers i).pc.processed = false := by rw [hpc]; rfl
    rw [hfaithful.buffered hbuffered]
    exact (Ledger.timersFilled_replay env _).samples

end Runs

/-- The ledger of the first line is handed off while the second one is in hand. -/
theorem Aggregator.flushable_flushRun :
    ∃ s : Aggregator Exact 1 1,
      Transition.run (Aggregator.step ⟨{}, lexicalCast⟩ (.new {} List.length)) init flushRun =
        some s ∧
      (s.workers 0).flushers.length = 1 ∧
      ∀ f ∈ (s.workers 0).flushers,
        f.ledger.Flushable {} ∧ NeverThrows f.ledger := by
  refine ⟨_, rfl, rfl, ?_⟩
  exact (flushable_of_run ⟨{}, lexicalCast⟩ (.new {} List.length) initial_init flushRun rfl 0).1

end Statsdcc
