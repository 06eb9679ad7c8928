import Mathlib
import Statsdcc.Aggregator
import Statsdcc.Config.Load
import Statsdcc.Lib.SizeT

/-!
# Running a loaded configuration

`main` creates one worker for each `i` in `0 ≤ i < config->workers`. The consumer
takes remainders by `config->workers`, converted to `std::size_t`, and indexes
the workers with them; `Worker::process` divides by `config->frequency`. None of
them looks at these values first.

## Main definitions

- `LoadedConfig.consumeIndex` — the index that `consume` computes
- `LoadedConfig.SafeToRun` — all indexes are in bounds and nothing is divided by zero

## Main results

- `LoadedConfig.consumeIndex_eq` — the consumer of the running aggregator takes
  this index
- `LoadedConfig.safeToRun_iff` — the documents whose configuration is safe to run
-/

open Bytes JsonValue

namespace Statsdcc

/-- The divisor of the integer division in a step of `Worker::process`. -/
def WorkerAction.divisor (config : AggregatorConfig) : WorkerAction → Option ℤ
  | clear => some config.frequency
  | _ => none

namespace LoadedConfig

/-- The number of `Worker` objects that `main` creates. -/
def workerObjects (config : LoadedConfig) : ℕ := config.workers.toInt.toNat

/-- `bad_keys_queue_hash`, an `unsigned int`. -/
def badKeysQueueHash (config : LoadedConfig) (strHash : Bytes → ℕ) : Option ℕ :=
  (SizeT.rem (strHash config.badKeysKey) (SizeT.ofInt config.workers.toInt)).map (· % 2 ^ 32)

/-- The index of the worker to which `consume` submits. -/
def consumeIndex (config : LoadedConfig) (strHash : Bytes → ℕ) (metric : Bytes) : Option ℕ :=
  match metric.idxOf? colon with
  | some pos => SizeT.rem (strHash (metric.take pos)) (SizeT.ofInt config.workers.toInt)
  | none => config.badKeysQueueHash strHash

variable {R : Type} [CDouble R]

/-- Every index of a worker is in bounds, and no divisor is zero. -/
structure SafeToRun (config : LoadedConfig) (strHash : Bytes → ℕ) (cast : Bytes → Option R) :
    Prop where
  /-- The constructor of `AggregatorConsumer`. -/
  badKeys : ∃ idx, config.badKeysQueueHash strHash = some idx ∧ idx < config.workerObjects
  consume : ∀ metric, ∃ idx, config.consumeIndex strHash metric = some idx ∧
    idx < config.workerObjects
  /-- `Worker::process`, in every run of the aggregator. -/
  process : ∀ (W T : ℕ) [NeZero W], W = config.workerObjects →
    ∀ (s₀ s s' : Aggregator R W T) (as : List (Action W T)) (i : Fin W) (a : WorkerAction),
      s₀.Initial →
      Transition.run (Aggregator.step ⟨config.toAggregatorConfig, cast⟩
        (.new config.toAggregatorConfig strHash)) s₀ as = some s →
      Aggregator.step ⟨config.toAggregatorConfig, cast⟩ (.new config.toAggregatorConfig strHash) s
        (.worker i a) = some s' →
      ∀ d ∈ a.divisor config.toAggregatorConfig, d ≠ 0

section Index

variable {config : LoadedConfig} {W : ℕ}

theorem sizeT_workers (hW : W = config.workerObjects) (hpos : 0 < W) :
    SizeT.ofInt config.workers.toInt = W := by
  rw [workerObjects] at hW
  have hlt : config.workers.toInt < 2 ^ 31 := Int32.toInt_lt _
  rw [hW, SizeT.ofInt_of_nonneg (by omega) (by omega)]

theorem badKeysQueueHash_eq (hW : W = config.workerObjects) [NeZero W] (strHash : Bytes → ℕ) :
    config.badKeysQueueHash strHash =
      some ((AggregatorConsumer.new (W := W) config.toAggregatorConfig strHash).badKeysQueueHash :
        ℕ) := by
  have hpos : 0 < W := Nat.pos_of_neZero W
  have hlt : W < 2 ^ 32 := by
    have hmax : config.workers.toInt < 2 ^ 31 := Int32.toInt_lt _
    rw [hW, workerObjects]
    omega
  have hidx : strHash config.badKeysKey % W < 2 ^ 32 := (Nat.mod_lt _ hpos).trans hlt
  rw [badKeysQueueHash, sizeT_workers hW hpos, SizeT.rem_of_pos _ hpos, Option.map_some,
    Nat.mod_eq_of_lt hidx]
  rfl

/-- The index that `consume` computes is that of the consumer of the running aggregator. -/
theorem consumeIndex_eq (hW : W = config.workerObjects) [NeZero W] (strHash : Bytes → ℕ)
    (metric : Bytes) :
    config.consumeIndex strHash metric =
      some (((AggregatorConsumer.new (W := W) config.toAggregatorConfig strHash).consume metric).1 :
        ℕ) := by
  have hpos : 0 < W := Nat.pos_of_neZero W
  rw [consumeIndex, AggregatorConsumer.consume]
  cases metric.idxOf? colon with
  | none => exact badKeysQueueHash_eq hW strHash
  | some pos =>
    show SizeT.rem _ _ = _
    rw [sizeT_workers hW hpos, SizeT.rem_of_pos _ hpos]
    rfl

end Index

/-- The steps of a flush before the division. -/
def flushToClear : List WorkerAction :=
  [.pop, .test, .process 0, .handOff, .join, .publish, .replace]

/-- A worker with a metric and a set flag reaches the division. -/
theorem exists_clear_worker (env : Env R) (id : ℕ) (metric : Bytes) :
    ∃ w : Worker R,
      Transition.run (Worker.act env)
          { id, metricsDropped := 0, metricsRate := 0, badLinesSeen := 0, workQueue := [metric],
            interruptFlag := true, epoch := 1 } flushToClear = some w ∧
        (w.act env .clear).isSome = true :=
  ⟨_, rfl, rfl⟩

/-- In some run of the aggregator a worker divides by the frequency. -/
theorem exists_clear {W : ℕ} [NeZero W] (env : Env R) (consumer : AggregatorConsumer W) :
    ∃ (as : List (Action W 1)) (i : Fin W) (s s' : Aggregator R W 1),
      Transition.run (Aggregator.step env consumer) .init as = some s ∧
        Aggregator.step env consumer s (.worker i .clear) = some s' := by
  let i := (consumer.consume []).1
  let metric := (consumer.consume []).2
  let start : Aggregator R W 1 := .init
  let ready := ((start.setServer 0 (.submit i [] metric)).setWorker i
    ((start.workers i).enqueue metric)).endCall 0 [] metric
  let flagged := ready.setWorker i (ready.workers i).interrupt
  obtain ⟨w, hw, hclear⟩ := exists_clear_worker (R := R) env (i.val + 1) metric
  obtain ⟨w', hw'⟩ := Option.isSome_iff_exists.mp hclear
  have hready : ready.workers i = (start.workers i).enqueue metric := Function.update_self _ _ _
  have hflagged : Transition.run (Aggregator.step env consumer) start
      [.consume 0 [], .push 0 true, .interrupt i] = some flagged := rfl
  have hworker : Transition.run (Worker.act env) (flagged.workers i) flushToClear = some w := by
    rw [Aggregator.setWorker_workers, Function.update_self, hready]
    exact hw
  have hact : (flagged.setWorker i w).workers i = w := Function.update_self _ _ _
  refine ⟨[.consume 0 [], .push 0 true, .interrupt i] ++ flushToClear.map (.worker i), i,
    flagged.setWorker i w, (flagged.setWorker i w).setWorker i w', ?_, ?_⟩
  · rw [Transition.run_append, hflagged, Option.bind_some]
    exact Aggregator.run_worker env consumer hworker
  · simp only [Aggregator.step, hact, hw', Option.map_some]

theorem safeToRun_of_pos {config : LoadedConfig} (hworkers : 1 ≤ config.workers.toInt)
    (hfrequency : config.frequency ≠ 0) (strHash : Bytes → ℕ) (cast : Bytes → Option R) :
    config.SafeToRun strHash cast := by
  have hpos : config.workerObjects ≠ 0 := by
    rw [workerObjects]
    omega
  have : NeZero config.workerObjects := ⟨hpos⟩
  refine ⟨⟨_, badKeysQueueHash_eq rfl strHash, Fin.isLt _⟩,
    fun metric => ⟨_, consumeIndex_eq rfl strHash metric, Fin.isLt _⟩, ?_⟩
  intro W T _ _ s₀ s s' as i a _ _ _ d hd
  cases a with
  | clear =>
    rw [WorkerAction.divisor, Option.mem_some_iff] at hd
    exact hd ▸ hfrequency
  | pop | test | process | handOff | join | publish | replace | buffer => cases hd

theorem SafeToRun.workers_pos {config : LoadedConfig} {strHash : Bytes → ℕ}
    {cast : Bytes → Option R} (h : config.SafeToRun strHash cast) : 1 ≤ config.workers.toInt := by
  obtain ⟨idx, -, hlt⟩ := h.badKeys
  rw [workerObjects] at hlt
  omega

theorem SafeToRun.frequency_ne_zero {config : LoadedConfig} {strHash : Bytes → ℕ}
    {cast : Bytes → Option R} (h : config.SafeToRun strHash cast) : config.frequency ≠ 0 := by
  have hpos : config.workerObjects ≠ 0 := by
    have := h.workers_pos
    rw [workerObjects]
    omega
  have : NeZero config.workerObjects := ⟨hpos⟩
  obtain ⟨as, i, s, s', hrun, hstep⟩ := exists_clear (R := R)
    ⟨config.toAggregatorConfig, cast⟩
    (.new (W := config.workerObjects) config.toAggregatorConfig strHash)
  exact h.process _ 1 rfl .init s s' as i .clear Aggregator.initial_init hrun hstep _ rfl

variable {V : Type} [JsonValue V]

/-- **An accepted configuration is safe to run** exactly when its `workers` is at
least one and its `frequency` is not zero. -/
theorem safeToRun_iff (json : V) (strHash : Bytes → ℕ) (cast : Bytes → Option R)
    {config : LoadedConfig} (h : LoadedConfig.ofJson json = some config) :
    config.SafeToRun strHash cast ↔
      (∃ workers, getInt json (ascii "workers") 1 = some workers ∧ 1 ≤ workers.toInt) ∧
        ∃ frequency, getInt json (ascii "frequency") 10 = some frequency ∧
          frequency.toInt ≠ 0 := by
  have hworkers := workers_of_ofJson h
  obtain ⟨frequency, hget, hfrequency⟩ := Option.map_eq_some_iff.mp (frequency_of_ofJson h)
  constructor
  · intro hsafe
    exact ⟨⟨_, hworkers, hsafe.workers_pos⟩, frequency, hget,
      hfrequency ▸ hsafe.frequency_ne_zero⟩
  · rintro ⟨⟨workers, hget', hpos⟩, frequency', hget'', hne⟩
    rw [hworkers, Option.some.injEq] at hget'
    rw [hget, Option.some.injEq] at hget''
    subst hget' hget''
    exact safeToRun_of_pos hpos (hfrequency ▸ hne) strHash cast

def threeWorkers : Json :=
  .object [(ascii "backends", .object [(ascii "stdout", .bool true)]), (ascii "frequency", .int 10),
    (ascii "servers", .object [(ascii "tcp", .object [(ascii "port", .int 9090)])]),
    (ascii "workers", .int 3)]

theorem safeToRun_threeWorkers :
    ∃ config, LoadedConfig.ofJson threeWorkers = some config ∧
      config.SafeToRun List.length (lexicalCast : Bytes → Option Exact) :=
  ⟨_, rfl, (safeToRun_iff threeWorkers List.length lexicalCast rfl).mpr
    ⟨⟨3, rfl, by decide⟩, 10, rfl, by decide⟩⟩

def noWorkers : Json := .object [(ascii "workers", .int 0)]

/-- Without workers the constructor of the consumer divides by zero. -/
theorem not_safeToRun_noWorkers :
    ∃ config, LoadedConfig.ofJson noWorkers = some config ∧
      config.badKeysQueueHash List.length = none ∧
        ¬config.SafeToRun List.length (lexicalCast : Bytes → Option Exact) := by
  refine ⟨_, rfl, rfl, ?_⟩
  intro h
  exact absurd h.workers_pos (by decide)

end LoadedConfig

end Statsdcc
