import Mathlib
import Statsdcc.Consumer
import Statsdcc.Ledger.Entries

/-!
# Sharding over workers

Every worker has its own ledger, and `consume` decides which lines reach which
worker. All lines of one name reach the same worker, so that the ledger of that
worker agrees, on that name, with one ledger that saw every line.

## Main results

- `entries_replay_shard` — the worker that owns a name holds what a single
  ledger would hold under it
-/

open Bytes

namespace Statsdcc

variable {R : Type} [CDouble R] {W : ℕ} [NeZero W]

/-- The strings submitted to worker `i`, in order. -/
def AggregatorConsumer.shard (consumer : AggregatorConsumer W) (lines : List Bytes) (i : Fin W) :
    List Bytes :=
  ((lines.map consumer.consume).filter (·.1 = i)).map (·.2)

/-- A line with a colon joins the shard of the worker that owns its name. -/
theorem AggregatorConsumer.shard_cons (consumer : AggregatorConsumer W) {metric : Bytes}
    (hnul : nul ∉ metric) (hcolon : colon ∈ metric) (lines : List Bytes) (i : Fin W) :
    consumer.shard (metric :: lines) i =
      if consumer.workerOf (lineName metric) = i then metric :: consumer.shard lines i
      else consumer.shard lines i := by
  have hconsume : consumer.consume metric = (consumer.workerOf (lineName metric), metric) := by
    rw [consumer.consume_of_colon hcolon, cStr_eq_self hnul, lineName]
  simp only [shard, List.map_cons, hconsume, List.filter_cons, decide_eq_true_eq]
  split <;> simp_all

/-- The lines that go to other workers do not touch the entries of a name. -/
theorem foldl_entries_shard (consumer : AggregatorConsumer W) (cast : Bytes → Option R)
    {lines : List Bytes} (hnul : ∀ metric ∈ lines, nul ∉ metric)
    (hcolon : ∀ metric ∈ lines, colon ∈ metric) (k : Bytes) (e : Entries R) :
    (consumer.shard lines (consumer.workerOf k)).foldl (Entries.buffer cast k) e =
      lines.foldl (Entries.buffer cast k) e := by
  induction lines generalizing e with
  | nil => rfl
  | cons metric lines ih =>
    have hih := ih (fun m hm => hnul m (by simp [hm])) fun m hm => hcolon m (by simp [hm])
    rw [consumer.shard_cons (hnul metric (by simp)) (hcolon metric (by simp)), List.foldl_cons]
    split
    · rw [List.foldl_cons, hih]
    · rename_i hworker
      have hk : k ≠ lineName metric := fun h => hworker (by rw [h])
      rw [Entries.buffer_of_ne (hnul metric (by simp)) hk, hih]

/-- **Sharding refines one ledger**: the ledger of the worker that owns a name
holds under it what one ledger holds that buffers every line. -/
theorem entries_replay_shard (env : Env R) (strHash : Bytes → ℕ) {lines : List Bytes}
    (hnul : ∀ metric ∈ lines, nul ∉ metric) (hcolon : ∀ metric ∈ lines, colon ∈ metric)
    {k : Bytes} (hk : k ≠ env.config.badLinesSeen) :
    (Ledger.replay env
        ((AggregatorConsumer.new (W := W) env.config strHash).shard lines
          (Fin.ofNat W (strHash k)))).entries k =
      (Ledger.replay env lines).entries k := by
  rw [entries_replay hk, entries_replay hk]
  exact foldl_entries_shard (AggregatorConsumer.new (W := W) env.config strHash) env.lexicalCast
    hnul hcolon k {}

/-- Two workers, a hash by length, and a counter next to a timer of another
name. -/
theorem entries_replay_shard_two :
    (Ledger.replay (R := Exact) ⟨{}, lexicalCast⟩
        ((AggregatorConsumer.new (W := 2) {} List.length).shard
          [ascii "a:1|c", ascii "bb:2|ms", ascii "a:3|c"]
          (Fin.ofNat 2 (ascii "a").length))).entries (ascii "a") =
      (Ledger.replay ⟨{}, lexicalCast⟩
        [ascii "a:1|c", ascii "bb:2|ms", ascii "a:3|c"]).entries (ascii "a") :=
  entries_replay_shard ⟨{}, lexicalCast⟩ List.length (by decide) (by decide) (by decide)

end Statsdcc
