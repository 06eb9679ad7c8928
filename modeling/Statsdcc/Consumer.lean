import Mathlib
import Statsdcc.Config

/-!
# The aggregator's consumer

`AggregatorConsumer::consume` picks a worker for a line by a hash of the text
before its first colon and submits a copy of the line to it. A line without a
colon is replaced by the `bad_keys` metric, whose worker is computed once.
-/

open Bytes

namespace Statsdcc

/-- The data members of `AggregatorConsumer`, for `W` workers. -/
structure AggregatorConsumer (W : ℕ) where
  strHash : Bytes → ℕ
  badKeysMetric : Bytes
  badKeysQueueHash : Fin W

section

variable {W : ℕ} [NeZero W]

/-- `config->name + ".bad_keys"`. -/
def AggregatorConfig.badKeysKey (config : AggregatorConfig) : Bytes :=
  config.name ++ ascii ".bad_keys"

/-- The constructor. -/
def AggregatorConsumer.new (config : AggregatorConfig) (strHash : Bytes → ℕ) :
    AggregatorConsumer W where
  strHash := strHash
  badKeysMetric := config.badKeysKey ++ ascii ":1|c"
  badKeysQueueHash := Fin.ofNat W (strHash config.badKeysKey)

/-- The worker that owns a name. -/
def AggregatorConsumer.workerOf (consumer : AggregatorConsumer W) (name : Bytes) : Fin W :=
  Fin.ofNat W (consumer.strHash name)

/-- `consume`: the index of the worker and the string submitted to it. -/
def AggregatorConsumer.consume (consumer : AggregatorConsumer W) (metric : Bytes) :
    Fin W × Bytes :=
  match metric.idxOf? colon with
  | some pos => (consumer.workerOf (metric.take pos), cStr metric)
  | none => (consumer.badKeysQueueHash, cStr consumer.badKeysMetric)

/-- A line with a colon goes to the worker of the text before it. -/
theorem AggregatorConsumer.consume_of_colon (consumer : AggregatorConsumer W) {metric : Bytes}
    (h : colon ∈ metric) :
    consumer.consume metric = (consumer.workerOf (metric.takeWhile (· ≠ colon)), cStr metric) := by
  rw [consume]
  cases hpos : metric.idxOf? colon with
  | none => exact absurd h (List.idxOf?_eq_none_iff.mp hpos)
  | some pos => simp only [take_idxOf_eq_takeWhile hpos]

theorem AggregatorConsumer.consume_of_not_colon (consumer : AggregatorConsumer W) {metric : Bytes}
    (h : colon ∉ metric) :
    consumer.consume metric = (consumer.badKeysQueueHash, cStr consumer.badKeysMetric) := by
  rw [consume, List.idxOf?_eq_none_iff.mpr h]

end

end Statsdcc
