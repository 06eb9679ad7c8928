import Mathlib
import Statsdcc.Lib.Bytes

/-!
# Configuration of the aggregator

The fields of `AggregatorConfig` that the aggregator reads while it runs, with
the defaults of its constructor. `prefixAll` is the field `prefix`; the
constructor has already put the final `.` behind each section name.
-/

open Bytes

namespace Statsdcc

/-- `configs::AggregatorConfig`. -/
structure AggregatorConfig where
  name : Bytes := ascii "statsdcc"
  prefixAll : Bytes := []
  prefixCounter : Bytes := ascii "counters."
  prefixTimer : Bytes := ascii "timers."
  prefixGauge : Bytes := ascii "gauges."
  prefixSet : Bytes := ascii "sets."
  frequency : ℤ := 10
  percentiles : List ℤ := [90]
  deriving DecidableEq

/-- The counter in which a ledger counts the lines it rejects. -/
def AggregatorConfig.badLinesSeen (config : AggregatorConfig) : Bytes :=
  config.name ++ ascii ".bad_lines_seen"

end Statsdcc
