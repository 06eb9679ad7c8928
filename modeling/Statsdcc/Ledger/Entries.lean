import Mathlib
import Statsdcc.Ledger.Line

/-!
# A ledger seen from one metric name

`Ledger.entries l k` is everything that the maps of `l` hold under the name `k`.
A line acts on it through the name alone: the line's own name takes the effect
of `Ledger.store`, and every other name keeps its entries.

## Main results

- `entries_store` — one stored line changes the entries of one name
- `entries_buffer` — `buffer` commutes with the projection to a name
- `entries_replay` — and so does a whole sequence of lines
-/

open Bytes

namespace Statsdcc

variable {R : Type}

/-- The entries of one name in the maps that `buffer` writes. -/
structure Entries (R : Type) where
  frequency : Option ℤ := none
  counter : Option R := none
  timer : Option (List R) := none
  timerCounter : Option R := none
  gauge : Option R := none
  set : Option (Finset Bytes) := none
  deriving DecidableEq

def Ledger.entries (l : Ledger R) (k : Bytes) : Entries R where
  frequency := l.frequency.lookup k
  counter := l.counters.lookup k
  timer := l.timers.lookup k
  timerCounter := l.timerCounters.lookup k
  gauge := l.gauges.lookup k
  set := l.sets.lookup k

@[simp] theorem entries_new (k : Bytes) : ({} : Ledger R).entries k = {} := rfl

/-- The key is in the map of the type. -/
def Ledger.Has (l : Ledger R) : MetricType → Bytes → Prop
  | .counter, k => k ∈ l.counters
  | .timer, k => k ∈ l.timers
  | .gauge, k => k ∈ l.gauges
  | .set, k => k ∈ l.sets

section

variable [CDouble R]

/-- The effect of a line on the entries of its own name. -/
def Entries.store (e : Entries R) (metric : Bytes) (buffers : ScanBuffers R) (type : MetricType)
    (metricValue : R) : Entries R :=
  let e := { e with frequency := some (e.frequency.getD 0 + 1) }
  match type with
  | .timer =>
    { e with
      timerCounter := some (e.timerCounter.getD 0 + 1 / buffers.sampleRate)
      timer := some (e.timer.getD [] ++ [metricValue]) }
  | .gauge =>
    if charAfterColon metric = plus ∨ charAfterColon metric = minus then
      { e with gauge := some (e.gauge.getD 0 + metricValue) }
    else { e with gauge := some metricValue }
  | .set => { e with set := some (insert buffers.metricValueBuffer (e.set.getD ∅)) }
  | .counter =>
    { e with counter := some (e.counter.getD 0 + metricValue * (1 / buffers.sampleRate)) }

/-- The effect of a line on the entries of the name `k`. -/
def Entries.buffer (cast : Bytes → Option R) (k : Bytes) (e : Entries R) (metric : Bytes) :
    Entries R :=
  match parseLine cast metric with
  | none => e
  | some (buffers, type, metricValue) =>
    if k = buffers.nameBuffer then e.store metric buffers type metricValue else e

omit [CDouble R] in
@[simp] theorem entries_countCall (l : Ledger R) (k : Bytes) :
    l.countCall.entries k = l.entries k := rfl

theorem entries_countBadLine {config : AggregatorConfig} {k : Bytes} (hk : k ≠ config.badLinesSeen)
    (l : Ledger R) : (l.countBadLine config).entries k = l.entries k := by
  simp only [Ledger.countBadLine, Ledger.entries, UnorderedMap.lookup_modify_ne _ hk]

/-- A stored line changes the entries of its own name and of no other. -/
theorem entries_store (l : Ledger R) (metric : Bytes) (buffers : ScanBuffers R)
    (type : MetricType) (x : R) (k : Bytes) :
    (l.store metric buffers type x).entries k =
      if k = buffers.nameBuffer then (l.entries k).store metric buffers type x
      else l.entries k := by
  split
  · rename_i hk
    subst hk
    cases type with
    | gauge => by_cases hsign : charAfterColon metric = plus ∨ charAfterColon metric = minus <;>
        simp [Ledger.store, Ledger.entries, Entries.store, hsign]
    | _ => simp [Ledger.store, Ledger.entries, Entries.store]
  · rename_i hk
    cases type with
    | gauge => by_cases hsign : charAfterColon metric = plus ∨ charAfterColon metric = minus <;>
        simp [Ledger.store, Ledger.entries, hsign, hk]
    | _ => simp [Ledger.store, Ledger.entries, hk]

/-- A stored line adds at most its own name. -/
theorem Ledger.has_store {l : Ledger R} {metric k : Bytes} {buffers : ScanBuffers R}
    {type' type : MetricType} {x : R} (h : (l.store metric buffers type' x).Has type k) :
    k = buffers.nameBuffer ∨ l.Has type k := by
  have hkeep : l.Has type k → k = buffers.nameBuffer ∨ l.Has type k := .inr
  cases type' with
  | timer | counter | set =>
    cases type <;> simp only [store, Has, UnorderedMap.mem_modify] at h hkeep ⊢ <;>
      first | exact h | exact hkeep h
  | gauge =>
    simp only [store] at h
    split at h <;> cases type <;>
      simp only [Has, UnorderedMap.mem_modify, AList.mem_insert] at h hkeep ⊢ <;>
      first | exact h | exact hkeep h

/-- A stored line is counted under its name, whatever its type. -/
theorem Ledger.frequency_store (l : Ledger R) (metric : Bytes) (buffers : ScanBuffers R)
    (type : MetricType) (x : R) :
    (l.store metric buffers type x).frequency =
      l.frequency.modify buffers.nameBuffer 0 (· + 1) := by
  cases type with
  | gauge =>
    simp only [Ledger.store]
    split <;> rfl
  | _ => rfl

/-- A stored line leaves the statistics of the ledger alone. -/
theorem store_statistics (l : Ledger R) (metric : Bytes) (buffers : ScanBuffers R)
    (type : MetricType) (x : R) :
    (l.store metric buffers type x).statsdMetrics = l.statsdMetrics ∧
      (l.store metric buffers type x).counterRates = l.counterRates ∧
      (l.store metric buffers type x).timerData = l.timerData := by
  cases type with
  | gauge =>
    simp only [Ledger.store]
    split <;> exact ⟨rfl, rfl, rfl⟩
  | _ => exact ⟨rfl, rfl, rfl⟩

/-- Away from the bad-lines counter, `buffer` acts on each name separately. -/
theorem entries_buffer {env : Env R} {k : Bytes} (hk : k ≠ env.config.badLinesSeen)
    (l : Ledger R) (metric : Bytes) :
    (l.buffer env metric).entries k = (l.entries k).buffer env.lexicalCast k metric := by
  rcases h : parseLine env.lexicalCast metric with _ | ⟨buffers, type, x⟩
  · rw [buffer_of_bad h, entries_countBadLine hk, entries_countCall, Entries.buffer, h]
  · rw [buffer_of_parse h, entries_store, entries_countCall, Entries.buffer, h]

theorem entries_replay {env : Env R} {k : Bytes} (hk : k ≠ env.config.badLinesSeen)
    (lines : List Bytes) :
    (Ledger.replay env lines).entries k =
      lines.foldl (Entries.buffer env.lexicalCast k) {} := by
  have hfold : ∀ l : Ledger R, (lines.foldl (Ledger.buffer env) l).entries k =
      lines.foldl (Entries.buffer env.lexicalCast k) (l.entries k) := by
    induction lines with
    | nil => intro l; rfl
    | cons metric lines ih =>
      intro l
      rw [List.foldl_cons, List.foldl_cons, ih, entries_buffer hk]
  exact hfold {}

/-- A line with another text before its first colon does not touch the entries
of `k`. -/
theorem Entries.buffer_of_ne {cast : Bytes → Option R} {k metric : Bytes} (hnul : nul ∉ metric)
    (hk : k ≠ lineName metric) (e : Entries R) : e.buffer cast k metric = e := by
  rcases h : parseLine cast metric with _ | ⟨buffers, type, x⟩
  · rw [Entries.buffer, h]
  · have hname := nameBuffer_of_parse hnul h
    simp only [Entries.buffer, h, hname, if_neg hk]

end

end Statsdcc
