import Mathlib
import Statsdcc.Ledger.Rates
import Statsdcc.Ledger.Statistics

/-!
# The order of the lines

A `Tally` is what a ledger holds under one name, gauges and the order of samples
left out. Every line adds to it, and the additions commute, so the results of
`process` do not depend on the order in which the lines were buffered.

## Main definitions

- `Tally` — counts, sums, and a multiset of samples
- `lineTally` — what a line adds under a name
- `Ledger.FiniteTimers` — all samples are numbers
- `Ledger.SameResults` — equal results, gauges excepted

## Main results

- `tally_buffer` — `buffer` adds to the tally of every name
- `tally_replay_perm` — the tallies of a sequence of lines
- `sameResults_of_perm` — the results do not depend on the order of the lines
-/

open Bytes

namespace Statsdcc

/-- What a ledger holds under one name, without gauges and without the order of
the samples. -/
@[ext]
structure Tally where
  frequency : Option ℤ := none
  counter : Option Exact := none
  samples : Option (Multiset Exact) := none
  timerCounter : Option Exact := none
  set : Option (Finset Bytes) := none

namespace Tally

instance : @Std.Commutative Exact (· + ·) := ⟨Exact.add_comm⟩
instance : @Std.Associative Exact (· + ·) := ⟨Exact.add_assoc⟩

/-- Both tallies together. -/
def add (s t : Tally) : Tally where
  frequency := Option.merge (· + ·) s.frequency t.frequency
  counter := Option.merge (· + ·) s.counter t.counter
  samples := Option.merge (· + ·) s.samples t.samples
  timerCounter := Option.merge (· + ·) s.timerCounter t.timerCounter
  set := Option.merge (· ∪ ·) s.set t.set

theorem merge_right_comm {α : Type*} (f : α → α → α) [Std.Commutative f] [Std.Associative f]
    (x y z : Option α) :
    Option.merge f (Option.merge f x y) z = Option.merge f (Option.merge f x z) y := by
  have hassoc := (Option.associative_merge f).assoc
  rw [hassoc, (Option.commutative_merge f).comm y z, ← hassoc]

theorem add_right_comm (s t u : Tally) : (s.add t).add u = (s.add u).add t := by
  apply Tally.ext <;> exact merge_right_comm _ _ _ _

/-- Adding to an entry that may be absent. -/
theorem merge_add_some (y : Option Exact) (z : Exact) :
    Option.merge (· + ·) y (some z) = some (y.getD 0 + z) := by
  cases y with
  | none => exact congrArg some (Exact.zero_add z).symm
  | some y => rfl

theorem add_empty (t : Tally) : t.add {} = t :=
  Tally.ext Option.merge_none_right Option.merge_none_right Option.merge_none_right
    Option.merge_none_right Option.merge_none_right

/-- What a stored line adds under its own name. -/
def ofLine (buffers : ScanBuffers Exact) (x : Exact) : MetricType → Tally
  | .counter => { frequency := some 1, counter := some (x * (1 / buffers.sampleRate)) }
  | .timer =>
    { frequency := some 1
      samples := some {x}
      timerCounter := some (1 / buffers.sampleRate) }
  | .gauge => { frequency := some 1 }
  | .set => { frequency := some 1, set := some {buffers.metricValueBuffer} }

end Tally

/-- What a line adds under the name `k`; a rejected line counts as bad. -/
def lineTally (env : Env Exact) (metric k : Bytes) : Tally :=
  match parseLine env.lexicalCast metric with
  | none => if k = env.config.badLinesSeen then { counter := some 1 } else {}
  | some (buffers, type, x) => if k = buffers.nameBuffer then Tally.ofLine buffers x type else {}

def Entries.tally (e : Entries Exact) : Tally where
  frequency := e.frequency
  counter := e.counter
  samples := e.timer.map (↑)
  timerCounter := e.timerCounter
  set := e.set

/-- The tally of a name in a ledger. -/
def Ledger.tally (l : Ledger Exact) (k : Bytes) : Tally := (l.entries k).tally

/-- A stored line adds to the tally of its name. -/
theorem Entries.tally_store (e : Entries Exact) (metric : Bytes) (buffers : ScanBuffers Exact)
    (type : MetricType) (x : Exact) :
    (e.store metric buffers type x).tally = e.tally.add (Tally.ofLine buffers x type) := by
  have hadd : ∀ (y : Option Exact) (z : Exact),
      some (y.getD 0 + z) = Option.merge (· + ·) y (some z) :=
    fun y z => (Tally.merge_add_some y z).symm
  have hcount : ∀ y : Option ℤ, some (y.getD 0 + 1) = Option.merge (· + ·) y (some 1) := by
    intro y
    cases y <;> rfl
  have hsamples : ∀ y : Option (List Exact), some (↑(y.getD [] ++ [x]) : Multiset Exact) =
      Option.merge (· + ·) (y.map (↑)) (some {x}) := by
    intro y
    cases y <;> rfl
  have hset : ∀ (y : Option (Finset Bytes)) (v : Bytes),
      some (insert v (y.getD ∅)) = Option.merge (· ∪ ·) y (some {v}) := by
    intro y v
    cases y with
    | none => rfl
    | some s => exact congrArg some (by rw [Option.getD_some, Finset.insert_eq, Finset.union_comm])
  have hnone : ∀ {α : Type} (f : α → α → α) (y : Option α), y = Option.merge f y none :=
    fun f y => (Option.merge_none_right).symm
  cases type with
  | counter => exact Tally.ext (hcount _) (hadd _ _) (hnone _ _) (hnone _ _) (hnone _ _)
  | timer => exact Tally.ext (hcount _) (hnone _ _) (hsamples _) (hadd _ _) (hnone _ _)
  | gauge =>
    simp only [Entries.store]
    split <;> exact Tally.ext (hcount _) (hnone _ _) (hnone _ _) (hnone _ _) (hnone _ _)
  | set => exact Tally.ext (hcount _) (hnone _ _) (hnone _ _) (hnone _ _) (hset _ _)

/-- `buffer` adds to the tally of every name. -/
theorem tally_buffer (env : Env Exact) (l : Ledger Exact) (metric k : Bytes) :
    (l.buffer env metric).tally k = (l.tally k).add (lineTally env metric k) := by
  rcases hparse : parseLine env.lexicalCast metric with _ | ⟨buffers, type, x⟩
  · rw [buffer_of_bad hparse, lineTally, hparse]
    by_cases hk : k = env.config.badLinesSeen
    · subst hk
      have hcounter :
          (l.countCall.countBadLine env.config).counters.lookup env.config.badLinesSeen =
            Option.merge (· + ·) (l.counters.lookup env.config.badLinesSeen) (some 1) := by
        show (l.counters.modify env.config.badLinesSeen 0 (· + 1)).lookup _ = _
        rw [UnorderedMap.lookup_modify_self, Tally.merge_add_some]
      simp only [if_true]
      exact Tally.ext Option.merge_none_right.symm hcounter Option.merge_none_right.symm
        Option.merge_none_right.symm Option.merge_none_right.symm
    · simp only [if_neg hk]
      rw [Tally.add_empty, Ledger.tally, entries_countBadLine hk, entries_countCall, Ledger.tally]
  · rw [buffer_of_parse hparse, Ledger.tally, entries_store, entries_countCall, lineTally, hparse]
    dsimp only
    split
    · exact Entries.tally_store _ _ _ _ _
    · exact (Tally.add_empty _).symm

/-- The tallies do not depend on the order of the lines. -/
theorem tally_replay_perm (env : Env Exact) {lines lines' : List Bytes}
    (hperm : lines.Perm lines') (k : Bytes) :
    (Ledger.replay env lines).tally k = (Ledger.replay env lines').tally k := by
  have hfold : ∀ (lines : List Bytes) (l : Ledger Exact),
      (lines.foldl (Ledger.buffer env) l).tally k =
        lines.foldl (fun t line => t.add (lineTally env line k)) (l.tally k) := by
    intro lines
    induction lines with
    | nil => intro l; rfl
    | cons line lines ih =>
      intro l
      rw [List.foldl_cons, List.foldl_cons, ih, tally_buffer]
  rw [Ledger.replay, Ledger.replay, hfold, hfold]
  exact hperm.foldl_eq' (fun a _ b _ t => Tally.add_right_comm t _ _) _

-- ════════════════════════════════════════════════════════════════════════
-- Processing permuted samples
-- ════════════════════════════════════════════════════════════════════════

theorem exists_map_fin {xs : List Exact} (h : ∀ x ∈ xs, IsNumber x) :
    ∃ samples : List ℚ, xs = samples.map .fin := by
  induction xs with
  | nil => exact ⟨[], rfl⟩
  | cons x xs ih =>
    obtain ⟨q, rfl⟩ := h x (List.mem_cons_self ..)
    obtain ⟨samples, rfl⟩ := ih fun x' hx' => h x' (List.mem_cons_of_mem _ hx')
    exact ⟨q :: samples, rfl⟩

/-- Finite samples are sorted alike in every order. -/
theorem timerValues_of_perm {xs ys : List Exact} (hxs : ∀ x ∈ xs, IsNumber x)
    (hperm : xs.Perm ys) : timerValues xs = timerValues ys := by
  obtain ⟨samples, rfl⟩ := exists_map_fin hxs
  obtain ⟨samples', rfl⟩ := exists_map_fin fun y hy => hxs y (hperm.symm.subset hy)
  have hsamples : samples.Perm samples' :=
    (List.map_perm_map_iff fun _ _ h => Exact.fin.inj h).mp hperm
  have hsorted : sortedSamples samples = sortedSamples samples' := by
    refine List.Perm.eq_of_pairwise (fun _ _ _ _ => le_antisymm) (pairwise_sortedSamples _)
      (pairwise_sortedSamples _) ?_
    exact (perm_sortedSamples _).trans (hsamples.trans (perm_sortedSamples _).symm)
  rw [timerValues_map_fin, timerValues_map_fin, hsorted]

/-- The statistics of a timer depend on its sorted samples only. -/
theorem timerStats_of_perm (config : AggregatorConfig) (key : Bytes) {xs ys : List Exact}
    (hxs : ∀ x ∈ xs, IsNumber x) (hperm : xs.Perm ys) (timerCounter : Exact) :
    timerStats config key xs timerCounter = timerStats config key ys timerCounter := by
  have hvalues := timerValues_of_perm hxs hperm
  rw [timerValues, timerValues] at hvalues
  rw [timerStats, timerStats, hvalues]

/-- The value of the line is a number if it is stored as a timer. -/
def FiniteSample (cast : Bytes → Option Exact) (metric : Bytes) : Prop :=
  ∀ buffers x, parseLine cast metric = some (buffers, .timer, x) → IsNumber x

/-- All samples are numbers. -/
def Ledger.FiniteTimers (l : Ledger Exact) : Prop :=
  ∀ k xs, l.timers.lookup k = some xs → ∀ x ∈ xs, IsNumber x

theorem Ledger.FiniteTimers.buffer {env : Env Exact} {l : Ledger Exact} (h : l.FiniteTimers)
    {line : Bytes} (hfinite : FiniteSample env.lexicalCast line) :
    (l.buffer env line).FiniteTimers := by
  rcases hparse : parseLine env.lexicalCast line with _ | ⟨buffers, type, x⟩
  · rw [buffer_of_bad hparse]
    exact h
  · rw [buffer_of_parse hparse]
    cases type with
    | counter | set => exact h
    | gauge =>
      simp only [Ledger.store]
      split <;> exact h
    | timer =>
      intro k xs hxs
      change (l.timers.modify buffers.nameBuffer [] (· ++ [x])).lookup k = some xs at hxs
      by_cases hk : k = buffers.nameBuffer
      · subst hk
        rw [UnorderedMap.lookup_modify_self, Option.some.injEq] at hxs
        rw [← hxs]
        intro y hy
        rcases List.mem_append.mp hy with hy | hy
        · cases hlookup : l.timers.lookup buffers.nameBuffer with
          | none => simp [hlookup] at hy
          | some ys =>
            rw [hlookup, Option.getD_some] at hy
            exact h _ ys hlookup y hy
        · rw [List.mem_singleton.mp hy]
          exact hfinite buffers x hparse
      · rw [UnorderedMap.lookup_modify_ne _ hk] at hxs
        exact h k xs hxs

/-- The samples of a run are numbers if the values of its timers are. -/
theorem finiteTimers_replay {env : Env Exact} {lines : List Bytes}
    (hfinite : ∀ line ∈ lines, FiniteSample env.lexicalCast line) :
    (Ledger.replay env lines).FiniteTimers := by
  have hnew : ({} : Ledger Exact).FiniteTimers := fun k xs h => by cases h
  exact Ledger.replay_induction hnew fun l line hline h => h.buffer (hfinite line hline)

/-- The ledger counts every call of `buffer`. -/
theorem metricsProcessed_replay {R : Type} [CDouble R] (env : Env R) (lines : List Bytes) :
    (Ledger.replay env lines).statsdMetrics.lookup (ascii "metrics_processed") =
      if lines = [] then none else some (lines.length : ℤ) := by
  induction lines using List.reverseRecOn with
  | nil => rfl
  | append_singleton lines line ih =>
    have hcount : ((Ledger.replay env lines).buffer env line).statsdMetrics =
        (Ledger.replay env lines).countCall.statsdMetrics := by
      rcases hparse : parseLine env.lexicalCast line with _ | ⟨buffers, type, x⟩
      · rw [buffer_of_bad hparse]
        rfl
      · rw [buffer_of_parse hparse]
        exact (store_statistics _ _ _ _ _).1
    rw [Ledger.replay_concat, hcount]
    show (UnorderedMap.modify _ _ _ _).lookup _ = _
    rw [UnorderedMap.lookup_modify_self, ih]
    cases lines <;> simp

/-- The results of two ledgers are equal, with the samples of a timer in any order;
gauges and the processing time are left out. -/
structure Ledger.SameResults (l l' : Ledger Exact) : Prop where
  counters : ∀ k, l.counters.lookup k = l'.counters.lookup k
  counterRates : ∀ k, l.counterRates.lookup k = l'.counterRates.lookup k
  timers : ∀ k, Option.Rel List.Perm (l.timers.lookup k) (l'.timers.lookup k)
  timerCounters : ∀ k, l.timerCounters.lookup k = l'.timerCounters.lookup k
  timerData : ∀ k, l.timerData.lookup k = l'.timerData.lookup k
  sets : ∀ k, l.sets.lookup k = l'.sets.lookup k
  frequency : ∀ k, l.frequency.lookup k = l'.frequency.lookup k
  metricsProcessed : l.statsdMetrics.lookup (ascii "metrics_processed") =
    l'.statsdMetrics.lookup (ascii "metrics_processed")

/-- Permuted samples in the tallies are permuted samples in the ledgers. -/
theorem rel_perm_of_tally {l l' : Ledger Exact} {k : Bytes} (h : l.tally k = l'.tally k) :
    Option.Rel List.Perm (l.timers.lookup k) (l'.timers.lookup k) := by
  have hsamples : (l.timers.lookup k).map Multiset.ofList =
      (l'.timers.lookup k).map Multiset.ofList := congrArg Tally.samples h
  cases hxs : l.timers.lookup k with
  | none =>
    rw [hxs, Option.map_none, eq_comm, Option.map_eq_none_iff] at hsamples
    rw [hsamples]
    exact .none
  | some xs =>
    rw [hxs, Option.map_some, eq_comm, Option.map_eq_some_iff] at hsamples
    obtain ⟨ys, hys, hperm⟩ := hsamples
    rw [hys]
    exact .some (Multiset.coe_eq_coe.mp hperm).symm

/-- A function of a sample list that does not see the order. -/
theorem map_eq_of_rel {β : Type} {o o' : Option (List Exact)} (h : Option.Rel List.Perm o o')
    {f : List Exact → β} (hf : ∀ xs ys, o = some xs → xs.Perm ys → f xs = f ys) :
    o.map f = o'.map f := by
  cases h with
  | none => rfl
  | some hperm => exact congrArg some (hf _ _ rfl hperm)

/-- **Aggregation is independent of the order of arrival**: lines with finite samples
give the same results in every order. -/
theorem sameResults_of_perm (env : Env Exact) (elapsed elapsed' : ℤ) {lines lines' : List Bytes}
    (hperm : lines.Perm lines') (hfinite : ∀ line ∈ lines, FiniteSample env.lexicalCast line) :
    ((Ledger.replay env lines).process env.config elapsed).SameResults
      ((Ledger.replay env lines').process env.config elapsed') := by
  have htally := tally_replay_perm env hperm
  have hunprocessed := Ledger.unprocessed_replay env lines
  have hunprocessed' := Ledger.unprocessed_replay env lines'
  have hcounters : ∀ k, (Ledger.replay env lines).counters.lookup k =
      (Ledger.replay env lines').counters.lookup k := fun k => congrArg Tally.counter (htally k)
  have htimerCounters : ∀ k, (Ledger.replay env lines).timerCounters.lookup k =
      (Ledger.replay env lines').timerCounters.lookup k :=
    fun k => congrArg Tally.timerCounter (htally k)
  have htimers : ∀ k, Option.Rel List.Perm ((Ledger.replay env lines).timers.lookup k)
      ((Ledger.replay env lines').timers.lookup k) := fun k => rel_perm_of_tally (htally k)
  constructor
  case counters => exact hcounters
  case counterRates =>
    intro k
    show (UnorderedMap.insertEach _ _ _).lookup k = (UnorderedMap.insertEach _ _ _).lookup k
    rw [UnorderedMap.lookup_insertEach, UnorderedMap.lookup_insertEach, hcounters,
      hunprocessed.counterRates, hunprocessed'.counterRates]
  case timers => exact htimers
  case timerCounters =>
    intro k
    have hfilled := Ledger.timersFilled_replay env lines
    have hfilled' := Ledger.timersFilled_replay env lines'
    show (readTimerCounters _ _).lookup k = (readTimerCounters _ _).lookup k
    rw [Ledger.lookup_readTimerCounters fun key => (hfilled.counters key).mpr,
      Ledger.lookup_readTimerCounters fun key => (hfilled'.counters key).mpr, htimerCounters]
  case timerData =>
    intro k
    show (UnorderedMap.insertEach _ _ _).lookup k = (UnorderedMap.insertEach _ _ _).lookup k
    rw [UnorderedMap.lookup_insertEach, UnorderedMap.lookup_insertEach, htimerCounters,
      hunprocessed.timerData, hunprocessed'.timerData]
    rw [map_eq_of_rel (htimers k) fun xs ys hxs hperm => timerStats_of_perm _ _
      (finiteTimers_replay hfinite k _ hxs) hperm _]
  case sets => exact fun k => congrArg Tally.set (htally k)
  case frequency => exact fun k => congrArg Tally.frequency (htally k)
  case metricsProcessed =>
    show (AList.insert _ _ _).lookup _ = (AList.insert _ _ _).lookup _
    rw [AList.lookup_insert_ne (by decide), AList.lookup_insert_ne (by decide),
      metricsProcessed_replay, metricsProcessed_replay, hperm.length_eq]
    have hnil : lines = [] ↔ lines' = [] := by
      rw [← List.length_eq_zero_iff, ← List.length_eq_zero_iff, hperm.length_eq]
    simp only [hnil]

theorem sameResults_swapped :
    ((Ledger.replay ⟨{}, lexicalCast⟩ [ascii "a:2|ms", ascii "a:1|ms"]).process {} 0).SameResults
      ((Ledger.replay ⟨{}, lexicalCast⟩ [ascii "a:1|ms", ascii "a:2|ms"]).process {} 7) := by
  refine sameResults_of_perm ⟨{}, lexicalCast⟩ 0 7 (.swap _ _ _) ?_
  intro line hline buffers x hparse
  have hvalue : ∀ line ∈ [ascii "a:2|ms", ascii "a:1|ms"],
      (parseLine lexicalCast line).map (fun parsed => parsed.2.2) = some (Exact.fin 2) ∨
        (parseLine lexicalCast line).map (fun parsed => parsed.2.2) = some (Exact.fin 1) := by
    decide +kernel
  have hline := hvalue line hline
  rw [hparse, Option.map_some, Option.some.injEq, Option.some.injEq] at hline
  rcases hline with hline | hline
  · exact ⟨2, hline⟩
  · exact ⟨1, hline⟩

end Statsdcc
