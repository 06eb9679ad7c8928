import Mathlib
import Statsdcc.Accounting
import Statsdcc.Ledger.Entries

/-!
# Keys in the ledgers of different workers

A key of a ledger is the name of an accepted line, or the counter in which the
ledger counts rejected lines. Names are routed to one worker each, and so is the
bad-keys metric, but a rejected line is counted by whichever worker it reached.

## Main results

- `touched_of_mem_replay` — a key of a ledger was touched by one of its lines
- `keyDisjoint_of_oneOwner` — no key is in the ledgers of two workers, when all
  that touches the bad-lines counter reaches one worker
- `not_keyDisjoint_rejectedRun` — and the same key when it does not
-/

open Bytes

namespace Statsdcc

variable {R : Type} {W T : ℕ}

/-- No key of a map is in the same map of the other ledger. -/
def KeyDisjoint (l l' : Ledger R) : Prop := ∀ type k, ¬(l.Has type k ∧ l'.Has type k)

/-- The current ledger and the ledgers handed to flusher threads. -/
def Worker.ledgers (w : Worker R) : List (Ledger R) :=
  w.currentLedger :: w.flushers.map Flusher.ledger

section

variable [CDouble R]

/-- The key under which a string enters a ledger. -/
def touchedKey (env : Env R) (metric : Bytes) : Bytes :=
  match parseLine env.lexicalCast metric with
  | none => env.config.badLinesSeen
  | some (buffers, _) => buffers.nameBuffer

/-- A line adds at most the key that it touches. -/
theorem Ledger.has_buffer {env : Env R} {l : Ledger R} {metric k : Bytes} {type : MetricType}
    (h : (l.buffer env metric).Has type k) : k = touchedKey env metric ∨ l.Has type k := by
  rcases hparse : parseLine env.lexicalCast metric with _ | ⟨buffers, type', x⟩
  · rw [buffer_of_bad hparse] at h
    rw [touchedKey, hparse]
    cases type with
    | counter => exact (UnorderedMap.mem_modify _ _ _ _ _).mp h
    | timer | gauge | set => exact .inr h
  · rw [buffer_of_parse hparse] at h
    rw [touchedKey, hparse]
    rcases Ledger.has_store h with hk | hl
    · exact .inl hk
    · cases type <;> exact .inr hl

/-- Every key of a ledger was touched by one of its lines. -/
theorem touched_of_mem_replay {env : Env R} {lines : List Bytes} {k : Bytes} {type : MetricType}
    (h : (Ledger.replay env lines).Has type k) : ∃ metric ∈ lines, touchedKey env metric = k := by
  refine Ledger.replay_induction
    (P := fun l => l.Has type k → ∃ metric ∈ lines, touchedKey env metric = k) ?_ ?_ h
  · intro hnew
    cases type <;> cases hnew
  · intro l metric hmem ih h
    rcases Ledger.has_buffer h with hk | hl
    · exact ⟨metric, hmem, hk.symm⟩
    · exact ih hl

theorem Ledger.has_process {config : AggregatorConfig} {elapsed : ℤ} {l : Ledger R}
    {type : MetricType} {k : Bytes} : (l.process config elapsed).Has type k ↔ l.Has type k := by
  cases type <;> rfl

omit [CDouble R] in
theorem Ledger.has_copy {l : Ledger R} {type : MetricType} {k : Bytes} :
    l.copy.Has type k ↔ l.Has type k := by
  cases type <;> rfl

/-- Every key of a worker's ledgers was touched by a string that it popped. -/
theorem Worker.Faithful.touched_of_has {env : Env R} {w : Worker R} (h : w.Faithful env)
    {l : Ledger R} (hl : l ∈ w.ledgers) {type : MetricType} {k : Bytes} (hk : l.Has type k) :
    ∃ metric ∈ w.popped, touchedKey env metric = k := by
  rcases List.mem_cons.mp hl with rfl | hl
  · have hreplay : (Ledger.replay env (w.currentLines.map Prod.fst)).Has type k := by
      cases hpc : w.pc.processed with
      | true =>
        obtain ⟨elapsed, hledger⟩ := h.processed hpc
        rw [hledger] at hk
        exact Ledger.has_process.mp hk
      | false => exact h.buffered hpc ▸ hk
    obtain ⟨metric, hmem, htouched⟩ := touched_of_mem_replay hreplay
    exact ⟨metric, h.popped_of_current hmem, htouched⟩
  · obtain ⟨f, hf, rfl⟩ := List.mem_map.mp hl
    obtain ⟨elapsed, hledger⟩ := h.flushed f hf
    rw [hledger] at hk
    obtain ⟨metric, hmem, htouched⟩ :=
      touched_of_mem_replay (Ledger.has_process.mp (Ledger.has_copy.mp hk))
    exact ⟨metric, h.popped_of_flushed (List.mem_map_of_mem hf) hmem, htouched⟩

variable [NeZero W]

/-- All that touches the bad-lines counter is routed to one worker, and the
bad-keys metric, if it is sent, is owned by the worker it is sent to. -/
structure OneOwner (env : Env R) (consumer : AggregatorConsumer W) (lines : List Bytes) :
    Prop where
  badLines : ∃ owner, ∀ line ∈ lines,
    touchedKey env (consumer.consume line).2 = env.config.badLinesSeen →
      (consumer.consume line).1 = owner
  badKeys : ∀ line ∈ lines, colon ∉ line →
    touchedKey env (cStr consumer.badKeysMetric) ≠ env.config.badLinesSeen →
      consumer.workerOf (touchedKey env (cStr consumer.badKeysMetric)) =
        consumer.badKeysQueueHash

/-- A line goes to the owner of the key that it touches. -/
theorem OneOwner.exists_owner {env : Env R} {consumer : AggregatorConsumer W}
    {lines : List Bytes} (h : OneOwner env consumer lines) (hnul : ∀ line ∈ lines, nul ∉ line) :
    ∃ owner : Bytes → Fin W, ∀ line ∈ lines,
      (consumer.consume line).1 = owner (touchedKey env (consumer.consume line).2) := by
  obtain ⟨badOwner, hbad⟩ := h.badLines
  refine ⟨fun k => if k = env.config.badLinesSeen then badOwner else consumer.workerOf k,
    fun line hline => ?_⟩
  dsimp only
  split
  · rename_i hk
    exact hbad line hline hk
  · rename_i hk
    by_cases hcolon : colon ∈ line
    · rw [consumer.consume_of_colon hcolon, cStr_eq_self (hnul line hline)] at hk ⊢
      rcases hparse : parseLine env.lexicalCast line with _ | ⟨buffers, checked⟩
      · simp [touchedKey, hparse] at hk
      · have hname := nameBuffer_of_parse (hnul line hline) hparse
        simp only [touchedKey, hparse, hname, lineName]
    · rw [consumer.consume_of_not_colon hcolon] at hk ⊢
      exact (h.badKeys line hline hcolon hk).symm

/-- The bad-keys metric of a name without a colon is owned by its worker. -/
theorem bad_keys_owned (env : Env R) (strHash : Bytes → ℕ) (hnul : nul ∉ env.config.name)
    (hcolon : colon ∉ env.config.name)
    (hk : touchedKey env (cStr (AggregatorConsumer.new (W := W) env.config strHash).badKeysMetric) ≠
      env.config.badLinesSeen) :
    (AggregatorConsumer.new env.config strHash).workerOf (touchedKey env
        (cStr (AggregatorConsumer.new (W := W) env.config strHash).badKeysMetric)) =
      (AggregatorConsumer.new (W := W) env.config strHash).badKeysQueueHash := by
  have hmetric : (AggregatorConsumer.new (W := W) env.config strHash).badKeysMetric =
      env.config.badKeysKey ++ colon :: ascii "1|c" := rfl
  have hkeyColon : colon ∉ env.config.badKeysKey := by
    rw [AggregatorConfig.badKeysKey, List.mem_append, not_or]
    exact ⟨hcolon, by decide⟩
  have hmetricNul : nul ∉ env.config.badKeysKey ++ colon :: ascii "1|c" := by
    rw [AggregatorConfig.badKeysKey, List.append_assoc, List.mem_append, not_or]
    exact ⟨hnul, by decide⟩
  rw [hmetric, cStr_eq_self hmetricNul] at hk ⊢
  rcases hparse : parseLine env.lexicalCast (env.config.badKeysKey ++ colon :: ascii "1|c")
    with _ | ⟨buffers, checked⟩
  · simp [touchedKey, hparse] at hk
  · have hname := nameBuffer_of_parse hmetricNul hparse
    rw [lineName, takeWhile_ne_append hkeyColon] at hname
    simp only [touchedKey, hparse, hname]
    rfl

namespace Aggregator

/-- **Ledgers of different workers are key-disjoint**, when one worker gets all
that touches the bad-lines counter. -/
theorem keyDisjoint_of_oneOwner (env : Env R) (strHash : Bytes → ℕ) {s₀ s : Aggregator R W T}
    (hs₀ : s₀.Initial) (as : List (Action W T)) (hnul : ∀ line ∈ consumedLines as, nul ∉ line)
    (howner : OneOwner env (.new env.config strHash : AggregatorConsumer W) (consumedLines as))
    (hrun : Transition.run (step env (.new env.config strHash)) s₀ as = some s)
    {i j : Fin W} (hij : i ≠ j) :
    ∀ l ∈ (s.workers i).ledgers, ∀ l' ∈ (s.workers j).ledgers, KeyDisjoint l l' := by
  rintro l hl l' hl' type k ⟨hk, hk'⟩
  have hbalanced := hs₀.balanced_of_run hrun
  obtain ⟨owner, howner⟩ := howner.exists_owner hnul
  have howned : ∀ i, ∀ l ∈ (s.workers i).ledgers, l.Has type k → i = owner k := by
    intro i l hl hk
    obtain ⟨metric, hmem, htouched⟩ := (hs₀.faithful_of_run hrun i).touched_of_has hl hk
    obtain ⟨line, hline, hconsume⟩ := hbalanced.exists_consumed hmem
    have hworker := howner line hline
    rw [hconsume, htouched] at hworker
    exact hworker
  exact hij ((howned i l hl hk).trans (howned j l' hl' hk').symm)

/-- Two accepted lines and a rejected one, on two workers. -/
def oneRejectedRun {W T : ℕ} [NeZero W] [NeZero T] : List (Action W T) :=
  [.consume 0 (ascii "a:1|c"), .push 0 true, .consume 0 (ascii "bb:2|c"), .push 0 true,
   .consume 0 (ascii "ccc:x|c"), .push 0 true, .worker 0 .pop, .worker 0 .test,
   .worker 0 .buffer, .worker 1 .pop, .worker 1 .test, .worker 1 .buffer, .worker 1 .pop,
   .worker 1 .test, .worker 1 .buffer]

theorem keyDisjoint_oneRejectedRun :
    ∃ s : Aggregator Exact 2 1,
      Transition.run (step ⟨{}, lexicalCast⟩ (.new {} List.length)) init oneRejectedRun =
        some s ∧
      ∀ l ∈ (s.workers 0).ledgers, ∀ l' ∈ (s.workers 1).ledgers, KeyDisjoint l l' :=
  ⟨_, rfl, keyDisjoint_of_oneOwner ⟨{}, lexicalCast⟩ List.length initial_init oneRejectedRun
    (by decide) ⟨⟨1, by decide⟩, fun _ _ _ => bad_keys_owned _ _ (by decide) (by decide)⟩
    rfl (by decide)⟩

/-- One rejected line for each of two workers. -/
def rejectedRun {W T : ℕ} [NeZero W] [NeZero T] : List (Action W T) :=
  [.consume 0 (ascii "a:x|c"), .push 0 true, .consume 0 (ascii "bb:x|c"), .push 0 true,
   .worker 0 .pop, .worker 0 .test, .worker 0 .buffer, .worker 1 .pop, .worker 1 .test,
   .worker 1 .buffer]

/-- Both workers hold the counter of rejected lines. -/
theorem not_keyDisjoint_rejectedRun :
    ∃ s : Aggregator Exact 2 1,
      Transition.run (step ⟨{}, lexicalCast⟩ (.new {} List.length)) init rejectedRun = some s ∧
      ¬KeyDisjoint (s.workers 0).currentLedger (s.workers 1).currentLedger :=
  ⟨_, rfl, fun h => h .counter (ascii "statsdcc.bad_lines_seen") 
    ⟨AList.lookup_isSome.mp rfl, AList.lookup_isSome.mp rfl⟩⟩

end Aggregator

end

end Statsdcc
