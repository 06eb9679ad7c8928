import Mathlib
import Statsdcc.Aggregator
import Statsdcc.Worker.Lines

/-!
# No line is lost or counted twice

Along every interleaving, the lines given to `consume` are the lines of calls in
progress and the lines of calls that submitted one string each, and the strings
submitted to a worker are spread without loss or duplication over the places in
which that worker keeps strings.

## Main results

- `Worker.arrived_of_act` — a worker's own steps neither lose nor duplicate
- `conserved` — the accounts balance in every reachable state
-/

open Bytes

namespace Statsdcc

variable {R : Type} {W T : ℕ}

/-- The line of a call of `consume` that starts with this step. -/
def Action.consumed : Action W T → Option Bytes
  | .consume _ line => some line
  | _ => none

/-- The lines passed to `consume`, in the order of the calls. -/
def consumedLines (as : List (Action W T)) : List Bytes := as.filterMap Action.consumed

theorem consumedLines_concat (as : List (Action W T)) (a : Action W T) :
    (consumedLines (as ++ [a]) : Multiset Bytes) = ↑(consumedLines as) + ↑a.consumed.toList := by
  rw [consumedLines, List.filterMap_append, ← Multiset.coe_add]
  cases h : a.consumed <;> simp [h, consumedLines]

/-- The lines of calls of `consume` that are not over. -/
def Aggregator.pending (s : Aggregator R W T) : Multiset Bytes :=
  ∑ t, ((s.servers t).line?.toList : Multiset Bytes)

/-- The strings submitted to worker `i`. -/
def Aggregator.submittedTo (consumer : AggregatorConsumer W) [NeZero W] (s : Aggregator R W T)
    (i : Fin W) : List Bytes :=
  (s.submitted.filter fun p => (consumer.consume p.1).1 = i).map Prod.snd

/-- Everything that calls of `submit` have brought to a worker. -/
def Worker.arrived (w : Worker R) : Multiset Bytes := ↑w.dropped + ↑w.workQueue + ↑w.popped

/-- The places in which a worker keeps a submitted string: the account of
dropped metrics, the queue, the metric in hand, the current ledger, and the
ledgers handed to flusher threads. -/
def Worker.held (w : Worker R) : Multiset Bytes :=
  ↑w.dropped + ↑w.workQueue + ↑w.pc.inHand + ↑(w.unflushedLines.map Prod.fst) +
    ↑(w.flushedLines.map Prod.fst)

-- ════════════════════════════════════════════════════════════════════════
-- One step
-- ════════════════════════════════════════════════════════════════════════

theorem Worker.arrived_enqueue (w : Worker R) (metric : Bytes) :
    (w.enqueue metric).arrived = w.arrived + {metric} := by
  have hq : ((w.workQueue ++ [metric] : List Bytes) : Multiset Bytes) =
    ↑w.workQueue + {metric} := rfl
  simp only [arrived, enqueue, hq]
  abel

theorem Worker.arrived_drop (w : Worker R) (metric : Bytes) :
    (w.drop metric).arrived = w.arrived + {metric} := by
  have hd : ((w.dropped ++ [metric] : List Bytes) : Multiset Bytes) = ↑w.dropped + {metric} := rfl
  simp only [arrived, drop, hd]
  abel

section Step

variable [CDouble R]

theorem Worker.arrived_of_act {env : Env R} {w w' : Worker R} {a : WorkerAction}
    (h : w.act env a = some w') : w'.arrived = w.arrived := by
  cases acted_of_act h with
  | @pop metric queue hpc hqueue =>
    have hq : (w.workQueue : Multiset Bytes) = {metric} + ↑queue := by
      rw [hqueue, ← Multiset.cons_coe, Multiset.singleton_add]
    have hp : ((w.popped ++ [metric] : List Bytes) : Multiset Bytes) = ↑w.popped + {metric} := rfl
    simp only [arrived, hq, hp]
    abel
  | _ => rfl

/-- What has arrived at a worker is in one of its places. -/
theorem Worker.Faithful.held_eq_arrived {env : Env R} {w : Worker R} (h : w.Faithful env) :
    w.held = w.arrived := by
  have hpopped : (w.popped : Multiset Bytes) = ↑(w.flushedLines.map Prod.fst) +
      ↑(w.unflushedLines.map Prod.fst) + ↑w.pc.inHand := by
    rw [h.order, List.map_append, Multiset.coe_add, Multiset.coe_add]
  rw [Worker.held, Worker.arrived, hpopped]
  abel

/-- `metrics_dropped` counts the strings that `submit` refused. -/
theorem Worker.metricsDropped_of_move {env : Env R} {w w' : Worker R} (h : Move env w w')
    {start : UInt64} (hw : w.metricsDropped = start + UInt64.ofNat w.dropped.length) :
    w'.metricsDropped = start + UInt64.ofNat w'.dropped.length := by
  cases h with
  | act a hact => cases acted_of_act hact <;> exact hw
  | interrupt | enqueue | setFlusher => exact hw
  | drop metric =>
    simp only [drop, hw, List.length_append, List.length_singleton, UInt64.ofNat_add, add_assoc]
    rfl

end Step

-- ════════════════════════════════════════════════════════════════════════
-- Whole runs
-- ════════════════════════════════════════════════════════════════════════

namespace Aggregator

/-- The calls in progress, when one server thread moves. -/
theorem pending_setServer (s : Aggregator R W T) (t : Fin T) (pc : ServerPc W) :
    (s.setServer t pc).pending + ↑(s.servers t).line?.toList = s.pending + ↑pc.line?.toList :=
  Transition.sum_update (fun pc : ServerPc W => (pc.line?.toList : Multiset Bytes)) s.servers t pc

variable [NeZero W]

/-- The calls in progress, the submitted strings and the workers agree. -/
structure Balanced (consumer : AggregatorConsumer W) (as : List (Action W T))
    (s : Aggregator R W T) : Prop where
  calls : (consumedLines as : Multiset Bytes) = s.pending + ↑(s.submitted.map Prod.fst)
  calling : ∀ t i line metric, s.servers t = .submit i line metric ∨
    s.servers t = .drop i line metric → consumer.consume line = (i, metric)
  strings : ∀ p ∈ s.submitted, p.2 = (consumer.consume p.1).2
  arrived : ∀ i, (s.submittedTo consumer i : Multiset Bytes) = (s.workers i).arrived

variable {consumer : AggregatorConsumer W} {as : List (Action W T)} {s s' : Aggregator R W T}

theorem Initial.balanced (hs : s.Initial) : Balanced consumer [] s where
  calls := by
    have hpending : s.pending = 0 := Finset.sum_eq_zero fun t _ => by rw [hs.servers t]; rfl
    rw [hpending, hs.submitted]
    rfl
  calling t i line metric h := by
    rw [hs.servers t] at h
    rcases h with h | h <;> cases h
  strings p hp := by
    rw [hs.submitted] at hp
    cases hp
  arrived i := by
    obtain ⟨dropped, rate, bad, hw⟩ := hs.workers i
    rw [submittedTo, hs.submitted, hw]
    rfl

/-- A step that is not part of a call and after which the same strings have
arrived at each worker. -/
theorem Balanced.frame (h : Balanced consumer as s) {a : Action W T} (ha : a.consumed = none)
    (hservers : s'.servers = s.servers) (hsubmitted : s'.submitted = s.submitted)
    (harrived : ∀ i, (s'.workers i).arrived = (s.workers i).arrived) :
    Balanced consumer (as ++ [a]) s' where
  calls := by
    rw [consumedLines_concat, ha, pending, hservers, hsubmitted]
    exact (add_zero _).trans h.calls
  calling := by
    rw [hservers]
    exact h.calling
  strings := by
    rw [hsubmitted]
    exact h.strings
  arrived i := by
    rw [submittedTo, hsubmitted, harrived]
    exact h.arrived i

theorem Balanced.setWorker (h : Balanced consumer as s) {a : Action W T} (ha : a.consumed = none)
    {i : Fin W} {w : Worker R} (hworkers : s'.workers = Function.update s.workers i w)
    (hservers : s'.servers = s.servers) (hsubmitted : s'.submitted = s.submitted)
    (hw : w.arrived = (s.workers i).arrived) :
    Balanced consumer (as ++ [a]) s' := by
  refine h.frame ha hservers hsubmitted fun j => ?_
  rw [hworkers]
  by_cases hj : j = i
  · rw [hj, Function.update_self, hw]
  · rw [Function.update_of_ne hj]

/-- A call starts. -/
theorem Balanced.consume (h : Balanced consumer as s) {t : Fin T} (hidle : s.servers t = .idle)
    (line : Bytes) :
    Balanced consumer (as ++ [.consume t line])
      (s.setServer t (.submit (consumer.consume line).1 line (consumer.consume line).2)) where
  calls := by
    have hpending := s.pending_setServer t
      (.submit (consumer.consume line).1 line (consumer.consume line).2)
    rw [hidle] at hpending
    have hstart : (s.setServer t
        (.submit (consumer.consume line).1 line (consumer.consume line).2)).pending =
          s.pending + {line} := (add_zero _).symm.trans hpending
    have hline : (consumedLines (as ++ [Action.consume t line]) : Multiset Bytes) =
        ↑(consumedLines as) + {line} := consumedLines_concat as _
    rw [hline, h.calls, hstart]
    exact add_right_comm _ _ _
  calling t' i line' metric hpc := by
    by_cases ht : t' = t
    · subst ht
      simp only [setServer, Function.update_self] at hpc
      rcases hpc with hpc | hpc <;> cases hpc
      rfl
    · simp only [setServer, Function.update_of_ne ht] at hpc
      exact h.calling t' i line' metric hpc
  strings := h.strings
  arrived := h.arrived

/-- The push of a call failed, the call goes on. -/
theorem Balanced.pushFailed (h : Balanced consumer as s) {t : Fin T} {i : Fin W}
    {line metric : Bytes} (hpc : s.servers t = .submit i line metric) :
    Balanced consumer (as ++ [.push t false]) (s.setServer t (.drop i line metric)) where
  calls := by
    have hpending := s.pending_setServer t (.drop i line metric)
    rw [hpc] at hpending
    have hsame : (s.setServer t (.drop i line metric)).pending = s.pending :=
      add_right_cancel hpending
    rw [consumedLines_concat, h.calls, hsame]
    exact add_zero _
  calling t' j line' metric' hpc' := by
    by_cases ht : t' = t
    · subst ht
      simp only [setServer, Function.update_self] at hpc'
      rcases hpc' with hpc' | hpc' <;> cases hpc'
      exact h.calling t' i line metric (.inl hpc)
    · simp only [setServer, Function.update_of_ne ht] at hpc'
      exact h.calling t' j line' metric' hpc'
  strings := h.strings
  arrived := h.arrived

/-- A call ends, and the string that it submitted has arrived at the worker. -/
theorem Balanced.endCall (h : Balanced consumer as s) {a : Action W T} (ha : a.consumed = none)
    {t : Fin T} {i : Fin W} {line metric : Bytes}
    (hpc : s.servers t = .submit i line metric ∨ s.servers t = .drop i line metric)
    {w : Worker R} (hw : w.arrived = (s.workers i).arrived + {metric}) :
    Balanced consumer (as ++ [a]) ((s.setWorker i w).endCall t line metric) := by
  have hconsume := h.calling t i line metric hpc
  have hline : (s.servers t).line? = some line := by rcases hpc with hpc | hpc <;> rw [hpc] <;> rfl
  constructor
  case calls =>
    have hpending := s.pending_setServer t .idle
    rw [hline] at hpending
    have hended : (s.setServer t .idle).pending + {line} = s.pending :=
      hpending.trans (add_zero _)
    have hsubmitted : (((s.submitted ++ [(line, metric)]).map Prod.fst : List Bytes) :
        Multiset Bytes) = ↑(s.submitted.map Prod.fst) + {line} := by
      rw [List.map_append, ← Multiset.coe_add]
      rfl
    rw [consumedLines_concat, ha, h.calls, ← hended]
    show _ = (s.setServer t .idle).pending + ↑((s.submitted ++ [(line, metric)]).map Prod.fst)
    rw [hsubmitted]
    show _ + _ + 0 = _
    abel
  case calling =>
    intro t' j line' metric' hpc'
    by_cases ht : t' = t
    · subst ht
      simp only [Aggregator.endCall, setServer, Function.update_self] at hpc'
      rcases hpc' with hpc' | hpc' <;> cases hpc'
    · simp only [Aggregator.endCall, setServer, Function.update_of_ne ht] at hpc'
      exact h.calling t' j line' metric' hpc'
  case strings =>
    intro p hp
    rcases List.mem_append.mp hp with hp | hp
    · exact h.strings p hp
    · rw [List.mem_singleton] at hp
      rw [hp, hconsume]
  case arrived =>
    intro j
    have hsent : ((s.setWorker i w).endCall t line metric).submittedTo consumer j =
        s.submittedTo consumer j ++ if i = j then [metric] else [] := by
      show ((s.submitted ++ [(line, metric)]).filter _).map Prod.snd = _
      rw [List.filter_append, List.map_append, submittedTo]
      congr 1
      by_cases hij : i = j <;> simp [hconsume, hij]
    rw [hsent, ← Multiset.coe_add, h.arrived j, endCall_workers, setWorker_workers]
    by_cases hij : i = j
    · subst hij
      rw [Function.update_self, if_pos rfl, hw]
      rfl
    · rw [Function.update_of_ne (Ne.symm hij), if_neg hij]
      exact add_zero _

/-- A submitted string comes from a consumed line. -/
theorem Balanced.consumed_of_submitted (h : Balanced consumer as s) {p : Bytes × Bytes}
    (hp : p ∈ s.submitted) : p.1 ∈ consumedLines as := by
  rw [← Multiset.mem_coe, h.calls, Multiset.mem_add]
  exact .inr (List.mem_map_of_mem hp)

/-- What a worker has popped was submitted to it by a call of `consume`. -/
theorem Balanced.exists_consumed (h : Balanced consumer as s) {i : Fin W} {metric : Bytes}
    (hmem : metric ∈ (s.workers i).popped) :
    ∃ line ∈ consumedLines as, consumer.consume line = (i, metric) := by
  have harrived : metric ∈ (s.workers i).arrived :=
    Multiset.mem_add.mpr (.inr hmem)
  rw [← h.arrived i, Multiset.mem_coe, submittedTo] at harrived
  obtain ⟨p, hp, rfl⟩ := List.mem_map.mp harrived
  obtain ⟨hsub, hi⟩ := List.mem_filter.mp hp
  refine ⟨p.1, h.consumed_of_submitted hsub, ?_⟩
  rw [h.strings p hsub, ← of_decide_eq_true hi]

variable [CDouble R]

theorem Balanced.step {env : Env R} (h : Balanced consumer as s) {a : Action W T}
    (hstep : step env consumer s a = some s') : Balanced consumer (as ++ [a]) s' := by
  cases stepped_of_step hstep with
  | consume line hidle => exact h.consume hidle line
  | push hpc => exact h.endCall rfl (.inl hpc) (Worker.arrived_enqueue _ _)
  | pushFailed hpc => exact h.pushFailed hpc
  | countDrop hpc => exact h.endCall rfl (.inr hpc) (Worker.arrived_drop _ _)
  | interrupt i => exact h.setWorker rfl rfl rfl rfl rfl
  | worker i hact => exact h.setWorker rfl rfl rfl rfl (Worker.arrived_of_act hact)
  | acquire hfree hstatus => exact h.setWorker rfl rfl rfl rfl rfl
  | release hheld => exact h.setWorker rfl rfl rfl rfl rfl

/-- The calls, the submitted strings and the workers agree after every run. -/
theorem Initial.balanced_of_run {env : Env R} {s₀ : Aggregator R W T} (hs₀ : s₀.Initial)
    (hrun : Transition.run (Aggregator.step env consumer) s₀ as = some s) :
    Balanced consumer as s :=
  Transition.run_induction hs₀.balanced (fun _ _ _ _ ih hstep => ih.step hstep) hrun

/-- The ledgers hold the popped lines after every run. -/
theorem Initial.faithful_of_run {env : Env R} {s₀ : Aggregator R W T} (hs₀ : s₀.Initial)
    (hrun : Transition.run (Aggregator.step env consumer) s₀ as = some s) (i : Fin W) :
    (s.workers i).Faithful env := by
  refine worker_induction (I := fun _ w => w.Faithful env) (fun i => ?_)
    (fun _ _ _ hw hmove => hw.move hmove) hrun i
  obtain ⟨dropped, rate, bad, hw⟩ := hs₀.workers i
  rw [hw]
  exact Worker.faithful_new env _ _ _ _

/-- The counter of the dropped metrics counts them after every run. -/
theorem Initial.metricsDropped_of_run {env : Env R} {s₀ : Aggregator R W T} (hs₀ : s₀.Initial)
    (hrun : Transition.run (Aggregator.step env consumer) s₀ as = some s) (i : Fin W) :
    (s.workers i).metricsDropped =
      (s₀.workers i).metricsDropped + UInt64.ofNat (s.workers i).dropped.length := by
  refine worker_induction
    (I := fun i w => w.metricsDropped =
      (s₀.workers i).metricsDropped + UInt64.ofNat w.dropped.length)
    (fun i => ?_) (fun _ _ _ hw hmove => Worker.metricsDropped_of_move hmove hw) hrun i
  obtain ⟨dropped, rate, bad, hw⟩ := hs₀.workers i
  simp [hw]

/-- What holds of the strings of an aggregator that started in `s₀`. -/
structure Conserved (env : Env R) (consumer : AggregatorConsumer W) (s₀ : Aggregator R W T)
    (as : List (Action W T)) (s : Aggregator R W T) : Prop where
  /-- Every consumed line is in a call that is not over or has produced one string. -/
  calls : (consumedLines as : Multiset Bytes) = s.pending + ↑(s.submitted.map Prod.fst)
  /-- The string is the line itself, or the bad-keys metric. -/
  strings : ∀ p ∈ s.submitted, p.2 = if colon ∈ p.1 then p.1 else cStr consumer.badKeysMetric
  /-- A string submitted to a worker is in exactly one of the worker's places. -/
  places : ∀ i, (s.submittedTo consumer i : Multiset Bytes) = (s.workers i).held
  dropped : ∀ i, (s.workers i).metricsDropped =
    (s₀.workers i).metricsDropped + UInt64.ofNat (s.workers i).dropped.length
  /-- The ledgers hold the lines that were popped, in this order. -/
  ledgers : ∀ i, (s.workers i).Faithful env

/-- **No metric is lost or counted twice**, in any interleaving of the server
threads, the clock, the workers and the flusher threads. -/
theorem conserved (env : Env R) (strHash : Bytes → ℕ) {s₀ s : Aggregator R W T}
    (hs₀ : s₀.Initial) {as : List (Action W T)} (hnul : ∀ line ∈ consumedLines as, nul ∉ line)
    (hrun : Transition.run (Aggregator.step env (.new env.config strHash)) s₀ as = some s) :
    Conserved env (.new env.config strHash) s₀ as s := by
  have hbalanced := hs₀.balanced_of_run hrun
  have hfaithful := hs₀.faithful_of_run hrun
  constructor
  case calls => exact hbalanced.calls
  case strings =>
    intro p hp
    have hmem := hbalanced.consumed_of_submitted hp
    rw [hbalanced.strings p hp]
    split
    · rw [AggregatorConsumer.consume_of_colon _ ‹_›, cStr_eq_self (hnul p.1 hmem)]
    · rw [AggregatorConsumer.consume_of_not_colon _ ‹_›]
  case places =>
    intro i
    rw [hbalanced.arrived i, (hfaithful i).held_eq_arrived]
  case dropped => exact hs₀.metricsDropped_of_run hrun
  case ledgers => exact hfaithful

/-- One string is refused, and the next one finds the flag set and stays in hand
while the ledger is handed off. -/
def flushRun {W T : ℕ} [NeZero W] [NeZero T] : List (Action W T) :=
  [.consume 0 (ascii "a:1|c"), .push 0 true, .worker 0 .pop, .worker 0 .test, .worker 0 .buffer,
   .consume 0 (ascii "a:2|c"), .push 0 false, .countDrop 0, .interrupt 0,
   .consume 0 (ascii "a"), .push 0 true, .worker 0 .pop, .worker 0 .test,
   .worker 0 (.process 1), .worker 0 .handOff]

theorem conserved_flushRun :
    ∃ s : Aggregator Exact 1 1,
      Transition.run (Aggregator.step ⟨{}, lexicalCast⟩ (.new {} List.length)) init flushRun =
        some s ∧
      Conserved ⟨{}, lexicalCast⟩ (.new {} List.length) init flushRun s :=
  ⟨_, rfl, conserved ⟨{}, lexicalCast⟩ List.length initial_init (by decide) rfl⟩

end Aggregator

end Statsdcc
