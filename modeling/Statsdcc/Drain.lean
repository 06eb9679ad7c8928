import Mathlib
import Statsdcc.Delivery
import Statsdcc.Totals
import Statsdcc.Lib.Progress

/-!
# The aggregator comes to rest

Between two lines of its clients and two interrupts of the clock an aggregator has
work for a bounded number of steps, and no deadlock: neither the join of a flusher
thread nor the mutex of the backends can block for good. At rest every line is
accounted for, and the last line of a worker is in a ledger not yet reported.

## Main definitions

- `Aggregator.Idle` — every thread waits for a line or an interrupt, or is done
- `Aggregator.remaining` — a bound on the steps until then

## Main results

- `Aggregator.drains` — steps other than new calls and interrupts lead to rest
- `Aggregator.settled_of_idle` — what has become of the lines by then
-/

open Bytes

namespace Statsdcc

variable {R : Type} {W T : ℕ}

/-- A step that needs neither a new line nor the clock. -/
def Action.internal : Action W T → Bool
  | .consume _ _ | .interrupt _ => false
  | _ => true

/-- A bound on the steps that the rest of a loop body takes, the flush of the
ledger that it hands off included. -/
def WorkerPc.remaining : WorkerPc → ℕ
  | pop => 0
  | buffer _ => 1
  | clear _ => 2
  | replace _ => 3
  | publish _ => 4
  | join _ => 5
  | handOff _ => 8
  | process _ => 9
  | test _ => 10

def FlusherStatus.remaining : FlusherStatus → ℕ
  | waiting => 2
  | flushing => 1
  | finished => 0

/-- What a call of `consume` leaves to do, the metric that it submits included. -/
def ServerPc.remaining : ServerPc W → ℕ
  | idle => 0
  | drop _ _ _ => 1
  | submit _ _ _ => 12

def Worker.remaining (w : Worker R) : ℕ :=
  11 * w.workQueue.length + w.pc.remaining + (w.flushers.map fun f => f.status.remaining).sum

namespace Aggregator

/-- A bound on the internal steps that are possible. -/
def remaining (s : Aggregator R W T) : ℕ :=
  ∑ t, (s.servers t).remaining + ∑ i, (s.workers i).remaining

/-- Every thread waits for a line or an interrupt, or is done. -/
structure Idle (s : Aggregator R W T) : Prop where
  servers : ∀ t, s.servers t = .idle
  queues : ∀ i, (s.workers i).workQueue = []
  workers : ∀ i, (s.workers i).pc = .pop
  flushers : ∀ i, ∀ f ∈ (s.workers i).flushers, f.status = .finished

end Aggregator

-- ════════════════════════════════════════════════════════════════════════
-- A step uses something up
-- ════════════════════════════════════════════════════════════════════════

theorem Worker.remaining_of_act [CDouble R] {env : Env R} {w w' : Worker R} {a : WorkerAction}
    (hact : w.act env a = some w') : w'.remaining < w.remaining := by
  cases acted_of_act hact with
  | pop hpc hqueue =>
    simp only [remaining, hpc, hqueue, WorkerPc.remaining, List.length_cons]
    omega
  | handOff hpc =>
    simp only [remaining, hpc, WorkerPc.remaining, spawnFlusher, List.map_append, List.sum_append,
      List.map_singleton, List.sum_singleton, FlusherStatus.remaining]
    omega
  | testSet hpc | testClear hpc | process _ hpc | join hpc | publish hpc | replace hpc | clear hpc
  | buffer hpc =>
    simp only [remaining, hpc, WorkerPc.remaining]
    omega

theorem Worker.remaining_setFlusher {w : Worker R} {j : ℕ} {f : Flusher R}
    (hf : w.flushers[j]? = some f) (status : FlusherStatus) :
    (w.setFlusher j status).remaining + f.status.remaining = w.remaining + status.remaining := by
  have hlist : ∀ (fs : List (Flusher R)) (j : ℕ), fs[j]? = some f →
      ((fs.modify j fun f => { f with status }).map fun f => f.status.remaining).sum +
          f.status.remaining =
        (fs.map fun f => f.status.remaining).sum + status.remaining := by
    intro fs
    induction fs with
    | nil =>
      intro j hj
      cases hj
    | cons g fs ih =>
      intro j hj
      cases j with
      | zero =>
        obtain rfl : g = f := Option.some.inj hj
        simp only [List.modify_zero_cons, List.map_cons, List.sum_cons]
        omega
      | succ j =>
        have hrest := ih j hj
        simp only [List.modify_succ_cons, List.map_cons, List.sum_cons]
        omega
  have hsum := hlist w.flushers j hf
  simp only [remaining, setFlusher]
  omega

namespace Aggregator

theorem remaining_update (s s' : Aggregator R W T) {k : Fin W} {w : Worker R}
    (hworkers : s'.workers = Function.update s.workers k w) (hservers : s'.servers = s.servers) :
    s'.remaining + (s.workers k).remaining = s.remaining + w.remaining := by
  have hsum := Transition.sum_update Worker.remaining s.workers k w
  rw [remaining, remaining, hworkers, hservers]
  omega

theorem remaining_setServer (s : Aggregator R W T) (t : Fin T) (pc : ServerPc W) :
    (s.setServer t pc).remaining + (s.servers t).remaining = s.remaining + pc.remaining := by
  have hsum := Transition.sum_update ServerPc.remaining s.servers t pc
  simp only [remaining, setServer]
  omega

theorem remaining_endCall (s : Aggregator R W T) (t : Fin T) (line metric : Bytes) :
    (s.endCall t line metric).remaining + (s.servers t).remaining = s.remaining :=
  remaining_setServer s t .idle

/-- Rest is where nothing remains to be done. -/
theorem idle_iff_remaining (s : Aggregator R W T) : s.Idle ↔ s.remaining = 0 := by
  have hserver : ∀ t, s.servers t = .idle ↔ (s.servers t).remaining = 0 := by
    intro t
    cases s.servers t <;> simp [ServerPc.remaining]
  have hpc : ∀ i, (s.workers i).pc = .pop ↔ (s.workers i).pc.remaining = 0 := by
    intro i
    cases (s.workers i).pc <;> simp [WorkerPc.remaining]
  have hflusher : ∀ f : Flusher R, f.status = .finished ↔ f.status.remaining = 0 := by
    intro f
    cases f.status <;> simp [FlusherStatus.remaining]
  have hworker : ∀ i, (s.workers i).remaining = 0 ↔ (s.workers i).workQueue = [] ∧
      (s.workers i).pc = .pop ∧ ∀ f ∈ (s.workers i).flushers, f.status = .finished := by
    intro i
    rw [Worker.remaining, Nat.add_eq_zero_iff, Nat.add_eq_zero_iff, and_assoc, hpc,
      List.sum_eq_zero_iff]
    refine and_congr (by simp) (and_congr Iff.rfl ?_)
    simp only [List.forall_mem_map, hflusher]
  rw [remaining, Nat.add_eq_zero_iff, Finset.sum_eq_zero_iff, Finset.sum_eq_zero_iff]
  constructor
  · rintro ⟨hservers, hqueues, hworkers, hflushers⟩
    exact ⟨fun t _ => (hserver t).mp (hservers t),
      fun i _ => (hworker i).mpr ⟨hqueues i, hworkers i, hflushers i⟩⟩
  · intro h
    exact ⟨fun t => (hserver t).mpr (h.1 t (Finset.mem_univ t)),
      fun i => ((hworker i).mp (h.2 i (Finset.mem_univ i))).1,
      fun i => ((hworker i).mp (h.2 i (Finset.mem_univ i))).2.1,
      fun i => ((hworker i).mp (h.2 i (Finset.mem_univ i))).2.2⟩

variable [CDouble R] [NeZero W]

/-- An internal step uses something up. -/
theorem remaining_of_step {env : Env R} {consumer : AggregatorConsumer W}
    {s s' : Aggregator R W T} {a : Action W T} (h : s.Serialised) (ha : a.internal = true)
    (hstep : step env consumer s a = some s') : s'.remaining < s.remaining := by
  cases stepped_of_step hstep with
  | consume | interrupt => cases ha
  | @push t i line metric hpc =>
    have hworker := remaining_update s (s.setWorker i ((s.workers i).enqueue metric)) rfl rfl
    have hcall := (s.setWorker i ((s.workers i).enqueue metric)).remaining_endCall t line metric
    have hserver : ((s.setWorker i ((s.workers i).enqueue metric)).servers t).remaining = 12 :=
      congrArg ServerPc.remaining hpc
    have hqueue : ((s.workers i).enqueue metric).remaining = (s.workers i).remaining + 11 := by
      simp only [Worker.remaining, Worker.enqueue, List.length_append, List.length_singleton]
      omega
    omega
  | @pushFailed t i line metric hpc =>
    have hserver := s.remaining_setServer t (.drop i line metric)
    rw [hpc] at hserver
    simp only [ServerPc.remaining] at hserver
    omega
  | @countDrop t i line metric hpc =>
    have hworker := remaining_update s (s.setWorker i ((s.workers i).drop metric)) rfl rfl
    have hcall := (s.setWorker i ((s.workers i).drop metric)).remaining_endCall t line metric
    have hserver : ((s.setWorker i ((s.workers i).drop metric)).servers t).remaining = 1 :=
      congrArg ServerPc.remaining hpc
    have hdrop : ((s.workers i).drop metric).remaining = (s.workers i).remaining := rfl
    omega
  | @worker i a w hact =>
    have hworker := remaining_update s (s.setWorker i w) rfl rfl
    have hlt := Worker.remaining_of_act hact
    omega
  | @acquire i j hfree hstatus =>
    obtain ⟨f, hf, hwaiting⟩ := Option.map_eq_some_iff.mp hstatus
    have hset := Worker.remaining_setFlusher hf .flushing
    rw [hwaiting] at hset
    have hworker := remaining_update s
      { s.setWorker i ((s.workers i).setFlusher j .flushing) with
        lmut := some (i, j), delivered := s.delivered ++ [(i, j)] }
      (k := i) (w := (s.workers i).setFlusher j .flushing) rfl rfl
    simp only [FlusherStatus.remaining] at hset
    omega
  | @release i j hheld =>
    obtain ⟨f, hf, hflushing⟩ := Option.map_eq_some_iff.mp ((h.holder i j).mpr hheld)
    have hset := Worker.remaining_setFlusher hf .finished
    rw [hflushing] at hset
    have hworker := remaining_update s
      { s.setWorker i ((s.workers i).setFlusher j .finished) with lmut := none }
      (k := i) (w := (s.workers i).setFlusher j .finished) rfl rfl
    simp only [FlusherStatus.remaining] at hset
    omega

theorem consumes (env : Env R) (consumer : AggregatorConsumer W) :
    Transition.Consumes (step (T := T) env consumer) (fun a => a.internal = true) Serialised
      remaining where
  keeps _ _ _ h _ hstep := h.step hstep
  decreases _ _ _ h ha hstep := remaining_of_step h ha hstep

-- ════════════════════════════════════════════════════════════════════════
-- No deadlock
-- ════════════════════════════════════════════════════════════════════════

section Progress

variable {env : Env R} {consumer : AggregatorConsumer W} {s : Aggregator R W T}

/-- A call of `consume` goes on. -/
theorem progress_server {t : Fin T} (h : s.servers t ≠ .idle) :
    ∃ a, Action.internal a = true ∧ (step env consumer s a).isSome = true := by
  cases hpc : s.servers t with
  | idle => exact absurd hpc h
  | submit i line metric => exact ⟨.push t false, rfl, by simp [step, hpc]⟩
  | drop i line metric => exact ⟨.countDrop t, rfl, by simp [step, hpc]⟩

/-- A flusher thread that is not done goes on, or the one that has the mutex does. -/
theorem Serialised.progress_flusher (h : s.Serialised) {i : Fin W} {f : Flusher R}
    (hf : f ∈ (s.workers i).flushers) (hstatus : f.status ≠ .finished) :
    ∃ a, Action.internal a = true ∧ (Aggregator.step env consumer s a).isSome = true := by
  cases hlmut : s.lmut with
  | some holder => exact ⟨.release holder.1 holder.2, rfl, by simp [Aggregator.step, hlmut]⟩
  | none =>
    obtain ⟨j, hj⟩ := List.mem_iff_getElem?.mp hf
    have hget : s.flusherStatus i j = some f.status := by rw [flusherStatus, hj, Option.map_some]
    cases hs : f.status with
    | finished => exact absurd hs hstatus
    | flushing =>
      rw [hs, h.holder, hlmut] at hget
      cases hget
    | waiting =>
      rw [hs] at hget
      exact ⟨.acquire i j, rfl, by simp [Aggregator.step, hlmut, hget]⟩

/-- A worker that is not about to pop goes on, since no flusher thread keeps it. -/
theorem progress_worker {i : Fin W} (hpc : (s.workers i).pc ≠ .pop)
    (hdone : ∀ f ∈ (s.workers i).flushers, f.status = .finished) :
    ∃ a, Action.internal a = true ∧ (step env consumer s a).isSome = true := by
  have hprevious : (s.workers i).previousFinished = true := by
    rw [Worker.previousFinished, Option.all_eq_true]
    intro f hf
    exact decide_eq_true (hdone f (List.mem_of_mem_dropLast (List.mem_of_getLast? hf)))
  cases hw : (s.workers i).pc with
  | pop => exact absurd hw hpc
  | test metric =>
    refine ⟨.worker i .test, rfl, ?_⟩
    cases hflag : (s.workers i).interruptFlag <;> simp [step, Worker.act, hw, hflag]
  | process item => exact ⟨.worker i (.process 0), rfl, by simp [step, Worker.act, hw]⟩
  | handOff item => exact ⟨.worker i .handOff, rfl, by simp [step, Worker.act, hw]⟩
  | join item => exact ⟨.worker i .join, rfl, by simp [step, Worker.act, hw, hprevious]⟩
  | publish item => exact ⟨.worker i .publish, rfl, by simp [step, Worker.act, hw]⟩
  | replace item => exact ⟨.worker i .replace, rfl, by simp [step, Worker.act, hw]⟩
  | clear item => exact ⟨.worker i .clear, rfl, by simp [step, Worker.act, hw]⟩
  | buffer item => exact ⟨.worker i .buffer, rfl, by simp [step, Worker.act, hw]⟩

theorem progress_pop {i : Fin W} (hpc : (s.workers i).pc = .pop)
    (hqueue : (s.workers i).workQueue ≠ []) :
    ∃ a, Action.internal a = true ∧ (step env consumer s a).isSome = true := by
  obtain ⟨metric, queue, hcons⟩ := List.exists_cons_of_ne_nil hqueue
  exact ⟨.worker i .pop, rfl, by simp [step, Worker.act, hpc, hcons]⟩

/-- Where no internal step is possible everything is at rest. -/
theorem Serialised.progress (h : s.Serialised) (hs : ¬s.Idle) :
    ∃ a, Action.internal a = true ∧ (Aggregator.step env consumer s a).isSome = true := by
  by_contra hstuck
  refine hs ⟨?servers, ?queues, ?workers, ?flushers⟩
  case flushers =>
    intro i f hf
    by_contra hstatus
    exact hstuck (h.progress_flusher hf hstatus)
  case servers =>
    intro t
    by_contra hpc
    exact hstuck (progress_server hpc)
  case workers =>
    intro i
    by_contra hpc
    refine hstuck (progress_worker hpc fun f hf => ?_)
    by_contra hstatus
    exact hstuck (h.progress_flusher hf hstatus)
  case queues =>
    intro i
    by_contra hqueue
    by_cases hpc : (s.workers i).pc = .pop
    · exact hstuck (progress_pop hpc hqueue)
    · refine hstuck (progress_worker hpc fun f hf => ?_)
      by_contra hstatus
      exact hstuck (h.progress_flusher hf hstatus)

end Progress

/-- **The aggregator comes to rest**: from every reachable state the steps that need
neither a new line nor the clock are bounded in number, they are possible as long
as something is not at rest, and so they lead to rest. -/
theorem drains (env : Env R) (consumer : AggregatorConsumer W) {s₀ s : Aggregator R W T}
    (hs₀ : s₀.Initial) (as : List (Action W T))
    (hrun : Transition.run (Aggregator.step env consumer) s₀ as = some s) :
    (∀ bs s', (∀ b ∈ bs, Action.internal b = true) →
        Transition.run (Aggregator.step env consumer) s bs = some s' →
          bs.length + s'.remaining ≤ s.remaining) ∧
      ((∀ b, Action.internal b = true → Aggregator.step env consumer s b = none) ↔ s.Idle) ∧
      ∃ bs s', (∀ b ∈ bs, Action.internal b = true) ∧
        Transition.run (Aggregator.step env consumer) s bs = some s' ∧ s'.Idle := by
  have hserialised := serialised_of_run hs₀ hrun
  refine ⟨fun bs s' => (consumes env consumer).length_le hserialised, ⟨?stuck, ?idle⟩, ?rest⟩
  case stuck =>
    intro hstuck
    by_contra hs
    obtain ⟨b, hb, hsome⟩ := hserialised.progress hs
    rw [hstuck b hb] at hsome
    cases hsome
  case idle =>
    intro hidle b hb
    by_contra hne
    obtain ⟨s', hstep⟩ := Option.ne_none_iff_exists'.mp hne
    have hlt := remaining_of_step hserialised hb hstep
    rw [(idle_iff_remaining s).mp hidle] at hlt
    exact absurd hlt (Nat.not_lt_zero _)
  case rest => exact (consumes env consumer).exists_run (fun _ h => h.progress) hserialised

-- ════════════════════════════════════════════════════════════════════════
-- What has become of the lines
-- ════════════════════════════════════════════════════════════════════════

/-- The loop body ends with a line in the ledger. -/
theorem unreported_of_move {env : Env R} {w w' : Worker R}
    (h : w.pc = .pop → w.popped ≠ [] → w.currentLines ≠ []) (hmove : Worker.Move env w w') :
    w'.pc = .pop → w'.popped ≠ [] → w'.currentLines ≠ [] := by
  cases hmove with
  | interrupt | enqueue | drop | setFlusher => exact h
  | act a hact =>
    cases Worker.acted_of_act hact with
    | buffer hpc => exact fun _ _ => List.append_ne_nil_of_right_ne_nil _ (List.cons_ne_nil _ _)
    | pop | testSet | testClear | process | handOff | join | publish | replace | clear =>
      intro hpc
      cases hpc

/-- The lines at rest. -/
structure Settled (consumer : AggregatorConsumer W) (as : List (Action W T))
    (s : Aggregator R W T) : Prop where
  /-- Each consumed line was dropped, or is in a ledger. -/
  lines : strings consumer ↑(consumedLines as) =
    ∑ i, (((s.workers i).dropped : Multiset Bytes) + ↑((s.workers i).flushedLines.map Prod.fst) +
      ↑((s.workers i).currentLines.map Prod.fst))
  /-- A ledger that was cut has reached the backends once. -/
  delivered : ∀ i, (s.deliveredOf i).Perm (List.range (s.workers i).flushers.length)
  /-- What a worker popped last has not. -/
  unreported : ∀ i, (s.workers i).popped =
      ((s.workers i).flushedLines ++ (s.workers i).currentLines).map Prod.fst ∧
    ((s.workers i).popped ≠ [] → (s.workers i).currentLines ≠ [])

/-- **At rest every line is accounted for**: it was dropped, or is in one ledger. All
ledgers cut have been reported once, but the last line of each worker is in the one
that has not been cut. -/
theorem settled_of_idle (env : Env R) (consumer : AggregatorConsumer W) {s₀ s : Aggregator R W T}
    (hs₀ : s₀.Initial) (as : List (Action W T))
    (hrun : Transition.run (Aggregator.step env consumer) s₀ as = some s) (hidle : s.Idle) :
    Settled consumer as s := by
  have hbalanced := hs₀.balanced_of_run hrun
  have hplaces : ∀ i, (s.workers i).held =
      ↑(s.workers i).dropped + ↑((s.workers i).flushedLines.map Prod.fst) +
        ↑((s.workers i).currentLines.map Prod.fst) := by
    intro i
    rw [Worker.held, Worker.unflushedLines, hidle.workers i, hidle.queues i]
    show _ + 0 + 0 + _ + _ = _
    rw [add_zero, add_zero]
    exact add_right_comm _ _ _
  constructor
  case lines =>
    have hpending : s.pending = 0 :=
      Finset.sum_eq_zero fun t _ => by rw [hidle.servers t]; rfl
    rw [hbalanced.calls, hpending, zero_add, hbalanced.strings_submitted,
      ← sum_submittedTo consumer]
    refine Finset.sum_congr rfl fun i _ => ?_
    rw [hbalanced.arrived i, ← (hs₀.faithful_of_run hrun i).held_eq_arrived, hplaces]
  case delivered => exact fun i => (serialised_of_run hs₀ hrun).perm_delivered (hidle.flushers i)
  case unreported =>
    intro i
    constructor
    · have horder := (hs₀.faithful_of_run hrun i).order
      rw [Worker.unflushedLines, hidle.workers i] at horder
      exact horder.trans (List.append_nil _)
    · refine worker_induction (I := fun _ w => w.pc = .pop → w.popped ≠ [] → w.currentLines ≠ [])
        (fun i => ?_) (fun _ _ _ hw hmove => unreported_of_move hw hmove) hrun i (hidle.workers i)
      obtain ⟨dropped, rate, bad, hw⟩ := hs₀.workers i
      rw [hw]
      exact fun _ hne => absurd rfl hne

/-- A line, an interrupt, and a line of the same worker that cuts the ledger. -/
def restRun {W T : ℕ} [NeZero W] [NeZero T] : List (Action W T) :=
  [.consume 0 (ascii "a:1|c"), .push 0 true, .worker 0 .pop, .worker 0 .test, .worker 0 .buffer,
   .interrupt 0, .consume 0 (ascii "b:2|c"), .push 0 true, .worker 0 .pop, .worker 0 .test,
   .worker 0 (.process 1), .worker 0 .handOff, .worker 0 .join, .worker 0 .publish,
   .worker 0 .replace, .acquire 0 0, .worker 0 .clear, .release 0 0, .worker 0 .buffer]

theorem drains_flushRun :
    ∃ s : Aggregator Exact 1 1,
      Transition.run (step ⟨{}, lexicalCast⟩ (.new {} List.length)) init flushRun = some s ∧
        ∃ bs s', (∀ b ∈ bs, Action.internal b = true) ∧
          Transition.run (step ⟨{}, lexicalCast⟩ (.new {} List.length)) s bs = some s' ∧ s'.Idle :=
  ⟨_, rfl, (drains ⟨{}, lexicalCast⟩ (.new {} List.length) initial_init flushRun rfl).2.2⟩

theorem settled_restRun :
    ∃ s : Aggregator Exact 1 1,
      Transition.run (step ⟨{}, lexicalCast⟩ (.new {} List.length)) init restRun = some s ∧
        (s.workers 0).flushedLines.map Prod.fst = [ascii "a:1|c"] ∧
        Settled (.new {} List.length) restRun s :=
  ⟨_, rfl, rfl, settled_of_idle ⟨{}, lexicalCast⟩ (.new {} List.length) initial_init restRun rfl
    ((idle_iff_remaining _).mpr rfl)⟩

end Aggregator

end Statsdcc
