import Mathlib
import Statsdcc.Consumer
import Statsdcc.Worker
import Statsdcc.Lib.Transition

/-!
# The running aggregator

`W` workers, `T` server threads that call `consume`, the clock, and the flusher
threads that compete for the mutex of `BackendContainer`. A run of
`Aggregator.step` is one interleaving of all of them.

`submitted` is a history variable: the lines whose call of `consume` is over,
each with the string it submitted, in the order in which the calls ended.
`delivered` is another, the order in which ledgers reached the backends.

## Main definitions

- `Aggregator.step` — one step of one thread
- `Aggregator.Initial` — the state in which `main` has created all threads

## Main results

- `Aggregator.moves_of_step` — a step moves each worker by at most one
  `Worker.Move`
- `Aggregator.worker_induction` — an invariant of single workers
-/

open Bytes

namespace Statsdcc

/-- A call of `consume` by a server thread: in `submit` before the push, or
behind a push that failed. -/
inductive ServerPc (W : ℕ)
  | idle
  | submit (worker : Fin W) (line metric : Bytes)
  | drop (worker : Fin W) (line metric : Bytes)
  deriving DecidableEq

/-- The line of a call that is not over. -/
def ServerPc.line? {W : ℕ} : ServerPc W → Option Bytes
  | idle => none
  | submit _ line _ | drop _ line _ => some line

/-- A step of the aggregator. -/
inductive Action (W T : ℕ)
  /-- A server thread calls `consume` with a line, up to the push. -/
  | consume (t : Fin T) (line : Bytes)
  /-- It pushes to the worker's queue. -/
  | push (t : Fin T) (ok : Bool)
  /-- It counts and frees a metric that was not pushed. -/
  | countDrop (t : Fin T)
  /-- The clock calls `interrupt`. -/
  | interrupt (i : Fin W)
  /-- A worker thread takes a step. -/
  | worker (i : Fin W) (a : WorkerAction)
  /-- The `j`-th flusher thread of a worker locks the mutex. -/
  | acquire (i : Fin W) (j : ℕ)
  /-- It has flushed its ledger to all backends and unlocks. -/
  | release (i : Fin W) (j : ℕ)
  deriving DecidableEq

structure Aggregator (R : Type) (W T : ℕ) where
  workers : Fin W → Worker R
  servers : Fin T → ServerPc W
  lmut : Option (Fin W × ℕ)
  submitted : List (Bytes × Bytes)
  delivered : List (Fin W × ℕ)

/-- `boost::lockfree::capacity<10000>`. -/
def queueCapacity : ℕ := 10000

namespace Aggregator

section State

variable {R : Type} {W T : ℕ}

def setWorker (s : Aggregator R W T) (i : Fin W) (w : Worker R) : Aggregator R W T :=
  { s with workers := Function.update s.workers i w }

def setServer (s : Aggregator R W T) (t : Fin T) (pc : ServerPc W) : Aggregator R W T :=
  { s with servers := Function.update s.servers t pc }

/-- The call of a server thread is over. -/
def endCall (s : Aggregator R W T) (t : Fin T) (line metric : Bytes) : Aggregator R W T :=
  { s.setServer t .idle with submitted := s.submitted ++ [(line, metric)] }

/-- The state of a flusher thread. -/
def flusherStatus (s : Aggregator R W T) (i : Fin W) (j : ℕ) : Option FlusherStatus :=
  ((s.workers i).flushers[j]?).map Flusher.status

/-- The threads have been created and nothing has happened yet. The counters
that no constructor sets hold any value. -/
structure Initial (s : Aggregator R W T) : Prop where
  workers : ∀ i, ∃ dropped rate bad, s.workers i =
    { id := i.val + 1, metricsDropped := dropped, metricsRate := rate, badLinesSeen := bad }
  servers : ∀ t, s.servers t = .idle
  lmut : s.lmut = none
  submitted : s.submitted = []
  delivered : s.delivered = []

/-- An initial state in which every counter starts at zero. -/
def init : Aggregator R W T where
  workers i := { id := i.val + 1, metricsDropped := 0, metricsRate := 0, badLinesSeen := 0 }
  servers _ := .idle
  lmut := none
  submitted := []
  delivered := []

theorem initial_init : (init : Aggregator R W T).Initial where
  workers _ := ⟨0, 0, 0, rfl⟩
  servers _ := rfl
  lmut := rfl
  submitted := rfl
  delivered := rfl

@[simp] theorem setWorker_workers (s : Aggregator R W T) (i : Fin W) (w : Worker R) :
    (s.setWorker i w).workers = Function.update s.workers i w := rfl

@[simp] theorem setServer_workers (s : Aggregator R W T) (t : Fin T) (pc : ServerPc W) :
    (s.setServer t pc).workers = s.workers := rfl

@[simp] theorem endCall_workers (s : Aggregator R W T) (t : Fin T) (line metric : Bytes) :
    (s.endCall t line metric).workers = s.workers := rfl

end State

section Step

variable {R : Type} [CDouble R] {W T : ℕ} [NeZero W]

/-- One step of one thread, `none` when it is not enabled. -/
def step (env : Env R) (consumer : AggregatorConsumer W) (s : Aggregator R W T) :
    Action W T → Option (Aggregator R W T)
  | .consume t line =>
    match s.servers t with
    | .idle =>
      let (worker, metric) := consumer.consume line
      some (s.setServer t (.submit worker line metric))
    | _ => none
  | .push t ok =>
    match s.servers t with
    | .submit i line metric =>
      if ok then
        if (s.workers i).workQueue.length < queueCapacity then
          some ((s.setWorker i ((s.workers i).enqueue metric)).endCall t line metric)
        else none
      -- the node pool of the queue may be exhausted before the queue is full
      else some (s.setServer t (.drop i line metric))
    | _ => none
  | .countDrop t =>
    match s.servers t with
    | .drop i line metric =>
      some ((s.setWorker i ((s.workers i).drop metric)).endCall t line metric)
    | _ => none
  | .interrupt i => some (s.setWorker i (s.workers i).interrupt)
  | .worker i a => ((s.workers i).act env a).map (s.setWorker i)
  | .acquire i j =>
    if s.lmut = none ∧ s.flusherStatus i j = some .waiting then
      some { s.setWorker i ((s.workers i).setFlusher j .flushing) with
        lmut := some (i, j), delivered := s.delivered ++ [(i, j)] }
    else none
  | .release i j =>
    if s.lmut = some (i, j) then
      some { s.setWorker i ((s.workers i).setFlusher j .finished) with lmut := none }
    else none

/-- What each step can do. -/
inductive Stepped (env : Env R) (consumer : AggregatorConsumer W) (s : Aggregator R W T) :
    Action W T → Aggregator R W T → Prop
  | consume {t : Fin T} (line : Bytes) (hpc : s.servers t = .idle) :
      Stepped env consumer s (.consume t line)
        (s.setServer t (.submit (consumer.consume line).1 line (consumer.consume line).2))
  | push {t : Fin T} {i : Fin W} {line metric : Bytes}
      (hpc : s.servers t = .submit i line metric) :
      Stepped env consumer s (.push t true)
        ((s.setWorker i ((s.workers i).enqueue metric)).endCall t line metric)
  | pushFailed {t : Fin T} {i : Fin W} {line metric : Bytes}
      (hpc : s.servers t = .submit i line metric) :
      Stepped env consumer s (.push t false) (s.setServer t (.drop i line metric))
  | countDrop {t : Fin T} {i : Fin W} {line metric : Bytes}
      (hpc : s.servers t = .drop i line metric) :
      Stepped env consumer s (.countDrop t)
        ((s.setWorker i ((s.workers i).drop metric)).endCall t line metric)
  | interrupt (i : Fin W) :
      Stepped env consumer s (.interrupt i) (s.setWorker i (s.workers i).interrupt)
  | worker (i : Fin W) {a : WorkerAction} {w : Worker R} (hact : (s.workers i).act env a = some w) :
      Stepped env consumer s (.worker i a) (s.setWorker i w)
  | acquire {i : Fin W} {j : ℕ} (hfree : s.lmut = none)
      (hstatus : s.flusherStatus i j = some .waiting) :
      Stepped env consumer s (.acquire i j)
        { s.setWorker i ((s.workers i).setFlusher j .flushing) with
          lmut := some (i, j), delivered := s.delivered ++ [(i, j)] }
  | release {i : Fin W} {j : ℕ} (hheld : s.lmut = some (i, j)) :
      Stepped env consumer s (.release i j)
        { s.setWorker i ((s.workers i).setFlusher j .finished) with lmut := none }

theorem stepped_of_step {env : Env R} {consumer : AggregatorConsumer W} {s s' : Aggregator R W T}
    {a : Action W T} (h : step env consumer s a = some s') : Stepped env consumer s a s' := by
  cases a with
  | consume t line =>
    simp only [step] at h
    split at h <;> cases h
    exact .consume line ‹_›
  | push t ok =>
    simp only [step] at h
    split at h
    · cases ok with
      | true =>
        simp only [if_true] at h
        split at h <;> cases h
        exact .push ‹_›
      | false =>
        cases h
        exact .pushFailed ‹_›
    · cases h
  | countDrop t =>
    simp only [step] at h
    split at h <;> cases h
    exact .countDrop ‹_›
  | interrupt i =>
    cases h
    exact .interrupt i
  | worker i a =>
    simp only [step] at h
    obtain ⟨w, hw, rfl⟩ := Option.map_eq_some_iff.mp h
    exact .worker i hw
  | acquire i j =>
    simp only [step] at h
    split_ifs at h with hc
    cases h
    exact .acquire hc.1 hc.2
  | release i j =>
    simp only [step] at h
    split_ifs at h with hc
    cases h
    exact .release hc

/-- A run of one worker thread on its own is a run of the aggregator. -/
theorem run_worker (env : Env R) (consumer : AggregatorConsumer W) {s : Aggregator R W T}
    {i : Fin W} {as : List WorkerAction} {w : Worker R}
    (h : Transition.run (Worker.act env) (s.workers i) as = some w) :
    Transition.run (step env consumer) s (as.map (.worker i)) = some (s.setWorker i w) := by
  induction as generalizing s with
  | nil =>
    rw [Transition.run_nil, Option.some.injEq] at h
    rw [List.map_nil, Transition.run_nil, ← h, setWorker, Function.update_eq_self]
  | cons a as ih =>
    obtain ⟨w', hact, hrest⟩ := Option.bind_eq_some_iff.mp h
    have hstep : step env consumer s (.worker i a) = some (s.setWorker i w') := by
      simp only [step, hact, Option.map_some]
    have hself : (s.setWorker i w').workers i = w' := Function.update_self _ _ _
    rw [List.map_cons, Transition.run_cons, hstep, Option.bind_some,
      ih (s := s.setWorker i w') (hself.symm ▸ hrest)]
    simp only [setWorker, Function.update_idem]

/-- A step moves one worker at most, and that one by a `Worker.Move`. -/
theorem moves_of_step {env : Env R} {consumer : AggregatorConsumer W} {s s' : Aggregator R W T}
    {a : Action W T} (h : step env consumer s a = some s') (i : Fin W) :
    s'.workers i = s.workers i ∨ Worker.Move env (s.workers i) (s'.workers i) := by
  have hmove : ∀ (j : Fin W) (w : Worker R), Worker.Move env (s.workers j) w →
      Function.update s.workers j w i = s.workers i ∨
        Worker.Move env (s.workers i) (Function.update s.workers j w i) := by
    intro j w hw
    by_cases hij : i = j
    · subst hij
      rw [Function.update_self]
      exact .inr hw
    · exact .inl (Function.update_of_ne hij _ _)
  cases stepped_of_step h with
  | consume | pushFailed => exact .inl rfl
  | push => exact hmove _ _ (.enqueue _)
  | countDrop => exact hmove _ _ (.drop _)
  | interrupt => exact hmove _ _ .interrupt
  | worker j hact => exact hmove _ _ (.act _ hact)
  | acquire => exact hmove _ _ (.setFlusher _ _)
  | release => exact hmove _ _ (.setFlusher _ _)

/-- An invariant of single workers: it holds of every worker at the start and
every `Worker.Move` preserves it, hence it holds of every worker after every run. -/
theorem worker_induction {env : Env R} {consumer : AggregatorConsumer W}
    {I : Fin W → Worker R → Prop} {s₀ s : Aggregator R W T} (hinit : ∀ i, I i (s₀.workers i))
    (hmove : ∀ i w w', I i w → Worker.Move env w w' → I i w') {as : List (Action W T)}
    (hrun : Transition.run (step env consumer) s₀ as = some s) (i : Fin W) :
    I i (s.workers i) := by
  refine Transition.run_induction (I := fun _ s => ∀ i, I i (s.workers i)) hinit ?_ hrun i
  intro _ t a t' ih hstep i
  rcases moves_of_step hstep i with heq | hm
  · rw [heq]
    exact ih i
  · exact hmove i _ _ (ih i) hm

end Step

end Aggregator

end Statsdcc
