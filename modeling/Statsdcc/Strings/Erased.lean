import Mathlib
import Statsdcc.Strings

/-!
# The queues of the model

The models of the aggregator and of the proxy have strings in their queues. Both
use them as `Handoff` says, and so do the pointers of the program: a run of the
threads on pointers and a run of a model that have made the same events agree in
every string.

## Main results

- `Aggregator.handoff_of_run`, `Proxy.handoff_of_run` — the models of the queues
- `Aggregator.erase_eq_handoff`, `Proxy.erase_eq_handoff` — the pointers stand for
  the strings of the models
-/

open Bytes

namespace Statsdcc

-- ════════════════════════════════════════════════════════════════════════
-- The aggregator
-- ════════════════════════════════════════════════════════════════════════

/-- The string of a call and its queue. -/
def ServerPc.call {W : ℕ} : ServerPc W → Multiset (Fin W × Bytes)
  | idle => 0
  | submit worker _ metric | drop worker _ metric => {(worker, metric)}

namespace Aggregator

variable {R : Type} {W T : ℕ}

/-- The strings of the calls, in the queues, and in the hands of the workers. -/
def handoff (s : Aggregator R W T) : Handoff Bytes (Fin W) (Fin W) where
  calls := ∑ t, (s.servers t).call
  queues i := (s.workers i).workQueue
  hands i := (s.workers i).pc.inHand.head?

/-- What a step does to them. -/
def events [NeZero W] (consumer : AggregatorConsumer W) (s : Aggregator R W T) :
    Action W T → List (Handoff.Event Bytes (Fin W) (Fin W))
  | .consume _ line => [.call (consumer.consume line).1 (consumer.consume line).2]
  | .push t true =>
    match s.servers t with
    | .submit i _ metric => [.push i metric]
    | _ => []
  | .countDrop t =>
    match s.servers t with
    | .drop i _ metric => [.drop i metric]
    | _ => []
  | .worker i .pop => (s.workers i).workQueue.head?.toList.map (.pop i)
  | .worker i .buffer => [.finish i]
  | _ => []

theorem Initial.handoff {s : Aggregator R W T} (hs : s.Initial) : s.handoff = {} := by
  have hcalls : ∑ t, (s.servers t).call = 0 := by
    refine Finset.sum_eq_zero fun t _ => ?_
    rw [hs.servers]
    rfl
  have hqueues : (fun i => (s.workers i).workQueue) = fun _ => [] := by
    funext i
    obtain ⟨dropped, rate, bad, hw⟩ := hs.workers i
    rw [hw]
  have hhands : (fun i => (s.workers i).pc.inHand.head?) = fun _ => none := by
    funext i
    obtain ⟨dropped, rate, bad, hw⟩ := hs.workers i
    rw [hw]
    rfl
  show Handoff.mk _ _ _ = Handoff.mk 0 _ _
  rw [hcalls, hqueues, hhands]

section Steps

variable {s : Aggregator R W T}

/-- The calls when one server thread goes on. -/
theorem calls_setServer (s : Aggregator R W T) (t : Fin T) (pc : ServerPc W) :
    ∑ t', (Function.update s.servers t pc t').call + (s.servers t).call =
      ∑ t', (s.servers t').call + pc.call :=
  Transition.sum_update ServerPc.call s.servers t pc

/-- One worker has a new queue and a new line. -/
theorem handoff_update {u : Aggregator R W T} {i : Fin W} {w : Worker R}
    (hworkers : u.workers = Function.update s.workers i w) :
    u.handoff =
      { calls := u.handoff.calls
        queues := Function.update s.handoff.queues i w.workQueue
        hands := Function.update s.handoff.hands i w.pc.inHand.head? } := by
  have hqueues : u.handoff.queues = Function.update s.handoff.queues i w.workQueue := by
    show (fun j => (u.workers j).workQueue) = _
    rw [hworkers]
    exact Function.comp_update Worker.workQueue s.workers i w
  have hhands : u.handoff.hands = Function.update s.handoff.hands i w.pc.inHand.head? := by
    show (fun j => (u.workers j).pc.inHand.head?) = _
    rw [hworkers]
    exact Function.comp_update (fun w : Worker R => w.pc.inHand.head?) s.workers i w
  rw [← hqueues, ← hhands]

/-- A worker that leaves its queue and its line alone. -/
theorem handoff_of_same {u : Aggregator R W T} {i : Fin W} {w : Worker R}
    (hworkers : u.workers = Function.update s.workers i w)
    (hqueue : w.workQueue = (s.workers i).workQueue)
    (hhand : w.pc.inHand.head? = (s.workers i).pc.inHand.head?) :
    u.handoff = { s.handoff with calls := u.handoff.calls } := by
  rw [handoff_update hworkers, hqueue, hhand]
  show Handoff.mk _ (Function.update s.handoff.queues i (s.handoff.queues i))
    (Function.update s.handoff.hands i (s.handoff.hands i)) = _
  rw [Function.update_eq_self, Function.update_eq_self]

variable [CDouble R] [NeZero W] {env : Env R} {consumer : AggregatorConsumer W}

/-- A push that succeeds finds room. -/
theorem room_of_push {s' : Aggregator R W T} {t : Fin T} {i : Fin W} {line metric : Bytes}
    (hpc : s.servers t = .submit i line metric)
    (hstep : step env consumer s (.push t true) = some s') :
    (s.workers i).workQueue.length < queueCapacity := by
  simp only [step, hpc, if_true] at hstep
  split_ifs at hstep with hroom
  exact hroom

/-- The steps of `Worker::process`: the pop, the end of the loop body, and those between. -/
theorem handoff_act {i : Fin W} {a : WorkerAction} {w : Worker R}
    (hact : (s.workers i).act env a = some w) :
    Transition.run (Handoff.step queueCapacity id) s.handoff (s.events consumer (.worker i a)) =
      some (s.setWorker i w).handoff := by
  cases Worker.acted_of_act hact with
  | @pop metric queue hpc hqueue =>
    have hhand : s.handoff.hands i = none :=
      congrArg (fun pc : WorkerPc => pc.inHand.head?) hpc
    simp only [events, hqueue]
    show Transition.run _ s.handoff [Handoff.Event.pop i metric] = _
    have hfront : s.handoff.queues (id i) = metric :: queue := hqueue
    rw [Transition.run_cons, Handoff.step_pop hhand hfront,
      handoff_update (s.setWorker_workers i _)]
    rfl
  | @buffer item hpc =>
    have hhand : s.handoff.hands i = some item.1 :=
      congrArg (fun pc : WorkerPc => pc.inHand.head?) hpc
    simp only [events]
    rw [Transition.run_cons, Handoff.step_finish hhand, handoff_update (s.setWorker_workers i _)]
    show some (Handoff.mk _ s.handoff.queues _) =
      some (Handoff.mk _ (Function.update s.handoff.queues i (s.handoff.queues i)) _)
    rw [Function.update_eq_self]
    rfl
  | testSet hpc | testClear hpc | process _ hpc | handOff hpc | join hpc | publish hpc
  | replace hpc | clear hpc =>
    refine congrArg some (Eq.symm ?_)
    refine handoff_of_same (s.setWorker_workers i _) ?_ ?_
    · rfl
    · rw [hpc]
      rfl

/-- What a step of the aggregator does to its queues is what its events say. -/
theorem handoff_step {s' : Aggregator R W T} {a : Action W T}
    (hstep : step env consumer s a = some s') :
    Transition.run (Handoff.step queueCapacity id) s.handoff (s.events consumer a) =
      some s'.handoff := by
  cases stepped_of_step hstep with
  | @consume t line hpc =>
    have hcalls := s.calls_setServer t (.submit (consumer.consume line).1 line
      (consumer.consume line).2)
    rw [hpc] at hcalls
    have hcalls' := (add_zero _).symm.trans hcalls
    exact congrArg (fun calls => some { s.handoff with calls }) hcalls'.symm
  | @push t i line metric hpc =>
    have hcalls := s.calls_setServer t .idle
    rw [hpc] at hcalls
    have hcalls' : ∑ t', (Function.update s.servers t .idle t').call + {(i, metric)} =
        s.handoff.calls := hcalls.trans (add_zero _)
    simp only [events, hpc]
    rw [Transition.run_cons, Handoff.step_push hcalls' (room_of_push hpc hstep),
      handoff_update (u := (s.setWorker i ((s.workers i).enqueue metric)).endCall t line metric)
        rfl]
    show some (Handoff.mk _ _ s.handoff.hands) =
      some (Handoff.mk _ _ (Function.update s.handoff.hands i (s.handoff.hands i)))
    rw [Function.update_eq_self]
    rfl
  | @pushFailed t i line metric hpc =>
    have hcalls := s.calls_setServer t (.drop i line metric)
    rw [hpc] at hcalls
    have hcalls' := add_right_cancel hcalls
    exact congrArg (fun calls => some { s.handoff with calls }) hcalls'.symm
  | @countDrop t i line metric hpc =>
    have hcalls := s.calls_setServer t .idle
    rw [hpc] at hcalls
    have hcalls' : ∑ t', (Function.update s.servers t .idle t').call + {(i, metric)} =
        s.handoff.calls := hcalls.trans (add_zero _)
    simp only [events, hpc]
    rw [Transition.run_cons, Handoff.step_drop hcalls', handoff_of_same
      (u := (s.setWorker i ((s.workers i).drop metric)).endCall t line metric) rfl rfl rfl]
    rfl
  | interrupt i =>
    refine congrArg some (Eq.symm ?_)
    exact handoff_of_same (s.setWorker_workers i _) rfl rfl
  | worker i hact => exact handoff_act hact
  | @acquire i j hfree hstatus =>
    refine congrArg some (Eq.symm ?_)
    exact handoff_of_same (s.setWorker_workers i ((s.workers i).setFlusher j .flushing)) rfl rfl
  | @release i j hheld =>
    refine congrArg some (Eq.symm ?_)
    exact handoff_of_same (s.setWorker_workers i ((s.workers i).setFlusher j .finished)) rfl rfl

/-- The aggregator uses its queues as `Handoff` says, in every run. -/
theorem handoff_of_run {s₀ s : Aggregator R W T} (hs₀ : s₀.Initial) {as : List (Action W T)}
    (hrun : Transition.run (step env consumer) s₀ as = some s) :
    Transition.run (Handoff.step queueCapacity id) {}
        (Transition.trace (step env consumer) (events consumer) s₀ as) = some s.handoff := by
  rw [← hs₀.handoff]
  exact (Transition.run_trace (I := fun _ => True) trivial (fun _ _ _ _ _ => trivial)
    (fun _ _ _ _ hstep => handoff_step hstep) hrun).2

/-- When the threads have done to the pointers what the aggregator has done to its
strings, each pointer stands for the string in its place. -/
theorem erase_eq_handoff {s₀ s : Aggregator R W T} (hs₀ : s₀.Initial) {as : List (Action W T)}
    (hrun : Transition.run (step env consumer) s₀ as = some s) {ptrs : Strings W T W}
    {bs : List (StringsAction T W)}
    (hptrs : Transition.run (Strings.step consumer.route id) {} bs = some ptrs)
    (hsame : Transition.trace (Strings.step consumer.route id) (Strings.events consumer.route id)
      {} bs = Transition.trace (step env consumer) (events consumer) s₀ as) :
    ptrs.erase = s.handoff := by
  have hstrings := (Strings.custody_of_run hptrs).2
  rw [hsame, handoff_of_run hs₀ hrun] at hstrings
  exact (Option.some.inj hstrings).symm

end Steps

end Aggregator

-- ════════════════════════════════════════════════════════════════════════
-- The proxy
-- ════════════════════════════════════════════════════════════════════════

namespace Proxy

variable {T : ℕ}

/-- The strings in the queue and in the hands of the threads. -/
def handoff (s : Proxy T) : Handoff Bytes (Fin 1) (Fin T) where
  queues _ := s.workQueue
  hands t := (s.threads t).inHand.head?

/-- What a step does to them: here a call of `consume` is one step. -/
def events (env : ProxyEnv) (s : Proxy T) :
    ProxyAction T → List (Handoff.Event Bytes (Fin 1) (Fin T))
  | .consume line true => [.call (Fin.last 0) (cStr line), .push (Fin.last 0) (cStr line)]
  | .consume line false => [.call (Fin.last 0) (cStr line), .drop (Fin.last 0) (cStr line)]
  | .pop t => s.workQueue.head?.toList.map (.pop t)
  | .check t =>
    match s.threads t with
    | .check metric => if env.blacklist.any fun regex => regex metric then [.finish t] else []
    | _ => []
  | .print t => if env.destinations = 0 then [.finish t] else []
  | .route t => [.finish t]

section Steps

variable {s s' : Proxy T}

/-- A thread that goes on and leaves the queue alone. -/
theorem handoff_of_thread {t : Fin T} {pc : ProxyPc}
    (hthreads : s'.threads = Function.update s.threads t pc) (hqueue : s'.workQueue = s.workQueue) :
    s'.handoff = { s.handoff with
      hands := Function.update s.handoff.hands t pc.inHand.head? } := by
  have hhands : s'.handoff.hands = Function.update s.handoff.hands t pc.inHand.head? := by
    show (fun t' => (s'.threads t').inHand.head?) = _
    rw [hthreads]
    exact Function.comp_update (fun pc : ProxyPc => pc.inHand.head?) s.threads t pc
  rw [← hhands]
  show Handoff.mk 0 (fun _ => s'.workQueue) _ = Handoff.mk 0 (fun _ => s.workQueue) _
  rw [hqueue]
  rfl

/-- A thread that is done with its line. -/
theorem step_handoff_finish {t : Fin T} {metric : Bytes}
    (hhand : (s.threads t).inHand = [metric])
    (hthreads : s'.threads = Function.update s.threads t .pop)
    (hqueue : s'.workQueue = s.workQueue) :
    Transition.run (Handoff.step queueCapacity fun _ => 0) s.handoff [.finish t] =
      some s'.handoff := by
  have hhand' : s.handoff.hands t = some metric := congrArg List.head? hhand
  rw [Transition.run_cons, Handoff.step_finish hhand', handoff_of_thread hthreads hqueue]
  rfl

/-- A thread that keeps its line. -/
theorem handoff_keep {t : Fin T} {pc : ProxyPc} (hhand : pc.inHand = (s.threads t).inHand)
    (hthreads : s'.threads = Function.update s.threads t pc)
    (hqueue : s'.workQueue = s.workQueue) : s'.handoff = s.handoff := by
  rw [handoff_of_thread hthreads hqueue, hhand]
  show Handoff.mk _ _ (Function.update s.handoff.hands t (s.handoff.hands t)) = _
  rw [Function.update_eq_self]

/-- The one queue. -/
theorem update_queue {α : Type*} (f : Fin 1 → α) (q : Fin 1) (x : α) :
    Function.update f q x = fun _ => x := by
  funext q'
  rw [Subsingleton.elim q' q, Function.update_self]

variable {env : ProxyEnv}

/-- What a step of the proxy does to its queue is what its events say. -/
theorem handoff_step {a : ProxyAction T} (hstep : step env s a = some s') :
    Transition.run (Handoff.step queueCapacity fun _ => 0) s.handoff (s.events env a) =
      some s'.handoff := by
  cases stepped_of_step hstep with
  | accept line =>
    have hroom : s.workQueue.length < queueCapacity := by
      simp only [step, if_true] at hstep
      split_ifs at hstep with hroom
      exact hroom
    have hcall : Handoff.step queueCapacity (fun _ => 0) s.handoff
        (.call (Fin.last 0) (cStr line)) =
          some { s.handoff with calls := 0 + {(Fin.last 0, cStr line)} } := rfl
    simp only [events]
    rw [Transition.run_cons, hcall, Option.bind_some, Transition.run_cons,
      Handoff.step_push rfl hroom, update_queue]
    rfl
  | drop line =>
    have hcall : Handoff.step queueCapacity (fun _ => 0) s.handoff
        (.call (Fin.last 0) (cStr line)) =
          some { s.handoff with calls := 0 + {(Fin.last 0, cStr line)} } := rfl
    simp only [events]
    rw [Transition.run_cons, hcall, Option.bind_some, Transition.run_cons, Handoff.step_drop rfl]
    rfl
  | @pop t metric queue hpc hqueue =>
    have hhand : s.handoff.hands t = none := congrArg (fun pc : ProxyPc => pc.inHand.head?) hpc
    have hfront : s.handoff.queues 0 = metric :: queue := hqueue
    have hcheck : (s.setThread t (.check metric)).threads =
        Function.update s.threads t (.check metric) := rfl
    have hthread : (s.setThread t (.check metric)).handoff = { s.handoff with
        hands := Function.update s.handoff.hands t (some metric) } :=
      handoff_of_thread hcheck rfl
    simp only [events, hqueue]
    show Transition.run _ s.handoff [Handoff.Event.pop t metric] = _
    rw [Transition.run_cons, Handoff.step_pop hhand hfront, update_queue]
    exact congrArg (fun hands => some (Handoff.mk 0 (fun _ => queue) hands))
      (congrArg Handoff.hands hthread).symm
  | @blacklist t metric hpc hmatch =>
    simp only [events, hpc, hmatch, if_true]
    exact step_handoff_finish (by rw [hpc]; rfl : _ = [metric]) rfl rfl
  | @pass t metric hpc hmatch =>
    have hkeep : (s.setThread t (.print metric)).handoff = s.handoff :=
      handoff_keep (by rw [hpc]; rfl) rfl rfl
    simp only [events, hpc, hmatch, hkeep]
    rfl
  | @discard t metric printed hpc hnone =>
    simp only [events, hnone, if_true]
    exact step_handoff_finish (by rw [hpc]; rfl : _ = [metric]) rfl rfl
  | @print t metric printed hpc hsome =>
    simp only [events, hsome, if_false]
    refine congrArg some (Eq.symm ?_)
    have hkeep : (s.setThread t (.route metric)).handoff = s.handoff :=
      handoff_keep (by rw [hpc]; rfl) rfl rfl
    exact hkeep
  | @send t metric hpc hcolon => exact step_handoff_finish (by rw [hpc]; rfl : _ = [metric]) rfl rfl
  | @countBad t metric hpc hcolon =>
    exact step_handoff_finish (by rw [hpc]; rfl : _ = [metric]) rfl rfl

/-- The proxy uses its queue as `Handoff` says, in every run. -/
theorem handoff_of_run (dropped bad : UInt64) {as : List (ProxyAction T)}
    (hrun : Transition.run (step env) { metricsDropped := dropped, badLinesSeen := bad } as =
      some s) :
    Transition.run (Handoff.step queueCapacity fun _ => 0) {}
        (Transition.trace (step env) (events env)
          { metricsDropped := dropped, badLinesSeen := bad } as) = some s.handoff :=
  (Transition.run_trace (f := handoff) (I := fun _ => True) trivial (fun _ _ _ _ _ => trivial)
    (fun _ _ _ _ hstep => handoff_step hstep) hrun).2

/-- The same of the pointers of the proxy, whose threads share one queue. -/
theorem erase_eq_handoff (dropped bad : UInt64) {as : List (ProxyAction T)}
    (hrun : Transition.run (step env) { metricsDropped := dropped, badLinesSeen := bad } as =
      some s) {S : ℕ} {ptrs : Strings 1 S T} {bs : List (StringsAction S T)}
    (hptrs : Transition.run (Strings.step (fun line => (0, line)) fun _ => 0) {} bs = some ptrs)
    (hsame : Transition.trace (Strings.step (fun line => (0, line)) fun _ => 0)
        (Strings.events (fun line => (0, line)) fun _ => 0) {} bs =
      Transition.trace (step env) (events env)
        { metricsDropped := dropped, badLinesSeen := bad } as) :
    ptrs.erase = s.handoff := by
  have hstrings := (Strings.custody_of_run hptrs).2
  rw [hsame, handoff_of_run dropped bad hrun] at hstrings
  exact (Option.some.inj hstrings).symm

end Steps

end Proxy

end Statsdcc
