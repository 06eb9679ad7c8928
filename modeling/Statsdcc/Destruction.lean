import Mathlib
import Statsdcc.Worker
import Statsdcc.Lib.Transition

/-!
# The destruction of a worker

The body of `~Worker` sets `done`; then the members are destroyed in the reverse
order of their declaration, wherever the thread is in its loop. The thread is
joined by the destructor of `thread_guard`, which is declared before the members
that the thread uses and thus destroyed after them.

`misused` is a history variable: the members that the thread has used after they
were destroyed.

## Main definitions

- `WorkerObject.step` — one step of the thread, of the destructor, or of a caller
- `Worker.upcoming` — what the thread uses before it looks at `done` again

## Main results

- `WorkerObject.not_watched_of_misused` — no watched member is misused when each
  is destroyed behind its last use
- `WorkerObject.exists_misused` — a member destroyed before its last use can be
  misused
-/

open Bytes

namespace Statsdcc

/-- The data members of `Worker` in the order of their declaration. -/
inductive WorkerMember
  | metricsDropped
  | metricsRate
  | frequency
  | badLinesSeen
  | id
  | threadGuard
  | done
  | workQueue
  | lmut
  | fmut
  | currentLedger
  | backendContainer
  | interruptFlag
  deriving DecidableEq

namespace WorkerMember

def declared : List WorkerMember :=
  [metricsDropped, metricsRate, frequency, badLinesSeen, id, threadGuard, done, workQueue, lmut,
   fmut, currentLedger, backendContainer, interruptFlag]

/-- The members with a destructor that the thread uses to take, keep and hand off metrics. -/
def watched : WorkerMember → Bool
  | workQueue | currentLedger | backendContainer => true
  | _ => false

end WorkerMember

/-- The members that a step of `Worker::process` reads or writes. -/
def WorkerAction.accesses : WorkerAction → List WorkerMember
  | pop => [.workQueue]
  | test => [.interruptFlag]
  | process _ => [.currentLedger]
  | handOff => [.backendContainer, .currentLedger, .id]
  | join => []
  | publish => [.currentLedger, .badLinesSeen, .fmut, .frequency]
  | replace => [.currentLedger]
  | clear => [.metricsRate, .interruptFlag]
  | buffer => [.currentLedger]

/-- Where the thread is: at the condition of its loop, in the loop body, behind
the loop, or at its end. -/
inductive ThreadPc
  | condition
  | body
  | leave
  | stopped
  deriving DecidableEq

/-- A worker with its thread and the progress of its destructor. -/
structure WorkerObject (R : Type) where
  worker : Worker R
  thread : ThreadPc := .condition
  done : Bool := false
  /-- The members that are left to destroy, once the destructor has set `done`. -/
  pending : Option (List WorkerMember) := none
  destroyed : List WorkerMember := []
  misused : List WorkerMember := []

inductive ObjectAction
  /-- A server thread calls `submit`, and the push succeeds or not. -/
  | submit (metric : Bytes) (ok : Bool)
  | interrupt
  /-- The `j`-th flusher thread goes on. -/
  | flusher (j : ℕ) (status : FlusherStatus)
  | condition
  | process (a : WorkerAction)
  /-- The pop finds no metric: sleep and `continue`. -/
  | sleep
  /-- `flusher_guard` joins the last flusher thread, and `process` returns. -/
  | leave
  /-- The body of `~Worker`. -/
  | setDone
  | destroy
  deriving DecidableEq

/-- What the loop body uses for a metric, with a flush or without one. -/
def membersFor (flush : Bool) : List WorkerMember :=
  .currentLedger :: if flush then [.backendContainer] else []

/-- What the thread uses before it looks at `done` again. -/
def Worker.upcoming {R : Type} (w : Worker R) : List WorkerMember :=
  match w.pc with
  | .pop => .workQueue :: if w.workQueue = [] then [] else membersFor w.interruptFlag
  | .test _ => membersFor w.interruptFlag
  | .process _ | .handOff _ => membersFor true
  | .join _ | .publish _ | .replace _ | .clear _ | .buffer _ => membersFor false

namespace WorkerObject

variable {R : Type}

/-- The thread uses members. What it finds in a destroyed one is left open, and
nothing below depends on it. -/
def access (s : WorkerObject R) (members : List WorkerMember) : WorkerObject R :=
  { s with misused := s.misused ++ members.filter (· ∈ s.destroyed) }

/-- The start of the thread; the counters that no constructor sets hold any value. -/
def Initial (s : WorkerObject R) : Prop :=
  ∃ id dropped rate bad, s = { worker :=
    { id, metricsDropped := dropped, metricsRate := rate, badLinesSeen := bad } }

/-- `flusher_guard` can let go of the last flusher thread. -/
def lastFinished (s : WorkerObject R) : Bool :=
  s.worker.flushers.getLast?.all fun f => decide (f.status = .finished)

/-- One step of one thread, `none` when it is not enabled. -/
def step [CDouble R] (env : Env R) (s : WorkerObject R) : ObjectAction → Option (WorkerObject R)
  -- no member function is called once the destructor has begun
  | .submit metric ok =>
    if s.pending = none then
      some { s with worker := if ok then s.worker.enqueue metric else s.worker.drop metric }
    else none
  | .interrupt =>
    if s.pending = none then some { s with worker := s.worker.interrupt } else none
  | .flusher j status => some { s with worker := s.worker.setFlusher j status }
  | .condition =>
    if s.thread = .condition then
      some { s.access [.done] with thread := if s.done then .leave else .body }
    else none
  | .process a =>
    if s.thread = .body then
      (s.worker.act env a).map fun w =>
        { s.access a.accesses with
          worker := w, thread := if w.pc = .pop then .condition else .body }
    else none
  | .sleep =>
    if s.thread = .body ∧ s.worker.pc = .pop ∧ s.worker.workQueue = [] then
      some { s.access [.workQueue] with thread := .condition }
    else none
  | .leave =>
    if s.thread = .leave ∧ s.lastFinished = true then some { s with thread := .stopped } else none
  | .setDone =>
    if s.pending = none then
      some { s with done := true, pending := some WorkerMember.declared.reverse }
    else none
  | .destroy =>
    match s.pending with
    | some (m :: rest) =>
      -- the destructor of `thread_guard` waits for the end of the thread
      if m = .threadGuard ∧ s.thread ≠ .stopped then none
      else some { s with pending := some rest, destroyed := s.destroyed ++ [m] }
    | _ => none

/-- A watched member is destroyed only behind its last use in the loop body. -/
def destroysUnused (s : WorkerObject R) : ObjectAction → Bool
  | .destroy =>
    match s.pending with
    | some (m :: _) => !(m.watched && decide (s.thread = .body ∧ m ∈ s.worker.upcoming))
    | _ => true
  | _ => true

-- ════════════════════════════════════════════════════════════════════════
-- What the loop body uses
-- ════════════════════════════════════════════════════════════════════════

section Body

variable [CDouble R] {env : Env R} {w w' : Worker R} {a : WorkerAction} {m : WorkerMember}

theorem mem_upcoming_of_access (h : Worker.Acted env w a w') (hm : m ∈ a.accesses)
    (hwatched : m.watched = true) : m ∈ w.upcoming := by
  have hflush : ∀ m ∈ WorkerAction.handOff.accesses, m.watched = true → m ∈ membersFor true := by
    decide
  have hpublish : ∀ m ∈ WorkerAction.publish.accesses, m.watched = true → m ∈ membersFor false := by
    decide
  have hclear : ∀ m ∈ WorkerAction.clear.accesses, m.watched = false := by decide
  cases h with
  | pop hpc | process _ hpc | replace hpc | buffer hpc =>
    rw [List.mem_singleton.mp hm, Worker.upcoming, hpc]
    exact List.mem_cons_self
  | testSet hpc | testClear hpc =>
    rw [List.mem_singleton.mp hm] at hwatched
    cases hwatched
  | handOff hpc =>
    rw [Worker.upcoming, hpc]
    exact hflush m hm hwatched
  | publish hpc =>
    rw [Worker.upcoming, hpc]
    exact hpublish m hm hwatched
  | join hpc => cases hm
  | clear hpc =>
    rw [hclear m hm] at hwatched
    cases hwatched

/-- In the loop body, what the thread is going to use only becomes less. -/
theorem upcoming_subset (h : Worker.Acted env w a w') (hpop : w'.pc ≠ .pop) :
    w'.upcoming ⊆ w.upcoming := by
  have hless : membersFor false ⊆ membersFor true := by decide
  cases h with
  | pop hpc hqueue =>
    have hne : w.workQueue ≠ [] := by
      rw [hqueue]
      exact List.cons_ne_nil _ _
    simp only [Worker.upcoming, hpc, if_neg hne]
    exact List.subset_cons_self _ _
  | testSet hpc hflag | testClear hpc hflag =>
    simp only [Worker.upcoming, hpc, hflag]
    exact List.Subset.refl _
  | handOff hpc =>
    simp only [Worker.upcoming, hpc]
    exact hless
  | process elapsed hpc | join hpc hprev | publish hpc | replace hpc | clear hpc =>
    simp only [Worker.upcoming, hpc]
    exact List.Subset.refl _
  | buffer hpc => exact absurd rfl hpop

end Body

-- ════════════════════════════════════════════════════════════════════════
-- Whole runs
-- ════════════════════════════════════════════════════════════════════════

/-- No watched member has been misused, and no destroyed one is still in use. -/
structure Intact (s : WorkerObject R) : Prop where
  notBegun : s.pending = none → s.destroyed = []
  begun : s.done = false → s.pending = none
  unused : s.thread = .body → ∀ m ∈ s.destroyed, m.watched = true → m ∉ s.worker.upcoming
  safe : ∀ m ∈ s.misused, m.watched = false

section Intact

variable {s : WorkerObject R}

theorem Intact.safe_access (h : s.Intact) {members : List WorkerMember}
    (hmembers : ∀ m ∈ members, m ∈ s.destroyed → m.watched = false) :
    ∀ m ∈ (s.access members).misused, m.watched = false := by
  intro m hm
  rcases List.mem_append.mp hm with hm | hm
  · exact h.safe m hm
  · obtain ⟨hmem, hdestroyed⟩ := List.mem_filter.mp hm
    exact hmembers m hmem (of_decide_eq_true hdestroyed)

/-- A member that the loop body goes on to use has not been destroyed. -/
theorem Intact.unwatched (h : s.Intact) (hbody : s.thread = .body) {m : WorkerMember}
    (hup : m.watched = true → m ∈ s.worker.upcoming) (hm : m ∈ s.destroyed) :
    m.watched = false := by
  by_contra hwatched
  rw [Bool.not_eq_false] at hwatched
  exact h.unused hbody m hm hwatched (hup hwatched)

/-- A change of the worker before its destructor has begun. -/
theorem Intact.of_notBegun (h : s.Intact) (hpending : s.pending = none) (w : Worker R) :
    ({ s with worker := w } : WorkerObject R).Intact := by
  refine ⟨h.notBegun, h.begun, ?_, h.safe⟩
  intro _ m hm
  rw [show ({ s with worker := w } : WorkerObject R).destroyed = [] from h.notBegun hpending] at hm
  cases hm

theorem Intact.condition (h : s.Intact) :
    ({ s.access [.done] with thread := if s.done then .leave else .body } :
      WorkerObject R).Intact := by
  refine ⟨h.notBegun, h.begun, ?_, h.safe_access ?_⟩
  · intro hbody m hm
    have hdone : s.done = false := by
      by_contra hdone
      simp [hdone] at hbody
    rw [show (s.access [.done]).destroyed = [] from h.notBegun (h.begun hdone)] at hm
    cases hm
  · intro m hm _
    rw [List.mem_singleton.mp hm]
    rfl

theorem Intact.destroy (h : s.Intact) {m : WorkerMember} {rest : List WorkerMember}
    (hpending : s.pending = some (m :: rest)) (hcond : destroysUnused s .destroy = true) :
    ({ s with pending := some rest, destroyed := s.destroyed ++ [m] } : WorkerObject R).Intact := by
  refine ⟨fun hnone => ?_, fun hdone => ?_, ?_, h.safe⟩
  · cases hnone
  · rw [h.begun hdone] at hpending
    cases hpending
  · intro hbody m' hm' hwatched hup
    rcases List.mem_append.mp hm' with hm' | hm'
    · exact h.unused hbody m' hm' hwatched hup
    · rw [List.mem_singleton.mp hm'] at hwatched hup
      have hthread : s.thread = .body := hbody
      have hmem : m ∈ s.worker.upcoming := hup
      simp [destroysUnused, hpending, hwatched, hthread, hmem] at hcond

theorem Initial.intact (h : s.Initial) : s.Intact := by
  obtain ⟨id, dropped, rate, bad, rfl⟩ := h
  refine ⟨fun _ => rfl, fun _ => rfl, fun hbody => ?_, fun m hm => ?_⟩
  · cases hbody
  · cases hm

end Intact

section Runs

variable [CDouble R] {env : Env R} {s s' : WorkerObject R}

theorem Intact.process (h : s.Intact) (hbody : s.thread = .body) {a : WorkerAction} {w : Worker R}
    (hact : s.worker.act env a = some w) :
    ({ s.access a.accesses with
      worker := w, thread := if w.pc = .pop then .condition else .body } :
        WorkerObject R).Intact := by
  have hacted := Worker.acted_of_act hact
  refine ⟨h.notBegun, h.begun, ?_, h.safe_access ?_⟩
  · intro hbody' m hm hwatched hup
    have hpop : w.pc ≠ .pop := by
      intro hpop
      simp [hpop] at hbody'
    exact h.unused hbody m hm hwatched (upcoming_subset hacted hpop hup)
  · intro m hm
    exact h.unwatched hbody (mem_upcoming_of_access hacted hm)

theorem Intact.step {a : ObjectAction} (h : s.Intact) (hcond : destroysUnused s a = true)
    (hstep : step env s a = some s') : s'.Intact := by
  cases a with
  | submit metric ok =>
    simp only [WorkerObject.step] at hstep
    split at hstep <;> cases hstep
    exact h.of_notBegun ‹_› _
  | interrupt =>
    simp only [WorkerObject.step] at hstep
    split at hstep <;> cases hstep
    exact h.of_notBegun ‹_› _
  | flusher j status =>
    cases hstep
    exact ⟨h.notBegun, h.begun, h.unused, h.safe⟩
  | condition =>
    simp only [WorkerObject.step] at hstep
    split at hstep <;> cases hstep
    exact h.condition
  | process a =>
    simp only [WorkerObject.step] at hstep
    split at hstep
    · obtain ⟨w, hact, heq⟩ := Option.map_eq_some_iff.mp hstep
      cases heq
      exact h.process ‹_› hact
    · cases hstep
  | sleep =>
    simp only [WorkerObject.step] at hstep
    split at hstep <;> cases hstep
    rename_i hsleep
    refine ⟨h.notBegun, h.begun, fun hbody => ?_, h.safe_access ?_⟩
    · cases hbody
    · intro m hm
      refine h.unwatched hsleep.1 fun _ => ?_
      rw [List.mem_singleton.mp hm, Worker.upcoming, hsleep.2.1]
      exact List.mem_cons_self
  | leave =>
    simp only [WorkerObject.step] at hstep
    split at hstep <;> cases hstep
    refine ⟨h.notBegun, h.begun, fun hbody => ?_, h.safe⟩
    cases hbody
  | setDone =>
    simp only [WorkerObject.step] at hstep
    split at hstep <;> cases hstep
    rename_i hpending
    refine ⟨fun hnone => ?_, fun hdone => ?_, ?_, h.safe⟩
    · cases hnone
    · cases hdone
    · intro hbody m hm
      exact h.unused hbody m hm
  | destroy =>
    simp only [WorkerObject.step] at hstep
    split at hstep
    · split at hstep <;> cases hstep
      exact h.destroy ‹_› hcond
    · cases hstep

/-- **The thread never uses a watched member that has been destroyed**, in every
run that destroys each watched member behind its last use in the loop body. -/
theorem not_watched_of_misused (env : Env R) {s₀ : WorkerObject R} (hs₀ : s₀.Initial)
    (as : List ObjectAction)
    (hcond : Transition.StepsSatisfy (WorkerObject.step env)
      (fun s a => destroysUnused s a = true) s₀ as)
    (hrun : Transition.run (WorkerObject.step env) s₀ as = some s) :
    ∀ m ∈ s.misused, m.watched = false :=
  (Transition.run_induction_where (I := fun _ (s : WorkerObject R) => s.Intact) hs₀.intact
    (fun _ _ _ _ ih hcond hstep => ih.step hcond hstep) hcond hrun).safe

end Runs

/-- A line that sets off no flush is buffered before the destructor begins; the
thread then sees `done` before anything has been destroyed. -/
def stoppedRun : List ObjectAction :=
  [.submit (ascii "a:1|c") true, .condition, .process .pop, .process .test, .process .buffer,
   .setDone, .condition, .destroy, .destroy, .destroy, .leave] ++ List.replicate 10 .destroy

theorem not_watched_stoppedRun :
    ∃ s : WorkerObject Exact,
      Transition.run (WorkerObject.step ⟨{}, lexicalCast⟩)
          { worker := { id := 1, metricsDropped := 0, metricsRate := 0, badLinesSeen := 0 } }
          stoppedRun = some s ∧
        s.destroyed = WorkerMember.declared.reverse ∧ ∀ m ∈ s.misused, m.watched = false :=
  ⟨_, rfl, rfl, not_watched_of_misused ⟨{}, lexicalCast⟩ ⟨1, 0, 0, 0, rfl⟩ stoppedRun
    (Transition.stepsSatisfy_of_allSteps rfl) rfl⟩

/-- The destructor begins while the thread is about to hand off a ledger. -/
def flushedRun : List ObjectAction :=
  [.interrupt, .submit (ascii "a:1|c") true, .condition, .process .pop, .process .test,
   .process (.process 1), .setDone, .destroy, .destroy, .process .handOff]

/-- The thread copies `backend_container` after its destruction. -/
theorem misused_flushedRun :
    ∃ s : WorkerObject Exact,
      Transition.run (WorkerObject.step ⟨{}, lexicalCast⟩)
          { worker := { id := 1, metricsDropped := 0, metricsRate := 0, badLinesSeen := 0 } }
          flushedRun = some s ∧
        s.misused = [.backendContainer] ∧ ¬∀ m ∈ s.misused, m.watched = false :=
  ⟨_, rfl, rfl, by
    show ¬∀ m ∈ [WorkerMember.backendContainer], m.watched = false
    decide⟩

-- ════════════════════════════════════════════════════════════════════════
-- The condition is exact
-- ════════════════════════════════════════════════════════════════════════

section Exact

variable {R : Type} {s : WorkerObject R} {m : WorkerMember}

theorem mem_misused_access {members : List WorkerMember} (hm : m ∈ members)
    (hdestroyed : m ∈ s.destroyed) : m ∈ (s.access members).misused :=
  List.mem_append_right _ (List.mem_filter.mpr ⟨hm, decide_eq_true hdestroyed⟩)

/-- `flusher_guard` can let go of a thread that has finished. -/
theorem previousFinished_setFlusher (w : Worker R) :
    (w.setFlusher (w.flushers.length - 2) .finished).previousFinished = true := by
  have hidx : w.flushers.length - 1 - 1 = w.flushers.length - 2 := by omega
  simp only [Worker.previousFinished, Worker.setFlusher, List.getLast?_eq_getElem?,
    List.length_dropLast, List.length_modify, List.getElem?_dropLast, hidx]
  split
  · rw [List.getElem?_modify_eq]
    cases w.flushers[w.flushers.length - 2]? <;> rfl
  · rfl

variable [CDouble R] {env : Env R} {item : Stamped}

theorem step_process {a : WorkerAction} {w : Worker R} (hbody : s.thread = .body)
    (hact : s.worker.act env a = some w) :
    WorkerObject.step env s (.process a) = some { s.access a.accesses with
      worker := w, thread := if w.pc = .pop then .condition else .body } := by
  rw [WorkerObject.step, if_pos hbody, hact]
  rfl

/-- Some continuation uses the destroyed member. -/
def CanMisuse (env : Env R) (s : WorkerObject R) (m : WorkerMember) : Prop :=
  ∃ as s', Transition.run (WorkerObject.step env) s as = some s' ∧ m ∈ s'.misused

theorem canMisuse_of_step {s₁ : WorkerObject R} {a : ObjectAction}
    (hstep : WorkerObject.step env s a = some s₁) (h : CanMisuse env s₁ m) :
    CanMisuse env s m := by
  obtain ⟨as, s', hrun, hm⟩ := h
  refine ⟨a :: as, s', ?_, hm⟩
  rw [Transition.run_cons, hstep]
  exact hrun

/-- The next step of the loop body uses the member. -/
theorem canMisuse_of_access {a : WorkerAction} (hbody : s.thread = .body)
    (hact : (s.worker.act env a).isSome = true) (hm : m ∈ a.accesses)
    (hdestroyed : m ∈ s.destroyed) : CanMisuse env s m := by
  obtain ⟨w, hw⟩ := Option.isSome_iff_exists.mp hact
  exact canMisuse_of_step (step_process hbody hw) ⟨[], _, rfl, mem_misused_access hm hdestroyed⟩

/-- A step of the loop body that is not its last one. -/
theorem canMisuse_of_act {a : WorkerAction} {w : Worker R} (hbody : s.thread = .body)
    (hact : s.worker.act env a = some w) (hpop : w.pc ≠ .pop)
    (h : ∀ s' : WorkerObject R, s'.thread = .body → s'.worker = w → s'.destroyed = s.destroyed →
      CanMisuse env s' m) : CanMisuse env s m :=
  canMisuse_of_step (step_process hbody hact) (h _ (if_neg hpop) rfl rfl)

theorem canMisuse_buffer (hbody : s.thread = .body) (hpc : s.worker.pc = .buffer item)
    (hm : m ∈ membersFor false) (hdestroyed : m ∈ s.destroyed) : CanMisuse env s m := by
  refine canMisuse_of_access (a := .buffer) hbody ?_ hm hdestroyed
  rw [Worker.act, hpc]
  rfl

theorem canMisuse_clear (hbody : s.thread = .body) (hpc : s.worker.pc = .clear item)
    (hm : m ∈ membersFor false) (hdestroyed : m ∈ s.destroyed) : CanMisuse env s m := by
  refine canMisuse_of_act (a := .clear) (w := { s.worker with
    metricsRate := .ofInt (s.worker.count.toInt.tdiv env.config.frequency), count := 0,
    interruptFlag := false, pc := .buffer item }) hbody ?_ (by simp) ?_
  · rw [Worker.act, hpc]
  · intro s' hbody' hworker hsame
    exact canMisuse_buffer hbody' (by rw [hworker]) hm (hsame ▸ hdestroyed)

theorem canMisuse_replace (hbody : s.thread = .body) (hpc : s.worker.pc = .replace item)
    (hm : m ∈ membersFor false) (hdestroyed : m ∈ s.destroyed) : CanMisuse env s m := by
  refine canMisuse_of_access (a := .replace) hbody ?_ hm hdestroyed
  rw [Worker.act, hpc]
  rfl

theorem canMisuse_publish (hbody : s.thread = .body) (hpc : s.worker.pc = .publish item)
    (hm : m ∈ membersFor false) (hdestroyed : m ∈ s.destroyed) : CanMisuse env s m := by
  refine canMisuse_of_access (a := .publish) hbody ?_
    (List.mem_cons.mpr (.inl (List.mem_singleton.mp hm))) hdestroyed
  rw [Worker.act, hpc]
  rfl

/-- The join returns once the previous flusher thread has finished. -/
theorem canMisuse_join (hbody : s.thread = .body) (hpc : s.worker.pc = .join item)
    (hm : m ∈ membersFor false) (hdestroyed : m ∈ s.destroyed) : CanMisuse env s m := by
  refine canMisuse_of_step
    (a := .flusher (s.worker.flushers.length - 2) .finished) rfl ?_
  refine canMisuse_of_act (a := .join) (w := { s.worker.setFlusher
    (s.worker.flushers.length - 2) .finished with pc := .publish item }) hbody ?_ (by simp) ?_
  · have hprev := previousFinished_setFlusher s.worker
    have hpc' : (s.worker.setFlusher (s.worker.flushers.length - 2) .finished).pc = .join item :=
      hpc
    simp only [Worker.act, hpc', hprev, if_true]
  · intro s' hbody' hworker hsame
    exact canMisuse_publish hbody' (by rw [hworker]) hm (hsame ▸ hdestroyed)

theorem canMisuse_handOff (hbody : s.thread = .body) (hpc : s.worker.pc = .handOff item)
    (hm : m ∈ membersFor true) (hdestroyed : m ∈ s.destroyed) : CanMisuse env s m := by
  have hflush : ∀ m ∈ membersFor true, m ∈ WorkerAction.handOff.accesses := by decide
  refine canMisuse_of_access (a := .handOff) hbody ?_ (hflush m hm) hdestroyed
  rw [Worker.act, hpc]
  rfl

theorem canMisuse_process (hbody : s.thread = .body) (hpc : s.worker.pc = .process item)
    (hm : m ∈ membersFor true) (hdestroyed : m ∈ s.destroyed) : CanMisuse env s m := by
  refine canMisuse_of_act (a := .process 0) (w := { s.worker with
    currentLedger := s.worker.currentLedger.process env.config 0, pc := .handOff item })
    hbody ?_ (by simp) ?_
  · rw [Worker.act, hpc]
  · intro s' hbody' hworker hsame
    exact canMisuse_handOff hbody' (by rw [hworker]) hm (hsame ▸ hdestroyed)

theorem canMisuse_test {metric : Bytes} (hbody : s.thread = .body)
    (hpc : s.worker.pc = .test metric) (hm : m ∈ membersFor s.worker.interruptFlag)
    (hdestroyed : m ∈ s.destroyed) : CanMisuse env s m := by
  cases hflag : s.worker.interruptFlag with
  | true =>
    rw [hflag] at hm
    refine canMisuse_of_act (a := .test)
      (w := { s.worker with pc := .process (metric, s.worker.epoch) }) hbody ?_ (by simp) ?_
    · simp only [Worker.act, hpc, hflag, if_true]
    · intro s' hbody' hworker hsame
      exact canMisuse_process hbody' (by rw [hworker]) hm (hsame ▸ hdestroyed)
  | false =>
    rw [hflag] at hm
    refine canMisuse_of_act (a := .test)
      (w := { s.worker with pc := .buffer (metric, s.worker.epoch) }) hbody ?_ (by simp) ?_
    · simp only [Worker.act, hpc, hflag, Bool.false_eq_true, if_false]
    · intro s' hbody' hworker hsame
      exact canMisuse_buffer hbody' (by rw [hworker]) hm (hsame ▸ hdestroyed)

theorem canMisuse_pop (hbody : s.thread = .body) (hpc : s.worker.pc = .pop)
    (hm : m ∈ s.worker.upcoming) (hdestroyed : m ∈ s.destroyed) : CanMisuse env s m := by
  simp only [Worker.upcoming, hpc] at hm
  cases hqueue : s.worker.workQueue with
  | nil =>
    rw [hqueue, if_pos rfl] at hm
    refine canMisuse_of_step (a := .sleep) (if_pos ⟨hbody, hpc, hqueue⟩) ?_
    exact ⟨[], _, rfl, mem_misused_access hm hdestroyed⟩
  | cons metric queue =>
    have hact : s.worker.act env .pop = some { s.worker with
        workQueue := queue, popped := s.worker.popped ++ [metric], pc := .test metric } := by
      simp only [Worker.act, hpc, hqueue]
    rw [hqueue, if_neg (List.cons_ne_nil _ _)] at hm
    rcases List.mem_cons.mp hm with hm | hm
    · refine canMisuse_of_access (a := .pop) hbody ?_ (List.mem_singleton.mpr hm) hdestroyed
      rw [hact]
      rfl
    · refine canMisuse_of_act hbody hact (by simp) ?_
      intro s' hbody' hworker hsame
      exact canMisuse_test hbody' (by rw [hworker]) (by rw [hworker]; exact hm)
        (hsame ▸ hdestroyed)

theorem canMisuse_of_upcoming (hbody : s.thread = .body) (hm : m ∈ s.worker.upcoming)
    (hdestroyed : m ∈ s.destroyed) : CanMisuse env s m := by
  cases hpc : s.worker.pc with
  | pop => exact canMisuse_pop hbody hpc hm hdestroyed
  | test metric =>
    rw [Worker.upcoming, hpc] at hm
    exact canMisuse_test hbody hpc hm hdestroyed
  | process item =>
    rw [Worker.upcoming, hpc] at hm
    exact canMisuse_process hbody hpc hm hdestroyed
  | handOff item =>
    rw [Worker.upcoming, hpc] at hm
    exact canMisuse_handOff hbody hpc hm hdestroyed
  | join item =>
    rw [Worker.upcoming, hpc] at hm
    exact canMisuse_join hbody hpc hm hdestroyed
  | publish item =>
    rw [Worker.upcoming, hpc] at hm
    exact canMisuse_publish hbody hpc hm hdestroyed
  | replace item =>
    rw [Worker.upcoming, hpc] at hm
    exact canMisuse_replace hbody hpc hm hdestroyed
  | clear item =>
    rw [Worker.upcoming, hpc] at hm
    exact canMisuse_clear hbody hpc hm hdestroyed
  | buffer item =>
    rw [Worker.upcoming, hpc] at hm
    exact canMisuse_buffer hbody hpc hm hdestroyed

/-- **A watched member that is destroyed before its last use in the loop body** is
misused in some continuation of the run. -/
theorem exists_misused {rest : List WorkerMember} (hpending : s.pending = some (m :: rest))
    (hcond : destroysUnused s .destroy = false) :
    ∃ as s', Transition.run (WorkerObject.step env) s (.destroy :: as) = some s' ∧
      m ∈ s'.misused ∧ m.watched = true := by
  simp only [destroysUnused, hpending, Bool.not_eq_false', Bool.and_eq_true,
    decide_eq_true_eq] at hcond
  obtain ⟨hwatched, hbody, hup⟩ := hcond
  have hguard : m ≠ .threadGuard := by
    rintro rfl
    cases hwatched
  let destroyed : WorkerObject R :=
    { s with pending := some rest, destroyed := s.destroyed ++ [m] }
  have hstep : WorkerObject.step env s .destroy = some destroyed := by
    simp only [WorkerObject.step, hpending, hguard, false_and, if_false, destroyed]
  have hlast : m ∈ destroyed.destroyed :=
    List.mem_append_right _ (List.mem_singleton_self _)
  have hcan : CanMisuse env destroyed m := canMisuse_of_upcoming hbody hup hlast
  obtain ⟨as, s', hrun, hm⟩ := hcan
  refine ⟨as, s', ?_, hm, hwatched⟩
  rw [Transition.run_cons, hstep]
  exact hrun

end Exact

end WorkerObject

end Statsdcc
