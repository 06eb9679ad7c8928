import Mathlib
import Statsdcc.Aggregator

/-!
# The order in which ledgers are flushed

A worker starts the thread that flushes a ledger before it joins the thread of
the ledger before, and the two compete for the mutex of `BackendContainer`. The
ledgers are flushed in the order in which they were cut as long as the earlier
thread has the mutex, or is done with it, when the later one is started.

## Main definitions

- `Aggregator.deliveredOf` — the ledgers of one worker in the order in which they
  reached the backends, each by its place among the ledgers cut
- `Aggregator.lastStarted` — no ledger is handed off while another one waits

## Main results

- `Aggregator.increasing_of_lastStarted` — then ledgers are flushed in order
- `Aggregator.not_increasing_overtakenRun` — otherwise they need not be
-/

open Bytes

namespace Statsdcc

variable {R : Type} {W T : ℕ}

/-- The invariant behind the order: of the flusher threads of a worker only the
last can be waiting for the mutex, and the ledgers delivered are those of threads
that had it. -/
structure Worker.InOrder (w : Worker R) (delivered : List ℕ) : Prop where
  waiting : ∀ j f, w.flushers[j]? = some f → f.status = .waiting → j + 1 = w.flushers.length
  started : ∀ j ∈ delivered, ∃ f, w.flushers[j]? = some f ∧ f.status ≠ .waiting
  increasing : delivered.Pairwise (· < ·)

namespace Worker.InOrder

variable {w : Worker R} {delivered : List ℕ}

theorem of_flushers_eq {w' : Worker R} (h : w.InOrder delivered) (heq : w'.flushers = w.flushers) :
    w'.InOrder delivered := by
  refine ⟨?_, ?_, h.increasing⟩
  · rw [heq]
    exact h.waiting
  · rw [heq]
    exact h.started

/-- A thread that has the mutex, or had it, goes on. -/
theorem setFlusher (h : w.InOrder delivered) (j : ℕ) {status : FlusherStatus}
    (hstatus : status ≠ .waiting) : (w.setFlusher j status).InOrder delivered := by
  have hget : ∀ k, (w.setFlusher j status).flushers[k]? =
      if j = k then (w.flushers[k]?).map fun f => { f with status } else w.flushers[k]? := by
    intro k
    rw [Worker.setFlusher, List.getElem?_modify]
    split <;> simp
  have hlength : (w.setFlusher j status).flushers.length = w.flushers.length :=
    List.length_modify ..
  constructor
  case waiting =>
    intro k f hk hwaiting
    rw [hget] at hk
    rw [hlength]
    by_cases hjk : j = k
    · rw [if_pos hjk] at hk
      obtain ⟨g, -, rfl⟩ := Option.map_eq_some_iff.mp hk
      exact absurd hwaiting hstatus
    · rw [if_neg hjk] at hk
      exact h.waiting k f hk hwaiting
  case started =>
    intro k hk
    obtain ⟨f, hf, hne⟩ := h.started k hk
    rw [hget, hf]
    by_cases hjk : j = k
    · rw [if_pos hjk]
      exact ⟨_, rfl, hstatus⟩
    · rw [if_neg hjk]
      exact ⟨f, rfl, hne⟩
  case increasing => exact h.increasing

/-- A thread that waits for the mutex gets it: it is the last one, so that its
ledger comes after all that were delivered. -/
theorem acquire (h : w.InOrder delivered) {j : ℕ} {f : Flusher R} (hf : w.flushers[j]? = some f)
    (hwaiting : f.status = .waiting) :
    (w.setFlusher j .flushing).InOrder (delivered ++ [j]) := by
  have hset : (w.setFlusher j .flushing).InOrder delivered := h.setFlusher j (by decide)
  have hlast := h.waiting j f hf hwaiting
  constructor
  case waiting => exact hset.waiting
  case started =>
    intro k hk
    rcases List.mem_append.mp hk with hk | hk
    · exact hset.started k hk
    · rw [List.mem_singleton] at hk
      subst hk
      refine ⟨{ f with status := .flushing }, ?_, FlusherStatus.noConfusion⟩
      rw [Worker.setFlusher, List.getElem?_modify_eq, hf]
      rfl
  case increasing =>
    refine List.pairwise_append.mpr ⟨h.increasing, List.pairwise_singleton _ _, ?_⟩
    intro k hk j' hj'
    rw [List.mem_singleton] at hj'
    subst hj'
    obtain ⟨g, hg, hne⟩ := h.started k hk
    have hlt : k < w.flushers.length := (List.getElem?_eq_some_iff.mp hg).1
    have hkj : k ≠ j' := by
      intro heq
      rw [heq, hf, Option.some.injEq] at hg
      exact hne (hg ▸ hwaiting)
    omega

/-- A thread is started when none is waiting. -/
theorem spawnFlusher [CDouble R] (h : w.InOrder delivered)
    (hlast : ∀ f ∈ w.flushers.getLast?, f.status ≠ .waiting) :
    w.spawnFlusher.InOrder delivered := by
  have hnone : ∀ (j : ℕ) (f : Flusher R), w.flushers[j]? = some f → f.status ≠ .waiting := by
    intro j f hf hwaiting
    have hj := h.waiting j f hf hwaiting
    refine hlast f ?_ hwaiting
    rw [List.getLast?_eq_getElem?, ← hj, Nat.add_sub_cancel]
    exact hf
  constructor
  case waiting =>
    intro j f hf hwaiting
    rw [Worker.spawnFlusher] at hf ⊢
    rcases Nat.lt_or_ge j w.flushers.length with hlt | hge
    · rw [List.getElem?_append_left hlt] at hf
      exact absurd hwaiting (hnone j f hf)
    · have hj := (List.getElem?_eq_some_iff.mp hf).1
      rw [List.length_append, List.length_singleton] at hj ⊢
      omega
  case started =>
    intro j hj
    obtain ⟨f, hf, hne⟩ := h.started j hj
    have hlt : j < w.flushers.length := (List.getElem?_eq_some_iff.mp hf).1
    exact ⟨f, by rw [Worker.spawnFlusher, List.getElem?_append_left hlt, hf], hne⟩
  case increasing => exact h.increasing

/-- A step of `Worker::process` starts a thread or leaves the threads alone. -/
theorem act [CDouble R] {env : Env R} {w' : Worker R} {a : WorkerAction} (h : w.InOrder delivered)
    (hlast : a = .handOff → ∀ f ∈ w.flushers.getLast?, f.status ≠ .waiting)
    (hact : w.act env a = some w') : w'.InOrder delivered := by
  cases acted_of_act hact with
  | handOff hpc => exact (h.spawnFlusher (hlast rfl)).of_flushers_eq rfl
  | pop | testSet | testClear | process | join | publish | replace | clear | buffer =>
    exact h.of_flushers_eq rfl

end Worker.InOrder

namespace Aggregator

/-- The ledgers of a worker that reached the backends, in this order; the number
of a ledger is its place among the ledgers that the worker cut. -/
def deliveredOf (s : Aggregator R W T) (i : Fin W) : List ℕ :=
  (s.delivered.filter fun d => d.1 = i).map Prod.snd

/-- A step that hands a ledger off finds no thread of the worker waiting. -/
def lastStarted (s : Aggregator R W T) : Action W T → Bool
  | .worker i .handOff => (s.workers i).flushers.getLast?.all fun f => f.status ≠ .waiting
  | _ => true

theorem deliveredOf_concat {s : Aggregator R W T} {delivered : List (Fin W × ℕ)} {k : Fin W} {j : ℕ}
    (h : s.delivered = delivered ++ [(k, j)]) (i : Fin W) :
    s.deliveredOf i =
      (delivered.filter fun d => d.1 = i).map Prod.snd ++ if k = i then [j] else [] := by
  rw [deliveredOf, h, List.filter_append, List.map_append]
  by_cases hki : k = i <;> simp [hki]

variable [CDouble R] [NeZero W]

theorem inOrder_step {env : Env R} {consumer : AggregatorConsumer W} {s s' : Aggregator R W T}
    {a : Action W T} (h : ∀ i, (s.workers i).InOrder (s.deliveredOf i))
    (hcond : lastStarted s a = true) (hstep : step env consumer s a = some s') (i : Fin W) :
    (s'.workers i).InOrder (s'.deliveredOf i) := by
  have hupdate : ∀ (k : Fin W) (w : Worker R) (delivered : List ℕ),
      (k = i → w.InOrder delivered) → (k ≠ i → delivered = s.deliveredOf i) →
        (Function.update s.workers k w i).InOrder delivered := by
    intro k w delivered hself hother
    by_cases hki : k = i
    · subst hki
      rw [Function.update_self]
      exact hself rfl
    · rw [Function.update_of_ne (Ne.symm hki), hother hki]
      exact h i
  cases stepped_of_step hstep with
  | consume | pushFailed => exact h i
  | push | countDrop | interrupt =>
    apply hupdate
    · rintro rfl
      exact (h _).of_flushers_eq rfl
    · exact fun _ => rfl
  | @worker k a w hact =>
    apply hupdate
    · rintro rfl
      refine (h _).act ?_ hact
      rintro rfl f hf
      rw [Option.mem_def] at hf
      simpa [lastStarted, hf] using hcond
    · exact fun _ => rfl
  | @acquire k j hfree hstatus =>
    have hdelivered := deliveredOf_concat (i := i) (show ({ s.setWorker k
      ((s.workers k).setFlusher j .flushing) with
        lmut := some (k, j), delivered := s.delivered ++ [(k, j)] } : Aggregator R W T).delivered =
          s.delivered ++ [(k, j)] from rfl)
    rw [hdelivered]
    apply hupdate
    · rintro rfl
      rw [if_pos rfl]
      obtain ⟨f, hf, hwaiting⟩ := Option.map_eq_some_iff.mp hstatus
      exact (h k).acquire hf hwaiting
    · intro hki
      rw [if_neg hki, List.append_nil]
      rfl
  | @release k j hheld =>
    apply hupdate
    · rintro rfl
      exact (h _).setFlusher j (by decide)
    · exact fun _ => rfl

/-- **The ledgers of a worker are flushed in order**, as long as no ledger is
handed off while the thread of the ledger before waits for the mutex. -/
theorem increasing_of_lastStarted (env : Env R) (consumer : AggregatorConsumer W)
    {s₀ s : Aggregator R W T} (hs₀ : s₀.Initial) (as : List (Action W T))
    (hcond : Transition.StepsSatisfy (step env consumer)
      (fun s a => lastStarted s a = true) s₀ as)
    (hrun : Transition.run (step env consumer) s₀ as = some s) (i : Fin W) :
    (s.deliveredOf i).Pairwise (· < ·) := by
  have hinit : ∀ i, (s₀.workers i).InOrder (s₀.deliveredOf i) := by
    intro i
    obtain ⟨dropped, rate, bad, hw⟩ := hs₀.workers i
    rw [hw, deliveredOf, hs₀.delivered]
    refine ⟨fun j f hf => ?_, fun j hj => ?_, List.Pairwise.nil⟩
    · cases hf
    · cases hj
  have hinv := Transition.run_induction_where
    (I := fun _ s => ∀ i, (s.workers i).InOrder (s.deliveredOf i)) hinit
    (fun _ _ _ _ ih hP hstep => inOrder_step ih hP hstep) hcond hrun i
  exact hinv.increasing

/-- A line that sets off a flush, up to the creation of the flusher thread. -/
def cutLedger {W T : ℕ} [NeZero W] [NeZero T] : List (Action W T) :=
  [.interrupt 0, .consume 0 (ascii "a:1|c"), .push 0 true, .worker 0 .pop, .worker 0 .test,
   .worker 0 (.process 1), .worker 0 .handOff]

/-- The rest of the loop body. -/
def finishLine {W T : ℕ} [NeZero W] [NeZero T] : List (Action W T) :=
  [.worker 0 .join, .worker 0 .publish, .worker 0 .replace, .worker 0 .clear, .worker 0 .buffer]

/-- The thread of the first ledger has the mutex when the second one is handed off. -/
def orderedRun {W T : ℕ} [NeZero W] [NeZero T] : List (Action W T) :=
  cutLedger ++ finishLine ++ [.acquire 0 0] ++ cutLedger ++ [.release 0 0, .acquire 0 1]

theorem increasing_orderedRun :
    ∃ s : Aggregator Exact 1 1,
      Transition.run (step ⟨{}, lexicalCast⟩ (.new {} List.length)) init orderedRun = some s ∧
        s.deliveredOf 0 = [0, 1] ∧ (s.deliveredOf 0).Pairwise (· < ·) :=
  ⟨_, rfl, rfl, increasing_of_lastStarted ⟨{}, lexicalCast⟩ (.new {} List.length) initial_init
    orderedRun (Transition.stepsSatisfy_of_allSteps rfl) rfl 0⟩

/-- The thread of the second ledger gets the mutex first. -/
def overtakenRun {W T : ℕ} [NeZero W] [NeZero T] : List (Action W T) :=
  cutLedger ++ finishLine ++ cutLedger ++ [.acquire 0 1, .release 0 1, .acquire 0 0]

/-- The later ledger is flushed before the earlier one. -/
theorem not_increasing_overtakenRun :
    ∃ s : Aggregator Exact 1 1,
      Transition.run (step ⟨{}, lexicalCast⟩ (.new {} List.length)) init overtakenRun = some s ∧
        s.deliveredOf 0 = [1, 0] ∧ ¬(s.deliveredOf 0).Pairwise (· < ·) :=
  ⟨_, rfl, rfl, by
    show ¬ List.Pairwise (· < ·) [1, 0]
    decide⟩

end Aggregator

end Statsdcc
