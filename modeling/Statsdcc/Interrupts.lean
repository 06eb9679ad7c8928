import Mathlib
import Statsdcc.Aggregator
import Statsdcc.Worker.Lines

/-!
# Interrupts and ledgers

The clock asks a worker to cut its ledger by setting a flag. The lines of a
ledger carry the number of interrupts that the worker had received at their flag
test, so that a ledger covers one clock interval if all its lines carry the same
number. `Worker::process` clears the flag at the end of a flush, and with it
every interrupt that came in meanwhile.

## Main results

- `epoch_eq_count` — what the lines carry counts the interrupts of the run
- `separated_of_outsideFlush` — without interrupts in the middle of a flush,
  lines of different intervals are in different ledgers
- `not_separated_lostRun` — with one, they need not be
-/

open Bytes

namespace Statsdcc

/-- No interrupt came between the flag tests of two of these lines. -/
def OneInterval (lines : List Stamped) : Prop := ∀ x ∈ lines, ∀ y ∈ lines, x.2 = y.2

/-- The line in hand from the test that found the flag set to the step that
clears the flag. -/
def WorkerPc.flushItem : WorkerPc → Option Stamped
  | process item | handOff item | join item | publish item | replace item | clear item => some item
  | pop | test _ | buffer _ => none

theorem WorkerPc.flushItem_eq_none {pc : WorkerPc} (h : pc.flushing = false) :
    pc.flushItem = none := by
  cases pc <;> first | rfl | cases h

variable {R : Type} {W T : ℕ}

/-- Lines with an interrupt between their flag tests are in different ledgers. -/
structure Worker.Separated (w : Worker R) : Prop where
  current : OneInterval w.currentLines
  flushed : ∀ lines ∈ w.flushers.map Flusher.lines, OneInterval lines

-- ════════════════════════════════════════════════════════════════════════
-- One worker
-- ════════════════════════════════════════════════════════════════════════

/-- The invariant behind `Separated`: the lines of the current ledger, and the
one that is about to join them, come from one interval, and this interval is
the running one unless the flag is set. -/
structure Worker.InInterval (w : Worker R) (interval : ℕ) : Prop where
  current : ∀ x ∈ w.currentLines, x.2 = interval
  joining : ∀ item, w.pc = .buffer item → item.2 = interval
  running : w.interruptFlag = false → interval = w.epoch
  flushing : ∀ item, w.pc.flushItem = some item → w.interruptFlag = true ∧ item.2 = w.epoch
  replaced : ∀ item, w.pc = .clear item → w.currentLines = []
  flushed : ∀ lines ∈ w.flushers.map Flusher.lines, OneInterval lines

namespace Worker.InInterval

variable {w : Worker R} {interval : ℕ}

theorem oneInterval (h : w.InInterval interval) : OneInterval w.currentLines := by
  intro x hx y hy
  rw [h.current x hx, h.current y hy]

/-- An interrupt outside of a flush closes the interval. -/
theorem interrupt (h : w.InInterval interval) (hflush : w.pc.flushing = false) :
    w.interrupt.InInterval interval where
  current := h.current
  joining := h.joining
  running hflag := by cases hflag
  flushing item hitem := by
    change w.pc.flushItem = some item at hitem
    rw [WorkerPc.flushItem_eq_none hflush] at hitem
    cases hitem
  replaced := h.replaced
  flushed := h.flushed

theorem enqueue (h : w.InInterval interval) (metric : Bytes) :
    (w.enqueue metric).InInterval interval :=
  ⟨h.current, h.joining, h.running, h.flushing, h.replaced, h.flushed⟩

theorem drop (h : w.InInterval interval) (metric : Bytes) :
    (w.drop metric).InInterval interval :=
  ⟨h.current, h.joining, h.running, h.flushing, h.replaced, h.flushed⟩

theorem setFlusher (h : w.InInterval interval) (j : ℕ) (status : FlusherStatus) :
    (w.setFlusher j status).InInterval interval := by
  refine ⟨h.current, h.joining, h.running, h.flushing, h.replaced, ?_⟩
  rw [map_setFlusher _ fun _ _ => rfl]
  exact h.flushed

variable [CDouble R]

theorem act {env : Env R} {w' : Worker R} {a : WorkerAction} (h : w.InInterval interval)
    (hact : w.act env a = some w') : ∃ interval', w'.InInterval interval' := by
  have hflushing := h.flushing
  cases acted_of_act hact with
  | pop hpc hqueue =>
    refine ⟨interval, h.current, ?_, h.running, ?_, ?_, h.flushed⟩ <;>
      intro item hitem <;> cases hitem
  | testSet hpc hflag =>
    refine ⟨interval, h.current, ?_, h.running, ?_, ?_, h.flushed⟩
    · intro item hitem
      cases hitem
    · intro item hitem
      cases hitem
      exact ⟨hflag, rfl⟩
    · intro item hitem
      cases hitem
  | testClear hpc hflag =>
    refine ⟨interval, h.current, ?_, h.running, ?_, ?_, h.flushed⟩ <;> intro item hitem
    · cases hitem
      exact (h.running hflag).symm
    · cases hitem
    · cases hitem
  | process elapsed hpc | join hpc hprev | publish hpc =>
    rw [hpc] at hflushing
    refine ⟨interval, h.current, ?_, h.running, ?_, ?_, h.flushed⟩ <;> intro item hitem
    · cases hitem
    · exact hflushing item hitem
    · cases hitem
  | handOff hpc =>
    rw [hpc] at hflushing
    refine ⟨interval, h.current, ?_, h.running, ?_, ?_, ?_⟩
    · intro item hitem
      cases hitem
    · intro item hitem
      exact hflushing item hitem
    · intro item hitem
      cases hitem
    · intro lines hlines
      simp only [spawnFlusher, List.map_append, List.map_cons, List.map_nil, List.mem_append,
        List.mem_singleton] at hlines
      rcases hlines with hlines | rfl
      · exact h.flushed lines hlines
      · exact h.oneInterval
  | replace hpc =>
    rw [hpc] at hflushing
    refine ⟨interval, ?_, ?_, h.running, ?_, ?_, h.flushed⟩
    · intro x hx
      cases hx
    · intro item hitem
      cases hitem
    · intro item hitem
      exact hflushing item hitem
    · intro item hitem
      rfl
  | @clear item hpc =>
    -- the running interval goes on in the new ledger
    have hempty := h.replaced item hpc
    obtain ⟨-, hepoch⟩ := h.flushing item (by rw [hpc]; rfl)
    refine ⟨w.epoch, ?_, ?_, fun _ => rfl, ?_, ?_, h.flushed⟩
    · intro x hx
      change x ∈ w.currentLines at hx
      rw [hempty] at hx
      cases hx
    · intro item' hitem
      cases hitem
      exact hepoch
    · intro item' hitem
      cases hitem
    · intro item' hitem
      cases hitem
  | @buffer item hpc =>
    refine ⟨interval, ?_, ?_, h.running, ?_, ?_, h.flushed⟩
    · intro x hx
      rcases List.mem_append.mp hx with hx | hx
      · exact h.current x hx
      · rw [List.mem_singleton] at hx
        rw [hx]
        exact h.joining item hpc
    · intro item' hitem
      cases hitem
    · intro item' hitem
      cases hitem
    · intro item' hitem
      cases hitem

end Worker.InInterval

-- ════════════════════════════════════════════════════════════════════════
-- Whole runs
-- ════════════════════════════════════════════════════════════════════════

namespace Aggregator

/-- The step is no interrupt of a worker in the middle of a flush. -/
def outsideFlush (s : Aggregator R W T) : Action W T → Bool
  | .interrupt i => !(s.workers i).pc.flushing
  | _ => true

variable [CDouble R] [NeZero W]

theorem inInterval_step {env : Env R} {consumer : AggregatorConsumer W} {s s' : Aggregator R W T}
    {a : Action W T} (h : ∀ i, ∃ interval, (s.workers i).InInterval interval)
    (hcond : outsideFlush s a = true) (hstep : step env consumer s a = some s') (i : Fin W) :
    ∃ interval, (s'.workers i).InInterval interval := by
  have hupdate : ∀ (j : Fin W) (w : Worker R), (∃ interval, w.InInterval interval) →
      ∃ interval, (Function.update s.workers j w i).InInterval interval := by
    intro j w hw
    by_cases hij : i = j
    · rw [hij, Function.update_self]
      exact hw
    · rw [Function.update_of_ne hij]
      exact h i
  cases stepped_of_step hstep with
  | consume | pushFailed => exact h i
  | @push _ j _ metric hpc =>
    obtain ⟨interval, hj⟩ := h j
    exact hupdate j _ ⟨interval, hj.enqueue metric⟩
  | @countDrop _ j _ metric hpc =>
    obtain ⟨interval, hj⟩ := h j
    exact hupdate j _ ⟨interval, hj.drop metric⟩
  | interrupt j =>
    obtain ⟨interval, hj⟩ := h j
    exact hupdate j _ ⟨interval, hj.interrupt (by simpa [outsideFlush] using hcond)⟩
  | worker j hact =>
    obtain ⟨interval, hj⟩ := h j
    exact hupdate j _ (hj.act hact)
  | @acquire j k hfree hstatus =>
    obtain ⟨interval, hj⟩ := h j
    exact hupdate j _ ⟨interval, hj.setFlusher k .flushing⟩
  | @release j k hheld =>
    obtain ⟨interval, hj⟩ := h j
    exact hupdate j _ ⟨interval, hj.setFlusher k .finished⟩

/-- The lines of a ledger carry counts of interrupts: a worker's epoch is the
number of interrupts that it has received. -/
theorem epoch_eq_count {env : Env R} {consumer : AggregatorConsumer W} {s₀ s : Aggregator R W T}
    (hs₀ : s₀.Initial) {as : List (Action W T)}
    (hrun : Transition.run (step env consumer) s₀ as = some s) (i : Fin W) :
    (s.workers i).epoch = as.count (.interrupt i) := by
  refine Transition.run_induction (I := fun as s => ∀ i, (s.workers i).epoch =
    as.count (.interrupt i)) ?_ ?_ hrun i
  · intro i
    obtain ⟨dropped, rate, bad, hw⟩ := hs₀.workers i
    rw [hw]
    rfl
  · intro as t a t' ih hstep i
    have hupdate : ∀ (j : Fin W) (w : Worker R), w.epoch = (t.workers j).epoch →
        (Function.update t.workers j w i).epoch = as.count (.interrupt i) := by
      intro j w hw
      by_cases hij : i = j
      · rw [hij, Function.update_self, hw, ih]
      · rw [Function.update_of_ne hij, ih]
    rw [List.count_append, List.count_singleton]
    cases stepped_of_step hstep with
    | interrupt j =>
      by_cases hij : i = j
      · subst hij
        simp [Worker.interrupt, ih]
      · simp [hij, Ne.symm hij, ih]
    | worker j hact =>
      refine (hupdate j _ ?_).trans (by simp)
      cases Worker.acted_of_act hact <;> rfl
    | consume | pushFailed => exact (ih i).trans (by simp)
    | push | countDrop | acquire | release =>
      refine (hupdate _ _ ?_).trans ?_
      · rfl
      · simp

/-- **Every interrupt cuts**, as long as none comes in the middle of a flush. -/
theorem separated_of_outsideFlush (env : Env R) (consumer : AggregatorConsumer W)
    {s₀ s : Aggregator R W T} (hs₀ : s₀.Initial) (as : List (Action W T))
    (hcond : Transition.StepsSatisfy (step env consumer)
      (fun s a => outsideFlush s a = true) s₀ as)
    (hrun : Transition.run (step env consumer) s₀ as = some s) (i : Fin W) :
    (s.workers i).Separated := by
  have hinit : ∀ i, ∃ interval, (s₀.workers i).InInterval interval := by
    intro i
    obtain ⟨dropped, rate, bad, hw⟩ := hs₀.workers i
    rw [hw]
    refine ⟨0, ?_, ?_, fun _ => rfl, ?_, ?_, ?_⟩ <;> intro x hx <;> cases hx
  obtain ⟨interval, hi⟩ := Transition.run_induction_where
    (I := fun _ s => ∀ i, ∃ interval, (s.workers i).InInterval interval) hinit
    (fun _ _ _ _ ih hP hstep => inInterval_step ih hP hstep) hcond hrun i
  exact ⟨hi.oneInterval, hi.flushed⟩

/-- A flush that the second line sets off, without further interrupts. -/
def servedRun {W T : ℕ} [NeZero W] [NeZero T] : List (Action W T) :=
  [.consume 0 (ascii "a:1|c"), .push 0 true, .worker 0 .pop, .worker 0 .test, .worker 0 .buffer,
   .interrupt 0, .consume 0 (ascii "a:2|c"), .push 0 true, .worker 0 .pop, .worker 0 .test,
   .worker 0 (.process 1), .worker 0 .handOff, .worker 0 .join, .worker 0 .publish,
   .worker 0 .replace, .worker 0 .clear, .worker 0 .buffer]

theorem separated_servedRun :
    ∃ s : Aggregator Exact 1 1,
      Transition.run (step ⟨{}, lexicalCast⟩ (.new {} List.length)) init servedRun = some s ∧
        (s.workers 0).Separated :=
  ⟨_, rfl, separated_of_outsideFlush ⟨{}, lexicalCast⟩ (.new {} List.length) initial_init
    servedRun (Transition.stepsSatisfy_of_allSteps rfl) rfl 0⟩

/-- A second interrupt comes while the ledger is handed off. -/
def lostRun {W T : ℕ} [NeZero W] [NeZero T] : List (Action W T) :=
  [.interrupt 0, .consume 0 (ascii "a:1|c"), .push 0 true, .worker 0 .pop, .worker 0 .test,
   .worker 0 (.process 1), .worker 0 .handOff, .interrupt 0, .worker 0 .join, .worker 0 .publish,
   .worker 0 .replace, .worker 0 .clear, .worker 0 .buffer,
   .consume 0 (ascii "a:2|c"), .push 0 true, .worker 0 .pop, .worker 0 .test, .worker 0 .buffer]

/-- An interrupt is lost: it comes between the flag tests of two lines, and both
are in the current ledger. -/
theorem not_separated_lostRun :
    ∃ s : Aggregator Exact 1 1,
      Transition.run (step ⟨{}, lexicalCast⟩ (.new {} List.length)) init lostRun = some s ∧
        ¬(s.workers 0).Separated :=
  ⟨_, rfl, fun h => absurd
    (h.current (ascii "a:1|c", 1) (.head _) (ascii "a:2|c", 2) (.tail _ (.head _))) (by decide)⟩

end Aggregator

end Statsdcc
