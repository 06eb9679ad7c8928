import Mathlib
import Statsdcc.Interrupts
import Statsdcc.Worker.Published
import Statsdcc.Lib.Refinement

/-!
# The clock

`Clock::wait_interrupt` sleeps and then calls `interrupt` of one worker after the
other, until it finds `done` set at the top of its loop. The sleep ends after the
flush interval, by the notification of `~Clock`, or for no reason at all, so that
nothing is said about the time between two rounds.

`rounds` and `stoppedAt` are history variables: the rounds begun, and how many they
were when `done` was set.

## Main definitions

- `Clocked.step` — one step of the clock, of its destructor, or of the aggregator
- `Clocked.InStep` — the workers, their ledgers and the clock agree

## Main results

- `Clocked.aggregator_run` — the aggregator under the clock is the one without it
- `Clocked.inStep_of_run` — workers and clock agree after every run
-/

namespace Statsdcc

variable {R : Type} {W T : ℕ}

-- ════════════════════════════════════════════════════════════════════════
-- The interrupts of one worker
-- ════════════════════════════════════════════════════════════════════════

/-- An interrupt for which no ledger has been handed off yet. -/
def Worker.unanswered (w : Worker R) : ℕ :=
  if w.interruptFlag = true ∧ w.pc.uncleared = false then 1 else 0

/-- Every ledger handed off answers an interrupt of its own. -/
structure Worker.Answers (w : Worker R) : Prop where
  flag : w.pc.flushing = true → w.interruptFlag = true
  cuts : w.flushers.length + w.unanswered ≤ w.epoch

namespace Worker.Answers

variable {w : Worker R}

/-- Steps that do not touch the flag. -/
theorem frame (h : w.Answers) {w' : Worker R} (hflag : w'.interruptFlag = w.interruptFlag)
    (hflushing : w'.pc.flushing = true → w.interruptFlag = true)
    (huncleared : w'.pc.uncleared = w.pc.uncleared)
    (hflushers : w'.flushers.length = w.flushers.length) (hepoch : w'.epoch = w.epoch) :
    w'.Answers where
  flag hpc := hflag.trans (hflushing hpc)
  cuts := by
    rw [hflushers, unanswered, hflag, huncleared, hepoch]
    exact h.cuts

theorem interrupt (h : w.Answers) : w.interrupt.Answers where
  flag _ := rfl
  cuts := by
    have hcuts := h.cuts
    have hone : w.interrupt.unanswered ≤ 1 := by
      rw [unanswered]
      split_ifs <;> omega
    show w.flushers.length + w.interrupt.unanswered ≤ w.epoch + 1
    omega

/-- The ledger that is handed off answers the interrupt. -/
theorem handOff [CDouble R] (h : w.Answers) {item : Stamped} (hpc : w.pc = .handOff item) :
    ({ w.spawnFlusher with pc := .join item } : Worker R).Answers where
  flag _ := h.flag (by rw [hpc]; rfl)
  cuts := by
    have hcuts := h.cuts
    have hpending : w.unanswered = 1 := by
      refine if_pos ⟨h.flag (by rw [hpc]; rfl), ?_⟩
      rw [hpc]
      rfl
    rw [hpending] at hcuts
    have hnone : ({ w.spawnFlusher with pc := .join item } : Worker R).unanswered = 0 := by
      refine if_neg ?_
      rintro ⟨-, huncleared⟩
      cases huncleared
    show (w.flushers ++ [_]).length + _ ≤ w.epoch
    rw [hnone, List.length_append, List.length_singleton]
    exact hcuts

theorem act [CDouble R] {env : Env R} {w' : Worker R} {a : WorkerAction} (h : w.Answers)
    (hact : w.act env a = some w') : w'.Answers := by
  have hframe : ∀ {w' : Worker R}, w'.interruptFlag = w.interruptFlag →
      (w'.pc.flushing = true → w.pc.flushing = true) → w'.pc.uncleared = w.pc.uncleared →
      w'.flushers.length = w.flushers.length → w'.epoch = w.epoch → w'.Answers := by
    intro w' hflag hflushing huncleared hflushers hepoch
    exact h.frame hflag (fun hpc => h.flag (hflushing hpc)) huncleared hflushers hepoch
  cases acted_of_act hact with
  | pop hpc hqueue =>
    refine hframe rfl (fun hflush => ?_) (by rw [hpc]; rfl) rfl rfl
    cases hflush
  | testSet hpc hflag =>
    exact h.frame rfl (fun _ => hflag) (by rw [hpc]; rfl) rfl rfl
  | testClear hpc hflag =>
    refine hframe rfl (fun hflush => ?_) (by rw [hpc]; rfl) rfl rfl
    cases hflush
  | process elapsed hpc =>
    exact hframe rfl (fun _ => by rw [hpc]; rfl) (by rw [hpc]; rfl) rfl rfl
  | handOff hpc => exact h.handOff hpc
  | join hpc | publish hpc | replace hpc =>
    exact hframe rfl (fun _ => by rw [hpc]; rfl) (by rw [hpc]; rfl) rfl rfl
  | @clear item hpc =>
    refine ⟨fun hflush => ?_, ?_⟩
    · cases hflush
    · have hcuts := h.cuts
      show w.flushers.length + 0 ≤ w.epoch
      omega
  | buffer hpc =>
    refine hframe rfl (fun hflush => ?_) (by rw [hpc]; rfl) rfl rfl
    cases hflush

theorem move [CDouble R] {env : Env R} {w' : Worker R} (h : w.Answers)
    (hmove : Worker.Move env w w') : w'.Answers := by
  cases hmove with
  | act a hact => exact h.act hact
  | interrupt => exact h.interrupt
  | enqueue metric | drop metric => exact h.frame rfl h.flag rfl rfl rfl
  | setFlusher j status => exact h.frame rfl h.flag rfl (List.length_modify ..) rfl

end Worker.Answers

-- ════════════════════════════════════════════════════════════════════════
-- The clock and the aggregator
-- ════════════════════════════════════════════════════════════════════════

/-- Where `wait_interrupt` stands. -/
inductive ClockPc
  /-- `while (!this->done)` -/
  | test
  | sleep
  /-- The loop over the workers. -/
  | interrupt (position : ℕ)
  | stopped
  deriving DecidableEq

/-- The aggregator with its clock. -/
structure Clocked (R : Type) (W T : ℕ) where
  aggregator : Aggregator R W T
  clock : ClockPc := .test
  done : Bool := false
  rounds : ℕ := 0
  stoppedAt : Option ℕ := none

inductive ClockAction (W T : ℕ)
  | test
  /-- `wait_for` returns. -/
  | wake
  | interrupt
  /-- `~Clock` sets `done`. -/
  | stop
  /-- Any other thread takes a step. -/
  | other (a : Action W T)
  deriving DecidableEq

namespace Clocked

section

variable [CDouble R] [NeZero W]

/-- One step, `none` when it is not enabled. -/
def step (env : Env R) (consumer : AggregatorConsumer W) (s : Clocked R W T) :
    ClockAction W T → Option (Clocked R W T)
  | .test =>
    match s.clock with
    | .test => some { s with clock := if s.done then .stopped else .sleep }
    | _ => none
  | .wake =>
    match s.clock with
    | .sleep => some { s with clock := .interrupt 0, rounds := s.rounds + 1 }
    | _ => none
  | .interrupt =>
    match s.clock with
    | .interrupt position =>
      if h : position < W then
        (Aggregator.step env consumer s.aggregator (.interrupt ⟨position, h⟩)).map
          fun aggregator => { s with aggregator, clock := .interrupt (position + 1) }
      else some { s with clock := .test }
    | _ => none
  | .stop => if s.done then none else some { s with done := true, stoppedAt := some s.rounds }
  | .other a =>
    match a with
    | .interrupt _ => none
    | a => (Aggregator.step env consumer s.aggregator a).map
        fun aggregator => { s with aggregator }

end

/-- The round of a worker: the one that is under way, or the one before if the loop
over the workers has not reached it. -/
def roundOf (s : Clocked R W T) (i : Fin W) : ℕ :=
  match s.clock with
  | .interrupt position => if i.val < position then s.rounds else s.rounds - 1
  | _ => s.rounds

/-- The workers, their ledgers and the clock agree. -/
structure InStep (s : Clocked R W T) : Prop where
  /-- A worker is interrupted once in each round. -/
  epochs : ∀ i, (s.aggregator.workers i).epoch = s.roundOf i
  /-- No two ledgers of a worker answer one interrupt. -/
  answers : ∀ i, (s.aggregator.workers i).Answers
  /-- `done` is found before another round but the one that was next. -/
  stopped : ∀ rounds, s.stoppedAt = some rounds → s.rounds ≤ rounds + 1

/-- The rounds and the places of the loop that go with them. -/
structure Placed (s : Clocked R W T) : Prop where
  begun : ∀ position, s.clock = .interrupt position → 0 < s.rounds
  done : s.done = true ↔ s.stoppedAt ≠ none
  asleep : s.clock = .sleep → ∀ rounds, s.stoppedAt = some rounds → s.rounds = rounds
  stopped : ∀ rounds, s.stoppedAt = some rounds → s.rounds ≤ rounds + 1

section Steps

variable [CDouble R] [NeZero W] {env : Env R} {consumer : AggregatorConsumer W}
variable {s s' : Clocked R W T}

/-- Only the clock interrupts. -/
theorem epoch_of_step {t t' : Aggregator R W T} {a : Action W T} (ha : ∀ i, a ≠ .interrupt i)
    (hstep : Aggregator.step env consumer t a = some t') (i : Fin W) :
    (t'.workers i).epoch = (t.workers i).epoch := by
  have hupdate : ∀ (j : Fin W) (w : Worker R), w.epoch = (t.workers j).epoch →
      (Function.update t.workers j w i).epoch = (t.workers i).epoch := by
    intro j w hw
    by_cases hij : i = j
    · rw [hij, Function.update_self, hw]
    · rw [Function.update_of_ne hij]
  cases Aggregator.stepped_of_step hstep with
  | interrupt j => exact absurd rfl (ha j)
  | worker j hact =>
    refine hupdate j _ ?_
    cases Worker.acted_of_act hact <;> rfl
  | consume | pushFailed => rfl
  | push | countDrop | acquire | release => exact hupdate _ _ rfl

theorem answers_of_step {t t' : Aggregator R W T} {a : Action W T}
    (hanswers : ∀ i, (t.workers i).Answers) (hstep : Aggregator.step env consumer t a = some t')
    (i : Fin W) : (t'.workers i).Answers := by
  rcases Aggregator.moves_of_step hstep i with heq | hmove
  · rw [heq]
    exact hanswers i
  · exact (hanswers i).move hmove

/-- A step of the clock proper. -/
theorem Placed.step {a : ClockAction W T} (h : s.Placed)
    (hstep : Clocked.step env consumer s a = some s') : s'.Placed := by
  cases a with
  | test =>
    simp only [Clocked.step] at hstep
    split at hstep
    case h_2 => cases hstep
    case h_1 hclock =>
      cases hstep
      refine ⟨fun position hpos => ?_, h.done, fun hsleep rounds hrounds => ?_, h.stopped⟩
      · dsimp only at hpos
        split_ifs at hpos
      · dsimp only at hsleep
        split_ifs at hsleep with hdone
        -- the clock goes to sleep only when `done` is not set
        exact absurd (h.done.mpr (by rw [hrounds]; simp)) hdone
  | wake =>
    simp only [Clocked.step] at hstep
    split at hstep
    case h_2 => cases hstep
    case h_1 hclock =>
      cases hstep
      refine ⟨fun _ _ => Nat.succ_pos _, h.done, fun hsleep => ?_, fun rounds hrounds => ?_⟩
      · cases hsleep
      · exact (congrArg (· + 1) (h.asleep hclock rounds hrounds)).le
  | interrupt =>
    simp only [Clocked.step] at hstep
    split at hstep
    case h_2 => cases hstep
    case h_1 position hclock =>
      split_ifs at hstep
      · obtain ⟨t, ht, rfl⟩ := Option.map_eq_some_iff.mp hstep
        refine ⟨fun _ _ => h.begun position hclock, h.done, fun hsleep => ?_, h.stopped⟩
        cases hsleep
      · cases hstep
        refine ⟨fun _ hpos => ?_, h.done, fun hsleep => ?_, h.stopped⟩
        · cases hpos
        · cases hsleep
  | stop =>
    simp only [Clocked.step] at hstep
    split_ifs at hstep with hdone
    cases hstep
    refine ⟨h.begun, by simp, fun _ rounds hrounds => ?_, fun rounds hrounds => ?_⟩
    · exact Option.some.inj hrounds
    · exact (Option.some.inj hrounds).le.trans (Nat.le_succ _)
  | other a =>
    obtain ⟨t, rfl⟩ : ∃ t, s' = { s with aggregator := t } := by
      simp only [Clocked.step] at hstep
      split at hstep
      · cases hstep
      · obtain ⟨t, -, rfl⟩ := Option.map_eq_some_iff.mp hstep
        exact ⟨t, rfl⟩
    exact ⟨h.begun, h.done, h.asleep, h.stopped⟩

theorem InStep.step {a : ClockAction W T} (h : s.InStep) (hplaced : s.Placed)
    (hstep : Clocked.step env consumer s a = some s') : s'.InStep := by
  have hstopped := (hplaced.step hstep).stopped
  cases a with
  | test =>
    simp only [Clocked.step] at hstep
    split at hstep
    case h_2 => cases hstep
    case h_1 hclock =>
      cases hstep
      refine ⟨fun i => ?_, h.answers, hstopped⟩
      rw [h.epochs i, roundOf, hclock, roundOf]
      cases s.done <;> rfl
  | wake =>
    simp only [Clocked.step] at hstep
    split at hstep
    case h_2 => cases hstep
    case h_1 hclock =>
      cases hstep
      refine ⟨fun i => ?_, h.answers, hstopped⟩
      rw [h.epochs i, roundOf, hclock, roundOf]
      rfl
  | interrupt =>
    simp only [Clocked.step] at hstep
    split at hstep
    case h_2 => cases hstep
    case h_1 position hclock =>
      have hbegun := hplaced.begun position hclock
      have hround : ∀ i, s.roundOf i = if i.val < position then s.rounds else s.rounds - 1 := by
        intro i
        rw [roundOf, hclock]
      split_ifs at hstep with hlt
      · obtain ⟨t, ht, rfl⟩ := Option.map_eq_some_iff.mp hstep
        refine ⟨fun i => ?_, answers_of_step h.answers ht, hstopped⟩
        show (t.workers i).epoch = if i.val < position + 1 then s.rounds else s.rounds - 1
        have hepoch := h.epochs i
        rw [hround] at hepoch
        cases ht
        by_cases hi : i = ⟨position, hlt⟩
        · subst hi
          rw [if_neg (Nat.lt_irrefl position)] at hepoch
          rw [if_pos (Nat.lt_succ_self position), Aggregator.setWorker_workers,
            Function.update_self, Worker.interrupt, hepoch]
          exact Nat.succ_pred_eq_of_pos hbegun
        · have hne : i.val ≠ position := fun heq => hi (Fin.ext heq)
          rw [Aggregator.setWorker_workers, Function.update_of_ne hi, hepoch]
          exact if_congr (by omega) rfl rfl
      · cases hstep
        refine ⟨fun i => ?_, h.answers, hstopped⟩
        rw [h.epochs i, hround]
        exact if_pos (lt_of_lt_of_le i.isLt (Nat.le_of_not_lt hlt))
  | stop =>
    simp only [Clocked.step] at hstep
    split_ifs at hstep
    cases hstep
    exact ⟨h.epochs, h.answers, hstopped⟩
  | other a =>
    simp only [Clocked.step] at hstep
    split at hstep
    case h_1 => cases hstep
    case h_2 hne =>
      obtain ⟨t, ht, rfl⟩ := Option.map_eq_some_iff.mp hstep
      refine ⟨fun i => ?_, answers_of_step h.answers ht, hstopped⟩
      exact (epoch_of_step hne ht i).trans (h.epochs i)

/-- **The clock drives all workers alike**: in every run, at most one interrupt apart,
with at most one ledger for each, and with at most one round after `done`. -/
theorem inStep_of_run (env : Env R) (consumer : AggregatorConsumer W) {s₀ : Aggregator R W T}
    (hs₀ : s₀.Initial) (as : List (ClockAction W T))
    (hrun : Transition.run (Clocked.step env consumer) { aggregator := s₀ } as = some s) :
    s.InStep := by
  have hworker : ∀ i, (s₀.workers i).epoch = 0 ∧ (s₀.workers i).Answers := by
    intro i
    obtain ⟨dropped, rate, bad, hw⟩ := hs₀.workers i
    rw [hw]
    refine ⟨rfl, ⟨fun hflush => ?_, Nat.le_refl 0⟩⟩
    cases hflush
  have hplaced : ({ aggregator := s₀ } : Clocked R W T).Placed := by
    refine ⟨fun position hclock => ?_, by simp, fun hclock => ?_, fun rounds hrounds => ?_⟩
    · cases hclock
    · cases hclock
    · cases hrounds
  have hinit : ({ aggregator := s₀ } : Clocked R W T).InStep :=
    ⟨fun i => (hworker i).1, fun i => (hworker i).2, hplaced.stopped⟩
  have hboth : s.InStep ∧ s.Placed :=
    Transition.run_induction (I := fun _ s => s.InStep ∧ s.Placed) ⟨hinit, hplaced⟩
      (fun _ _ _ _ ih hstep => ⟨ih.1.step ih.2 hstep, ih.2.step hstep⟩) hrun
  exact hboth.1

/-- What a step does to the aggregator. -/
def actions (s : Clocked R W T) : ClockAction W T → List (Action W T)
  | .interrupt =>
    match s.clock with
    | .interrupt position => if h : position < W then [.interrupt ⟨position, h⟩] else []
    | _ => []
  | .other a => [a]
  | _ => []

/-- The aggregator under its clock runs as it does without one. -/
theorem aggregator_run {s₀ : Clocked R W T} {as : List (ClockAction W T)}
    (hrun : Transition.run (Clocked.step env consumer) s₀ as = some s) :
    Transition.run (Aggregator.step env consumer) s₀.aggregator
      (Transition.trace (Clocked.step env consumer) actions s₀ as) = some s.aggregator := by
  refine (Transition.run_trace (f := aggregator) (I := fun _ => True) trivial
    (fun _ _ _ _ _ => trivial) (fun t a t' _ hstep => ?_) hrun).2
  cases a with
  | test =>
    simp only [Clocked.step] at hstep
    split at hstep <;> cases hstep
    rfl
  | wake =>
    simp only [Clocked.step] at hstep
    split at hstep <;> cases hstep
    rfl
  | interrupt =>
    simp only [Clocked.step] at hstep
    split at hstep
    case h_2 => cases hstep
    case h_1 position hclock =>
      simp only [actions, hclock]
      split_ifs at hstep ⊢ with hlt
      · obtain ⟨u, hu, rfl⟩ := Option.map_eq_some_iff.mp hstep
        rw [Transition.run_cons, hu]
        rfl
      · cases hstep
        rfl
  | stop =>
    simp only [Clocked.step] at hstep
    split_ifs at hstep
    cases hstep
    rfl
  | other a =>
    simp only [Clocked.step] at hstep
    split at hstep
    case h_1 => cases hstep
    case h_2 =>
      obtain ⟨u, hu, rfl⟩ := Option.map_eq_some_iff.mp hstep
      simp only [actions]
      rw [Transition.run_cons, hu]
      rfl

end Steps

/-- `done` is set during a round: the clock finishes it and stops. -/
def stoppedRun {W T : ℕ} [NeZero W] [NeZero T] : List (ClockAction W T) :=
  [.test, .wake, .interrupt, .other (.consume 0 (Bytes.ascii "a:1|c")), .other (.push 0 true),
   .stop, .interrupt, .other (.worker 0 .pop), .other (.worker 0 .test),
   .other (.worker 0 (.process 1)), .other (.worker 0 .handOff), .interrupt, .test]

theorem inStep_stoppedRun :
    ∃ s : Clocked Exact 2 1,
      Transition.run (Clocked.step ⟨{}, lexicalCast⟩ (.new {} fun _ => 0))
        { aggregator := Aggregator.init } stoppedRun = some s ∧
      s.clock = .stopped ∧ s.InStep :=
  ⟨_, rfl, rfl, inStep_of_run ⟨{}, lexicalCast⟩ (.new {} fun _ => 0) Aggregator.initial_init
    stoppedRun rfl⟩

end Clocked

end Statsdcc
