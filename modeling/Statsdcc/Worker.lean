import Mathlib
import Statsdcc.Ledger

/-!
# A worker of the aggregator

`Worker::process` is a loop that other threads can interrupt at any point. It is
modelled by a program counter: each `WorkerAction` is one step of the loop body
between two accesses to what the worker shares with other threads.

Three fields are history variables, which no step reads: `popped` and `dropped`
list the metrics the worker has taken from its queue and the metrics `submit`
has refused, and `epoch` counts the interrupts. The lines of a ledger carry the
epoch in which the flag was tested for them.

## Main definitions

- `Worker.act` — the steps of `Worker::process`
- `Worker.Move` — everything that can happen to one worker
-/

open Bytes

namespace Statsdcc

/-- A line in a ledger and the epoch of its flag test. -/
abbrev Stamped := Bytes × ℕ

/-- The next step of `Worker::process`, with the metric it has in hand. -/
inductive WorkerPc
  | pop
  | test (metric : Bytes)
  | process (item : Stamped)
  | handOff (item : Stamped)
  | join (item : Stamped)
  | publish (item : Stamped)
  | replace (item : Stamped)
  | clear (item : Stamped)
  | buffer (item : Stamped)
  deriving DecidableEq

namespace WorkerPc

/-- The metric between pop and buffer. -/
def inHand : WorkerPc → List Bytes
  | pop => []
  | test metric => [metric]
  | process item | handOff item | join item | publish item | replace item | clear item
  | buffer item => [item.1]

/-- From the flag test that found the flag set to the step that clears it. -/
def flushing : WorkerPc → Bool
  | process _ | handOff _ | join _ | publish _ | replace _ | clear _ => true
  | _ => false

/-- The copy of the current ledger has been handed off, the ledger itself not
yet replaced. -/
def handedOff : WorkerPc → Bool
  | join _ | publish _ | replace _ => true
  | _ => false

end WorkerPc

/-- The progress of a thread that runs `BackendContainer::flush`. -/
inductive FlusherStatus
  | waiting
  | flushing
  | finished
  deriving DecidableEq

/-- A flusher thread: the arguments of its call, the lines of its ledger, and
how far it is. -/
structure Flusher (R : Type) where
  ledger : Ledger R
  flusherId : ℕ
  lines : List Stamped
  status : FlusherStatus := .waiting

/-- The state of a `workers::aggregator::Worker` and of its thread. -/
structure Worker (R : Type) where
  id : ℕ
  metricsDropped : UInt64
  metricsRate : UInt64
  badLinesSeen : Int32
  frequency : UnorderedMap Bytes ℤ := ∅
  workQueue : List Bytes := []
  currentLedger : Ledger R := {}
  interruptFlag : Bool := false
  count : Int32 := 0
  pc : WorkerPc := .pop
  /-- The flusher threads in the order of their creation; `flusher_guard` holds the last. -/
  flushers : List (Flusher R) := []
  currentLines : List Stamped := []
  popped : List Bytes := []
  dropped : List Bytes := []
  epoch : ℕ := 0

/-- A step of `Worker::process`. -/
inductive WorkerAction
  | pop
  | test
  /-- `current_ledger->process()`, which takes `elapsed` milliseconds. -/
  | process (elapsed : ℤ)
  | handOff
  | join
  | publish
  | replace
  | clear
  | buffer
  deriving DecidableEq

section

variable {R : Type} [CDouble R]

/-- Start a thread that flushes a copy of the current ledger. -/
def Worker.spawnFlusher (w : Worker R) : Worker R :=
  { w with flushers := w.flushers ++
      [{ ledger := w.currentLedger.copy, flusherId := w.id, lines := w.currentLines }] }

/-- `flusher_guard` can let go of the thread before the last one. -/
def Worker.previousFinished (w : Worker R) : Bool :=
  w.flushers.dropLast.getLast?.all fun f => decide (f.status = .finished)

/-- One step of `Worker::process`, `none` when it is not its turn. -/
def Worker.act (env : Env R) (w : Worker R) : WorkerAction → Option (Worker R)
  | .pop =>
    match w.pc, w.workQueue with
    | .pop, metric :: queue =>
      some { w with workQueue := queue, popped := w.popped ++ [metric], pc := .test metric }
    -- an empty queue: sleep and try again
    | _, _ => none
  | .test =>
    match w.pc with
    | .test metric =>
      if w.interruptFlag then some { w with pc := .process (metric, w.epoch) }
      else some { w with pc := .buffer (metric, w.epoch) }
    | _ => none
  | .process elapsed =>
    match w.pc with
    | .process item =>
      some { w with
        currentLedger := w.currentLedger.process env.config elapsed
        pc := .handOff item }
    | _ => none
  | .handOff =>
    match w.pc with
    | .handOff item => some { w.spawnFlusher with pc := .join item }
    | _ => none
  | .join =>
    match w.pc with
    | .join item => if w.previousFinished then some { w with pc := .publish item } else none
    | _ => none
  | .publish =>
    match w.pc with
    | .publish item =>
      some { w with
        badLinesSeen := .ofInt (w.currentLedger.badLinesSeen env.config)
        frequency := w.currentLedger.frequency
        pc := .replace item }
    | _ => none
  | .replace =>
    match w.pc with
    | .replace item =>
      some { w with currentLedger := {}, currentLines := [], pc := .clear item }
    | _ => none
  | .clear =>
    match w.pc with
    | .clear item =>
      some { w with
        metricsRate := .ofInt (w.count.toInt.tdiv env.config.frequency)
        count := 0
        interruptFlag := false
        pc := .buffer item }
    | _ => none
  | .buffer =>
    match w.pc with
    | .buffer item =>
      some { w with
        currentLedger := w.currentLedger.buffer env item.1
        currentLines := w.currentLines ++ [item]
        count := w.count + 1
        pc := .pop }
    | _ => none

/-- `Worker::interrupt`. -/
def Worker.interrupt (w : Worker R) : Worker R :=
  { w with interruptFlag := true, epoch := w.epoch + 1 }

/-- `work_queue.push` succeeds. -/
def Worker.enqueue (w : Worker R) (metric : Bytes) : Worker R :=
  { w with workQueue := w.workQueue ++ [metric] }

/-- `submit` counts a metric that did not fit and frees it. -/
def Worker.drop (w : Worker R) (metric : Bytes) : Worker R :=
  { w with metricsDropped := w.metricsDropped + 1, dropped := w.dropped ++ [metric] }

/-- A flusher thread goes on. -/
def Worker.setFlusher (w : Worker R) (j : ℕ) (status : FlusherStatus) : Worker R :=
  { w with flushers := w.flushers.modify j fun f => { f with status } }

/-- What happens to one worker in a step of the aggregator. -/
inductive Worker.Move (env : Env R) (w : Worker R) : Worker R → Prop
  | act {w' : Worker R} (a : WorkerAction) (h : w.act env a = some w') : Move env w w'
  | interrupt : Move env w w.interrupt
  | enqueue (metric : Bytes) : Move env w (w.enqueue metric)
  | drop (metric : Bytes) : Move env w (w.drop metric)
  | setFlusher (j : ℕ) (status : FlusherStatus) : Move env w (w.setFlusher j status)

/-- What each step of `Worker::process` can do. -/
inductive Worker.Acted (env : Env R) (w : Worker R) : WorkerAction → Worker R → Prop
  | pop {metric : Bytes} {queue : List Bytes} (hpc : w.pc = .pop)
      (hqueue : w.workQueue = metric :: queue) :
      Acted env w .pop { w with
        workQueue := queue, popped := w.popped ++ [metric], pc := .test metric }
  | testSet {metric : Bytes} (hpc : w.pc = .test metric) (hflag : w.interruptFlag = true) :
      Acted env w .test { w with pc := .process (metric, w.epoch) }
  | testClear {metric : Bytes} (hpc : w.pc = .test metric) (hflag : w.interruptFlag = false) :
      Acted env w .test { w with pc := .buffer (metric, w.epoch) }
  | process {item : Stamped} (elapsed : ℤ) (hpc : w.pc = .process item) :
      Acted env w (.process elapsed) { w with
        currentLedger := w.currentLedger.process env.config elapsed, pc := .handOff item }
  | handOff {item : Stamped} (hpc : w.pc = .handOff item) :
      Acted env w .handOff { w.spawnFlusher with pc := .join item }
  | join {item : Stamped} (hpc : w.pc = .join item) (hprev : w.previousFinished = true) :
      Acted env w .join { w with pc := .publish item }
  | publish {item : Stamped} (hpc : w.pc = .publish item) :
      Acted env w .publish { w with
        badLinesSeen := .ofInt (w.currentLedger.badLinesSeen env.config)
        frequency := w.currentLedger.frequency
        pc := .replace item }
  | replace {item : Stamped} (hpc : w.pc = .replace item) :
      Acted env w .replace { w with currentLedger := {}, currentLines := [], pc := .clear item }
  | clear {item : Stamped} (hpc : w.pc = .clear item) :
      Acted env w .clear { w with
        metricsRate := .ofInt (w.count.toInt.tdiv env.config.frequency)
        count := 0
        interruptFlag := false
        pc := .buffer item }
  | buffer {item : Stamped} (hpc : w.pc = .buffer item) :
      Acted env w .buffer { w with
        currentLedger := w.currentLedger.buffer env item.1
        currentLines := w.currentLines ++ [item]
        count := w.count + 1
        pc := .pop }

/-- The program counter of an enabled step determines what the step does. -/
theorem Worker.acted_of_act {env : Env R} {w w' : Worker R} {a : WorkerAction}
    (h : w.act env a = some w') : Worker.Acted env w a w' := by
  cases a with
  | pop =>
    simp only [Worker.act] at h
    split at h
    · rename_i metric queue hpc hqueue
      cases h
      exact .pop hpc hqueue
    · cases h
  | test =>
    simp only [Worker.act] at h
    split at h
    · rename_i metric hpc
      split at h <;> cases h
      · exact .testSet hpc ‹_›
      · exact .testClear hpc (Bool.not_eq_true _ ▸ ‹_›)
    · cases h
  | join =>
    simp only [Worker.act] at h
    split at h
    · split at h <;> cases h
      exact .join ‹_› ‹_›
    · cases h
  | process elapsed =>
    simp only [Worker.act] at h
    split at h <;> cases h
    exact .process elapsed ‹_›
  | handOff =>
    simp only [Worker.act] at h
    split at h <;> cases h
    exact .handOff ‹_›
  | publish =>
    simp only [Worker.act] at h
    split at h <;> cases h
    exact .publish ‹_›
  | replace =>
    simp only [Worker.act] at h
    split at h <;> cases h
    exact .replace ‹_›
  | clear =>
    simp only [Worker.act] at h
    split at h <;> cases h
    exact .clear ‹_›
  | buffer =>
    simp only [Worker.act] at h
    split at h <;> cases h
    exact .buffer ‹_›

end

end Statsdcc
