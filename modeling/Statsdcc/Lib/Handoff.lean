import Mathlib
import Statsdcc.Lib.Refinement

/-!
# Queues between threads

What a program means that passes values through bounded queues: a call pushes its
value or drops it, and each consumer takes values from the front of its queue,
one at a time.

## Main results

- `Handoff.called_eq` — every call pushes or drops its value, once
- `Handoff.pushed_eq` — what was pushed to a queue is what was popped from it, in
  this order, and what is in it
-/

/-- The values of the calls that are not over, with the queues they are for, the
values in the queues, and those in the hands of the consumers. -/
structure Handoff (α Q C : Type*) where
  calls : Multiset (Q × α) := 0
  queues : Q → List α := fun _ => []
  hands : C → Option α := fun _ => none

namespace Handoff

variable {α Q C : Type*}

inductive Event (α Q C : Type*)
  | call (queue : Q) (x : α)
  | push (queue : Q) (x : α)
  /-- A value that did not fit. -/
  | drop (queue : Q) (x : α)
  | pop (consumer : C) (x : α)
  /-- A consumer is done with its value. -/
  | finish (consumer : C)
  deriving DecidableEq

variable [DecidableEq α] [DecidableEq Q] [DecidableEq C]

/-- One event, `none` when it is not possible. -/
def step (capacity : ℕ) (queueOf : C → Q) (s : Handoff α Q C) :
    Event α Q C → Option (Handoff α Q C)
  | .call q x => some { s with calls := s.calls + {(q, x)} }
  | .push q x =>
    if (q, x) ∈ s.calls ∧ (s.queues q).length < capacity then
      some { s with
        calls := s.calls.erase (q, x)
        queues := Function.update s.queues q (s.queues q ++ [x]) }
    else none
  | .drop q x => if (q, x) ∈ s.calls then some { s with calls := s.calls.erase (q, x) } else none
  | .pop c x =>
    match s.hands c, s.queues (queueOf c) with
    | none, y :: ys =>
      if x = y then
        some { s with
          queues := Function.update s.queues (queueOf c) ys
          hands := Function.update s.hands c (some x) }
      else none
    | _, _ => none
  | .finish c =>
    match s.hands c with
    | some _ => some { s with hands := Function.update s.hands c none }
    | none => none

/-- The values of all calls. -/
def called (es : List (Event α Q C)) : List (Q × α) :=
  es.filterMap fun
    | .call q x => some (q, x)
    | _ => none

/-- The values of the calls that are over. -/
def returned (es : List (Event α Q C)) : List (Q × α) :=
  es.filterMap fun
    | .push q x | .drop q x => some (q, x)
    | _ => none

/-- The values pushed to a queue. -/
def pushed (q : Q) (es : List (Event α Q C)) : List α :=
  es.filterMap fun
    | .push q' x => if q' = q then some x else none
    | _ => none

/-- The values popped from a queue, whoever popped them. -/
def popped (queueOf : C → Q) (q : Q) (es : List (Event α Q C)) : List α :=
  es.filterMap fun
    | .pop c x => if queueOf c = q then some x else none
    | _ => none

variable {capacity : ℕ} {queueOf : C → Q}

theorem step_push {s : Handoff α Q C} {q : Q} {x : α} {calls : Multiset (Q × α)}
    (hcalls : calls + {(q, x)} = s.calls) (hroom : (s.queues q).length < capacity) :
    step capacity queueOf s (.push q x) =
      some { s with calls, queues := Function.update s.queues q (s.queues q ++ [x]) } := by
  have hcons : s.calls = (q, x) ::ₘ calls := hcalls.symm.trans (Multiset.add_comm ..)
  simp only [step]
  rw [hcons, if_pos ⟨Multiset.mem_cons_self .., hroom⟩, Multiset.erase_cons_head]

theorem step_drop {s : Handoff α Q C} {q : Q} {x : α} {calls : Multiset (Q × α)}
    (hcalls : calls + {(q, x)} = s.calls) :
    step capacity queueOf s (.drop q x) = some { s with calls } := by
  have hcons : s.calls = (q, x) ::ₘ calls := hcalls.symm.trans (Multiset.add_comm ..)
  simp only [step]
  rw [hcons, if_pos (Multiset.mem_cons_self ..), Multiset.erase_cons_head]

theorem step_pop {s : Handoff α Q C} {c : C} {x : α} {xs : List α} (hhand : s.hands c = none)
    (hqueue : s.queues (queueOf c) = x :: xs) :
    step capacity queueOf s (.pop c x) =
      some { s with
        queues := Function.update s.queues (queueOf c) xs
        hands := Function.update s.hands c (some x) } := by
  simp only [step]
  rw [hhand, hqueue]
  exact if_pos rfl

theorem step_finish {s : Handoff α Q C} {c : C} {x : α} (hhand : s.hands c = some x) :
    step capacity queueOf s (.finish c) =
      some { s with hands := Function.update s.hands c none } := by
  simp only [step]
  rw [hhand]

/-- Every call that is over has pushed its value or dropped it, once. -/
theorem called_eq {s : Handoff α Q C} {es : List (Event α Q C)}
    (hrun : Transition.run (step capacity queueOf) {} es = some s) :
    (called es : Multiset (Q × α)) = ↑(returned es) + s.calls := by
  refine Transition.run_induction
    (I := fun es s => (called es : Multiset (Q × α)) = ↑(returned es) + s.calls) rfl ?_ hrun
  intro es s e s' ih hstep
  have hcalled : (called (es ++ [e]) : Multiset (Q × α)) = ↑(called es) + ↑(called [e]) :=
    congrArg _ (List.filterMap_append ..)
  have hreturned : (returned (es ++ [e]) : Multiset (Q × α)) = ↑(returned es) + ↑(returned [e]) :=
    congrArg _ (List.filterMap_append ..)
  rw [hcalled, hreturned, ih]
  have hkeep : ∀ {q x}, (q, x) ∈ s.calls →
      s.calls = ((q, x) ::ₘ 0) + s.calls.erase (q, x) := fun hmem => by
    rw [Multiset.cons_add, zero_add, Multiset.cons_erase hmem]
  cases e with
  | call q x =>
    cases hstep
    show (↑(returned es) + s.calls) + {(q, x)} = ↑(returned es) + 0 + (s.calls + {(q, x)})
    rw [add_zero, add_assoc]
  | push q x =>
    simp only [step] at hstep
    split_ifs at hstep with hcall
    cases hstep
    show (↑(returned es) + s.calls) + 0 = ↑(returned es) + ((q, x) ::ₘ 0) + s.calls.erase (q, x)
    rw [add_zero, add_assoc, ← hkeep hcall.1]
  | drop q x =>
    simp only [step] at hstep
    split_ifs at hstep with hcall
    cases hstep
    show (↑(returned es) + s.calls) + 0 = ↑(returned es) + ((q, x) ::ₘ 0) + s.calls.erase (q, x)
    rw [add_zero, add_assoc, ← hkeep hcall]
  | pop c x =>
    simp only [step] at hstep
    split at hstep
    case h_2 => cases hstep
    case h_1 =>
      split_ifs at hstep
      cases hstep
      show (↑(returned es) + s.calls) + 0 = ↑(returned es) + 0 + s.calls
      rw [add_zero, add_zero]
  | finish c =>
    simp only [step] at hstep
    split at hstep
    case h_2 => cases hstep
    case h_1 =>
      cases hstep
      show (↑(returned es) + s.calls) + 0 = ↑(returned es) + 0 + s.calls
      rw [add_zero, add_zero]

/-- A queue is first in, first out, and loses and duplicates nothing. -/
theorem pushed_eq {s : Handoff α Q C} {es : List (Event α Q C)}
    (hrun : Transition.run (step capacity queueOf) {} es = some s) (q : Q) :
    pushed q es = popped queueOf q es ++ s.queues q := by
  refine Transition.run_induction
    (I := fun es s => pushed q es = popped queueOf q es ++ s.queues q) rfl ?_ hrun
  intro es s e s' ih hstep
  show (es ++ [e]).filterMap _ = (es ++ [e]).filterMap _ ++ s'.queues q
  rw [List.filterMap_append, List.filterMap_append]
  change pushed q es ++ _ = (popped queueOf q es ++ _) ++ _
  rw [ih]
  cases e with
  | call q' x =>
    cases hstep
    simp
  | push q' x =>
    simp only [step] at hstep
    split_ifs at hstep
    cases hstep
    by_cases hq : q' = q
    · subst hq
      simp
    · simp [hq, Function.update_of_ne (Ne.symm hq)]
  | drop q' x =>
    simp only [step] at hstep
    split_ifs at hstep
    cases hstep
    simp
  | pop c x =>
    simp only [step] at hstep
    split at hstep
    case h_2 => cases hstep
    case h_1 y ys hhand hqueue =>
      split_ifs at hstep with hx
      cases hstep
      subst hx
      by_cases hq : queueOf c = q
      · subst hq
        simp [hqueue]
      · simp [hq, Function.update_of_ne (Ne.symm hq)]
  | finish c =>
    simp only [step] at hstep
    split at hstep
    case h_2 => cases hstep
    case h_1 =>
      cases hstep
      simp

end Handoff
