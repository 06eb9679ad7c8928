import Mathlib
import Statsdcc.Lib.Transition

/-!
# Objects with threads

A program makes objects one after the other and destroys them in an order of its own.
The constructor of an object creates its threads and the destructor joins them; in
between they access other objects. An object is destroyed only if it has been stored,
which happens behind its constructor. A signal can begin the destruction at any time,
also during another one; it is handled where the objects are made.

`accesses` is a history variable.

## Main definitions

- `Program` — the orders, and which threads access which objects
- `Program.Ordered` — an object is made behind those that it uses, and destroyed before
- `Lifetime.step` — one step of the program or of a thread
- `Lifetime.Course` — how far the program is, which decides the phase of every object

## Main results

- `Lifetime.safe_of_ordered` — no thread accesses an object that is not there, and none is
  left at the end, when no signal comes during a constructor or a destruction
-/

/-- The objects of a program. -/
structure Program (O : Type*) where
  /-- The order in which they are made. -/
  plan : List O
  /-- The order in which they are destroyed. -/
  teardown : List O
  /-- The threads of an object access another one. -/
  uses : O → O → Bool
  /-- What the constructor throws is caught, and begins the destruction. -/
  caught : O → Bool

/-- Every object is made behind those that it uses, and destroyed before them. -/
structure Program.Ordered {O : Type*} (p : Program O) : Prop where
  made : ∀ a b front back, p.uses a b = true → p.plan = front ++ a :: back → b ∈ front
  destroyed : ∀ a b front back, p.uses a b = true → p.teardown = front ++ b :: back → a ∈ front
  covered : ∀ a ∈ p.plan, a ∈ p.teardown

/-- What stands in a part of a list in front of all `a` stands in front of every `a`. -/
theorem Program.mem_front {O : Type*} {a b : O} {l pre front back : List O} (hpre : pre <+: l)
    (hb : b ∈ pre) (ha : a ∉ pre) (hl : l = front ++ a :: back) : b ∈ front := by
  obtain ⟨post, hpost⟩ := hpre
  rcases List.append_eq_append_iff.mp (hpost.trans hl) with ⟨mid, hfront, -⟩ | ⟨mid, heq, hmid⟩
  · rw [hfront]
    exact List.mem_append_left _ hb
  · cases mid with
    | nil => rwa [heq, List.append_nil] at hb
    | cons x mid =>
      obtain ⟨rfl, -⟩ := List.cons.inj hmid
      exact absurd (heq ▸ List.mem_append_right _ List.mem_cons_self) ha

/-- The orders are right when they split between an object and those that it uses. -/
theorem Program.Ordered.of_prefixes {O : Type*} {p : Program O}
    (hmade : ∀ a b, p.uses a b = true → ∃ pre, pre <+: p.plan ∧ b ∈ pre ∧ a ∉ pre)
    (hdestroyed : ∀ a b, p.uses a b = true → ∃ pre, pre <+: p.teardown ∧ a ∈ pre ∧ b ∉ pre)
    (hcovered : ∀ a ∈ p.plan, a ∈ p.teardown) : p.Ordered where
  made a b front back huses hplan := by
    obtain ⟨pre, hpre, hb, ha⟩ := hmade a b huses
    exact mem_front hpre hb ha hplan
  destroyed a b front back huses hteardown := by
    obtain ⟨pre, hpre, ha, hb⟩ := hdestroyed a b huses
    exact mem_front hpre ha hb hteardown
  covered := hcovered

namespace Lifetime

inductive Phase
  | absent
  /-- The constructor has begun and has not returned, or its object is not stored. -/
  | building
  | alive
  /-- The destructor has begun, and has not joined the threads. -/
  | dying
  | gone
  deriving DecidableEq

/-- A thread of `source` accesses `target` when that is in a phase. -/
structure Access (O : Type*) where
  source : O
  target : O
  phase : Phase
  deriving DecidableEq

inductive Action (O : Type*)
  | construct
  /-- The constructor creates a thread. -/
  | spawn
  /-- The object is stored. -/
  | publish
  /-- The constructor throws, behind a join of the threads that it has created. -/
  | fail
  | signal
  /-- The next object is destroyed, if it has been stored. -/
  | reset
  | join
  | exit
  | access (source target : O)
  | leave (source : O)

end Lifetime

open Lifetime in
/-- A program that runs. -/
structure Lifetime (O : Type*) where
  planned : List O
  phase : O → Phase := fun _ => .absent
  running : O → ℕ := fun _ => 0
  /-- The destructions that have begun, the last one first: the object whose threads are
  joined, and the objects to come. -/
  calls : List (Option O × List O) := []
  exited : Bool := false
  accesses : List (Access O) := []

namespace Lifetime

variable {O : Type*} [DecidableEq O]

def setPhase (s : Lifetime O) (o : O) (phase : Phase) : Lifetime O :=
  { s with phase := Function.update s.phase o phase }

def setRunning (s : Lifetime O) (o : O) (n : ℕ) : Lifetime O :=
  { s with running := Function.update s.running o n }

/-- One step, `none` when it is not enabled. -/
def step (p : Program O) (s : Lifetime O) : Action O → Option (Lifetime O)
  | .construct =>
    match s.calls, s.planned with
    | [], o :: _ => if s.phase o = .absent then some (s.setPhase o .building) else none
    | _, _ => none
  | .spawn =>
    match s.calls, s.planned with
    | [], o :: _ =>
      if s.phase o = .building then some (s.setRunning o (s.running o + 1)) else none
    | _, _ => none
  | .publish =>
    match s.calls, s.planned with
    | [], o :: rest =>
      if s.phase o = .building then some { s.setPhase o .alive with planned := rest } else none
    | _, _ => none
  | .fail =>
    match s.calls, s.planned with
    | [], o :: _ =>
      if s.phase o = .building ∧ s.running o = 0 ∧ p.caught o then
        some { s.setPhase o .absent with calls := [(none, p.teardown)] }
      else none
    | _, _ => none
  | .signal =>
    if s.exited then none else some { s with calls := (none, p.teardown) :: s.calls }
  | .reset =>
    match s.calls with
    | (none, o :: rest) :: outer =>
      if s.phase o = .alive then some { s.setPhase o .dying with calls := (some o, rest) :: outer }
      else some { s with calls := (none, rest) :: outer }
    | _ => none
  | .join =>
    match s.calls with
    | (some o, rest) :: outer =>
      if s.running o = 0 then some { s.setPhase o .gone with calls := (none, rest) :: outer }
      else none
    | _ => none
  | .exit =>
    match s.calls with
    | (none, []) :: _ => if s.exited then none else some { s with exited := true }
    | _ => none
  | .access a b =>
    if 0 < s.running a ∧ p.uses a b then
      some { s with accesses := s.accesses ++ [⟨a, b, s.phase b⟩] }
    else none
  | .leave a => if 0 < s.running a then some (s.setRunning a (s.running a - 1)) else none

/-- What each step can do. -/
inductive Stepped (p : Program O) (s : Lifetime O) : Action O → Lifetime O → Prop
  | construct {o : O} {rest : List O} (hcalls : s.calls = []) (hplanned : s.planned = o :: rest)
      (hphase : s.phase o = .absent) : Stepped p s .construct (s.setPhase o .building)
  | spawn {o : O} {rest : List O} (hcalls : s.calls = []) (hplanned : s.planned = o :: rest)
      (hphase : s.phase o = .building) : Stepped p s .spawn (s.setRunning o (s.running o + 1))
  | publish {o : O} {rest : List O} (hcalls : s.calls = []) (hplanned : s.planned = o :: rest)
      (hphase : s.phase o = .building) :
      Stepped p s .publish { s.setPhase o .alive with planned := rest }
  | fail {o : O} {rest : List O} (hcalls : s.calls = []) (hplanned : s.planned = o :: rest)
      (hphase : s.phase o = .building) (hrunning : s.running o = 0) :
      Stepped p s .fail { s.setPhase o .absent with calls := [(none, p.teardown)] }
  | signal (hexited : s.exited = false) :
      Stepped p s .signal { s with calls := (none, p.teardown) :: s.calls }
  | reset {o : O} {rest : List O} {outer : List (Option O × List O)}
      (hcalls : s.calls = (none, o :: rest) :: outer) (hphase : s.phase o = .alive) :
      Stepped p s .reset { s.setPhase o .dying with calls := (some o, rest) :: outer }
  | skip {o : O} {rest : List O} {outer : List (Option O × List O)}
      (hcalls : s.calls = (none, o :: rest) :: outer) (hphase : s.phase o ≠ .alive) :
      Stepped p s .reset { s with calls := (none, rest) :: outer }
  | join {o : O} {rest : List O} {outer : List (Option O × List O)}
      (hcalls : s.calls = (some o, rest) :: outer) (hrunning : s.running o = 0) :
      Stepped p s .join { s.setPhase o .gone with calls := (none, rest) :: outer }
  | exit {outer : List (Option O × List O)} (hcalls : s.calls = (none, []) :: outer) :
      Stepped p s .exit { s with exited := true }
  | access {a b : O} (hrunning : 0 < s.running a) (huses : p.uses a b = true) :
      Stepped p s (.access a b) { s with accesses := s.accesses ++ [⟨a, b, s.phase b⟩] }
  | leave {a : O} (hrunning : 0 < s.running a) :
      Stepped p s (.leave a) (s.setRunning a (s.running a - 1))

theorem stepped_of_step {p : Program O} {s s' : Lifetime O} {a : Action O}
    (hstep : step p s a = some s') : Stepped p s a s' := by
  cases a with
  | construct =>
    simp only [step] at hstep
    split at hstep
    case h_1 o rest hcalls hplanned =>
      obtain ⟨hphase, heq⟩ := Option.ite_none_right_eq_some.mp hstep
      cases heq
      exact .construct hcalls hplanned hphase
    case h_2 => cases hstep
  | spawn =>
    simp only [step] at hstep
    split at hstep
    case h_1 o rest hcalls hplanned =>
      obtain ⟨hphase, heq⟩ := Option.ite_none_right_eq_some.mp hstep
      cases heq
      exact .spawn hcalls hplanned hphase
    case h_2 => cases hstep
  | publish =>
    simp only [step] at hstep
    split at hstep
    case h_1 o rest hcalls hplanned =>
      obtain ⟨hphase, heq⟩ := Option.ite_none_right_eq_some.mp hstep
      cases heq
      exact .publish hcalls hplanned hphase
    case h_2 => cases hstep
  | fail =>
    simp only [step] at hstep
    split at hstep
    case h_1 o rest hcalls hplanned =>
      obtain ⟨⟨hphase, hrunning, -⟩, heq⟩ := Option.ite_none_right_eq_some.mp hstep
      cases heq
      exact .fail hcalls hplanned hphase hrunning
    case h_2 => cases hstep
  | signal =>
    simp only [step] at hstep
    split_ifs at hstep with hexited
    cases hstep
    exact .signal (Bool.not_eq_true _ ▸ hexited)
  | reset =>
    simp only [step] at hstep
    split at hstep
    case h_1 o rest outer hcalls =>
      split_ifs at hstep with hphase
      · cases hstep
        exact .reset hcalls hphase
      · cases hstep
        exact .skip hcalls hphase
    case h_2 => cases hstep
  | join =>
    simp only [step] at hstep
    split at hstep
    case h_1 o rest outer hcalls =>
      obtain ⟨hrunning, heq⟩ := Option.ite_none_right_eq_some.mp hstep
      cases heq
      exact .join hcalls hrunning
    case h_2 => cases hstep
  | exit =>
    simp only [step] at hstep
    split at hstep
    case h_1 outer hcalls =>
      split_ifs at hstep
      cases hstep
      exact .exit hcalls
    case h_2 => cases hstep
  | access a b =>
    obtain ⟨hand, heq⟩ := Option.ite_none_right_eq_some.mp hstep
    cases heq
    exact .access hand.1 hand.2
  | leave a =>
    obtain ⟨hrunning, heq⟩ := Option.ite_none_right_eq_some.mp hstep
    cases heq
    exact .leave hrunning

-- ════════════════════════════════════════════════════════════════════════
-- How far the program is
-- ════════════════════════════════════════════════════════════════════════

/-- How far a program is. -/
structure Course (O : Type*) where
  stored : List O := []
  building : Option O := none
  /-- The objects that the destruction is behind. -/
  handled : List O := []
  dying : Option O := none

/-- The phase of an object follows from how far the program is. -/
def Course.phase (c : Course O) (o : O) : Phase :=
  if o ∈ c.handled then (if o ∈ c.stored then .gone else .absent)
  else if c.dying = some o then .dying
  else if o ∈ c.stored then .alive
  else if c.building = some o then .building
  else .absent

/-- The program has come this far, with at most one destruction. -/
structure Follows (p : Program O) (s : Lifetime O) (c : Course O) : Prop where
  plan : p.plan = c.stored ++ s.planned
  phase : s.phase = c.phase
  running : ∀ o, 0 < s.running o → s.phase o ≠ .absent ∧ s.phase o ≠ .gone
  building : ∀ o, c.building = some o → s.planned.head? = some o ∧ o ∉ c.stored
  dying : ∀ o, c.dying = some o → o ∈ c.stored
  calls : s.calls = [] ∧ c.handled = [] ∧ c.dying = none ∨ c.building = none ∧
    ∃ rest, s.calls = [(c.dying, rest)] ∧ p.teardown = c.handled ++ c.dying.toList ++ rest
  exited : s.exited = true → s.calls = [(none, [])]

section Phases

variable {c : Course O} {o : O}

theorem Course.phase_eq_alive :
    c.phase o = .alive ↔ o ∈ c.stored ∧ o ∉ c.handled ∧ c.dying ≠ some o := by
  unfold Course.phase
  split_ifs <;> simp_all

theorem Course.phase_eq_building :
    c.phase o = .building ↔
      c.building = some o ∧ o ∉ c.stored ∧ o ∉ c.handled ∧ c.dying ≠ some o := by
  unfold Course.phase
  split_ifs <;> simp_all

theorem Course.phase_construct (hhandled : c.handled = []) (hdying : c.dying = none)
    (hbuilding : c.building = none) (ho : o ∉ c.stored) :
    Function.update c.phase o .building = { c with building := some o }.phase := by
  funext o'
  by_cases hne : o' = o
  · subst hne
    simp [Course.phase, hhandled, hdying, ho]
  · have hne' : o ≠ o' := fun heq => hne heq.symm
    simp [Course.phase, hne, hne', hhandled, hdying, hbuilding]

theorem Course.phase_publish (hhandled : c.handled = []) (hdying : c.dying = none)
    (hbuilding : c.building = some o) :
    Function.update c.phase o .alive =
      { c with stored := c.stored ++ [o], building := none }.phase := by
  funext o'
  by_cases hne : o' = o
  · subst hne
    simp [Course.phase, hhandled, hdying]
  · have hne' : o ≠ o' := fun heq => hne heq.symm
    simp [Course.phase, hne, hne', hhandled, hdying, hbuilding]

theorem Course.phase_fail (hhandled : c.handled = []) (hdying : c.dying = none)
    (hbuilding : c.building = some o) (ho : o ∉ c.stored) :
    Function.update c.phase o .absent = { c with building := none }.phase := by
  funext o'
  by_cases hne : o' = o
  · subst hne
    simp [Course.phase, hhandled, hdying, ho]
  · have hne' : o ≠ o' := fun heq => hne heq.symm
    simp [Course.phase, hne, hne', hhandled, hdying, hbuilding]

theorem Course.phase_reset (hdying : c.dying = none) (ho : o ∉ c.handled) :
    Function.update c.phase o .dying = { c with dying := some o }.phase := by
  funext o'
  by_cases hne : o' = o
  · subst hne
    simp [Course.phase, ho]
  · have hne' : o ≠ o' := fun heq => hne heq.symm
    simp [Course.phase, hne, hne', hdying]

/-- An object that has not been stored, or is gone, is passed over. -/
theorem Course.phase_skip (hdying : c.dying = none) (hbuilding : c.building = none)
    (hphase : c.phase o ≠ .alive) : c.phase = { c with handled := c.handled ++ [o] }.phase := by
  have ho : o ∈ c.stored → o ∈ c.handled := by
    intro hstored
    by_contra hhandled
    exact hphase (Course.phase_eq_alive.mpr ⟨hstored, hhandled, by simp [hdying]⟩)
  funext o'
  by_cases hne : o' = o
  · subst hne
    by_cases hstored : o' ∈ c.stored
    · simp [Course.phase, hstored, ho hstored]
    · simp [Course.phase, hstored, hdying, hbuilding]
  · simp [Course.phase, hne, hdying, hbuilding]

theorem Course.phase_join (hdying : c.dying = some o) (ho : o ∈ c.stored) :
    Function.update c.phase o .gone =
      { c with handled := c.handled ++ [o], dying := none }.phase := by
  funext o'
  by_cases hne : o' = o
  · subst hne
    simp [Course.phase, ho]
  · have hne' : o ≠ o' := fun heq => hne heq.symm
    simp [Course.phase, hne, hne', hdying]

end Phases

section Steps

variable {p : Program O} {c : Course O} {s s' : Lifetime O} {o : O}

/-- While a thread runs, the objects that it uses are there. -/
theorem Follows.alive_of_uses (h : s.Follows p c) (hp : p.Ordered) {a b : O}
    (hrunning : 0 < s.running a) (huses : p.uses a b = true) : s.phase b = .alive := by
  obtain ⟨habsent, hgone⟩ := h.running a hrunning
  rw [h.phase] at habsent hgone ⊢
  have ha : a ∉ c.handled := by
    intro hmem
    by_cases hstored : a ∈ c.stored
    · exact hgone (by simp [Course.phase, hmem, hstored])
    · exact habsent (by simp [Course.phase, hmem, hstored])
  have hb : b ∈ c.stored := by
    by_cases hstored : a ∈ c.stored
    · obtain ⟨front, back, heq⟩ := List.append_of_mem hstored
      have hplan : p.plan = front ++ a :: (back ++ s.planned) := by
        rw [h.plan, heq, List.append_assoc, List.cons_append]
      rw [heq]
      exact List.mem_append_left _ (hp.made a b front _ huses hplan)
    · have hbuilding : c.building = some a := by
        by_contra hne
        have hdying : c.dying ≠ some a := fun heq => hstored (h.dying a heq)
        exact habsent (by simp [Course.phase, ha, hstored, hne, hdying])
      obtain ⟨rest, hplanned⟩ := List.head?_eq_some_iff.mp (h.building a hbuilding).1
      exact hp.made a b c.stored rest huses (by rw [h.plan, hplanned])
  refine Course.phase_eq_alive.mpr ⟨hb, fun hhandled => ?_, fun hdying => ?_⟩
  all_goals
    rcases h.calls with ⟨-, hnone, hnot⟩ | ⟨-, rest, -, hteardown⟩
  · rw [hnone] at hhandled
    cases hhandled
  · obtain ⟨front, back, heq⟩ := List.append_of_mem hhandled
    have hmem := hp.destroyed a b front (back ++ c.dying.toList ++ rest) huses
      (by rw [hteardown, heq]; simp)
    exact ha (heq ▸ List.mem_append_left _ hmem)
  · rw [hnot] at hdying
    cases hdying
  · exact ha (hp.destroyed a b c.handled rest huses (by rw [hteardown, hdying]; simp))

/-- Running threads belong to objects that are there. -/
theorem Follows.running_setPhase (h : s.Follows p c) {phase : Phase}
    (hphase : phase ≠ .absent ∧ phase ≠ .gone ∨ s.running o = 0) (o' : O)
    (hrunning : 0 < s.running o') :
    Function.update s.phase o phase o' ≠ .absent ∧ Function.update s.phase o phase o' ≠ .gone := by
  by_cases hne : o' = o
  · subst hne
    rw [Function.update_self]
    exact hphase.resolve_right hrunning.ne'
  · rw [Function.update_of_ne hne]
    exact h.running o' hrunning

/-- Nothing has been destroyed before the first destruction. -/
theorem Follows.startup (h : s.Follows p c) (hcalls : s.calls = []) :
    c.handled = [] ∧ c.dying = none := by
  rcases h.calls with ⟨-, hhandled, hdying⟩ | ⟨-, rest, heq, -⟩
  · exact ⟨hhandled, hdying⟩
  · rw [hcalls] at heq
    cases heq

/-- During the destruction. -/
theorem Follows.destruction (h : s.Follows p c) {call : Option O × List O}
    {outer : List (Option O × List O)} (hcalls : s.calls = call :: outer) :
    c.building = none ∧ c.dying = call.1 ∧ outer = [] ∧
      p.teardown = c.handled ++ call.1.toList ++ call.2 := by
  rcases h.calls with ⟨heq, -, -⟩ | ⟨hbuilding, rest, heq, hteardown⟩
  · rw [hcalls] at heq
    cases heq
  · rw [hcalls] at heq
    obtain ⟨rfl, rfl⟩ := List.cons.inj heq
    exact ⟨hbuilding, rfl, rfl, hteardown⟩

/-- The program exits at the end of a destruction. -/
theorem Follows.not_exited (h : s.Follows p c) (hcalls : s.calls ≠ [(none, [])]) :
    s.exited ≠ true := fun hexited => hcalls (h.exited hexited)

theorem Follows.construct (h : s.Follows p c) {rest : List O} (hcalls : s.calls = [])
    (hplanned : s.planned = o :: rest) (hphase : s.phase o = .absent) :
    (s.setPhase o .building).Follows p { c with building := some o } := by
  obtain ⟨hhandled, hdying⟩ := h.startup hcalls
  rw [h.phase] at hphase
  have ho : o ∉ c.stored := by
    intro hstored
    have halive : c.phase o = .alive :=
      Course.phase_eq_alive.mpr ⟨hstored, by simp [hhandled], by simp [hdying]⟩
    rw [hphase] at halive
    cases halive
  have hbuilding : c.building = none := by
    cases hc : c.building with
    | none => rfl
    | some o' =>
      obtain ⟨hhead, -⟩ := h.building o' hc
      rw [hplanned] at hhead
      obtain rfl : o = o' := Option.some.inj hhead
      have heq : c.phase o = .building :=
        Course.phase_eq_building.mpr ⟨hc, ho, by simp [hhandled], by simp [hdying]⟩
      rw [hphase] at heq
      cases heq
  refine ⟨h.plan, ?_, h.running_setPhase (.inl ⟨Phase.noConfusion, Phase.noConfusion⟩),
    fun o' ho' => ?_, h.dying, .inl ⟨hcalls, hhandled, hdying⟩, h.exited⟩
  · show Function.update s.phase o .building = _
    rw [h.phase]
    exact Course.phase_construct hhandled hdying hbuilding ho
  · obtain rfl : o = o' := Option.some.inj ho'
    exact ⟨congrArg List.head? hplanned, ho⟩

/-- Threads come and go while their object is there. -/
theorem Follows.setRunning (h : s.Follows p c) {n : ℕ}
    (hphase : 0 < n → s.phase o ≠ .absent ∧ s.phase o ≠ .gone) :
    (s.setRunning o n).Follows p c := by
  refine ⟨h.plan, h.phase, fun o' hrunning => ?_, h.building, h.dying, h.calls, h.exited⟩
  by_cases hne : o' = o
  · subst hne
    have hself : (s.setRunning o' n).running o' = n := Function.update_self _ _ _
    exact hphase (hself ▸ hrunning)
  · have hsame : (s.setRunning o n).running o' = s.running o' := Function.update_of_ne hne _ _
    exact h.running o' (hsame ▸ hrunning)

theorem Follows.publish (h : s.Follows p c) {rest : List O} (hcalls : s.calls = [])
    (hplanned : s.planned = o :: rest) (hphase : s.phase o = .building) :
    Follows p { s.setPhase o .alive with planned := rest }
      { c with stored := c.stored ++ [o], building := none } := by
  obtain ⟨hhandled, hdying⟩ := h.startup hcalls
  rw [h.phase] at hphase
  obtain ⟨hbuilding, -, -⟩ := Course.phase_eq_building.mp hphase
  refine ⟨?_, ?_, h.running_setPhase (.inl ⟨Phase.noConfusion, Phase.noConfusion⟩),
    fun _ ho' => (nomatch ho'), fun o' ho' => List.mem_append_left _ (h.dying o' ho'),
    .inl ⟨hcalls, hhandled, hdying⟩, h.exited⟩
  · show p.plan = c.stored ++ [o] ++ rest
    rw [h.plan, hplanned, List.append_assoc, List.singleton_append]
  · show Function.update s.phase o .alive = _
    rw [h.phase]
    exact Course.phase_publish hhandled hdying hbuilding

/-- The constructor has thrown. -/
theorem Follows.discard (h : s.Follows p c) (hcalls : s.calls = []) (hphase : s.phase o = .building)
    (hrunning : s.running o = 0) :
    (s.setPhase o .absent).Follows p { c with building := none } := by
  obtain ⟨hhandled, hdying⟩ := h.startup hcalls
  rw [h.phase] at hphase
  obtain ⟨hbuilding, ho, -⟩ := Course.phase_eq_building.mp hphase
  refine ⟨h.plan, ?_, h.running_setPhase (.inr hrunning), fun _ ho' => (nomatch ho'), h.dying,
    .inl ⟨hcalls, hhandled, hdying⟩, h.exited⟩
  show Function.update s.phase o .absent = _
  rw [h.phase]
  exact Course.phase_fail hhandled hdying hbuilding ho

/-- The destruction begins. -/
theorem Follows.shutdown (h : s.Follows p c) (hcalls : s.calls = [])
    (hbuilding : c.building = none) : Follows p { s with calls := [(none, p.teardown)] } c := by
  obtain ⟨hhandled, hdying⟩ := h.startup hcalls
  refine ⟨h.plan, h.phase, h.running, h.building, h.dying, .inr ⟨hbuilding, p.teardown, ?_, ?_⟩,
    fun hexited => absurd hexited (h.not_exited (by simp [hcalls]))⟩
  · rw [hdying]
  · rw [hhandled, hdying]
    rfl

theorem Follows.reset (h : s.Follows p c) {rest : List O} {outer : List (Option O × List O)}
    (hcalls : s.calls = (none, o :: rest) :: outer) (hphase : s.phase o = .alive) :
    Follows p { s.setPhase o .dying with calls := (some o, rest) :: outer }
      { c with dying := some o } := by
  obtain ⟨hbuilding, hdying, rfl, hteardown⟩ := h.destruction hcalls
  rw [h.phase] at hphase
  obtain ⟨hstored, hhandled, -⟩ := Course.phase_eq_alive.mp hphase
  refine ⟨h.plan, ?_, h.running_setPhase (.inl ⟨Phase.noConfusion, Phase.noConfusion⟩),
    h.building, fun o' ho' => ?_, .inr ⟨hbuilding, rest, rfl, ?_⟩,
    fun hexited => absurd hexited (h.not_exited (by simp [hcalls]))⟩
  · show Function.update s.phase o .dying = _
    rw [h.phase]
    exact Course.phase_reset hdying hhandled
  · obtain rfl : o = o' := Option.some.inj ho'
    exact hstored
  · rw [hteardown]
    simp

/-- The object has not been stored, or has been destroyed. -/
theorem Follows.skip (h : s.Follows p c) {rest : List O} {outer : List (Option O × List O)}
    (hcalls : s.calls = (none, o :: rest) :: outer) (hphase : s.phase o ≠ .alive) :
    Follows p { s with calls := (none, rest) :: outer } { c with handled := c.handled ++ [o] } := by
  obtain ⟨hbuilding, hdying, rfl, hteardown⟩ := h.destruction hcalls
  rw [h.phase] at hphase
  refine ⟨h.plan, ?_, h.running, h.building, h.dying, .inr ⟨hbuilding, rest, ?_, ?_⟩,
    fun hexited => absurd hexited (h.not_exited (by simp [hcalls]))⟩
  · exact h.phase.trans (Course.phase_skip hdying hbuilding hphase)
  · rw [hdying]
  · rw [hteardown, hdying]
    simp

theorem Follows.join (h : s.Follows p c) {rest : List O} {outer : List (Option O × List O)}
    (hcalls : s.calls = (some o, rest) :: outer) (hrunning : s.running o = 0) :
    Follows p { s.setPhase o .gone with calls := (none, rest) :: outer }
      { c with handled := c.handled ++ [o], dying := none } := by
  obtain ⟨hbuilding, hdying, rfl, hteardown⟩ := h.destruction hcalls
  refine ⟨h.plan, ?_, h.running_setPhase (.inr hrunning), h.building, fun _ ho' => (nomatch ho'),
    .inr ⟨hbuilding, rest, rfl, ?_⟩,
    fun hexited => absurd hexited (h.not_exited (by simp [hcalls]))⟩
  · show Function.update s.phase o .gone = _
    rw [h.phase]
    exact Course.phase_join hdying (h.dying o hdying)
  · rw [hteardown]
    simp

end Steps

-- ════════════════════════════════════════════════════════════════════════
-- Runs
-- ════════════════════════════════════════════════════════════════════════

/-- A signal comes when no object is made or destroyed. -/
def signalAtRest (s : Lifetime O) : Action O → Bool
  | .signal => s.calls.isEmpty && s.planned.head?.all fun o => s.phase o ≠ .building
  | _ => true

/-- No thread accesses an object that is not there, and none is left at the end. -/
structure Safe (s : Lifetime O) : Prop where
  proper : ∀ x ∈ s.accesses, x.phase = .alive
  joined : s.exited = true → ∀ o, s.running o = 0

section Runs

variable {p : Program O} {s s' : Lifetime O}

theorem Follows.step {c : Course O} (h : s.Follows p c) {a : Action O}
    (hrest : signalAtRest s a = true) (hstep : step p s a = some s') :
    ∃ c' : Course O, s'.Follows p c' := by
  cases stepped_of_step hstep with
  | construct hcalls hplanned hphase => exact ⟨_, h.construct hcalls hplanned hphase⟩
  | @spawn o rest hcalls hplanned hphase =>
    have hthere : s.phase o ≠ .absent ∧ s.phase o ≠ .gone := by
      rw [hphase]
      exact ⟨Phase.noConfusion, Phase.noConfusion⟩
    exact ⟨c, h.setRunning fun _ => hthere⟩
  | publish hcalls hplanned hphase => exact ⟨_, h.publish hcalls hplanned hphase⟩
  | fail hcalls hplanned hphase hrunning =>
    exact ⟨_, (h.discard hcalls hphase hrunning).shutdown hcalls rfl⟩
  | signal hexited =>
    rw [signalAtRest, Bool.and_eq_true, List.isEmpty_iff] at hrest
    obtain ⟨hcalls, hnext⟩ := hrest
    obtain ⟨hhandled, hdying⟩ := h.startup hcalls
    refine ⟨c, ?_⟩
    rw [hcalls]
    refine h.shutdown hcalls (Option.eq_none_iff_forall_ne_some.mpr fun o ho => ?_)
    obtain ⟨hhead, hstored⟩ := h.building o ho
    rw [hhead, Option.all_some, decide_eq_true_eq] at hnext
    refine hnext ?_
    rw [h.phase]
    exact Course.phase_eq_building.mpr ⟨ho, hstored, by simp [hhandled], by simp [hdying]⟩
  | reset hcalls hphase => exact ⟨_, h.reset hcalls hphase⟩
  | skip hcalls hphase => exact ⟨_, h.skip hcalls hphase⟩
  | join hcalls hrunning => exact ⟨_, h.join hcalls hrunning⟩
  | exit hcalls =>
    obtain ⟨-, -, rfl, -⟩ := h.destruction hcalls
    exact ⟨c, h.plan, h.phase, h.running, h.building, h.dying, h.calls, fun _ => hcalls⟩
  | access hrunning huses =>
    exact ⟨c, h.plan, h.phase, h.running, h.building, h.dying, h.calls, h.exited⟩
  | leave hrunning => exact ⟨c, h.setRunning fun _ => h.running _ hrunning⟩

/-- Every thread has been joined when the program exits. -/
theorem Follows.joined {c : Course O} (h : s.Follows p c) (hp : p.Ordered)
    (hexited : s.exited = true) (o : O) : s.running o = 0 := by
  obtain ⟨hbuilding, hdying, -, hteardown⟩ := h.destruction (h.exited hexited)
  by_contra hne
  obtain ⟨habsent, hgone⟩ := h.running o (Nat.pos_of_ne_zero hne)
  rw [h.phase] at habsent hgone
  by_cases hstored : o ∈ c.stored
  · have hhandled : o ∈ c.handled := by
      have hmem := hp.covered o (h.plan ▸ List.mem_append_left _ hstored)
      simpa [hteardown] using hmem
    exact hgone (by simp [Course.phase, hhandled, hstored])
  · exact habsent (by simp [Course.phase, hstored, hbuilding, hdying])

/-- No thread accesses an object that is not there, and none is left at the end, when no
signal comes during a constructor or a destruction. -/
theorem safe_of_ordered (hp : p.Ordered) {as : List (Action O)}
    (hrest : Transition.StepsSatisfy (step p) (fun t a => signalAtRest t a)
      { planned := p.plan } as)
    (hrun : Transition.run (step p) { planned := p.plan } as = some s) : s.Safe := by
  have hinv : (∃ c : Course O, s.Follows p c) ∧ ∀ x ∈ s.accesses, x.phase = .alive := by
    refine Transition.run_induction_where
      (I := fun _ t => (∃ c : Course O, t.Follows p c) ∧ ∀ x ∈ t.accesses, x.phase = .alive)
      ⟨⟨{}, ?_⟩, ?_⟩ ?_ hrest hrun
    · refine ⟨rfl, ?_, fun _ h => absurd h (lt_irrefl 0), fun _ h => (nomatch h),
        fun _ h => (nomatch h), .inl ⟨rfl, rfl, rfl⟩, fun h => (nomatch h)⟩
      funext o
      simp [Course.phase]
    · intro x hx
      cases hx
    · rintro - t a t' ⟨⟨c, hfollows⟩, hproper⟩ hcond hstep
      refine ⟨hfollows.step hcond hstep, ?_⟩
      cases stepped_of_step hstep with
      | access hrunning huses =>
        intro x hx
        rcases List.mem_append.mp hx with hold | hnew
        · exact hproper x hold
        · rw [List.mem_singleton.mp hnew]
          exact hfollows.alive_of_uses hp hrunning huses
      | _ => exact hproper
  obtain ⟨⟨c, hfollows⟩, hproper⟩ := hinv
  exact ⟨hproper, hfollows.joined hp⟩

end Runs

end Lifetime
