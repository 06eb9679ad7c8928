import Mathlib
import Statsdcc.Config.Load
import Statsdcc.Delivery
import Statsdcc.Lib.Refinement

/-!
# The container of the backends

`BackendContainer` holds the backends that the configuration asks for, and `flush`
calls `flush_stats` of one after the other while it has the mutex. The model of the
aggregator lets a ledger reach all backends in the step in which its thread locks the
mutex. Here each call begins and ends in a step of its own, between which all other
threads go on.

`calls` is a history variable, and so is `delivered` of the aggregator, to which the
results compare it.

## Main definitions

- `Backends.kinds` — the backends of a configuration
- `Flushing.step` — one step of one thread

## Main results

- `Flushing.base_of_run` — without the calls a run is a run of the aggregator
- `Flushing.in_turn_of_run` — the calls come in whole turns, in the order of the mutex
-/

open Bytes

namespace Statsdcc

inductive BackendKind
  | carbon
  | repeater
  | stdout
  deriving DecidableEq

/-- The constructor of `BackendContainer`. -/
def Backends.kinds (backends : Backends) : List BackendKind :=
  (if backends.carbon.entries.length > 0 then [.carbon] else []) ++
  (if backends.repeaters.length > 0 then [.repeater] else []) ++
  if backends.stdout then [.stdout] else []

theorem Backends.nodup_kinds (backends : Backends) : backends.kinds.Nodup := by
  rw [kinds]
  split_ifs <;> decide

/-- The arguments of `flush`: a ledger and the id of its worker. -/
abbrev FlushArgs (R : Type) := Ledger R × ℕ

/-- A call of `flush_stats` begins or returns. -/
inductive FlushCall (R : Type)
  | enter (backend : BackendKind) (args : FlushArgs R)
  | leave (backend : BackendKind) (args : FlushArgs R)

namespace FlushCall

variable {R : Type}

/-- The calls of one loop of `flush` over some backends. -/
def turn (kinds : List BackendKind) (args : FlushArgs R) : List (FlushCall R) :=
  kinds.flatMap fun b => [enter b args, leave b args]

/-- What a backend is given. -/
def given (b : BackendKind) (calls : List (FlushCall R)) : List (FlushArgs R) :=
  calls.filterMap fun
    | enter b' args => if b' = b then some args else none
    | leave _ _ => none

theorem given_append (b : BackendKind) (calls calls' : List (FlushCall R)) :
    given b (calls ++ calls') = given b calls ++ given b calls' := List.filterMap_append

theorem given_turn_of_not_mem {b : BackendKind} {kinds : List BackendKind} (hb : b ∉ kinds)
    (args : FlushArgs R) : given b (turn kinds args) = [] := by
  refine List.filterMap_eq_nil_iff.mpr fun c hc => ?_
  obtain ⟨b', hb', hc'⟩ := List.mem_flatMap.mp hc
  have hne : b' ≠ b := fun heq => hb (heq ▸ hb')
  rcases List.mem_pair.mp hc' with rfl | rfl
  · exact if_neg hne
  · rfl

/-- A turn gives the ledger to each backend once. -/
theorem given_turn {b : BackendKind} {kinds : List BackendKind} (hnodup : kinds.Nodup)
    (hb : b ∈ kinds) (args : FlushArgs R) : given b (turn kinds args) = [args] := by
  induction kinds with
  | nil => cases hb
  | cons b' kinds ih =>
    obtain ⟨hnot, hnodup'⟩ := List.nodup_cons.mp hnodup
    have hturn : turn (b' :: kinds) args = [enter b' args, leave b' args] ++ turn kinds args := rfl
    rw [hturn, given_append]
    by_cases heq : b' = b
    · subst heq
      rw [given_turn_of_not_mem hnot]
      show [enter b' args, leave b' args].filterMap _ ++ [] = [args]
      simp
    · have hmem : b ∈ kinds := (List.mem_cons.mp hb).resolve_left (Ne.symm heq)
      rw [ih hnodup' hmem]
      show [enter b' args, leave b' args].filterMap _ ++ [args] = [args]
      simp [heq]

/-- Turns give a backend what they are the turns of, in the same order. -/
theorem given_turns {b : BackendKind} {kinds : List BackendKind} (hnodup : kinds.Nodup)
    (hb : b ∈ kinds) (ledgers : List (FlushArgs R)) :
    given b (ledgers.flatMap (turn kinds)) = ledgers := by
  induction ledgers with
  | nil => rfl
  | cons args ledgers ih =>
    rw [List.flatMap_cons, given_append, given_turn hnodup hb, ih]
    rfl

end FlushCall

/-- Where a flusher thread stands in `flush`. -/
inductive FlushPc
  | lock
  /-- `backend_itr != backends.cend()`, with the index of `backend_itr`. -/
  | loop (itr : ℕ)
  /-- In `flush_stats`. -/
  | call (itr : ℕ)
  | done
  deriving DecidableEq

/-- The aggregator with the flusher threads in their loops. -/
structure Flushing (R : Type) (W T : ℕ) where
  base : Aggregator R W T
  pcs : Fin W × ℕ → FlushPc := fun _ => .lock
  calls : List (FlushCall R) := []

inductive FlushAction (W T : ℕ)
  /-- A step of the aggregator; `acquire` and `release` are the ends of the guard. -/
  | base (a : Action W T)
  /-- The `j`-th flusher thread of a worker calls `flush_stats`. -/
  | enter (i : Fin W) (j : ℕ)
  | leave (i : Fin W) (j : ℕ)
  deriving DecidableEq

/-- The step of the aggregator in a step, if it is one. -/
def FlushAction.base? {W T : ℕ} : FlushAction W T → Option (Action W T)
  | base a => some a
  | enter _ _ | leave _ _ => none

namespace Aggregator

variable {R : Type} {W T : ℕ}

/-- The arguments of a flusher thread. -/
def args (s : Aggregator R W T) (d : Fin W × ℕ) : Option (FlushArgs R) :=
  ((s.workers d.1).flushers[d.2]?).map fun f => (f.ledger, f.flusherId)

/-- The ledgers that have reached the backends, in the order of the mutex. -/
def ledgers (s : Aggregator R W T) : List (FlushArgs R) := s.delivered.filterMap s.args

end Aggregator

namespace Flushing

open FlushCall

variable {R : Type} {W T : ℕ}

def setPc (s : Flushing R W T) (d : Fin W × ℕ) (pc : FlushPc) : Flushing R W T :=
  { s with pcs := Function.update s.pcs d pc }

theorem setPc_self (s : Flushing R W T) (d : Fin W × ℕ) (pc : FlushPc) :
    (s.setPc d pc).pcs d = pc := Function.update_self _ _ _

theorem setPc_of_ne (s : Flushing R W T) {d d' : Fin W × ℕ} (hd : d' ≠ d) (pc : FlushPc) :
    (s.setPc d pc).pcs d' = s.pcs d' := Function.update_of_ne hd _ _

variable [CDouble R] [NeZero W]

/-- One step of one thread, `none` when it is not enabled. -/
def step (env : Env R) (consumer : AggregatorConsumer W) (kinds : List BackendKind)
    (s : Flushing R W T) : FlushAction W T → Option (Flushing R W T)
  | .base a =>
    (Aggregator.step env consumer s.base a).bind fun base =>
      let s' := { s with base }
      match a with
      | .acquire i j => if s.pcs (i, j) = .lock then some (s'.setPc (i, j) (.loop 0)) else none
      | .release i j =>
        if s.pcs (i, j) = .loop kinds.length then some (s'.setPc (i, j) .done) else none
      | _ => some s'
  | .enter i j =>
    match s.pcs (i, j) with
    | .loop itr => do
      let backend ← kinds[itr]?
      let args ← s.base.args (i, j)
      return { s.setPc (i, j) (.call itr) with calls := s.calls ++ [.enter backend args] }
    | _ => none
  | .leave i j =>
    match s.pcs (i, j) with
    | .call itr => do
      let backend ← kinds[itr]?
      let args ← s.base.args (i, j)
      return { s.setPc (i, j) (.loop (itr + 1)) with calls := s.calls ++ [.leave backend args] }
    | _ => none

/-- What each step can do. -/
inductive Stepped (env : Env R) (consumer : AggregatorConsumer W) (kinds : List BackendKind)
    (s : Flushing R W T) : FlushAction W T → Flushing R W T → Prop
  | acquire {i : Fin W} {j : ℕ} {base : Aggregator R W T}
      (hbase : Aggregator.step env consumer s.base (.acquire i j) = some base)
      (hfree : s.base.lmut = none) (hlmut : base.lmut = some (i, j))
      (hdelivered : base.delivered = s.base.delivered ++ [(i, j)])
      (hpc : s.pcs (i, j) = .lock) :
      Stepped env consumer kinds s (.base (.acquire i j))
        ({ s with base }.setPc (i, j) (.loop 0))
  | release {i : Fin W} {j : ℕ} {base : Aggregator R W T}
      (hbase : Aggregator.step env consumer s.base (.release i j) = some base)
      (hheld : s.base.lmut = some (i, j)) (hlmut : base.lmut = none)
      (hdelivered : base.delivered = s.base.delivered)
      (hpc : s.pcs (i, j) = .loop kinds.length) :
      Stepped env consumer kinds s (.base (.release i j)) ({ s with base }.setPc (i, j) .done)
  | other {a : Action W T} {base : Aggregator R W T}
      (hbase : Aggregator.step env consumer s.base a = some base)
      (hlmut : base.lmut = s.base.lmut) (hdelivered : base.delivered = s.base.delivered) :
      Stepped env consumer kinds s (.base a) { s with base }
  | enter {i : Fin W} {j itr : ℕ} {backend : BackendKind} {args : FlushArgs R}
      (hpc : s.pcs (i, j) = .loop itr) (hbackend : kinds[itr]? = some backend)
      (hargs : s.base.args (i, j) = some args) :
      Stepped env consumer kinds s (.enter i j)
        { s.setPc (i, j) (.call itr) with calls := s.calls ++ [.enter backend args] }
  | leave {i : Fin W} {j itr : ℕ} {backend : BackendKind} {args : FlushArgs R}
      (hpc : s.pcs (i, j) = .call itr) (hbackend : kinds[itr]? = some backend)
      (hargs : s.base.args (i, j) = some args) :
      Stepped env consumer kinds s (.leave i j)
        { s.setPc (i, j) (.loop (itr + 1)) with calls := s.calls ++ [.leave backend args] }

theorem stepped_of_step {env : Env R} {consumer : AggregatorConsumer W}
    {kinds : List BackendKind} {s s' : Flushing R W T} {a : FlushAction W T}
    (hstep : step env consumer kinds s a = some s') : Stepped env consumer kinds s a s' := by
  cases a with
  | base a =>
    obtain ⟨base, hbase, hstep⟩ := Option.bind_eq_some_iff.mp hstep
    cases a with
    | acquire i j =>
      obtain ⟨hpc, heq⟩ := Option.ite_none_right_eq_some.mp hstep
      cases heq
      cases Aggregator.stepped_of_step hbase with
      | acquire hfree hstatus => exact .acquire hbase hfree rfl rfl hpc
    | release i j =>
      obtain ⟨hpc, heq⟩ := Option.ite_none_right_eq_some.mp hstep
      cases heq
      cases Aggregator.stepped_of_step hbase with
      | release hheld => exact .release hbase hheld rfl rfl hpc
    | consume | push | countDrop | interrupt | worker =>
      cases hstep
      cases Aggregator.stepped_of_step hbase <;> exact .other hbase rfl rfl
  | enter i j =>
    simp only [step] at hstep
    split at hstep
    case h_1 itr hpc =>
      obtain ⟨backend, hbackend, hstep⟩ := Option.bind_eq_some_iff.mp hstep
      obtain ⟨args, hargs, hstep⟩ := Option.bind_eq_some_iff.mp hstep
      cases hstep
      exact .enter hpc hbackend hargs
    case h_2 => cases hstep
  | leave i j =>
    simp only [step] at hstep
    split at hstep
    case h_1 itr hpc =>
      obtain ⟨backend, hbackend, hstep⟩ := Option.bind_eq_some_iff.mp hstep
      obtain ⟨args, hargs, hstep⟩ := Option.bind_eq_some_iff.mp hstep
      cases hstep
      exact .leave hpc hbackend hargs
    case h_2 => cases hstep

-- ════════════════════════════════════════════════════════════════════════
-- The arguments of a thread stay
-- ════════════════════════════════════════════════════════════════════════

end Flushing

section Args

variable {R : Type} {W T : ℕ} {s s' : Aggregator R W T}

theorem Aggregator.args_update {k : Fin W} {w : Worker R}
    (hworkers : s'.workers = Function.update s.workers k w)
    (hflushers : ∀ (j : ℕ) (f : Flusher R), (s.workers k).flushers[j]? = some f →
      ∃ f' : Flusher R, w.flushers[j]? = some f' ∧ f'.ledger = f.ledger ∧
        f'.flusherId = f.flusherId)
    {d : Fin W × ℕ} {x : FlushArgs R} (hd : s.args d = some x) : s'.args d = some x := by
  obtain ⟨f, hf, rfl⟩ := Option.map_eq_some_iff.mp hd
  rw [Aggregator.args, hworkers]
  by_cases hdk : d.1 = k
  · rw [hdk] at hf
    obtain ⟨f', hf', hledger, hid⟩ := hflushers d.2 f hf
    rw [hdk, Function.update_self, hf', Option.map_some, hledger, hid]
  · rw [Function.update_of_ne hdk, hf, Option.map_some]

theorem Worker.getElem?_setFlusher (w : Worker R) (m : ℕ) (status : FlusherStatus) {j : ℕ}
    {f : Flusher R} (hf : w.flushers[j]? = some f) :
    ∃ f' : Flusher R, (w.setFlusher m status).flushers[j]? = some f' ∧ f'.ledger = f.ledger ∧
      f'.flusherId = f.flusherId := by
  refine ⟨if m = j then { f with status } else f, ?_, ?_, ?_⟩
  · rw [setFlusher, List.getElem?_modify, hf]
    rfl
  · split_ifs <;> rfl
  · split_ifs <;> rfl

theorem Aggregator.args_of_step [CDouble R] [NeZero W] {env : Env R}
    {consumer : AggregatorConsumer W} {a : Action W T}
    (hstep : Aggregator.step env consumer s a = some s') {d : Fin W × ℕ} {x : FlushArgs R}
    (hd : s.args d = some x) : s'.args d = some x := by
  cases stepped_of_step hstep with
  | consume | pushFailed => exact hd
  | @push t i line metric =>
    exact args_update (s.setWorker_workers i ((s.workers i).enqueue metric))
      (fun _ f hf => ⟨f, hf, rfl, rfl⟩) hd
  | @countDrop t i line metric =>
    exact args_update (s.setWorker_workers i ((s.workers i).drop metric))
      (fun _ f hf => ⟨f, hf, rfl, rfl⟩) hd
  | interrupt i =>
    exact args_update (s.setWorker_workers i (s.workers i).interrupt)
      (fun _ f hf => ⟨f, hf, rfl, rfl⟩) hd
  | worker k hact =>
    refine args_update (s.setWorker_workers k _) (fun j f hf => ?_) hd
    rcases Worker.flushers_of_act hact with heq | ⟨g, -, heq⟩
    · exact ⟨f, by rw [heq, hf], rfl, rfl⟩
    · refine ⟨f, ?_, rfl, rfl⟩
      rw [heq, List.getElem?_append_left (List.getElem?_eq_some_iff.mp hf).1, hf]
  | acquire | release =>
    exact args_update rfl (fun _ f hf => Worker.getElem?_setFlusher _ _ _ hf) hd

/-- A ledger that has been delivered has been handed off. -/
theorem Aggregator.Serialised.args_of_delivered (h : s.Serialised) {d : Fin W × ℕ}
    (hd : d ∈ s.delivered) : ∃ x, s.args d = some x := by
  obtain ⟨status, hstatus, -⟩ := (h.delivered d.1 d.2).mp hd
  obtain ⟨f, hf, -⟩ := Option.map_eq_some_iff.mp hstatus
  exact ⟨_, congrArg (Option.map _) hf⟩

theorem Aggregator.Serialised.ledgers_of_step [CDouble R] [NeZero W] {env : Env R}
    {consumer : AggregatorConsumer W} {a : Action W T} (h : s.Serialised)
    (hstep : Aggregator.step env consumer s a = some s') :
    s.delivered.filterMap s'.args = s.ledgers := by
  refine List.filterMap_congr fun d hd => ?_
  obtain ⟨x, hx⟩ := h.args_of_delivered hd
  rw [hx, args_of_step hstep hx]

end Args

namespace Flushing

open FlushCall

-- ════════════════════════════════════════════════════════════════════════
-- The calls come in turns
-- ════════════════════════════════════════════════════════════════════════

section Turns

variable {R : Type} {W T : ℕ} {kinds : List BackendKind} {s s' : Flushing R W T}

/-- The calls that a thread still has to make. -/
def left (kinds : List BackendKind) (args : FlushArgs R) : FlushPc → List (FlushCall R)
  | .loop itr => turn (kinds.drop itr) args
  | .call itr => (turn (kinds.drop itr) args).tail
  | .lock | .done => []

/-- The calls that the thread with the mutex still has to make. -/
def todo (kinds : List BackendKind) (s : Flushing R W T) : List (FlushCall R) :=
  match s.base.lmut with
  | none => []
  | some d => (s.base.args d).toList.flatMap fun args => left kinds args (s.pcs d)

theorem todo_eq {d : Fin W × ℕ} {args : FlushArgs R} (hheld : s.base.lmut = some d)
    (hargs : s.base.args d = some args) : s.todo kinds = left kinds args (s.pcs d) := by
  rw [todo, hheld]
  show (s.base.args d).toList.flatMap _ = _
  rw [hargs]
  exact List.append_nil _

theorem turn_drop {itr : ℕ} {backend : BackendKind} (hbackend : kinds[itr]? = some backend)
    (args : FlushArgs R) :
    turn (kinds.drop itr) args =
      enter backend args :: leave backend args :: turn (kinds.drop (itr + 1)) args := by
  obtain ⟨hlt, rfl⟩ := List.getElem?_eq_some_iff.mp hbackend
  rw [List.drop_eq_getElem_cons hlt]
  rfl

theorem left_suffix (args : FlushArgs R) (pc : FlushPc) :
    left kinds args pc <:+ turn kinds args := by
  have hloop : ∀ itr, turn (kinds.drop itr) args <:+ turn kinds args := by
    intro itr
    refine ⟨turn (kinds.take itr) args, ?_⟩
    rw [turn, turn, turn, ← List.flatMap_append, List.take_append_drop]
  cases pc with
  | loop itr => exact hloop itr
  | call itr => exact (List.tail_suffix _).trans (hloop itr)
  | lock => exact List.nil_suffix
  | done => exact List.nil_suffix

/-- The loops, the mutex and the calls agree. -/
structure InTurn (kinds : List BackendKind) (s : Flushing R W T) : Prop where
  serialised : s.base.Serialised
  holder : ∀ d itr, s.pcs d = .loop itr ∨ s.pcs d = .call itr → s.base.lmut = some d
  last : ∀ d, s.base.lmut = some d → ∃ before, s.base.delivered = before ++ [d]
  calls : s.calls ++ s.todo kinds = s.base.ledgers.flatMap (turn kinds)

theorem inTurn_initial {s₀ : Aggregator R W T} (hs₀ : s₀.Initial) :
    InTurn kinds { base := s₀ } := by
  constructor
  case serialised => exact hs₀.serialised
  case holder =>
    intro d itr hpc
    rcases hpc with hpc | hpc <;> cases hpc
  case last =>
    intro d hheld
    rw [hs₀.lmut] at hheld
    cases hheld
  case calls =>
    rw [todo, Aggregator.ledgers, hs₀.lmut, hs₀.delivered]
    rfl

/-- The calls are whole turns, but for the last ledger. -/
theorem InTurn.dropLast_turns (h : s.InTurn kinds) :
    s.base.ledgers.dropLast.flatMap (turn kinds) <+: s.calls := by
  cases hheld : s.base.lmut with
  | none =>
    have hcalls := h.calls
    rw [todo, hheld, List.append_nil] at hcalls
    rw [hcalls]
    exact (List.dropLast_prefix _).flatMap _
  | some d =>
    obtain ⟨before, hlast⟩ := h.last d hheld
    obtain ⟨args, hargs⟩ := h.serialised.args_of_delivered (d := d)
      (by rw [hlast]; exact List.mem_append_right _ (List.mem_singleton_self _))
    have hledgers : s.base.ledgers = before.filterMap s.base.args ++ [args] := by
      rw [Aggregator.ledgers, hlast, List.filterMap_append, List.filterMap_cons_some hargs,
        List.filterMap_nil]
    obtain ⟨made, hmade⟩ : left kinds args (s.pcs d) <:+ turn kinds args := left_suffix args _
    have hcalls := h.calls
    rw [todo_eq hheld hargs, hledgers, List.flatMap_append, List.flatMap_singleton, ← hmade,
      ← List.append_assoc] at hcalls
    rw [hledgers, List.dropLast_concat]
    exact ⟨made, (List.append_cancel_right hcalls).symm⟩

/-- What a backend has been given, when the last ledger may not have reached it. -/
theorem InTurn.given_eq (h : s.InTurn kinds) (hnodup : kinds.Nodup) {b : BackendKind}
    (hb : b ∈ kinds) :
    given b s.calls = s.base.ledgers ∨ given b s.calls = s.base.ledgers.dropLast := by
  have hmost : given b s.calls <+: s.base.ledgers := by
    refine ⟨given b (s.todo kinds), ?_⟩
    rw [← given_append, h.calls, given_turns hnodup hb]
  have hleast : s.base.ledgers.dropLast <+: given b s.calls := by
    obtain ⟨more, hmore⟩ := h.dropLast_turns
    refine ⟨given b more, ?_⟩
    rw [← hmore, given_append, given_turns hnodup hb]
  by_cases hlength : (given b s.calls).length = s.base.ledgers.length
  · exact .inl (hmost.eq_of_length hlength)
  · have hshort : s.base.ledgers.dropLast.length = (given b s.calls).length := by
      have hle := hmost.length_le
      have hge := hleast.length_le
      rw [List.length_dropLast] at hge ⊢
      omega
    exact .inr (hleast.eq_of_length hshort).symm

/-- A thread goes on in its loop. -/
theorem InTurn.advance (h : s.InTurn kinds) {d : Fin W × ℕ} {pc : FlushPc} {call : FlushCall R}
    {args : FlushArgs R} (hheld : s.base.lmut = some d) (hargs : s.base.args d = some args)
    (hleft : left kinds args (s.pcs d) = call :: left kinds args pc) :
    InTurn kinds { s.setPc d pc with calls := s.calls ++ [call] } := by
  constructor
  case serialised => exact h.serialised
  case holder =>
    intro d' itr hpc
    by_cases hdd : d' = d
    · rw [hdd]
      exact hheld
    · have hpc' : (s.setPc d pc).pcs d' = .loop itr ∨ (s.setPc d pc).pcs d' = .call itr := hpc
      rw [setPc_of_ne s hdd] at hpc'
      exact h.holder d' itr hpc'
  case last => exact h.last
  case calls =>
    have htodo := h.calls
    rw [todo_eq hheld hargs, hleft] at htodo
    have hnext : todo kinds { s.setPc d pc with calls := s.calls ++ [call] } =
        left kinds args ((s.setPc d pc).pcs d) := todo_eq hheld hargs
    rw [hnext, setPc_self, List.append_assoc]
    exact htodo

variable [CDouble R] [NeZero W] {env : Env R} {consumer : AggregatorConsumer W}

/-- A thread locks the mutex and begins its turn. -/
theorem InTurn.acquire (h : s.InTurn kinds) {d : Fin W × ℕ} {base : Aggregator R W T}
    (hbase : Aggregator.step env consumer s.base (.acquire d.1 d.2) = some base)
    (hfree : s.base.lmut = none) (hlmut : base.lmut = some d)
    (hdelivered : base.delivered = s.base.delivered ++ [d]) :
    InTurn kinds ({ s with base }.setPc d (.loop 0)) := by
  have hserialised : base.Serialised := h.serialised.step hbase
  constructor
  case serialised => exact hserialised
  case holder =>
    intro d' itr hpc
    by_cases hd : d' = d
    · rw [hd]
      exact hlmut
    · have hother := h.holder d' itr (by rwa [setPc_of_ne _ hd] at hpc)
      rw [hfree] at hother
      cases hother
  case last =>
    intro d' hheld
    exact ⟨s.base.delivered, by rw [← Option.some.inj (hlmut.symm.trans hheld)]; exact hdelivered⟩
  case calls =>
    obtain ⟨args, hargs⟩ := hserialised.args_of_delivered (d := d)
      (by rw [hdelivered]; exact List.mem_append_right _ (List.mem_singleton_self _))
    have hledgers : base.ledgers = s.base.ledgers ++ [args] := by
      rw [Aggregator.ledgers, hdelivered, List.filterMap_append,
        h.serialised.ledgers_of_step hbase, List.filterMap_cons_some hargs, List.filterMap_nil]
    have hnext : todo kinds ({ s with base }.setPc d (.loop 0)) = turn kinds args := by
      refine (todo_eq hlmut hargs).trans ?_
      rw [setPc_self]
      rfl
    have hcalls := h.calls
    rw [todo, hfree] at hcalls
    rw [hnext]
    show s.calls ++ turn kinds args = base.ledgers.flatMap _
    rw [hledgers, List.flatMap_append, ← hcalls, List.append_nil, List.flatMap_singleton]

/-- A thread ends its turn and unlocks the mutex. -/
theorem InTurn.release (h : s.InTurn kinds) {d : Fin W × ℕ} {base : Aggregator R W T}
    (hbase : Aggregator.step env consumer s.base (.release d.1 d.2) = some base)
    (hheld : s.base.lmut = some d) (hlmut : base.lmut = none)
    (hdelivered : base.delivered = s.base.delivered) (hpc : s.pcs d = .loop kinds.length) :
    InTurn kinds ({ s with base }.setPc d .done) := by
  constructor
  case serialised => exact h.serialised.step hbase
  case holder =>
    intro d' itr hpc'
    by_cases hd : d' = d
    · rw [hd, setPc_self] at hpc'
      rcases hpc' with hpc' | hpc' <;> cases hpc'
    · have hother := h.holder d' itr (by rwa [setPc_of_ne _ hd] at hpc')
      rw [hheld] at hother
      exact absurd (Option.some.inj hother).symm hd
  case last =>
    intro d' hheld'
    cases hlmut.symm.trans hheld'
  case calls =>
    obtain ⟨before, hlast⟩ := h.last d hheld
    obtain ⟨args, hargs⟩ := h.serialised.args_of_delivered (d := d)
      (by rw [hlast]; exact List.mem_append_right _ (List.mem_singleton_self _))
    have hledgers : base.ledgers = s.base.ledgers := by
      rw [Aggregator.ledgers, hdelivered, h.serialised.ledgers_of_step hbase]
    have hnext : todo kinds ({ s with base }.setPc d .done) = [] := by
      show (match base.lmut with | none => [] | some _ => _) = []
      rw [hlmut]
    have hcalls := h.calls
    rw [todo_eq hheld hargs, hpc, left, List.drop_length] at hcalls
    rw [hnext]
    exact hcalls.trans (congrArg (List.flatMap (turn kinds)) hledgers.symm)

/-- Any other step of the aggregator. -/
theorem InTurn.other (h : s.InTurn kinds) {a : Action W T} {base : Aggregator R W T}
    (hbase : Aggregator.step env consumer s.base a = some base)
    (hlmut : base.lmut = s.base.lmut) (hdelivered : base.delivered = s.base.delivered) :
    InTurn kinds { s with base } := by
  constructor
  case serialised => exact h.serialised.step hbase
  case holder =>
    intro d itr hpc
    exact hlmut.trans (h.holder d itr hpc)
  case last =>
    intro d hheld
    obtain ⟨before, hlast⟩ := h.last d (hlmut.symm.trans hheld)
    exact ⟨before, hdelivered.trans hlast⟩
  case calls =>
    have hledgers : base.ledgers = s.base.ledgers := by
      rw [Aggregator.ledgers, hdelivered, h.serialised.ledgers_of_step hbase]
    have htodo : todo kinds { s with base } = s.todo kinds := by
      cases hheld : s.base.lmut with
      | none => rw [todo, todo, hlmut, hheld]
      | some d =>
        obtain ⟨before, hlast⟩ := h.last d hheld
        obtain ⟨args, hargs⟩ := h.serialised.args_of_delivered (d := d)
          (by rw [hlast]; exact List.mem_append_right _ (List.mem_singleton_self _))
        rw [todo_eq hheld hargs, todo_eq (hlmut.trans hheld) (Aggregator.args_of_step hbase hargs)]
    rw [htodo, hledgers]
    exact h.calls

theorem InTurn.step {a : FlushAction W T} (h : s.InTurn kinds)
    (hstep : Flushing.step env consumer kinds s a = some s') : s'.InTurn kinds := by
  cases stepped_of_step hstep with
  | acquire hbase hfree hlmut hdelivered hpc => exact h.acquire hbase hfree hlmut hdelivered
  | release hbase hheld hlmut hdelivered hpc => exact h.release hbase hheld hlmut hdelivered hpc
  | other hbase hlmut hdelivered => exact h.other hbase hlmut hdelivered
  | @enter i j itr backend args hpc hbackend hargs =>
    refine h.advance (h.holder _ itr (.inl hpc)) hargs ?_
    rw [hpc, left, left, turn_drop hbackend]
    rfl
  | @leave i j itr backend args hpc hbackend hargs =>
    refine h.advance (h.holder _ itr (.inr hpc)) hargs ?_
    rw [hpc, left, left, turn_drop hbackend]
    rfl

theorem inTurn_of_run {s₀ : Aggregator R W T} (hs₀ : s₀.Initial) {as : List (FlushAction W T)}
    (hrun : Transition.run (step env consumer kinds) { base := s₀ } as = some s) :
    s.InTurn kinds :=
  Transition.run_induction (I := fun _ s => s.InTurn kinds) (inTurn_initial hs₀)
    (fun _ _ _ _ ih hstep => ih.step hstep) hrun

/-- **The flush as one step**: without the calls of the backends a run is a run of the
aggregator. -/
theorem base_of_run {s₀ : Aggregator R W T} {as : List (FlushAction W T)}
    (hrun : Transition.run (step env consumer kinds) { base := s₀ } as = some s) :
    Transition.run (Aggregator.step env consumer) s₀ (as.filterMap FlushAction.base?) =
      some s.base := by
  refine Transition.run_induction (I := fun as s =>
    Transition.run (Aggregator.step env consumer) s₀ (as.filterMap FlushAction.base?) =
      some s.base) rfl (fun as t a t' ih hstep => ?_) hrun
  rw [List.filterMap_append, Transition.run_append, ih, Option.bind_some]
  cases stepped_of_step hstep with
  | acquire hbase | release hbase | other hbase =>
    show (Aggregator.step env consumer t.base _).bind _ = _
    rw [hbase]
    rfl
  | enter | leave => rfl

/-- **The backends take turns.** In every run the calls of the backends do not overlap:
they are those of whole loops of `flush`, one ledger after the other in the order in
which their threads got the mutex, and all of them while nobody has it. Each backend
so gets the ledgers in this one order, and is behind by the last one at most. -/
theorem in_turn_of_run (env : Env R) (consumer : AggregatorConsumer W) (backends : Backends)
    {s₀ : Aggregator R W T} (hs₀ : s₀.Initial) (as : List (FlushAction W T))
    (hrun : Transition.run (step env consumer backends.kinds) { base := s₀ } as = some s) :
    s.calls <+: s.base.ledgers.flatMap (turn backends.kinds) ∧
      s.base.ledgers.dropLast.flatMap (turn backends.kinds) <+: s.calls ∧
      (s.base.lmut = none → s.calls = s.base.ledgers.flatMap (turn backends.kinds)) ∧
      ∀ b ∈ backends.kinds,
        given b s.calls = s.base.ledgers ∨ given b s.calls = s.base.ledgers.dropLast := by
  have h : s.InTurn backends.kinds := inTurn_of_run hs₀ hrun
  refine ⟨⟨_, h.calls⟩, h.dropLast_turns, fun hfree => ?_, fun b hb => ?_⟩
  · have hcalls := h.calls
    rwa [todo, hfree, List.append_nil] at hcalls
  · exact h.given_eq backends.nodup_kinds hb

end Turns

/-- The second ledger of a worker is on its way through two backends, and then the
first. -/
def turnsRun {W T : ℕ} [NeZero W] [NeZero T] : List (FlushAction W T) :=
  (Aggregator.cutLedger ++ Aggregator.finishLine ++ Aggregator.cutLedger).map .base ++
    [.base (.acquire 0 1), .enter 0 1, .base (.interrupt 0), .leave 0 1, .enter 0 1, .leave 0 1,
     .base (.release 0 1), .base (.acquire 0 0), .enter 0 0]

/-- A configuration with two backends. -/
def twoBackends : Backends := { repeaters := [⟨ascii "localhost", 8125⟩], stdout := true }

theorem in_turn_of_run_turnsRun :
    ∃ s : Flushing Exact 1 1,
      Transition.run (step ⟨{}, lexicalCast⟩ (.new {} List.length) twoBackends.kinds)
          { base := .init } turnsRun = some s ∧
        (given .repeater s.calls).length = 2 ∧ (given .stdout s.calls).length = 1 ∧
        s.calls <+: s.base.ledgers.flatMap (turn twoBackends.kinds) ∧
        s.base.ledgers.dropLast.flatMap (turn twoBackends.kinds) <+: s.calls ∧
        (s.base.lmut = none → s.calls = s.base.ledgers.flatMap (turn twoBackends.kinds)) ∧
        ∀ b ∈ twoBackends.kinds,
          given b s.calls = s.base.ledgers ∨ given b s.calls = s.base.ledgers.dropLast :=
  ⟨_, rfl, rfl, rfl, in_turn_of_run ⟨{}, lexicalCast⟩ (.new {} List.length) twoBackends
    Aggregator.initial_init turnsRun rfl⟩

end Flushing

end Statsdcc
