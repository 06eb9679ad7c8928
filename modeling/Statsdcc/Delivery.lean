import Mathlib
import Statsdcc.FlushOrder

/-!
# The mutex of the backends

One flusher thread at a time is inside `BackendContainer::flush`, the one that has
the mutex, and a thread that is past it has delivered its ledger once.

## Main results

- `Aggregator.serialised_of_run` — this holds after every run
- `Aggregator.Serialised.perm_delivered` — when all threads are done, the ledgers
  delivered are the ledgers cut
-/

open Bytes

namespace Statsdcc

variable {R : Type} {W T : ℕ}

/-- A step of `Worker::process` starts a thread, which waits, or leaves the
threads alone. -/
theorem Worker.flushers_of_act [CDouble R] {env : Env R} {w w' : Worker R} {a : WorkerAction}
    (hact : w.act env a = some w') :
    w'.flushers = w.flushers ∨ ∃ f, f.status = .waiting ∧ w'.flushers = w.flushers ++ [f] := by
  cases acted_of_act hact with
  | handOff hpc => exact .inr ⟨_, rfl, rfl⟩
  | pop | testSet | testClear | process | join | publish | replace | clear | buffer =>
    exact .inl rfl

namespace Aggregator

/-- The threads, the mutex and the ledgers delivered agree. -/
structure Serialised (s : Aggregator R W T) : Prop where
  holder : ∀ i j, s.flusherStatus i j = some .flushing ↔ s.lmut = some (i, j)
  delivered : ∀ i j, (i, j) ∈ s.delivered ↔
    ∃ status, s.flusherStatus i j = some status ∧ status ≠ .waiting
  nodup : s.delivered.Nodup

theorem Initial.serialised {s : Aggregator R W T} (hs : s.Initial) : s.Serialised := by
  have hnone : ∀ i j, s.flusherStatus i j = none := by
    intro i j
    obtain ⟨dropped, rate, bad, hw⟩ := hs.workers i
    rw [flusherStatus, hw]
    rfl
  refine ⟨fun i j => ?_, fun i j => ?_, ?_⟩
  · rw [hnone, hs.lmut]
    exact iff_of_false (Option.some_ne_none _).symm (Option.some_ne_none _).symm
  · rw [hnone, hs.delivered]
    refine iff_of_false List.not_mem_nil ?_
    rintro ⟨status, hstatus, -⟩
    cases hstatus
  · rw [hs.delivered]
    exact List.nodup_nil

/-- The threads of all workers when one worker changes. -/
theorem flusherStatus_update {s s' : Aggregator R W T} {k : Fin W} {w : Worker R}
    (h : s'.workers = Function.update s.workers k w) (i : Fin W) (j : ℕ) :
    s'.flusherStatus i j =
      if i = k then (w.flushers[j]?).map Flusher.status else s.flusherStatus i j := by
  rw [flusherStatus, h]
  by_cases hik : i = k
  · subst hik
    rw [Function.update_self, if_pos rfl]
  · rw [Function.update_of_ne hik, if_neg hik]
    rfl

/-- The threads when one of them goes on. -/
theorem flusherStatus_setFlusher {s s' : Aggregator R W T} {k : Fin W} {m : ℕ}
    {status : FlusherStatus}
    (h : s'.workers = Function.update s.workers k ((s.workers k).setFlusher m status)) (i : Fin W)
    (j : ℕ) :
    s'.flusherStatus i j =
      if (i, j) = (k, m) then (s.flusherStatus i j).map fun _ => status
      else s.flusherStatus i j := by
  rw [flusherStatus_update h, Worker.setFlusher, List.getElem?_modify]
  by_cases hik : i = k
  · subst hik
    by_cases hjm : m = j
    · subst hjm
      rw [if_pos rfl, if_pos rfl, flusherStatus]
      cases (s.workers i).flushers[m]? with
      | none => rfl
      | some f => exact congrArg (Option.map Flusher.status) (congrArg some (if_pos rfl))
    · have hne : (i, j) ≠ (i, m) := fun heq => hjm (Prod.mk.inj heq).2.symm
      rw [if_pos rfl, if_neg hne, flusherStatus]
      cases (s.workers i).flushers[j]? with
      | none => rfl
      | some f => exact congrArg (Option.map Flusher.status) (congrArg some (if_neg hjm))
  · have hne : (i, j) ≠ (k, m) := fun heq => hik (Prod.mk.inj heq).1
    rw [if_neg hik, if_neg hne]

/-- When the threads of a worker are done, each of its ledgers has been delivered
once. -/
theorem Serialised.perm_delivered {s : Aggregator R W T} (h : s.Serialised) {i : Fin W}
    (hdone : ∀ f ∈ (s.workers i).flushers, f.status = .finished) :
    (s.deliveredOf i).Perm (List.range (s.workers i).flushers.length) := by
  have hmem : ∀ j, j ∈ s.deliveredOf i ↔ (i, j) ∈ s.delivered := by
    intro j
    simp only [deliveredOf, List.mem_map, List.mem_filter, decide_eq_true_eq]
    constructor
    · rintro ⟨d, ⟨hd, rfl⟩, rfl⟩
      exact hd
    · intro hd
      exact ⟨(i, j), ⟨hd, rfl⟩, rfl⟩
  have hnodup : (s.deliveredOf i).Nodup := by
    refine List.Nodup.map_on ?_ (h.nodup.filter _)
    intro d hd e he heq
    have hdi := of_decide_eq_true (List.mem_filter.mp hd).2
    have hei := of_decide_eq_true (List.mem_filter.mp he).2
    exact Prod.ext (hdi.trans hei.symm) heq
  refine (List.perm_ext_iff_of_nodup hnodup List.nodup_range).mpr fun j => ?_
  rw [hmem, h.delivered, List.mem_range, flusherStatus]
  constructor
  · rintro ⟨status, hsome, -⟩
    obtain ⟨f, hf, -⟩ := Option.map_eq_some_iff.mp hsome
    exact (List.getElem?_eq_some_iff.mp hf).1
  · intro hlt
    have hget := List.getElem?_eq_getElem hlt
    refine ⟨.finished, ?_, FlusherStatus.noConfusion⟩
    rw [hget, Option.map_some, hdone _ (List.getElem_mem hlt)]

section Steps

variable {s s' : Aggregator R W T}

theorem Serialised.frame (h : s.Serialised) (hstatus : ∀ i j,
    s'.flusherStatus i j = s.flusherStatus i j) (hlmut : s'.lmut = s.lmut)
    (hdelivered : s'.delivered = s.delivered) : s'.Serialised where
  holder i j := by rw [hstatus, hlmut]; exact h.holder i j
  delivered i j := by rw [hstatus, hdelivered]; exact h.delivered i j
  nodup := by rw [hdelivered]; exact h.nodup

/-- A new thread waits. -/
theorem Serialised.spawn (h : s.Serialised) {k : Fin W} {w : Worker R} {f : Flusher R}
    (hworkers : s'.workers = Function.update s.workers k w)
    (hflushers : w.flushers = (s.workers k).flushers ++ [f]) (hwaiting : f.status = .waiting)
    (hlmut : s'.lmut = s.lmut) (hdelivered : s'.delivered = s.delivered) : s'.Serialised := by
  have hstatus : ∀ i j status, status ≠ .waiting →
      (s'.flusherStatus i j = some status ↔ s.flusherStatus i j = some status) := by
    intro i j status hne
    rw [flusherStatus_update hworkers]
    by_cases hik : i = k
    · subst hik
      rw [if_pos rfl, hflushers, List.getElem?_append, flusherStatus]
      split
      case isTrue => rfl
      case isFalse hge =>
        rw [List.getElem?_eq_none (Nat.le_of_not_lt hge)]
        refine iff_of_false ?_ (Option.some_ne_none _).symm
        intro hsome
        obtain ⟨g, hg, hgs⟩ := Option.map_eq_some_iff.mp hsome
        rw [List.mem_singleton.mp (List.mem_of_getElem? hg), hwaiting] at hgs
        exact hne hgs.symm
    · rw [if_neg hik]
  constructor
  case holder =>
    intro i j
    rw [hstatus i j _ FlusherStatus.noConfusion, hlmut]
    exact h.holder i j
  case delivered =>
    intro i j
    rw [hdelivered, h.delivered i j]
    refine exists_congr fun status => ?_
    by_cases hne : status = .waiting
    · exact iff_of_false (fun hs => hs.2 hne) fun hs => hs.2 hne
    · rw [hstatus i j status hne]
  case nodup => rw [hdelivered]; exact h.nodup

/-- A thread locks the mutex. -/
theorem Serialised.acquire (h : s.Serialised) {k : Fin W} {m : ℕ} (hfree : s.lmut = none)
    (hwaiting : s.flusherStatus k m = some .waiting)
    (hworkers : s'.workers = Function.update s.workers k ((s.workers k).setFlusher m .flushing))
    (hlmut : s'.lmut = some (k, m)) (hdelivered : s'.delivered = s.delivered ++ [(k, m)]) :
    s'.Serialised := by
  have hstatus := flusherStatus_setFlusher hworkers
  constructor
  case holder =>
    intro i j
    rw [hstatus, hlmut, Option.some.injEq, eq_comm (a := (k, m))]
    by_cases heq : (i, j) = (k, m)
    · rw [if_pos heq]
      obtain ⟨rfl, rfl⟩ := Prod.mk.inj heq
      rw [hwaiting]
      exact iff_of_true rfl rfl
    · rw [if_neg heq, h.holder i j, hfree]
      exact iff_of_false (Option.some_ne_none _).symm heq
  case delivered =>
    intro i j
    rw [hstatus, hdelivered, List.mem_append, List.mem_singleton, h.delivered i j]
    by_cases heq : (i, j) = (k, m)
    · rw [if_pos heq]
      obtain ⟨rfl, rfl⟩ := Prod.mk.inj heq
      rw [hwaiting]
      exact iff_of_true (.inr rfl) ⟨_, rfl, FlusherStatus.noConfusion⟩
    · rw [if_neg heq]
      exact or_iff_left heq
  case nodup =>
    rw [hdelivered, List.nodup_append]
    refine ⟨h.nodup, List.nodup_singleton _, ?_⟩
    intro d hd e he heq
    rw [heq, List.mem_singleton.mp he, h.delivered] at hd
    obtain ⟨status, hsome, hne⟩ := hd
    rw [hwaiting, Option.some.injEq] at hsome
    exact hne hsome.symm

/-- A thread unlocks it. -/
theorem Serialised.release (h : s.Serialised) {k : Fin W} {m : ℕ} (hheld : s.lmut = some (k, m))
    (hworkers : s'.workers = Function.update s.workers k ((s.workers k).setFlusher m .finished))
    (hlmut : s'.lmut = none) (hdelivered : s'.delivered = s.delivered) : s'.Serialised := by
  have hstatus := flusherStatus_setFlusher hworkers
  have hflushing : s.flusherStatus k m = some .flushing := (h.holder k m).mpr hheld
  constructor
  case holder =>
    intro i j
    rw [hstatus, hlmut]
    by_cases heq : (i, j) = (k, m)
    · rw [if_pos heq]
      obtain ⟨rfl, rfl⟩ := Prod.mk.inj heq
      rw [hflushing]
      exact iff_of_false (by decide) (Option.some_ne_none _).symm
    · rw [if_neg heq, h.holder i j, hheld, Option.some.injEq]
      exact iff_of_false (Ne.symm heq) (Option.some_ne_none _).symm
  case delivered =>
    intro i j
    rw [hstatus, hdelivered, h.delivered i j]
    by_cases heq : (i, j) = (k, m)
    · rw [if_pos heq]
      obtain ⟨rfl, rfl⟩ := Prod.mk.inj heq
      rw [hflushing]
      exact iff_of_true ⟨_, rfl, FlusherStatus.noConfusion⟩ ⟨_, rfl, FlusherStatus.noConfusion⟩
    · rw [if_neg heq]
  case nodup => rw [hdelivered]; exact h.nodup

variable [CDouble R] [NeZero W]

theorem Serialised.step {env : Env R} {consumer : AggregatorConsumer W} {a : Action W T}
    (h : s.Serialised) (hstep : step env consumer s a = some s') : s'.Serialised := by
  have hsame : ∀ {k : Fin W} {w : Worker R}, s'.workers = Function.update s.workers k w →
      w.flushers = (s.workers k).flushers → ∀ i j, s'.flusherStatus i j = s.flusherStatus i j := by
    intro k w hworkers hflushers i j
    rw [flusherStatus_update hworkers, hflushers]
    by_cases hik : i = k
    · rw [if_pos hik, hik]
      rfl
    · rw [if_neg hik]
  cases stepped_of_step hstep with
  | consume | pushFailed => exact h.frame (fun _ _ => rfl) rfl rfl
  | push | countDrop | interrupt => exact h.frame (hsame rfl rfl) rfl rfl
  | worker k hact =>
    rcases Worker.flushers_of_act hact with heq | ⟨f, hwaiting, heq⟩
    · exact h.frame (hsame rfl heq) rfl rfl
    · exact h.spawn rfl heq hwaiting rfl rfl
  | acquire hfree hstatus => exact h.acquire hfree hstatus rfl rfl rfl
  | release hheld => exact h.release hheld rfl rfl rfl

/-- The mutex is held by the one thread that flushes, after every run. -/
theorem serialised_of_run {env : Env R} {consumer : AggregatorConsumer W}
    {s₀ : Aggregator R W T} (hs₀ : s₀.Initial) {as : List (Action W T)}
    (hrun : Transition.run (Aggregator.step env consumer) s₀ as = some s) : s.Serialised :=
  Transition.run_induction (I := fun _ s => s.Serialised) hs₀.serialised
    (fun _ _ _ _ ih hstep => ih.step hstep) hrun

end Steps

end Aggregator

end Statsdcc
