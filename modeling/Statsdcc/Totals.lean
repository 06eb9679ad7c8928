import Mathlib
import Statsdcc.Accounting
import Statsdcc.Ledger.Tally

/-!
# Amounts across flushes

Tallies add up. What the ledgers of an aggregator hold under a name, those handed
to flusher threads and the current ones together, is what the lines behind them add
under it, wherever the flushes fall and however the workers are scheduled.

## Main definitions

- `amount` — what lines add under a name, `nameAmount` — under a name of a client
- `Worker.reportedAmount`, `Worker.currentAmount` — what the ledgers of a worker hold

## Main results

- `tally_replay` — a ledger holds the sum of its lines
- `Worker.Faithful.amounts` — so do the ledgers of a worker
- `Aggregator.amounts_conserved` — what has been consumed is reported, current,
  under way, or dropped
-/

open Bytes

namespace Statsdcc

namespace Tally

instance : Zero Tally := ⟨{}⟩
instance : Add Tally := ⟨add⟩

theorem merge_assoc {α : Type*} (f : α → α → α) [Std.Associative f] (x y z : Option α) :
    Option.merge f (Option.merge f x y) z = Option.merge f x (Option.merge f y z) :=
  (Option.associative_merge f).assoc x y z

theorem merge_comm {α : Type*} (f : α → α → α) [Std.Commutative f] (x y : Option α) :
    Option.merge f x y = Option.merge f y x :=
  (Option.commutative_merge f).comm x y

protected theorem add_comm (s t : Tally) : s + t = t + s :=
  Tally.ext (merge_comm _ _ _) (merge_comm _ _ _) (merge_comm _ _ _) (merge_comm _ _ _)
    (merge_comm _ _ _)

/-- Tallies under addition, which does not see an order. -/
instance : AddCommMonoid Tally where
  add_assoc s t u :=
    Tally.ext (merge_assoc _ _ _ _) (merge_assoc _ _ _ _) (merge_assoc _ _ _ _)
      (merge_assoc _ _ _ _) (merge_assoc _ _ _ _)
  zero_add t := (Tally.add_comm 0 t).trans (add_empty t)
  add_zero := add_empty
  add_comm := Tally.add_comm
  nsmul := nsmulRec

/-- What a backend is told: the copy of a ledger has no frequencies. -/
def reported : Tally →+ Tally where
  toFun t := { t with frequency := none }
  map_zero' := rfl
  map_add' _ _ := rfl

end Tally

/-- What lines add under the name `k` to the ledgers of which they are part. -/
def amount (env : Env Exact) (k : Bytes) (lines : Multiset Bytes) : Tally :=
  (lines.map fun line => Tally.reported (lineTally env line k)).sum

section Lines

variable {env : Env Exact} {k : Bytes}

@[simp] theorem amount_zero : amount env k 0 = 0 := rfl

theorem amount_add (lines lines' : Multiset Bytes) :
    amount env k (lines + lines') = amount env k lines + amount env k lines' := by
  rw [amount, Multiset.map_add, Multiset.sum_add, amount, amount]

theorem amount_sum {ι : Type*} (s : Finset ι) (lines : ι → Multiset Bytes) :
    amount env k (∑ i ∈ s, lines i) = ∑ i ∈ s, amount env k (lines i) := by
  classical
  induction s using Finset.induction_on with
  | empty => simp
  | insert i s hi ih => rw [Finset.sum_insert hi, Finset.sum_insert hi, amount_add, ih]

/-- **A ledger holds the sum of its lines** under every name. -/
theorem tally_replay (env : Env Exact) (lines : List Bytes) (k : Bytes) :
    (Ledger.replay env lines).tally k = (lines.map fun line => lineTally env line k).sum := by
  induction lines using List.reverseRecOn with
  | nil => rfl
  | append_singleton lines line ih =>
    rw [Ledger.replay_concat, tally_buffer, ih, List.map_append, List.sum_append,
      List.map_singleton, List.sum_singleton]
    rfl

theorem reported_tally_replay (env : Env Exact) (lines : List Bytes) (k : Bytes) :
    Tally.reported ((Ledger.replay env lines).tally k) = amount env k lines := by
  rw [tally_replay, map_list_sum, List.map_map, amount, Multiset.map_coe, Multiset.sum_coe]
  rfl

/-- `process` and the copy constructor keep the amounts. -/
theorem tally_flushed (env : Env Exact) (lines : List Bytes) (elapsed : ℤ) (k : Bytes) :
    ((Ledger.replay env lines).process env.config elapsed).copy.tally k =
      amount env k lines := by
  have hfilled := Ledger.timersFilled_replay env lines
  rw [← reported_tally_replay]
  refine Tally.ext rfl rfl rfl ?_ rfl
  show (readTimerCounters _ _).lookup k = _
  rw [Ledger.lookup_readTimerCounters fun key => (hfilled.counters key).mpr]
  rfl

end Lines

-- ════════════════════════════════════════════════════════════════════════
-- Names
-- ════════════════════════════════════════════════════════════════════════

/-- What a line adds under a name that is not a counter of the program. -/
def nameTally (cast : Bytes → Option Exact) (metric k : Bytes) : Tally :=
  match parseLine cast metric with
  | none => 0
  | some (buffers, type, x) =>
    if k = buffers.nameBuffer then Tally.reported (Tally.ofLine buffers x type) else 0

def nameAmount (cast : Bytes → Option Exact) (k : Bytes) (lines : Multiset Bytes) : Tally :=
  (lines.map fun line => nameTally cast line k).sum

section Names

variable {cast : Bytes → Option Exact} {k : Bytes}

@[simp] theorem nameAmount_zero : nameAmount cast k 0 = 0 := rfl

theorem nameAmount_add (lines lines' : Multiset Bytes) :
    nameAmount cast k (lines + lines') = nameAmount cast k lines + nameAmount cast k lines' := by
  rw [nameAmount, Multiset.map_add, Multiset.sum_add, nameAmount, nameAmount]

theorem nameAmount_eq_zero {lines : Multiset Bytes}
    (h : ∀ line ∈ lines, nameTally cast line k = 0) : nameAmount cast k lines = 0 := by
  refine Multiset.sum_eq_zero fun t ht => ?_
  obtain ⟨line, hline, rfl⟩ := Multiset.mem_map.mp ht
  exact h line hline

theorem nameAmount_sum {ι : Type*} (s : Finset ι) (lines : ι → Multiset Bytes) :
    nameAmount cast k (∑ i ∈ s, lines i) = ∑ i ∈ s, nameAmount cast k (lines i) := by
  classical
  induction s using Finset.induction_on with
  | empty => simp
  | insert i s hi ih => rw [Finset.sum_insert hi, Finset.sum_insert hi, nameAmount_add, ih]

/-- Ledgers with different names for their own counters hold the same under another. -/
theorem amount_eq_nameAmount {config : AggregatorConfig} (hk : k ≠ config.badLinesSeen)
    (lines : Multiset Bytes) : amount ⟨config, cast⟩ k lines = nameAmount cast k lines := by
  refine congrArg Multiset.sum (Multiset.map_congr rfl fun line _ => ?_)
  rw [lineTally, nameTally]
  cases parseLine cast line with
  | none => exact congrArg Tally.reported (if_neg hk)
  | some parsed => exact apply_ite Tally.reported _ _ _

/-- A line adds nothing under a name that is not its own. -/
theorem nameTally_eq_zero {line : Bytes} (hnul : nul ∉ line) (h : lineName line ≠ k) :
    nameTally cast line k = 0 := by
  rw [nameTally]
  cases hparse : parseLine cast line with
  | none => rfl
  | some parsed =>
    refine if_neg ?_
    rw [nameBuffer_of_parse hnul hparse]
    exact h.symm

/-- A line without a colon has no name. -/
theorem nameTally_of_not_colon {line : Bytes} (hnul : nul ∉ line) (h : colon ∉ line) :
    nameTally cast line k = 0 := by
  rw [nameTally]
  cases hparse : parseLine cast line with
  | none => rfl
  | some parsed =>
    obtain ⟨name, value, rest, hsplit, -, -⟩ := parseLine_eq_some.mp hparse
    have hline := (splitLine_eq_some.mp hsplit).1
    rw [cStr_eq_self hnul] at hline
    exact absurd (hline ▸ List.mem_append_right _ List.mem_cons_self) h

end Names

-- ════════════════════════════════════════════════════════════════════════
-- The ledgers of a worker
-- ════════════════════════════════════════════════════════════════════════

/-- What the ledgers handed to flusher threads hold under a name. -/
def Worker.reportedAmount (w : Worker Exact) (k : Bytes) : Tally :=
  (w.flushers.map fun f => f.ledger.tally k).sum

/-- What the current ledger holds under a name, unless a flusher thread has its copy. -/
def Worker.currentAmount (w : Worker Exact) (k : Bytes) : Tally :=
  if w.pc.handedOff then 0 else Tally.reported (w.currentLedger.tally k)

/-- Strings that have come to a worker and are not in a ledger. -/
def Worker.outside {R : Type} (w : Worker R) : Multiset Bytes :=
  ↑w.dropped + ↑w.workQueue + ↑w.pc.inHand

section

variable {env : Env Exact} {w : Worker Exact} {k : Bytes}

theorem Worker.Faithful.reportedAmount_eq (h : w.Faithful env) :
    w.reportedAmount k = amount env k ↑(w.flushedLines.map Prod.fst) := by
  have hsum : ∀ fs : List (Flusher Exact), (∀ f ∈ fs, ∃ elapsed, f.ledger =
      ((Ledger.replay env (f.lines.map Prod.fst)).process env.config elapsed).copy) →
      (fs.map fun f => f.ledger.tally k).sum =
        amount env k ↑((fs.map Flusher.lines).flatten.map Prod.fst) := by
    intro fs hfs
    induction fs with
    | nil => rfl
    | cons f fs ih =>
      obtain ⟨elapsed, hf⟩ := hfs f List.mem_cons_self
      rw [List.map_cons, List.sum_cons, ih fun g hg => hfs g (List.mem_cons_of_mem _ hg), hf,
        tally_flushed, List.map_cons, List.flatten_cons, List.map_append, ← Multiset.coe_add,
        amount_add]
  exact hsum w.flushers h.flushed

theorem Worker.Faithful.currentAmount_eq (h : w.Faithful env) :
    w.currentAmount k = amount env k ↑(w.unflushedLines.map Prod.fst) := by
  rw [currentAmount, unflushedLines]
  split
  · rfl
  · cases hpc : w.pc.processed with
    | false => rw [h.buffered hpc, reported_tally_replay]
    | true =>
      obtain ⟨elapsed, hledger⟩ := h.processed hpc
      rw [hledger, ← tally_flushed env _ elapsed]
      rfl

/-- **The ledgers of a worker hold the sum of the lines** that it has put into them. -/
theorem Worker.Faithful.amounts (h : w.Faithful env) :
    amount env k w.arrived = amount env k w.outside + w.currentAmount k + w.reportedAmount k := by
  rw [← h.held_eq_arrived, held, amount_add, amount_add, h.currentAmount_eq, h.reportedAmount_eq,
    outside]

end

-- ════════════════════════════════════════════════════════════════════════
-- Whole runs
-- ════════════════════════════════════════════════════════════════════════

namespace Aggregator

variable {W T : ℕ} [NeZero W]

/-- The strings that calls of `consume` submit. -/
def strings (consumer : AggregatorConsumer W) (lines : Multiset Bytes) : Multiset Bytes :=
  lines.map fun line => (consumer.consume line).2

/-- The submitted strings, by the worker that they go to. -/
theorem sum_submittedTo {R : Type} (consumer : AggregatorConsumer W) (s : Aggregator R W T) :
    ∑ i, (s.submittedTo consumer i : Multiset Bytes) = ↑(s.submitted.map Prod.snd) := by
  have hsum : ∀ ps : List (Bytes × Bytes),
      ∑ i, (((ps.filter fun p => (consumer.consume p.1).1 = i).map Prod.snd : List Bytes) :
        Multiset Bytes) = ↑(ps.map Prod.snd) := by
    intro ps
    induction ps with
    | nil => exact Finset.sum_eq_zero fun _ _ => rfl
    | cons p ps ih =>
      have hcons : ∀ i, ((((p :: ps).filter fun p => (consumer.consume p.1).1 = i).map Prod.snd :
          List Bytes) : Multiset Bytes) =
          (if (consumer.consume p.1).1 = i then {p.2} else 0) +
            ↑((ps.filter fun p => (consumer.consume p.1).1 = i).map Prod.snd) := by
        intro i
        by_cases hi : (consumer.consume p.1).1 = i <;> simp [hi]
      rw [Finset.sum_congr rfl fun i _ => hcons i, Finset.sum_add_distrib, ih,
        Finset.sum_ite_eq, if_pos (Finset.mem_univ _), List.map_cons, ← Multiset.cons_coe,
        Multiset.singleton_add]
  exact hsum s.submitted

theorem Balanced.strings_submitted {R : Type} {consumer : AggregatorConsumer W}
    {as : List (Action W T)} {s : Aggregator R W T} (h : Balanced consumer as s) :
    Aggregator.strings consumer ↑(s.submitted.map Prod.fst) = ↑(s.submitted.map Prod.snd) := by
  rw [Aggregator.strings, Multiset.map_coe, List.map_map]
  exact congrArg _ (List.map_congr_left fun p hp => (h.strings p hp).symm)

/-- Balanced accounts and faithful ledgers make balanced amounts. -/
theorem Balanced.amounts {env : Env Exact} {consumer : AggregatorConsumer W}
    {as : List (Action W T)} {s : Aggregator Exact W T} (h : Balanced consumer as s)
    (hfaithful : ∀ i, (s.workers i).Faithful env) (k : Bytes) :
    amount env k (Aggregator.strings consumer ↑(consumedLines as)) =
      amount env k (Aggregator.strings consumer s.pending) +
        ∑ i, (amount env k (s.workers i).outside + (s.workers i).currentAmount k +
          (s.workers i).reportedAmount k) := by
  have harrived : ∀ i, amount env k ↑(s.submittedTo consumer i) =
      amount env k (s.workers i).outside + (s.workers i).currentAmount k +
        (s.workers i).reportedAmount k := by
    intro i
    rw [h.arrived i, (hfaithful i).amounts]
  rw [h.calls, Aggregator.strings, Multiset.map_add, amount_add, ← Aggregator.strings,
    ← Aggregator.strings, h.strings_submitted, ← sum_submittedTo consumer s, amount_sum]
  exact congrArg _ (Finset.sum_congr rfl fun i _ => harrived i)

/-- **Amounts are conserved**: under every name, and after every run, the strings
that were consumed add up to those in a call, those dropped, queued or in hand, what
the current ledgers hold, and what all ledgers hold that backends were given. -/
theorem amounts_conserved (env : Env Exact) (consumer : AggregatorConsumer W)
    {s₀ s : Aggregator Exact W T} (hs₀ : s₀.Initial) (as : List (Action W T))
    (hrun : Transition.run (Aggregator.step env consumer) s₀ as = some s) (k : Bytes) :
    amount env k (strings consumer ↑(consumedLines as)) =
      amount env k (strings consumer s.pending) +
        ∑ i, (amount env k (s.workers i).outside + (s.workers i).currentAmount k +
          (s.workers i).reportedAmount k) :=
  (hs₀.balanced_of_run hrun).amounts (hs₀.faithful_of_run hrun) k

theorem amounts_conserved_flushRun :
    ∃ s : Aggregator Exact 1 1,
      Transition.run (step ⟨{}, lexicalCast⟩ (.new {} List.length)) init flushRun = some s ∧
      amount ⟨{}, lexicalCast⟩ (ascii "a")
          (strings (W := 1) (.new {} List.length)
            ↑(consumedLines (flushRun : List (Action 1 1)))) =
        amount ⟨{}, lexicalCast⟩ (ascii "a") (strings (W := 1) (.new {} List.length) s.pending) +
          ∑ i, (amount ⟨{}, lexicalCast⟩ (ascii "a") (s.workers i).outside +
            (s.workers i).currentAmount (ascii "a") + (s.workers i).reportedAmount (ascii "a")) :=
  ⟨_, rfl, amounts_conserved ⟨{}, lexicalCast⟩ (.new {} List.length) initial_init flushRun rfl _⟩

end Aggregator

end Statsdcc
