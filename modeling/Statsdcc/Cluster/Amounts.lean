import Mathlib
import Statsdcc.Cluster
import Statsdcc.Totals

/-!
# What clients send is what backends are told

A name has one owner among the workers of all aggregators. What the clients of the
proxy have sent under it is, after every run, still on its way, lost or filtered, or
it is in the ledgers of the owner: the proxy and the aggregators behind it hold what
one ledger would hold.

## Main definitions

- `ClusterEnv.owner` — the aggregator that owns a name
- `Cluster.atProxy`, `Cluster.onTheWay`, `Cluster.atAggregator` — where a line can be
  before it is in a ledger

## Main results

- `Cluster.Consistent.ledgers_eq_zero` — no other worker holds anything under the name
- `Cluster.conserved_end_to_end` — the amounts under a name
- `Cluster.one_ledger_of_rest` — when nothing is on its way, lost or filtered, they are
  those of one ledger
-/

open Bytes

namespace Statsdcc

variable {D S T : ℕ} {W U : Fin D → ℕ}

/-- The aggregator that the proxy sends the lines of a name to. -/
def ClusterEnv.owner [NeZero D] (env : ClusterEnv D W) (k : Bytes) : Fin D :=
  Fin.ofNat D (env.proxy.hash k)

namespace Cluster

/-- The lines that have not left the proxy, and those that it dropped. -/
def atProxy (s : Cluster D S T W U) : Multiset Bytes :=
  ∑ k, ↑(s.clients k) + ↑s.overflowed + ↑s.proxy.workQueue + s.proxy.inHand + ↑s.proxy.blacklisted

/-- The lines in the network, and those lost there. -/
def onTheWay (s : Cluster D S T W U) : Multiset Bytes := (s.flight + s.lost).map Prod.snd

/-- The lines that have arrived at an aggregator and are not in a ledger. -/
def atAggregator (s : Cluster D S T W U) (d : Fin D) : Multiset Bytes :=
  ∑ u, ↑(s.arrivals d u) + (s.aggregators d).pending + ∑ i, ((s.aggregators d).workers i).outside

variable [NeZero D] [∀ d, NeZero (W d)] {env : ClusterEnv D W} {s : Cluster D S T W U}

-- ════════════════════════════════════════════════════════════════════════
-- The owner of a name
-- ════════════════════════════════════════════════════════════════════════

/-- A line arrives at the owner of its name. -/
theorem Consistent.owner_of_arrived (h : s.Consistent env) {d : Fin D} {line : Bytes}
    (hline : line ∈ s.arrived d) :
    nul ∉ line ∧ colon ∈ line ∧ env.owner (lineName line) = d := by
  have hsent := h.arrived d line hline
  obtain ⟨dropped, bad, as, hrun⟩ := h.proxy
  have hacc := Proxy.accounts_of_run env.proxy dropped bad hrun
  obtain ⟨-, hcolon, hidx, -⟩ := hacc.sent _ hsent
  refine ⟨(h.lines line (h.mem_received_of_sent hsent)).1, hcolon, ?_⟩
  rw [env.destinations] at hidx
  exact Fin.ext hidx.symm

/-- The strings submitted for lines with colons are the lines. -/
theorem strings_eq_self {V : ℕ} [NeZero V] (consumer : AggregatorConsumer V)
    {lines : Multiset Bytes} (h : ∀ line ∈ lines, nul ∉ line ∧ colon ∈ line) :
    Aggregator.strings consumer lines = lines := by
  refine (Multiset.map_congr rfl fun line hline => ?_).trans (Multiset.map_id lines)
  rw [consumer.consume_of_colon (h line hline).2]
  exact cStr_eq_self (h line hline).1

/-- A worker that does not own a name holds nothing under it. -/
theorem Consistent.ledgers_eq_zero (h : s.Consistent env) {k : Bytes} {d : Fin D}
    (hk : k ≠ (env.config d).badLinesSeen) {i : Fin (W d)}
    (hne : env.owner k = d → (env.consumer d).workerOf k ≠ i) :
    ((s.aggregators d).workers i).currentAmount k = 0 ∧
      ((s.aggregators d).workers i).reportedAmount k = 0 := by
  obtain ⟨t₀, as, ht₀, hrun, harrived⟩ := h.aggregators d
  have hbalanced := ht₀.balanced_of_run hrun
  have hfaithful := ht₀.faithful_of_run hrun i
  have hpopped : ∀ metric ∈ ((s.aggregators d).workers i).popped,
      nameTally env.lexicalCast metric k = 0 := by
    intro metric hmem
    obtain ⟨line, hline, hconsume⟩ := hbalanced.exists_consumed hmem
    have hmem : line ∈ s.arrived d := by
      rw [← Multiset.mem_coe, harrived]
      exact Multiset.mem_add.mpr (.inr hline)
    obtain ⟨hnul, hcolon, howner⟩ := h.owner_of_arrived hmem
    rw [(env.consumer d).consume_of_colon hcolon, cStr_eq_self hnul] at hconsume
    obtain ⟨hworker, rfl⟩ := Prod.mk.inj hconsume
    refine nameTally_eq_zero hnul ?_
    rintro rfl
    exact hne howner hworker
  have hzero : ∀ lines : List Stamped, lines.map Prod.fst ⊆ ((s.aggregators d).workers i).popped →
      amount (env.aggregator d) k ↑(lines.map Prod.fst) = 0 := by
    intro lines hlines
    rw [ClusterEnv.aggregator, amount_eq_nameAmount hk]
    exact nameAmount_eq_zero fun line hline => hpopped line (hlines hline)
  have horder := hfaithful.order
  rw [List.map_append, List.append_assoc] at horder
  rw [hfaithful.currentAmount_eq, hfaithful.reportedAmount_eq]
  constructor
  · apply hzero
    rw [horder]
    exact fun line hline => List.mem_append_right _ (List.mem_append_left _ hline)
  · apply hzero
    rw [horder]
    exact List.subset_append_left _ _

-- ════════════════════════════════════════════════════════════════════════
-- The amounts under a name
-- ════════════════════════════════════════════════════════════════════════

/-- What the proxy received is there, filtered or sent. -/
theorem Consistent.received_amount (h : s.Consistent env) (k : Bytes) :
    nameAmount env.lexicalCast k ↑s.received =
      nameAmount env.lexicalCast k s.atProxy +
        nameAmount env.lexicalCast k ↑(s.proxy.sent.map Prod.snd) := by
  obtain ⟨dropped, bad, as, hrun⟩ := h.proxy
  have hacc := Proxy.accounts_of_run env.proxy dropped bad hrun
  have haccepted : ∀ line ∈ s.proxy.accepted, nul ∉ line := by
    intro line hline
    refine (h.lines line ?_).1
    rw [← Multiset.mem_coe, h.clients]
    exact Multiset.mem_add.mpr (.inr hline)
  have hqueue : s.proxy.accepted = s.proxy.popped ++ s.proxy.workQueue := by
    rw [← hacc.queue]
    exact (List.map_id' s.proxy.accepted).symm.trans
      (List.map_congr_left fun line hline => (cStr_eq_self (haccepted line hline)).symm)
  have hundirected : s.proxy.undirected = [] := by
    by_contra hne
    exact NeZero.ne D (env.destinations.symm.trans (hacc.undirected hne))
  have hbad : nameAmount env.lexicalCast k ↑s.proxy.bad = 0 := by
    refine nameAmount_eq_zero fun line hline => ?_
    refine nameTally_of_not_colon ?_ (hacc.bad line hline).2
    refine hacc.nul_notMem ?_
    rw [← Multiset.mem_coe, hacc.once]
    exact Multiset.mem_add.mpr (.inr (Multiset.mem_add.mpr (.inl (Multiset.mem_add.mpr
      (.inr hline)))))
  rw [h.clients, hqueue, ← Multiset.coe_add, hacc.once, Proxy.done, hundirected, Multiset.coe_nil,
    add_zero]
  simp only [atProxy, nameAmount_add, hbad]
  abel

/-- What was sent is under way, lost, or has arrived at the owner of the name. -/
theorem Consistent.sent_amount (h : s.Consistent env) (k : Bytes) :
    nameAmount env.lexicalCast k ↑(s.proxy.sent.map Prod.snd) +
        nameAmount env.lexicalCast k (s.duplicated.map Prod.snd) =
      nameAmount env.lexicalCast k s.onTheWay +
        nameAmount env.lexicalCast k ↑(s.arrived (env.owner k)) := by
  have hsnd := congrArg (Multiset.map Prod.snd) h.network
  have harrived : (∑ d, ((s.arrived d).map fun line => (d.val, line) :
      Multiset (ℕ × Bytes))).map Prod.snd = ∑ d, (s.arrived d : Multiset Bytes) := by
    rw [← Multiset.coe_mapAddMonoidHom, map_sum]
    refine Finset.sum_congr rfl fun d _ => ?_
    rw [Multiset.coe_mapAddMonoidHom, Multiset.map_coe, List.map_map]
    exact congrArg _ (List.map_id' _)
  have hsum : nameAmount env.lexicalCast k (∑ d, (s.arrived d : Multiset Bytes)) =
      nameAmount env.lexicalCast k ↑(s.arrived (env.owner k)) := by
    rw [nameAmount_sum]
    refine Finset.sum_eq_single _ (fun d _ hd => ?_) fun hmem => absurd (Finset.mem_univ _) hmem
    refine nameAmount_eq_zero fun line hline => ?_
    obtain ⟨hnul, -, howner⟩ := h.owner_of_arrived hline
    refine nameTally_eq_zero hnul ?_
    rintro rfl
    exact hd howner.symm
  rw [Multiset.map_add, Multiset.map_add, harrived, Multiset.map_coe] at hsnd
  rw [← nameAmount_add, hsnd, nameAmount_add, hsum, onTheWay]

/-- What has arrived at an aggregator is in a ledger of one worker, or will be. -/
theorem Consistent.arrived_amount (h : s.Consistent env) {k : Bytes} {d : Fin D}
    (hk : k ≠ (env.config d).badLinesSeen) :
    nameAmount env.lexicalCast k ↑(s.arrived d) =
      nameAmount env.lexicalCast k (s.atAggregator d) +
        ((s.aggregators d).workers ((env.consumer d).workerOf k)).currentAmount k +
        ((s.aggregators d).workers ((env.consumer d).workerOf k)).reportedAmount k := by
  obtain ⟨t₀, as, ht₀, hrun, harrived⟩ := h.aggregators d
  have hlines : ∀ line ∈ (consumedLines as : Multiset Bytes), nul ∉ line ∧ colon ∈ line := by
    intro line hline
    have hmem : line ∈ s.arrived d := by
      rw [← Multiset.mem_coe, harrived]
      exact Multiset.mem_add.mpr (.inr hline)
    obtain ⟨hnul, hcolon, -⟩ := h.owner_of_arrived hmem
    exact ⟨hnul, hcolon⟩
  have hpending : ∀ line ∈ (s.aggregators d).pending, nul ∉ line ∧ colon ∈ line := by
    intro line hline
    refine hlines line ?_
    rw [(ht₀.balanced_of_run hrun).calls]
    exact Multiset.mem_add.mpr (.inl hline)
  have hconserved := (ht₀.balanced_of_run hrun).amounts (ht₀.faithful_of_run hrun) k
  rw [strings_eq_self _ hlines, strings_eq_self _ hpending, ClusterEnv.aggregator] at hconserved
  simp only [amount_eq_nameAmount hk, Finset.sum_add_distrib, ← nameAmount_sum] at hconserved
  have hone : ∀ g : Fin (W d) → Tally, (∀ i, (env.consumer d).workerOf k ≠ i → g i = 0) →
      ∑ i, g i = g ((env.consumer d).workerOf k) := by
    intro g hg
    exact Finset.sum_eq_single _ (fun i _ hi => hg i (Ne.symm hi)) fun hmem =>
      absurd (Finset.mem_univ _) hmem
  rw [hone _ fun i hi => (h.ledgers_eq_zero hk fun _ => hi).1,
    hone _ fun i hi => (h.ledgers_eq_zero hk fun _ => hi).2] at hconserved
  rw [harrived, nameAmount_add, hconserved, atAggregator, nameAmount_add, nameAmount_add]
  abel

/-- What clients have sent under a name, and the network has duplicated, is in one of
the places in which a line can be. -/
theorem Consistent.amounts (h : s.Consistent env) {k : Bytes}
    (hk : k ≠ (env.config (env.owner k)).badLinesSeen) :
    nameAmount env.lexicalCast k ↑s.received +
        nameAmount env.lexicalCast k (s.duplicated.map Prod.snd) =
      nameAmount env.lexicalCast k (s.atProxy + s.onTheWay + s.atAggregator (env.owner k)) +
        ((s.aggregators (env.owner k)).workers
          ((env.consumer (env.owner k)).workerOf k)).currentAmount k +
        ((s.aggregators (env.owner k)).workers
          ((env.consumer (env.owner k)).workerOf k)).reportedAmount k := by
  rw [h.received_amount, add_assoc, h.sent_amount, h.arrived_amount hk, nameAmount_add,
    nameAmount_add]
  abel

/-- **Amounts are conserved from end to end**, in every interleaving and whatever the
network does: what the clients of the proxy have sent under a name, and the network
has duplicated, is at the proxy, in the network or lost there, at the owner of the
name, or in the ledgers of one worker there. No other worker holds anything under
the name. -/
theorem conserved_end_to_end (env : ClusterEnv D W) {s₀ s : Cluster D S T W U} (hs₀ : s₀.Initial)
    (as : List (ClusterAction D S T W U))
    (hrun : Transition.run (Cluster.step env) s₀ as = some s) (k : Bytes)
    (hk : ∀ d, k ≠ (env.config d).badLinesSeen) :
    nameAmount env.lexicalCast k ↑s.received +
          nameAmount env.lexicalCast k (s.duplicated.map Prod.snd) =
        nameAmount env.lexicalCast k (s.atProxy + s.onTheWay + s.atAggregator (env.owner k)) +
          ((s.aggregators (env.owner k)).workers
            ((env.consumer (env.owner k)).workerOf k)).currentAmount k +
          ((s.aggregators (env.owner k)).workers
            ((env.consumer (env.owner k)).workerOf k)).reportedAmount k ∧
      ∀ d i, (env.owner k = d → (env.consumer d).workerOf k ≠ i) →
        ((s.aggregators d).workers i).currentAmount k = 0 ∧
          ((s.aggregators d).workers i).reportedAmount k = 0 :=
  ⟨(consistent_of_run hs₀ hrun).amounts (hk _),
    fun d _ hne => (consistent_of_run hs₀ hrun).ledgers_eq_zero (hk d) hne⟩

/-- One aggregator for names of even length, one for the others. -/
def pairEnv : ClusterEnv 2 fun _ => 1 where
  proxy := { blacklist := [], stdout := false, hash := List.length, destinations := 2 }
  destinations := rfl
  lexicalCast := lexicalCast
  config _ := {}
  consumer _ := .new {} List.length

/-- Two lines of one name in one datagram: the second overtakes the first, which is
reported before the second is consumed. -/
def overtakingRun : List (ClusterAction 2 1 1 (fun _ => 1) fun _ => 2) :=
  [.receive 0 (ascii "a:1|c\na:2|c"), .consume 0 true, .consume 0 true,
   .proxy (.pop 0), .proxy (.check 0), .proxy (.print 0), .proxy (.route 0),
   .proxy (.pop 0), .proxy (.check 0), .proxy (.print 0), .proxy (.route 0),
   .arrive 1 0 (ascii "a:2|c"), .arrive 1 1 (ascii "a:1|c"), .next 1 1, .next 1 0,
   .aggregator 1 (.push 1 true), .aggregator 1 (.worker 0 .pop), .aggregator 1 (.worker 0 .test),
   .aggregator 1 (.worker 0 .buffer), .aggregator 1 (.interrupt 0), .aggregator 1 (.push 0 true),
   .aggregator 1 (.worker 0 .pop), .aggregator 1 (.worker 0 .test),
   .aggregator 1 (.worker 0 (.process 1)), .aggregator 1 (.worker 0 .handOff),
   .aggregator 1 (.worker 0 .join), .aggregator 1 (.worker 0 .publish),
   .aggregator 1 (.worker 0 .replace), .aggregator 1 (.worker 0 .clear),
   .aggregator 1 (.worker 0 .buffer)]

theorem name_ne_badLinesSeen : ascii "a" ≠ ({} : AggregatorConfig).badLinesSeen := by decide

/-- The overtaken line is lost. -/
def lossyRun : List (ClusterAction 2 1 1 (fun _ => 1) fun _ => 2) :=
  overtakingRun.take 12 ++ [.lose (1, ascii "a:1|c"), .next 1 0]

theorem conserved_end_to_end_lossyRun :
    ∃ s : Cluster 2 1 1 (fun _ => 1) fun _ => 2,
      Transition.run (Cluster.step pairEnv) init lossyRun = some s ∧
        s.lost = {(1, ascii "a:1|c")} ∧
        nameAmount lexicalCast (ascii "a") ↑s.received +
            nameAmount lexicalCast (ascii "a") (s.duplicated.map Prod.snd) =
          nameAmount lexicalCast (ascii "a") (s.atProxy + s.onTheWay + s.atAggregator 1) +
            ((s.aggregators 1).workers 0).currentAmount (ascii "a") +
            ((s.aggregators 1).workers 0).reportedAmount (ascii "a") :=
  ⟨_, rfl, rfl, (conserved_end_to_end pairEnv initial_init lossyRun rfl (ascii "a")
    fun _ => name_ne_badLinesSeen).1⟩

/-- Every line has come through, and come once. -/
structure CameThrough (s : Cluster D S T W U) : Prop where
  proxy : s.atProxy = 0
  network : s.onTheWay = 0
  duplicated : s.duplicated = 0
  aggregators : ∀ d, s.atAggregator d = 0

/-- **The proxy and its aggregators refine one ledger**: when all lines have come
through, what the owner of a name has reported and what it holds together are what
one ledger holds that has buffered all lines. -/
theorem one_ledger_of_rest (env : ClusterEnv D W) {s₀ s : Cluster D S T W U} (hs₀ : s₀.Initial)
    (as : List (ClusterAction D S T W U))
    (hrun : Transition.run (Cluster.step env) s₀ as = some s) (hthrough : s.CameThrough)
    (config : AggregatorConfig) (k : Bytes) (hk : ∀ d, k ≠ (env.config d).badLinesSeen)
    (hconfig : k ≠ config.badLinesSeen) :
    Tally.reported ((Ledger.replay ⟨config, env.lexicalCast⟩ s.received).tally k) =
      ((s.aggregators (env.owner k)).workers
        ((env.consumer (env.owner k)).workerOf k)).currentAmount k +
      ((s.aggregators (env.owner k)).workers
        ((env.consumer (env.owner k)).workerOf k)).reportedAmount k := by
  have hamounts := (consistent_of_run hs₀ hrun).amounts (hk _)
  rw [hthrough.proxy, hthrough.network, hthrough.duplicated, hthrough.aggregators,
    Multiset.map_zero, add_zero, add_zero, nameAmount_zero, zero_add, add_zero] at hamounts
  rw [reported_tally_replay, amount_eq_nameAmount hconfig]
  exact hamounts

theorem one_ledger_of_rest_overtakingRun :
    ∃ s : Cluster 2 1 1 (fun _ => 1) fun _ => 2,
      Transition.run (Cluster.step pairEnv) init overtakingRun = some s ∧ s.CameThrough ∧
        Tally.reported ((Ledger.replay ⟨{}, lexicalCast⟩ s.received).tally (ascii "a")) =
          ((s.aggregators 1).workers 0).currentAmount (ascii "a") +
            ((s.aggregators 1).workers 0).reportedAmount (ascii "a") := by
  have hthrough : ∀ s, Transition.run (Cluster.step pairEnv) init overtakingRun = some s →
      s.CameThrough := by
    intro s hs
    cases hs
    exact ⟨rfl, rfl, rfl, Fin.forall_fin_two.mpr ⟨rfl, rfl⟩⟩
  exact ⟨_, rfl, hthrough _ rfl, one_ledger_of_rest pairEnv initial_init overtakingRun rfl
    (hthrough _ rfl) {} (ascii "a") (fun _ => name_ne_badLinesSeen) name_ne_badLinesSeen⟩

end Cluster

end Statsdcc
