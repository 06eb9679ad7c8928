import Mathlib
import Statsdcc.Consumer
import Statsdcc.UdpServer
import Statsdcc.Ledger.Line
import Statsdcc.Lib.Transition

/-!
# The proxy

`workers::proxy::Worker` has one queue, from which any number of threads take
lines, drop those that match the blacklist, and send each other one to an
aggregator that they choose by a hash of its name.

The fields from `accepted` on are history variables: the lines pushed and popped,
and what has become of the popped ones.

## Main definitions

- `Proxy.step` — one step of a thread of the proxy
- `Proxy.Handled` — every popped line has been dealt with in one way
- `Proxy.OneOwner` — two lines of one name go to one aggregator and one worker there

## Main results

- `Proxy.Accounts.step` — no step loses or duplicates a line
- `Proxy.oneOwner_of_accounts` — the texts before the first colon decide the owner
- `Proxy.handled_once` — both, after every run
-/

open Bytes

namespace Statsdcc

/-- The configuration of the proxy and the functions outside of the repository. -/
structure ProxyEnv where
  /-- `boost::regex_match` with each expression of the blacklist. -/
  blacklist : List (Bytes → Bool)
  stdout : Bool
  hash : Bytes → ℕ
  /-- The size of `destinations`. -/
  destinations : ℕ

/-- The metric in hand of a thread of `Worker::process`, and the next step. -/
inductive ProxyPc
  | pop
  | check (metric : Bytes)
  | print (metric : Bytes)
  | route (metric : Bytes)
  deriving DecidableEq

def ProxyPc.inHand : ProxyPc → List Bytes
  | pop => []
  | check metric | print metric | route metric => [metric]

/-- The worker of a proxy with `T` threads. -/
structure Proxy (T : ℕ) where
  workQueue : List Bytes := []
  metricsDropped : UInt64
  badLinesSeen : UInt64
  threads : Fin T → ProxyPc := fun _ => .pop
  printed : List Bytes := []
  accepted : List Bytes := []
  popped : List Bytes := []
  blacklisted : List Bytes := []
  undirected : List Bytes := []
  bad : List Bytes := []
  /-- The calls of `sendto`: the index of the destination and the datagram. -/
  sent : List (ℕ × Bytes) := []

inductive ProxyAction (T : ℕ)
  /-- A server thread calls `ProxyConsumer::consume`, and the push succeeds or not. -/
  | consume (line : Bytes) (ok : Bool)
  | pop (t : Fin T)
  | check (t : Fin T)
  | print (t : Fin T)
  | route (t : Fin T)
  deriving DecidableEq

namespace Proxy

variable {T : ℕ}

/-- `boost::lockfree::capacity<10000>`. -/
def capacity : ℕ := 10000

def setThread (s : Proxy T) (t : Fin T) (pc : ProxyPc) : Proxy T :=
  { s with threads := Function.update s.threads t pc }

/-- One step of one thread, `none` when it is not enabled. -/
def step (env : ProxyEnv) (s : Proxy T) : ProxyAction T → Option (Proxy T)
  | .consume line ok =>
    if ok then
      if s.workQueue.length < capacity then
        some { s with workQueue := s.workQueue ++ [cStr line], accepted := s.accepted ++ [line] }
      else none
    else some { s with metricsDropped := s.metricsDropped + 1 }
  | .pop t =>
    match s.threads t, s.workQueue with
    | .pop, metric :: queue =>
      some { s.setThread t (.check metric) with
        workQueue := queue, popped := s.popped ++ [metric] }
    | _, _ => none
  | .check t =>
    match s.threads t with
    | .check metric =>
      if env.blacklist.any fun regex => regex metric then
        some { s.setThread t .pop with blacklisted := s.blacklisted ++ [metric] }
      else some (s.setThread t (.print metric))
    | _ => none
  | .print t =>
    match s.threads t with
    | .print metric =>
      let printed := if env.stdout then s.printed ++ [metric] else s.printed
      if env.destinations = 0 then
        some { s.setThread t .pop with printed, undirected := s.undirected ++ [metric] }
      else some { s.setThread t (.route metric) with printed }
    | _ => none
  | .route t =>
    match s.threads t with
    | .route metric =>
      match metric.idxOf? colon with
      | some pos =>
        some { s.setThread t .pop with
          sent := s.sent ++ [(env.hash (metric.take pos) % env.destinations, metric)] }
      | none =>
        some { s.setThread t .pop with
          badLinesSeen := s.badLinesSeen + 1, bad := s.bad ++ [metric] }
    | _ => none

/-- What each step can do. -/
inductive Stepped (env : ProxyEnv) (s : Proxy T) : ProxyAction T → Proxy T → Prop
  | accept (line : Bytes) : Stepped env s (.consume line true)
      { s with workQueue := s.workQueue ++ [cStr line], accepted := s.accepted ++ [line] }
  | drop (line : Bytes) : Stepped env s (.consume line false)
      { s with metricsDropped := s.metricsDropped + 1 }
  | pop {t : Fin T} {metric : Bytes} {queue : List Bytes} (hpc : s.threads t = .pop)
      (hqueue : s.workQueue = metric :: queue) : Stepped env s (.pop t)
      { s.setThread t (.check metric) with workQueue := queue, popped := s.popped ++ [metric] }
  | blacklist {t : Fin T} {metric : Bytes} (hpc : s.threads t = .check metric)
      (hmatch : (env.blacklist.any fun regex => regex metric) = true) : Stepped env s (.check t)
      { s.setThread t .pop with blacklisted := s.blacklisted ++ [metric] }
  | pass {t : Fin T} {metric : Bytes} (hpc : s.threads t = .check metric)
      (hmatch : (env.blacklist.any fun regex => regex metric) = false) : Stepped env s (.check t)
      (s.setThread t (.print metric))
  | discard {t : Fin T} {metric : Bytes} (printed : List Bytes) (hpc : s.threads t = .print metric)
      (hnone : env.destinations = 0) : Stepped env s (.print t)
      { s.setThread t .pop with printed, undirected := s.undirected ++ [metric] }
  | print {t : Fin T} {metric : Bytes} (printed : List Bytes) (hpc : s.threads t = .print metric)
      (hsome : env.destinations ≠ 0) : Stepped env s (.print t)
      { s.setThread t (.route metric) with printed }
  | send {t : Fin T} {metric : Bytes} (hpc : s.threads t = .route metric)
      (hcolon : colon ∈ metric) : Stepped env s (.route t)
      { s.setThread t .pop with
        sent := s.sent ++ [(env.hash (lineName metric) % env.destinations, metric)] }
  | countBad {t : Fin T} {metric : Bytes} (hpc : s.threads t = .route metric)
      (hcolon : colon ∉ metric) : Stepped env s (.route t)
      { s.setThread t .pop with badLinesSeen := s.badLinesSeen + 1, bad := s.bad ++ [metric] }

theorem stepped_of_step {env : ProxyEnv} {s s' : Proxy T} {a : ProxyAction T}
    (h : step env s a = some s') : Stepped env s a s' := by
  cases a with
  | consume line ok =>
    cases ok with
    | true =>
      simp only [step, if_true] at h
      split at h <;> cases h
      exact .accept line
    | false =>
      cases h
      exact .drop line
  | pop t =>
    simp only [step] at h
    split at h <;> cases h
    exact .pop ‹_› ‹_›
  | check t =>
    simp only [step] at h
    split at h
    · split at h <;> cases h
      · exact .blacklist ‹_› ‹_›
      · exact .pass ‹_› (Bool.not_eq_true _ ▸ ‹_›)
    · cases h
  | print t =>
    simp only [step] at h
    split at h
    · split at h <;> cases h
      · exact .discard _ ‹_› ‹_›
      · exact .print _ ‹_› ‹_›
    · cases h
  | route t =>
    simp only [step] at h
    split at h
    · rename_i metric hpc
      split at h <;> cases h
      · rename_i pos hpos
        rw [take_idxOf_eq_takeWhile hpos]
        refine .send hpc ?_
        by_contra hcolon
        rw [List.idxOf?_eq_none_iff.mpr hcolon] at hpos
        cases hpos
      · rename_i hpos
        exact .countBad hpc (List.idxOf?_eq_none_iff.mp hpos)
    · cases h

-- ════════════════════════════════════════════════════════════════════════
-- The accounts of the lines
-- ════════════════════════════════════════════════════════════════════════

/-- The lines that the threads have in hand. -/
def inHand (s : Proxy T) : Multiset Bytes := ∑ t, ((s.threads t).inHand : Multiset Bytes)

theorem inHand_setThread (s : Proxy T) (t : Fin T) (pc : ProxyPc) :
    (s.setThread t pc).inHand + ↑(s.threads t).inHand = s.inHand + ↑pc.inHand :=
  Transition.sum_update (fun pc : ProxyPc => (pc.inHand : Multiset Bytes)) s.threads t pc

/-- The lines that have been dealt with. -/
def done (s : Proxy T) : Multiset Bytes :=
  ↑s.blacklisted + ↑s.undirected + ↑s.bad + ↑(s.sent.map Prod.snd)

/-- A line in hand has passed the tests before the next step. -/
def PassedTests (env : ProxyEnv) : ProxyPc → Prop
  | .pop | .check _ => True
  | .print metric => (env.blacklist.any fun regex => regex metric) = false
  | .route metric => (env.blacklist.any fun regex => regex metric) = false ∧ env.destinations ≠ 0

/-- The invariant of the proxy: where the accepted lines are, and which lines are
dealt with in which way. -/
structure Accounts (env : ProxyEnv) (start : UInt64) (s : Proxy T) : Prop where
  queue : s.accepted.map cStr = s.popped ++ s.workQueue
  once : (s.popped : Multiset Bytes) = s.inHand + s.done
  tests : ∀ t, PassedTests env (s.threads t)
  blacklisted : ∀ metric ∈ s.blacklisted, (env.blacklist.any fun regex => regex metric) = true
  undirected : s.undirected ≠ [] → env.destinations = 0
  bad : ∀ metric ∈ s.bad, (env.blacklist.any fun regex => regex metric) = false ∧ colon ∉ metric
  count : s.badLinesSeen = start + UInt64.ofNat s.bad.length
  sent : ∀ p ∈ s.sent, (env.blacklist.any fun regex => regex p.2) = false ∧ colon ∈ p.2 ∧
    p.1 = env.hash (lineName p.2) % env.destinations ∧ p.1 < env.destinations

section Steps

variable {env : ProxyEnv} {start : UInt64} {s s' : Proxy T}

theorem tests_setThread (h : ∀ t, PassedTests env (s.threads t)) (t : Fin T) {pc : ProxyPc}
    (hpc : PassedTests env pc) (t' : Fin T) : PassedTests env ((s.setThread t pc).threads t') := by
  show PassedTests env (Function.update s.threads t pc t')
  by_cases ht : t' = t
  · subst ht
    rw [Function.update_self]
    exact hpc
  · rw [Function.update_of_ne ht]
    exact h t'

/-- A thread that goes on with its line. -/
theorem inHand_of_same {t : Fin T} {pc : ProxyPc} (h : pc.inHand = (s.threads t).inHand) :
    (s.setThread t pc).inHand = s.inHand := by
  have hsum := s.inHand_setThread t pc
  rw [h] at hsum
  exact add_right_cancel hsum

/-- A thread that is done with its line. -/
theorem Accounts.once_of_done (h : Accounts env start s) {t : Fin T} {metric : Bytes}
    (hhand : (s.threads t).inHand = [metric]) {done' : Multiset Bytes}
    (hdone : done' = s.done + {metric}) :
    (s.popped : Multiset Bytes) = (s.setThread t .pop).inHand + done' := by
  have hsum := s.inHand_setThread t .pop
  rw [hhand] at hsum
  have hheld : (s.setThread t .pop).inHand + {metric} = s.inHand := hsum.trans (add_zero _)
  rw [h.once, ← hheld, hdone]
  abel

theorem coe_concat (xs : List Bytes) (x : Bytes) :
    ((xs ++ [x] : List Bytes) : Multiset Bytes) = ↑xs + {x} := rfl

theorem forall_mem_concat {α : Type*} {p : α → Prop} {xs : List α} {x : α} (h : ∀ y ∈ xs, p y)
    (hx : p x) : ∀ y ∈ xs ++ [x], p y := by
  intro y hy
  rcases List.mem_append.mp hy with hy | hy
  · exact h y hy
  · rw [List.mem_singleton.mp hy]
    exact hx

/-- No step loses or duplicates a line. -/
theorem Accounts.step {a : ProxyAction T} (h : Accounts env start s)
    (hstep : step env s a = some s') : Accounts env start s' := by
  cases stepped_of_step hstep with
  | accept line =>
    refine ⟨?_, h.once, h.tests, h.blacklisted, h.undirected, h.bad, h.count, h.sent⟩
    show (s.accepted ++ [line]).map cStr = s.popped ++ (s.workQueue ++ [cStr line])
    rw [List.map_append, h.queue, List.append_assoc]
    rfl
  | drop line =>
    exact ⟨h.queue, h.once, h.tests, h.blacklisted, h.undirected, h.bad, h.count, h.sent⟩
  | @pop t metric queue hpc hqueue =>
    refine ⟨?_, ?_, tests_setThread h.tests t trivial, h.blacklisted, h.undirected, h.bad, h.count,
      h.sent⟩
    · show s.accepted.map cStr = (s.popped ++ [metric]) ++ queue
      rw [h.queue, hqueue, List.append_assoc]
      rfl
    · have hsum := s.inHand_setThread t (.check metric)
      rw [hpc] at hsum
      have htaken : (s.setThread t (.check metric)).inHand = s.inHand + {metric} :=
        (add_zero _).symm.trans hsum
      show ((s.popped ++ [metric] : List Bytes) : Multiset Bytes) =
        (s.setThread t (.check metric)).inHand + s.done
      rw [coe_concat, h.once, htaken]
      abel
  | @blacklist t metric hpc hmatch =>
    refine ⟨h.queue, ?_, tests_setThread h.tests t trivial, forall_mem_concat h.blacklisted hmatch,
      h.undirected, h.bad, h.count, h.sent⟩
    refine h.once_of_done (by rw [hpc]; rfl : _ = [metric]) ?_
    simp only [done, setThread, coe_concat]
    abel
  | @pass t metric hpc hmatch =>
    refine ⟨h.queue, ?_, tests_setThread h.tests t hmatch, h.blacklisted, h.undirected, h.bad,
      h.count, h.sent⟩
    rw [inHand_of_same (by rw [hpc]; rfl)]
    exact h.once
  | @discard t metric printed hpc hnone =>
    refine ⟨h.queue, ?_, tests_setThread h.tests t trivial, h.blacklisted, fun _ => hnone, h.bad,
      h.count, h.sent⟩
    refine h.once_of_done (by rw [hpc]; rfl : _ = [metric]) ?_
    simp only [done, setThread, coe_concat]
    abel
  | @print t metric printed hpc hsome =>
    have htest := h.tests t
    rw [hpc] at htest
    refine ⟨h.queue, ?_, tests_setThread h.tests t ⟨htest, hsome⟩, h.blacklisted, h.undirected,
      h.bad, h.count, h.sent⟩
    show _ = (s.setThread t (.route metric)).inHand + _
    rw [inHand_of_same (by rw [hpc]; rfl)]
    exact h.once
  | @send t metric hpc hcolon =>
    have htest := h.tests t
    rw [hpc] at htest
    refine ⟨h.queue, ?_, tests_setThread h.tests t trivial, h.blacklisted, h.undirected, h.bad,
      h.count, forall_mem_concat h.sent ⟨htest.1, hcolon, rfl, ?_⟩⟩
    · refine h.once_of_done (by rw [hpc]; rfl : _ = [metric]) ?_
      simp only [done, setThread, List.map_append, List.map_singleton, coe_concat]
      abel
    · exact Nat.mod_lt _ (Nat.pos_of_ne_zero htest.2)
  | @countBad t metric hpc hcolon =>
    have htest := h.tests t
    rw [hpc] at htest
    refine ⟨h.queue, ?_, tests_setThread h.tests t trivial, h.blacklisted, h.undirected,
      forall_mem_concat h.bad ⟨htest.1, hcolon⟩, ?_, h.sent⟩
    · refine h.once_of_done (by rw [hpc]; rfl : _ = [metric]) ?_
      simp only [done, setThread, coe_concat]
      abel
    · show s.badLinesSeen + 1 = start + UInt64.ofNat (s.bad ++ [metric]).length
      rw [h.count, List.length_append, List.length_singleton, UInt64.ofNat_add, add_assoc]
      rfl

/-- The accounts balance after every run. -/
theorem accounts_of_run (env : ProxyEnv) (dropped bad : UInt64) {as : List (ProxyAction T)}
    (hrun : Transition.run (Proxy.step env) { metricsDropped := dropped, badLinesSeen := bad } as =
      some s) : Accounts env bad s := by
  refine Transition.run_induction (I := fun _ s => Accounts env bad s) ?_
    (fun _ _ _ _ ih hstep => ih.step hstep) hrun
  refine ⟨rfl, ?_, fun _ => trivial, ?_, fun h => absurd rfl h, ?_, ?_, ?_⟩
  · have hzero : ({ metricsDropped := dropped, badLinesSeen := bad } : Proxy T).inHand = 0 :=
      Finset.sum_eq_zero fun _ _ => rfl
    rw [hzero]
    rfl
  · intro metric hmem
    cases hmem
  · intro metric hmem
    cases hmem
  · exact (add_zero bad).symm
  · intro p hmem
    cases hmem

end Steps

-- ════════════════════════════════════════════════════════════════════════
-- Who owns a name
-- ════════════════════════════════════════════════════════════════════════

/-- Two datagrams that a ledger stores under one name have one destination, where
any consumer submits them to one worker. -/
def OneOwner (p q : ℕ × Bytes) : Prop :=
  ∀ (R : Type) [CDouble R] (cast : Bytes → Option R) (b b' : ScanBuffers R)
    (c c' : MetricType × R), parseLine cast p.2 = some (b, c) → parseLine cast q.2 = some (b', c') →
    b.nameBuffer = b'.nameBuffer →
      p.1 = q.1 ∧ ∀ (W : ℕ) [NeZero W] (config : AggregatorConfig) (strHash : Bytes → ℕ),
        ((AggregatorConsumer.new (W := W) config strHash).consume p.2).1 =
          ((AggregatorConsumer.new (W := W) config strHash).consume q.2).1

/-- What the proxy has made of the lines that it accepted. -/
structure Handled (env : ProxyEnv) (start : UInt64) (s : Proxy T) : Prop where
  /-- The lines are popped in the order in which they were pushed. -/
  queue : s.accepted.map cStr = s.popped ++ s.workQueue
  unchanged : ∀ (i : ℕ) (line : Bytes), s.accepted[i]? = some line → nul ∉ line →
    (s.popped ++ s.workQueue)[i]? = some line
  /-- A popped line is in the hand of one thread or has been dealt with in one way. -/
  once : (s.popped : Multiset Bytes) =
    s.inHand + ↑s.blacklisted + ↑s.bad + ↑(s.sent.map Prod.snd)
  blacklisted : ∀ metric ∈ s.blacklisted, (env.blacklist.any fun regex => regex metric) = true
  bad : ∀ metric ∈ s.bad, (env.blacklist.any fun regex => regex metric) = false ∧ colon ∉ metric
  count : s.badLinesSeen = start + UInt64.ofNat s.bad.length
  sent : ∀ p ∈ s.sent, (env.blacklist.any fun regex => regex p.2) = false ∧ colon ∈ p.2 ∧
    p.1 < env.destinations
  /-- An aggregator reads the line that was sent to it. -/
  received : ∀ p ∈ s.sent, newline ∉ p.2 → p.2.length ≤ maxMsgSize → UdpServer.listen p.2 = [p.2]
  owner : ∀ p ∈ s.sent, ∀ q ∈ s.sent, OneOwner p q

section Owner

variable {env : ProxyEnv} {start : UInt64} {s : Proxy T}

theorem Accounts.nul_notMem (h : Accounts env start s) {metric : Bytes} (hmem : metric ∈ s.popped) :
    nul ∉ metric := by
  have hqueue : metric ∈ s.accepted.map cStr := by
    rw [h.queue]
    exact List.mem_append_left _ hmem
  obtain ⟨line, -, rfl⟩ := List.mem_map.mp hqueue
  exact not_mem_takeWhile_ne nul line

theorem Accounts.popped_of_sent (h : Accounts env start s) {p : ℕ × Bytes} (hp : p ∈ s.sent) :
    p.2 ∈ s.popped := by
  have hdone : p.2 ∈ s.done := Multiset.mem_add.mpr (.inr (List.mem_map_of_mem hp))
  rw [← Multiset.mem_coe, h.once]
  exact Multiset.mem_add.mpr (.inr hdone)

theorem Accounts.unchanged (h : Accounts env start s) {i : ℕ} {line : Bytes}
    (hline : s.accepted[i]? = some line) (hnul : nul ∉ line) :
    (s.popped ++ s.workQueue)[i]? = some line := by
  rw [← h.queue, List.getElem?_map, hline, Option.map_some, cStr_eq_self hnul]

theorem listen_of_line {metric : Bytes} (hnul : nul ∉ metric) (hnewline : newline ∉ metric)
    (hne : metric ≠ []) (hlen : metric.length ≤ maxMsgSize) :
    UdpServer.listen metric = [metric] := by
  show getlines (cStr (metric.take maxMsgSize)) = [metric]
  rw [List.take_of_length_le hlen, cStr_eq_self hnul]
  exact getlines_last hnewline hne

/-- The proxy, the consumer and the ledger find the same name in a line that the
ledger accepts. -/
theorem oneOwner_of_accounts (h : Accounts env start s) {p q : ℕ × Bytes} (hp : p ∈ s.sent)
    (hq : q ∈ s.sent) : OneOwner p q := by
  intro R _ cast b b' c c' hb hb' hname
  obtain ⟨-, hcolon, hidx, -⟩ := h.sent p hp
  obtain ⟨-, hcolon', hidx', -⟩ := h.sent q hq
  have hline : lineName p.2 = lineName q.2 := by
    rw [← nameBuffer_of_parse (h.nul_notMem (h.popped_of_sent hp)) hb, hname]
    exact nameBuffer_of_parse (h.nul_notMem (h.popped_of_sent hq)) hb'
  constructor
  · rw [hidx, hidx', hline]
  · intro W _ config strHash
    rw [AggregatorConsumer.consume_of_colon _ hcolon, AggregatorConsumer.consume_of_colon _ hcolon']
    show AggregatorConsumer.workerOf _ (lineName p.2) = AggregatorConsumer.workerOf _ (lineName q.2)
    rw [hline]

/-- **The proxy handles each line once and a name has one owner**, whatever the
schedule of its threads, the hash and the blacklist. -/
theorem handled_once (env : ProxyEnv) (hdestinations : 0 < env.destinations)
    (dropped bad : UInt64) (as : List (ProxyAction T))
    (hrun : Transition.run (Proxy.step env) { metricsDropped := dropped, badLinesSeen := bad } as =
      some s) : Handled env bad s := by
  have hacc : Accounts env bad s := accounts_of_run env dropped bad hrun
  have hundirected : s.undirected = [] := by
    by_contra hne
    exact hdestinations.ne' (hacc.undirected hne)
  refine ⟨hacc.queue, fun _ _ => hacc.unchanged, ?_, hacc.blacklisted, hacc.bad, hacc.count, ?_, ?_,
    fun p hp q hq => oneOwner_of_accounts hacc hp hq⟩
  · have honce := hacc.once
    rw [done, hundirected] at honce
    rw [honce]
    show s.inHand + (↑s.blacklisted + 0 + ↑s.bad + ↑(s.sent.map Prod.snd)) = _
    abel
  · intro p hp
    obtain ⟨hmatch, hcolon, -, hlt⟩ := hacc.sent p hp
    exact ⟨hmatch, hcolon, hlt⟩
  · intro p hp hnewline hlen
    have hcolon := (hacc.sent p hp).2.1
    exact listen_of_line (hacc.nul_notMem (hacc.popped_of_sent hp)) hnewline
      (List.ne_nil_of_mem hcolon) hlen

end Owner

/-- Two threads, two destinations, and a blacklist that holds the line of `b`. -/
def mixedEnv : ProxyEnv where
  blacklist := [fun metric => metric = ascii "b:1|c"]
  stdout := true
  hash := List.length
  destinations := 2

/-- Two lines of one name are sent by different threads; one line is dropped and
one has no colon. -/
def mixedRun {T : ℕ} [NeZero T] : List (ProxyAction T) :=
  [.consume (ascii "a:1|c") true, .consume (ascii "a:2|c") true, .pop 0, .pop 1, .check 1, .print 1,
   .route 1, .consume (ascii "b:1|c") true, .check 0, .consume (ascii "c") true, .pop 1, .check 1,
   .pop 1, .check 1, .print 0, .print 1, .route 1, .route 0]

theorem handled_once_mixedRun :
    ∃ s : Proxy 2,
      Transition.run (Proxy.step mixedEnv) { metricsDropped := 0, badLinesSeen := 0 } mixedRun =
          some s ∧
        s.sent = [(1, ascii "a:2|c"), (1, ascii "a:1|c")] ∧ s.blacklisted = [ascii "b:1|c"] ∧
        s.bad = [ascii "c"] ∧ Handled mixedEnv 0 s :=
  ⟨_, rfl, rfl, rfl, rfl, handled_once mixedEnv (by decide) 0 0 mixedRun rfl⟩

end Proxy

end Statsdcc
