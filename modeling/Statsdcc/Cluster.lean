import Mathlib
import Statsdcc.Accounting
import Statsdcc.Proxy
import Statsdcc.UdpServer.Lines

/-!
# A proxy in front of aggregators

Clients send datagrams to the server threads of a proxy, the threads of the proxy's
worker send each line on to one aggregator, and the server threads of the aggregator
read the lines of what arrives. A datagram can be lost, duplicated and overtaken on
the way.

`received`, `overflowed`, `lost`, `duplicated` and `arrived` are history variables.

## Main definitions

- `Cluster.step` — one step of one party, or of the network
- `Cluster.Consistent` — each party has made a run of its own, and together they have
  received what was sent

## Main results

- `Cluster.consistent_of_run` — this holds after every run
-/

open Bytes

namespace Statsdcc

/-- The line of a call of `consume`. -/
def ProxyAction.consumed {T : ℕ} : ProxyAction T → Option Bytes
  | .consume line _ => some line
  | _ => none

/-- The configurations of the parties. The destinations of the proxy are the `D`
aggregators, and aggregator `d` has `W d` workers. -/
structure ClusterEnv (D : ℕ) (W : Fin D → ℕ) where
  proxy : ProxyEnv
  destinations : proxy.destinations = D
  lexicalCast : Bytes → Option Exact
  config : Fin D → AggregatorConfig
  consumer : ∀ d, AggregatorConsumer (W d)

def ClusterEnv.aggregator {D : ℕ} {W : Fin D → ℕ} (env : ClusterEnv D W) (d : Fin D) : Env Exact :=
  ⟨env.config d, env.lexicalCast⟩

/-- A proxy with `S` server threads and `T` worker threads, `D` aggregators, of which
aggregator `d` has `W d` workers and `U d` server threads, and the network. -/
structure Cluster (D S T : ℕ) (W U : Fin D → ℕ) where
  /-- The lines of its datagram that a server thread of the proxy has not consumed. -/
  clients : Fin S → List Bytes
  proxy : Proxy T
  /-- The datagrams under way, with the index of their destination. -/
  flight : Multiset (ℕ × Bytes)
  /-- The lines of its datagram that a server thread of an aggregator has not consumed. -/
  arrivals : ∀ d, Fin (U d) → List Bytes
  aggregators : ∀ d, Aggregator Exact (W d) (U d)
  received : List Bytes
  overflowed : List Bytes
  lost : Multiset (ℕ × Bytes)
  duplicated : Multiset (ℕ × Bytes)
  arrived : Fin D → List Bytes

inductive ClusterAction (D S T : ℕ) (W U : Fin D → ℕ)
  /-- A server thread of the proxy receives a datagram of a client. -/
  | receive (k : Fin S) (datagram : Bytes)
  /-- It consumes the next line of it; `ok` says whether the queue takes the line. -/
  | consume (k : Fin S) (ok : Bool)
  /-- A thread of the proxy's worker takes a step. -/
  | proxy (a : ProxyAction T)
  | lose (p : ℕ × Bytes)
  | duplicate (p : ℕ × Bytes)
  /-- A server thread of an aggregator receives a datagram. -/
  | arrive (d : Fin D) (u : Fin (U d)) (datagram : Bytes)
  /-- It consumes the next line of it. -/
  | next (d : Fin D) (u : Fin (U d))
  /-- Another thread of an aggregator takes a step, or the call of `consume` goes on. -/
  | aggregator (d : Fin D) (a : Action (W d) (U d))

namespace Cluster

variable {D S T : ℕ} {W U : Fin D → ℕ}

section State

/-- An aggregator moves. -/
def setAggregator (s : Cluster D S T W U) (d : Fin D) (a : Aggregator Exact (W d) (U d)) :
    Cluster D S T W U :=
  { s with aggregators := Function.update s.aggregators d a }

/-- A server thread of an aggregator has these lines to consume. -/
def setArrivals (s : Cluster D S T W U) (d : Fin D) (u : Fin (U d)) (lines : List Bytes) :
    Cluster D S T W U :=
  { s with arrivals := Function.update s.arrivals d (Function.update (s.arrivals d) u lines) }

theorem setArrivals_self (s : Cluster D S T W U) (d : Fin D) (u : Fin (U d)) (lines : List Bytes) :
    (s.setArrivals d u lines).arrivals d = Function.update (s.arrivals d) u lines :=
  Function.update_self d _ s.arrivals

theorem setArrivals_of_ne (s : Cluster D S T W U) {d d' : Fin D} (hd : d' ≠ d) (u : Fin (U d))
    (lines : List Bytes) : (s.setArrivals d u lines).arrivals d' = s.arrivals d' :=
  Function.update_of_ne hd _ s.arrivals

/-- The lines that the server threads of an aggregator have, when one of them moves. -/
theorem sum_arrivals (s : Cluster D S T W U) (d : Fin D) (u : Fin (U d)) (lines : List Bytes) :
    ∑ v, ((s.setArrivals d u lines).arrivals d v : Multiset Bytes) + ↑(s.arrivals d u) =
      ∑ v, ↑(s.arrivals d v) + ↑lines := by
  rw [setArrivals_self]
  exact Transition.sum_update (fun lines : List Bytes => (lines : Multiset Bytes)) _ _ _

/-- All threads have been created, and nothing has been sent. -/
structure Initial (s : Cluster D S T W U) : Prop where
  clients : ∀ k, s.clients k = []
  proxy : ∃ dropped bad, s.proxy = { metricsDropped := dropped, badLinesSeen := bad }
  flight : s.flight = 0
  arrivals : ∀ d u, s.arrivals d u = []
  aggregators : ∀ d, (s.aggregators d).Initial
  received : s.received = []
  overflowed : s.overflowed = []
  lost : s.lost = 0
  duplicated : s.duplicated = 0
  arrived : ∀ d, s.arrived d = []

/-- An initial state in which every counter starts at zero. -/
def init : Cluster D S T W U where
  clients _ := []
  proxy := { metricsDropped := 0, badLinesSeen := 0 }
  flight := 0
  arrivals _ _ := []
  aggregators _ := .init
  received := []
  overflowed := []
  lost := 0
  duplicated := 0
  arrived _ := []

theorem initial_init : (init : Cluster D S T W U).Initial where
  clients _ := rfl
  proxy := ⟨0, 0, rfl⟩
  flight := rfl
  arrivals _ _ := rfl
  aggregators _ := Aggregator.initial_init
  received := rfl
  overflowed := rfl
  lost := rfl
  duplicated := rfl
  arrived _ := rfl

end State

variable [∀ d, NeZero (W d)]

/-- One step of one party, `none` when it is not enabled. -/
def step (env : ClusterEnv D W) (s : Cluster D S T W U) :
    ClusterAction D S T W U → Option (Cluster D S T W U)
  | .receive k datagram =>
    if s.clients k = [] then
      some { s with
        clients := Function.update s.clients k (UdpServer.listen datagram)
        received := s.received ++ UdpServer.listen datagram }
    else none
  | .consume k ok =>
    match s.clients k with
    | [] => none
    | line :: rest =>
      (s.proxy.step env.proxy (.consume line ok)).map fun proxy =>
        { s with
          clients := Function.update s.clients k rest
          proxy
          overflowed := if ok then s.overflowed else s.overflowed ++ [line] }
  | .proxy a =>
    if a.consumed = none then
      (s.proxy.step env.proxy a).map fun proxy =>
        { s with proxy, flight := s.flight + ↑(proxy.sent.drop s.proxy.sent.length) }
    else none
  | .lose p =>
    if p ∈ s.flight then
      some { s with flight := s.flight.erase p, lost := p ::ₘ s.lost }
    else none
  | .duplicate p =>
    if p ∈ s.flight then
      some { s with flight := p ::ₘ s.flight, duplicated := p ::ₘ s.duplicated }
    else none
  | .arrive d u datagram =>
    if (d.val, datagram) ∈ s.flight ∧ s.arrivals d u = [] ∧ (s.aggregators d).servers u = .idle then
      some { s.setArrivals d u (UdpServer.listen datagram) with
        flight := s.flight.erase (d.val, datagram)
        arrived := Function.update s.arrived d (s.arrived d ++ [datagram]) }
    else none
  | .next d u =>
    match s.arrivals d u with
    | [] => none
    | line :: rest =>
      ((s.aggregators d).step (env.aggregator d) (env.consumer d) (.consume u line)).map fun a =>
        (s.setAggregator d a).setArrivals d u rest
  | .aggregator d a =>
    if a.consumed = none then
      ((s.aggregators d).step (env.aggregator d) (env.consumer d) a).map (s.setAggregator d)
    else none

/-- What each step can do. -/
inductive Stepped (env : ClusterEnv D W) (s : Cluster D S T W U) :
    ClusterAction D S T W U → Cluster D S T W U → Prop
  | receive {k : Fin S} (datagram : Bytes) (hidle : s.clients k = []) :
      Stepped env s (.receive k datagram) { s with
        clients := Function.update s.clients k (UdpServer.listen datagram)
        received := s.received ++ UdpServer.listen datagram }
  | consume {k : Fin S} {ok : Bool} {line : Bytes} {rest : List Bytes} {proxy : Proxy T}
      (hlines : s.clients k = line :: rest)
      (hstep : s.proxy.step env.proxy (.consume line ok) = some proxy) :
      Stepped env s (.consume k ok) { s with
        clients := Function.update s.clients k rest
        proxy
        overflowed := if ok then s.overflowed else s.overflowed ++ [line] }
  | proxy {a : ProxyAction T} {proxy : Proxy T} (ha : a.consumed = none)
      (hstep : s.proxy.step env.proxy a = some proxy) :
      Stepped env s (.proxy a)
        { s with proxy, flight := s.flight + ↑(proxy.sent.drop s.proxy.sent.length) }
  | lose {p : ℕ × Bytes} (hp : p ∈ s.flight) :
      Stepped env s (.lose p) { s with flight := s.flight.erase p, lost := p ::ₘ s.lost }
  | duplicate {p : ℕ × Bytes} (hp : p ∈ s.flight) :
      Stepped env s (.duplicate p)
        { s with flight := p ::ₘ s.flight, duplicated := p ::ₘ s.duplicated }
  | arrive {d : Fin D} {u : Fin (U d)} {datagram : Bytes} (hp : (d.val, datagram) ∈ s.flight)
      (hidle : s.arrivals d u = []) :
      Stepped env s (.arrive d u datagram) { s.setArrivals d u (UdpServer.listen datagram) with
        flight := s.flight.erase (d.val, datagram)
        arrived := Function.update s.arrived d (s.arrived d ++ [datagram]) }
  | next {d : Fin D} {u : Fin (U d)} {line : Bytes} {rest : List Bytes}
      {a : Aggregator Exact (W d) (U d)} (hlines : s.arrivals d u = line :: rest)
      (hstep : (s.aggregators d).step (env.aggregator d) (env.consumer d) (.consume u line) =
        some a) :
      Stepped env s (.next d u) ((s.setAggregator d a).setArrivals d u rest)
  | aggregator {d : Fin D} {a : Action (W d) (U d)} {t : Aggregator Exact (W d) (U d)}
      (ha : a.consumed = none)
      (hstep : (s.aggregators d).step (env.aggregator d) (env.consumer d) a = some t) :
      Stepped env s (.aggregator d a) (s.setAggregator d t)

theorem stepped_of_step {env : ClusterEnv D W} {s s' : Cluster D S T W U}
    {a : ClusterAction D S T W U} (h : step env s a = some s') : Stepped env s a s' := by
  cases a with
  | receive k datagram =>
    simp only [step] at h
    split at h <;> cases h
    exact .receive datagram ‹_›
  | consume k ok =>
    simp only [step] at h
    split at h
    · cases h
    · obtain ⟨proxy, hstep, rfl⟩ := Option.map_eq_some_iff.mp h
      exact .consume ‹_› hstep
  | proxy a =>
    simp only [step] at h
    split at h
    · obtain ⟨proxy, hstep, rfl⟩ := Option.map_eq_some_iff.mp h
      exact .proxy ‹_› hstep
    · cases h
  | lose p =>
    simp only [step] at h
    split at h <;> cases h
    exact .lose ‹_›
  | duplicate p =>
    simp only [step] at h
    split at h <;> cases h
    exact .duplicate ‹_›
  | arrive d u datagram =>
    simp only [step] at h
    split_ifs at h with hc
    cases h
    exact .arrive hc.1 hc.2.1
  | next d u =>
    simp only [step] at h
    split at h
    · cases h
    · obtain ⟨a, hstep, rfl⟩ := Option.map_eq_some_iff.mp h
      exact .next ‹_› hstep
  | aggregator d a =>
    simp only [step] at h
    split at h
    · obtain ⟨t, hstep, rfl⟩ := Option.map_eq_some_iff.mp h
      exact .aggregator ‹_› hstep
    · cases h

-- ════════════════════════════════════════════════════════════════════════
-- The parties together
-- ════════════════════════════════════════════════════════════════════════

/-- Each party has made a run of its own, and what it received is what others sent. -/
structure Consistent (env : ClusterEnv D W) (s : Cluster D S T W U) : Prop where
  proxy : ∃ dropped bad as, Transition.run (Proxy.step env.proxy)
    { metricsDropped := dropped, badLinesSeen := bad } as = some s.proxy
  aggregators : ∀ d, ∃ t₀ as, Aggregator.Initial t₀ ∧
    Transition.run (Aggregator.step (env.aggregator d) (env.consumer d)) t₀ as =
      some (s.aggregators d) ∧
    (s.arrived d : Multiset Bytes) = ∑ u, ↑(s.arrivals d u) + ↑(consumedLines as)
  lines : ∀ line ∈ s.received, nul ∉ line ∧ newline ∉ line ∧ line.length ≤ maxMsgSize
  clients : (s.received : Multiset Bytes) =
    ∑ k, ↑(s.clients k) + ↑s.overflowed + ↑s.proxy.accepted
  network : (s.proxy.sent : Multiset (ℕ × Bytes)) + s.duplicated =
    s.flight + s.lost + ∑ d, ↑((s.arrived d).map fun line => (d.val, line))
  flight : ∀ p ∈ s.flight, p ∈ s.proxy.sent
  arrived : ∀ d, ∀ line ∈ s.arrived d, (d.val, line) ∈ s.proxy.sent

theorem Initial.consistent {env : ClusterEnv D W} {s : Cluster D S T W U}
    (hs : s.Initial) : s.Consistent env := by
  obtain ⟨dropped, bad, hproxy⟩ := hs.proxy
  constructor
  case proxy => exact ⟨dropped, bad, [], by rw [hproxy]; rfl⟩
  case aggregators =>
    intro d
    refine ⟨s.aggregators d, [], hs.aggregators d, rfl, ?_⟩
    have hsum : ∑ u, (s.arrivals d u : Multiset Bytes) = 0 :=
      Finset.sum_eq_zero fun u _ => by rw [hs.arrivals d u]; rfl
    rw [hs.arrived d, hsum]
    rfl
  case lines =>
    intro line hline
    rw [hs.received] at hline
    exact absurd hline List.not_mem_nil
  case clients =>
    have hsum : ∑ k, (s.clients k : Multiset Bytes) = 0 :=
      Finset.sum_eq_zero fun k _ => by rw [hs.clients k]; rfl
    rw [hs.received, hs.overflowed, hproxy, hsum]
    rfl
  case network =>
    have hsum : ∑ d : Fin D, ((s.arrived d).map fun line => (d.val, line) :
        Multiset (ℕ × Bytes)) = 0 :=
      Finset.sum_eq_zero fun d _ => by rw [hs.arrived d]; rfl
    rw [hproxy, hs.duplicated, hs.flight, hs.lost, hsum]
    rfl
  case flight =>
    intro p hp
    rw [hs.flight] at hp
    exact absurd hp (Multiset.notMem_zero p)
  case arrived =>
    intro d line hline
    rw [hs.arrived d] at hline
    exact absurd hline List.not_mem_nil

section Steps

variable {env : ClusterEnv D W} {s s' : Cluster D S T W U}

/-- A line that the proxy sent is a line that it accepted. -/
theorem Consistent.mem_received_of_sent (h : s.Consistent env) {p : ℕ × Bytes}
    (hp : p ∈ s.proxy.sent) : p.2 ∈ s.received := by
  obtain ⟨dropped, bad, as, hrun⟩ := h.proxy
  have hacc := Proxy.accounts_of_run env.proxy dropped bad hrun
  have hmem : ∀ line ∈ s.proxy.accepted, line ∈ s.received := by
    intro line hline
    rw [← Multiset.mem_coe, h.clients]
    exact Multiset.mem_add.mpr (.inr hline)
  have hqueue : p.2 ∈ s.proxy.accepted.map cStr := by
    rw [hacc.queue]
    exact List.mem_append_left _ (hacc.popped_of_sent hp)
  obtain ⟨line, hline, heq⟩ := List.mem_map.mp hqueue
  rw [cStr_eq_self (h.lines line (hmem line hline)).1] at heq
  exact heq ▸ hmem line hline

/-- An aggregator reads the line that was sent. -/
theorem Consistent.listen_of_sent (h : s.Consistent env) {p : ℕ × Bytes}
    (hp : p ∈ s.proxy.sent) : UdpServer.listen p.2 = [p.2] := by
  obtain ⟨dropped, bad, as, hrun⟩ := h.proxy
  have hacc := Proxy.accounts_of_run env.proxy dropped bad hrun
  obtain ⟨hnul, hnewline, hlength⟩ := h.lines _ (h.mem_received_of_sent hp)
  exact Proxy.listen_of_line hnul hnewline (List.ne_nil_of_mem (hacc.sent p hp).2.1) hlength

/-- A server thread of the proxy receives a datagram. -/
theorem Consistent.receive (h : s.Consistent env) {k : Fin S} (datagram : Bytes)
    (hidle : s.clients k = []) :
    Consistent env { s with
      clients := Function.update s.clients k (UdpServer.listen datagram)
      received := s.received ++ UdpServer.listen datagram } := by
  refine ⟨h.proxy, h.aggregators, ?_, ?_, h.network, h.flight, h.arrived⟩
  · intro line hline
    rcases List.mem_append.mp hline with hline | hline
    · exact h.lines line hline
    · exact UdpServer.clean_of_mem_listen hline
  · have hsum := Transition.sum_update (fun lines : List Bytes => (lines : Multiset Bytes))
      s.clients k (UdpServer.listen datagram)
    rw [hidle] at hsum
    have hlines : ∑ j, ((Function.update s.clients k (UdpServer.listen datagram) j : List Bytes) :
        Multiset Bytes) = ∑ j, ↑(s.clients j) + ↑(UdpServer.listen datagram) :=
      (add_zero _).symm.trans hsum
    show ((s.received ++ UdpServer.listen datagram : List Bytes) : Multiset Bytes) = _
    rw [← Multiset.coe_add, h.clients]
    show _ = ∑ j, ((Function.update s.clients k (UdpServer.listen datagram) j : List Bytes) :
        Multiset Bytes) + _ + _
    rw [hlines]
    abel

/-- A line of a client is consumed by the proxy. -/
theorem Consistent.consume (h : s.Consistent env) {k : Fin S} {ok : Bool} {line : Bytes}
    {rest : List Bytes} {proxy : Proxy T} (hlines : s.clients k = line :: rest)
    (hstep : s.proxy.step env.proxy (.consume line ok) = some proxy) :
    Consistent env { s with
      clients := Function.update s.clients k rest
      proxy
      overflowed := if ok then s.overflowed else s.overflowed ++ [line] } := by
  obtain ⟨dropped, bad, as, hrun⟩ := h.proxy
  have hsum := Transition.sum_update (fun lines : List Bytes => (lines : Multiset Bytes))
    s.clients k rest
  rw [hlines, ← Multiset.cons_coe, ← Multiset.singleton_add, ← add_assoc] at hsum
  have hrest : ∑ j, ((Function.update s.clients k rest j : List Bytes) : Multiset Bytes) + {line} =
      ∑ j, ↑(s.clients j) := add_right_cancel hsum
  have hsent : proxy.sent = s.proxy.sent := by
    cases Proxy.stepped_of_step hstep <;> rfl
  refine ⟨⟨dropped, bad, as ++ [.consume line ok], Transition.run_concat.mpr ⟨_, hrun, hstep⟩⟩,
    h.aggregators, h.lines, ?_, ?_, ?_, ?_⟩
  · show (s.received : Multiset Bytes) = ∑ j, ((Function.update s.clients k rest j : List Bytes) :
      Multiset Bytes) + _ + _
    rw [h.clients, ← hrest]
    cases Proxy.stepped_of_step hstep with
    | accept =>
      show _ = _ + (s.overflowed : Multiset Bytes) + ↑(s.proxy.accepted ++ [line])
      rw [← Multiset.coe_add, Multiset.coe_singleton]
      abel
    | drop =>
      show _ = _ + ((s.overflowed ++ [line] : List Bytes) : Multiset Bytes) + ↑s.proxy.accepted
      rw [← Multiset.coe_add, Multiset.coe_singleton]
      abel
  · show (proxy.sent : Multiset (ℕ × Bytes)) + _ = _
    rw [hsent]
    exact h.network
  · show ∀ p ∈ s.flight, p ∈ proxy.sent
    rw [hsent]
    exact h.flight
  · show ∀ d, ∀ line ∈ s.arrived d, (d.val, line) ∈ proxy.sent
    rw [hsent]
    exact h.arrived

/-- A thread of the proxy's worker takes a step. -/
theorem Consistent.proxy_step (h : s.Consistent env) {a : ProxyAction T} {proxy : Proxy T}
    (ha : a.consumed = none) (hstep : s.proxy.step env.proxy a = some proxy) :
    Consistent env
      { s with proxy, flight := s.flight + ↑(proxy.sent.drop s.proxy.sent.length) } := by
  obtain ⟨dropped, bad, as, hrun⟩ := h.proxy
  obtain ⟨hsent, haccepted⟩ : s.proxy.sent <+: proxy.sent ∧
      proxy.accepted = s.proxy.accepted := by
    cases Proxy.stepped_of_step hstep with
    | accept | drop => cases ha
    | send => exact ⟨List.prefix_append _ _, rfl⟩
    | pop | blacklist | pass | discard | print | countBad => exact ⟨List.prefix_refl _, rfl⟩
  have hnew : proxy.sent = s.proxy.sent ++ proxy.sent.drop s.proxy.sent.length :=
    (List.prefix_iff_eq_append.mp hsent).symm
  refine ⟨⟨dropped, bad, as ++ [a], Transition.run_concat.mpr ⟨_, hrun, hstep⟩⟩, h.aggregators,
    h.lines, ?_, ?_, ?_, ?_⟩
  · show (s.received : Multiset Bytes) = _ + ↑proxy.accepted
    rw [haccepted]
    exact h.clients
  · show (proxy.sent : Multiset (ℕ × Bytes)) + s.duplicated =
      s.flight + ↑(proxy.sent.drop s.proxy.sent.length) + s.lost + _
    calc (proxy.sent : Multiset (ℕ × Bytes)) + s.duplicated
        = ↑s.proxy.sent + ↑(proxy.sent.drop s.proxy.sent.length) + s.duplicated := by
          rw [Multiset.coe_add, ← hnew]
      _ = ↑s.proxy.sent + s.duplicated + ↑(proxy.sent.drop s.proxy.sent.length) :=
          add_right_comm _ _ _
      _ = _ := by
          rw [h.network]
          abel
  · show ∀ p ∈ s.flight + ↑(proxy.sent.drop s.proxy.sent.length), p ∈ proxy.sent
    intro p hp
    rcases Multiset.mem_add.mp hp with hp | hp
    · exact hsent.subset (h.flight p hp)
    · exact List.mem_of_mem_drop (Multiset.mem_coe.mp hp)
  · exact fun d line hline => hsent.subset (h.arrived d line hline)

/-- The network loses a datagram. -/
theorem Consistent.lose (h : s.Consistent env) {p : ℕ × Bytes} (hp : p ∈ s.flight) :
    Consistent env { s with flight := s.flight.erase p, lost := p ::ₘ s.lost } := by
  refine ⟨h.proxy, h.aggregators, h.lines, h.clients, ?_, ?_, h.arrived⟩
  · show _ = s.flight.erase p + p ::ₘ s.lost + _
    rw [Multiset.add_cons, ← Multiset.cons_add, Multiset.cons_erase hp]
    exact h.network
  · exact fun q hq => h.flight q (Multiset.mem_of_mem_erase hq)

/-- The network duplicates a datagram. -/
theorem Consistent.duplicate (h : s.Consistent env) {p : ℕ × Bytes} (hp : p ∈ s.flight) :
    Consistent env { s with flight := p ::ₘ s.flight, duplicated := p ::ₘ s.duplicated } := by
  refine ⟨h.proxy, h.aggregators, h.lines, h.clients, ?_, ?_, h.arrived⟩
  · show _ + p ::ₘ s.duplicated = p ::ₘ s.flight + _ + _
    rw [Multiset.add_cons, Multiset.cons_add, Multiset.cons_add]
    exact congrArg _ h.network
  · intro q hq
    rcases Multiset.mem_cons.mp hq with rfl | hq
    · exact h.flight q hp
    · exact h.flight q hq

/-- A server thread of an aggregator receives a datagram. -/
theorem Consistent.arrive (h : s.Consistent env) {d : Fin D} {u : Fin (U d)} {datagram : Bytes}
    (hp : (d.val, datagram) ∈ s.flight) (hidle : s.arrivals d u = []) :
    Consistent env { s.setArrivals d u (UdpServer.listen datagram) with
      flight := s.flight.erase (d.val, datagram)
      arrived := Function.update s.arrived d (s.arrived d ++ [datagram]) } := by
  have hlisten := h.listen_of_sent (h.flight _ hp)
  refine ⟨h.proxy, ?_, h.lines, h.clients, ?_, ?_, ?_⟩
  · intro d'
    obtain ⟨t₀, as, ht₀, hrun, harrived⟩ := h.aggregators d'
    refine ⟨t₀, as, ht₀, hrun, ?_⟩
    show (Function.update s.arrived d _ d' : Multiset Bytes) =
      ∑ v, ↑((s.setArrivals d u (UdpServer.listen datagram)).arrivals d' v) + _
    by_cases hd : d' = d
    · subst hd
      have hsum := s.sum_arrivals d' u (UdpServer.listen datagram)
      rw [hidle, hlisten] at hsum
      have hlines : ∑ v, ((s.setArrivals d' u [datagram]).arrivals d' v : Multiset Bytes) =
          ∑ v, ↑(s.arrivals d' v) + {datagram} := (add_zero _).symm.trans hsum
      rw [Function.update_self, hlisten, hlines, ← Multiset.coe_add, Multiset.coe_singleton,
        harrived]
      exact add_right_comm _ _ _
    · rw [Function.update_of_ne hd, s.setArrivals_of_ne hd]
      exact harrived
  · have hsum := Transition.sum_update_pi
      (fun (d : Fin D) (lines : List Bytes) =>
        ((lines.map fun line => (d.val, line) : List (ℕ × Bytes)) : Multiset (ℕ × Bytes)))
      s.arrived d (s.arrived d ++ [datagram])
    have hone : ∑ d', ((Function.update s.arrived d (s.arrived d ++ [datagram]) d').map
        fun line => (d'.val, line) : Multiset (ℕ × Bytes)) =
          ∑ d', ↑((s.arrived d').map fun line => (d'.val, line)) + {(d.val, datagram)} := by
      refine add_right_cancel (hsum.trans ?_)
      rw [List.map_append, ← Multiset.coe_add, ← add_assoc]
      exact add_right_comm _ _ _
    show ↑s.proxy.sent + s.duplicated =
      s.flight.erase (d.val, datagram) + s.lost + ∑ d', ((Function.update s.arrived d
      (s.arrived d ++ [datagram]) d').map fun line => (d'.val, line) : Multiset (ℕ × Bytes))
    rw [h.network, hone]
    conv_lhs => rw [← Multiset.cons_erase hp, ← Multiset.singleton_add]
    abel
  · exact fun q hq => h.flight q (Multiset.mem_of_mem_erase hq)
  · intro d' line hline
    change line ∈ Function.update s.arrived d (s.arrived d ++ [datagram]) d' at hline
    by_cases hd : d' = d
    · subst hd
      rw [Function.update_self] at hline
      rcases List.mem_append.mp hline with hline | hline
      · exact h.arrived d' line hline
      · rw [List.mem_singleton.mp hline]
        exact h.flight _ hp
    · rw [Function.update_of_ne hd] at hline
      exact h.arrived d' line hline

/-- A line that arrived is consumed by the aggregator. -/
theorem Consistent.next (h : s.Consistent env) {d : Fin D} {u : Fin (U d)} {line : Bytes}
    {rest : List Bytes} {a : Aggregator Exact (W d) (U d)} (hlines : s.arrivals d u = line :: rest)
    (hstep : (s.aggregators d).step (env.aggregator d) (env.consumer d) (.consume u line) =
      some a) :
    Consistent env ((s.setAggregator d a).setArrivals d u rest) := by
  refine ⟨h.proxy, ?_, h.lines, h.clients, h.network, h.flight, h.arrived⟩
  intro d'
  obtain ⟨t₀, as, ht₀, hrun, harrived⟩ := h.aggregators d'
  show ∃ t₀ as, Aggregator.Initial t₀ ∧ Transition.run _ t₀ as =
    some (Function.update s.aggregators d a d') ∧ (s.arrived d' : Multiset Bytes) =
      ∑ v, ↑((s.setArrivals d u rest).arrivals d' v) + ↑(consumedLines as)
  by_cases hd : d' = d
  · subst hd
    refine ⟨t₀, as ++ [.consume u line], ht₀, ?_, ?_⟩
    · rw [Function.update_self]
      exact Transition.run_concat.mpr ⟨_, hrun, hstep⟩
    · have hsum := s.sum_arrivals d' u rest
      rw [hlines, ← Multiset.cons_coe, ← Multiset.singleton_add, ← add_assoc] at hsum
      have hrest : ∑ v, ((s.setArrivals d' u rest).arrivals d' v : Multiset Bytes) + {line} =
        ∑ v, ↑(s.arrivals d' v) := add_right_cancel hsum
      rw [harrived, consumedLines_concat, ← hrest]
      show _ = _ + (_ + {line})
      abel
  · refine ⟨t₀, as, ht₀, ?_, ?_⟩
    · rw [Function.update_of_ne hd]
      exact hrun
    · rw [s.setArrivals_of_ne hd]
      exact harrived

/-- An aggregator takes a step of its own. -/
theorem Consistent.aggregator_step (h : s.Consistent env) {d : Fin D} {a : Action (W d) (U d)}
    {t : Aggregator Exact (W d) (U d)} (ha : a.consumed = none)
    (hstep : (s.aggregators d).step (env.aggregator d) (env.consumer d) a = some t) :
    Consistent env (s.setAggregator d t) := by
  refine ⟨h.proxy, ?_, h.lines, h.clients, h.network, h.flight, h.arrived⟩
  intro d'
  obtain ⟨t₀, as, ht₀, hrun, harrived⟩ := h.aggregators d'
  show ∃ t₀ as, Aggregator.Initial t₀ ∧ Transition.run _ t₀ as =
    some (Function.update s.aggregators d t d') ∧ _
  by_cases hd : d' = d
  · subst hd
    refine ⟨t₀, as ++ [a], ht₀, ?_, ?_⟩
    · rw [Function.update_self]
      exact Transition.run_concat.mpr ⟨_, hrun, hstep⟩
    · rw [consumedLines_concat, ha]
      exact harrived.trans (congrArg _ (add_zero _).symm)
  · rw [Function.update_of_ne hd]
    exact ⟨t₀, as, ht₀, hrun, harrived⟩

theorem Consistent.step {a : ClusterAction D S T W U} (h : s.Consistent env)
    (hstep : step env s a = some s') : s'.Consistent env := by
  cases stepped_of_step hstep with
  | receive datagram hidle => exact h.receive datagram hidle
  | consume hlines hproxy => exact h.consume hlines hproxy
  | proxy ha hproxy => exact h.proxy_step ha hproxy
  | lose hp => exact h.lose hp
  | duplicate hp => exact h.duplicate hp
  | arrive hp hidle => exact h.arrive hp hidle
  | next hlines haggregator => exact h.next hlines haggregator
  | aggregator ha haggregator => exact h.aggregator_step ha haggregator

/-- The parties agree after every run. -/
theorem consistent_of_run {s₀ : Cluster D S T W U} (hs₀ : s₀.Initial)
    {as : List (ClusterAction D S T W U)}
    (hrun : Transition.run (Cluster.step env) s₀ as = some s) : s.Consistent env :=
  Transition.run_induction (I := fun _ s => s.Consistent env) hs₀.consistent
    (fun _ _ _ _ ih hstep => ih.step hstep) hrun

end Steps

end Cluster

end Statsdcc
