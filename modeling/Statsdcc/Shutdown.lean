import Mathlib
import Statsdcc.Config.Load
import Statsdcc.Lib.Lifetime

/-!
# Starting and stopping the programs

`main` makes the objects that have threads, one after the other, and waits in
`os::pause`. `stop` destroys them; it is called by the handler of `SIGINT` and `SIGTERM`
and where `main` catches what a constructor throws. The threads of one object access
others: the clock interrupts the workers, the UDP server submits to them, and the HTTP
server asks all of them.

Objects are taken as a whole here; the members of a `Worker`, which are destroyed before
its thread is joined, have a module of their own.

## Main definitions

- `Config.aggregator`, `Config.proxy` — the objects of the two programs

## Main results

- `Daemon.ordered` — the orders agree with who accesses whom
- `Daemon.safe_of_run` — no object is accessed before it is made or while it is destroyed
-/

namespace Statsdcc

/-- An object with threads that `main` makes. -/
inductive ProgramObject
  | worker (i : ℕ)
  | clock
  | udpServer
  | tcpServer
  | httpServer
  deriving DecidableEq

open ProgramObject

namespace Config

/-- The elements of `::servers`. -/
def socketServers (config : Config) : List ProgramObject :=
  (if config.servers.udp.enabled then [udpServer] else []) ++
  if config.servers.tcp.enabled then [tcpServer] else []

def httpServers (config : Config) : List ProgramObject :=
  if config.servers.http.enabled then [httpServer] else []

/-- The elements of `::workers`. -/
def aggregatorWorkers (config : Config) : List ProgramObject :=
  (List.range config.workers.toInt.toNat).map worker

/-- `main` and `stop` of the aggregator. -/
def aggregator (config : Config) : Program ProgramObject where
  plan := config.aggregatorWorkers ++ [clock] ++ config.socketServers ++ config.httpServers
  teardown := [httpServer] ++ config.socketServers ++ [clock] ++ config.aggregatorWorkers
  uses
    -- `Clock::wait_interrupt`
    | clock, o => o ∈ config.aggregatorWorkers
    -- `UDPServer::listen`, by way of the consumer; in `TCPServer::listen` the call is commented out
    | udpServer, o => udpServer ∈ config.socketServers && o ∈ config.aggregatorWorkers
    -- `get_proc_status` and `get_app_status`
    | httpServer, o => o ∈ config.aggregatorWorkers ++ [clock] ++ config.socketServers
    | _, _ => false
  caught
    -- not inside a `try`
    | clock => false
    -- creating a thread fails with an exception that is not a `std::string`
    | udpServer => false
    | _ => true

/-- `main` and `stop` of the proxy, whose one `Worker` has several threads. -/
def proxy (config : Config) : Program ProgramObject where
  plan := [worker 0] ++ config.socketServers ++ config.httpServers
  teardown := [httpServer] ++ config.socketServers ++ [worker 0]
  uses
    | udpServer, o => udpServer ∈ config.socketServers && o = worker 0
    | httpServer, o => o ∈ [worker 0] ++ config.socketServers
    | _, _ => false
  caught
    -- `main` exits at once
    | worker _ => false
    | _ => true

section Orders

variable {config : Config} {a b : ProgramObject}

@[simp] theorem httpServer_notMem_socketServers : httpServer ∉ config.socketServers := by
  rw [socketServers]
  split_ifs <;> simp

@[simp] theorem worker_notMem_socketServers (i : ℕ) : worker i ∉ config.socketServers := by
  rw [socketServers]
  split_ifs <;> simp

@[simp] theorem notMem_aggregatorWorkers (ha : ∀ i, a ≠ worker i) :
    a ∉ config.aggregatorWorkers := by
  intro hmem
  obtain ⟨i, -, heq⟩ := List.mem_map.mp hmem
  exact ha i heq.symm

theorem eq_of_mem_httpServers (ha : a ∈ config.httpServers) : a = httpServer := by
  rw [httpServers] at ha
  split_ifs at ha
  · exact List.mem_singleton.mp ha
  · cases ha

/-- Who accesses whom in the aggregator. -/
theorem uses_aggregator (huses : config.aggregator.uses a b = true) :
    (a = clock ∨ a = udpServer ∧ udpServer ∈ config.socketServers) ∧
        b ∈ config.aggregatorWorkers ∨
      a = httpServer ∧ b ∈ config.aggregatorWorkers ++ [clock] ++ config.socketServers := by
  cases a with
  | clock => exact .inl ⟨.inl rfl, of_decide_eq_true huses⟩
  | udpServer =>
    obtain ⟨hudp, hb⟩ := Bool.and_eq_true_iff.mp huses
    exact .inl ⟨.inr ⟨rfl, of_decide_eq_true hudp⟩, of_decide_eq_true hb⟩
  | httpServer => exact .inr ⟨rfl, of_decide_eq_true huses⟩
  | worker i => cases huses
  | tcpServer => cases huses

/-- Who accesses whom in the proxy. -/
theorem uses_proxy (huses : config.proxy.uses a b = true) :
    (a = udpServer ∧ udpServer ∈ config.socketServers) ∧ b = worker 0 ∨
      a = httpServer ∧ b ∈ [worker 0] ++ config.socketServers := by
  cases a with
  | udpServer =>
    obtain ⟨hudp, hb⟩ := Bool.and_eq_true_iff.mp huses
    exact .inl ⟨⟨rfl, of_decide_eq_true hudp⟩, of_decide_eq_true hb⟩
  | httpServer => exact .inr ⟨rfl, of_decide_eq_true huses⟩
  | clock => cases huses
  | worker i => cases huses
  | tcpServer => cases huses

theorem ordered_aggregator (config : Config) : config.aggregator.Ordered := by
  refine .of_prefixes (fun a b huses => ?_) (fun a b huses => ?_) fun a ha => ?_
  · rcases uses_aggregator huses with ⟨ha, hb⟩ | ⟨rfl, hb⟩
    · refine ⟨config.aggregatorWorkers,
        ⟨[clock] ++ (config.socketServers ++ config.httpServers), ?_⟩, hb, ?_⟩
      · simp [aggregator]
      · rcases ha with rfl | ⟨rfl, -⟩ <;> simp
    · exact ⟨_, List.prefix_append _ _, hb, by simp⟩
  · rcases uses_aggregator huses with ⟨ha, hb⟩ | ⟨rfl, hb⟩
    · obtain ⟨i, -, rfl⟩ := List.mem_map.mp hb
      refine ⟨[httpServer] ++ config.socketServers ++ [clock], List.prefix_append _ _, ?_, ?_⟩
      · rcases ha with rfl | ⟨rfl, hudp⟩
        · simp
        · simp [hudp]
      · simp
    · refine ⟨[httpServer], ⟨config.socketServers ++ ([clock] ++ config.aggregatorWorkers), ?_⟩,
        List.mem_singleton_self _, ?_⟩
      · simp [aggregator]
      · rintro hmem
        rw [List.mem_singleton.mp hmem] at hb
        simp at hb
  · simp only [aggregator, List.mem_append, List.mem_singleton] at ha ⊢
    rcases ha with ((hworker | hclock) | hsocket) | hhttp
    · exact .inr hworker
    · exact .inl (.inr hclock)
    · exact .inl (.inl (.inr hsocket))
    · exact .inl (.inl (.inl (eq_of_mem_httpServers hhttp)))

theorem ordered_proxy (config : Config) : config.proxy.Ordered := by
  refine .of_prefixes (fun a b huses => ?_) (fun a b huses => ?_) fun a ha => ?_
  · rcases uses_proxy huses with ⟨⟨rfl, -⟩, rfl⟩ | ⟨rfl, hb⟩
    · exact ⟨[worker 0], ⟨config.socketServers ++ config.httpServers, by simp [proxy]⟩,
        List.mem_singleton_self _, by simp⟩
    · exact ⟨_, List.prefix_append _ _, hb, by simp⟩
  · rcases uses_proxy huses with ⟨⟨rfl, hudp⟩, rfl⟩ | ⟨rfl, hb⟩
    · exact ⟨[httpServer] ++ config.socketServers, List.prefix_append _ _, by simp [hudp], by simp⟩
    · refine ⟨[httpServer], ⟨config.socketServers ++ [worker 0], by simp [proxy]⟩,
        List.mem_singleton_self _, ?_⟩
      rintro hmem
      rw [List.mem_singleton.mp hmem] at hb
      simp at hb
  · simp only [proxy, List.mem_append, List.mem_singleton] at ha ⊢
    rcases ha with (hworker | hsocket) | hhttp
    · exact .inr hworker
    · exact .inl (.inr hsocket)
    · exact .inl (.inl (eq_of_mem_httpServers hhttp))

end Orders

end Config

/-- The programs of the repository. -/
inductive Daemon
  | aggregator
  | proxy

namespace Daemon

def program (config : Config) : Daemon → Program ProgramObject
  | aggregator => config.aggregator
  | proxy => config.proxy

/-- An object is made behind those that its threads access, and destroyed before them. -/
theorem ordered (daemon : Daemon) (config : Config) : (daemon.program config).Ordered := by
  cases daemon with
  | aggregator => exact config.ordered_aggregator
  | proxy => exact config.ordered_proxy

/-- No thread accesses an object before it is made or once its destruction has begun, and
all threads have been joined when the program exits: in every run in which a signal comes
neither during a constructor nor during `stop`. -/
theorem safe_of_run (daemon : Daemon) (config : Config) (as : List (Lifetime.Action ProgramObject))
    {s : Lifetime ProgramObject}
    (hrest : Transition.StepsSatisfy (Lifetime.step (daemon.program config))
      (fun t a => t.signalAtRest a) { planned := (daemon.program config).plan } as)
    (hrun : Transition.run (Lifetime.step (daemon.program config))
      { planned := (daemon.program config).plan } as = some s) :
    (∀ x ∈ s.accesses, x.phase = .alive) ∧ (s.exited = true → ∀ o, s.running o = 0) := by
  have hsafe := Lifetime.safe_of_ordered (daemon.ordered config) hrest hrun
  exact ⟨hsafe.proper, hsafe.joined⟩

/-- One worker, and all servers. -/
def smallConfig : Config :=
  { servers := { tcp := { port := 8125, enabled := true },
                 udp := { port := 8125, threads := 1, recvBuffer := 0, enabled := true },
                 http := { port := 8080, enabled := true } },
    workers := 1, logLevel := .info }

/-- An object is made, with one thread. -/
def made : List (Lifetime.Action ProgramObject) := [.construct, .spawn, .publish]

/-- The next object is destroyed. -/
def destroyed (o : ProgramObject) : List (Lifetime.Action ProgramObject) :=
  [.reset, .leave o, .join]

/-- All objects are made, the threads go on for a while, and `SIGTERM` comes. -/
def stoppedRun : List (Lifetime.Action ProgramObject) :=
  made ++ made ++ made ++ made ++ made ++
    [.access .clock (.worker 0), .access .httpServer .clock, .signal, .reset,
      .access .httpServer .udpServer, .leave .httpServer, .join] ++
    [.reset, .access .udpServer (.worker 0), .leave .udpServer, .join] ++
    destroyed .tcpServer ++ destroyed .clock ++ destroyed (.worker 0) ++ [.exit]

theorem safe_stoppedRun :
    ∃ s : Lifetime ProgramObject,
      Transition.run (Lifetime.step (aggregator.program smallConfig))
        { planned := (aggregator.program smallConfig).plan } stoppedRun = some s ∧
      s.accesses.length = 4 ∧ s.exited = true ∧
      (∀ x ∈ s.accesses, x.phase = .alive) ∧ (s.exited = true → ∀ o, s.running o = 0) :=
  ⟨_, rfl, rfl, rfl, safe_of_run aggregator smallConfig stoppedRun
    (Transition.stepsSatisfy_of_allSteps rfl) rfl⟩

/-- `SIGTERM` comes while `SIGINT` is handled and the HTTP server is being destroyed. -/
def interruptedRun : List (Lifetime.Action ProgramObject) :=
  made ++ made ++ made ++ made ++ made ++ [.signal, .reset, .signal, .reset] ++
    destroyed .udpServer ++ destroyed .tcpServer ++ destroyed .clock ++ destroyed (.worker 0) ++
    [.access .httpServer (.worker 0)]

-- The destruction that comes in between passes the HTTP server over.
example :
    (Transition.run (Lifetime.step (aggregator.program smallConfig))
      { planned := (aggregator.program smallConfig).plan } interruptedRun).map
        (fun s => s.accesses.map (·.phase)) = some [.gone] := rfl

end Daemon

end Statsdcc
