import Mathlib
import Statsdcc.Config
import Statsdcc.Hashring
import Statsdcc.Lib.Json

/-!
# Loading the configuration of the aggregator

The constructors of `Config` and of `AggregatorConfig` read a JSON document,
member by member, and give every absent member a default. They check nothing
about the values beyond their types; a value of the wrong type throws.

## Main definitions

- `Config.ofJson`, `LoadedConfig.ofJson` — the constructors

## Main results

- `LoadedConfig.members_of_ofJson` — the members that the fields come from
- `LoadedConfig.workers_of_ofJson`, `LoadedConfig.frequency_of_ofJson` — the
  number of workers and the frequency among them
-/

open Bytes JsonValue

namespace Statsdcc

structure TcpSettings where
  port : Int32
  enabled : Bool

structure UdpSettings where
  port : Int32
  threads : Int32
  recvBuffer : Int32
  enabled : Bool

structure HttpSettings where
  port : Int32
  enabled : Bool

structure Servers where
  tcp : TcpSettings
  udp : UdpSettings
  http : HttpSettings

/-- `Logger::LogLevel`. -/
inductive LogLevel
  | debug
  | info
  | warn
  | error
  deriving DecidableEq

/-- `configs::Config`. -/
structure Config where
  servers : Servers
  workers : Int32
  logLevel : LogLevel

structure Backends where
  carbon : UnorderedMap Bytes Node := ∅
  repeaters : List Hostport := []
  stdout : Bool := false

/-- `configs::AggregatorConfig` with the fields of its base class and its backends. -/
structure LoadedConfig extends Config, AggregatorConfig where
  backends : Backends

def LogLevel.ofText (level : Bytes) : LogLevel :=
  if level = ascii "debug" then debug
  else if level = ascii "info" then info
  else if level = ascii "warn" then warn
  else if level = ascii "error" then error
  else warn

section Constructors

variable {V : Type} [JsonValue V]

def TcpSettings.ofJson (tcp : V) : Option TcpSettings := do
  let port ← getInt tcp (ascii "port") (-1)
  return { port, enabled := port ≠ -1 }

def UdpSettings.ofJson (udp : V) : Option UdpSettings := do
  let port ← getInt udp (ascii "port") (-1)
  let threads ← getInt udp (ascii "threads") 1
  let recvBuffer ← getInt udp (ascii "recv_buffer") 8388608
  return { port, threads, recvBuffer, enabled := port ≠ -1 }

def HttpSettings.ofJson (http : V) : Option HttpSettings := do
  let port ← getInt http (ascii "port") 8080
  let enabled ← getBool http (ascii "enabled") true
  return { port, enabled }

/-- The constructor of `Config`. -/
def Config.ofJson (json : V) : Option Config := do
  let servers ← subscript json (ascii "servers")
  let tcp ← TcpSettings.ofJson (← subscript servers (ascii "tcp"))
  let udp ← UdpSettings.ofJson (← subscript servers (ascii "udp"))
  let http ← HttpSettings.ofJson (← subscript servers (ascii "http"))
  let workers ← getInt json (ascii "workers") 1
  let level ← getString json (ascii "log_level") (ascii "warn")
  return { servers := { tcp, udp, http }, workers, logLevel := .ofText level }

/-- A section name, with a final `.` unless it is empty. -/
def sectionOf (json : V) (key default : Bytes) : Option Bytes := do
  let name ← getString json key default
  return if name = [] then [] else name ++ ascii "."

def percentilesOf (json : V) : Option (List ℤ) := do
  let ps ← subscript json (ascii "percentiles")
  if size ps = 0 then return [90]
  (values ps).mapM fun p => (asInt p).map Int32.toInt

/-- The `i`-th entry of `carbon`; a shard without a name is named by its number, an `int`
in lists of fewer than `2^31` entries. -/
def carbonShard (entry : V) (i : ℕ) : Option (Bytes × Node) := do
  let shard ← getString entry (ascii "shard") (natText i)
  let host ← getString entry (ascii "host") (ascii "127.0.0.1")
  let port ← getInt entry (ascii "port") 3000
  let vnodes ← getInt entry (ascii "vnodes") 1000
  let weight ← getInt entry (ascii "weight") 1
  return (shard, { host, port := port.toInt, vnodes := vnodes.toInt, weight := weight.toInt })

def repeaterHostport (entry : V) : Option Hostport := do
  let host ← getString entry (ascii "host") (ascii "127.0.0.1")
  let port ← getInt entry (ascii "port") 3000
  return { host, port := port.toInt }

/-- One iteration of the loop over the names of the backends. -/
def Backends.read (json : V) (backends : Backends) (name : Bytes) : Option Backends :=
  if name = ascii "carbon" then do
    let cs ← subscript (← subscript json (ascii "backends")) (ascii "carbon")
    let carbon ← (values cs).zipIdx.foldlM (fun carbon entry => do
      let (shard, node) ← carbonShard entry.1 entry.2
      return carbon.insert shard node) backends.carbon
    return { backends with carbon }
  else if name = ascii "repeater" then do
    let rs ← subscript (← subscript json (ascii "backends")) (ascii "repeater")
    let repeaters ← (values rs).mapM repeaterHostport
    return { backends with repeaters := backends.repeaters ++ repeaters }
  else if name = ascii "stdout" then some { backends with stdout := true }
  else some backends

def Backends.ofJson (json : V) : Option Backends := do
  let ms ← getMemberNames (← subscript json (ascii "backends"))
  ms.foldlM (Backends.read json) {}

/-- The constructor of `AggregatorConfig`. -/
def LoadedConfig.ofJson (json : V) : Option LoadedConfig := do
  let config ← Config.ofJson json
  let name ← getString json (ascii "name") (ascii "statsdcc")
  let prefixAll ← sectionOf json (ascii "prefix") []
  let prefixCounter ← sectionOf json (ascii "prefix_counter") (ascii "counters")
  let prefixTimer ← sectionOf json (ascii "prefix_timer") (ascii "timers")
  let prefixGauge ← sectionOf json (ascii "prefix_gauge") (ascii "gauges")
  let prefixSet ← sectionOf json (ascii "prefix_set") (ascii "sets")
  let frequency ← getInt json (ascii "frequency") 10
  let percentiles ← percentilesOf json
  let backends ← Backends.ofJson json
  return { config with
    name, prefixAll, prefixCounter, prefixTimer, prefixGauge, prefixSet
    frequency := frequency.toInt, percentiles, backends }

theorem Config.workers_of_ofJson {json : V} {config : Config}
    (h : Config.ofJson json = some config) :
    getInt json (ascii "workers") 1 = some config.workers := by
  simp only [Config.ofJson, Option.bind_eq_bind, Option.bind_eq_some_iff, Option.pure_def,
    Option.some.injEq] at h
  obtain ⟨_, _, _, _, _, _, _, _, _, _, _, _, _, _, workers, hworkers, _, _, rfl⟩ := h
  exact hworkers

namespace LoadedConfig

variable {json : V} {config : LoadedConfig}

/-- The members that the fields of a configuration come from. -/
theorem members_of_ofJson (h : LoadedConfig.ofJson json = some config) :
    Config.ofJson json = some config.toConfig ∧
      (getInt json (ascii "frequency") 10).map Int32.toInt = some config.frequency ∧
      percentilesOf json = some config.percentiles ∧
      Backends.ofJson json = some config.backends := by
  simp only [LoadedConfig.ofJson, Option.bind_eq_bind, Option.bind_eq_some_iff, Option.pure_def,
    Option.some.injEq] at h
  obtain ⟨base, hbase, _, _, _, _, _, _, _, _, _, _, _, _, frequency, hfrequency, percentiles,
    hpercentiles, backends, hbackends, rfl⟩ := h
  exact ⟨hbase, congrArg (Option.map Int32.toInt) hfrequency, hpercentiles, hbackends⟩

theorem workers_of_ofJson (h : LoadedConfig.ofJson json = some config) :
    getInt json (ascii "workers") 1 = some config.workers :=
  Config.workers_of_ofJson (members_of_ofJson h).1

theorem frequency_of_ofJson (h : LoadedConfig.ofJson json = some config) :
    (getInt json (ascii "frequency") 10).map Int32.toInt = some config.frequency :=
  (members_of_ofJson h).2.1

end LoadedConfig

end Constructors

end Statsdcc
