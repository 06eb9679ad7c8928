import Mathlib
import Statsdcc.Config.Load
import Statsdcc.Lib.JsonWrite

/-!
# The configurations of both programs as JSON

The `/app` page of the HTTP servers publishes the configuration. `to_json` writes it
with subscripts that make the members they do not find. `ProxyConfig` is the
configuration of the proxy, with the expressions of its blacklist; `compile` is the
constructor of `boost::regex`, which throws for a text that is not an expression.

## Main definitions

- `ProxyConfig.ofJson` — the constructor
- `Config.toJson`, `LoadedConfig.toJson`, `ProxyConfig.toJson` — the methods `to_json`
-/

open Bytes JsonValue

namespace Statsdcc

/-- `configs::ProxyConfig` with the fields of its base class and its backends. -/
structure ProxyConfig (Regex : Type) extends Config where
  aggregators : List Hostport
  stdout : Bool
  blacklist : List Regex

-- ════════════════════════════════════════════════════════════════════════
-- Loading the configuration of the proxy
-- ════════════════════════════════════════════════════════════════════════

namespace ProxyConfig

variable {V : Type} [JsonValue V]

def aggregatorHostport (entry : V) : Option Hostport := do
  let host ← getString entry (ascii "host") (ascii "127.0.0.1")
  let port ← getInt entry (ascii "port") 8125
  return { host, port := port.toInt }

/-- One iteration of the loop over the names of the backends. -/
def readBackend (json : V) (backends : List Hostport × Bool) (name : Bytes) :
    Option (List Hostport × Bool) :=
  if name = ascii "aggregator" then do
    let ss ← subscript (← subscript json (ascii "backends")) (ascii "aggregator")
    let aggregators ← (values ss).mapM aggregatorHostport
    return (backends.1 ++ aggregators, backends.2)
  else if name = ascii "stdout" then some (backends.1, true)
  else some backends

/-- The constructor of `ProxyConfig`. -/
def ofJson {Regex : Type} (compile : Bytes → Option Regex) (json : V) :
    Option (ProxyConfig Regex) := do
  let config ← Config.ofJson json
  let ms ← getMemberNames (← subscript json (ascii "backends"))
  let (aggregators, stdout) ← ms.foldlM (readBackend json) ([], false)
  let blklist ← subscript json (ascii "blacklist")
  let blacklist ← (values blklist).mapM fun entry => do compile (← asString entry)
  return { config with aggregators, stdout, blacklist }

end ProxyConfig

-- ════════════════════════════════════════════════════════════════════════
-- to_json
-- ════════════════════════════════════════════════════════════════════════

section ToJson

variable {V : Type} [JsonDocument V]

open JsonDocument

/-- What `Config::to_json` writes for the servers. -/
def Servers.toJson (servers : Servers) : V :=
  let root := null
  let root :=
    if servers.tcp.enabled then
      assign root [ascii "servers", ascii "tcp", ascii "port"] (ofInt servers.tcp.port)
    else root
  let root :=
    if servers.udp.enabled then
      assign (assign root [ascii "servers", ascii "udp", ascii "port"] (ofInt servers.udp.port))
        [ascii "servers", ascii "udp", ascii "threads"] (ofInt servers.udp.threads)
    else root
  if servers.http.enabled then
    assign root [ascii "servers", ascii "http", ascii "port"] (ofInt servers.http.port)
  else root

/-- `Config::to_json`. -/
def Config.toJson (config : Config) : V :=
  let root := config.servers.toJson
  if config.logLevel = .debug then assign root [ascii "log_level"] (ofString (ascii "debug"))
  else if config.logLevel = .info then assign root [ascii "log_level"] (ofString (ascii "info"))
  -- The same test again, so that `warn` is not written.
  else if config.logLevel = .info then assign root [ascii "log_level"] (ofString (ascii "warn"))
  else if config.logLevel = .error then assign root [ascii "log_level"] (ofString (ascii "error"))
  else root

/-- The value that describes a carbon. -/
def carbonJson (carbon : Σ _ : Bytes, Node) : V :=
  let json := assign null [ascii "shard"] (ofString carbon.1)
  let json := assign json [ascii "host"] (ofString carbon.2.host)
  let json := assign json [ascii "port"] (ofInt (.ofInt carbon.2.port))
  let json := assign json [ascii "vnodes"] (ofInt (.ofInt carbon.2.vnodes))
  assign json [ascii "weight"] (ofInt (.ofInt carbon.2.weight))

/-- The value that describes a repeater, or an aggregator of the proxy. -/
def hostportJson (hostport : Hostport) : V :=
  assign (assign null [ascii "host"] (ofString hostport.host)) [ascii "port"]
    (ofInt (.ofInt hostport.port))

/-- `AggregatorConfig::to_json`. -/
def LoadedConfig.toJson (config : LoadedConfig) : V :=
  let root := config.toConfig.toJson
  let root := assign root [ascii "name"] (ofString config.name)
  let root := assign root [ascii "workers"] (ofInt config.workers)
  let root := assign root [ascii "frequency"] (ofInt (.ofInt config.frequency))
  let root := config.percentiles.foldl (fun root p =>
    update root [ascii "percentiles"] (append · (ofInt (.ofInt p)))) root
  let root := assign root [ascii "backends", ascii "stdout"] (ofBool config.backends.stdout)
  let root := config.backends.carbon.entries.foldl (fun root carbon =>
    update root [ascii "backends", ascii "carbon"] (append · (carbonJson carbon))) root
  config.backends.repeaters.foldl (fun root repeater =>
    update root [ascii "backends", ascii "repeater"] (append · (hostportJson repeater))) root

/-- `ProxyConfig::to_json`; each aggregator is assigned to the same member. -/
def ProxyConfig.toJson {Regex : Type} (config : ProxyConfig Regex) : V :=
  let root := config.toConfig.toJson
  let root := assign root [ascii "backends", ascii "stdout"] (ofBool config.stdout)
  config.aggregators.foldl (fun root aggregator =>
    assign root [ascii "backends", ascii "aggregator"] (hostportJson aggregator)) root

end ToJson

end Statsdcc
