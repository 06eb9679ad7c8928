import Mathlib
import Statsdcc.Config.ToJson

/-!
# Reading published settings again

What the constructor of `Config` makes of a document with the members that
`Config::to_json` writes. A configuration that was itself read from a document is read
again with the settings that are written, and with the defaults for those that are not.

## Main definitions

- `Config.Built` — what holds of every configuration that was read from a document
- `Config.republished` — the settings that are read again
- `Config.Published` — the settings that are written, or have their defaults

## Main results

- `Config.ofJson_of_lookup` — the second reading
- `Config.eq_republished_iff` — when it has the settings of the first one
-/

open Bytes JsonValue JsonDocument

namespace Statsdcc

namespace Config

/-- A port is enabled just when it was given. -/
structure Built (config : Config) : Prop where
  tcp : config.servers.tcp.enabled = decide (config.servers.tcp.port ≠ -1)
  udp : config.servers.udp.enabled = decide (config.servers.udp.port ≠ -1)

theorem built_of_ofJson {V : Type} [JsonValue V] {json : V} {config : Config}
    (h : Config.ofJson json = some config) : config.Built := by
  simp only [Config.ofJson, TcpSettings.ofJson, UdpSettings.ofJson, Option.bind_eq_bind,
    Option.bind_eq_some_iff, Option.pure_def, Option.some.injEq] at h
  obtain ⟨_, _, _, _, _, ⟨_, _, rfl⟩, _, _, _, ⟨_, _, _, _, _, _, rfl⟩, _, _, _, _, _, _, _, _,
    rfl⟩ := h
  exact ⟨rfl, rfl⟩

/-- The settings that are read again, for a document with a number of workers. -/
def republished (config : Config) (workers : Int32) : Config where
  servers :=
    { tcp := config.servers.tcp
      udp :=
        { config.servers.udp with
          threads := if config.servers.udp.enabled then config.servers.udp.threads else 1
          recvBuffer := 8388608 }
      http :=
        if config.servers.http.enabled then config.servers.http
        else { port := 8080, enabled := true } }
  workers := workers
  logLevel := config.logLevel

section ToJson

variable {V : Type} [JsonDocument V]

/-- The settings of the tcp server as they are written. -/
theorem toJson_tcp (servers : Servers) :
    Container (child (child (servers.toJson : V) (ascii "servers")) (ascii "tcp")) ∧
      lookup (child (child (servers.toJson : V) (ascii "servers")) (ascii "tcp")) (ascii "port") =
        if servers.tcp.enabled then some (ofInt servers.tcp.port) else none := by
  rcases servers with ⟨⟨port, tcp⟩, ⟨_, _, _, udp⟩, ⟨_, http⟩⟩
  cases tcp <;> cases udp <;> cases http <;>
    simp (disch := first | decide | repeat first | exact container_null | apply container_set) only
      [Servers.toJson, assign, update, if_true, Bool.false_eq_true, if_false, lookup_set,
        child_set_self, child_set_of_ne, container_set, container_null, child_null, lookup_null,
        and_self]

/-- The settings of the udp servers as they are written. -/
theorem toJson_udp (servers : Servers) :
    let udp : V := child (child servers.toJson (ascii "servers")) (ascii "udp")
    Container udp ∧
      lookup udp (ascii "port") =
        (if servers.udp.enabled then some (ofInt servers.udp.port) else none) ∧
      lookup udp (ascii "threads") =
        (if servers.udp.enabled then some (ofInt servers.udp.threads) else none) ∧
      lookup udp (ascii "recv_buffer") = none := by
  have hport : ascii "port" ≠ ascii "threads" := by decide
  have hrecv : ascii "recv_buffer" ≠ ascii "threads" := by decide
  have hrecv' : ascii "recv_buffer" ≠ ascii "port" := by decide
  rcases servers with ⟨⟨_, tcp⟩, ⟨port, threads, _, udp⟩, ⟨_, http⟩⟩
  cases tcp <;> cases udp <;> cases http <;>
    simp (disch := first | decide | repeat first | exact container_null | apply container_set) only
      [Servers.toJson, assign, update, if_true, Bool.false_eq_true, if_false, lookup_set,
        child_set_self, child_set_of_ne, container_set, container_null, child_null, lookup_null,
        hport, hrecv, hrecv', and_self]

/-- The settings of the http server as they are written. -/
theorem toJson_http (servers : Servers) :
    let http : V := child (child servers.toJson (ascii "servers")) (ascii "http")
    Container http ∧
      lookup http (ascii "port") =
        (if servers.http.enabled then some (ofInt servers.http.port) else none) ∧
      lookup http (ascii "enabled") = none := by
  have henabled : ascii "enabled" ≠ ascii "port" := by decide
  rcases servers with ⟨⟨_, tcp⟩, ⟨_, _, _, udp⟩, ⟨port, http⟩⟩
  cases tcp <;> cases udp <;> cases http <;>
    simp (disch := first | decide | repeat first | exact container_null | apply container_set) only
      [Servers.toJson, assign, update, if_true, Bool.false_eq_true, if_false, lookup_set,
        child_set_self, child_set_of_ne, container_set, container_null, child_null, lookup_null,
        henabled, and_self]

theorem container_toJson_servers (servers : Servers) :
    Container (servers.toJson : V) ∧ Container (child (servers.toJson : V) (ascii "servers")) := by
  rcases servers with ⟨⟨_, tcp⟩, ⟨_, _, _, udp⟩, ⟨_, http⟩⟩
  cases tcp <;> cases udp <;> cases http <;>
    simp (disch := repeat first | exact container_null | apply container_set) only
      [Servers.toJson, assign, update, if_true, Bool.false_eq_true, if_false, child_set_self,
        container_set, container_null, child_null, and_self]

theorem lookup_toJson_of_ne_servers (servers : Servers) {k : Bytes} (h : k ≠ ascii "servers") :
    lookup (servers.toJson : V) k = none := by
  rw [Servers.toJson]
  split_ifs <;>
    simp (disch := repeat first | exact container_null | apply container_set) only
      [assign, update, lookup_set, if_neg h, lookup_null]

theorem container_toJson (config : Config) : Container (config.toJson : V) := by
  have hservers := (container_toJson_servers (V := V) config.servers).1
  rw [toJson]
  split_ifs <;> first | exact hservers | exact container_update hservers _ _ _

theorem lookup_servers_toJson (config : Config) :
    lookup (config.toJson : V) (ascii "servers") =
      lookup (config.servers.toJson : V) (ascii "servers") := by
  have hservers := (container_toJson_servers (V := V) config.servers).1
  have hne : ascii "servers" ≠ ascii "log_level" := by decide
  rw [toJson]
  split_ifs <;> first | rfl | exact lookup_update hservers hne _ _

/-- `Config::to_json` writes two members. -/
theorem lookup_toJson_of_ne (config : Config) {k : Bytes} (hservers : k ≠ ascii "servers")
    (hlevel : k ≠ ascii "log_level") : lookup (config.toJson : V) k = none := by
  have hcontainer := (container_toJson_servers (V := V) config.servers).1
  have hnone := lookup_toJson_of_ne_servers (V := V) config.servers hservers
  rw [toJson]
  split_ifs <;> first | exact hnone | exact (lookup_update hcontainer hlevel _ _).trans hnone

/-- Every level is read as it was written, `warn` as the default. -/
theorem toJson_log_level (config : Config) :
    (asString ((lookup (config.toJson : V) (ascii "log_level")).getD
      (ofString (ascii "warn")))).map LogLevel.ofText = some config.logLevel := by
  have hcontainer := (container_toJson_servers (V := V) config.servers).1
  rw [toJson]
  cases config.logLevel with
  | warn =>
    rw [if_neg (by decide), if_neg (by decide), if_neg (by decide), if_neg (by decide),
      lookup_toJson_of_ne_servers config.servers (by decide), Option.getD_none,
      JsonMembers.asString_ofString]
    rfl
  | debug | info | error =>
    simp only [reduceCtorEq, if_true, if_false]
    rw [lookup_assign_self hcontainer, Option.getD_some, JsonMembers.asString_ofString]
    rfl

/-- The port of a server that is enabled; a server that is not has none. -/
theorem tcp_ofJson {tcp : TcpSettings} (hbuilt : tcp.enabled = decide (tcp.port ≠ -1)) {json : V}
    (hjson : Container json)
    (hport : lookup json (ascii "port") = if tcp.enabled then some (ofInt tcp.port) else none) :
    TcpSettings.ofJson json = some tcp := by
  obtain ⟨port, enabled⟩ := tcp
  obtain rfl : enabled = decide (port ≠ -1) := hbuilt
  have hget : getInt json (ascii "port") (-1) = some port := by
    rw [hjson.getInt_eq, hport]
    by_cases h : port = -1
    · subst h
      exact asInt_ofInt _
    · rw [if_pos (decide_eq_true h), Option.getD_some, asInt_ofInt]
  rw [TcpSettings.ofJson, hget]
  rfl

theorem udp_ofJson {udp : UdpSettings} (hbuilt : udp.enabled = decide (udp.port ≠ -1)) {json : V}
    (hjson : Container json)
    (hport : lookup json (ascii "port") = if udp.enabled then some (ofInt udp.port) else none)
    (hthreads : lookup json (ascii "threads") =
      if udp.enabled then some (ofInt udp.threads) else none)
    (hrecv : lookup json (ascii "recv_buffer") = none) :
    UdpSettings.ofJson json = some { udp with
      threads := if udp.enabled then udp.threads else 1
      recvBuffer := 8388608 } := by
  obtain ⟨port, threads, recvBuffer, enabled⟩ := udp
  obtain rfl : enabled = decide (port ≠ -1) := hbuilt
  have hgetRecv : getInt json (ascii "recv_buffer") 8388608 = some 8388608 := by
    rw [hjson.getInt_eq, hrecv, Option.getD_none, asInt_ofInt]
  by_cases h : port = -1
  · subst h
    have hget : getInt json (ascii "port") (-1) = some (-1) := by
      rw [hjson.getInt_eq, hport]
      exact asInt_ofInt _
    have hgetThreads : getInt json (ascii "threads") 1 = some 1 := by
      rw [hjson.getInt_eq, hthreads]
      exact asInt_ofInt _
    rw [UdpSettings.ofJson, hget, hgetThreads, hgetRecv]
    rfl
  · have hget : getInt json (ascii "port") (-1) = some port := by
      rw [hjson.getInt_eq, hport, if_pos (decide_eq_true h), Option.getD_some, asInt_ofInt]
    have hgetThreads : getInt json (ascii "threads") 1 = some threads := by
      rw [hjson.getInt_eq, hthreads, if_pos (decide_eq_true h), Option.getD_some, asInt_ofInt]
    rw [UdpSettings.ofJson, hget, hgetThreads, hgetRecv, if_pos (decide_eq_true h)]
    rfl

theorem http_ofJson (http : HttpSettings) {json : V} (hjson : Container json)
    (hport : lookup json (ascii "port") = if http.enabled then some (ofInt http.port) else none)
    (henabled : lookup json (ascii "enabled") = none) :
    HttpSettings.ofJson json =
      some (if http.enabled then http else { port := 8080, enabled := true }) := by
  obtain ⟨port, enabled⟩ := http
  have hgetEnabled : getBool json (ascii "enabled") true = some true := by
    rw [hjson.getBool_eq, henabled, Option.getD_none, asBool_ofBool]
  cases enabled with
  | false =>
    have hget : getInt json (ascii "port") 8080 = some 8080 := by
      rw [hjson.getInt_eq, hport]
      exact asInt_ofInt _
    rw [HttpSettings.ofJson, hget, hgetEnabled]
    rfl
  | true =>
    have hget : getInt json (ascii "port") 8080 = some port := by
      rw [hjson.getInt_eq, hport]
      exact asInt_ofInt _
    rw [HttpSettings.ofJson, hget, hgetEnabled]
    rfl

end ToJson

/-- The settings that are written, or that have the values of a document without them. -/
structure Published (config : Config) : Prop where
  threads : config.servers.udp.enabled = true ∨ config.servers.udp.threads = 1
  recvBuffer : config.servers.udp.recvBuffer = 8388608
  http : config.servers.http.enabled = true

theorem eq_republished_iff (config : Config) (workers : Int32) :
    config = config.republished workers ↔ config.Published ∧ config.workers = workers := by
  obtain ⟨⟨tcp, ⟨port, threads, recvBuffer, udp⟩, ⟨httpPort, http⟩⟩, configWorkers, level⟩ := config
  constructor
  · intro h
    rw [republished, Config.mk.injEq, Servers.mk.injEq, UdpSettings.mk.injEq] at h
    obtain ⟨⟨-, ⟨-, hthreads, hrecv, -⟩, hhttp⟩, hworkers, -⟩ := h
    refine ⟨⟨?_, hrecv, ?_⟩, hworkers⟩
    · cases udp with
      | true => exact .inl rfl
      | false => exact .inr hthreads
    · cases http with
      | true => rfl
      | false => exact (congrArg HttpSettings.enabled hhttp)
  · rintro ⟨⟨hthreads, hrecv, hhttp⟩, hworkers⟩
    obtain rfl : recvBuffer = 8388608 := hrecv
    obtain rfl : http = true := hhttp
    obtain rfl : configWorkers = workers := hworkers
    cases udp with
    | true => rfl
    | false =>
      obtain rfl : threads = 1 := hthreads.resolve_left Bool.false_ne_true
      rfl

/-- A document that has the servers and the level of `to_json`, and a number of workers. -/
theorem ofJson_of_lookup {V : Type} [JsonDocument V] {config : Config} (hbuilt : config.Built)
    {json : V} {workers : Int32} (hjson : Container json)
    (hservers : lookup json (ascii "servers") = lookup (config.toJson : V) (ascii "servers"))
    (hlevel : lookup json (ascii "log_level") = lookup (config.toJson : V) (ascii "log_level"))
    (hworkers : getInt json (ascii "workers") 1 = some workers) :
    Config.ofJson json = some (config.republished workers) := by
  have hchild : child json (ascii "servers") = child config.servers.toJson (ascii "servers") := by
    rw [child, hservers, lookup_servers_toJson, child]
  have hcontainer := (container_toJson_servers (V := V) config.servers).2
  have hlog : (getString json (ascii "log_level") (ascii "warn")).map LogLevel.ofText =
      some config.logLevel := by
    rw [hjson.getString_eq, hlevel]
    exact toJson_log_level config
  obtain ⟨level, hread, hof⟩ := Option.map_eq_some_iff.mp hlog
  obtain ⟨htcp, htcpPort⟩ := toJson_tcp (V := V) config.servers
  obtain ⟨hudp, hudpPort, hudpThreads, hudpRecv⟩ := toJson_udp (V := V) config.servers
  obtain ⟨hhttp, hhttpPort, hhttpEnabled⟩ := toJson_http (V := V) config.servers
  rw [Config.ofJson, hjson.subscript_eq, hchild]
  simp only [Option.bind_eq_bind, Option.bind_some, hcontainer.subscript_eq,
    tcp_ofJson hbuilt.tcp htcp htcpPort, udp_ofJson hbuilt.udp hudp hudpPort hudpThreads hudpRecv,
    http_ofJson config.servers.http hhttp hhttpPort hhttpEnabled, hworkers, hread, hof,
    Option.pure_def]
  rfl

end Config

end Statsdcc
