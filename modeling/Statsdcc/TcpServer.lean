import Mathlib
import Statsdcc.UdpServer
import Statsdcc.Lib.Transition

/-!
# The TCP server

`TCPServer::listen` serves all connections in one thread. It collects the
characters that it reads in one buffer, `metric`, whatever connection they come
from, and ends a string at each newline. The string is for the consumer, but the
call of `consume` is commented out.

`completed` is a history variable: the strings ended in `metric`, each with the
connection that sent the newline.

## Main definitions

- `TcpServer.step` — what `listen` does with a descriptor that is ready
- `TcpServer.Passes` — the lines that are passed on for what one connection sends

## Main results

- `TcpServer.consumed_of_run` — no run passes anything to the consumer
- `TcpServer.passes_ne_listen` — the lines are never those of a datagram with the
  same contents
-/

open Bytes

namespace Statsdcc

/-- The local variables of `listen`: the connections in `active_fd_set`, and the
first `pos` characters of `metric`. -/
structure TcpServer where
  connections : List ℕ := []
  metric : Bytes := []
  consumed : List Bytes := []
  completed : List (ℕ × Bytes) := []
  deriving DecidableEq

/-- What a descriptor is ready for. -/
inductive TcpEvent
  | accept (fd : ℕ)
  /-- `readn` returns the bytes; `beyond` is the character of `buffer` behind them. -/
  | read (fd : ℕ) (bytes : Bytes) (beyond : Byte)
  /-- `readn` returns no bytes or an error. -/
  | close (fd : ℕ)
  deriving DecidableEq

namespace TcpServer

/-- One character of `buffer`, `none` when it is written outside of `metric`. -/
def putChar (fd : ℕ) (server : TcpServer) (c : Byte) : Option TcpServer :=
  if server.metric.length < maxMsgSize then
    if c = newline then
      -- the source has `consume(metric)` in a comment here
      some { server with metric := [], completed := server.completed ++ [(fd, server.metric)] }
    else some { server with metric := server.metric ++ [c] }
  else none

/-- One descriptor in the loop of `listen`, `none` when it is not ready for the event.
The loop over `buffer` goes to `bytes_read` and takes one character too many. -/
def step (server : TcpServer) : TcpEvent → Option TcpServer
  | .accept fd =>
    if fd ∈ server.connections then none
    else some { server with connections := fd :: server.connections }
  | .read fd bytes beyond =>
    if fd ∈ server.connections ∧ bytes ≠ [] ∧ bytes.length ≤ maxMsgSize - 1 then
      (bytes ++ [beyond]).foldlM (putChar fd) server
    else none
  | .close fd =>
    if fd ∈ server.connections then
      some { server with connections := server.connections.erase fd }
    else none

/-- A connection is made, read from and closed. -/
def oneConnection (fd : ℕ) (reads : List (Bytes × Byte)) : List TcpEvent :=
  .accept fd :: (reads.map fun r => .read fd r.1 r.2) ++ [.close fd]

/-- A new server may pass these lines to its consumer when one connection sends
the bytes, in any number of reads, and is closed. -/
def Passes (sent : Bytes) (lines : List Bytes) : Prop :=
  ∃ fd reads server, (reads.map Prod.fst).flatten = sent ∧
    Transition.run step {} (oneConnection fd reads) = some server ∧ server.consumed = lines

theorem consumed_of_putChars {fd : ℕ} {server server' : TcpServer} {cs : Bytes}
    (h : cs.foldlM (putChar fd) server = some server') : server'.consumed = server.consumed := by
  induction cs generalizing server with
  | nil =>
    rw [List.foldlM_nil, Option.pure_def, Option.some.injEq] at h
    rw [h]
  | cons c cs ih =>
    rw [List.foldlM_cons, Option.bind_eq_bind, Option.bind_eq_some_iff] at h
    obtain ⟨next, hnext, hrest⟩ := h
    rw [ih hrest]
    simp only [putChar] at hnext
    split_ifs at hnext <;> cases hnext <;> rfl

theorem consumed_of_step {server server' : TcpServer} {event : TcpEvent}
    (h : step server event = some server') : server'.consumed = server.consumed := by
  cases event with
  | accept fd =>
    simp only [step] at h
    split_ifs at h
    cases h
    rfl
  | read fd bytes beyond =>
    simp only [step] at h
    split_ifs at h
    exact consumed_of_putChars h
  | close fd =>
    simp only [step] at h
    split_ifs at h
    cases h
    rfl

/-- No string reaches the consumer. -/
theorem consumed_of_run {start server : TcpServer} {events : List TcpEvent}
    (hrun : Transition.run step start events = some server) : server.consumed = start.consumed :=
  Transition.run_induction (I := fun _ server => server.consumed = start.consumed) rfl
    (fun _ _ _ _ ih hstep => (consumed_of_step hstep).trans ih) hrun

/-- Characters that fit are all taken. -/
theorem exists_putChars (fd : ℕ) (server : TcpServer) (cs : Bytes)
    (hfit : server.metric.length + cs.length ≤ maxMsgSize) :
    ∃ server', cs.foldlM (putChar fd) server = some server' ∧
      server'.connections = server.connections := by
  induction cs generalizing server with
  | nil => exact ⟨server, rfl, rfl⟩
  | cons c cs ih =>
    rw [List.length_cons] at hfit
    have hroom : server.metric.length < maxMsgSize := by omega
    rw [List.foldlM_cons, putChar, if_pos hroom]
    by_cases hc : c = newline
    · rw [if_pos hc]
      refine ih _ ?_
      show 0 + cs.length ≤ maxMsgSize
      omega
    · rw [if_neg hc]
      refine ih _ ?_
      show (server.metric ++ [c]).length + cs.length ≤ maxMsgSize
      rw [List.length_append, List.length_singleton]
      omega

/-- A string that fits into one read is received. -/
theorem exists_passes {sent : Bytes} (hne : sent ≠ []) (hlength : sent.length < maxMsgSize - 1) :
    ∃ lines, Passes sent lines := by
  have hmax : maxMsgSize = 65536 := rfl
  have hfit : ([] : Bytes).length + (sent ++ [nul]).length ≤ maxMsgSize := by
    rw [List.length_append, List.length_singleton, List.length_nil]
    omega
  obtain ⟨server, hserver, hconnections⟩ := exists_putChars 0 { connections := [0] } _ hfit
  have hread : step { connections := [0] } (.read 0 sent nul) = some server := by
    rw [step, if_pos ⟨List.mem_singleton_self 0, hne, by omega⟩, hserver]
  have hclose : step server (.close 0) = some { server with connections := [] } := by
    rw [step, hconnections, if_pos (List.mem_singleton_self 0)]
    rfl
  have hrun : Transition.run step {} (oneConnection 0 [(sent, nul)]) =
      some { server with connections := [] } := by
    show (step { connections := [0] } (.read 0 sent nul)).bind _ = _
    rw [hread]
    show (step server (.close 0)).bind _ = _
    rw [hclose]
    rfl
  exact ⟨_, 0, [(sent, nul)], _, List.append_nil sent, hrun, rfl⟩

/-- **TCP and UDP never agree**: a text of lines is received on a connection, and
whatever is passed on for it are not the lines of a datagram with this text. -/
theorem passes_ne_listen {sent : Bytes} (hnul : nul ∉ sent) (hlength : sent.length < 65535)
    (hend : sent.getLast? = some newline) :
    (∃ lines, Passes sent lines) ∧ ∀ lines, Passes sent lines → lines ≠ UdpServer.listen sent := by
  have hmem : newline ∈ sent := List.mem_of_getLast? hend
  have hmax : maxMsgSize = 65536 := rfl
  constructor
  · exact exists_passes (List.ne_nil_of_mem hmem) (by omega)
  · rintro lines ⟨fd, reads, server, -, hrun, rfl⟩
    rw [consumed_of_run hrun, UdpServer.listen, List.take_of_length_le (by omega),
      cStr_eq_self hnul]
    exact (getlinesFrom_ne_nil hmem []).symm

theorem passes_ne_listen_counter :
    (∃ lines, Passes (ascii "a:1|c\n") lines) ∧
      ∀ lines, Passes (ascii "a:1|c\n") lines → lines ≠ UdpServer.listen (ascii "a:1|c\n") :=
  passes_ne_listen (by decide) (by decide) (by decide)

/-- One line is sent, and nothing is passed on for it. -/
theorem counter_not_passed :
    Passes (ascii "a:1|c\n") [] ∧ UdpServer.listen (ascii "a:1|c\n") = [ascii "a:1|c"] := by
  constructor
  · exact ⟨0, [(ascii "a:1|c\n", nul)], _, rfl, rfl, rfl⟩
  · decide

end TcpServer

end Statsdcc
