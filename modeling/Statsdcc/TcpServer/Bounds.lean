import Mathlib
import Statsdcc.TcpServer.Lines

/-!
# The bounds of the TCP buffers

`TCPServer::listen` copies the characters of `buffer` to `metric` without a test of
`pos`. Its accesses to the two arrays are listed for any events, also behind one that
is out of bounds.

## Main definitions

- `TcpServer.accesses` — the accesses to `buffer` and `metric`
- `TcpServer.positions` — the values of `pos` that characters are written at

## Main results

- `TcpServer.exists_run_iff` — the runs of `TcpServer.step` are those that write inside
  of `metric`
- `TcpServer.in_bounds_iff` — which events keep the accesses in bounds
-/

open Bytes Segments

namespace Statsdcc

namespace TcpServer

/-- An access to one of the arrays of `listen`. -/
inductive Access
  /-- `buffer[index]` is read behind a `readn` of so many bytes. -/
  | buffer (index bytesRead : ℕ)
  /-- `metric[pos]` is written. -/
  | metric (pos : ℕ)
  deriving DecidableEq

/-- `pos` behind a character. -/
def nextPos (pos : ℕ) (c : Byte) : ℕ := if c = newline then 0 else pos + 1

/-- The accesses of the loop over `buffer`, from an index on. -/
def charAccesses (bytesRead : ℕ) : ℕ → ℕ → Bytes → List Access
  | _, _, [] => []
  | index, pos, c :: cs =>
    .buffer index bytesRead :: .metric pos :: charAccesses bytesRead (index + 1) (nextPos pos c) cs

/-- The characters that an event copies, with the one behind the bytes that were read. -/
def copied : TcpEvent → Bytes
  | .read _ bytes beyond => if bytes = [] then [] else bytes ++ [beyond]
  | _ => []

/-- The accesses for an event; a connection that sends no bytes is closed. -/
def eventAccesses (pos : ℕ) : TcpEvent → List Access
  | .read fd bytes beyond => charAccesses bytes.length 0 pos (copied (.read fd bytes beyond))
  | _ => []

/-- The accesses of `listen`. -/
def accesses : ℕ → List TcpEvent → List Access
  | _, [] => []
  | pos, event :: events =>
    eventAccesses pos event ++ accesses ((copied event).foldl nextPos pos) events

/-- The values of `pos` at which characters are written. -/
def positions : ℕ → Bytes → List ℕ
  | _, [] => []
  | pos, c :: cs => pos :: positions (nextPos pos c) cs

theorem positions_append (pos : ℕ) (cs ds : Bytes) :
    positions pos (cs ++ ds) = positions pos cs ++ positions (cs.foldl nextPos pos) ds := by
  induction cs generalizing pos with
  | nil => rfl
  | cons c cs ih =>
    rw [List.cons_append, positions, ih, positions, List.foldl_cons, List.cons_append]

theorem mem_positions {p pos : ℕ} {cs : Bytes} :
    p ∈ positions pos cs ↔
      ∃ front c rest, cs = front ++ c :: rest ∧ p = front.foldl nextPos pos := by
  constructor
  · intro h
    induction cs generalizing pos with
    | nil => cases h
    | cons c cs ih =>
      rcases List.mem_cons.mp h with rfl | h
      · exact ⟨[], c, cs, rfl, rfl⟩
      · obtain ⟨front, d, rest, rfl, hp⟩ := ih h
        exact ⟨c :: front, d, rest, rfl, hp⟩
  · rintro ⟨front, c, rest, rfl, rfl⟩
    rw [positions_append]
    exact List.mem_append_right _ List.mem_cons_self

/-- `pos` is the number of characters behind the last newline. -/
theorem foldl_nextPos (cs : Bytes) : cs.foldl nextPos 0 = (pending newline cs).length := by
  induction cs using List.reverseRecOn with
  | nil => rfl
  | append_singleton cs c ih =>
    rw [List.foldl_append, ih, List.foldl_cons, List.foldl_nil, nextPos]
    by_cases hc : c = newline
    · rw [if_pos hc, hc, pending_append_cons]
      rfl
    · have hnot : newline ∉ [c] := by
        rw [List.mem_singleton]
        exact Ne.symm hc
      rw [if_neg hc, pending_append_of_notMem _ hnot, List.length_append, List.length_singleton]

/-- The positions are in bounds when no line is too long. -/
theorem positions_lt_iff (cs : Bytes) (bound : ℕ) :
    (∀ p ∈ positions 0 cs, p < bound) ↔ ∀ front line c rest,
      cs = front ++ line ++ c :: rest → newline ∉ line → line.length < bound := by
  constructor
  · intro h front line c rest hcs hline
    have hlt := h _ (mem_positions.mpr ⟨front ++ line, c, rest, hcs, rfl⟩)
    rw [foldl_nextPos, pending_append_of_notMem _ hline, List.length_append] at hlt
    omega
  · intro h p hp
    obtain ⟨front, c, rest, rfl, rfl⟩ := mem_positions.mp hp
    have hnot : newline ∉ pending newline front := notMem_pending front
    obtain ⟨before, hbefore⟩ : pending newline front <:+ front := (pending_spec front).2
    rw [foldl_nextPos]
    exact h before _ c rest (by rw [hbefore]) hnot

/-- A loop over characters stays in `metric` when their positions do. -/
theorem exists_putChars_iff (fd : ℕ) (server : TcpServer) (cs : Bytes) :
    (∃ server', cs.foldlM (putChar fd) server = some server') ↔
      ∀ p ∈ positions server.metric.length cs, p < maxMsgSize := by
  induction cs generalizing server with
  | nil => exact ⟨fun _ p hp => absurd hp List.not_mem_nil, fun _ => ⟨server, rfl⟩⟩
  | cons c cs ih =>
    rw [List.foldlM_cons, positions, List.forall_mem_cons, putChar, nextPos]
    by_cases hroom : server.metric.length < maxMsgSize
    · rw [if_pos hroom]
      by_cases hc : c = newline
      · rw [if_pos hc, if_pos hc]
        exact (ih _).trans (and_iff_right hroom).symm
      · rw [if_neg hc, if_neg hc]
        have hnext := ih { server with metric := server.metric ++ [c] }
        rw [List.length_append, List.length_singleton] at hnext
        exact hnext.trans (and_iff_right hroom).symm
    · rw [if_neg hroom]
      constructor
      · rintro ⟨server', h⟩
        cases h
      · exact fun h => absurd h.1 hroom

theorem length_metric_of_putChars {fd : ℕ} {server server' : TcpServer} {cs : Bytes}
    (h : cs.foldlM (putChar fd) server = some server') :
    server'.metric.length = cs.foldl nextPos server.metric.length ∧
      server'.connections = server.connections := by
  induction cs generalizing server with
  | nil =>
    cases h
    exact ⟨rfl, rfl⟩
  | cons c cs ih =>
    rw [List.foldlM_cons, Option.bind_eq_bind, Option.bind_eq_some_iff] at h
    obtain ⟨next, hnext, hrest⟩ := h
    obtain ⟨hlength, hconnections⟩ := ih hrest
    rw [hlength, hconnections, List.foldl_cons, nextPos]
    simp only [putChar] at hnext
    split_ifs at hnext ⊢ <;> cases hnext <;> simp

/-- A run goes on as long as its characters are written inside of `metric`. -/
theorem exists_run_iff {connections : List ℕ} {events : List TcpEvent} {server : TcpServer}
    (hvalid : Transition.run connectionStep server.connections events = some connections) :
    (∃ server', Transition.run step server events = some server') ↔
      ∀ p ∈ positions server.metric.length (events.flatMap copied), p < maxMsgSize := by
  induction events generalizing server with
  | nil => exact ⟨fun _ p hp => absurd hp List.not_mem_nil, fun _ => ⟨server, rfl⟩⟩
  | cons event events ih =>
    obtain ⟨next, hnext, hrest⟩ := Option.bind_eq_some_iff.mp hvalid
    rw [Transition.run_cons, List.flatMap_cons, positions_append]
    cases event with
    | accept fd =>
      simp only [connectionStep] at hnext
      split_ifs at hnext with hopen
      cases hnext
      rw [step, if_neg hopen]
      exact @ih { server with connections := fd :: server.connections } hrest
    | close fd =>
      simp only [connectionStep] at hnext
      split_ifs at hnext with hopen
      cases hnext
      rw [step, if_pos hopen]
      exact @ih { server with connections := server.connections.erase fd } hrest
    | read fd bytes beyond =>
      simp only [connectionStep] at hnext
      split_ifs at hnext with hopen
      cases hnext
      rw [step, if_pos hopen, copied, if_neg hopen.2.1, List.forall_mem_append,
        ← exists_putChars_iff fd]
      constructor
      · rintro ⟨server', hrun⟩
        obtain ⟨mid, hmid, hback⟩ := Option.bind_eq_some_iff.mp hrun
        obtain ⟨hlength, hsame⟩ := length_metric_of_putChars hmid
        refine ⟨⟨mid, hmid⟩, ?_⟩
        rw [← hlength]
        exact (ih (hsame ▸ hrest)).mp ⟨server', hback⟩
      · rintro ⟨⟨mid, hmid⟩, hback⟩
        obtain ⟨hlength, hsame⟩ := length_metric_of_putChars hmid
        rw [← hlength] at hback
        rw [hmid]
        exact (ih (hsame ▸ hrest)).mpr hback

-- ════════════════════════════════════════════════════════════════════════
-- The accesses
-- ════════════════════════════════════════════════════════════════════════

theorem mem_charAccesses_metric {bytesRead index pos p : ℕ} {cs : Bytes} :
    .metric p ∈ charAccesses bytesRead index pos cs ↔ p ∈ positions pos cs := by
  induction cs generalizing index pos with
  | nil => simp [charAccesses, positions]
  | cons c cs ih => simp [charAccesses, positions, ih]

theorem mem_charAccesses_buffer {bytesRead index pos i n : ℕ} {cs : Bytes} :
    .buffer i n ∈ charAccesses bytesRead index pos cs ↔
      n = bytesRead ∧ index ≤ i ∧ i < index + cs.length := by
  induction cs generalizing index pos with
  | nil =>
    simp only [charAccesses, List.not_mem_nil, List.length_nil, false_iff]
    omega
  | cons c cs ih =>
    simp only [charAccesses, List.mem_cons, Access.buffer.injEq, reduceCtorEq, false_or, ih,
      List.length_cons]
    omega

theorem mem_eventAccesses_metric {pos p : ℕ} {event : TcpEvent} :
    .metric p ∈ eventAccesses pos event ↔ p ∈ positions pos (copied event) := by
  cases event with
  | accept fd | close fd => simp [eventAccesses, copied, positions]
  | read fd bytes beyond => exact mem_charAccesses_metric

/-- Characters are written at the positions. -/
theorem mem_accesses_metric {pos p : ℕ} {events : List TcpEvent} :
    .metric p ∈ accesses pos events ↔ p ∈ positions pos (events.flatMap copied) := by
  induction events generalizing pos with
  | nil => simp [accesses, positions]
  | cons event events ih =>
    rw [accesses, List.mem_append, mem_eventAccesses_metric, ih, List.flatMap_cons,
      positions_append, List.mem_append]

/-- A read that copies anything goes one character too far. -/
theorem mem_eventAccesses_buffer {pos : ℕ} {event : TcpEvent} :
    (∀ i n, .buffer i n ∈ eventAccesses pos event → i < n) ↔ copied event = [] := by
  cases event with
  | accept fd | close fd => exact ⟨fun _ => rfl, fun _ _ _ h => absurd h List.not_mem_nil⟩
  | read fd bytes beyond =>
    simp only [eventAccesses, mem_charAccesses_buffer]
    by_cases hnil : bytes = []
    · simp [copied, hnil]
    · rw [copied, if_neg hnil]
      refine ⟨fun h => ?_, fun h => absurd h (by simp)⟩
      exact absurd (h bytes.length bytes.length ⟨rfl, by simp⟩) (lt_irrefl _)

theorem mem_accesses_buffer {pos : ℕ} {events : List TcpEvent} :
    (∀ i n, .buffer i n ∈ accesses pos events → i < n) ↔
      ∀ event ∈ events, copied event = [] := by
  induction events generalizing pos with
  | nil => simp [accesses]
  | cons event events ih =>
    simp only [accesses, List.mem_append, or_imp, forall_and, List.forall_mem_cons]
    rw [mem_eventAccesses_buffer, ih]

/-- **The bounds of `listen`**: an index of `buffer` is below the number of bytes that
were read only when nothing is read at all, and `pos` is below `MAX_MSG_SIZE` just when
no line of the copied characters has that length in front of a character. -/
theorem in_bounds_iff (events : List TcpEvent) :
    ((∀ i n, .buffer i n ∈ accesses 0 events → i < n) ↔
      ∀ event ∈ events, copied event = []) ∧
    ((∀ pos, .metric pos ∈ accesses 0 events → pos < maxMsgSize) ↔
      ∀ front line c rest, events.flatMap copied = front ++ line ++ c :: rest →
        newline ∉ line → line.length < maxMsgSize) := by
  refine ⟨mem_accesses_buffer, ?_⟩
  simp only [mem_accesses_metric]
  exact positions_lt_iff _ _

/-- A line without a newline is written at its length, with the character behind it. -/
theorem metric_mem_accesses (fd : ℕ) {line : Bytes} (hne : line ≠ []) {c : Byte}
    (hline : newline ∉ line ++ [c]) :
    .metric (line.length + 1) ∈ accesses 0 [.accept fd, .read fd line c, .read fd [c] nul] := by
  rw [mem_accesses_metric, mem_positions]
  refine ⟨line ++ [c], c, [nul], ?_, ?_⟩
  · simp [copied, hne]
  · rw [foldl_nextPos, pending_of_notMem hline, List.length_append, List.length_singleton]

/-- A read of one byte reads two characters, and a full read and one more byte write
behind the end of `metric`. -/
theorem not_in_bounds :
    ¬(∀ i n, .buffer i n ∈ accesses 0 [.accept 4, .read 4 (ascii "a") nul] → i < n) ∧
    ¬∀ pos, .metric pos ∈ accesses 0
      [.accept 4, .read 4 (List.replicate 65535 120) 120, .read 4 [120] nul] →
        pos < maxMsgSize := by
  constructor
  · exact fun h => absurd (h 1 1 (by decide)) (by decide)
  · have hne : List.replicate 65535 (120 : Byte) ≠ [] := by
      rw [Ne, List.replicate_eq_nil_iff]
      exact Nat.succ_ne_zero 65534
    have hline : newline ∉ List.replicate 65535 120 ++ [120] := by
      rw [List.mem_append, List.mem_singleton, List.mem_replicate]
      rintro (⟨-, h⟩ | h) <;> exact absurd h (by decide)
    have hmem := metric_mem_accesses 4 hne hline
    rw [List.length_replicate] at hmem
    exact fun h => absurd (h _ hmem) (lt_irrefl 65536)

end TcpServer

end Statsdcc
