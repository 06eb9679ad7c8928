import Mathlib
import Statsdcc.UdpServer
import Statsdcc.Lib.Transition

/-!
# The loop of the UDP server

`UDPServer::listen` receives every datagram into the same buffer, which is longer
than `MAX_MSG_SIZE` by the terminator that it writes behind the datagram. A
receive that times out is tried again, and any other error ends the loop, as
`done` does when it is found at the top.

`received` and `stoppedAt` are history variables: the datagrams so far, and how
many they were when `done` was set.

## Main definitions

- `UdpLoop.step` — one step of a server thread, or of `~Server`

## Main results

- `UdpLoop.terminated_of_run` — there is a terminator in the buffer after every run
- `UdpLoop.own_lines_of_run` — the lines consumed are those of each datagram alone
-/

open Bytes

namespace Statsdcc

/-- What `recvfrom` returns. -/
inductive RecvResult
  | datagram (bytes : Bytes)
  /-- `-1`, with `EAGAIN` or `EWOULDBLOCK`: nothing came in time. -/
  | again
  | error
  deriving DecidableEq

inductive UdpPc
  /-- `while (!this->done)` -/
  | test
  | recv
  /-- The socket is closed. -/
  | closed
  deriving DecidableEq

/-- A thread of the server. -/
structure UdpLoop where
  buff : Bytes := List.replicate (maxMsgSize + 1) nul
  pc : UdpPc := .test
  done : Bool := false
  consumed : List Bytes := []
  received : List Bytes := []
  stoppedAt : Option ℕ := none

inductive UdpAction
  | test
  | recv (result : RecvResult)
  /-- `~Server` sets `done`. -/
  | stop
  deriving DecidableEq

namespace UdpLoop

/-- The kernel copies a datagram to the front of the buffer, as far as it fits. -/
def fill (buff datagram : Bytes) : Bytes :=
  let bytes := datagram.take maxMsgSize
  bytes ++ buff.drop bytes.length

/-- `buff[length] = '\0'`, `none` behind the end of the buffer. -/
def terminate (buff : Bytes) (length : ℕ) : Option Bytes :=
  if length < buff.length then some (buff.set length nul) else none

/-- One step, `none` when it is not enabled. -/
def step (s : UdpLoop) : UdpAction → Option UdpLoop
  | .test =>
    match s.pc with
    | .test => some { s with pc := if s.done then .closed else .recv }
    | _ => none
  | .recv result =>
    match s.pc, result with
    | .recv, .datagram bytes =>
      (terminate (fill s.buff bytes) (bytes.take maxMsgSize).length).map fun buff =>
        { s with
          buff
          pc := .test
          consumed := s.consumed ++ getlines (cStr buff)
          received := s.received ++ [bytes] }
    | .recv, .again => some { s with pc := .test }
    | .recv, .error => some { s with pc := .closed }
    | _, _ => none
  | .stop =>
    if s.done then none
    else some { s with done := true, stoppedAt := some s.received.length }

/-- A string is read up to the terminator that was written behind it, whatever is
left in the buffer from before. -/
theorem cStr_set_append (bytes rest : Bytes) (hrest : rest ≠ []) :
    cStr ((bytes ++ rest).set bytes.length nul) = cStr bytes := by
  obtain ⟨c, cs, rfl⟩ := List.exists_cons_of_ne_nil hrest
  rw [List.set_append_right _ _ (Nat.le_refl _), Nat.sub_self, List.set_cons_zero]
  induction bytes with
  | nil => rfl
  | cons b bytes ih =>
    rw [List.cons_append, cStr, cStr, List.takeWhile_cons, List.takeWhile_cons]
    split_ifs
    · exact congrArg (b :: ·) ih
    · rfl

section Steps

variable {s s' : UdpLoop}

/-- The buffer keeps its length, has a terminator, and shows nothing of the datagrams
before the last one. -/
structure Terminated (s : UdpLoop) : Prop where
  length : s.buff.length = maxMsgSize + 1
  nul : nul ∈ s.buff
  consumed : s.consumed = s.received.flatMap UdpServer.listen

/-- The terminator fits into the buffer behind every datagram. -/
theorem terminate_fill {buff : Bytes} (hlength : buff.length = maxMsgSize + 1) (datagram : Bytes) :
    ∃ buff', terminate (fill buff datagram) (datagram.take maxMsgSize).length = some buff' ∧
      buff'.length = maxMsgSize + 1 ∧ nul ∈ buff' ∧
      getlines (cStr buff') = UdpServer.listen datagram := by
  have hshort : (datagram.take maxMsgSize).length ≤ maxMsgSize := List.length_take_le _ _
  have hfill : (fill buff datagram).length = maxMsgSize + 1 := by
    rw [fill, List.length_append, List.length_drop, hlength]
    omega
  have hrest : buff.drop (datagram.take maxMsgSize).length ≠ [] := by
    rw [Ne, List.drop_eq_nil_iff, hlength]
    omega
  have hin : (datagram.take maxMsgSize).length < (fill buff datagram).length := by
    rw [hfill]
    exact Nat.lt_succ_of_le hshort
  refine ⟨_, if_pos hin, ?_, List.mem_set hin nul, ?_⟩
  · rw [List.length_set, hfill]
  · rw [fill, cStr_set_append _ _ hrest]
    rfl

theorem Terminated.step {a : UdpAction} (h : s.Terminated) (hstep : UdpLoop.step s a = some s') :
    s'.Terminated := by
  cases a with
  | test =>
    simp only [UdpLoop.step] at hstep
    split at hstep <;> cases hstep
    exact ⟨h.length, h.nul, h.consumed⟩
  | recv result =>
    simp only [UdpLoop.step] at hstep
    split at hstep
    case h_1 bytes hpc =>
      obtain ⟨buff, hbuff, hlength, hnul, hlines⟩ := terminate_fill h.length bytes
      rw [hbuff] at hstep
      cases hstep
      refine ⟨hlength, hnul, ?_⟩
      show s.consumed ++ getlines (cStr buff) = (s.received ++ [bytes]).flatMap _
      rw [hlines, h.consumed, List.flatMap_append, List.flatMap_singleton]
    case h_2 =>
      cases hstep
      exact ⟨h.length, h.nul, h.consumed⟩
    case h_3 =>
      cases hstep
      exact ⟨h.length, h.nul, h.consumed⟩
    case h_4 => cases hstep
  | stop =>
    simp only [UdpLoop.step] at hstep
    split_ifs at hstep
    cases hstep
    exact ⟨h.length, h.nul, h.consumed⟩

/-- A datagram of any length is received. -/
theorem Terminated.exists_recv (h : s.Terminated) (hpc : s.pc = .recv) (bytes : Bytes) :
    ∃ buff, UdpLoop.step s (.recv (.datagram bytes)) = some { s with
      buff
      pc := .test
      consumed := s.consumed ++ UdpServer.listen bytes
      received := s.received ++ [bytes] } := by
  obtain ⟨buff, hbuff, -, -, hlines⟩ := terminate_fill h.length bytes
  refine ⟨buff, ?_⟩
  simp only [UdpLoop.step, hpc, hbuff, hlines, Option.map_some]

theorem terminated_init : ({} : UdpLoop).Terminated :=
  ⟨List.length_replicate, List.mem_replicate.mpr ⟨Nat.succ_ne_zero _, rfl⟩, rfl⟩

theorem terminated_of_run {as : List UdpAction} (hrun : Transition.run step {} as = some s) :
    s.Terminated := by
  exact Transition.run_induction (I := fun _ s => s.Terminated) terminated_init
    (fun _ _ _ _ ih hstep => ih.step hstep) hrun

/-- How many datagrams come behind `done`. -/
structure Stopping (s : UdpLoop) : Prop where
  done : s.done = true ↔ s.stoppedAt ≠ none
  before : ∀ n, s.stoppedAt = some n → n ≤ s.received.length
  late : ∀ n, s.stoppedAt = some n → s.received.length ≤ n + 1
  recv : s.pc = .recv → ∀ n, s.stoppedAt = some n → s.received.length = n

theorem Stopping.step {a : UdpAction} (h : s.Stopping) (hstep : UdpLoop.step s a = some s') :
    s'.Stopping := by
  cases a with
  | test =>
    simp only [UdpLoop.step] at hstep
    split at hstep <;> cases hstep
    refine ⟨h.done, h.before, h.late, fun hpc n hn => ?_⟩
    dsimp only at hpc
    split_ifs at hpc with hdone
    exact absurd (h.done.mpr (by rw [hn]; simp)) hdone
  | recv result =>
    simp only [UdpLoop.step] at hstep
    split at hstep
    case h_1 bytes hpc =>
      obtain ⟨buff, -, rfl⟩ := Option.map_eq_some_iff.mp hstep
      have hlength : (s.received ++ [bytes]).length = s.received.length + 1 := List.length_append
      refine ⟨h.done, fun n hn => ?_, fun n hn => ?_, fun hrecv => ?_⟩
      · rw [hlength]
        exact (h.before n hn).trans (Nat.le_succ _)
      · rw [hlength, h.recv hpc n hn]
      · cases hrecv
    case h_2 =>
      cases hstep
      refine ⟨h.done, h.before, h.late, fun hrecv => ?_⟩
      cases hrecv
    case h_3 =>
      cases hstep
      refine ⟨h.done, h.before, h.late, fun hrecv => ?_⟩
      cases hrecv
    case h_4 => cases hstep
  | stop =>
    simp only [UdpLoop.step] at hstep
    split_ifs at hstep
    cases hstep
    refine ⟨by simp, fun n hn => ?_, fun n hn => ?_, fun _ n hn => Option.some.inj hn⟩
    · exact (Option.some.inj hn).ge
    · exact (Option.some.inj hn).le.trans (Nat.le_succ _)

/-- **The lines of a datagram are its own**: the buffer is terminated in every run, every
write of a terminator fits, what is consumed is what `listen` reads of each datagram alone,
and one datagram at most is read behind `done`. -/
theorem own_lines_of_run (as : List UdpAction) (hrun : Transition.run step {} as = some s) :
    s.Terminated ∧
      (s.pc = .recv → ∀ bytes, ∃ buff, step s (.recv (.datagram bytes)) = some { s with
        buff
        pc := .test
        consumed := s.consumed ++ UdpServer.listen bytes
        received := s.received ++ [bytes] }) ∧
      ∀ n, s.stoppedAt = some n → n ≤ s.received.length ∧ s.received.length ≤ n + 1 := by
  have hstopping : s.Stopping := by
    refine Transition.run_induction (I := fun _ s => s.Stopping) ⟨by simp, ?_, ?_, ?_⟩
      (fun _ _ _ _ ih hstep => ih.step hstep) hrun
    · intro n hn
      cases hn
    · intro n hn
      cases hn
    · intro hpc
      cases hpc
  have hterminated := terminated_of_run hrun
  exact ⟨hterminated, hterminated.exists_recv,
    fun n hn => ⟨hstopping.before n hn, hstopping.late n hn⟩⟩

end Steps

/-- A short datagram behind a long one. -/
def shortRun : List UdpAction :=
  [.test, .recv (.datagram (ascii "long:1|c\nlong:2|c")), .test, .recv .again, .test, .stop,
   .recv (.datagram (ascii "b:1|c")), .test]

/-- The state before the last datagram of `shortRun`. -/
def stopped (buff : Bytes) : UdpLoop where
  buff
  pc := .recv
  done := true
  consumed := [] ++ UdpServer.listen (ascii "long:1|c\nlong:2|c")
  received := [ascii "long:1|c\nlong:2|c"]
  stoppedAt := some 1

theorem run_shortRun :
    ∃ s, Transition.run step {} shortRun = some s ∧
      s.received = [ascii "long:1|c\nlong:2|c", ascii "b:1|c"] ∧ s.pc = .closed := by
  have hlong : Terminated { pc := .recv } := ⟨terminated_init.length, terminated_init.nul, rfl⟩
  obtain ⟨buff, hbuff⟩ := hlong.exists_recv rfl (ascii "long:1|c\nlong:2|c")
  have hshort := hlong.step hbuff
  have hstopped : (stopped buff).Terminated := ⟨hshort.length, hshort.nul, hshort.consumed⟩
  obtain ⟨buff', hbuff'⟩ := hstopped.exists_recv rfl (ascii "b:1|c")
  have htest : step {} .test = some { pc := .recv } := rfl
  refine ⟨{ stopped buff with
      buff := buff'
      pc := .closed
      consumed := (stopped buff).consumed ++ UdpServer.listen (ascii "b:1|c")
      received := (stopped buff).received ++ [ascii "b:1|c"] }, ?_, rfl, rfl⟩
  rw [shortRun, Transition.run_cons, htest, Option.bind_some, Transition.run_cons, hbuff]
  show ((step (stopped buff) (.recv (.datagram (ascii "b:1|c")))).bind
    fun s => Transition.run step s [.test]) = _
  rw [hbuff']
  rfl

theorem own_lines_of_run_shortRun :
    ∃ s, Transition.run step {} shortRun = some s ∧
      s.received = [ascii "long:1|c\nlong:2|c", ascii "b:1|c"] ∧ s.pc = .closed ∧
      s.Terminated ∧ ∀ n, s.stoppedAt = some n →
        n ≤ s.received.length ∧ s.received.length ≤ n + 1 := by
  obtain ⟨s, hs, hreceived, hpc⟩ := run_shortRun
  obtain ⟨hterminated, -, hstopped⟩ := own_lines_of_run shortRun hs
  exact ⟨s, hs, hreceived, hpc, hterminated, hstopped⟩

end UdpLoop

end Statsdcc
