import Mathlib
import Statsdcc.Lib.Bytes
import Statsdcc.Lib.SizeT
import Statsdcc.Lib.Transition

/-!
# Transfers on stream sockets

`readn` and `writen` repeat `read` or `write` until all bytes of a buffer are
moved. A transfer may be short, may be interrupted and may fail, in any order, so
a run of a loop is the list of the results of its system calls.

## Main definitions

- `StreamIo.Writen.step` — one iteration of `writen`
- `StreamIo.Readn.step` — one iteration of `readn`

## Main results

- `StreamIo.Writen.invariant_of_run`, `StreamIo.Readn.invariant_of_run` — what the
  iterations preserve
- `StreamIo.moves_exactly` — what the returned number says of the moved bytes
-/

open Bytes

namespace Statsdcc

namespace StreamIo

/-- An object in memory: none has more than `PTRDIFF_MAX` bytes. -/
structure Buffer where
  bytes : Bytes
  length_lt : bytes.length < 2 ^ 63

/-- What `read` or `write` returns: a number of bytes, or `-1` with `EINTR` or with
another error in `errno`. -/
inductive SysResult
  | returned (count : ℕ)
  | interrupted
  | failed
  deriving DecidableEq

-- ════════════════════════════════════════════════════════════════════════
-- writen
-- ════════════════════════════════════════════════════════════════════════

/-- The local variables of `writen`, with `ptr` as an offset in the buffer, the
pieces that the kernel has accepted, and what was returned. -/
structure Writen where
  ptr : ℕ := 0
  nleft : ℕ
  accepted : List Bytes := []
  result : Option ℤ := none
  deriving DecidableEq

namespace Writen

/-- The test of the loop, with the `return n` behind it. -/
def test (buf : Buffer) (loop : Writen) : Writen :=
  if 0 < loop.nleft then loop
  else { loop with result := some (SizeT.toSsize buf.bytes.length) }

def start (buf : Buffer) : Writen := test buf { nleft := buf.bytes.length }

/-- One iteration, by the result of `write`. It is `none` behind the loop, and for a
number of bytes that `write` was not asked for. -/
def step (buf : Buffer) (loop : Writen) (result : SysResult) : Option Writen :=
  if loop.result = none then
    match result with
    | .returned nwritten =>
      if nwritten ≤ loop.nleft then
        some (test buf { loop with
          ptr := loop.ptr + nwritten
          nleft := loop.nleft - nwritten
          accepted := loop.accepted ++ [(buf.bytes.drop loop.ptr).take nwritten] })
      else none
    | .interrupted => some (test buf loop)
    | .failed => some { loop with result := some (-1) }
  else none

/-- The accepted bytes are those in front of `ptr`, and the loop ends with all of
them or with an error. -/
structure Invariant (buf : Buffer) (loop : Writen) : Prop where
  sum : loop.ptr + loop.nleft = buf.bytes.length
  accepted : loop.accepted.flatten = buf.bytes.take loop.ptr
  running : loop.result = none → 0 < loop.nleft
  ended : ∀ r, loop.result = some r →
    (r = buf.bytes.length ∧ loop.nleft = 0) ∨ (r = -1 ∧ 0 < loop.nleft)

variable {buf : Buffer} {loop loop' : Writen}

/-- The test of the loop establishes when it goes on. -/
theorem invariant_test (hsum : loop.ptr + loop.nleft = buf.bytes.length)
    (haccepted : loop.accepted.flatten = buf.bytes.take loop.ptr) (hresult : loop.result = none) :
    Invariant buf (test buf loop) := by
  rw [test]
  by_cases hleft : 0 < loop.nleft
  · rw [if_pos hleft]
    exact ⟨hsum, haccepted, fun _ => hleft, fun r hr => by rw [hresult] at hr; cases hr⟩
  · rw [if_neg hleft]
    refine ⟨hsum, haccepted, nofun, fun r hr => .inl ⟨?_, Nat.eq_zero_of_not_pos hleft⟩⟩
    rw [Option.some.injEq, SizeT.toSsize_of_lt buf.length_lt] at hr
    exact hr.symm

theorem invariant_start (buf : Buffer) : Invariant buf (start buf) :=
  invariant_test (Nat.zero_add _) rfl rfl

theorem invariant_step {result : SysResult} (h : Invariant buf loop)
    (hstep : step buf loop result = some loop') : Invariant buf loop' := by
  simp only [step] at hstep
  split_ifs at hstep with hresult
  cases result with
  | returned nwritten =>
    simp only [Option.ite_none_right_eq_some, Option.some.injEq] at hstep
    obtain ⟨hle, rfl⟩ := hstep
    have hsum := h.sum
    refine invariant_test ?_ ?_ hresult
    · show loop.ptr + nwritten + (loop.nleft - nwritten) = _
      omega
    · show (loop.accepted ++ [_]).flatten = buf.bytes.take (loop.ptr + nwritten)
      rw [List.flatten_append, List.flatten_singleton, h.accepted, List.take_add]
  | interrupted =>
    cases hstep
    exact invariant_test h.sum h.accepted hresult
  | failed =>
    cases hstep
    refine ⟨h.sum, h.accepted, nofun, fun r hr => .inr ⟨?_, h.running hresult⟩⟩
    exact (Option.some.inj hr).symm

/-- The run lemma of `writen`. -/
theorem invariant_of_run {results : List SysResult}
    (hrun : Transition.run (step buf) (start buf) results = some loop) : Invariant buf loop :=
  Transition.run_induction (I := fun _ loop => Invariant buf loop) (invariant_start buf)
    (fun _ _ _ _ ih hstep => invariant_step ih hstep) hrun

/-- All bytes are accepted when their number is returned. -/
theorem Invariant.complete (h : Invariant buf loop)
    (hresult : loop.result = some buf.bytes.length) : loop.accepted.flatten = buf.bytes := by
  rcases h.ended _ hresult with ⟨-, hleft⟩ | ⟨hr, -⟩
  · have hsum := h.sum
    rw [h.accepted, List.take_of_length_le (by omega)]
  · omega

/-- Some bytes are not accepted when an error is returned. -/
theorem Invariant.incomplete (h : Invariant buf loop) (hresult : loop.result = some (-1)) :
    loop.accepted.flatten <+: buf.bytes ∧ loop.accepted.flatten ≠ buf.bytes := by
  rcases h.ended _ hresult with ⟨hr, -⟩ | ⟨-, hleft⟩
  · omega
  · rw [h.accepted]
    refine ⟨List.take_prefix _ _, fun heq => ?_⟩
    have hlength := congrArg List.length heq
    have hsum := h.sum
    rw [List.length_take] at hlength
    omega

end Writen

-- ════════════════════════════════════════════════════════════════════════
-- readn
-- ════════════════════════════════════════════════════════════════════════

/-- The local variables of `readn`, with `ptr` as an offset in the buffer, the
buffer, the bytes that the peer has sent and that are not read yet, and what was
returned. -/
structure Readn where
  ptr : ℕ := 0
  nleft : ℕ
  buffer : Bytes
  stream : Bytes
  result : Option ℤ := none
  deriving DecidableEq

namespace Readn

/-- `return (n - nleft)` -/
def exit (n : ℕ) (loop : Readn) : Readn :=
  { loop with result := some (SizeT.toSsize (n - loop.nleft)) }

/-- The test of the loop. -/
def test (n : ℕ) (loop : Readn) : Readn := if 0 < loop.nleft then loop else exit n loop

def start (buf : Buffer) (stream : Bytes) : Readn :=
  test buf.bytes.length { nleft := buf.bytes.length, buffer := buf.bytes, stream := stream }

/-- One iteration, by the result of `read`. It is `none` behind the loop, and for
bytes that `read` was not asked for or that were not sent. -/
def step (n : ℕ) (loop : Readn) (result : SysResult) : Option Readn :=
  if loop.result = none then
    match result with
    | .returned nread =>
      if nread ≤ loop.nleft ∧ nread ≤ loop.stream.length then
        if nread = 0 then some (exit n loop)
        else
          some (test n { loop with
            ptr := loop.ptr + nread
            nleft := loop.nleft - nread
            buffer := loop.buffer.take loop.ptr ++ loop.stream.take nread ++
              loop.buffer.drop (loop.ptr + nread)
            stream := loop.stream.drop nread })
      else none
    | .interrupted => some (test n loop)
    | .failed => some { loop with result := some (-1) }
  else none

/-- The buffer holds the beginning of the stream in front of `ptr`, and what it held
before behind it. -/
structure Invariant (buf : Buffer) (stream : Bytes) (results : List SysResult) (loop : Readn) :
    Prop where
  sum : loop.ptr + loop.nleft = buf.bytes.length
  sent : loop.ptr ≤ stream.length
  buffer : loop.buffer = stream.take loop.ptr ++ buf.bytes.drop loop.ptr
  stream : loop.stream = stream.drop loop.ptr
  running : loop.result = none → 0 < loop.nleft
  ended : ∀ r, loop.result = some r →
    (r = loop.ptr ∧ (loop.nleft = 0 ∨ .returned 0 ∈ results)) ∨ (r = -1 ∧ .failed ∈ results)

variable {buf : Buffer} {stream : Bytes} {results : List SysResult} {loop loop' : Readn}

/-- The number of the moved bytes is returned. -/
theorem invariant_exit (hsum : loop.ptr + loop.nleft = buf.bytes.length)
    (hsent : loop.ptr ≤ stream.length)
    (hbuffer : loop.buffer = stream.take loop.ptr ++ buf.bytes.drop loop.ptr)
    (hstream : loop.stream = stream.drop loop.ptr)
    (hend : loop.nleft = 0 ∨ .returned 0 ∈ results) :
    Invariant buf stream results (exit buf.bytes.length loop) := by
  refine ⟨hsum, hsent, hbuffer, hstream, nofun, fun r hr => .inl ⟨?_, hend⟩⟩
  have hlt := buf.length_lt
  have hmoved : buf.bytes.length - loop.nleft = loop.ptr := by omega
  rw [exit, Option.some.injEq, SizeT.toSsize_of_lt (by omega), hmoved] at hr
  exact hr.symm

/-- The test of the loop establishes when it goes on. -/
theorem invariant_test (hsum : loop.ptr + loop.nleft = buf.bytes.length)
    (hsent : loop.ptr ≤ stream.length)
    (hbuffer : loop.buffer = stream.take loop.ptr ++ buf.bytes.drop loop.ptr)
    (hstream : loop.stream = stream.drop loop.ptr) (hresult : loop.result = none) :
    Invariant buf stream results (test buf.bytes.length loop) := by
  rw [test]
  by_cases hleft : 0 < loop.nleft
  · rw [if_pos hleft]
    exact ⟨hsum, hsent, hbuffer, hstream, fun _ => hleft, fun r hr => by
      rw [hresult] at hr; cases hr⟩
  · rw [if_neg hleft]
    exact invariant_exit hsum hsent hbuffer hstream (.inl (Nat.eq_zero_of_not_pos hleft))

theorem invariant_start (buf : Buffer) (stream : Bytes) :
    Invariant buf stream [] (start buf stream) :=
  invariant_test (Nat.zero_add _) (Nat.zero_le _) rfl rfl rfl

/-- The bytes of one `read` are put behind those of the earlier ones. -/
theorem take_put {stream buf : Bytes} {ptr nread : ℕ} (hsent : ptr + nread ≤ stream.length) :
    (stream.take ptr ++ buf.drop ptr).take ptr ++ (stream.drop ptr).take nread ++
      (stream.take ptr ++ buf.drop ptr).drop (ptr + nread) =
        stream.take (ptr + nread) ++ buf.drop (ptr + nread) := by
  have hlength : (stream.take ptr).length = ptr := List.length_take_of_le (by omega)
  have hfront : (stream.take ptr ++ buf.drop ptr).take ptr = stream.take ptr :=
    List.take_left' hlength
  have hback : (stream.take ptr ++ buf.drop ptr).drop (ptr + nread) = buf.drop (ptr + nread) := by
    rw [← List.drop_drop, List.drop_left' hlength, List.drop_drop]
  rw [hfront, hback, List.take_add]

theorem invariant_step {result : SysResult} (h : Invariant buf stream results loop)
    (hstep : step buf.bytes.length loop result = some loop') :
    Invariant buf stream (results ++ [result]) loop' := by
  simp only [step] at hstep
  split_ifs at hstep with hresult
  cases result with
  | returned nread =>
    simp only [Option.ite_none_right_eq_some] at hstep
    obtain ⟨⟨hle, hsent⟩, hstep⟩ := hstep
    rw [h.stream, List.length_drop] at hsent
    have hsum := h.sum
    have hptr := h.sent
    by_cases hzero : nread = 0
    · subst hzero
      rw [if_pos rfl, Option.some.injEq] at hstep
      subst hstep
      exact invariant_exit hsum hptr h.buffer h.stream (.inr (by simp))
    · rw [if_neg hzero, Option.some.injEq] at hstep
      subst hstep
      refine invariant_test ?_ ?_ ?_ ?_ hresult
      · show loop.ptr + nread + (loop.nleft - nread) = _
        omega
      · show loop.ptr + nread ≤ _
        omega
      · show loop.buffer.take _ ++ loop.stream.take _ ++ loop.buffer.drop _ = _
        rw [h.buffer, h.stream]
        exact take_put (by omega)
      · show loop.stream.drop nread = stream.drop (loop.ptr + nread)
        rw [h.stream, List.drop_drop]
  | interrupted =>
    cases hstep
    exact invariant_test h.sum h.sent h.buffer h.stream hresult
  | failed =>
    cases hstep
    refine ⟨h.sum, h.sent, h.buffer, h.stream, nofun, fun r hr => .inr ⟨?_, by simp⟩⟩
    exact (Option.some.inj hr).symm

/-- The run lemma of `readn`. -/
theorem invariant_of_run
    (hrun : Transition.run (step buf.bytes.length) (start buf stream) results = some loop) :
    Invariant buf stream results loop :=
  Transition.run_induction (I := Invariant buf stream) (invariant_start buf stream)
    (fun _ _ _ _ ih hstep => invariant_step ih hstep) hrun

/-- The number that is returned is the number of bytes that were moved. -/
theorem Invariant.read (h : Invariant buf stream results loop) {r : ℕ}
    (hresult : loop.result = some r) :
    r ≤ stream.length ∧ loop.buffer.take r = stream.take r ∧ loop.stream = stream.drop r ∧
      (r = buf.bytes.length ∨ .returned 0 ∈ results) := by
  rcases h.ended _ hresult with ⟨hr, hend⟩ | ⟨hr, -⟩
  · obtain rfl : r = loop.ptr := by omega
    refine ⟨h.sent, ?_, h.stream, hend.imp_left fun hleft => ?_⟩
    · rw [h.buffer]
      exact List.take_left' (List.length_take_of_le h.sent)
    · have hsum := h.sum
      omega
  · omega

end Readn

/-- **Exactly the right bytes are moved**: `writen` returns the length of the buffer
when all of it was accepted in order, and `-1` when only a part of it was. The first
`r` bytes of the buffer are the next `r` bytes of the stream when `readn` returns
`r`, and there are less of them than the buffer holds only at the end of the file. -/
theorem moves_exactly (buf : Buffer) (results : List SysResult) :
    (∀ loop, Transition.run (Writen.step buf) (Writen.start buf) results = some loop →
      loop.ptr ≤ buf.bytes.length ∧
      (loop.result = some buf.bytes.length → loop.accepted.flatten = buf.bytes) ∧
      (loop.result = some (-1) →
        loop.accepted.flatten <+: buf.bytes ∧ loop.accepted.flatten ≠ buf.bytes)) ∧
    ∀ stream loop,
      Transition.run (Readn.step buf.bytes.length) (Readn.start buf stream) results = some loop →
      loop.ptr ≤ buf.bytes.length ∧
      (∀ r : ℕ, loop.result = some (r : ℤ) →
        r ≤ stream.length ∧ loop.buffer.take r = stream.take r ∧ loop.stream = stream.drop r ∧
          (r = buf.bytes.length ∨ .returned 0 ∈ results)) ∧
      (loop.result = some (-1) → .failed ∈ results) := by
  constructor
  · intro loop hrun
    have h := Writen.invariant_of_run hrun
    exact ⟨by have hsum := h.sum; omega, h.complete, h.incomplete⟩
  · intro stream loop hrun
    have h := Readn.invariant_of_run hrun
    refine ⟨by have hsum := h.sum; omega, fun r => h.read, fun hresult => ?_⟩
    rcases h.ended _ hresult with ⟨hr, -⟩ | ⟨-, hfailed⟩
    · omega
    · exact hfailed

/-- Three bytes are written in two pieces around an interruption, and one byte is
read before the end of the file. -/
theorem moves_exactly_three_bytes :
    (∃ loop, Transition.run (Writen.step ⟨ascii "a:1", by decide⟩)
        (Writen.start ⟨ascii "a:1", by decide⟩) [.returned 1, .interrupted, .returned 2] =
          some loop ∧ loop.result = some 3 ∧ loop.accepted.flatten = ascii "a:1") ∧
      ∃ loop, Transition.run (Readn.step 3) (Readn.start ⟨ascii "a:1", by decide⟩ (ascii "b"))
        [.returned 1, .returned 0] = some loop ∧ loop.result = some 1 ∧
          loop.buffer.take 1 = ascii "b" := by
  have hwritten := (moves_exactly ⟨ascii "a:1", by decide⟩
    [.returned 1, .interrupted, .returned 2]).1 ⟨3, 0, [ascii "a", ascii ":1"], some 3⟩ rfl
  have hread := (moves_exactly ⟨ascii "a:1", by decide⟩ [.returned 1, .returned 0]).2
    (ascii "b") ⟨1, 2, ascii "b:1", [], some 1⟩ rfl
  exact ⟨⟨_, rfl, rfl, hwritten.2.1 rfl⟩, ⟨_, rfl, rfl, (hread.2.1 1 rfl).2.1⟩⟩

end StreamIo

end Statsdcc
