import Mathlib
import Statsdcc.StreamIo

/-!
# Connections of the carbon backend

`Connection::write` gives a string to `writen`, and calls itself again behind
`refresh` when that fails. `refresh` makes a new socket when there is none or when
`poll` reports a hang-up, and keeps the socket otherwise. A run is the list of the
system calls with their results.

`closed` and `earlier` are history variables: what the kernel has accepted in this
call of `write` on each socket that was closed, and on the socket of the connection
in the attempts before.

## Main definitions

- `Connection.step` — what follows a system call of `write` and `refresh`
- `Connection.Intact` — what the sockets have taken is the beginning of the string
- `Connection.Fresh` — no bytes behind those of an earlier attempt

## Main results

- `Connection.intact_of_run` — the sockets are intact as long as all bytes are fresh
-/

open Bytes

namespace Statsdcc

open StreamIo

/-- A system call of `write` or `refresh`, with its result. -/
inductive SysCall
  | write (result : SysResult)
  | poll (revents : ℕ)
  | connect (connected : Bool)
  deriving DecidableEq

/-- Where the innermost call of `write` stands. -/
inductive Connection.Phase
  | writing (loop : Writen)
  | polling
  | connecting
  | returned (result : Bool)
  deriving DecidableEq

/-- A connection in a call of `write`. -/
structure Connection where
  isBad : Bool
  closed : List Bytes := []
  earlier : Bytes := []
  phase : Connection.Phase := .connecting
  deriving DecidableEq

namespace Connection

/-- `POLLHUP` -/
def pollHup : ℕ := 0x10

/-- `refresh`, up to its system call. -/
def refresh (c : Connection) : Connection :=
  { c with phase := if c.isBad then .connecting else .polling }

/-- The test of the result of `writen`, when there is one. -/
def settle (c : Connection) (loop : Writen) : Connection :=
  match loop.result with
  | none => { c with phase := .writing loop }
  | some r =>
    let c := { c with earlier := c.earlier ++ loop.accepted.flatten }
    if r = -1 then refresh c else { c with phase := .returned true }

/-- `write`, up to its first system call. -/
def write (str : Buffer) (c : Connection) : Connection :=
  if c.isBad then refresh c else settle c (Writen.start str)

/-- `return !this->is_bad()` in `refresh`, and `&& this->write(str)` behind it. -/
def refreshed (str : Buffer) (c : Connection) : Connection :=
  if c.isBad then { c with phase := .returned false } else write str c

/-- What follows a system call, `none` when it is not the next one. -/
def step (str : Buffer) (c : Connection) : SysCall → Option Connection
  | .write result =>
    match c.phase with
    | .writing loop => (Writen.step str loop result).map (settle c)
    | _ => none
  | .poll revents =>
    if c.phase = .polling then
      if revents &&& pollHup ≠ 0 then
        some { c with closed := c.closed ++ [c.earlier], earlier := [], phase := .connecting }
      else some (refreshed str c)
    else none
  | .connect connected =>
    if c.phase = .connecting then some (refreshed str { c with isBad := !connected }) else none

/-- A call of `write`, where the connection has no socket when `isBad` holds. -/
def start (str : Buffer) (isBad : Bool) : Connection := write str { isBad := isBad }

/-- What the socket of the connection has taken. -/
def taken (c : Connection) : Bytes :=
  match c.phase with
  | .writing loop => c.earlier ++ loop.accepted.flatten
  | _ => c.earlier

/-- Each socket has taken the beginning of the string, and the last one all of it
when `true` is returned. -/
structure Intact (str : Buffer) (c : Connection) : Prop where
  sockets : ∀ socket ∈ c.closed ++ [c.taken], socket <+: str.bytes
  returned : c.phase = .returned true → c.taken = str.bytes

/-- No bytes are taken by a socket that took some in an earlier attempt. -/
def Fresh (c : Connection) : SysCall → Prop
  | .write (.returned nwritten) => 0 < nwritten → c.earlier = []
  | _ => True

instance (c : Connection) (call : SysCall) : Decidable (Fresh c call) := by
  unfold Fresh; split <;> infer_instance

end Connection

namespace StreamIo.Writen

/-- What the loop has accepted grows only by the bytes of the call. -/
theorem accepted_of_step {buf : Buffer} {loop loop' : Writen} {result : SysResult}
    (h : step buf loop result = some loop') :
    loop'.accepted.flatten = loop.accepted.flatten ∨
      ∃ nwritten, 0 < nwritten ∧ result = .returned nwritten := by
  have htest : ∀ loop, (test buf loop).accepted = loop.accepted := by
    intro loop
    rw [test]
    split_ifs <;> rfl
  simp only [step] at h
  split_ifs at h
  cases result with
  | returned nwritten =>
    simp only [Option.ite_none_right_eq_some, Option.some.injEq] at h
    obtain ⟨-, rfl⟩ := h
    rcases Nat.eq_zero_or_pos nwritten with rfl | hpos
    · exact .inl (by simp [htest])
    · exact .inr ⟨nwritten, hpos, rfl⟩
  | interrupted =>
    cases h
    exact .inl (by rw [htest])
  | failed =>
    cases h
    exact .inl rfl

end StreamIo.Writen

namespace Connection

variable {str : Buffer} {c c' : Connection}

-- ════════════════════════════════════════════════════════════════════════
-- The sockets
-- ════════════════════════════════════════════════════════════════════════

/-- The invariant of the runs whose bytes are all fresh. -/
structure Invariant (str : Buffer) (c : Connection) : Prop where
  closed : ∀ socket ∈ c.closed, socket <+: str.bytes
  earlier : c.earlier <+: str.bytes
  writing : ∀ loop, c.phase = .writing loop →
    Writen.Invariant str loop ∧ (c.earlier = [] ∨ loop.accepted.flatten = [])
  returned : c.phase = .returned true → c.earlier = str.bytes

/-- What one attempt leaves on a socket. -/
theorem invariant_settle {loop : Writen} (hclosed : ∀ socket ∈ c.closed, socket <+: str.bytes)
    (hearlier : c.earlier <+: str.bytes) (hloop : Writen.Invariant str loop)
    (hfresh : c.earlier = [] ∨ loop.accepted.flatten = []) : Invariant str (settle c loop) := by
  have htaken : c.earlier ++ loop.accepted.flatten <+: str.bytes := by
    rcases hfresh with hnil | hnil
    · rw [hnil, List.nil_append, hloop.accepted]
      exact List.take_prefix _ _
    · rwa [hnil, List.append_nil]
  rw [settle]
  cases hresult : loop.result with
  | none =>
    refine ⟨hclosed, hearlier, fun loop' hphase => ?_, nofun⟩
    cases hphase
    exact ⟨hloop, hfresh⟩
  | some r =>
    by_cases hr : r = -1
    · simp only [hr, if_true, refresh]
      refine ⟨hclosed, htaken, fun loop' hphase => ?_, fun hphase => ?_⟩ <;>
        · dsimp only at hphase
          split_ifs at hphase
    · simp only [hr, if_false]
      refine ⟨hclosed, htaken, nofun, fun _ => ?_⟩
      obtain ⟨rfl, -⟩ := (hloop.ended r hresult).resolve_right fun h => hr h.1
      have hall := hloop.complete hresult
      rcases hfresh with hnil | hnil
      · rw [hnil, List.nil_append, hall]
      · rw [hall] at hnil
        rw [hnil, List.prefix_nil] at hearlier
        rw [hearlier, List.nil_append, hall]

/-- A new attempt has put nothing on the socket. -/
theorem invariant_write (hclosed : ∀ socket ∈ c.closed, socket <+: str.bytes)
    (hearlier : c.earlier <+: str.bytes) : Invariant str (write str c) := by
  rw [write]
  split_ifs with hbad
  · rw [refresh, if_pos hbad]
    exact ⟨hclosed, hearlier, nofun, nofun⟩
  · refine invariant_settle hclosed hearlier (Writen.invariant_start str) (.inr ?_)
    rw [Writen.start, Writen.test]
    split_ifs <;> rfl

theorem invariant_refreshed (hclosed : ∀ socket ∈ c.closed, socket <+: str.bytes)
    (hearlier : c.earlier <+: str.bytes) : Invariant str (refreshed str c) := by
  rw [refreshed]
  split_ifs
  · exact ⟨hclosed, hearlier, nofun, nofun⟩
  · exact invariant_write hclosed hearlier

theorem invariant_step {call : SysCall} (h : Invariant str c) (hfresh : Fresh c call)
    (hstep : step str c call = some c') : Invariant str c' := by
  cases call with
  | write result =>
    simp only [step] at hstep
    split at hstep
    · next loop hphase =>
      obtain ⟨loop', hloop', rfl⟩ := Option.map_eq_some_iff.mp hstep
      obtain ⟨hloop, hnil⟩ := h.writing loop hphase
      refine invariant_settle h.closed h.earlier (Writen.invariant_step hloop hloop') ?_
      rcases Writen.accepted_of_step hloop' with hsame | ⟨nwritten, hpos, rfl⟩
      · rwa [hsame]
      · exact .inl (hfresh hpos)
    · cases hstep
  | poll revents =>
    simp only [step] at hstep
    split_ifs at hstep
    · cases hstep
      refine ⟨fun socket hsocket => ?_, List.nil_prefix, nofun, nofun⟩
      rcases List.mem_append.mp hsocket with hsocket | hsocket
      · exact h.closed socket hsocket
      · exact List.mem_singleton.mp hsocket ▸ h.earlier
    · cases hstep
      exact invariant_refreshed h.closed h.earlier
  | connect connected =>
    simp only [step] at hstep
    split_ifs at hstep
    cases hstep
    exact invariant_refreshed h.closed h.earlier

theorem Invariant.intact (h : Invariant str c) : Intact str c := by
  have htaken : c.taken <+: str.bytes := by
    rw [taken]
    split
    · next loop hphase =>
      obtain ⟨hloop, hnil | hnil⟩ := h.writing loop hphase
      · rw [hnil, List.nil_append, hloop.accepted]
        exact List.take_prefix _ _
      · rw [hnil, List.append_nil]
        exact h.earlier
    · exact h.earlier
  constructor
  case sockets =>
    intro socket hsocket
    rcases List.mem_append.mp hsocket with hsocket | hsocket
    · exact h.closed socket hsocket
    · exact List.mem_singleton.mp hsocket ▸ htaken
  case returned =>
    intro hphase
    rw [taken, hphase]
    exact h.returned hphase

/-- **A retry on another socket corrupts nothing**: as long as no socket takes bytes
behind those of an earlier attempt, the sockets hold beginnings of the string, and
the last one all of it when `true` is returned. -/
theorem intact_of_run (str : Buffer) (isBad : Bool) (calls : List SysCall)
    (hfresh : Transition.StepsSatisfy (step str) Fresh (start str isBad) calls)
    (hrun : Transition.run (step str) (start str isBad) calls = some c) : Intact str c :=
  (Transition.run_induction_where (I := fun _ c => Invariant str c)
    (invariant_write (fun _ hsocket => absurd hsocket List.not_mem_nil) List.nil_prefix)
    (fun _ _ _ _ h hfresh hstep => invariant_step h hfresh hstep) hfresh hrun).intact

/-- A write that fails behind its first byte is repeated on a new socket. -/
theorem intact_of_run_reconnect :
    ∃ c, Transition.run (step ⟨ascii "ab", by decide⟩) (start ⟨ascii "ab", by decide⟩ false)
        [.write (.returned 1), .write .failed, .poll 0x10, .connect true, .write (.returned 2)] =
          some c ∧ Intact ⟨ascii "ab", by decide⟩ c := by
  have hall : Transition.allSteps (step ⟨ascii "ab", by decide⟩)
      (fun c call => decide (Fresh c call)) (start ⟨ascii "ab", by decide⟩ false)
      [.write (.returned 1), .write .failed, .poll 0x10, .connect true, .write (.returned 2)] =
        true := by
    decide
  have hfresh := Transition.stepsSatisfy_of_allSteps hall
  refine ⟨_, rfl, intact_of_run ⟨ascii "ab", by decide⟩ false
    [.write (.returned 1), .write .failed, .poll 0x10, .connect true, .write (.returned 2)] ?_ rfl⟩
  intro front call back c hcalls hrun
  exact of_decide_eq_true (hfresh front call back c hcalls hrun)

/-- The same without a hang-up: the first byte is on the socket twice. -/
theorem not_intact_retry :
    ∃ c, Transition.run (step ⟨ascii "ab", by decide⟩) (start ⟨ascii "ab", by decide⟩ false)
        [.write (.returned 1), .write .failed, .poll 0, .write (.returned 2)] = some c ∧
      c.phase = .returned true ∧ c.taken = ascii "aab" ∧ ¬Intact ⟨ascii "ab", by decide⟩ c := by
  refine ⟨_, rfl, rfl, rfl, fun h => ?_⟩
  exact absurd (h.returned rfl) (by decide)

end Connection

end Statsdcc
