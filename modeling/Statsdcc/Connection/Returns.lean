import Mathlib
import Statsdcc.Connection

/-!
# When a write to a carbon returns

`Connection::write` and `Connection::refresh` call each other without a count of
the attempts. With the results of all system calls given in advance, the calls go on
until one of the two returns, or for ever.

## Main definitions

- `Connection.Outcomes` — the results of the system calls of every attempt
- `Connection.Execution.next` — the next system call
- `Connection.Returns` — `write` makes finitely many calls
- `Connection.Completes`, `Connection.Fails` — what becomes of `writen`, by the results

## Main results

- `Connection.returns_iff` — an attempt completes or its socket cannot be replaced, and
  all attempts before fail
-/

open Bytes

namespace Statsdcc

open StreamIo

namespace Connection

/-- The results of `write` in one attempt, and of `poll` and `connect` behind it. -/
structure Attempt where
  writes : ℕ → SysResult
  revents : ℕ
  connected : Bool

/-- The results of all system calls, with that of `connect` for a connection that has
no socket at first. -/
structure Outcomes where
  connected : Bool
  attempt : ℕ → Attempt

/-- A call of `write`, with the number of attempts behind it and of the calls of
`write` in this one. -/
structure Execution where
  connection : Connection
  round : ℕ := 0
  made : ℕ := 0

/-- The kernel accepts no more bytes than it is given. -/
def atMost (nleft : ℕ) : SysResult → SysResult
  | .returned count => .returned (min count nleft)
  | result => result

/-- The next system call with its result. -/
def Outcomes.call (outcomes : Outcomes) (e : Execution) : Option SysCall :=
  match e.connection.phase with
  | .writing loop =>
    some (.write (atMost loop.nleft ((outcomes.attempt e.round).writes e.made)))
  | .polling => some (.poll (outcomes.attempt e.round).revents)
  | .connecting =>
    some (.connect (if e.connection.isBad then outcomes.connected
      else (outcomes.attempt e.round).connected))
  | .returned _ => none

/-- A system call moves on to the next attempt when `refresh` returns. -/
def Execution.move (e : Execution) (c : Connection) : SysCall → Execution
  | .write _ => ⟨c, e.round, e.made + 1⟩
  | .poll revents =>
    if revents &&& pollHup ≠ 0 then ⟨c, e.round, e.made⟩ else ⟨c, e.round + 1, 0⟩
  | .connect _ => if e.connection.isBad then ⟨c, e.round, e.made⟩ else ⟨c, e.round + 1, 0⟩

/-- The execution behind the next system call. -/
def Execution.next (str : Buffer) (outcomes : Outcomes) (e : Execution) : Execution :=
  match outcomes.call e with
  | none => e
  | some call => ((step str e.connection call).map fun c => e.move c call).getD e

/-- The outermost `write` returns behind finitely many system calls. -/
def Execution.Returns (str : Buffer) (outcomes : Outcomes) (e : Execution) : Prop :=
  ∃ t result, ((next str outcomes)^[t] e).connection.phase = .returned result

/-- A call of `write` returns. -/
def Returns (str : Buffer) (isBad : Bool) (outcomes : Outcomes) : Prop :=
  Execution.Returns str outcomes ⟨start str isBad, 0, 0⟩

/-- The bytes that `write` accepts. -/
def bytesOf : SysResult → ℕ
  | .returned count => count
  | _ => 0

/-- The bytes that the first calls of `write` accept. -/
def total (writes : ℕ → SysResult) (made : ℕ) : ℕ := ∑ i ∈ Finset.range made, bytesOf (writes i)

/-- All bytes are accepted before an error. -/
def Completes (writes : ℕ → SysResult) (n : ℕ) : Prop :=
  ∃ made, (∀ i < made, writes i ≠ .failed) ∧ n ≤ total writes made

/-- An error comes before all bytes are accepted. -/
def Fails (writes : ℕ → SysResult) (n : ℕ) : Prop :=
  ∃ made, writes made = .failed ∧ (∀ i < made, writes i ≠ .failed) ∧ total writes made < n

/-- The attempt fails, the peer has hung up, and there is no other socket. -/
def Refused (attempt : Attempt) (n : ℕ) : Prop :=
  Fails attempt.writes n ∧ attempt.revents &&& pollHup ≠ 0 ∧ attempt.connected = false

variable {str : Buffer} {outcomes : Outcomes} {e : Execution} {loop : Writen}

theorem total_mono (writes : ℕ → SysResult) : Monotone (total writes) := fun _ _ h =>
  Finset.sum_le_sum_of_subset (Finset.range_mono h)

-- ════════════════════════════════════════════════════════════════════════
-- What one system call does
-- ════════════════════════════════════════════════════════════════════════

/-- The execution is in the loop of `writen`. -/
structure Running (str : Buffer) (outcomes : Outcomes) (e : Execution) (loop : Writen) : Prop where
  phase : e.connection.phase = .writing loop
  isBad : e.connection.isBad = false
  invariant : Writen.Invariant str loop
  result : loop.result = none
  accepting : ∀ i < e.made, (outcomes.attempt e.round).writes i ≠ .failed
  nleft : loop.nleft = str.bytes.length - total (outcomes.attempt e.round).writes e.made

/-- An attempt goes on, or has written all bytes. -/
def Underway (str : Buffer) (outcomes : Outcomes) (e : Execution) : Prop :=
  (∃ loop, Running str outcomes e loop) ∨
    e.connection.phase = .returned true ∧
      Completes (outcomes.attempt e.round).writes str.bytes.length

/-- An attempt that accepts all its bytes so far is under way. -/
theorem underway_settle {c : Connection} {round made : ℕ} (hbad : c.isBad = false)
    (hloop : Writen.Invariant str loop) (herror : loop.result ≠ some (-1))
    (haccepting : ∀ i < made, (outcomes.attempt round).writes i ≠ .failed)
    (hnleft : loop.nleft = str.bytes.length - total (outcomes.attempt round).writes made) :
    Underway str outcomes ⟨settle c loop, round, made⟩ := by
  rw [settle]
  cases hresult : loop.result with
  | none => exact .inl ⟨loop, rfl, hbad, hloop, hresult, haccepting, hnleft⟩
  | some r =>
    rw [hresult, Ne, Option.some.injEq] at herror
    simp only [herror, if_false]
    obtain ⟨-, hzero⟩ := (hloop.ended r hresult).resolve_right fun h => herror h.1
    refine .inr ⟨rfl, made, haccepting, ?_⟩
    show _ ≤ total (outcomes.attempt round).writes made
    omega

/-- The test of the loop of `writen` returns no error. -/
theorem test_spec (str : Buffer) (loop : Writen) (hresult : loop.result = none) :
    (Writen.test str loop).result ≠ some (-1) ∧ (Writen.test str loop).nleft = loop.nleft := by
  rw [Writen.test]
  split_ifs
  · exact ⟨by simp [hresult], rfl⟩
  · refine ⟨?_, rfl⟩
    rw [SizeT.toSsize_of_lt str.length_lt, Ne, Option.some.injEq]
    omega

/-- A call of `write` without an error takes its bytes off those that are left. -/
theorem exists_step (str : Buffer) {result : SysResult} (hresult : loop.result = none)
    (h : result ≠ .failed) :
    ∃ loop', Writen.step str loop (atMost loop.nleft result) = some loop' ∧
      loop'.result ≠ some (-1) ∧ loop'.nleft = loop.nleft - bytesOf result := by
  cases result with
  | failed => exact absurd rfl h
  | interrupted =>
    exact ⟨_, by rw [atMost, Writen.step, if_pos hresult]; simp, test_spec str loop hresult⟩
  | returned count =>
    refine ⟨_, by rw [atMost, Writen.step, if_pos hresult, if_pos (min_le_right _ _)], ?_⟩
    have htest := test_spec str { loop with
      ptr := loop.ptr + min count loop.nleft
      nleft := loop.nleft - min count loop.nleft
      accepted := loop.accepted ++ [(str.bytes.drop loop.ptr).take (min count loop.nleft)] }
      hresult
    refine ⟨htest.1, htest.2.trans ?_⟩
    show loop.nleft - min count loop.nleft = loop.nleft - count
    omega

/-- A new attempt is under way. -/
theorem underway_refreshed {c : Connection} (hbad : c.isBad = false) (round : ℕ) :
    Underway str outcomes ⟨refreshed str c, round, 0⟩ := by
  have hstart := test_spec str { nleft := str.bytes.length } rfl
  rw [refreshed, hbad, if_neg Bool.false_ne_true, write, hbad, if_neg Bool.false_ne_true]
  exact underway_settle hbad (Writen.invariant_start str) hstart.1
    (fun i hi => absurd hi (by omega)) hstart.2

theorem Running.left_pos (h : Running str outcomes e loop) :
    total (outcomes.attempt e.round).writes e.made < str.bytes.length := by
  have hrunning := h.invariant.running h.result
  have hnleft := h.nleft
  omega

/-- A call of `write` fails the attempt, or it stays under way. -/
theorem next_of_running (h : Running str outcomes e loop) :
    ((outcomes.attempt e.round).writes e.made = .failed ∧
      (e.next str outcomes).connection.phase = .polling ∧
      (e.next str outcomes).connection.isBad = false ∧
      (e.next str outcomes).round = e.round) ∨
    ((outcomes.attempt e.round).writes e.made ≠ .failed ∧
      Underway str outcomes (e.next str outcomes) ∧
      (e.next str outcomes).round = e.round ∧ (e.next str outcomes).made = e.made + 1) := by
  have hcall : e.next str outcomes =
      ((Writen.step str loop (atMost loop.nleft ((outcomes.attempt e.round).writes e.made))).map
        fun loop' => ⟨settle e.connection loop', e.round, e.made + 1⟩).getD e := by
    simp only [Execution.next, Outcomes.call, h.phase, step, Option.map_map]
    rfl
  have htotal : total (outcomes.attempt e.round).writes (e.made + 1) =
      total (outcomes.attempt e.round).writes e.made +
        bytesOf ((outcomes.attempt e.round).writes e.made) := Finset.sum_range_succ _ _
  have hnleft := h.nleft
  by_cases hfailed : (outcomes.attempt e.round).writes e.made = .failed
  · have hstep : Writen.step str loop .failed = some { loop with result := some (-1) } :=
      if_pos h.result
    rw [hfailed] at hcall
    change e.next str outcomes = ((Writen.step str loop .failed).map _).getD e at hcall
    rw [hstep] at hcall
    refine .inl ⟨hfailed, ?_⟩
    rw [hcall]
    simp [settle, refresh, h.isBad]
  · obtain ⟨loop', hstep, herror, hleft⟩ := exists_step str h.result hfailed
    have haccepting : ∀ i < e.made + 1, (outcomes.attempt e.round).writes i ≠ .failed := by
      intro i hi
      rcases Nat.lt_succ_iff_lt_or_eq.mp hi with hi | rfl
      · exact h.accepting i hi
      · exact hfailed
    rw [hstep] at hcall
    refine .inr ⟨hfailed, ?_, by rw [hcall]; rfl, by rw [hcall]; rfl⟩
    rw [hcall]
    exact underway_settle h.isBad (Writen.invariant_step h.invariant hstep) herror haccepting
      (by omega)

/-- `poll` reports a hang-up, or a new attempt begins on the same socket. -/
theorem next_of_polling (str : Buffer) (outcomes : Outcomes)
    (hphase : e.connection.phase = .polling) (hbad : e.connection.isBad = false) :
    ((outcomes.attempt e.round).revents &&& pollHup ≠ 0 ∧
      (e.next str outcomes).connection.phase = .connecting ∧
      (e.next str outcomes).connection.isBad = false ∧
      (e.next str outcomes).round = e.round) ∨
    ((outcomes.attempt e.round).revents &&& pollHup = 0 ∧
      Underway str outcomes (e.next str outcomes) ∧ (e.next str outcomes).round = e.round + 1) := by
  by_cases hhup : (outcomes.attempt e.round).revents &&& pollHup = 0
  · have hnext : e.next str outcomes = ⟨refreshed str e.connection, e.round + 1, 0⟩ := by
      simp [Execution.next, Outcomes.call, hphase, step, hhup, Execution.move]
    rw [hnext]
    exact .inr ⟨hhup, underway_refreshed hbad _, rfl⟩
  · have hnext : e.next str outcomes = ⟨{ e.connection with
        closed := e.connection.closed ++ [e.connection.earlier], earlier := [],
        phase := .connecting }, e.round, e.made⟩ := by
      simp [Execution.next, Outcomes.call, hphase, step, hhup, Execution.move]
    rw [hnext]
    exact .inl ⟨hhup, rfl, hbad, rfl⟩

/-- A new attempt begins on a new socket, or there is none. -/
theorem next_of_connecting (str : Buffer) (outcomes : Outcomes)
    (hphase : e.connection.phase = .connecting) (hbad : e.connection.isBad = false) :
    ((outcomes.attempt e.round).connected = false ∧
      (e.next str outcomes).connection.phase = .returned false) ∨
    ((outcomes.attempt e.round).connected = true ∧
      Underway str outcomes (e.next str outcomes) ∧ (e.next str outcomes).round = e.round + 1) := by
  have hnext : e.next str outcomes = ⟨refreshed str { e.connection with
      isBad := !(outcomes.attempt e.round).connected }, e.round + 1, 0⟩ := by
    simp [Execution.next, Outcomes.call, hphase, step, hbad, Execution.move]
  rw [hnext]
  cases hconnected : (outcomes.attempt e.round).connected with
  | false => exact .inl ⟨rfl, rfl⟩
  | true => exact .inr ⟨rfl, underway_refreshed rfl _, rfl⟩

/-- The first attempt begins on a new socket, or there is none. -/
theorem next_of_start (str : Buffer) (outcomes : Outcomes)
    (hphase : e.connection.phase = .connecting) (hbad : e.connection.isBad = true)
    (hmade : e.made = 0) :
    (outcomes.connected = false ∧ (e.next str outcomes).connection.phase = .returned false) ∨
    (outcomes.connected = true ∧
      Underway str outcomes (e.next str outcomes) ∧ (e.next str outcomes).round = e.round) := by
  have hnext : e.next str outcomes = ⟨refreshed str { e.connection with
      isBad := !outcomes.connected }, e.round, 0⟩ := by
    simp [Execution.next, Outcomes.call, hphase, step, hbad, Execution.move, hmade]
  rw [hnext]
  cases hconnected : outcomes.connected with
  | false => exact .inl ⟨rfl, rfl⟩
  | true => exact .inr ⟨rfl, underway_refreshed rfl _, rfl⟩

-- ════════════════════════════════════════════════════════════════════════
-- What ends the calls
-- ════════════════════════════════════════════════════════════════════════

/-- What ends a call of `write`. -/
def Cause (str : Buffer) (isBad : Bool) (outcomes : Outcomes) : Prop :=
  (isBad = true ∧ outcomes.connected = false) ∨
    ∃ k, (Completes (outcomes.attempt k).writes str.bytes.length ∨
        Refused (outcomes.attempt k) str.bytes.length) ∧
      ∀ j < k, Fails (outcomes.attempt j).writes str.bytes.length

/-- What is known of the attempts behind an execution. -/
inductive Stage (str : Buffer) (isBad : Bool) (outcomes : Outcomes) (e : Execution) : Prop
  | starting : e.connection.phase = .connecting → e.connection.isBad = true → isBad = true →
      e.round = 0 → e.made = 0 → Stage str isBad outcomes e
  | underway : Underway str outcomes e →
      (∀ j < e.round, Fails (outcomes.attempt j).writes str.bytes.length) →
      Stage str isBad outcomes e
  | polling : e.connection.phase = .polling → e.connection.isBad = false →
      (∀ j ≤ e.round, Fails (outcomes.attempt j).writes str.bytes.length) →
      Stage str isBad outcomes e
  | connecting : e.connection.phase = .connecting → e.connection.isBad = false →
      (∀ j ≤ e.round, Fails (outcomes.attempt j).writes str.bytes.length) →
      (outcomes.attempt e.round).revents &&& pollHup ≠ 0 → Stage str isBad outcomes e
  | returned (result : Bool) : e.connection.phase = .returned result →
      Cause str isBad outcomes → Stage str isBad outcomes e

variable {isBad : Bool}

theorem stage_start : Stage str isBad outcomes ⟨start str isBad, 0, 0⟩ := by
  cases isBad with
  | true => exact .starting rfl rfl rfl rfl rfl
  | false =>
    have h : Underway str outcomes ⟨refreshed str { isBad := false }, 0, 0⟩ :=
      underway_refreshed rfl 0
    exact .underway h fun j hj => absurd hj (Nat.not_lt_zero j)

theorem Stage.next (h : Stage str isBad outcomes e) :
    Stage str isBad outcomes (e.next str outcomes) := by
  have hdone : ∀ result, e.connection.phase = .returned result → e.next str outcomes = e := by
    intro result hphase
    simp [Execution.next, Outcomes.call, hphase]
  cases h with
  | starting hphase hbad hstart hround hmade =>
    rcases next_of_start str outcomes hphase hbad hmade with
      ⟨hconnected, hphase⟩ | ⟨-, hunderway, hnext⟩
    · exact .returned false hphase (.inl ⟨hstart, hconnected⟩)
    · refine .underway hunderway fun j hj => ?_
      rw [hnext, hround] at hj
      exact absurd hj (Nat.not_lt_zero j)
  | underway hunderway hfails =>
    rcases hunderway with ⟨loop, hloop⟩ | ⟨hphase, hcompletes⟩
    · rcases next_of_running hloop with ⟨hfailed, hphase, hbad, hround⟩ | ⟨-, hunderway, hround, -⟩
      · refine .polling hphase hbad fun j hj => ?_
        rw [hround] at hj
        rcases Nat.lt_or_eq_of_le hj with hj | rfl
        · exact hfails j hj
        · exact ⟨e.made, hfailed, hloop.accepting, hloop.left_pos⟩
      · exact .underway hunderway fun j hj => hfails j (hround ▸ hj)
    · rw [hdone true hphase]
      exact .underway (.inr ⟨hphase, hcompletes⟩) hfails
  | polling hphase hbad hfails =>
    rcases next_of_polling str outcomes hphase hbad with
      ⟨hhup, hphase, hbad, hround⟩ | ⟨-, hunderway, hround⟩
    · exact .connecting hphase hbad (fun j hj => hfails j (hround ▸ hj)) (hround ▸ hhup)
    · exact .underway hunderway fun j hj => hfails j (by omega)
  | connecting hphase hbad hfails hhup =>
    rcases next_of_connecting str outcomes hphase hbad with
      ⟨hconnected, hphase⟩ | ⟨-, hunderway, hround⟩
    · refine .returned false hphase (.inr ⟨e.round, .inr ⟨hfails _ le_rfl, hhup, hconnected⟩, ?_⟩)
      exact fun j hj => hfails j hj.le
    · exact .underway hunderway fun j hj => hfails j (by omega)
  | returned result hphase hcause =>
    rw [hdone result hphase]
    exact .returned result hphase hcause

/-- What returns has a cause. -/
theorem cause_of_returns (h : Returns str isBad outcomes) : Cause str isBad outcomes := by
  obtain ⟨t, result, hphase⟩ := h
  have hstage : Stage str isBad outcomes
      ((Execution.next str outcomes)^[t] ⟨start str isBad, 0, 0⟩) :=
    Function.Iterate.rec (Stage str isBad outcomes) stage_start (fun _ => Stage.next) t
  cases hstage with
  | starting h | polling h | connecting h => rw [hphase] at h; cases h
  | returned _ _ hcause => exact hcause
  | underway hunderway hfails =>
    rcases hunderway with ⟨loop, hloop⟩ | ⟨-, hcompletes⟩
    · have h := hloop.phase
      rw [hphase] at h
      cases h
    · exact .inr ⟨_, .inl hcompletes, hfails⟩

theorem returns_of_next (h : Execution.Returns str outcomes (e.next str outcomes)) :
    Execution.Returns str outcomes e := by
  obtain ⟨t, result, hphase⟩ := h
  exact ⟨t + 1, result, by rwa [Function.iterate_succ_apply]⟩

theorem returns_of_phase {result : Bool} (h : e.connection.phase = .returned result) :
    Execution.Returns str outcomes e := ⟨0, result, h⟩

/-- An attempt that accepts all bytes comes to its end. -/
theorem returns_of_completes (h : Underway str outcomes e)
    (hcompletes : Completes (outcomes.attempt e.round).writes str.bytes.length) :
    Execution.Returns str outcomes e := by
  obtain ⟨made, haccepting, hle⟩ := hcompletes
  induction hleft : made - e.made generalizing e with
  | zero =>
    rcases h with ⟨loop, hloop⟩ | ⟨hphase, -⟩
    · have hlt := hloop.left_pos
      have hmono := total_mono (outcomes.attempt e.round).writes (Nat.sub_eq_zero_iff_le.mp hleft)
      omega
    · exact returns_of_phase hphase
  | succ left ih =>
    rcases h with ⟨loop, hloop⟩ | ⟨hphase, -⟩
    · rcases next_of_running hloop with ⟨hfailed, -⟩ | ⟨-, hnext, hround, hmade⟩
      · exact absurd hfailed (haccepting _ (by omega))
      · exact returns_of_next (ih hnext (by rwa [hround]) (by rwa [hround]) (by omega))
    · exact returns_of_phase hphase

/-- An attempt that fails comes to the call of `poll`. -/
theorem returns_of_fails (h : Underway str outcomes e)
    (hfails : Fails (outcomes.attempt e.round).writes str.bytes.length)
    (hpoll : ∀ e' : Execution, e'.connection.phase = .polling → e'.connection.isBad = false →
      e'.round = e.round → Execution.Returns str outcomes e') :
    Execution.Returns str outcomes e := by
  obtain ⟨made, hfailed, haccepting, hlt⟩ := hfails
  induction hleft : made - e.made generalizing e with
  | zero =>
    rcases h with ⟨loop, hloop⟩ | ⟨hphase, -⟩
    · rcases next_of_running hloop with ⟨-, hphase, hbad, hround⟩ | ⟨hne, -⟩
      · exact returns_of_next (hpoll _ hphase hbad hround)
      · have hmade : made = e.made := by
          by_contra hmade
          exact hloop.accepting made (by omega) hfailed
        exact absurd (hmade ▸ hfailed) hne
    · exact returns_of_phase hphase
  | succ left ih =>
    rcases h with ⟨loop, hloop⟩ | ⟨hphase, -⟩
    · rcases next_of_running hloop with ⟨hfailed', -⟩ | ⟨-, hnext, hround, hmade⟩
      · exact absurd hfailed' (haccepting _ (by omega))
      · refine returns_of_next (ih hnext (fun e' hphase hbad hround' => ?_) ?_ ?_ ?_ (by omega))
        · exact hpoll e' hphase hbad (hround'.trans hround)
        · rwa [hround]
        · rwa [hround]
        · rwa [hround]
    · exact returns_of_phase hphase

/-- The attempts before the one that ends the calls are gone through. -/
theorem returns_of_underway {k : ℕ} (h : Underway str outcomes e) (hk : e.round ≤ k)
    (hend : Completes (outcomes.attempt k).writes str.bytes.length ∨
      Refused (outcomes.attempt k) str.bytes.length)
    (hfails : ∀ j < k, Fails (outcomes.attempt j).writes str.bytes.length) :
    Execution.Returns str outcomes e := by
  induction hleft : k - e.round generalizing e with
  | zero =>
    obtain rfl : e.round = k := by omega
    rcases hend with hcompletes | ⟨hfails, hhup, hrefused⟩
    · exact returns_of_completes h hcompletes
    · refine returns_of_fails h hfails fun e' hphase hbad hround => ?_
      rw [← hround] at hhup hrefused
      rcases next_of_polling str outcomes hphase hbad with
        ⟨-, hphase, hbad, hround'⟩ | ⟨hnone, -⟩
      · rw [← hround'] at hrefused
        rcases next_of_connecting str outcomes hphase hbad with
          ⟨-, hphase⟩ | ⟨hconnected, -⟩
        · exact returns_of_next (returns_of_next (returns_of_phase hphase))
        · rw [hrefused] at hconnected
          cases hconnected
      · exact absurd hnone hhup
  | succ left ih =>
    refine returns_of_fails h (hfails _ (by omega)) fun e' hphase hbad hround => ?_
    rcases next_of_polling str outcomes hphase hbad with
      ⟨-, hphase, hbad, hround'⟩ | ⟨-, hunderway, hround'⟩
    · rcases next_of_connecting str outcomes hphase hbad with
        ⟨-, hphase⟩ | ⟨-, hunderway, hround''⟩
      · exact returns_of_next (returns_of_next (returns_of_phase hphase))
      · exact returns_of_next (returns_of_next (ih hunderway (by omega) (by omega)))
    · exact returns_of_next (ih hunderway (by omega) (by omega))

/-- What has a cause returns. -/
theorem returns_of_cause (h : Cause str isBad outcomes) : Returns str isBad outcomes := by
  have hattempt : Underway str outcomes ⟨refreshed str { isBad := false }, 0, 0⟩ :=
    underway_refreshed rfl 0
  cases isBad with
  | false =>
    obtain ⟨hbad, -⟩ | ⟨k, hend, hfails⟩ := h
    · cases hbad
    · exact returns_of_underway hattempt (Nat.zero_le k) hend hfails
  | true =>
    refine returns_of_next ?_
    have hstart := @next_of_start ⟨start str true, 0, 0⟩ str outcomes rfl rfl rfl
    rcases hstart with ⟨-, hphase⟩ | ⟨hconnected, hunderway, hround⟩
    · exact returns_of_phase hphase
    · obtain ⟨-, hrefused⟩ | ⟨k, hend, hfails⟩ := h
      · rw [hrefused] at hconnected
        cases hconnected
      · exact returns_of_underway hunderway (hround ▸ Nat.zero_le k) hend hfails

/-- **When a write returns**: there is no socket and none can be made, or an attempt
accepts all bytes, or fails on a socket that is hung up and cannot be replaced, and
every attempt before it fails. -/
theorem returns_iff (str : Buffer) (isBad : Bool) (outcomes : Outcomes) :
    Returns str isBad outcomes ↔
      (isBad = true ∧ outcomes.connected = false) ∨
        ∃ k, (Completes (outcomes.attempt k).writes str.bytes.length ∨
            Refused (outcomes.attempt k) str.bytes.length) ∧
          ∀ j < k, Fails (outcomes.attempt j).writes str.bytes.length :=
  ⟨cause_of_returns, returns_of_cause⟩

/-- `write` reports an error each time, and `poll` an error but no hang-up. -/
theorem not_returns_error :
    ¬Returns ⟨ascii "a", by decide⟩ false
      ⟨true, fun _ => ⟨fun _ => .failed, 0x8, true⟩⟩ := by
  intro h
  rcases cause_of_returns h with ⟨hbad, -⟩ | ⟨k, ⟨made, haccepting, hle⟩ | ⟨-, hhup, -⟩, -⟩
  · cases hbad
  · cases made with
    | zero => exact Nat.not_succ_le_zero 0 hle
    | succ made => exact haccepting 0 (Nat.succ_pos made) rfl
  · exact hhup (show 0x8 &&& pollHup = 0 by decide)

end Connection

end Statsdcc
