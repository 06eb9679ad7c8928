import Mathlib
import Statsdcc.Ledger.Tally

/-!
# Line accounting

Every line is either stored under a name or counted as bad, so the calls of
`buffer` should be the sum of the frequencies and of the bad lines. The bad lines
are counted in a counter that clients can name, too, and are read back through a
conversion from `double` to `int`.

## Main definitions

- `rejected` — the number of bad lines
- `clientShare` — what a client's line adds to the counter of the bad lines
- `Balanced` — the accounts of a run balance

## Main results

- `frequencySum_replay`, `badLines_replay` — the sum of the frequencies, and the
  counter of the bad lines
- `balanced_iff` — the accounts balance exactly when what clients add is lost in the
  conversion
-/

open Bytes

namespace Statsdcc

/-- `static_cast<int>`, `none` where it is undefined: the value, without its fraction,
must be an `int`. -/
def checkedInt : Exact → Option ℤ
  | .fin q =>
    let n := CDouble.toInt (Exact.fin q)
    if -2 ^ 31 ≤ n ∧ n < 2 ^ 31 then some n else none
  | _ => none

/-- `bad_lines_seen` with the conversion checked. -/
def Ledger.checkedBadLinesSeen (config : AggregatorConfig) (l : Ledger Binary64) : Option ℤ :=
  (l.counters.lookup config.badLinesSeen).elim (some 0) fun x => checkedInt x.val

/-- The sum of all frequencies. -/
def Ledger.frequencySum {R : Type} (l : Ledger R) : ℤ := (l.frequency.entries.map Sigma.snd).sum

section

variable {R : Type} [CDouble R]

/-- The line is bad. -/
def isBad (env : Env R) (line : Bytes) : Bool := (parseLine env.lexicalCast line).isNone

/-- The number of bad lines. -/
def rejected (env : Env R) (lines : List Bytes) : ℕ := lines.countP (isBad env)

/-- What an accepted line adds to the counter of the bad lines, if it has its name. -/
def clientShare (env : Env R) (line : Bytes) : Option R :=
  (parseLine env.lexicalCast line).bind fun parsed =>
    if parsed.1.nameBuffer = env.config.badLinesSeen ∧ parsed.2.1 = .counter then
      some (parsed.2.2 * (1 / parsed.1.sampleRate))
    else none

/-- What a line adds to the counter of the bad lines. -/
def badLinesShare (env : Env R) (line : Bytes) : Option R :=
  if isBad env line then some 1 else clientShare env line

/-- The shares of the lines, added one after the other. -/
def badLinesSum (env : Env R) (lines : List Bytes) : R :=
  (lines.filterMap (badLinesShare env)).foldl (· + ·) 0

/-- The line leaves everything but the counter of the bad lines as it is. -/
structure Ledger.OnlyBadLine (config : AggregatorConfig) (l l' : Ledger R) : Prop where
  counters : ∀ k, k ≠ config.badLinesSeen → l'.counters.lookup k = l.counters.lookup k
  timers : l'.timers = l.timers
  timerCounters : l'.timerCounters = l.timerCounters
  gauges : l'.gauges = l.gauges
  sets : l'.sets = l.sets
  frequency : l'.frequency = l.frequency

-- ════════════════════════════════════════════════════════════════════════
-- The two sums
-- ════════════════════════════════════════════════════════════════════════

/-- A bad line changes nothing but the counter of the bad lines. -/
theorem onlyBadLine_of_isBad (env : Env R) (l : Ledger R) {line : Bytes}
    (hbad : isBad env line = true) : l.OnlyBadLine env.config (l.buffer env line) := by
  rw [isBad, Option.isNone_iff_eq_none] at hbad
  rw [buffer_of_bad hbad]
  exact ⟨fun k hk => UnorderedMap.lookup_modify_ne _ hk _ _, rfl, rfl, rfl, rfl, rfl⟩

/-- A stored line adds one to the sum of the frequencies. -/
theorem frequencySum_buffer (env : Env R) (l : Ledger R) (line : Bytes) :
    (l.buffer env line).frequencySum = l.frequencySum + if isBad env line = true then 0 else 1 := by
  rcases hparse : parseLine env.lexicalCast line with _ | ⟨buffers, type, x⟩
  · rw [buffer_of_bad hparse, isBad, hparse, Option.isNone_none, if_pos rfl, add_zero]
    rfl
  · rw [buffer_of_parse hparse, isBad, hparse, Option.isNone_some, if_neg (by decide),
      Ledger.frequencySum, Ledger.frequency_store]
    exact UnorderedMap.sum_modify_add _ _ _

/-- The frequencies add up to the number of accepted lines. -/
theorem frequencySum_replay (env : Env R) (lines : List Bytes) :
    (Ledger.replay env lines).frequencySum + rejected env lines = lines.length := by
  induction lines using List.reverseRecOn with
  | nil => rfl
  | append_singleton lines line ih =>
    rw [Ledger.replay_concat, frequencySum_buffer, rejected,
      List.countP_append, List.length_append, List.countP_singleton, ← rejected]
    split <;> push_cast <;> simp only [List.length_singleton, Nat.cast_one] <;> omega

/-- What one line does to the counter of the bad lines. -/
theorem badLines_buffer (env : Env R) (l : Ledger R) (line : Bytes) :
    (l.buffer env line).counters.lookup env.config.badLinesSeen =
      (badLinesShare env line).elim (l.counters.lookup env.config.badLinesSeen)
        fun share => some ((l.counters.lookup env.config.badLinesSeen).getD 0 + share) := by
  rw [badLinesShare, isBad, clientShare]
  rcases hparse : parseLine env.lexicalCast line with _ | ⟨buffers, type, x⟩
  · rw [buffer_of_bad hparse]
    exact UnorderedMap.lookup_modify_self _ _ _ _
  · rw [buffer_of_parse hparse, Option.isNone_some, if_neg Bool.false_ne_true, Option.bind_some]
    have hentries := congrArg Entries.counter
      (entries_store l.countCall line buffers type x env.config.badLinesSeen)
    refine hentries.trans ?_
    by_cases hname : env.config.badLinesSeen = buffers.nameBuffer
    · rw [if_pos hname]
      cases type with
      | counter =>
        rw [if_pos ⟨hname.symm, rfl⟩]
        rfl
      | timer | set =>
        rw [if_neg (by simp)]
        rfl
      | gauge =>
        rw [if_neg (by simp), Entries.store]
        dsimp only
        split <;> rfl
    · rw [if_neg hname, if_neg fun h => hname h.1.symm]
      rfl

theorem badLinesSum_concat (env : Env R) (lines : List Bytes) (line : Bytes) :
    badLinesSum env (lines ++ [line]) =
      (badLinesShare env line).elim (badLinesSum env lines) (badLinesSum env lines + ·) := by
  rw [badLinesSum, List.filterMap_append, List.foldl_append, ← badLinesSum]
  cases hshare : badLinesShare env line with
  | none =>
    rw [List.filterMap_cons_none hshare]
    rfl
  | some share =>
    rw [List.filterMap_cons_some hshare]
    rfl

/-- The counter of the bad lines holds what the lines of a run add to it. -/
theorem badLines_replay (env : Env R) (lines : List Bytes) :
    ((Ledger.replay env lines).counters.lookup env.config.badLinesSeen).getD 0 =
      badLinesSum env lines := by
  induction lines using List.reverseRecOn with
  | nil => rfl
  | append_singleton lines line ih =>
    rw [Ledger.replay_concat, badLines_buffer, badLinesSum_concat]
    cases badLinesShare env line with
    | none => exact ih
    | some share =>
      rw [Option.elim_some, Option.elim_some, Option.getD_some, ih]

end

/-- The accounts of a run balance. -/
structure Balanced (env : Env Binary64) (lines : List Bytes) : Prop where
  calls : ((Ledger.replay env lines).statsdMetrics.lookup (ascii "metrics_processed")).getD 0 =
    lines.length
  balance : ∃ seen : ℤ, (Ledger.replay env lines).checkedBadLinesSeen env.config = some seen ∧
    (lines.length : ℤ) = (Ledger.replay env lines).frequencySum + seen ∧
      seen = rejected env lines
  onlyBadLine : ∀ (l : Ledger Binary64), ∀ line ∈ lines, isBad env line = true →
    l.OnlyBadLine env.config (l.buffer env line)

-- ════════════════════════════════════════════════════════════════════════
-- The conversion of the counter
-- ════════════════════════════════════════════════════════════════════════

/-- The fraction that a conversion to `int` drops. -/
theorem checkedInt_eq_some_iff {x : Exact} {n : ℕ} :
    checkedInt x = some (n : ℤ) ↔ ∃ q : ℚ, x = .fin q ∧
      ((n ≤ q ∧ q < n + 1 ∧ n < 2 ^ 31) ∨ (n = 0 ∧ -1 < q ∧ q < 1)) := by
  have hint : ∀ q : ℚ, CDouble.toInt (Exact.fin q) = if q < 0 then ⌈q⌉ else ⌊q⌋ := fun _ => rfl
  cases x with
  | fin q =>
    simp only [checkedInt, hint, Exact.fin.injEq, exists_eq_left']
    by_cases hneg : q < 0
    · have hceil : ⌈q⌉ ≤ 0 := Int.ceil_le.mpr (by exact_mod_cast hneg.le)
      have hle : ¬(n : ℚ) ≤ q := fun h => absurd (hneg.trans_le (Nat.cast_nonneg n)) (not_lt.mpr h)
      simp only [if_pos hneg, hle, false_and, false_or]
      constructor
      · intro h
        split at h
        · rw [Option.some.injEq] at h
          have hn : n = 0 := by omega
          have hlt := (Int.ceil_eq_iff.mp h).1
          rw [hn] at hlt
          refine ⟨hn, ?_, hneg.trans one_pos⟩
          simpa using hlt
        · cases h
      · rintro ⟨rfl, hlt, -⟩
        have hzero : ⌈q⌉ = 0 := Int.ceil_eq_iff.mpr ⟨by simpa using hlt, by simpa using hneg.le⟩
        rw [hzero]
        rfl
    · rw [not_lt] at hneg
      have hfloor : 0 ≤ ⌊q⌋ := Int.floor_nonneg.mpr hneg
      have hmatch : ⌊q⌋ = (n : ℤ) ↔ (n : ℚ) ≤ q ∧ q < n + 1 := by
        rw [Int.floor_eq_iff, Int.cast_natCast]
      simp only [if_neg (not_lt.mpr hneg)]
      constructor
      · intro h
        split at h
        · rw [Option.some.injEq] at h
          obtain ⟨hle, hlt⟩ := hmatch.mp h
          exact .inl ⟨hle, hlt, by omega⟩
        · cases h
      · intro h
        have hn : ⌊q⌋ = (n : ℤ) ∧ n < 2 ^ 31 := by
          rcases h with ⟨hle, hlt, hn⟩ | ⟨rfl, -, hlt⟩
          · exact ⟨hmatch.mpr ⟨hle, hlt⟩, hn⟩
          · exact ⟨hmatch.mpr ⟨by simpa using hneg, by simpa using hlt⟩, by norm_num⟩
        rw [hn.1, if_pos ⟨by omega, by omega⟩]
  | inf neg => simp [checkedInt]
  | nan => simp [checkedInt]

/-- The accounts balance exactly when the conversion of the sum gives the number of bad
lines. -/
theorem balanced_iff_checkedInt (env : Env Binary64) (lines : List Bytes) :
    Balanced env lines ↔
      checkedInt (badLinesSum env lines).val = some (rejected env lines : ℤ) := by
  have hseen : (Ledger.replay env lines).checkedBadLinesSeen env.config =
      checkedInt (badLinesSum env lines).val := by
    rw [← badLines_replay, Ledger.checkedBadLinesSeen]
    cases (Ledger.replay env lines).counters.lookup env.config.badLinesSeen with
    | none =>
      rw [Option.elim_none, Option.getD_none, Binary64.val_zero]
      rfl
    | some x => rfl
  have hsum := frequencySum_replay env lines
  rw [← hseen]
  constructor
  · intro h
    obtain ⟨seen, hchecked, -, hrejected⟩ := h.balance
    rw [hchecked, hrejected]
  · intro h
    constructor
    case calls =>
      rw [metricsProcessed_replay]
      cases lines <;> rfl
    case balance => exact ⟨_, h, hsum.symm, rfl⟩
    case onlyBadLine => exact fun l line _ hbad => onlyBadLine_of_isBad env l hbad

/-- Shares of zero do not show: the sum counts the bad lines. -/
theorem badLinesSum_of_zero {env : Env Binary64} {lines : List Bytes}
    (hzero : ∀ line ∈ lines, ∀ share ∈ clientShare env line, share = 0)
    (hfew : rejected env lines < 2 ^ 53) :
    (badLinesSum env lines).val = .fin (rejected env lines) := by
  induction lines using List.reverseRecOn with
  | nil =>
    rw [rejected, List.countP_nil, Nat.cast_zero]
    exact Binary64.val_zero
  | append_singleton lines line ih =>
    have hcount : rejected env (lines ++ [line]) =
        rejected env lines + if isBad env line = true then 1 else 0 := by
      rw [rejected, List.countP_append, List.countP_singleton, ← rejected]
    rw [hcount] at hfew ⊢
    have hfront := ih (fun line' hline => hzero line' (List.mem_append_left _ hline)) (by omega)
    rw [badLinesSum_concat, badLinesShare]
    by_cases hbad : isBad env line = true
    · rw [if_pos hbad] at hfew
      have hround := Binary64.rounded_intCast (n := (rejected env lines + 1 : ℕ))
        (by rw [Nat.abs_cast]; exact_mod_cast hfew)
      rw [if_pos hbad, if_pos hbad, Option.elim_some, Binary64.val_add, hfront, Binary64.val_one,
        Exact.fin_add_fin]
      push_cast at hround ⊢
      exact hround
    · rw [if_neg hbad, if_neg hbad, Nat.add_zero]
      cases hshare : clientShare env line with
      | none => exact hfront
      | some share =>
        have hround := Binary64.rounded_intCast (n := (rejected env lines : ℕ))
          (by rw [Nat.abs_cast]; exact_mod_cast (by omega : rejected env lines < 2 ^ 53))
        rw [Option.elim_some, Binary64.val_add, hfront,
          hzero line (by simp) share hshare, Binary64.val_zero, Exact.fin_add_fin, add_zero]
        exact_mod_cast hround

/-- **Line accounting balances** exactly when the sum of what the lines add to the counter
of the bad lines, rounded as it is added up, exceeds their number by less than one, and is
not below it unless there is none. Where the accepted lines add nothing, it balances exactly
up to the range of `int`. -/
theorem balanced_iff (env : Env Binary64) (lines : List Bytes) :
    (Balanced env lines ↔ ∃ q : ℚ, (badLinesSum env lines).val = .fin q ∧
      ((rejected env lines ≤ q ∧ q < rejected env lines + 1 ∧ rejected env lines < 2 ^ 31) ∨
        (rejected env lines = 0 ∧ -1 < q ∧ q < 1))) ∧
    ((∀ line ∈ lines, ∀ share ∈ clientShare env line, share = 0) →
      (Balanced env lines ↔ rejected env lines < 2 ^ 31)) := by
  have hiff := (balanced_iff_checkedInt env lines).trans checkedInt_eq_some_iff
  refine ⟨hiff, fun hzero => ?_⟩
  rw [hiff]
  constructor
  · rintro ⟨q, -, ⟨-, -, hfew⟩ | ⟨hnone, -⟩⟩
    · exact hfew
    · rw [hnone]
      exact Nat.two_pow_pos 31
  · intro hfew
    have hsum := badLinesSum_of_zero hzero (hfew.trans (by decide))
    exact ⟨_, hsum, .inl ⟨le_rfl, lt_add_one _, hfew⟩⟩

/-- A counter of a client with the name of the bad-lines counter counts as bad lines. -/
theorem not_balanced_client :
    (Ledger.replay ⟨{}, lexicalCast⟩ [ascii "statsdcc.bad_lines_seen:5|c"]).checkedBadLinesSeen {} =
        some 5 ∧
      rejected (R := Binary64) ⟨{}, lexicalCast⟩ [ascii "statsdcc.bad_lines_seen:5|c"] = 0 ∧
      ¬Balanced ⟨{}, lexicalCast⟩ [ascii "statsdcc.bad_lines_seen:5|c"] := by
  have hseen : (Ledger.replay ⟨{}, lexicalCast⟩
      [ascii "statsdcc.bad_lines_seen:5|c"]).checkedBadLinesSeen {} = some 5 := by decide +kernel
  have hrejected : rejected (R := Binary64) ⟨{}, lexicalCast⟩
      [ascii "statsdcc.bad_lines_seen:5|c"] = 0 := by
    decide +kernel
  refine ⟨hseen, hrejected, fun h => ?_⟩
  obtain ⟨seen, hchecked, -, hzero⟩ := h.balance
  rw [hseen, Option.some.injEq] at hchecked
  rw [hrejected] at hzero
  omega

end Statsdcc
