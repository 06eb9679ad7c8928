import Mathlib
import Statsdcc.Ledger.Entries
import Statsdcc.Lib.Binary64

/-!
# Sample rates

`buffer` divides by the sample rate of a counter or a timer, and reads it with a
conversion whose result it does not check. A line of which no number is read
keeps the rate `1`; any number is taken as it is.

## Main definitions

- `scannedRate` — the number that a line gives as its rate
- `GoodRate` — it gives none, or a positive finite one
- `Ledger.EveryCounter` — all counters have a property
- `SafeLine` — the rate of a line is a positive double and no sum overflows

## Main results

- `rate_pos_iff`, `rate_binary64_iff` — when the rate of a line is positive and finite
- `Ledger.EveryCounter.buffer_iff` — what one line does to the counters
- `finiteCounters_replay` — good rates keep exact counters finite
- `sampling_safe_iff` — a run divides by positive numbers and keeps its counters finite
  exactly when all of its lines are safe
-/

open Bytes

namespace Statsdcc

/-- The number that `%lf` reads where a rate stands, if it reads one. -/
def scanRate : Bytes → Option Number
  | b :: a :: tail =>
    if b = bar ∧ a = atSign then (scanNumber (tail.dropWhile isSpace)).map Prod.fst else none
  | _ => none

/-- The number that a line gives as its sample rate. -/
def scannedRate (metric : Bytes) : Option Number :=
  (splitLine (cStr metric)).bind fun parts =>
    scanRate (parts.2.2.drop (typeField parts.2.2).length)

/-- The line gives no rate, or a positive finite one. -/
def GoodRate (metric : Bytes) : Prop :=
  ∀ x ∈ scannedRate metric, ∃ q : ℚ, x = .finite q ∧ 0 < q

section

variable {R : Type} [CDouble R]

/-- The line is stored as a counter or as a timer. -/
def Sampled (cast : Bytes → Option R) (metric : Bytes) : Prop :=
  ∃ buffers type x, parseLine cast metric = some (buffers, type, x) ∧
    (type = .counter ∨ type = .timer)

/-- The value of the line has the property if it is stored as a counter. -/
def CounterValue (P : R → Prop) (cast : Bytes → Option R) (metric : Bytes) : Prop :=
  ∀ buffers x, parseLine cast metric = some (buffers, .counter, x) → P x

/-- Every entry of the map has the property. -/
def EveryEntry (P : R → Prop) (m : UnorderedMap Bytes R) : Prop :=
  ∀ k x, m.lookup k = some x → P x

/-- The counters that `buffer` computes with sample rates have the property. -/
structure Ledger.EveryCounter (P : R → Prop) (l : Ledger R) : Prop where
  counters : EveryEntry P l.counters
  timerCounters : EveryEntry P l.timerCounters

-- ════════════════════════════════════════════════════════════════════════
-- The rate of one line
-- ════════════════════════════════════════════════════════════════════════

/-- The rate is the number that is read, and `1` if none is. -/
theorem rateBehind_eq (s : Bytes) : (rateBehind s : R) = (scanRate s).elim 1 Number.toDouble := by
  match s with
  | [] => rfl
  | [b] => rfl
  | b :: a :: tail =>
    rw [rateBehind, scanRate]
    split
    · cases scanNumber (tail.dropWhile isSpace) <;> rfl
    · rfl

theorem sampleRate_of_parse {cast : Bytes → Option R} {metric : Bytes}
    {buffers : ScanBuffers R} {checked : MetricType × R}
    (h : parseLine cast metric = some (buffers, checked)) :
    buffers.sampleRate = (scannedRate metric).elim 1 Number.toDouble := by
  obtain ⟨name, value, rest, hsplit, rfl, -⟩ := parseLine_eq_some.mp h
  rw [scannedRate, hsplit]
  exact rateBehind_eq _

-- ════════════════════════════════════════════════════════════════════════
-- The counters behind one line
-- ════════════════════════════════════════════════════════════════════════

omit [CDouble R] in
theorem everyEntry_empty (P : R → Prop) : EveryEntry P ∅ := by
  intro k x h
  cases h

omit [CDouble R] in
/-- A changed entry is the only one to look at. -/
theorem EveryEntry.modify_iff {P : R → Prop} {m : UnorderedMap Bytes R} (h : EveryEntry P m)
    (name : Bytes) (d : R) (f : R → R) :
    EveryEntry P (m.modify name d f) ↔ P (f ((m.lookup name).getD d)) := by
  constructor
  · intro hmodified
    exact hmodified name _ (UnorderedMap.lookup_modify_self m name d f)
  · intro hnew k x hx
    by_cases hk : k = name
    · subst hk
      rw [UnorderedMap.lookup_modify_self, Option.some.injEq] at hx
      exact hx ▸ hnew
    · rw [UnorderedMap.lookup_modify_ne _ hk] at hx
      exact h k x hx

omit [CDouble R] in
theorem EveryEntry.getD {P : R → Prop} {m : UnorderedMap Bytes R} (h : EveryEntry P m) {d : R}
    (hd : P d) (name : Bytes) : P ((m.lookup name).getD d) := by
  cases hold : m.lookup name with
  | none => exact hd
  | some x => exact h name x hold

/-- The counter that a line writes has the property behind it. -/
def WrittenCounter (P : R → Prop) (env : Env R) (l : Ledger R) (metric : Bytes) : Prop :=
  match parseLine env.lexicalCast metric with
  | none => P ((l.counters.lookup env.config.badLinesSeen).getD 0 + 1)
  | some (buffers, .counter, x) =>
    P ((l.counters.lookup buffers.nameBuffer).getD 0 + x * (1 / buffers.sampleRate))
  | some (buffers, .timer, _) =>
    P ((l.timerCounters.lookup buffers.nameBuffer).getD 0 + 1 / buffers.sampleRate)
  | some _ => True

/-- A line writes one counter at most. -/
theorem Ledger.EveryCounter.buffer_iff {P : R → Prop} {env : Env R} {l : Ledger R}
    (h : l.EveryCounter P) (metric : Bytes) :
    (l.buffer env metric).EveryCounter P ↔ WrittenCounter P env l metric := by
  rw [WrittenCounter]
  rcases hparse : parseLine env.lexicalCast metric with _ | ⟨buffers, type, x⟩
  · rw [buffer_of_bad hparse]
    refine Iff.trans ?_ (h.counters.modify_iff env.config.badLinesSeen 0 (· + 1))
    exact ⟨fun h' => h'.counters, fun hnew => ⟨hnew, h.timerCounters⟩⟩
  · rw [buffer_of_parse hparse]
    cases type with
    | counter =>
      refine Iff.trans ?_ (h.counters.modify_iff _ 0 (· + x * (1 / buffers.sampleRate)))
      exact ⟨fun h' => h'.counters, fun hnew => ⟨hnew, h.timerCounters⟩⟩
    | timer =>
      refine Iff.trans ?_ (h.timerCounters.modify_iff _ 0 (· + 1 / buffers.sampleRate))
      exact ⟨fun h' => h'.timerCounters, fun hnew => ⟨h.counters, hnew⟩⟩
    | gauge =>
      refine iff_of_true ?_ trivial
      simp only [Ledger.store]
      split <;> exact ⟨h.counters, h.timerCounters⟩
    | set => exact iff_of_true ⟨h.counters, h.timerCounters⟩ trivial

/-- Lines whose counters have the property behind every front of the run keep it. -/
theorem everyCounter_replay_iff (P : R → Prop) (env : Env R) (lines : List Bytes) :
    (∀ front, front <+: lines → (Ledger.replay env front).EveryCounter P) ↔
      ∀ front line, front ++ [line] <+: lines →
        (Ledger.replay env front).EveryCounter P →
          WrittenCounter P env (Ledger.replay env front) line := by
  constructor
  · intro h front line hfront hcounters
    have hnext := h _ hfront
    rwa [Ledger.replay_concat, hcounters.buffer_iff] at hnext
  · intro h front hfront
    induction front using List.reverseRecOn with
    | nil => exact ⟨everyEntry_empty P, everyEntry_empty P⟩
    | append_singleton front line ih =>
      have hcounters := ih ((List.prefix_append _ _).trans hfront)
      rw [Ledger.replay_concat, hcounters.buffer_iff]
      exact h front line hfront hcounters

end

-- ════════════════════════════════════════════════════════════════════════
-- Exact numbers
-- ════════════════════════════════════════════════════════════════════════

/-- The value is a number, neither an infinity nor NaN. -/
def IsNumber (x : Exact) : Prop := ∃ q : ℚ, x = .fin q

/-- The rate of an accepted line is positive and finite exactly when the line gives
none, or a positive finite one. -/
theorem rate_pos_iff {cast : Bytes → Option Exact} {metric : Bytes} {buffers : ScanBuffers Exact}
    {checked : MetricType × Exact} (h : parseLine cast metric = some (buffers, checked)) :
    (∃ q : ℚ, buffers.sampleRate = .fin q ∧ 0 < q) ↔ GoodRate metric := by
  rw [sampleRate_of_parse h, GoodRate]
  cases hrate : scannedRate metric with
  | none =>
    refine ⟨fun _ x hx => ?_, fun _ => ⟨1, rfl, one_pos⟩⟩
    cases hx
  | some x =>
    simp only [Option.elim_some, Option.mem_some_iff, forall_eq']
    cases x with
    | finite q =>
      constructor
      · rintro ⟨p, hp, hpos⟩
        cases hp
        exact ⟨_, rfl, hpos⟩
      · rintro ⟨p, hp, hpos⟩
        cases hp
        exact ⟨_, rfl, hpos⟩
    | inf neg => constructor <;> (rintro ⟨q, hq, -⟩; cases hq)
    | nan => constructor <;> (rintro ⟨q, hq, -⟩; cases hq)

theorem IsNumber.add {x y : Exact} (hx : IsNumber x) (hy : IsNumber y) : IsNumber (x + y) := by
  obtain ⟨p, rfl⟩ := hx
  obtain ⟨q, rfl⟩ := hy
  exact ⟨p + q, rfl⟩

/-- Good rates keep the counters of a run finite. -/
theorem finiteCounters_replay {env : Env Exact} {lines : List Bytes}
    (hvalues : ∀ line ∈ lines, CounterValue IsNumber env.lexicalCast line)
    (hrates : ∀ line ∈ lines, Sampled env.lexicalCast line → GoodRate line) :
    (Ledger.replay env lines).EveryCounter IsNumber := by
  refine (everyCounter_replay_iff IsNumber env lines).mpr (fun front line hfront h => ?_) lines
    List.prefix_rfl
  have hline : line ∈ lines := hfront.subset (by simp)
  have hzero : IsNumber 0 := ⟨0, rfl⟩
  rw [WrittenCounter]
  rcases hparse : parseLine env.lexicalCast line with _ | ⟨buffers, type, x⟩
  · exact (h.counters.getD hzero _).add ⟨1, rfl⟩
  · have hrate : type = .counter ∨ type = .timer → IsNumber (1 / buffers.sampleRate) := by
      intro htype
      obtain ⟨q, hq, hpos⟩ :=
        (rate_pos_iff hparse).mpr (hrates line hline ⟨buffers, type, x, hparse, htype⟩)
      exact ⟨1 / q, by rw [hq, Exact.one_div_fin hpos.ne']⟩
    cases type with
    | counter =>
      obtain ⟨p, rfl⟩ := hvalues line hline buffers x hparse
      obtain ⟨q, hq⟩ := hrate (.inl rfl)
      exact (h.counters.getD hzero _).add ⟨p * q, by rw [hq, Exact.fin_mul_fin]⟩
    | timer => exact (h.timerCounters.getD hzero _).add (hrate (.inr rfl))
    | gauge => trivial
    | set => trivial

-- ════════════════════════════════════════════════════════════════════════
-- Doubles
-- ════════════════════════════════════════════════════════════════════════

open Binary64

/-- The line gives no rate, or one that is rounded to a positive finite double. -/
def DoubleRate (metric : Bytes) : Prop :=
  ∀ x ∈ scannedRate metric, ∃ q : ℚ, x = .finite q ∧ 2 ^ (-1075 : ℤ) < q ∧ ¬Overflows q

/-- A positive finite double. -/
def IsPositive (x : Binary64) : Prop := x.IsFinite ∧ 0 < x.toRat

theorem isPositive_one : IsPositive 1 :=
  ⟨⟨1, val_one⟩, by rw [toRat, val_one]; exact one_pos⟩

/-- What is read from a text is positive and finite exactly when the number is neither too
small nor too large. -/
theorem isPositive_toDouble_iff (x : Number) :
    IsPositive (x.toDouble : Binary64) ↔
      ∃ q : ℚ, x = .finite q ∧ 2 ^ (-1075 : ℤ) < q ∧ ¬Overflows q := by
  cases x with
  | finite q =>
    have hread : (Number.finite q).toDouble = if Overflows q then
        (CDouble.inf (decide (q < 0)) : Binary64) else ofExact (.fin q) := by
      by_cases hover : Overflows q
      · rw [if_pos hover]
        simp only [Number.toDouble, CDouble.ofRat, if_pos hover, Option.getD_none]
      · rw [if_neg hover]
        simp only [Number.toDouble, CDouble.ofRat, if_neg hover, Option.getD_some]
    rw [hread]
    by_cases hover : Overflows q
    · rw [if_pos hover]
      refine iff_of_false ?_ ?_
      · rintro ⟨⟨p, hp⟩, -⟩
        cases hp
      · rintro ⟨p, hp, -, hfits⟩
        cases hp
        exact hfits hover
    · rw [if_neg hover]
      obtain ⟨hfinite, hvalue⟩ := val_eq_of_not_overflows (x := ofExact (.fin q)) rfl hover
      rw [IsPositive, hvalue, nearest_pos_iff]
      constructor
      · rintro ⟨-, hpos⟩
        exact ⟨q, rfl, hpos, hover⟩
      · rintro ⟨p, hp, hpos, -⟩
        cases hp
        exact ⟨hfinite, hpos⟩
  | inf neg =>
    refine iff_of_false ?_ ?_
    · rintro ⟨⟨p, hp⟩, -⟩
      cases hp
    · rintro ⟨p, hp, -⟩
      cases hp
  | nan =>
    refine iff_of_false ?_ ?_
    · rintro ⟨⟨p, hp⟩, -⟩
      cases hp
    · rintro ⟨p, hp, -⟩
      cases hp

/-- The rate of an accepted line is a positive finite double exactly when the line gives
none, or one that is rounded to such a double. -/
theorem rate_binary64_iff {cast : Bytes → Option Binary64} {metric : Bytes}
    {buffers : ScanBuffers Binary64} {checked : MetricType × Binary64}
    (h : parseLine cast metric = some (buffers, checked)) :
    IsPositive buffers.sampleRate ↔ DoubleRate metric := by
  rw [sampleRate_of_parse h, DoubleRate]
  cases scannedRate metric with
  | none =>
    refine iff_of_true isPositive_one fun x hx => ?_
    cases hx
  | some x =>
    simp only [Option.elim_some, Option.mem_some_iff, forall_eq']
    exact isPositive_toDouble_iff x

/-- No operation overflows: not the quotient `1 / rate`, not its product with the value of a
counter, and not the sum with what has been counted under the name. -/
def InRange (l : Ledger Binary64) (buffers : ScanBuffers Binary64) (type : MetricType)
    (value : Binary64) : Prop :=
  let quotient := nearest (1 / buffers.sampleRate.toRat)
  ¬Overflows (1 / buffers.sampleRate.toRat) ∧
    match type with
    | .counter =>
      ¬Overflows (value.toRat * quotient) ∧
        ¬Overflows (((l.counters.lookup buffers.nameBuffer).getD 0).toRat +
          nearest (value.toRat * quotient))
    | .timer =>
      ¬Overflows (((l.timerCounters.lookup buffers.nameBuffer).getD 0).toRat + quotient)
    | _ => True

/-- The line is no counter and no timer, or its rate is good and nothing overflows. -/
def SafeLine (cast : Bytes → Option Binary64) (l : Ledger Binary64) (metric : Bytes) : Prop :=
  ∀ buffers type value, parseLine cast metric = some (buffers, type, value) →
    type = .counter ∨ type = .timer → DoubleRate metric ∧ InRange l buffers type value

/-- What is counted stays finite exactly when nothing overflows. -/
theorem writtenCounter_iff {env : Env Binary64} {l : Ledger Binary64} {line : Bytes}
    (h : l.EveryCounter IsFinite) (hvalue : CounterValue IsFinite env.lexicalCast line)
    (hrate : Sampled env.lexicalCast line → DoubleRate line) :
    WrittenCounter IsFinite env l line ↔ SafeLine env.lexicalCast l line := by
  rw [WrittenCounter, SafeLine]
  rcases hparse : parseLine env.lexicalCast line with _ | ⟨buffers, type, x⟩
  · refine iff_of_true (isFinite_add_one (h.counters.getD isFinite_zero _)) ?_
    intro buffers type value hnone
    cases hnone
  · have hsampled : type = .counter ∨ type = .timer → DoubleRate line := fun htype =>
      hrate ⟨buffers, type, x, hparse, htype⟩
    have hsafe : (∀ buffers' type' value, some (buffers, type, x) = some (buffers', type', value) →
        type' = .counter ∨ type' = .timer → DoubleRate line ∧ InRange l buffers' type' value) ↔
          (type = .counter ∨ type = .timer → InRange l buffers type x) := by
      constructor
      · intro hall htype
        exact (hall buffers type x rfl htype).2
      · intro hrange buffers' type' value heq htype
        cases heq
        exact ⟨hsampled htype, hrange htype⟩
    rw [hsafe]
    cases type with
    | counter =>
      obtain ⟨hfinite, hpos⟩ := (rate_binary64_iff hparse).mpr (hsampled (.inl rfl))
      have hx : x.IsFinite := hvalue buffers x hparse
      have hentry : ((l.counters.lookup buffers.nameBuffer).getD 0).IsFinite :=
        h.counters.getD isFinite_zero _
      have hquotient := val_one_div hfinite hpos.ne'
      rw [forall_prop_of_true (.inl rfl), InRange]
      dsimp only
      rw [isFinite_add_iff hentry, isFinite_mul_iff hx, isFinite_iff_of_val hquotient, and_assoc]
      refine and_congr_right fun hfits => ?_
      have hvalue' := (val_eq_of_not_overflows hquotient hfits).2
      rw [hvalue']
      refine and_congr_right fun hproduct => ?_
      have hmul : (x * (1 / buffers.sampleRate)).IsFinite := by
        rw [isFinite_mul_iff hx, isFinite_iff_of_val hquotient, hvalue']
        exact ⟨hfits, hproduct⟩
      rw [toRat_mul hx hmul, hvalue']
    | timer =>
      obtain ⟨hfinite, hpos⟩ := (rate_binary64_iff hparse).mpr (hsampled (.inr rfl))
      have hentry : ((l.timerCounters.lookup buffers.nameBuffer).getD 0).IsFinite :=
        h.timerCounters.getD isFinite_zero _
      have hquotient := val_one_div hfinite hpos.ne'
      rw [forall_prop_of_true (.inr rfl), InRange]
      dsimp only
      rw [isFinite_add_iff hentry, isFinite_iff_of_val hquotient]
      refine and_congr_right fun hfits => ?_
      rw [(val_eq_of_not_overflows hquotient hfits).2]
    | gauge => exact iff_of_true trivial fun htype => by simp at htype
    | set => exact iff_of_true trivial fun htype => by simp at htype

/-- **Sampling never divides by zero** exactly in the runs whose lines are safe: the
rate of every counter and timer is a positive finite double, and the counters of every
ledger of the run are finite. -/
theorem sampling_safe_iff (env : Env Binary64) {lines : List Bytes}
    (hvalues : ∀ line ∈ lines, CounterValue IsFinite env.lexicalCast line) :
    ((∀ line ∈ lines, ∀ buffers type x,
        parseLine env.lexicalCast line = some (buffers, type, x) →
          type = .counter ∨ type = .timer → IsPositive buffers.sampleRate) ∧
      ∀ front, front <+: lines → (Ledger.replay env front).EveryCounter IsFinite) ↔
      ∀ front line, front ++ [line] <+: lines →
        SafeLine env.lexicalCast (Ledger.replay env front) line := by
  have hmem : ∀ {front line}, front ++ [line] <+: lines → line ∈ lines := fun hfront =>
    hfront.subset (by simp)
  constructor
  · rintro ⟨hpos, hfinite⟩ front line hfront
    have hcounters := hfinite front ((List.prefix_append _ _).trans hfront)
    refine (writtenCounter_iff hcounters (hvalues line (hmem hfront)) ?_).mp ?_
    · rintro ⟨buffers, type, x, hparse, htype⟩
      exact (rate_binary64_iff hparse).mp (hpos line (hmem hfront) buffers type x hparse htype)
    · exact (everyCounter_replay_iff IsFinite env lines).mp hfinite front line hfront hcounters
  · intro hsafe
    constructor
    · intro line hline buffers type x hparse htype
      obtain ⟨front, back, rfl⟩ := List.append_of_mem hline
      have hfront : front ++ [line] <+: front ++ line :: back := by simp
      exact (rate_binary64_iff hparse).mpr
        (hsafe front line hfront buffers type x hparse htype).1
    · refine (everyCounter_replay_iff IsFinite env lines).mpr fun front line hfront hcounters => ?_
      refine (writtenCounter_iff hcounters (hvalues line (hmem hfront)) ?_).mpr
        (hsafe front line hfront)
      rintro ⟨buffers, type, x, hparse, htype⟩
      exact (hsafe front line hfront buffers type x hparse htype).1

theorem sampling_safe_half :
    ((∀ line ∈ [ascii "a:4|c|@0.5"], ∀ (buffers : ScanBuffers Binary64) type x,
        parseLine lexicalCast line = some (buffers, type, x) →
          type = .counter ∨ type = .timer → IsPositive buffers.sampleRate) ∧
      ∀ front, front <+: [ascii "a:4|c|@0.5"] →
        (Ledger.replay ⟨{}, lexicalCast⟩ front).EveryCounter IsFinite) ↔
      ∀ front line, front ++ [line] <+: [ascii "a:4|c|@0.5"] →
        SafeLine lexicalCast (Ledger.replay ⟨{}, lexicalCast⟩ front) line := by
  refine sampling_safe_iff ⟨{}, lexicalCast⟩ fun line hline buffers x hparse => ?_
  rw [List.mem_singleton] at hline
  subst hline
  have hvalue : (parseLine lexicalCast (ascii "a:4|c|@0.5")).map
      (fun parsed => Binary64.val parsed.2.2) = some (Exact.fin 4) := by decide +kernel
  rw [hparse, Option.map_some, Option.some.injEq] at hvalue
  exact ⟨4, hvalue⟩

/-- A rate of zero makes the counter infinite. -/
theorem counter_infinite :
    (∃ buffers, parseLine lexicalCast (ascii "a:1|c|@0") =
        some (buffers, .counter, (1 : Binary64)) ∧ buffers.sampleRate = 0) ∧
      (Ledger.replay ⟨{}, lexicalCast⟩ [ascii "a:1|c|@0"]).counters.lookup (ascii "a") =
        some (CDouble.inf (R := Binary64) false) := by
  constructor
  · have hparse : (parseLine lexicalCast (ascii "a:1|c|@0")).map
        (fun parsed => (parsed.1.sampleRate, parsed.2)) =
          some ((0 : Binary64), .counter, 1) := by decide +kernel
    obtain ⟨⟨buffers, checked⟩, hparse, heq⟩ := Option.map_eq_some_iff.mp hparse
    obtain ⟨hrate, rfl⟩ := Prod.mk.inj heq
    exact ⟨buffers, hparse, hrate⟩
  · decide +kernel

end Statsdcc
