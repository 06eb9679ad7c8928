import Mathlib
import Statsdcc.Ledger.WellFormed
import Statsdcc.Lib.Binary64

/-!
# Blanks around the type

`buffer` trims leading blanks of the type and compares only its start, so that
blanks behind it do not matter. It reads at most two characters before it trims,
though: blanks in front compete with the type for them, and a blank that is left
over stands where the rate is looked for. All of this is the same in every arithmetic of
`double`; whether a rate that is pushed away is missed depends on it.

## Main definitions

- `MetricLine.paddedText` — a line with blanks on both sides of its type
- `MetricLine.SameSum` — two rates have the same effect on a ledger

## Main results

- `parseLine_paddedText_of_le`, `parseLine_paddedText_of_lt` — what is read of a
  padded line
- `blanks_iff` — when it has the effect of the line without blanks
-/

open Bytes

namespace Statsdcc

/-- A type with blanks around it. -/
def paddedType (type : MetricType) (before after : ℕ) : Bytes :=
  List.replicate before space ++ (type.text ++ List.replicate after space)

theorem length_paddedType (type : MetricType) (before after : ℕ) :
    (paddedType type before after).length = before + type.text.length + after := by
  simp [paddedType, Nat.add_assoc]

theorem notMem_paddedType {c : Byte} (hspace : c ≠ space) {type : MetricType}
    (htype : c ∉ type.text) (before after : ℕ) : c ∉ paddedType type before after := by
  have hblank : ∀ n, c ∉ List.replicate n space := fun n h => hspace (List.eq_of_mem_replicate h)
  simp only [paddedType, List.mem_append, not_or]
  exact ⟨hblank before, htype, hblank after⟩

theorem bar_notMem_paddedType (type : MetricType) (before after : ℕ) :
    bar ∉ paddedType type before after :=
  notMem_paddedType (by decide) (by cases type <;> decide) before after

-- ════════════════════════════════════════════════════════════════════════
-- The two characters of the type field
-- ════════════════════════════════════════════════════════════════════════

/-- A type that fits into the field behind its blanks is found there. -/
theorem trim_field_of_le {type : MetricType} {before : ℕ}
    (h : before + type.text.length ≤ 2) (after : ℕ) :
    ∃ rest, ((paddedType type before after).take 2).dropWhile (· = space) = type.text ++ rest := by
  refine ⟨(List.replicate after space).take (2 - before - type.text.length), ?_⟩
  have hbefore : (List.replicate before space).take 2 = List.replicate before space :=
    List.take_of_length_le (by rw [List.length_replicate]; omega)
  have htype : type.text.take (2 - before) = type.text := List.take_of_length_le (by omega)
  rw [paddedType, List.take_append, hbefore, List.length_replicate, List.take_append, htype,
    List.dropWhile_append_of_pos (by simp),
    MetricLine.dropWhile_space_typeText]

/-- Two blanks fill the field. -/
theorem trim_field_of_two {before : ℕ} (h : 2 ≤ before) (type : MetricType) (after : ℕ) :
    ((paddedType type before after).take 2).dropWhile (· = space) = [] := by
  obtain ⟨n, rfl⟩ := Nat.exists_eq_add_of_le' h
  rfl

/-- Only a timer can lose its second letter. -/
theorem timer_of_cut {type : MetricType} {before : ℕ} (h : 2 < before + type.text.length)
    (hbefore : before < 2) : type = .timer ∧ before = 1 := by
  have hlength : type.text.length = if type = .timer then 2 else 1 := by cases type <;> rfl
  rw [hlength] at h
  split at h
  · rename_i htimer
    exact ⟨htimer, by omega⟩
  · omega

theorem rateBehind_of_ne {R : Type} [CDouble R] {c : Byte} (h : c ≠ bar) (s : Bytes) :
    (rateBehind (c :: s) : R) = 1 := by
  cases s with
  | nil => rfl
  | cons a s => rw [rateBehind, if_neg fun hc => h hc.1]

namespace MetricLine

/-- The line with blanks around its type. -/
def paddedText (line : MetricLine) (before after : ℕ) : Bytes :=
  line.withRest (paddedType line.value.type before after ++ rateText line.rate)

theorem nul_notMem_padded (line : MetricLine) (before after : ℕ) :
    nul ∉ paddedType line.value.type before after ++ rateText line.rate := by
  rw [List.mem_append, not_or]
  exact ⟨notMem_paddedType (by decide) (nul_notMem_typeText _) before after,
    nul_notMem_rateText _⟩

theorem typeField_padded (line : MetricLine) (before after : ℕ) :
    typeField (paddedType line.value.type before after ++ rateText line.rate) =
      (paddedType line.value.type before after).take 2 := by
  have hrate : rateText line.rate = [] ∨ (rateText line.rate).head? = some bar := by
    cases line.rate with
    | none => exact .inl rfl
    | some r => exact .inr rfl
  exact scansetItem_append 2 (bar_notMem_paddedType _ before after) hrate

section

variable {R : Type} [CDouble R] {cast : Bytes → Option R}

/-- The rate that is read of a padded line: a blank behind the field hides it. -/
def paddedRate (line : MetricLine) (before after : ℕ) : R :=
  if before + line.value.type.text.length + after ≤ 2 then line.sampleRate else 1

theorem lineRate_padded (line : MetricLine) (before after : ℕ) :
    (lineRate (paddedType line.value.type before after ++ rateText line.rate) : R) =
      line.paddedRate before after := by
  have hlength := length_paddedType line.value.type before after
  rw [lineRate, typeField_padded, drop_length_take_append, paddedRate]
  split
  · rename_i hle
    rw [List.drop_eq_nil_of_le (hlength.trans_le hle), List.nil_append, rateBehind_rateText]
  · rename_i hgt
    obtain ⟨c, left, hleft⟩ := List.exists_cons_of_length_pos
      (l := (paddedType line.value.type before after).drop 2) (by rw [List.length_drop]; omega)
    have hc : c ≠ bar := by
      rintro rfl
      refine bar_notMem_paddedType line.value.type before after (List.mem_of_mem_drop (i := 2) ?_)
      rw [hleft]
      exact .head _
    rw [hleft, List.cons_append, rateBehind_of_ne hc]

-- ════════════════════════════════════════════════════════════════════════
-- Parsing a padded line
-- ════════════════════════════════════════════════════════════════════════

/-- A padded line whose type fits into the field is stored with its own type and
value. -/
theorem parseLine_paddedText_of_le (hspec : LexicalCastSpec cast) {line : MetricLine}
    (hfits : line.Fits) {before : ℕ} (h : before + line.value.type.text.length ≤ 2)
    (after : ℕ) :
    parseLine cast (line.paddedText before after) = line.value.number.map fun x =>
      (⟨line.name, line.value.text, (paddedType line.value.type before after).take 2,
        line.paddedRate before after⟩, line.value.type, x) := by
  obtain ⟨rest, hrest⟩ := trim_field_of_le h after
  rw [paddedText, parseLine_withRest cast hfits (line.nul_notMem_padded before after),
    typeField_padded, lineRate_padded, hrest, checkLine_typeText hspec, Option.map_map]
  rfl

/-- A padded line whose type does not fit is rejected, or it is a timer and is
stored as a counter. -/
theorem parseLine_paddedText_of_lt (hspec : LexicalCastSpec cast) {line : MetricLine}
    (hfits : line.Fits) {before : ℕ} (h : 2 < before + line.value.type.text.length)
    (after : ℕ) :
    parseLine cast (line.paddedText before after) = none ∨
      line.value.type = .timer ∧ ∃ buffers, parseLine cast (line.paddedText before after) =
        line.value.number.map fun x => (buffers, .counter, x) := by
  have hparse := parseLine_withRest cast hfits (line.nul_notMem_padded before after)
  rw [typeField_padded] at hparse
  by_cases hbefore : 2 ≤ before
  · rw [trim_field_of_two hbefore] at hparse
    exact .inl hparse
  · obtain ⟨htimer, rfl⟩ := timer_of_cut h (Nat.lt_of_not_le hbefore)
    cases hvalue : line.value with
    | timer d =>
      -- what is left of the type is the letter `m`, which is no type
      have hcheck : checkLine cast (((paddedType line.value.type 1 after).take 2).dropWhile
          (· = space)) line.value.text = (CDouble.ofRat d.value).map (.counter, ·) := by
        rw [hvalue]
        exact congrArg (Option.map _) (hspec.decimal d)
      rw [hcheck, Option.map_map] at hparse
      exact .inr ⟨rfl, _, hparse⟩
    | counter d | gauge d | set member =>
      rw [hvalue] at htimer
      cases htimer

/-- A line whose value is out of range is rejected with any blanks. -/
theorem parseLine_paddedText_of_none (hspec : LexicalCastSpec cast) {line : MetricLine}
    (hfits : line.Fits) (hnone : (line.value.number : Option R) = none) (before after : ℕ) :
    parseLine cast (line.paddedText before after) = none := by
  by_cases h : before + line.value.type.text.length ≤ 2
  · rw [parseLine_paddedText_of_le hspec hfits h, hnone, Option.map_none]
  · rcases parseLine_paddedText_of_lt hspec hfits (Nat.lt_of_not_le h) after with
      hbad | ⟨-, buffers, hparse⟩
    · exact hbad
    · rw [hparse, hnone, Option.map_none]

-- ════════════════════════════════════════════════════════════════════════
-- The effect of a padded line
-- ════════════════════════════════════════════════════════════════════════

/-- With either rate the line gives the same sum: nothing is divided by the rate, or the
quotients or their sums with what has been counted are rounded to the same. -/
def SameSum (line : MetricLine) (l : Ledger R) (x p q : R) : Prop :=
  match line.value with
  | .counter _ =>
    (l.counters.lookup line.name).getD 0 + x * (1 / p) =
      (l.counters.lookup line.name).getD 0 + x * (1 / q)
  | .timer _ =>
    (l.timerCounters.lookup line.name).getD 0 + 1 / p =
      (l.timerCounters.lookup line.name).getD 0 + 1 / q
  | .gauge _ | .set _ => True

theorem sameSum_self (line : MetricLine) (l : Ledger R) (x p : R) : line.SameSum l x p p := by
  rw [SameSum]
  cases line.value with
  | counter d => rfl
  | timer d => rfl
  | gauge d => trivial
  | set member => trivial

/-- A stored line with another rate has the same effect only if it gives the same sum. -/
theorem store_rate_iff (line : MetricLine) (l : Ledger R) (rest field : Bytes) (x p : R) :
    l.store (line.withRest rest) ⟨line.name, line.value.text, field, p⟩ line.value.type x =
      l.store line.text ⟨line.name, line.value.text, line.value.type.text, line.sampleRate⟩
        line.value.type x ↔
      line.SameSum l x p line.sampleRate := by
  have hchar : charAfterColon (line.withRest rest) = charAfterColon line.text := by
    rw [← Option.some.injEq, charAfterColon_withRest]
    exact (line.charAfterColon_withRest _).symm
  cases hvalue : line.value with
  | counter d | timer d =>
    simp only [Ledger.store, MetricValue.type, SameSum, hvalue, Ledger.mk.injEq, true_and,
      and_true, UnorderedMap.modify_eq_iff]
  | gauge d =>
    refine iff_of_true ?_ (by rw [SameSum, hvalue]; trivial)
    simp only [Ledger.store, MetricValue.type, hchar]
  | set member =>
    refine iff_of_true ?_ (by rw [SameSum, hvalue]; trivial)
    simp only [Ledger.store, MetricValue.type]

/-- A line whose type does not fit into the field has another effect. -/
theorem buffer_paddedText_ne {env : Env R} (hspec : LexicalCastSpec env.lexicalCast)
    {line : MetricLine} (hfits : line.Fits) {x : R} (hx : line.value.number = some x)
    {before : ℕ} (h : 2 < before + line.value.type.text.length) (after : ℕ) (l : Ledger R) :
    l.buffer env (line.paddedText before after) ≠ l.buffer env line.text := by
  have htext := parseLine_text hspec hfits
  rw [hx, Option.map_some] at htext
  intro heq
  rw [buffer_of_parse htext] at heq
  rcases parseLine_paddedText_of_lt hspec hfits h after with hbad | ⟨htimer, buffers, hparse⟩
  · -- a bad line does not count in the frequency of its name
    rw [buffer_of_bad hbad] at heq
    have hfrequency := congrArg Ledger.frequency heq
    rw [Ledger.frequency_store] at hfrequency
    exact UnorderedMap.modify_ne _ _ _ (fun n => by omega) hfrequency.symm
  · -- a counter does not add to the timer of its name
    rw [hx, Option.map_some] at hparse
    rw [buffer_of_parse hparse, htimer] at heq
    have htimers : l.timers = l.timers.modify line.name [] (· ++ [x]) :=
      congrArg Ledger.timers heq
    exact UnorderedMap.modify_ne _ _ _ (fun values => by simp) htimers.symm

end

/-- **Blanks around the type** do not matter exactly for lines that are rejected anyway, and
where the type fits into the field behind its blanks and its rate is not pushed away, or
gives the same sum as the rate `1`. -/
theorem blanks_iff {R : Type} [CDouble R] (env : Env R) (hspec : LexicalCastSpec env.lexicalCast)
    (line : MetricLine) (before after : ℕ) (l : Ledger R) :
    l.buffer env (line.paddedText before after) = l.buffer env line.text ↔
      ¬line.Fits ∨ ∀ x ∈ (line.value.number : Option R),
        before + line.value.type.text.length ≤ 2 ∧
          (before + line.value.type.text.length + after ≤ 2 ∨
            line.SameSum l x 1 line.sampleRate) := by
  by_cases hfits : line.Fits
  case neg =>
    have hpadded := parseLine_withRest_of_not_fits env.lexicalCast hfits
      (line.nul_notMem_padded before after)
    refine iff_of_true ?_ (.inl hfits)
    rw [buffer_of_bad (parseLine_text_of_not_fits hfits), paddedText, buffer_of_bad hpadded]
  rw [or_iff_right (not_not.mpr hfits)]
  have htext := parseLine_text hspec hfits
  cases hx : (line.value.number : Option R) with
  | none =>
    rw [hx, Option.map_none] at htext
    refine iff_of_true ?_ fun x hmem => ?_
    · rw [buffer_of_bad htext,
        buffer_of_bad (parseLine_paddedText_of_none hspec hfits hx before after)]
    · cases hmem
  | some x =>
    rw [hx, Option.map_some] at htext
    simp only [Option.mem_some_iff, forall_eq']
    by_cases h : before + line.value.type.text.length ≤ 2
    · have hpadded := parseLine_paddedText_of_le hspec hfits h after
      rw [hx, Option.map_some] at hpadded
      rw [buffer_of_parse hpadded, buffer_of_parse htext, paddedText, store_rate_iff,
        and_iff_right h, paddedRate]
      split
      · rename_i hbehind
        exact iff_of_true (line.sameSum_self _ x _) (.inl hbehind)
      · rename_i hbehind
        rw [or_iff_right hbehind]
        rfl
    · refine iff_of_false ?_ fun hle => h hle.1
      exact buffer_paddedText_ne hspec hfits hx (Nat.lt_of_not_le h) after l

/-- One blank on either side of the type of a sampled counter. -/
theorem blanks_sampledCounter :
    Ledger.buffer (R := Binary64) ⟨{}, lexicalCast⟩ {} (sampledCounter.paddedText 1 1) =
        Ledger.buffer ⟨{}, lexicalCast⟩ {} sampledCounter.text ↔
      ¬sampledCounter.Fits ∨ ∀ x ∈ (sampledCounter.value.number : Option Binary64),
        1 + sampledCounter.value.type.text.length ≤ 2 ∧
          (1 + sampledCounter.value.type.text.length + 1 ≤ 2 ∨
            sampledCounter.SameSum {} x 1 sampledCounter.sampleRate) :=
  blanks_iff ⟨{}, lexicalCast⟩ lexicalCast_spec sampledCounter 1 1 {}

/-- A blank on either side hides the rate of a counter. In front of a type, one
blank can make a counter of a timer, and two make a bad line. -/
theorem blanks_matter :
    Ledger.buffer (R := Binary64) ⟨{}, lexicalCast⟩ {} (sampledCounter.paddedText 1 1) ≠
        Ledger.buffer ⟨{}, lexicalCast⟩ {} sampledCounter.text ∧
      (sampledCounter.text = ascii "a:4|c|@0.1" ∧
        sampledCounter.paddedText 1 1 = ascii "a:4| c |@0.1") ∧
      (Ledger.buffer ⟨{}, lexicalCast⟩ {} (ascii "a:4|c|@0.1")).counters.lookup (ascii "a") =
        some (CDouble.ofInt (R := Binary64) 40) ∧
      (Ledger.buffer ⟨{}, lexicalCast⟩ {} (ascii "a:4| c |@0.1")).counters.lookup (ascii "a") =
        some (CDouble.ofInt (R := Binary64) 4) ∧
      (Ledger.buffer ⟨{}, lexicalCast⟩ {} (ascii "a:4| ms")).entries (ascii "a") =
        { frequency := some 1, counter := some (CDouble.ofInt (R := Binary64) 4) } ∧
      (Ledger.buffer (R := Binary64) ⟨{}, lexicalCast⟩ {} (ascii "a:4|  c")).entries (ascii "a") =
        {} := by
  refine ⟨fun heq => ?_, by decide +kernel⟩
  have hcounter := congrArg (fun l => l.counters.lookup (ascii "a")) heq
  exact absurd hcounter (by decide +kernel)

end MetricLine

end Statsdcc
