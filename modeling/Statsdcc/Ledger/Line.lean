import Mathlib
import Statsdcc.Ledger

/-!
# The lines that a ledger accepts

`Ledger.buffer` reads a line with one `sscanf` whose result it does not look at.
Here the call is taken apart: `splitLine` is the split into name, value and what
follows that has to succeed for any type to be read at all, and `parseLine` is
what `buffer` makes of a line.

## Main results

- `scanLine_of_split`, `scanLine_of_not_split` — what `sscanf` assigns
- `parseLine_eq_some` — the lines that are not bad
- `buffer_of_parse`, `buffer_of_bad` — the effect of either kind of line
-/

open Bytes

namespace Statsdcc

variable {R : Type} [CDouble R]

/-- The text before the first colon, the text before the next bar, and what
stands behind it. Either text is empty or too long: no split. -/
def splitLine (s : Bytes) : Option (Bytes × Bytes × Bytes) :=
  (splitField maxTokenStringLength colon s).bind fun front =>
    (splitField maxTokenStringLength bar front.2).map fun back => (front.1, back.1, back.2)

/-- The at most two characters that `%2[^|]` reads. -/
def typeField (rest : Bytes) : Bytes := scansetItem 2 bar rest

/-- The sample rate read from what stands behind the type field. -/
def rateBehind : Bytes → R
  | b :: a :: tail =>
    if b = bar ∧ a = atSign then
      (scanNumber (tail.dropWhile isSpace)).elim 1 fun x => x.1.toDouble
    else 1
  | _ => 1

def lineRate (rest : Bytes) : R := rateBehind (rest.drop (typeField rest).length)

/-- A line is split at its first colon and at the first bar behind it. -/
theorem splitLine_eq_some {s name value rest : Bytes} :
    splitLine s = some (name, value, rest) ↔
      s = name ++ colon :: (value ++ bar :: rest) ∧
        (colon ∉ name ∧ name ≠ [] ∧ name.length ≤ maxTokenStringLength) ∧
        (bar ∉ value ∧ value ≠ [] ∧ value.length ≤ maxTokenStringLength) := by
  simp only [splitLine, Option.bind_eq_some_iff, Option.map_eq_some_iff]
  constructor
  · rintro ⟨⟨name', r⟩, hfront, ⟨value', rest'⟩, hback, heq⟩
    cases heq
    obtain ⟨rfl, hname⟩ := splitField_eq_some.mp hfront
    obtain ⟨hr, hvalue⟩ := splitField_eq_some.mp hback
    exact ⟨by rw [← hr], hname, hvalue⟩
  · rintro ⟨rfl, hname, hvalue⟩
    exact ⟨(name, value ++ bar :: rest), splitField_eq_some.mpr ⟨rfl, hname⟩, (value, rest),
      splitField_eq_some.mpr ⟨rfl, hvalue⟩, rfl⟩

/-- When the split fails, no type is read. -/
theorem scanLine_of_not_split {s : Bytes} (h : splitLine s = none) :
    (scanLine (R := R) s).typeBuffer = [] := by
  have hlen : (sscanf (R := R) s lineFormat).length ≤ 2 := by
    rw [splitLine, Option.bind_eq_none_iff] at h
    cases hfront : splitField maxTokenStringLength colon s with
    | none =>
      have hone := sscanf_field_none (R := R) hfront
        [.scanset maxTokenStringLength bar, .lit bar, .scanset 2 bar, .lit bar, .lit atSign, .float]
      exact Nat.le_succ_of_le hone
    | some front =>
      have hback := h front hfront
      rw [Option.map_eq_none_iff] at hback
      have htwo := sscanf_field_none (R := R) hback
        [.scanset 2 bar, .lit bar, .lit atSign, .float]
      rw [lineFormat, sscanf_field_some hfront]
      exact Nat.succ_le_succ htwo
  have hget : (sscanf (R := R) s lineFormat)[2]? = none := List.getElem?_eq_none hlen
  simp only [scanLine, hget, bufferText]

theorem sscanf_rate (s : Bytes) :
    (sampleRateOf (sscanf s [.lit bar, .lit atSign, .float])[0]? : R) = rateBehind s := by
  rcases s with _ | ⟨b, _ | ⟨a, tail⟩⟩
  · rfl
  · by_cases hb : b = bar <;> simp [sscanf, hb, sampleRateOf, rateBehind]
  · by_cases hb : b = bar
    · by_cases ha : a = atSign
      · cases hx : scanNumber (tail.dropWhile isSpace) <;>
          simp [sscanf, hb, ha, hx, sampleRateOf, rateBehind]
      · simp [sscanf, hb, ha, sampleRateOf, rateBehind]
    · simp [sscanf, hb, sampleRateOf, rateBehind]

/-- What `sscanf` assigns when the split succeeds. -/
theorem scanLine_of_split {s name value rest : Bytes}
    (h : splitLine s = some (name, value, rest)) (htype : typeField rest ≠ []) :
    scanLine (R := R) s = ⟨name, value, typeField rest, lineRate rest⟩ := by
  simp only [splitLine, Option.bind_eq_some_iff, Option.map_eq_some_iff] at h
  obtain ⟨front, hfront, back, hback, heq⟩ := h
  cases heq
  have hscan : sscanf (R := R) s lineFormat =
      .str front.1 :: .str back.1 :: .str (typeField back.2) ::
        sscanf (back.2.drop (typeField back.2).length) [.lit bar, .lit atSign, .float] := by
    rw [lineFormat, sscanf_field_some hfront, sscanf_field_some hback]
    simp only [sscanf, typeField] at htype ⊢
    rw [if_neg htype]
  simp only [scanLine, hscan, List.getElem?_cons_zero, List.getElem?_cons_succ, bufferText,
    sscanf_rate, lineRate]

theorem scanLine_of_split_nil {s name value rest : Bytes}
    (h : splitLine s = some (name, value, rest)) (htype : typeField rest = []) :
    (scanLine (R := R) s).typeBuffer = [] := by
  simp only [splitLine, Option.bind_eq_some_iff, Option.map_eq_some_iff] at h
  obtain ⟨front, hfront, back, hback, heq⟩ := h
  cases heq
  have hscan : sscanf (R := R) s lineFormat = [.str front.1, .str back.1] := by
    rw [lineFormat, sscanf_field_some hfront, sscanf_field_some hback]
    simp only [sscanf, typeField] at htype ⊢
    rw [if_pos htype]
  simp [scanLine, hscan, bufferText]

/-- The buffers, the type and the value of a line, `none` for a bad line. -/
def parseLine (cast : Bytes → Option R) (metric : Bytes) :
    Option (ScanBuffers R × MetricType × R) :=
  let buffers : ScanBuffers R := scanLine (cStr metric)
  (checkLine cast (buffers.typeBuffer.dropWhile (· = space)) buffers.metricValueBuffer).map
    fun checked => (buffers, checked)

theorem buffer_of_bad {env : Env R} {metric : Bytes} (h : parseLine env.lexicalCast metric = none)
    (l : Ledger R) : l.buffer env metric = l.countCall.countBadLine env.config := by
  rw [parseLine, Option.map_eq_none_iff] at h
  simp only [Ledger.buffer, h]

theorem buffer_of_parse {env : Env R} {metric : Bytes} {buffers : ScanBuffers R}
    {type : MetricType} {value : R}
    (h : parseLine env.lexicalCast metric = some (buffers, type, value)) (l : Ledger R) :
    l.buffer env metric = l.countCall.store metric buffers type value := by
  simp only [parseLine, Option.map_eq_some_iff] at h
  obtain ⟨checked, hchecked, heq⟩ := h
  cases heq
  simp only [Ledger.buffer, hchecked]

/-- A line is not bad exactly when the split succeeds and its type and value
pass the tests. -/
theorem parseLine_eq_some {cast : Bytes → Option R} {metric : Bytes} {buffers : ScanBuffers R}
    {type : MetricType} {x : R} :
    parseLine cast metric = some (buffers, type, x) ↔
      ∃ name value rest, splitLine (cStr metric) = some (name, value, rest) ∧
        buffers = ⟨name, value, typeField rest, lineRate rest⟩ ∧
        checkLine cast ((typeField rest).dropWhile (· = space)) value = some (type, x) := by
  have hnil : ∀ value, checkLine cast ([].dropWhile (· = space)) value = none := fun _ => rfl
  simp only [parseLine, Option.map_eq_some_iff]
  constructor
  · rintro ⟨checked, hchecked, heq⟩
    cases heq
    rcases hsplit : splitLine (cStr metric) with _ | ⟨name, value, rest⟩
    · rw [scanLine_of_not_split hsplit, hnil] at hchecked
      cases hchecked
    · by_cases htype : typeField rest = []
      · rw [scanLine_of_split_nil hsplit htype, hnil] at hchecked
        cases hchecked
      · rw [scanLine_of_split hsplit htype] at hchecked ⊢
        exact ⟨name, value, rest, rfl, rfl, hchecked⟩
  · rintro ⟨name, value, rest, hsplit, rfl, hchecked⟩
    have htype : typeField rest ≠ [] := by
      intro hnil'
      rw [hnil', hnil] at hchecked
      cases hchecked
    refine ⟨(type, x), ?_, ?_⟩
    · rw [scanLine_of_split hsplit htype]
      exact hchecked
    · rw [scanLine_of_split hsplit htype]

/-- The text before the first colon, as `AggregatorConsumer::consume` takes it. -/
def lineName (metric : Bytes) : Bytes := metric.takeWhile (· ≠ colon)

/-- The name under which a line is stored is the text before its first colon. -/
theorem nameBuffer_of_parse {cast : Bytes → Option R} {metric : Bytes} {buffers : ScanBuffers R}
    {checked : MetricType × R} (hnul : nul ∉ metric)
    (h : parseLine cast metric = some (buffers, checked)) :
    buffers.nameBuffer = lineName metric := by
  obtain ⟨name, value, rest, hsplit, rfl, _⟩ := parseLine_eq_some.mp h
  obtain ⟨hs, hname, _⟩ := splitLine_eq_some.mp hsplit
  rw [cStr_eq_self hnul] at hs
  rw [lineName, hs, takeWhile_ne_append hname.1]

end Statsdcc
