import Mathlib
import Statsdcc.Ledger.Entries

/-!
# Well-formed lines

A `MetricLine` is a line `name:value|type` or `name:value|type|@rate`, kept in
parts so that a text outside this shape cannot be built. `buffer` decodes it
exactly when its name and value fit into the buffers of `sscanf`.

## Main results

- `parseLine_withRest` — a line that fits is parsed by its type field alone
- `parseLine_text` — a line that fits is parsed into its parts
- `parseLine_withRest_of_not_fits` — a name or value that is too long is rejected
- `buffer_text` — the effect of either on a ledger
-/

open Bytes

namespace Statsdcc

/-- The text that stands for a type in a line. -/
def MetricType.text : MetricType → Bytes
  | counter => ascii "c"
  | timer => ascii "ms"
  | gauge => ascii "g"
  | set => ascii "s"

/-- A value and its type: a decimal number, or a member of a set. -/
inductive MetricValue
  | counter (d : Decimal)
  | timer (d : Decimal)
  | gauge (d : Decimal)
  | set (member : Bytes)

namespace MetricValue

def type : MetricValue → MetricType
  | counter _ => .counter
  | timer _ => .timer
  | gauge _ => .gauge
  | set _ => .set

def text : MetricValue → Bytes
  | counter d | timer d | gauge d => d.text
  | set member => member

/-- What `metric_value` holds once the value has been read, `none` when it is out of
range. -/
def number {R : Type} [CDouble R] : MetricValue → Option R
  | counter d | timer d | gauge d => CDouble.ofRat d.value
  | set _ => some CDouble.lowest

/-- The same in exact arithmetic. -/
def exact : MetricValue → Exact
  | counter d | timer d | gauge d => .fin d.value
  | set _ => CDouble.lowest

theorem number_exact (value : MetricValue) : value.number = some value.exact := by
  cases value <;> rfl

end MetricValue

/-- The text starts with a sign. -/
def SignedText (s : Bytes) : Prop := s.head? = some plus ∨ s.head? = some minus

instance (s : Bytes) : Decidable (SignedText s) := inferInstanceAs (Decidable (_ ∨ _))

/-- A line in the shape that clients are to send. -/
structure MetricLine where
  name : Bytes
  value : MetricValue
  rate : Option Decimal
  name_ne : name ≠ []
  nul_notMem_name : nul ∉ name
  colon_notMem_name : colon ∉ name
  value_ne : value.text ≠ []
  nul_notMem_value : nul ∉ value.text
  bar_notMem_value : bar ∉ value.text
  rate_pos : ∀ r ∈ rate, 0 < r.value

namespace MetricLine

/-- A line without a rate has no rate to check. -/
theorem rate_pos_none : ∀ r ∈ (none : Option Decimal), 0 < r.value := by
  intro r hr
  cases hr

def rateText : Option Decimal → Bytes
  | none => []
  | some r => bar :: atSign :: r.text

def text (line : MetricLine) : Bytes :=
  line.name ++ colon :: (line.value.text ++ bar :: (line.value.type.text ++ rateText line.rate))

/-- The sample rate, `1` if there is none. -/
def sampleRate {R : Type} [CDouble R] (line : MetricLine) : R :=
  line.rate.elim 1 fun r => (Number.finite r.value).toDouble

/-- The same in exact arithmetic. -/
def rateValue (line : MetricLine) : ℚ := (line.rate.map Decimal.value).getD 1

theorem rateValue_ne_zero (line : MetricLine) : line.rateValue ≠ 0 := by
  have hpos := line.rate_pos
  cases hr : line.rate with
  | none => simp [rateValue, hr]
  | some r =>
    have hr' := hpos r (by rw [hr]; rfl)
    simp only [rateValue, hr, Option.map_some, Option.getD_some]
    exact ne_of_gt hr'

theorem sampleRate_exact (line : MetricLine) : line.sampleRate = Exact.fin line.rateValue := by
  rw [sampleRate, rateValue]
  cases line.rate <;> rfl

/-- Name and value fit into the buffers of `sscanf`. -/
def Fits (line : MetricLine) : Prop :=
  line.name.length ≤ maxTokenStringLength ∧ line.value.text.length ≤ maxTokenStringLength

/-- The line up to its type, and `rest` behind it. -/
def withRest (line : MetricLine) (rest : Bytes) : Bytes :=
  line.name ++ colon :: (line.value.text ++ bar :: rest)

theorem nul_notMem_withRest (line : MetricLine) {rest : Bytes} (h : nul ∉ rest) :
    nul ∉ line.withRest rest := by
  simp only [withRest, List.mem_append, List.mem_cons, not_or]
  exact ⟨line.nul_notMem_name, by decide, line.nul_notMem_value, by decide, h⟩

theorem nul_notMem_typeText (type : MetricType) : nul ∉ type.text := by
  cases type <;> decide

theorem nul_notMem_rateText (rate : Option Decimal) : nul ∉ rateText rate := by
  cases rate with
  | none => simp [rateText]
  | some r =>
    rw [rateText, List.mem_cons, List.mem_cons, not_or, not_or]
    exact ⟨by decide, by decide, r.notMem_text (by decide)⟩

/-- What stands behind the second delimiter of the line. -/
theorem nul_notMem_typeRate (line : MetricLine) :
    nul ∉ line.value.type.text ++ rateText line.rate := by
  rw [List.mem_append, not_or]
  exact ⟨nul_notMem_typeText _, nul_notMem_rateText _⟩

theorem nul_notMem_text (line : MetricLine) : nul ∉ line.text :=
  line.nul_notMem_withRest line.nul_notMem_typeRate

-- ════════════════════════════════════════════════════════════════════════
-- Parsing a well-formed line
-- ════════════════════════════════════════════════════════════════════════

theorem splitLine_withRest {line : MetricLine} (h : line.Fits) (rest : Bytes) :
    splitLine (line.withRest rest) = some (line.name, line.value.text, rest) :=
  splitLine_eq_some.mpr ⟨rfl, ⟨line.colon_notMem_name, line.name_ne, h.1⟩,
    line.bar_notMem_value, line.value_ne, h.2⟩

/-- A line that fits is parsed by its type field alone. -/
theorem parseLine_withRest {R : Type} [CDouble R] (cast : Bytes → Option R) {line : MetricLine}
    (h : line.Fits) {rest : Bytes} (hnul : nul ∉ rest) :
    parseLine cast (line.withRest rest) =
      (checkLine cast ((typeField rest).dropWhile (· = space)) line.value.text).map
        fun checked => (⟨line.name, line.value.text, typeField rest, lineRate rest⟩, checked) := by
  have hsplit := splitLine_withRest h rest
  rw [← cStr_eq_self (line.nul_notMem_withRest hnul)] at hsplit
  ext ⟨buffers, type, x⟩
  rw [parseLine_eq_some, hsplit, Option.map_eq_some_iff]
  constructor
  · rintro ⟨name, value, rest', heq, rfl, hcheck⟩
    cases heq
    exact ⟨_, hcheck, rfl⟩
  · rintro ⟨checked, hcheck, heq⟩
    cases heq
    exact ⟨_, _, _, rfl, rfl, hcheck⟩

/-- A line whose name or value is too long is rejected, not cut. -/
theorem parseLine_withRest_of_not_fits {R : Type} [CDouble R] (cast : Bytes → Option R)
    {line : MetricLine} (h : ¬line.Fits) {rest : Bytes} (hnul : nul ∉ rest) :
    parseLine cast (line.withRest rest) = none := by
  by_contra hparse
  obtain ⟨⟨buffers, type, x⟩, hparse⟩ := Option.ne_none_iff_exists'.mp hparse
  obtain ⟨name, value, rest', hsplit, -⟩ := parseLine_eq_some.mp hparse
  rw [cStr_eq_self (line.nul_notMem_withRest hnul)] at hsplit
  obtain ⟨htext, ⟨hcolon, -, hname⟩, hbar, -, hvalue⟩ := splitLine_eq_some.mp hsplit
  -- the split of the line is unique
  have hnames : line.name = name := by
    rw [← takeWhile_ne_append line.colon_notMem_name, ← takeWhile_ne_append hcolon (value ++ _),
      ← htext, withRest]
  rw [withRest, hnames] at htext
  have hbehind := (List.cons.inj (List.append_cancel_left htext)).2
  have hvalues : line.value.text = value := by
    rw [← takeWhile_ne_append line.bar_notMem_value, ← takeWhile_ne_append hbar, hbehind]
  exact h ⟨hnames ▸ hname, hvalues ▸ hvalue⟩

theorem typeField_text (line : MetricLine) :
    typeField (line.value.type.text ++ rateText line.rate) = line.value.type.text := by
  cases line.rate <;> cases line.value <;> rfl

theorem rateBehind_rateText {R : Type} [CDouble R] (line : MetricLine) :
    (rateBehind (rateText line.rate) : R) = line.sampleRate := by
  rw [sampleRate]
  cases line.rate with
  | none => rfl
  | some r =>
    simp only [rateText, rateBehind, true_and, if_true, r.dropWhile_isSpace, r.scanNumber_text,
      Option.elim_some]

theorem lineRate_text {R : Type} [CDouble R] (line : MetricLine) :
    (lineRate (line.value.type.text ++ rateText line.rate) : R) = line.sampleRate := by
  rw [lineRate, typeField_text, List.drop_left, rateBehind_rateText]

theorem dropWhile_space_typeText (type : MetricType) (rest : Bytes) :
    (type.text ++ rest).dropWhile (· = space) = type.text ++ rest := by
  cases type <;> rfl

section

variable {R : Type} [CDouble R] {cast : Bytes → Option R}

/-- Only the start of the type field is compared with the types. -/
theorem checkLine_typeText (hspec : LexicalCastSpec cast) (value : MetricValue) (rest : Bytes) :
    checkLine cast (value.type.text ++ rest) value.text =
      value.number.map fun x => (value.type, x) := by
  cases value with
  | set member => rfl
  | counter d | timer d | gauge d =>
    have hcast : cast d.text = CDouble.ofRat d.value := hspec.decimal d
    simp only [MetricValue.text, MetricValue.type, MetricType.text]
    exact congrArg (Option.map _) hcast

theorem checkLine_text (hspec : LexicalCastSpec cast) (value : MetricValue) :
    checkLine cast (value.type.text.dropWhile (· = space)) value.text =
      value.number.map fun x => (value.type, x) := by
  have hdrop := dropWhile_space_typeText value.type []
  have hcheck := checkLine_typeText hspec value []
  rw [List.append_nil] at hdrop hcheck
  rw [hdrop, hcheck]

/-- A well-formed line that fits is parsed into its parts. -/
theorem parseLine_text (hspec : LexicalCastSpec cast) {line : MetricLine} (h : line.Fits) :
    parseLine cast line.text = line.value.number.map fun x =>
      (⟨line.name, line.value.text, line.value.type.text, line.sampleRate⟩, line.value.type,
        x) := by
  have hparse := parseLine_withRest cast h line.nul_notMem_typeRate
  rw [typeField_text, lineRate_text, checkLine_text hspec, Option.map_map] at hparse
  exact hparse

end

theorem parseLine_text_exact {cast : Bytes → Option Exact} (hspec : LexicalCastSpec cast)
    {line : MetricLine} (h : line.Fits) :
    parseLine cast line.text =
      some (⟨line.name, line.value.text, line.value.type.text, .fin line.rateValue⟩,
        line.value.type, line.value.exact) := by
  rw [parseLine_text hspec h, MetricValue.number_exact, sampleRate_exact, Option.map_some]

theorem parseLine_text_of_not_fits {R : Type} [CDouble R] {cast : Bytes → Option R}
    {line : MetricLine} (h : ¬line.Fits) : parseLine cast line.text = none :=
  parseLine_withRest_of_not_fits cast h line.nul_notMem_typeRate

-- ════════════════════════════════════════════════════════════════════════
-- The effect of a well-formed line
-- ════════════════════════════════════════════════════════════════════════

theorem charAfterColon_withRest (line : MetricLine) (rest : Bytes) :
    some (charAfterColon (line.withRest rest)) = line.value.text.head? := by
  have hsub : line.name.length + 1 - line.name.length = 1 := by omega
  rw [charAfterColon, withRest, idxOf?_append_cons line.colon_notMem_name, Option.elim_some,
    List.getD_eq_getElem?_getD, List.getElem?_append_right (by omega), hsub,
    List.getElem?_cons_succ]
  cases hvalue : line.value.text with
  | nil => exact absurd hvalue line.value_ne
  | cons c s => rfl

theorem charAfterColon_text (line : MetricLine) :
    (charAfterColon line.text = plus ∨ charAfterColon line.text = minus) ↔
      SignedText line.value.text := by
  have hchar : some (charAfterColon line.text) = line.value.text.head? :=
    line.charAfterColon_withRest _
  rw [SignedText, ← hchar, Option.some.injEq, Option.some.injEq]

/-- What the line does to the entries of its name. -/
def decode (line : MetricLine) (e : Entries Exact) : Entries Exact :=
  let e := { e with frequency := some (e.frequency.getD 0 + 1) }
  match line.value with
  | .counter d =>
    { e with counter := some (e.counter.getD 0 + .fin (d.value / line.rateValue)) }
  | .timer d =>
    { e with
      timer := some (e.timer.getD [] ++ [.fin d.value])
      timerCounter := some (e.timerCounter.getD 0 + .fin (1 / line.rateValue)) }
  | .gauge d =>
    if SignedText d.text then { e with gauge := some (e.gauge.getD 0 + .fin d.value) }
    else { e with gauge := some (.fin d.value) }
  | .set member => { e with set := some (insert member (e.set.getD ∅)) }

/-- The effect of a stored line on the entries of its name is `decode`. -/
theorem store_text (line : MetricLine) (e : Entries Exact) :
    e.store line.text ⟨line.name, line.value.text, line.value.type.text, .fin line.rateValue⟩
      line.value.type line.value.exact = line.decode e := by
  have hsigned := line.charAfterColon_text
  have hinv : (1 : Exact) / .fin line.rateValue = .fin (1 / line.rateValue) :=
    Exact.one_div_fin line.rateValue_ne_zero
  rcases hvalue : line.value with d | d | d | member
  · have hmul : d.value * (1 / line.rateValue) = d.value / line.rateValue := by ring
    simp only [Entries.store, decode, hvalue, MetricValue.type, MetricValue.exact, hinv,
      Exact.fin_mul_fin, hmul]
  · simp only [Entries.store, decode, hvalue, MetricValue.type, MetricValue.exact, hinv]
  · rw [hvalue] at hsigned
    simp only [Entries.store, decode, hvalue, MetricValue.type, MetricValue.exact, hsigned,
      MetricValue.text]
  · simp only [Entries.store, decode, hvalue, MetricValue.type, MetricValue.text]

/-- The ledger `l'` is `l` after the line: the line is counted, the entries of
its name are decoded, and nothing else has changed. -/
structure Decoded (line : MetricLine) (l l' : Ledger Exact) : Prop where
  metricsProcessed : l'.statsdMetrics.lookup (ascii "metrics_processed") =
    some ((l.statsdMetrics.lookup (ascii "metrics_processed")).getD 0 + 1)
  statsdMetrics : ∀ k, k ≠ ascii "metrics_processed" →
    l'.statsdMetrics.lookup k = l.statsdMetrics.lookup k
  entries : l'.entries line.name = line.decode (l.entries line.name)
  otherEntries : ∀ k, k ≠ line.name → l'.entries k = l.entries k
  counterRates : l'.counterRates = l.counterRates
  timerData : l'.timerData = l.timerData

theorem decoded_of_parse (line : MetricLine) (l : Ledger Exact) :
    line.Decoded l (l.countCall.store line.text
      ⟨line.name, line.value.text, line.value.type.text, .fin line.rateValue⟩
      line.value.type line.value.exact) := by
  obtain ⟨hmetrics, hrates, hdata⟩ := store_statistics l.countCall line.text
    ⟨line.name, line.value.text, line.value.type.text, .fin line.rateValue⟩ line.value.type
    line.value.exact
  refine ⟨?_, fun k hk => ?_, ?_, fun k hk => ?_, hrates, hdata⟩
  · rw [hmetrics]
    exact UnorderedMap.lookup_modify_self _ _ _ _
  · rw [hmetrics]
    exact UnorderedMap.lookup_modify_ne _ hk _ _
  · rw [entries_store, if_pos rfl, entries_countCall, store_text]
  · rw [entries_store, if_neg hk, entries_countCall]

/-- **Well-formed lines decode exactly**, and those that do not fit are
rejected. -/
theorem buffer_text (env : Env Exact) (hspec : LexicalCastSpec env.lexicalCast)
    (line : MetricLine) (l : Ledger Exact) :
    (line.Fits → line.Decoded l (l.buffer env line.text)) ∧
      (¬line.Fits → l.buffer env line.text = l.countCall.countBadLine env.config) := by
  constructor
  · intro hfits
    rw [buffer_of_parse (parseLine_text_exact hspec hfits)]
    exact line.decoded_of_parse l
  · intro hfits
    exact buffer_of_bad (parseLine_text_of_not_fits hfits) l

/-- A sampled counter. -/
def sampledCounter : MetricLine where
  name := ascii "a"
  value := .counter ⟨.none, [4], none, none, by decide⟩
  rate := some ⟨.none, [0], some [1], none, by decide⟩
  name_ne := by decide
  nul_notMem_name := by decide
  colon_notMem_name := by decide
  value_ne := by decide
  nul_notMem_value := by decide
  bar_notMem_value := by decide
  rate_pos r hr := by
    cases hr
    decide +kernel

theorem buffer_text_sampledCounter :
    (sampledCounter.Fits →
      sampledCounter.Decoded {} (Ledger.buffer ⟨{}, lexicalCast⟩ {} sampledCounter.text)) ∧
    (¬sampledCounter.Fits →
      Ledger.buffer ⟨{}, lexicalCast⟩ {} sampledCounter.text =
        Ledger.countBadLine (R := Exact) {} (Ledger.countCall {})) :=
  buffer_text ⟨{}, lexicalCast⟩ lexicalCast_spec sampledCounter {}

/-- A value text of a set with a NUL in it ends the line for `sscanf`: the line
is rejected. -/
theorem buffer_nul_value :
    bar ∉ ascii "x" ++ nul :: ascii "y" ∧
      Ledger.buffer (R := Exact) ⟨{}, lexicalCast⟩ {}
          (ascii "a:" ++ (ascii "x" ++ nul :: ascii "y") ++ ascii "|s") =
        Ledger.countBadLine (R := Exact) {} (Ledger.countCall {}) :=
  ⟨by decide, rfl⟩

end MetricLine

end Statsdcc
