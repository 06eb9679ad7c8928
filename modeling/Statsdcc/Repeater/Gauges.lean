import Mathlib
import Statsdcc.Repeater
import Statsdcc.Gauges
import Statsdcc.Lib.Printed

/-!
# Repeated gauges

`Repeater::flush_stats` prints the value of a gauge, and `Ledger::buffer` of the
downstream instance decides by the first character of the printed value whether it
sets its gauge or adds to it. The line is taken as `flush_stats` builds it, before
`send` cuts its end.

## Main definitions

- `Repeater.FitsLine` — the keys that the line can carry
- `Repeater.forward` — what one interval does to the downstream ledger
- `Repeater.Arrives` — behind each interval the downstream gauge is the printed value

## Main results

- `Repeater.arrives_iff` — the gauges that arrive as values
-/

open Bytes

namespace Statsdcc

namespace Repeater

/-- The key fits into the buffer of `sscanf` and is not cut by a NUL. -/
def FitsLine (key : Bytes) : Prop :=
  key ≠ [] ∧ nul ∉ key ∧ key.length ≤ maxTokenStringLength

/-- What one interval does to the downstream ledger: something that the downstream
instance does by itself, and the line of the gauge. -/
def forward (env : Env Exact) (key : Bytes) (l : Ledger Exact)
    (interval : (Ledger Exact → Ledger Exact) × ℚ) : Ledger Exact :=
  (interval.1 l).buffer env (gaugeMetric key (CDouble.toText (Exact.fin interval.2)))

/-- Behind each interval the downstream gauge is the printed value, whatever the
downstream instance holds at first and does in between. -/
def Arrives (env : Env Exact) (key : Bytes) (values : List ℚ) : Prop :=
  ∀ l intervals, intervals.map Prod.snd = values → ∀ front interval back,
    intervals = front ++ interval :: back →
      ((front ++ [interval]).foldl (forward env key) l).gauges.lookup key =
        some (.fin (Exact.printed interval.2))

/-- The line of a gauge that fits. -/
def gaugeLine {key : Bytes} (hkey : FitsLine key) (hcolon : colon ∉ key) {q : ℚ}
    (hq : |q| ≤ Exact.maxDouble) : GaugeLine where
  line :=
    { name := key
      value := .gauge (Exact.decimal q)
      rate := none
      name_ne := hkey.1
      nul_notMem_name := hkey.2.1
      colon_notMem_name := hcolon
      value_ne := Decimal.text_ne_nil _
      nul_notMem_value := Decimal.notMem_text _ (by decide)
      bar_notMem_value := Decimal.notMem_text _ (by decide)
      rate_pos := MetricLine.rate_pos_none }
  amount := Exact.decimal q
  value_eq := rfl
  fits := by
    refine ⟨hkey.2.2, ?_⟩
    show (Exact.decimal q).text.length ≤ 1496
    rw [Exact.text_decimal]
    exact (Exact.length_toText_le hq).trans (by decide)

variable {env : Env Exact} {key : Bytes} {q : ℚ}

theorem text_gaugeLine (hkey : FitsLine key) (hcolon : colon ∉ key)
    (hq : |q| ≤ Exact.maxDouble) :
    (gaugeLine hkey hcolon hq).text = gaugeMetric key (CDouble.toText (Exact.fin q)) := by
  have htext : (Exact.decimal q).text = CDouble.toText (Exact.fin q) := Exact.text_decimal q
  simp [GaugeLine.text, MetricLine.text, gaugeLine, MetricValue.text, MetricValue.type,
    MetricType.text, MetricLine.rateText, htext, gaugeMetric, ascii, colon, bar]

/-- A printed value begins with a sign when it is negative. -/
theorem signedText_decimal : SignedText (Exact.decimal q).text ↔ q < 0 := by
  rw [Exact.text_decimal, SignedText]
  constructor
  · intro hsigned
    by_contra hneg
    obtain ⟨d, hd⟩ := Exact.exists_head?_toText (not_lt.mp hneg)
    have hdigit : ∀ d, Digits.byte d ≠ plus ∧ Digits.byte d ≠ minus := by decide
    rw [hd, Option.some.injEq, Option.some.injEq] at hsigned
    exact hsigned.elim (hdigit d).1 (hdigit d).2
  · exact fun hneg => .inr (Exact.head?_toText_of_neg hneg)

/-- What the line does to the downstream gauge. -/
theorem lookup_gauges_buffer (hspec : LexicalCastSpec env.lexicalCast) (hkey : FitsLine key)
    (hcolon : colon ∉ key) (hq : |q| ≤ Exact.maxDouble) (l : Ledger Exact) :
    (l.buffer env (gaugeMetric key (CDouble.toText (Exact.fin q)))).gauges.lookup key =
      if q < 0 then some ((l.gauges.lookup key).getD 0 + .fin (Exact.printed q))
      else some (.fin (Exact.printed q)) := by
  have hbuffer := GaugeLine.lookup_gauges_buffer hspec (gaugeLine hkey hcolon hq) l key
  rw [text_gaugeLine] at hbuffer
  refine hbuffer.trans ((if_pos rfl).trans ?_)
  have hupdate : (gaugeLine hkey hcolon hq).update =
      some (if SignedText (Exact.decimal q).text then .add (Exact.fin (Exact.decimal q).value)
        else .set (.fin (Exact.decimal q).value)) := rfl
  rw [hupdate, Exact.value_decimal]
  by_cases hneg : q < 0
  · rw [if_pos (signedText_decimal.mpr hneg), if_pos hneg]
  · rw [if_neg fun hsigned => hneg (signedText_decimal.mp hsigned), if_neg hneg]

/-- A key that the line cannot carry makes it a bad line. -/
theorem fitsLine_of_parse (cast : Bytes → Option Exact) (hcolon : colon ∉ key) {text : Bytes}
    (htext : nul ∉ text) (h : parseLine cast (gaugeMetric key text) ≠ none) : FitsLine key := by
  obtain ⟨⟨buffers, type, x⟩, hparse⟩ := Option.ne_none_iff_exists'.mp h
  obtain ⟨name, value, rest, hsplit, -⟩ := parseLine_eq_some.mp hparse
  obtain ⟨hline, ⟨hname, hne, hlength⟩, -⟩ := splitLine_eq_some.mp hsplit
  have hmetric : gaugeMetric key text = key ++ colon :: (text ++ ascii "|g") := by
    simp [gaugeMetric, ascii, colon]
  have hnul : nul ∉ key := by
    intro hmem
    obtain ⟨front, back, rfl, hfront⟩ := List.eq_append_cons_of_mem hmem
    have hcut : cStr (gaugeMetric (front ++ nul :: back) text) = front := by
      rw [hmetric, List.append_assoc, List.cons_append, cStr, takeWhile_ne_append hfront]
    rw [hcut] at hline
    exact hcolon (List.mem_append_left _ (hline ▸ by simp))
  have hall : nul ∉ gaugeMetric key text := by
    rw [hmetric]
    simp only [List.mem_append, List.mem_cons, not_or]
    exact ⟨hnul, by decide, htext, by decide⟩
  rw [cStr_eq_self hall, hmetric] at hline
  have hsame : key = name := by
    rw [← takeWhile_ne_append hcolon (text ++ ascii "|g"), hline, takeWhile_ne_append hname]
  exact hsame ▸ ⟨hne, hsame ▸ hnul, hlength⟩

/-- **The line of a gauge sets it** just when its key fits and its value is not
negative. -/
theorem sets_iff (hspec : LexicalCastSpec env.lexicalCast) (hcolon : colon ∉ key)
    (hq : |q| ≤ Exact.maxDouble) :
    (∀ l : Ledger Exact,
        (l.buffer env (gaugeMetric key (CDouble.toText (Exact.fin q)))).gauges.lookup key =
          some (.fin (Exact.printed q))) ↔ FitsLine key ∧ 0 ≤ q := by
  constructor
  · intro h
    have hkey : FitsLine key := by
      have htext : nul ∉ (CDouble.toText (Exact.fin q) : Bytes) :=
        notMem_of_forall (CDouble.isPlain_toText _) (by decide)
      refine fitsLine_of_parse env.lexicalCast hcolon htext fun hbad => ?_
      have hlookup := h {}
      rw [buffer_of_bad hbad] at hlookup
      cases hlookup
    refine ⟨hkey, not_lt.mp fun hneg => ?_⟩
    have hlookup := h { gauges := (∅ : UnorderedMap Bytes Exact).insert key (.fin 1) }
    rw [lookup_gauges_buffer hspec hkey hcolon hq, if_pos hneg, AList.lookup_insert,
      Option.getD_some, Exact.fin_add_fin, Option.some.injEq, Exact.fin.injEq] at hlookup
    linarith
  · rintro ⟨hkey, hpos⟩ l
    rw [lookup_gauges_buffer hspec hkey hcolon hq, if_neg (not_lt.mpr hpos)]

/-- **Repeated gauges arrive as values**, over one interval and over many, just when
their keys fit and no value is negative. -/
theorem arrives_iff (hspec : LexicalCastSpec env.lexicalCast) (hcolon : colon ∉ key)
    {values : List ℚ} (hvalues : ∀ q ∈ values, |q| ≤ Exact.maxDouble) :
    Arrives env key values ↔ ∀ q ∈ values, FitsLine key ∧ 0 ≤ q := by
  constructor
  · intro h q hq
    refine (sets_iff hspec hcolon (hvalues q hq)).mp fun l => ?_
    obtain ⟨front, back, rfl⟩ := List.append_of_mem hq
    -- whatever came before, the downstream ledger is `l` in front of the line
    have hset := h l ((front ++ q :: back).map fun q => (fun _ => l, q)) (by simp)
      (front.map fun q => (fun _ => l, q)) (fun _ => l, q) (back.map fun q => (fun _ => l, q))
      (by simp)
    rwa [List.foldl_append] at hset
  · rintro h l intervals rfl front interval back rfl
    have hmem : interval.2 ∈ (front ++ interval :: back).map Prod.snd := by simp
    rw [List.foldl_append]
    exact (sets_iff hspec hcolon (hvalues _ hmem)).mpr (h _ hmem) _

theorem arrives_iff_one :
    Arrives ⟨{}, lexicalCast⟩ (ascii "a") [1] ↔ ∀ q ∈ [(1 : ℚ)], FitsLine (ascii "a") ∧ 0 ≤ q := by
  refine arrives_iff lexicalCast_spec (by decide) fun q hq => ?_
  rw [List.mem_singleton.mp hq, abs_one, Nat.one_le_cast]
  exact Exact.maxDouble_pos

/-- A downstream gauge of `5` becomes `4` when `-1` is repeated. -/
theorem not_arrives_negative :
    Exact.printed (-1) = -1 ∧
      (forward ⟨{}, lexicalCast⟩ (ascii "a") (Ledger.replay ⟨{}, lexicalCast⟩ [ascii "a:5|g"])
        (id, -1)).gauges.lookup (ascii "a") = some (.fin 4) ∧
      ¬Arrives ⟨{}, lexicalCast⟩ (ascii "a") [-1] := by
  have hvalue : (forward ⟨{}, lexicalCast⟩ (ascii "a")
      (Ledger.replay ⟨{}, lexicalCast⟩ [ascii "a:5|g"]) (id, -1)).gauges.lookup (ascii "a") =
        some (.fin 4) := by
    decide +kernel
  refine ⟨by decide +kernel, hvalue, fun h => ?_⟩
  have harrived := h (Ledger.replay ⟨{}, lexicalCast⟩ [ascii "a:5|g"]) [(id, -1)] rfl []
    (id, -1) [] rfl
  exact absurd (hvalue.symm.trans harrived) (by decide +kernel)

end Repeater

end Statsdcc
