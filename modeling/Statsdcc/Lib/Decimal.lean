import Mathlib
import Statsdcc.Lib.Bytes

/-!
# Decimal floating point texts

A `Decimal` is a text of the form `[+-] digits [. digits] [(e|E) [+-] digits]`
with a digit in its mantissa, kept in parts so that a text outside the grammar
cannot be built. `scanDecimal` reads the longest such text at the start of a
string the way C's conversions do.

## Main results

- `Decimal.scanDecimal_text` — the text of a `Decimal` is read back exactly
- `Decimal.text_of_scanDecimal` — what is read is the text of a `Decimal`
-/

open Bytes

/-- An optional sign character. -/
inductive Sign
  | none
  | plus
  | minus
  deriving DecidableEq, Repr

namespace Sign

def text : Sign → Bytes
  | none => []
  | plus => [Bytes.plus]
  | minus => [Bytes.minus]

def apply {α : Type*} [Neg α] : Sign → α → α
  | minus, x => -x
  | _, x => x

end Sign

/-- The digits of a decimal number. -/
abbrev Digits := List (Fin 10)

namespace Digits

/-- The base of the digits. -/
instance neZeroBase : NeZero (10 : ℕ) := ⟨by decide⟩

def byte (d : Fin 10) : Byte := UInt8.ofNat (48 + d.val)

def text (ds : Digits) : Bytes := ds.map byte

/-- Positional value, most significant digit first. -/
def value (ds : Digits) : ℕ := ds.foldl (fun n d => 10 * n + d.val) 0

end Digits

/-- The digit that a character denotes. -/
def digit? (c : Byte) : Option (Fin 10) :=
  if h : 48 ≤ c.toNat ∧ c.toNat < 58 then some ⟨c.toNat - 48, by omega⟩ else none

theorem digit?_byte (d : Fin 10) : digit? (Digits.byte d) = some d := by
  have hn : (Digits.byte d).toNat = 48 + d.val := by
    simp only [Digits.byte, UInt8.toNat_ofNat']
    omega
  have hr : 48 ≤ (Digits.byte d).toNat ∧ (Digits.byte d).toNat < 58 := by omega
  simp only [digit?, dif_pos hr, Option.some.injEq]
  ext
  simp [hn]

theorem eq_byte_of_digit? {c : Byte} {d : Fin 10} (h : digit? c = some d) : c = Digits.byte d := by
  rw [digit?] at h
  split at h
  · rename_i hr
    rw [Option.some.injEq] at h
    subst h
    apply UInt8.toNat_inj.mp
    simp only [Digits.byte, UInt8.toNat_ofNat']
    omega
  · simp at h

/-- The text does not go on with a digit. -/
def NoDigit (s : Bytes) : Prop := ∀ c ∈ s.head?, digit? c = none

/-- Read the sign character, if there is one. -/
def scanSign : Bytes → Sign × Bytes
  | c :: s => if c = plus then (.plus, s) else if c = minus then (.minus, s) else (.none, c :: s)
  | [] => (.none, [])

/-- Read the longest run of digits. -/
def scanDigits : Bytes → Digits × Bytes
  | [] => ([], [])
  | c :: s =>
    match digit? c with
    | some d => (d :: (scanDigits s).1, (scanDigits s).2)
    | none => ([], c :: s)

theorem scanSign_text (sg : Sign) {s : Bytes} (h : sg = .none → (scanSign s).1 = .none) :
    scanSign (sg.text ++ s) = (sg, s) := by
  cases sg with
  | plus => rfl
  | minus => rfl
  | none =>
    have hs := h rfl
    cases s with
    | nil => rfl
    | cons c s =>
      simp only [Sign.text, List.nil_append, scanSign] at hs ⊢
      split_ifs at hs ⊢
      rfl

theorem text_of_scanSign (s : Bytes) : (scanSign s).1.text ++ (scanSign s).2 = s := by
  cases s with
  | nil => rfl
  | cons c s =>
    rw [scanSign]
    split_ifs with hp hm
    · rw [hp]; rfl
    · rw [hm]; rfl
    · rfl

theorem scanDigits_text (ds : Digits) {s : Bytes} (h : NoDigit s) :
    scanDigits (ds.text ++ s) = (ds, s) := by
  induction ds with
  | nil =>
    cases s with
    | nil => rfl
    | cons c s => simp [Digits.text, scanDigits, h c rfl]
  | cons d ds ih =>
    show scanDigits (Digits.byte d :: (Digits.text ds ++ s)) = _
    rw [scanDigits, digit?_byte, ih]

theorem text_of_scanDigits (s : Bytes) : (scanDigits s).1.text ++ (scanDigits s).2 = s := by
  induction s with
  | nil => rfl
  | cons c s ih =>
    rw [scanDigits]
    cases hc : digit? c with
    | none => rfl
    | some d =>
      rw [eq_byte_of_digit? hc]
      exact congrArg (Digits.byte d :: ·) ih

/-- The exponent part of a decimal text. -/
structure Exponent where
  upper : Bool
  sign : Sign
  digits : Digits
  digits_ne : digits ≠ []
  deriving DecidableEq

namespace Exponent

def marker (upper : Bool) : Byte := if upper then 69 else 101

def text (e : Exponent) : Bytes := marker e.upper :: (e.sign.text ++ e.digits.text)

def value (e : Exponent) : ℤ := e.sign.apply (e.digits.value : ℤ)

end Exponent

/-- A decimal floating point text. -/
structure Decimal where
  sign : Sign
  int : Digits
  frac : Option Digits
  exp : Option Exponent
  mantissa_ne : int ++ frac.getD [] ≠ []
  deriving DecidableEq

namespace Decimal

def fracText : Option Digits → Bytes
  | some ds => point :: ds.text
  | none => []

def expText : Option Exponent → Bytes
  | some e => e.text
  | none => []

def text (d : Decimal) : Bytes :=
  d.sign.text ++ (d.int.text ++ (fracText d.frac ++ expText d.exp))

def expValue : Option Exponent → ℤ
  | some e => e.value
  | none => 0

/-- The number the text denotes. -/
def value (d : Decimal) : ℚ :=
  d.sign.apply (((d.int ++ d.frac.getD []).value : ℚ) / 10 ^ (d.frac.getD []).length *
    10 ^ expValue d.exp)

end Decimal

/-- Read `.` and the digits behind it. -/
def scanFraction : Bytes → Option Digits × Bytes
  | c :: s => if c = point then (some (scanDigits s).1, (scanDigits s).2) else (none, c :: s)
  | [] => (none, [])

/-- Read an exponent. An `e` without digits behind it makes the whole
conversion fail, since what was read is only the start of a number. -/
def scanExponent : Bytes → Option (Option Exponent × Bytes)
  | c :: s =>
    if c = Exponent.marker false ∨ c = Exponent.marker true then
      if h : (scanDigits (scanSign s).2).1 = [] then none
      else some (some ⟨c = Exponent.marker true, (scanSign s).1, _, h⟩,
        (scanDigits (scanSign s).2).2)
    else some (none, c :: s)
  | [] => some (none, [])

/-- Read a decimal floating point text from the start of a string. -/
def scanDecimal (s : Bytes) : Option (Decimal × Bytes) :=
  let sign := scanSign s
  let int := scanDigits sign.2
  let frac := scanFraction int.2
  if h : int.1 ++ frac.1.getD [] = [] then none
  else (scanExponent frac.2).map fun exp => (⟨sign.1, int.1, frac.1, exp.1, h⟩, exp.2)

theorem noDigit_fracText (f : Option Digits) (e : Option Exponent) :
    NoDigit (Decimal.fracText f ++ Decimal.expText e) := by
  intro c hc
  cases f with
  | some ds =>
    obtain rfl : point = c := by simpa [Decimal.fracText] using hc
    decide
  | none =>
    cases e with
    | none => simp [Decimal.fracText, Decimal.expText] at hc
    | some e =>
      obtain rfl : Exponent.marker e.upper = c := by
        simpa [Decimal.fracText, Decimal.expText, Exponent.text] using hc
      cases e.upper <;> decide

theorem scanFraction_text (f : Option Digits) (e : Option Exponent) :
    scanFraction (Decimal.fracText f ++ Decimal.expText e) = (f, Decimal.expText e) := by
  have hexp : NoDigit (Decimal.expText e) := noDigit_fracText none e
  cases f with
  | some ds =>
    show scanFraction (point :: (Digits.text ds ++ Decimal.expText e)) = _
    rw [scanFraction, if_pos rfl, scanDigits_text ds hexp]
  | none =>
    cases e with
    | none => rfl
    | some e =>
      obtain ⟨upper, sg, ds, hne⟩ := e
      cases upper <;> rfl

/-- No digit string starts with a sign. -/
theorem scanSign_digits {ds : Digits} (hne : ds ≠ []) (s : Bytes) :
    (scanSign (ds.text ++ s)).1 = .none := by
  cases ds with
  | nil => exact absurd rfl hne
  | cons d ds =>
    show (scanSign (Digits.byte d :: (Digits.text ds ++ s))).1 = .none
    have hp : ∀ i, Digits.byte i ≠ plus := by decide
    have hm : ∀ i, Digits.byte i ≠ minus := by decide
    simp [scanSign, hp, hm]

theorem scanExponent_text (e : Option Exponent) :
    scanExponent (Decimal.expText e) = some (e, []) := by
  cases e with
  | none => rfl
  | some e =>
    obtain ⟨upper, sg, ds, hne⟩ := e
    have hsign : scanSign (sg.text ++ Digits.text ds) = (sg, Digits.text ds) :=
      scanSign_text sg fun _ => by simpa using scanSign_digits hne []
    have hdigits : scanDigits (Digits.text ds) = (ds, []) := by
      simpa using scanDigits_text ds (s := []) (by simp [NoDigit])
    cases upper <;>
      simp [Decimal.expText, Exponent.text, scanExponent, hsign, hdigits, hne, Exponent.marker]

namespace Decimal

/-- The mantissa of a decimal text does not start with a sign. -/
theorem scanSign_mantissa (d : Decimal) :
    (scanSign (d.int.text ++ (fracText d.frac ++ expText d.exp))).1 = .none := by
  obtain ⟨sg, int, frac, exp, hne⟩ := d
  by_cases hi : int = []
  · subst hi
    cases frac with
    | none => simp at hne
    | some ds => rfl
  · exact scanSign_digits hi _

/-- The text of a decimal is read back, to its last character. -/
theorem scanDecimal_text (d : Decimal) : scanDecimal d.text = some (d, []) := by
  have hsign : scanSign d.text = (d.sign, d.int.text ++ (fracText d.frac ++ expText d.exp)) :=
    scanSign_text d.sign fun _ => d.scanSign_mantissa
  have hint := scanDigits_text d.int (noDigit_fracText d.frac d.exp)
  simp only [scanDecimal, hsign, hint, scanFraction_text, dif_neg d.mantissa_ne,
    scanExponent_text, Option.map_some]

theorem text_of_scanFraction (s : Bytes) :
    fracText (scanFraction s).1 ++ (scanFraction s).2 = s := by
  cases s with
  | nil => rfl
  | cons c s =>
    rw [scanFraction]
    split_ifs with hc
    · exact hc ▸ congrArg (point :: ·) (text_of_scanDigits s)
    · rfl

theorem text_of_scanExponent {s : Bytes} {e : Option Exponent} {rest : Bytes}
    (h : scanExponent s = some (e, rest)) : s = expText e ++ rest := by
  cases s with
  | nil => cases h; rfl
  | cons c s =>
    rw [scanExponent] at h
    split_ifs at h with hc hds
    · cases h
      have htext : (scanSign s).1.text ++
          ((scanDigits (scanSign s).2).1.text ++ (scanDigits (scanSign s).2).2) = s := by
        rw [text_of_scanDigits, text_of_scanSign]
      have hmark : c = Exponent.marker (decide (c = Exponent.marker true)) := by
        rcases hc with hc | hc <;> subst hc <;> decide
      simp only [expText, Exponent.text, List.cons_append, List.append_assoc]
      rw [htext, ← hmark]
    · cases h
      rfl

/-- What is read as a decimal is the text of one. -/
theorem text_of_scanDecimal {s : Bytes} {d : Decimal} {rest : Bytes}
    (h : scanDecimal s = some (d, rest)) : s = d.text ++ rest := by
  rw [scanDecimal] at h
  split_ifs at h with hne
  obtain ⟨⟨exp, tail⟩, hexp, heq⟩ := Option.map_eq_some_iff.mp h
  cases heq
  simp only [text, List.append_assoc]
  rw [← text_of_scanExponent hexp, text_of_scanFraction, text_of_scanDigits, text_of_scanSign]

theorem text_ne_nil (d : Decimal) : d.text ≠ [] := by
  intro h
  have hscan := d.scanDecimal_text
  rw [h] at hscan
  simp [scanDecimal, scanSign, scanDigits, scanFraction] at hscan

/-- The signs, digits, point and exponent markers are all that a decimal text
is made of. -/
theorem mem_text {d : Decimal} {c : Byte} (h : c ∈ d.text) :
    c = plus ∨ c = minus ∨ c = point ∨ c = Exponent.marker false ∨ c = Exponent.marker true ∨
      ∃ i, c = Digits.byte i := by
  have hsign : ∀ sg : Sign, c ∈ sg.text → c = plus ∨ c = minus := by
    intro sg hc
    cases sg <;> simp_all [Sign.text]
  have hdigits : ∀ ds : Digits, c ∈ ds.text → ∃ i, c = Digits.byte i := by
    intro ds hc
    obtain ⟨i, _, rfl⟩ := List.mem_map.mp hc
    exact ⟨i, rfl⟩
  obtain ⟨sg, int, frac, exp, hne⟩ := d
  simp only [text, List.mem_append] at h
  rcases h with h | h | h | h
  · rcases hsign sg h with h | h <;> simp [h]
  · obtain ⟨i, rfl⟩ := hdigits int h
    exact .inr (.inr (.inr (.inr (.inr ⟨i, rfl⟩))))
  · cases frac with
    | none => simp [fracText] at h
    | some ds =>
      rcases List.mem_cons.mp h with h | h
      · exact .inr (.inr (.inl h))
      · exact .inr (.inr (.inr (.inr (.inr (hdigits ds h)))))
  · cases exp with
    | none => simp [expText] at h
    | some e =>
      obtain ⟨upper, sg', ds, hds⟩ := e
      simp only [expText, Exponent.text, List.mem_cons, List.mem_append] at h
      rcases h with h | h | h
      · cases upper <;> simp [h]
      · rcases hsign sg' h with h | h <;> simp [h]
      · exact .inr (.inr (.inr (.inr (.inr (hdigits ds h)))))

theorem notMem_text {c : Byte} (d : Decimal)
    (h : c ∉ [plus, minus, point, Exponent.marker false, Exponent.marker true] ∧
      ∀ i, c ≠ Digits.byte i) : c ∉ d.text := by
  intro hc
  rcases mem_text hc with rfl | rfl | rfl | rfl | rfl | ⟨i, rfl⟩
  case inr.inr.inr.inr.inr => exact h.2 i rfl
  all_goals exact h.1 (by decide)

end Decimal
