import Mathlib
import Statsdcc.Lib.Decimal

/-!
# Arithmetic of `double`

`CDouble R` lists what a program does with its `double`s, and with the `int`s that it
computes them from, so that a model can be stated once for every arithmetic. `Exact` is
the instance in which finite values are rational numbers, nothing is rounded and the size
of a container always is an `int`; infinities and NaN behave as in IEEE 754, with one zero.
-/

open Bytes

namespace Bytes

/-- Letters, digits, `.`, `+` and `-`: all that a printed number is made of. -/
def isPlain (c : Byte) : Bool :=
  (48 ≤ c.toNat && c.toNat ≤ 57) || (65 ≤ c.toNat && c.toNat ≤ 90) ||
    (97 ≤ c.toNat && c.toNat ≤ 122) || c = point || c = plus || c = minus

/-- The decimal digits of a natural number. -/
def natDigits (n : ℕ) : Digits := (Nat.toDigits 10 n).map fun c => Fin.ofNat 10 (c.toNat - 48)

/-- `std::to_string` of a non-negative integer. -/
def natText (n : ℕ) : Bytes := (natDigits n).text

/-- `std::to_string` of an integer. -/
def intText (n : ℤ) : Bytes := if n < 0 then minus :: natText n.natAbs else natText n.natAbs

theorem isPlain_byte (d : Fin 10) : isPlain (Digits.byte d) = true := by revert d; decide

theorem isPlain_natText {n : ℕ} {c : Byte} (h : c ∈ natText n) : isPlain c = true := by
  obtain ⟨d, _, rfl⟩ := List.mem_map.mp h
  exact isPlain_byte d

/-- A number is printed with digits only. -/
theorem notMem_natText {c : Byte} (hc : ∀ d, Digits.byte d ≠ c) (n : ℕ) : c ∉ natText n := by
  intro h
  obtain ⟨d, _, hd⟩ := List.mem_map.mp h
  exact hc d hd

end Bytes

/-- What an `int` holds after the conversion of a `double` without its fraction. The
language leaves a value outside of `int` open; the processor stores the smallest one. -/
def storeInt (n : ℤ) : ℤ := if -2 ^ 31 ≤ n ∧ n < 2 ^ 31 then n else -2 ^ 31

theorem storeInt_of_mem {n : ℤ} (hlow : -2 ^ 31 ≤ n) (hhigh : n < 2 ^ 31) : storeInt n = n :=
  if_pos ⟨hlow, hhigh⟩

theorem one_le_storeInt_iff {n : ℤ} : 1 ≤ storeInt n ↔ 1 ≤ n ∧ n < 2 ^ 31 := by
  rw [storeInt]
  split <;> omega

theorem storeInt_of_le {n : ℤ} (h : 2 ^ 31 ≤ n) : storeInt n = -2 ^ 31 :=
  if_neg fun hmem => absurd hmem.2 (not_lt.mpr h)

/-- What a program does with values of type `double`. -/
class CDouble (R : Type) extends Zero R, One R, Add R, Mul R, Div R where
  /-- The `double` nearest to a rational number, `none` when it is out of range. -/
  ofRat : ℚ → Option R
  ofInt : ℤ → R
  /-- The size of a container, stored in an `int`. -/
  intOfSize : ℕ → ℤ
  /-- `HUGE_VAL`, or its negative. -/
  inf : Bool → R
  nan : R
  /-- `-std::numeric_limits<double>::max()`. -/
  lowest : R
  lt : R → R → Bool
  /-- `floor`, as an integer. -/
  floor : R → ℤ
  /-- `std::round`, stored in an unsigned integer. -/
  roundToNat : R → ℕ
  /-- The value without its fraction. -/
  toInt : R → ℤ
  /-- `std::to_string` of the value as a `long double`. -/
  toText : R → Bytes
  isPlain_toText : ∀ x, ∀ c ∈ toText x, isPlain c = true

/-- Exact numbers with the IEEE special values. -/
inductive Exact
  | fin (q : ℚ)
  | inf (neg : Bool)
  | nan
  deriving DecidableEq

namespace Exact

def add : Exact → Exact → Exact
  | fin a, fin b => fin (a + b)
  | inf s, inf t => if s = t then inf s else nan
  | inf s, fin _ => inf s
  | fin _, inf s => inf s
  | nan, _ => nan
  | _, nan => nan

def mul : Exact → Exact → Exact
  | fin a, fin b => fin (a * b)
  | inf s, inf t => inf (xor s t)
  | inf s, fin b => if b = 0 then nan else inf (xor s (decide (b < 0)))
  | fin a, inf t => if a = 0 then nan else inf (xor (decide (a < 0)) t)
  | nan, _ => nan
  | _, nan => nan

def div : Exact → Exact → Exact
  | fin a, fin b =>
    if b = 0 then if a = 0 then nan else inf (decide (a < 0)) else fin (a / b)
  | fin _, inf _ => fin 0
  | inf s, fin b => inf (xor s (decide (b < 0)))
  | inf _, inf _ => nan
  | nan, _ => nan
  | _, nan => nan

def lt : Exact → Exact → Bool
  | fin a, fin b => decide (a < b)
  | inf true, fin _ => true
  | fin _, inf false => true
  | inf true, inf false => true
  | _, _ => false

/-- The number, and `0` for the special values. -/
def toRat : Exact → ℚ
  | fin q => q
  | _ => 0

/-- An infinity or NaN is no integer and gives the smallest `int`. -/
def floor : Exact → ℤ
  | fin q => ⌊q⌋
  | _ => -2 ^ 31

/-- Round half away from zero; a negative value does not fit and gives `0`. -/
def roundToNat : Exact → ℕ
  | fin q => ⌊q + 1 / 2⌋.toNat
  | _ => 0

def toInt : Exact → ℤ
  | fin q => if q < 0 then ⌈q⌉ else ⌊q⌋
  | _ => -2 ^ 31

/-- `|q| * 10^6` as an integer, rounded half to even as `printf` does. -/
def scaled (q : ℚ) : ℕ :=
  let n := q.num.natAbs * 10 ^ 6
  let f := n / q.den
  if 2 * (n % q.den) < q.den then f
  else if 2 * (n % q.den) = q.den then f + f % 2
  else f + 1

/-- Six digits, with leading zeros. -/
def sixDigits (n : ℕ) : Bytes :=
  Digits.text ((List.range 6).map fun i => Fin.ofNat 10 (n / 10 ^ (5 - i)))

/-- Fixed notation with six digits behind the point. -/
def toText : Exact → Bytes
  | fin q =>
    (if q < 0 then [minus] else []) ++
      (natText (scaled q / 10 ^ 6) ++ point :: sixDigits (scaled q % 10 ^ 6))
  | inf neg => if neg then ascii "-inf" else ascii "inf"
  | nan => ascii "nan"

theorem isPlain_toText (x : Exact) : ∀ c ∈ x.toText, isPlain c = true := by
  cases x with
  | fin q =>
    have hsix : ∀ n, ∀ c ∈ sixDigits n, isPlain c = true := by
      intro n c hc
      obtain ⟨d, _, rfl⟩ := List.mem_map.mp hc
      exact isPlain_byte d
    intro c hc
    simp only [toText, List.mem_append, List.mem_cons] at hc
    rcases hc with hc | hc | rfl | hc
    · split at hc
      · rw [List.mem_singleton] at hc
        subst hc
        decide
      · simp at hc
    · exact isPlain_natText hc
    · decide
    · exact hsix _ c hc
  | inf neg => cases neg <;> exact List.all_eq_true.mp rfl
  | nan => exact List.all_eq_true.mp rfl

instance : CDouble Exact where
  zero := fin 0
  one := fin 1
  add := add
  mul := mul
  div := div
  ofRat q := some (fin q)
  ofInt n := fin n
  intOfSize n := n
  inf := inf
  nan := nan
  lowest := fin (-((2 ^ 53 - 1) * 2 ^ 971))
  lt := lt
  floor := floor
  roundToNat := roundToNat
  toInt := toInt
  toText := toText
  isPlain_toText := isPlain_toText

@[simp] theorem fin_add_fin (a b : ℚ) : fin a + fin b = fin (a + b) := rfl
@[simp] theorem fin_mul_fin (a b : ℚ) : fin a * fin b = fin (a * b) := rfl

theorem add_comm (x y : Exact) : x + y = y + x := by
  rcases x with a | (_ | _) | _ <;> rcases y with b | (_ | _) | _ <;>
    first | rfl | exact congrArg fin (Rat.add_comm a b)

theorem add_assoc (x y z : Exact) : x + y + z = x + (y + z) := by
  rcases x with a | (_ | _) | _ <;> rcases y with b | (_ | _) | _ <;>
    rcases z with c | (_ | _) | _ <;>
      first | rfl | exact congrArg fin (Rat.add_assoc a b c)

theorem zero_add (x : Exact) : 0 + x = x := by
  show add (fin 0) x = x
  cases x <;> simp [add]

theorem fin_div_fin (a : ℚ) {b : ℚ} (h : b ≠ 0) : fin a / fin b = fin (a / b) := by
  show div (fin a) (fin b) = _
  simp [div, h]

theorem one_div_fin {q : ℚ} (h : q ≠ 0) : 1 / fin q = fin (1 / q) := fin_div_fin 1 h

end Exact
