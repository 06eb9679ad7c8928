import Mathlib

/-!
# Arithmetic in `std::size_t`

An `int` that meets a `std::size_t` in an arithmetic operation is converted to
it. A remainder by zero has no value. A large value does not fit into `ssize_t`.

## Main definitions

- `SizeT.ofInt` — the conversion
- `SizeT.rem` — the remainder
- `SizeT.toSsize` — the conversion to the signed type of the same width
-/

namespace SizeT

/-- The conversion of a signed integer. -/
def ofInt (i : ℤ) : ℕ := (i % 2 ^ 64).toNat

/-- `a % b`, where `none` is the division by zero. -/
def rem (a b : ℕ) : Option ℕ := if b = 0 then none else some (a % b)

theorem ofInt_of_nonneg {i : ℤ} (h : 0 ≤ i) (hlt : i < 2 ^ 64) : ofInt i = i.toNat := by
  rw [ofInt, Int.emod_eq_of_lt h hlt]

theorem rem_of_pos (a : ℕ) {b : ℕ} (h : 0 < b) : rem a b = some (a % b) := if_neg h.ne'

/-- The conversion of a `std::size_t` to `ssize_t`. -/
def toSsize (n : ℕ) : ℤ := if n < 2 ^ 63 then n else n - 2 ^ 64

theorem toSsize_of_lt {n : ℕ} (h : n < 2 ^ 63) : toSsize n = n := if_pos h

end SizeT
