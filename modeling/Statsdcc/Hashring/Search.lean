import Mathlib
import Statsdcc.Hashring

/-!
# The search on machine integers

`Hashring::find` keeps its bounds in variables of type `int`. The sum of the two
bounds overflows when it reaches `2 ^ 31`, which happens on rings of `2 ^ 30`
points and more. Below that size the search is the one on unbounded integers.

## Main results

- `Hashring.findInt_eq_find` — the two searches agree below `2 ^ 30` points
- `Hashring.exists_findInt` — the search reads nothing outside of a ring whose length is a
  small `int`
- `Hashring.findIntFrom_overflow` — behind many points the search overflows
- `Hashring.findInt_iff` — the search is right on all rings of a length exactly
  when the length is below `2 ^ 30`
-/

namespace Statsdcc

namespace Hashring

theorem findIntFrom_eq_findFrom {ring : List RingElement} (hlen : ring.length < 2 ^ 30)
    (hashValue : UInt32) {low high : ℤ} (hlow : 0 ≤ low) (hlowLe : low ≤ ring.length)
    (hhigh : high ≤ ring.length) (hle : low ≤ high) :
    findIntFrom ring hashValue ring.length low high = findFrom ring hashValue low high := by
  obtain ⟨n, hn⟩ : ∃ n, (high + 1 - low).toNat = n := ⟨_, rfl⟩
  induction n using Nat.strong_induction_on generalizing low high with
  | h n ih =>
  have hrange : ¬ (low + high < -2 ^ 31 ∨ 2 ^ 31 ≤ low + high) := by omega
  rw [findIntFrom, findFrom, if_neg hrange]
  obtain ⟨mid, hmidDef⟩ : ∃ mid, (low + high) / 2 = mid := ⟨_, rfl⟩
  have hmid : low ≤ mid ∧ mid ≤ high := by omega
  simp only [hmidDef]
  by_cases hsize : mid = ring.length
  · rw [if_pos hsize, if_pos hsize]
  rw [if_neg hsize, if_neg hsize]
  obtain ⟨middle, -, hread⟩ := readHash_of_lt ring (by omega : 0 ≤ mid) (by omega)
  obtain ⟨prev, hprevRead, -⟩ := readHash_prev ring (by omega : 0 ≤ mid) (by omega)
  simp only [hread, hprevRead]
  split_ifs
  · rfl
  · rfl
  · exact ih _ (by omega) (by omega) (by omega) hhigh (by omega) rfl
  · rfl
  · exact ih _ (by omega) hlow hlowLe (by omega) (by omega) rfl

/-- The integers of the source are as good as unbounded ones on small rings. -/
theorem findInt_eq_find {ring : List RingElement} (hlen : ring.length < 2 ^ 30)
    (hashValue : UInt32) : findInt ring hashValue = find ring hashValue := by
  have hsize : Int.bmod ring.length (2 ^ 32) = ring.length :=
    Int.bmod_eq_of_le (by omega) (by omega)
  rw [findInt, find, hsize]
  exact findIntFrom_eq_findFrom hlen hashValue le_rfl (by omega) le_rfl (by omega)

/-- `find` stops at the point that follows the hash. -/
theorem findInt_spec {ring : List RingElement} (hsorted : Sorted ring) (hne : ring ≠ [])
    (hlen : ring.length < 2 ^ 30) (hashValue : UInt32) :
    ∃ i e, findInt ring hashValue = some i ∧ ring[i]? = some e ∧ Follows ring hashValue e := by
  obtain ⟨e, he, hfollows⟩ := follows_successorIdx hsorted hne hashValue
  refine ⟨_, e, ?_, he, hfollows⟩
  rw [findInt_eq_find hlen, find_sorted hsorted]

/-- The loop reads nothing outside of the ring, sorted or not, and stops at an index
below its size or at `0`. -/
theorem exists_findIntFrom (ring : List RingElement) (hashValue : UInt32) {size low high : ℤ}
    (hsize : size < 2 ^ 30) (hlen : size ≤ ring.length) (hlow : 0 ≤ low) (hle : low ≤ high)
    (hhigh : high ≤ size) :
    ∃ i : ℕ, findIntFrom ring hashValue size low high = some i ∧ (i = 0 ∨ i < size) := by
  obtain ⟨n, hn⟩ : ∃ n, (high + 1 - low).toNat = n := ⟨_, rfl⟩
  induction n using Nat.strong_induction_on generalizing low high with
  | h n ih =>
  have hrange : ¬ (low + high < -2 ^ 31 ∨ 2 ^ 31 ≤ low + high) := by omega
  rw [findIntFrom, if_neg hrange]
  obtain ⟨mid, hmidDef⟩ : ∃ mid, (low + high) / 2 = mid := ⟨_, rfl⟩
  have hmid : low ≤ mid ∧ mid ≤ high := by omega
  simp only [hmidDef]
  by_cases hend : mid = size
  · exact ⟨0, if_pos hend, .inl rfl⟩
  rw [if_neg hend]
  obtain ⟨middle, -, hread⟩ := readHash_of_lt ring (by omega : 0 ≤ mid) (by omega)
  obtain ⟨prev, hprevRead, -⟩ := readHash_prev ring (by omega : 0 ≤ mid) (by omega)
  simp only [hread, hprevRead]
  split_ifs
  · exact ⟨_, rfl, .inr (by omega)⟩
  · exact ⟨_, rfl, .inl rfl⟩
  · exact ih _ (by omega) (by omega) (by omega) hhigh rfl
  · exact ⟨_, rfl, .inl rfl⟩
  · exact ih _ (by omega) hlow (by omega) (by omega) rfl

/-- If the length of a ring with points, as an `int`, is below `2 ^ 30` and not negative,
the search stops at one of the points, sorted or not. -/
theorem exists_findInt {ring : List RingElement} (hne : ring ≠ [])
    (hlen : ring.length % 2 ^ 32 < 2 ^ 30) (hashValue : UInt32) :
    ∃ i e, findInt ring hashValue = some i ∧ ring[i]? = some e := by
  have hsize : Int.bmod ring.length (2 ^ 32) = (ring.length % 2 ^ 32 : ℕ) := by
    rw [Int.bmod_def]
    omega
  have hle : ring.length % 2 ^ 32 ≤ ring.length := Nat.mod_le _ _
  have hlen' : ((ring.length % 2 ^ 32 : ℕ) : ℤ) < 2 ^ 30 := by exact_mod_cast hlen
  obtain ⟨i, hi, hlt⟩ := exists_findIntFrom ring hashValue hlen' (by exact_mod_cast hle) le_rfl
    (Int.natCast_nonneg _) le_rfl
  have hpos := List.length_pos_iff.mpr hne
  have hlt' : i < ring.length := by omega
  exact ⟨i, ring[i], by rw [findInt, hsize, hi], List.getElem?_eq_getElem hlt'⟩

/-- Behind `2 ^ 30` points and more that are all before the hash the search overflows. -/
theorem findIntFrom_overflow {ring : List RingElement} {hashValue : UInt32} {size low : ℤ}
    (hsize : 2 ^ 30 ≤ size) (hlen : size ≤ ring.length) (hbefore : ∀ x ∈ ring, x.hash < hashValue)
    (hlow : 0 ≤ low) (hle : low ≤ size) :
    findIntFrom ring hashValue size low size = none := by
  obtain ⟨n, hn⟩ : ∃ n, (size - low).toNat = n := ⟨_, rfl⟩
  induction n using Nat.strong_induction_on generalizing low with
  | h n ih =>
  rw [findIntFrom]
  by_cases hrange : low + size < -2 ^ 31 ∨ 2 ^ 31 ≤ low + size
  · exact if_pos hrange
  rw [if_neg hrange]
  obtain ⟨mid, hmidDef⟩ : ∃ mid, (low + size) / 2 = mid := ⟨_, rfl⟩
  have hmid : low ≤ mid ∧ mid < size := by omega
  obtain ⟨middle, hmiddle, hread⟩ := readHash_of_lt ring (by omega : 0 ≤ mid) (by omega)
  obtain ⟨prev, hprevRead, -⟩ := readHash_prev ring (by omega : 0 ≤ mid) (by omega)
  have hsmall := hbefore middle (List.mem_of_getElem? hmiddle)
  have hnot : ¬(hashValue ≤ middle.hash ∧ prev < hashValue) := fun h =>
    UInt32.not_le.mpr hsmall h.1
  have hover : ¬size < mid + 1 := by omega
  have hend : mid ≠ size := by omega
  simp only [hmidDef, hread, hprevRead, if_neg hnot, if_pos hsmall, if_neg hover, if_neg hend]
  exact ih _ (by omega) (by omega) (by omega) rfl

/-- A negative size is read outside of the ring at once. -/
theorem findIntFrom_negative (ring : List RingElement) (hashValue : UInt32) {size : ℤ}
    (hsize : size < -1) : findIntFrom ring hashValue size 0 size = none := by
  rw [findIntFrom]
  by_cases hrange : 0 + size < -2 ^ 31 ∨ 2 ^ 31 ≤ 0 + size
  · exact if_pos hrange
  have hend : (0 + size) / 2 ≠ size := by omega
  have hread : readHash ring ((0 + size) / 2) = none := if_pos (by omega)
  simp only [if_neg hrange, if_neg hend, hread]

/-- If all points are before the hash, the search overflows or reads outside of the ring
on every length that is not a small `int`; a length has four points for each virtual node. -/
theorem findInt_eq_none {ring : List RingElement} {hashValue : UInt32}
    (hbefore : ∀ x ∈ ring, x.hash < hashValue) (hfour : ring.length % 4 = 0)
    (hlen : 2 ^ 30 ≤ ring.length % 2 ^ 32) : findInt ring hashValue = none := by
  rw [findInt]
  by_cases hsign : ring.length % 2 ^ 32 < 2 ^ 31
  · have hsize : Int.bmod ring.length (2 ^ 32) = (ring.length % 2 ^ 32 : ℕ) := by
      rw [Int.bmod_def]
      omega
    have hle : ring.length % 2 ^ 32 ≤ ring.length := Nat.mod_le _ _
    simp only [hsize]
    exact findIntFrom_overflow (by exact_mod_cast hlen) (by exact_mod_cast hle) hbefore le_rfl
      (Int.natCast_nonneg _)
  · apply findIntFrom_negative
    rw [Int.bmod_def]
    omega

/-- The search returns no index from `2 ^ 30` on. -/
theorem findIntFrom_lt {ring : List RingElement} {hashValue : UInt32} {size low high : ℤ} {i : ℕ}
    (h : findIntFrom ring hashValue size low high = some i) : i < 2 ^ 30 := by
  obtain ⟨n, hn⟩ : ∃ n, (high + 1 - low).toNat = n := ⟨_, rfl⟩
  induction n using Nat.strong_induction_on generalizing low high with
  | h n ih =>
  rw [findIntFrom] at h
  by_cases hrange : low + high < -2 ^ 31 ∨ 2 ^ 31 ≤ low + high
  · rw [if_pos hrange] at h
    cases h
  rw [if_neg hrange] at h
  obtain ⟨mid, hmidDef⟩ : ∃ mid, (low + high) / 2 = mid := ⟨_, rfl⟩
  simp only [hmidDef] at h
  split at h
  · cases h
    omega
  · split at h
    · split_ifs at h
      · cases h
        omega
      · cases h
        omega
      · exact ih _ (by omega) h rfl
      · cases h
        omega
      · exact ih _ (by omega) h rfl
    · cases h

/-- A ring whose points all have the hash `0`. -/
def zeros (n : ℕ) : List RingElement := List.replicate n ⟨0, []⟩

theorem sorted_zeros (n : ℕ) : Sorted (zeros n) := by
  apply List.pairwise_of_forall_mem_list
  intro x hx y hy
  rw [List.eq_of_mem_replicate hx, List.eq_of_mem_replicate hy]

/-- On `2 ^ 30` points the search for a hash after all of them overflows. -/
theorem findInt_zeros : findInt (zeros (2 ^ 30)) 1 = none := by
  have hlen : (zeros (2 ^ 30)).length = 2 ^ 30 := List.length_replicate
  refine findInt_eq_none (fun x hx => ?_) ?_ ?_
  · rw [List.eq_of_mem_replicate hx]
    decide
  · omega
  · omega

/-- The point after `n` points with the hash `0`. -/
theorem successorIdx_zeros (n : ℕ) : successorIdx (zeros n ++ [⟨1, []⟩]) 1 = n := by
  have hlen : (zeros n).length = n := List.length_replicate
  apply successorIdx_of_ahead (e := ⟨1, []⟩)
  · rw [List.getElem?_append_right (by omega), hlen, Nat.sub_self]
    rfl
  · exact UInt32.le_refl _
  · intro j hj x hx
    rw [List.getElem?_append_left (by omega)] at hx
    have hzero : x = ⟨0, []⟩ := List.eq_of_mem_replicate (List.mem_of_getElem? hx)
    rw [hzero]
    decide

/-- **The search is right below `2 ^ 30` points only**: on every ring of `n` points
it ends, reads nothing outside of the ring and, if the ring is sorted, finds the
successor of every hash, exactly when `n` is less than `2 ^ 30`. -/
theorem findInt_iff (n : ℕ) :
    (∀ ring : List RingElement, ring.length = n → ∀ hashValue, ∃ i,
      findInt ring hashValue = some i ∧ (Sorted ring → i = successorIdx ring hashValue)) ↔
      n < 2 ^ 30 := by
  constructor
  · intro hright
    by_contra hlarge
    rcases Nat.eq_or_lt_of_le (Nat.le_of_not_lt hlarge) with heq | hlt
    · obtain ⟨i, hi, -⟩ := hright (zeros n) List.length_replicate 1
      rw [← heq, findInt_zeros] at hi
      cases hi
    · -- the successor is out of reach of the search
      obtain ⟨m, rfl⟩ : ∃ m, n = m + 1 := ⟨n - 1, by omega⟩
      have hlen : (zeros m ++ [(⟨1, []⟩ : RingElement)]).length = m + 1 := by
        rw [List.length_append, zeros, List.length_replicate]
        rfl
      have hsorted : Sorted (zeros m ++ [⟨1, []⟩]) := by
        refine List.pairwise_append.mpr ⟨sorted_zeros m, List.pairwise_singleton _ _, ?_⟩
        intro x hx y hy
        rw [List.eq_of_mem_replicate hx, List.mem_singleton.mp hy]
        decide
      obtain ⟨i, hi, hsucc⟩ := hright _ hlen 1
      have hbound : i < 2 ^ 30 := findIntFrom_lt hi
      rw [hsucc hsorted, successorIdx_zeros] at hbound
      omega
  · rintro hlen ring rfl hashValue
    have hsize : Int.bmod ring.length (2 ^ 32) = ring.length :=
      Int.bmod_eq_of_le (by omega) (by omega)
    obtain ⟨i, hi, -⟩ := exists_findIntFrom ring hashValue (by exact_mod_cast hlen) le_rfl le_rfl
      (Int.natCast_nonneg ring.length) le_rfl
    have hfound : findInt ring hashValue = some i := by
      rw [findInt, hsize]
      exact hi
    refine ⟨i, hfound, fun hsorted => ?_⟩
    have hfind := find_sorted hsorted hashValue
    rw [← findInt_eq_find hlen, hfound] at hfind
    exact Option.some.inj hfind

/-- On `2 ^ 30` points with the hash `0` the search for the hash `1` overflows. -/
theorem findInt_overflow :
    Sorted (zeros (2 ^ 30)) ∧
      ¬ ∃ i, findInt (zeros (2 ^ 30)) 1 = some i ∧ i = successorIdx (zeros (2 ^ 30)) 1 := by
  refine ⟨sorted_zeros _, ?_⟩
  rintro ⟨i, hi, -⟩
  rw [findInt_zeros] at hi
  cases hi

end Hashring

end Statsdcc
