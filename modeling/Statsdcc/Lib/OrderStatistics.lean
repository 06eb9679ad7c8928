import Mathlib

/-!
# Order statistics

The `k`-th smallest value of a list and the least sum of `k` of its values,
described without sorting, and found in a sorted list at its `k`-th place and
in front of it.

## Main definitions

- `OrderStatistic` — the `k`-th smallest value
- `IsSubSum` — a sum of `k` of the values

## Main results

- `OrderStatistic.mono` — a higher rank has no smaller value
- `orderStatistic_getElem` — the `k`-th value of a sorted list
- `isLeast_sum_take` — the sum of the first `k` values of a sorted list
- `div_length_le`, `le_div_length` — a mean lies between bounds of the values
-/

section Rank

variable {α : Type*} [LinearOrder α]

/-- At least `k` of the values are at most `x`, and at least `n - k + 1` of them
are at least `x`. -/
structure OrderStatistic (xs : List α) (k : ℕ) (x : α) : Prop where
  mem : x ∈ xs
  below : k ≤ xs.countP (· ≤ x)
  above : xs.length - k + 1 ≤ xs.countP (x ≤ ·)

theorem OrderStatistic.of_perm {xs ys : List α} {k : ℕ} {x : α} (h : OrderStatistic xs k x)
    (hperm : xs.Perm ys) : OrderStatistic ys k x where
  mem := hperm.subset h.mem
  below := by rw [← hperm.countP_eq]; exact h.below
  above := by rw [← hperm.countP_eq, ← hperm.length_eq]; exact h.above

/-- A higher rank has no smaller value. -/
theorem OrderStatistic.mono {xs : List α} {j k : ℕ} {x y : α} (hx : OrderStatistic xs j x)
    (hy : OrderStatistic xs k y) (hjk : j ≤ k) : x ≤ y := by
  by_contra hlt
  rw [not_le] at hlt
  -- no value is at most `y` and at least `x`
  have hdisjoint : xs.countP (x ≤ ·) ≤ xs.countP fun z => ¬z ≤ y := by
    apply List.countP_mono_left
    intro z _ hz
    rw [decide_eq_true_eq] at hz ⊢
    exact not_le.mpr (hlt.trans_le hz)
  have hsum := List.length_eq_countP_add_countP (fun z => decide (z ≤ y)) (l := xs)
  simp only [decide_eq_true_eq] at hsum
  have habove := hx.above
  have hbelow := hy.below
  omega

/-- In a sorted list the `k`-th smallest value stands at the `k`-th place. -/
theorem orderStatistic_getElem {xs : List α} (hsorted : xs.Pairwise (· ≤ ·)) {i : ℕ}
    (hi : i < xs.length) : OrderStatistic xs (i + 1) xs[i] where
  mem := List.getElem_mem hi
  below := by
    have hfront : (xs.take (i + 1)).countP (· ≤ xs[i]) = i + 1 := by
      rw [List.countP_eq_length.mpr, List.length_take, min_eq_left (by omega)]
      intro x hx
      obtain ⟨j, hj, rfl⟩ := List.mem_take_iff_getElem.mp hx
      rw [decide_eq_true_eq]
      rcases Nat.lt_or_eq_of_le (by omega : j ≤ i) with hlt | rfl
      · exact List.pairwise_iff_getElem.mp hsorted j i (by omega) hi hlt
      · exact le_rfl
    rw [← hfront]
    exact (List.take_sublist _ _).countP_le
  above := by
    have hback : (xs.drop i).countP (xs[i] ≤ ·) = xs.length - i := by
      rw [List.countP_eq_length.mpr, List.length_drop]
      intro x hx
      obtain ⟨j, hj, rfl⟩ := List.mem_drop_iff_getElem.mp hx
      rw [decide_eq_true_eq]
      rcases Nat.eq_zero_or_pos j with rfl | hpos
      · exact le_rfl
      · exact List.pairwise_iff_getElem.mp hsorted i (i + j) hi (by omega) (by omega)
    have hle := (List.drop_sublist i xs).countP_le (p := fun x => decide (xs[i] ≤ x))
    omega

end Rank

section Sums

variable {α : Type*} [AddCommMonoid α]

/-- `x` is the sum of `k` of the values. -/
def IsSubSum (xs : List α) (k : ℕ) (x : α) : Prop :=
  ∃ s ≤ (xs : Multiset α), s.card = k ∧ s.sum = x

theorem IsSubSum.of_perm {xs ys : List α} {k : ℕ} {x : α} (h : IsSubSum xs k x)
    (hperm : xs.Perm ys) : IsSubSum ys k x := by
  rwa [IsSubSum, ← Multiset.coe_eq_coe.mpr hperm]

variable [LinearOrder α]

omit [AddCommMonoid α] in
/-- The first values of a sorted list are below those of any sublist, one by one. -/
theorem forall₂_take_of_sublist {xs ys : List α} (hsorted : xs.Pairwise (· ≤ ·))
    (hsub : ys.Sublist xs) : List.Forall₂ (· ≤ ·) (xs.take ys.length) ys := by
  induction xs generalizing ys with
  | nil =>
    obtain rfl := List.sublist_nil.mp hsub
    exact .nil
  | cons x xs ih =>
    obtain ⟨hx, htail⟩ := List.pairwise_cons.mp hsorted
    cases ys with
    | nil => exact .nil
    | cons y ys =>
      have hy : x ≤ y := by
        rcases List.mem_cons.mp (hsub.subset (.head _)) with rfl | hmem
        · exact le_rfl
        · exact hx y hmem
      have hys : ys.Sublist xs := by
        cases hsub with
        | cons _ h => exact (List.sublist_cons_self y ys).trans h
        | cons_cons _ h => exact h
      exact .cons hy (ih htail hys)

/-- The first `k` values of a sorted list have the least sum of `k` values. -/
theorem isLeast_sum_take [IsOrderedAddMonoid α] {xs : List α} (hsorted : xs.Pairwise (· ≤ ·))
    {k : ℕ} (hk : k ≤ xs.length) : IsLeast {x | IsSubSum xs k x} (xs.take k).sum := by
  constructor
  · refine ⟨(xs.take k : List α), ?_, ?_, Multiset.sum_coe _⟩
    · exact (List.take_sublist k xs).subperm
    · rw [Multiset.coe_card, List.length_take, min_eq_left hk]
  · rintro _ ⟨s, hs, rfl, rfl⟩
    -- the values of the sum in order are a sublist
    have hsort : ((s.sort (· ≤ ·) : List α) : Multiset α) = s := Multiset.sort_eq s _
    have hsub : (s.sort (· ≤ ·)).Sublist xs := by
      apply List.sublist_of_subperm_of_pairwise (r := (· ≤ ·)) _ (Multiset.pairwise_sort s _)
        hsorted
      rw [← Multiset.coe_le, hsort]
      exact hs
    have hlength : (s.sort (· ≤ ·)).length = s.card := Multiset.length_sort _
    have hle := (forall₂_take_of_sublist hsorted hsub).sum_le_sum
    rw [hlength] at hle
    rw [← hsort, Multiset.sum_coe, hsort]
    exact hle

end Sums

section Mean

variable {α : Type*} [Field α] [LinearOrder α] [IsStrictOrderedRing α] {xs : List α}

/-- A mean is at most an upper bound of the values. -/
theorem div_length_le (hne : xs ≠ []) {u : α} (hu : ∀ x ∈ xs, x ≤ u) :
    xs.sum / xs.length ≤ u := by
  have hpos : (0 : α) < xs.length := by
    exact_mod_cast List.length_pos_iff.mpr hne
  rw [div_le_iff₀ hpos, mul_comm, ← nsmul_eq_mul]
  exact List.sum_le_card_nsmul xs u hu

/-- A mean is at least a lower bound of the values. -/
theorem le_div_length (hne : xs ≠ []) {l : α} (hl : ∀ x ∈ xs, l ≤ x) :
    l ≤ xs.sum / xs.length := by
  have hpos : (0 : α) < xs.length := by
    exact_mod_cast List.length_pos_iff.mpr hne
  rw [le_div_iff₀ hpos, mul_comm, ← nsmul_eq_mul]
  exact List.card_nsmul_le_sum xs l hl

end Mean
