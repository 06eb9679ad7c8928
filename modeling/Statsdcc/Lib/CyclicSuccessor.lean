import Mathlib

/-!
# Successors on a circle

Points on a circle of ordered keys. The successor of a position is a point with
the least key that is not before it, or a point with the least key of all when
every point is before it.

## Main results

- `CyclicSuccessor.key_unique` — a position determines the key of its successor
- `CyclicSuccessor.of_subset` — a successor among more points is a successor
  among fewer, if it is one of them
-/

variable {α β : Type*} [LinearOrder α] {key : β → α} {points points' : List β} {h : α} {e e' : β}

/-- The point `e` follows the position `h`. -/
structure CyclicSuccessor (key : β → α) (points : List β) (h : α) (e : β) : Prop where
  mem : e ∈ points
  ahead : (∃ x ∈ points, h ≤ key x) → h ≤ key e
  least : ∀ x ∈ points, h ≤ key x → key e ≤ key x
  wrapped : (∀ x ∈ points, key x < h) → ∀ x ∈ points, key e ≤ key x

namespace CyclicSuccessor

theorem key_le (he : CyclicSuccessor key points h e) (he' : CyclicSuccessor key points h e') :
    key e ≤ key e' := by
  by_cases hahead : ∃ x ∈ points, h ≤ key x
  · exact he.least e' he'.mem (he'.ahead hahead)
  · refine he.wrapped (fun x hx => ?_) e' he'.mem
    exact lt_of_not_ge fun hle => hahead ⟨x, hx, hle⟩

/-- Two successors of a position have the same key. -/
theorem key_unique (he : CyclicSuccessor key points h e)
    (he' : CyclicSuccessor key points h e') : key e = key e' :=
  le_antisymm (he.key_le he') (he'.key_le he)

/-- Every point with the key of a successor is a successor. -/
theorem of_key_eq (he : CyclicSuccessor key points h e) (hmem : e' ∈ points)
    (hkey : key e' = key e) : CyclicSuccessor key points h e' where
  mem := hmem
  ahead hex := hkey ▸ he.ahead hex
  least x hx hle := hkey ▸ he.least x hx hle
  wrapped hall x hx := hkey ▸ he.wrapped hall x hx

/-- Removing other points does not change a successor. -/
theorem of_subset (he : CyclicSuccessor key points' h e) (hsub : points ⊆ points')
    (hmem : e ∈ points) : CyclicSuccessor key points h e where
  mem := hmem
  ahead := fun ⟨x, hx, hle⟩ => he.ahead ⟨x, hsub hx, hle⟩
  least x hx hle := he.least x (hsub hx) hle
  wrapped hall x hx := by
    by_cases hahead : ∃ y ∈ points', h ≤ key y
    · -- then `e` is not before the position, although all points are
      exact absurd (he.ahead hahead) (not_le_of_gt (hall e hmem))
    · refine he.wrapped (fun y hy => ?_) x (hsub hx)
      exact lt_of_not_ge fun hle => hahead ⟨y, hy, hle⟩

/-- Only the points matter, not their order. -/
theorem of_perm (he : CyclicSuccessor key points h e) (hperm : points.Perm points') :
    CyclicSuccessor key points' h e :=
  he.of_subset (fun _ hx => hperm.mem_iff.mpr hx) (hperm.mem_iff.mp he.mem)

/-- In a sorted list the first point that is not before the position follows it. -/
theorem of_sorted_ahead (hsorted : points.Pairwise fun x y => key x ≤ key y) {i : ℕ}
    (hi : points[i]? = some e) (hle : h ≤ key e) (hbefore : ∀ j < i, ∀ x ∈ points[j]?, key x < h) :
    CyclicSuccessor key points h e := by
  have hmem : e ∈ points := List.mem_of_getElem? hi
  refine ⟨hmem, fun _ => hle, fun x hx hx' => ?_, fun hall => ?_⟩
  · obtain ⟨j, hj⟩ := List.mem_iff_getElem?.mp hx
    rcases lt_trichotomy i j with hij | rfl | hji
    · obtain ⟨hi', rfl⟩ := List.getElem?_eq_some_iff.mp hi
      obtain ⟨hj', rfl⟩ := List.getElem?_eq_some_iff.mp hj
      exact List.pairwise_iff_getElem.mp hsorted i j hi' hj' hij
    · rw [hi, Option.some.injEq] at hj
      rw [hj]
    · exact absurd hx' (not_le_of_gt (hbefore j hji x hj))
  · exact absurd hle (not_le_of_gt (hall e hmem))

/-- When all points of a sorted list are before the position, or none is, the
first one follows it. -/
theorem of_sorted_first (hsorted : points.Pairwise fun x y => key x ≤ key y)
    (hfirst : points[0]? = some e) (hall : (∀ x ∈ points, key x < h) ∨ h ≤ key e) :
    CyclicSuccessor key points h e := by
  rcases hall with hall | hle
  · refine ⟨List.mem_of_getElem? hfirst, fun ⟨x, hx, hle⟩ => ?_, fun x hx hle => ?_, fun _ => ?_⟩
    · exact absurd hle (not_le_of_gt (hall x hx))
    · exact absurd hle (not_le_of_gt (hall x hx))
    · cases points with
      | nil => cases hfirst
      | cons y ys =>
        cases hfirst
        intro x hx
        rcases List.mem_cons.mp hx with rfl | hx
        · exact le_rfl
        · exact (List.pairwise_cons.mp hsorted).1 x hx
  · exact of_sorted_ahead hsorted hfirst hle fun j hj => absurd hj (Nat.not_lt_zero j)

end CyclicSuccessor
