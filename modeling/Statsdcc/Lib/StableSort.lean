import Mathlib

/-!
# The contract of a stable sort

A sort that takes a comparator promises a stable sort of those lists on whose
elements the comparator is a strict weak order, and nothing about any other
list.

## Main definitions

- `StrictWeakOrderOn` — the comparator is a strict weak order on a list
- `StablySorted` — one list is the stable sort of another
- `StableSortSpec` — the promise of the sort

## Main results

- `stableSort_spec` — merging meets the contract
- `stableSort_eq_reverse` — merging reverses a list whose elements are all put before
  each other
- `StableSortSpec.exists_empty` — a sort that meets it may drop the elements of a
  list that the comparator does not order
-/

variable {α : Type*}

/-- The comparator is a strict weak order on the elements of the list. -/
structure StrictWeakOrderOn (lt : α → α → Bool) (xs : List α) : Prop where
  irrefl : ∀ x ∈ xs, lt x x = false
  asymm : ∀ x ∈ xs, ∀ y ∈ xs, lt x y = true → lt y x = false
  trans : ∀ x ∈ xs, ∀ y ∈ xs, ∀ z ∈ xs, lt x y = true → lt y z = true → lt x z = true
  incomp_trans : ∀ x ∈ xs, ∀ y ∈ xs, ∀ z ∈ xs,
    lt y x = false → lt z y = false → lt z x = false

/-- The elements that the comparator puts neither before nor behind `x`. -/
def Tied (lt : α → α → Bool) (x y : α) : Bool := !lt x y && !lt y x

/-- `ys` is the stable sort of `xs`: ties keep their order. -/
structure StablySorted (lt : α → α → Bool) (xs ys : List α) : Prop where
  perm : ys.Perm xs
  sorted : ys.Pairwise fun x y => lt y x = false
  ties : ∀ x ∈ xs, ys.filter (Tied lt x) = xs.filter (Tied lt x)

/-- What a sort with a comparator promises. -/
def StableSortSpec (sort : (α → α → Bool) → List α → List α) : Prop :=
  ∀ lt xs, StrictWeakOrderOn lt xs → StablySorted lt xs (sort lt xs)

namespace StrictWeakOrderOn

variable {lt : α → α → Bool} {xs : List α}

theorem nil (lt : α → α → Bool) : StrictWeakOrderOn lt [] := by
  constructor <;> exact fun x hx => absurd hx List.not_mem_nil

/-- A reflexive comparator orders no element. -/
theorem eq_nil_of_refl (h : StrictWeakOrderOn lt xs) (hrefl : ∀ x, lt x x = true) : xs = [] := by
  rw [List.eq_nil_iff_forall_not_mem]
  intro x hx
  have hirrefl := h.irrefl x hx
  rw [hrefl] at hirrefl
  cases hirrefl

/-- Not being behind is total on the elements. -/
theorem total (h : StrictWeakOrderOn lt xs) {x y : α} (hx : x ∈ xs) (hy : y ∈ xs) :
    (!lt y x || !lt x y) = true := by
  rcases hlt : lt x y with _ | _
  · simp
  · simp [h.asymm x hx y hy hlt]

/-- Elements tied with a third one are not behind each other. -/
theorem not_lt_of_tied (h : StrictWeakOrderOn lt xs) {x y z : α} (hx : x ∈ xs) (hy : y ∈ xs)
    (hz : z ∈ xs) (hxy : Tied lt x y = true) (hxz : Tied lt x z = true) : lt z y = false := by
  simp only [Tied, Bool.and_eq_true, Bool.not_eq_true'] at hxy hxz
  exact h.incomp_trans y hy x hx z hz hxy.1 hxz.2

end StrictWeakOrderOn

/-- Merge, and take the left element unless the right one is strictly before it. -/
def stableSort (lt : α → α → Bool) (xs : List α) : List α := xs.mergeSort fun x y => !lt y x

section

variable {lt : α → α → Bool} {xs : List α}

/-- The sort runs on the elements of the list alone, where the comparator is an order. -/
theorem stableSort_eq_attach (lt : α → α → Bool) (xs : List α) :
    stableSort lt xs =
      (xs.attach.mergeSort fun x y => !lt y.val x.val).map Subtype.val := by
  rw [List.map_mergeSort (s := fun x y => !lt y x) (fun _ _ _ _ => rfl),
    List.attach_map_subtype_val]
  rfl

theorem StrictWeakOrderOn.sorted_stableSort (h : StrictWeakOrderOn lt xs) :
    (stableSort lt xs).Pairwise fun x y => lt y x = false := by
  have hsorted : (xs.attach.mergeSort fun x y => !lt y.val x.val).Pairwise
      fun x y => (!lt y.val x.val) = true := by
    refine List.pairwise_mergeSort (fun x y z hxy hyz => ?_) (fun x y => h.total x.2 y.2) xs.attach
    simp only [Bool.not_eq_true'] at hxy hyz ⊢
    exact h.incomp_trans x.val x.2 y.val y.2 z.val z.2 hxy hyz
  rw [stableSort_eq_attach, List.pairwise_map]
  exact hsorted.imp fun hxy => by simpa using hxy

/-- A list without descents is a sublist of the sorted list if it is one of the list. -/
theorem StrictWeakOrderOn.sublist_stableSort (h : StrictWeakOrderOn lt xs) {p : α → Bool}
    (hp : (xs.filter p).Pairwise fun x y => lt y x = false) :
    (xs.filter p).Sublist (stableSort lt xs) := by
  have hattach : (xs.attach.filter fun x => p x.val).map Subtype.val = xs.filter p := by
    rw [← Function.comp_def p, ← List.filter_map, List.attach_map_subtype_val]
  rw [← hattach, List.pairwise_map] at hp
  rw [← hattach, stableSort_eq_attach]
  refine List.Sublist.map _ (List.sublist_mergeSort (fun x y z hxy hyz => ?_)
    (fun x y => h.total x.2 y.2) (hp.imp fun hxy => ?_) List.filter_sublist)
  · simp only [Bool.not_eq_true'] at hxy hyz ⊢
    exact h.incomp_trans x.val x.2 y.val y.2 z.val z.2 hxy hyz
  · simpa using hxy

/-- Merging meets the contract. -/
theorem stableSort_spec : StableSortSpec (stableSort (α := α)) := by
  intro lt xs h
  have hperm : (stableSort lt xs).Perm xs := List.mergeSort_perm _ _
  refine ⟨hperm, h.sorted_stableSort, fun x hx => ?_⟩
  have htied : (xs.filter (Tied lt x)).Pairwise fun y z => lt z y = false := by
    refine List.Pairwise.imp_of_mem (R := fun _ _ => True) (fun {y z} hy hz _ => ?_)
      (List.pairwise_of_forall fun _ _ => trivial)
    rw [List.mem_filter] at hy hz
    exact h.not_lt_of_tied hx hy.1 hz.1 hy.2 hz.2
  have hsub := (h.sublist_stableSort htied).filter (Tied lt x)
  rw [List.filter_filter] at hsub
  simp only [Bool.and_self] at hsub
  exact (hsub.eq_of_length (hperm.filter _).length_eq.symm).symm

/-- With a comparator that puts every right element first, merging appends. -/
theorem merge_eq_append {le : α → α → Bool} {xs ys : List α}
    (h : ∀ x ∈ xs, ∀ y ∈ ys, le x y = false) : xs.merge ys le = ys ++ xs := by
  cases xs with
  | nil => simp
  | cons x xs =>
    induction ys with
    | nil => simp
    | cons y ys ih =>
      have hxy : ¬le x y = true := by simp [h x (by simp) y (by simp)]
      rw [List.cons_merge_cons_neg le xs ys hxy, List.cons_append,
        ih fun x' hx' y' hy' => h x' hx' y' (by simp [hy'])]

/-- Merging reverses a list whose elements are all put before each other. -/
theorem stableSort_eq_reverse (h : ∀ x ∈ xs, ∀ y ∈ xs, lt x y = true) :
    stableSort lt xs = xs.reverse := by
  obtain ⟨n, hn⟩ : ∃ n, xs.length = n := ⟨_, rfl⟩
  induction n using Nat.strong_induction_on generalizing xs with
  | h n ih =>
  match xs, h, hn with
  | [], _, _ => simp [stableSort]
  | [x], _, _ => simp [stableSort]
  | x :: y :: xs, h, hn =>
    have hall : ∀ zs : List α, zs.Sublist (x :: y :: xs) → ∀ a ∈ zs, ∀ b ∈ zs, lt a b = true :=
      fun zs hzs a ha b hb => h a (hzs.subset ha) b (hzs.subset hb)
    rw [List.length_cons, List.length_cons] at hn
    -- the two halves are reversed, and the right one is put first
    obtain ⟨k, hk⟩ : ∃ k, (xs.length + 1 + 1 + 1) / 2 = k := ⟨_, rfl⟩
    have htake := ih ((x :: y :: xs).take k).length (by simp; omega)
      (hall _ (List.take_sublist _ _)) rfl
    have hdrop := ih ((x :: y :: xs).drop k).length (by simp; omega)
      (hall _ (List.drop_sublist _ _)) rfl
    rw [stableSort] at htake hdrop
    rw [stableSort, List.mergeSort]
    simp only [List.MergeSort.Internal.splitInTwo_fst, List.MergeSort.Internal.splitInTwo_snd,
      List.length_cons, hk, htake, hdrop]
    rw [merge_eq_append, ← List.reverse_append, List.take_append_drop]
    intro a ha b hb
    rw [List.mem_reverse] at ha hb
    rw [h b ((List.drop_sublist _ _).subset hb) a ((List.take_sublist _ _).subset ha)]
    rfl

open Classical in
/-- A sort that meets the contract and leaves nothing of a list that the comparator
does not order. -/
theorem StableSortSpec.exists_empty : ∃ sort : (α → α → Bool) → List α → List α,
    StableSortSpec sort ∧ ∀ lt xs, ¬StrictWeakOrderOn lt xs → sort lt xs = [] := by
  refine ⟨fun lt xs => if StrictWeakOrderOn lt xs then stableSort lt xs else [], ?_, ?_⟩
  · intro lt xs h
    simp only [if_pos h]
    exact stableSort_spec lt xs h
  · intro lt xs h
    simp only [if_neg h]

end
