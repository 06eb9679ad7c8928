import Mathlib

/-!
# Segments of a text

A text with delimiters consists of terminated segments, and of what stands behind
the last delimiter. Both are determined piece by piece: what one piece leaves
pending is the beginning of the next one.

## Main definitions

- `Segments.terminated` — the segments that a delimiter ends
- `Segments.pending` — the text behind the last delimiter

## Main results

- `Segments.terminated_append`, `Segments.pending_append` — a text that comes in pieces
-/

namespace Segments

variable {α : Type*} [BEq α] [LawfulBEq α] {delim : α}

/-- The segments that are ended by a delimiter. -/
def terminated (delim : α) (s : List α) : List (List α) := (s.splitOn delim).dropLast

/-- What stands behind the last delimiter. -/
def pending (delim : α) (s : List α) : List α :=
  (s.splitOn delim).getLast (List.splitOn_ne_nil delim s)

theorem terminated_of_notMem {s : List α} (h : delim ∉ s) : terminated delim s = [] := by
  rw [terminated, List.splitOn_eq_singleton h, List.dropLast_singleton]

theorem pending_of_notMem {s : List α} (h : delim ∉ s) : pending delim s = s := by
  simp only [pending, List.splitOn_eq_singleton h, List.getLast_singleton]

theorem terminated_append_cons (s t : List α) :
    terminated delim (s ++ delim :: t) =
      terminated delim s ++ pending delim s :: terminated delim t := by
  rw [terminated, List.splitOn_append_cons_self,
    List.dropLast_append_of_ne_nil (List.splitOn_ne_nil delim t)]
  conv_lhs => rw [← List.dropLast_append_getLast (List.splitOn_ne_nil delim s)]
  rw [List.append_assoc, List.singleton_append]
  rfl

theorem pending_append_cons (s t : List α) :
    pending delim (s ++ delim :: t) = pending delim t := by
  simp only [pending, List.splitOn_append_cons_self]
  exact List.getLast_append_of_ne_nil _ (List.splitOn_ne_nil delim t)

/-- What is pending is an end of the text without a delimiter. -/
theorem pending_spec (s : List α) : delim ∉ pending delim s ∧ pending delim s <:+ s := by
  induction hlength : s.length using Nat.strong_induction_on generalizing s with
  | _ n ih =>
    by_cases hmem : delim ∈ s
    · obtain ⟨front, back, rfl⟩ := List.append_of_mem hmem
      rw [List.length_append, List.length_cons] at hlength
      obtain ⟨hnot, hsuffix⟩ := ih back.length (by omega) back rfl
      rw [pending_append_cons]
      exact ⟨hnot, (hsuffix.trans (List.suffix_cons delim back)).trans (List.suffix_append _ _)⟩
    · rw [pending_of_notMem hmem]
      exact ⟨hmem, List.suffix_refl s⟩

theorem notMem_pending (s : List α) : delim ∉ pending delim s := (pending_spec s).1

theorem length_pending_le (s : List α) : (pending delim s).length ≤ s.length :=
  (pending_spec s).2.length_le

/-- A segment has only characters of the text. -/
theorem mem_of_mem_terminated {s seg : List α} {c : α} (hseg : seg ∈ terminated delim s)
    (hc : c ∈ seg) : c ∈ s := by
  induction hlength : s.length using Nat.strong_induction_on generalizing s with
  | _ n ih =>
    by_cases hmem : delim ∈ s
    · obtain ⟨front, back, rfl⟩ := List.append_of_mem hmem
      rw [List.length_append, List.length_cons] at hlength
      rw [terminated_append_cons, List.mem_append, List.mem_cons] at hseg
      rcases hseg with hseg | rfl | hseg
      · exact List.mem_append_left _ (ih front.length (by omega) hseg rfl)
      · exact List.mem_append_left _ ((pending_spec front).2.subset hc)
      · exact List.mem_append_right _
          (List.mem_cons_of_mem _ (ih back.length (by omega) hseg rfl))
    · rw [terminated_of_notMem hmem] at hseg
      cases hseg

/-- What a piece leaves pending is read again before the next piece. -/
theorem append_spec (s t : List α) :
    terminated delim (s ++ t) = terminated delim s ++ terminated delim (pending delim s ++ t) ∧
      pending delim (s ++ t) = pending delim (pending delim s ++ t) := by
  induction hlength : s.length using Nat.strong_induction_on generalizing s with
  | _ n ih =>
    by_cases hmem : delim ∈ s
    · obtain ⟨front, back, rfl⟩ := List.append_of_mem hmem
      rw [List.length_append, List.length_cons] at hlength
      obtain ⟨hterminated, hpending⟩ := ih back.length (by omega) back rfl
      rw [List.append_assoc, List.cons_append, terminated_append_cons, terminated_append_cons,
        pending_append_cons, pending_append_cons, hterminated, hpending]
      simp
    · simp [terminated_of_notMem hmem, pending_of_notMem hmem]

theorem terminated_append (s t : List α) :
    terminated delim (s ++ t) = terminated delim s ++ terminated delim (pending delim s ++ t) :=
  (append_spec s t).1

theorem pending_append (s t : List α) :
    pending delim (s ++ t) = pending delim (pending delim s ++ t) :=
  (append_spec s t).2

/-- A piece without a delimiter ends no segment. -/
theorem terminated_append_of_notMem (s : List α) {t : List α} (h : delim ∉ t) :
    terminated delim (s ++ t) = terminated delim s := by
  have hrest : delim ∉ pending delim s ++ t := by
    rw [List.mem_append, not_or]
    exact ⟨notMem_pending s, h⟩
  rw [terminated_append, terminated_of_notMem hrest, List.append_nil]

theorem pending_append_of_notMem (s : List α) {t : List α} (h : delim ∉ t) :
    pending delim (s ++ t) = pending delim s ++ t := by
  have hrest : delim ∉ pending delim s ++ t := by
    rw [List.mem_append, not_or]
    exact ⟨notMem_pending s, h⟩
  rw [pending_append, pending_of_notMem hrest]

end Segments
