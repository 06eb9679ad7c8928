import Mathlib

/-!
# Updates that set or add

A value that is updated by absolute and by relative updates in any order. After
a list of updates the value depends on where it started, unless an absolute
update came in between.

## Main results

- `Update.applyAll_map` — additive functions commute with updates
- `Update.applyAll_eq_iff` — when a list of updates forgets its start
-/

/-- Set the value, or add to it. -/
inductive Update (α : Type*)
  | set (x : α)
  | add (x : α)
  deriving DecidableEq

namespace Update

variable {α : Type*}

def apply [Add α] (v : α) : Update α → α
  | set x => x
  | add x => v + x

def applyAll [Add α] (v : α) (us : List (Update α)) : α := us.foldl apply v

@[simp] theorem applyAll_nil [Add α] (v : α) : applyAll v [] = v := rfl

theorem applyAll_append [Add α] (v : α) (us us' : List (Update α)) :
    applyAll v (us ++ us') = applyAll (applyAll v us) us' := by
  simp [applyAll]

/-- The update with its amount mapped. -/
def map {β : Type*} (f : α → β) : Update α → Update β
  | set x => set (f x)
  | add x => add (f x)

/-- An additive function commutes with updates. -/
theorem applyAll_map [Add α] {β : Type*} [Add β] {f : α → β} (hf : ∀ x y, f (x + y) = f x + f y)
    (v : α) (us : List (Update α)) : applyAll (f v) (us.map (map f)) = f (applyAll v us) := by
  induction us generalizing v with
  | nil => rfl
  | cons u us ih =>
    have hstep : apply (f v) (map f u) = f (apply v u) := by
      cases u with
      | set x => rfl
      | add x => exact (hf v x).symm
    rw [List.map_cons, applyAll, List.foldl_cons, hstep]
    exact ih _

/-- Behind an absolute update the start is forgotten. -/
theorem applyAll_of_set [Add α] {us : List (Update α)} {x : α} (h : set x ∈ us) (v v' : α) :
    applyAll v us = applyAll v' us := by
  induction us generalizing v v' with
  | nil => cases h
  | cons u us ih =>
    rcases List.mem_cons.mp h with rfl | h
    · rfl
    · exact ih h _ _

/-- Relative updates alone shift the start. -/
theorem applyAll_of_no_set [AddMonoid α] {us : List (Update α)} (h : ∀ x, set x ∉ us) (v : α) :
    applyAll v us = v + applyAll 0 us := by
  induction us generalizing v with
  | nil => simp
  | cons u us ih =>
    have hus : ∀ x, set x ∉ us := fun x hx => h x (List.mem_cons_of_mem _ hx)
    cases u with
    | set x => exact absurd (List.mem_cons_self ..) (h x)
    | add x =>
      show applyAll (v + x) us = v + applyAll (0 + x) us
      rw [ih hus (v + x), ih hus (0 + x), zero_add, add_assoc]

/-- Starting anew gives the same value exactly when an absolute update follows
or the value so far is zero. -/
theorem applyAll_eq_iff [AddGroup α] (v : α) (us : List (Update α)) :
    applyAll 0 us = applyAll v us ↔ (∃ x, set x ∈ us) ∨ v = 0 := by
  by_cases h : ∃ x, set x ∈ us
  · obtain ⟨x, hx⟩ := h
    exact ⟨fun _ => .inl ⟨x, hx⟩, fun _ => applyAll_of_set hx 0 v⟩
  · have hno : ∀ x, set x ∉ us := fun x hx => h ⟨x, hx⟩
    rw [applyAll_of_no_set hno v, eq_comm, add_eq_right]
    exact ⟨.inr, fun h' => h'.resolve_left h⟩

end Update
