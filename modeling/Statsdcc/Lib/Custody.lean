import Mathlib

/-!
# One holder for each resource

Resources that are numbered, taken into use and released by the parties of a
program, and passed from one to another. The numbers may be used again. Each
resource in use has one holder, who holds it once, so that no party can meet a
resource that another one has released, and none is lost.

## Main results

- `Custody.acquire`, `Custody.pass`, `Custody.release` — the life of a resource
-/

/-- Every resource in use is held by one party, once, and nothing else is held. -/
structure Custody {ι : Type*} (used : ℕ → Prop) (held : ι → List ℕ) : Prop where
  nodup : ∀ i, (held i).Nodup
  apart : ∀ {i j p}, p ∈ held i → p ∈ held j → i = j
  used_iff : ∀ p, (∃ i, p ∈ held i) ↔ used p

namespace Custody

variable {ι : Type*} {used used' : ℕ → Prop} {held held' : ι → List ℕ} {i j : ι} {p : ℕ}

theorem used_of_mem (hcust : Custody used held) (hp : p ∈ held i) : used p :=
  (hcust.used_iff p).mp ⟨i, hp⟩

theorem of_nil (hheld : ∀ i, held i = []) (hused : ∀ p, ¬ used p) : Custody used held where
  nodup i := by rw [hheld]; exact List.nodup_nil
  apart := by
    intro i j p hp
    rw [hheld] at hp
    cases hp
  used_iff p := by
    refine iff_of_false ?_ (hused p)
    rintro ⟨i, hp⟩
    rw [hheld] at hp
    cases hp

/-- When nobody holds a resource, none is in use. -/
theorem not_used (hcust : Custody used held) (hheld : ∀ i, held i = []) (p : ℕ) : ¬ used p := by
  intro hp
  obtain ⟨i, hi⟩ := (hcust.used_iff p).mpr hp
  rw [hheld] at hi
  cases hi

/-- Nothing is taken, passed or released. -/
theorem keep (hcust : Custody used held) (hheld : ∀ i, (held' i).Perm (held i))
    (hused : ∀ p, used' p ↔ used p) : Custody used' held' where
  nodup i := (hheld i).nodup_iff.mpr (hcust.nodup i)
  apart hi hj := hcust.apart ((hheld _).mem_iff.mp hi) ((hheld _).mem_iff.mp hj)
  used_iff p := by
    rw [hused, ← hcust.used_iff p]
    exact exists_congr fun i => (hheld i).mem_iff

/-- A party takes a resource that was not in use. -/
theorem acquire (hcust : Custody used held) (hfree : ¬ used p)
    (hi : (held' i).Perm (p :: held i)) (hother : ∀ k ≠ i, held' k = held k)
    (hused : ∀ q, used' q ↔ q = p ∨ used q) : Custody used' held' := by
  have hnew : ∀ k, p ∉ held k := fun k hmem => hfree (hcust.used_of_mem hmem)
  have hmem : ∀ {q k}, q ∈ held' k ↔ q = p ∧ k = i ∨ q ∈ held k := by
    intro q k
    by_cases hk : k = i
    · subst hk
      rw [hi.mem_iff, List.mem_cons, and_iff_left rfl]
    · rw [hother k hk, or_iff_right fun hand => hk hand.2]
  constructor
  case nodup =>
    intro k
    by_cases hk : k = i
    · subst hk
      exact hi.nodup_iff.mpr (List.nodup_cons.mpr ⟨hnew k, hcust.nodup k⟩)
    · rw [hother k hk]
      exact hcust.nodup k
  case apart =>
    intro k l q hk hl
    rcases hmem.mp hk with ⟨rfl, rfl⟩ | hk
    · rcases hmem.mp hl with ⟨-, rfl⟩ | hl
      · rfl
      · exact absurd hl (hnew l)
    · rcases hmem.mp hl with ⟨rfl, rfl⟩ | hl
      · exact absurd hk (hnew k)
      · exact hcust.apart hk hl
  case used_iff =>
    intro q
    rw [hused]
    by_cases hq : q = p
    · subst hq
      exact iff_of_true ⟨i, hmem.mpr (.inl ⟨rfl, rfl⟩)⟩ (.inl rfl)
    · rw [or_iff_right hq, ← hcust.used_iff q]
      refine exists_congr fun k => ?_
      rw [hmem, or_iff_right fun hand => hq hand.1]

/-- One party passes a resource to another. -/
theorem pass (hcust : Custody used held) (hij : i ≠ j) (hi : (held i).Perm (p :: held' i))
    (hj : (held' j).Perm (p :: held j)) (hother : ∀ k, k ≠ i → k ≠ j → held' k = held k) :
    Custody used held' := by
  have hpi : p ∈ held i := hi.mem_iff.mpr (List.mem_cons_self ..)
  obtain ⟨hpi', hnodup⟩ := List.nodup_cons.mp (hi.nodup_iff.mp (hcust.nodup i))
  have hmem : ∀ {q k}, q ∈ held' k ↔ q = p ∧ k = j ∨ q ≠ p ∧ q ∈ held k := by
    intro q k
    by_cases hki : k = i
    · subst hki
      rw [hi.mem_iff, List.mem_cons]
      by_cases hq : q = p
      · subst hq
        exact iff_of_false hpi' (by simp [hij])
      · simp [hq]
    · by_cases hkj : k = j
      · subst hkj
        rw [hj.mem_iff, List.mem_cons]
        by_cases hq : q = p <;> simp [hq]
      · rw [hother k hki hkj]
        by_cases hq : q = p
        · subst hq
          exact iff_of_false (fun hmem => hki (hcust.apart hmem hpi)) (by simp [hkj])
        · simp [hq]
  constructor
  case nodup =>
    intro k
    by_cases hki : k = i
    · subst hki
      exact hnodup
    · by_cases hkj : k = j
      · subst hkj
        refine hj.nodup_iff.mpr (List.nodup_cons.mpr ⟨fun hmem => ?_, hcust.nodup k⟩)
        exact hki (hcust.apart hmem hpi)
      · rw [hother k hki hkj]
        exact hcust.nodup k
  case apart =>
    intro k l q hk hl
    rcases hmem.mp hk with ⟨rfl, rfl⟩ | ⟨hq, hk⟩
    · rcases hmem.mp hl with ⟨-, rfl⟩ | ⟨hq, -⟩
      · rfl
      · exact absurd rfl hq
    · rcases hmem.mp hl with ⟨rfl, -⟩ | ⟨-, hl⟩
      · exact absurd rfl hq
      · exact hcust.apart hk hl
  case used_iff =>
    intro q
    rw [← hcust.used_iff q]
    constructor
    · rintro ⟨k, hk⟩
      rcases hmem.mp hk with ⟨rfl, -⟩ | ⟨-, hk⟩
      · exact ⟨i, hpi⟩
      · exact ⟨k, hk⟩
    · rintro ⟨k, hk⟩
      by_cases hq : q = p
      · exact ⟨j, hmem.mpr (.inl ⟨hq, rfl⟩)⟩
      · exact ⟨k, hmem.mpr (.inr ⟨hq, hk⟩)⟩

/-- The holder releases a resource, and then nobody holds it. -/
theorem release (hcust : Custody used held) (hi : (held i).Perm (p :: held' i))
    (hother : ∀ k ≠ i, held' k = held k) (hused : ∀ q, used' q ↔ q ≠ p ∧ used q) :
    Custody used' held' := by
  have hpi : p ∈ held i := hi.mem_iff.mpr (List.mem_cons_self ..)
  obtain ⟨hpi', hnodup⟩ := List.nodup_cons.mp (hi.nodup_iff.mp (hcust.nodup i))
  have hmem : ∀ {q k}, q ∈ held' k ↔ q ≠ p ∧ q ∈ held k := by
    intro q k
    by_cases hk : k = i
    · subst hk
      rw [hi.mem_iff, List.mem_cons]
      by_cases hq : q = p
      · subst hq
        exact iff_of_false hpi' fun hand => hand.1 rfl
      · simp [hq]
    · rw [hother k hk, iff_and_self]
      rintro hmem rfl
      exact hk (hcust.apart hmem hpi)
  constructor
  case nodup =>
    intro k
    by_cases hk : k = i
    · subst hk
      exact hnodup
    · rw [hother k hk]
      exact hcust.nodup k
  case apart =>
    intro k l q hk hl
    exact hcust.apart (hmem.mp hk).2 (hmem.mp hl).2
  case used_iff =>
    intro q
    rw [hused]
    by_cases hq : q = p
    · subst hq
      refine iff_of_false ?_ fun hand => hand.1 rfl
      rintro ⟨k, hk⟩
      exact (hmem.mp hk).1 rfl
    · rw [and_iff_right hq, ← hcust.used_iff q]
      refine exists_congr fun k => ?_
      rw [hmem, and_iff_right hq]

end Custody
