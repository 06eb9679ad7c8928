import Mathlib
import Statsdcc.Lib.Transition

/-!
# Runs that come to rest

Some steps of a system use something up, and as long as the system is not at rest
one of them can be taken. Then the system comes to rest, whichever of these steps
it takes.

## Main results

- `Transition.Consumes.length_le` — a bound on runs of such steps
- `Transition.Consumes.exists_run` — one of them leads to rest
-/

namespace Transition

variable {σ α : Type*} {step : σ → α → Option σ}

/-- The steps in `P` keep the invariant `I` and use up some of the measure `μ`. -/
structure Consumes (step : σ → α → Option σ) (P : α → Prop) (I : σ → Prop) (μ : σ → ℕ) : Prop where
  keeps : ∀ s a s', I s → P a → step s a = some s' → I s'
  decreases : ∀ s a s', I s → P a → step s a = some s' → μ s' < μ s

namespace Consumes

variable {P : α → Prop} {I : σ → Prop} {μ : σ → ℕ}

/-- No run of such steps is longer than the measure at its start. -/
theorem length_le (h : Consumes step P I μ) {s s' : σ} (hs : I s) {as : List α}
    (hall : ∀ a ∈ as, P a) (hrun : run step s as = some s') : as.length + μ s' ≤ μ s := by
  induction as generalizing s with
  | nil =>
    rw [run_nil, Option.some.injEq] at hrun
    rw [hrun, List.length_nil, Nat.zero_add]
  | cons a as ih =>
    obtain ⟨t, ht, hrest⟩ := Option.bind_eq_some_iff.mp hrun
    have ha : P a := hall a List.mem_cons_self
    have hlt := h.decreases s a t hs ha ht
    have hle := ih (h.keeps s a t hs ha ht) (fun b hb => hall b (List.mem_cons_of_mem a hb)) hrest
    rw [List.length_cons]
    omega

/-- When a step of the kind is possible in every state that is not at rest, a run
of such steps leads to rest. -/
theorem exists_run (h : Consumes step P I μ) {rest : σ → Prop}
    (hprogress : ∀ s, I s → ¬ rest s → ∃ a, P a ∧ (step s a).isSome = true) {s : σ} (hs : I s) :
    ∃ as s', (∀ a ∈ as, P a) ∧ run step s as = some s' ∧ rest s' := by
  induction hμ : μ s using Nat.strong_induction_on generalizing s with
  | _ n ih =>
    subst hμ
    by_cases hrest : rest s
    · exact ⟨[], s, fun a ha => absurd ha List.not_mem_nil, rfl, hrest⟩
    · obtain ⟨a, ha, hsome⟩ := hprogress s hs hrest
      obtain ⟨t, ht⟩ := Option.isSome_iff_exists.mp hsome
      obtain ⟨as, s', hall, hrun, hrest'⟩ :=
        ih (μ t) (h.decreases s a t hs ha ht) (h.keeps s a t hs ha ht) rfl
      refine ⟨a :: as, s', ?_, ?_, hrest'⟩
      · intro b hb
        rcases List.mem_cons.mp hb with rfl | hb
        · exact ha
        · exact hall b hb
      · rw [run_cons, ht, Option.bind_some, hrun]

end Consumes

end Transition
