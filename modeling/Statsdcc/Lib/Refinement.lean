import Mathlib
import Statsdcc.Lib.Transition

/-!
# Refinement along a function

A step of a concrete machine makes some events, and the abstract machine takes
them as its steps. A concrete step without events must not show in the abstract
state.

## Main results

- `Transition.run_trace` — the events of a concrete run are an abstract run
-/

namespace Transition

variable {σ τ α ε : Type*} {step : σ → α → Option σ} {events : σ → α → List ε}

/-- The events of a run. -/
def trace (step : σ → α → Option σ) (events : σ → α → List ε) (s : σ) : List α → List ε
  | [] => []
  | a :: as =>
    events s a ++ match step s a with
      | some s' => trace step events s' as
      | none => []

@[simp] theorem trace_nil (s : σ) : trace step events s [] = [] := rfl

theorem trace_cons {s s' : σ} {a : α} {as : List α} (hstep : step s a = some s') :
    trace step events s (a :: as) = events s a ++ trace step events s' as := by
  rw [trace, hstep]

/-- When every step from a state that meets the invariant is matched, the events
of a run are a run of the abstract machine, and the states correspond. -/
theorem run_trace {spec : τ → ε → Option τ} {f : σ → τ} {I : σ → Prop} {s₀ s : σ} (hinit : I s₀)
    (hinv : ∀ s a s', I s → step s a = some s' → I s')
    (hsim : ∀ s a s', I s → step s a = some s' → run spec (f s) (events s a) = some (f s'))
    {as : List α} (hrun : run step s₀ as = some s) :
    I s ∧ run spec (f s₀) (trace step events s₀ as) = some (f s) := by
  induction as generalizing s₀ with
  | nil =>
    rw [run_nil, Option.some.injEq] at hrun
    subst hrun
    exact ⟨hinit, rfl⟩
  | cons a as ih =>
    obtain ⟨s', hs', hrun'⟩ := Option.bind_eq_some_iff.mp hrun
    obtain ⟨hs, htrace⟩ := ih (hinv _ _ _ hinit hs') hrun'
    refine ⟨hs, ?_⟩
    rw [trace_cons hs', run_append, hsim _ _ _ hinit hs']
    exact htrace

end Transition
