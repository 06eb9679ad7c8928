import Mathlib

/-!
# Runs of a partial step function

A concurrent program is modelled by a step function `σ → α → Option σ`: an
action names the party that moves and what it does, and `none` says that the
action is not enabled. A run is a list of actions, so one run is one
interleaving.

## Main definitions

- `Transition.run` — the state after some actions
- `Transition.Reaches` — a state that some actions lead to

## Main results

- `Transition.run_induction` — an invariant of the actions so far and the state
- `Transition.run_induction_where` — the same for runs whose steps all meet a
  condition
- `Transition.sum_update` — what all parties hold together, when one of them moves
-/

namespace Transition

variable {σ α : Type*} {step : σ → α → Option σ}

/-- The state after the actions, or `none` when one of them is not enabled. -/
def run (step : σ → α → Option σ) (s : σ) : List α → Option σ
  | [] => some s
  | a :: as => (step s a).bind fun s' => run step s' as

@[simp] theorem run_nil (s : σ) : run step s [] = some s := rfl

@[simp] theorem run_cons (s : σ) (a : α) (as : List α) :
    run step s (a :: as) = (step s a).bind fun s' => run step s' as := rfl

theorem run_append (s : σ) (as bs : List α) :
    run step s (as ++ bs) = (run step s as).bind fun s' => run step s' bs := by
  induction as generalizing s with
  | nil => rfl
  | cons a as ih =>
    simp only [List.cons_append, run_cons, Option.bind_assoc]
    exact Option.bind_congr fun s' _ => ih s'

/-- Some run leads from one state to the other. -/
def Reaches (step : σ → α → Option σ) (s s' : σ) : Prop := ∃ as, run step s as = some s'

theorem Reaches.refl (s : σ) : Reaches step s s := ⟨[], rfl⟩

theorem Reaches.trans {s s' s'' : σ} (h : Reaches step s s') (h' : Reaches step s' s'') :
    Reaches step s s'' := by
  obtain ⟨as, has⟩ := h
  obtain ⟨bs, hbs⟩ := h'
  exact ⟨as ++ bs, by rw [run_append, has, Option.bind_some, hbs]⟩

theorem Reaches.single {s s' : σ} {a : α} (h : step s a = some s') : Reaches step s s' :=
  ⟨[a], by rw [run_cons, h, Option.bind_some, run_nil]⟩

/-- A loop whose body may throw is a run of its body. -/
theorem foldlM_eq_run (step : σ → α → Option σ) (s : σ) (as : List α) :
    as.foldlM step s = run step s as := by
  induction as generalizing s with
  | nil => rfl
  | cons a as ih =>
    rw [List.foldlM_cons, run_cons]
    exact Option.bind_congr fun s' _ => ih s'

/-- A run that ends with `a` is a run followed by one step. -/
theorem run_concat {s s'' : σ} {as : List α} {a : α} :
    run step s (as ++ [a]) = some s'' ↔
      ∃ s', run step s as = some s' ∧ step s' a = some s'' := by
  rw [run_append, Option.bind_eq_some_iff]
  simp

/-- Every step of the run meets `P`, a condition on the state before the step
and the action. -/
def StepsSatisfy (step : σ → α → Option σ) (P : σ → α → Prop) (s₀ : σ) (as : List α) : Prop :=
  ∀ bs a cs t, as = bs ++ a :: cs → run step s₀ bs = some t → P t a

theorem StepsSatisfy.front {P : σ → α → Prop} {s₀ : σ} {as : List α} {a : α}
    (h : StepsSatisfy step P s₀ (as ++ [a])) : StepsSatisfy step P s₀ as := by
  intro bs b cs t has hrun
  exact h bs b (cs ++ [a]) t (by rw [has]; simp) hrun

theorem StepsSatisfy.last {P : σ → α → Prop} {s₀ t : σ} {as : List α} {a : α}
    (h : StepsSatisfy step P s₀ (as ++ [a])) (hrun : run step s₀ as = some t) : P t a :=
  h as a [] t rfl hrun

/-- `StepsSatisfy` for a test, by evaluation. -/
def allSteps (step : σ → α → Option σ) (p : σ → α → Bool) (s : σ) : List α → Bool
  | [] => true
  | a :: as => p s a && (step s a).all fun s' => allSteps step p s' as

theorem stepsSatisfy_of_allSteps {p : σ → α → Bool} {s : σ} {as : List α}
    (h : allSteps step p s as = true) : StepsSatisfy step (fun s a => p s a = true) s as := by
  induction as generalizing s with
  | nil =>
    intro bs a cs t has _
    simp at has
  | cons a as ih =>
    rw [allSteps, Bool.and_eq_true] at h
    rintro (_ | ⟨b, bs⟩) a' cs t has hrun
    · obtain ⟨rfl, -⟩ := List.cons.inj has
      rw [run_nil, Option.some.injEq] at hrun
      exact hrun ▸ h.1
    · obtain ⟨rfl, has'⟩ := List.cons.inj has
      obtain ⟨s', hs', hrun'⟩ := Option.bind_eq_some_iff.mp hrun
      rw [hs'] at h
      exact ih h.2 bs a' cs t has' hrun'

/-- The induction rule for runs whose steps all meet a condition. -/
theorem run_induction_where {P : σ → α → Prop} {s₀ s : σ} {I : List α → σ → Prop}
    (hinit : I [] s₀)
    (hstep : ∀ as t a t', I as t → P t a → step t a = some t' → I (as ++ [a]) t')
    {as : List α} (hall : StepsSatisfy step P s₀ as) (hrun : run step s₀ as = some s) :
    I as s := by
  induction as using List.reverseRecOn generalizing s with
  | nil =>
    rw [run_nil, Option.some.injEq] at hrun
    exact hrun ▸ hinit
  | append_singleton as a ih =>
    obtain ⟨t, ht, ha⟩ := run_concat.mp hrun
    exact hstep as t a s (ih hall.front ht) (hall.last ht) ha

/-- What holds of the start and is preserved by every step holds after every
run. The invariant may speak about the actions taken so far. -/
theorem run_induction {s₀ s : σ} {I : List α → σ → Prop} (hinit : I [] s₀)
    (hstep : ∀ as t a t', I as t → step t a = some t' → I (as ++ [a]) t')
    {as : List α} (hrun : run step s₀ as = some s) : I as s :=
  run_induction_where (P := fun _ _ => True) hinit
    (fun as t a t' ih _ => hstep as t a t' ih) (fun _ _ _ _ _ _ => trivial) hrun

/-- When one party moves, all parties together hold less what it held and more
what it holds now. -/
theorem sum_update {ι σ M : Type*} [Fintype ι] [DecidableEq ι] [AddCommMonoid M] (g : σ → M)
    (s : ι → σ) (i : ι) (x : σ) :
    ∑ j, g (Function.update s i x j) + g (s i) = ∑ j, g (s j) + g x := by
  have hupdate : (fun j => g (Function.update s i x j)) =
      Function.update (fun j => g (s j)) i (g x) :=
    Function.comp_update g s i x
  rw [hupdate, Finset.sum_update_of_mem (Finset.mem_univ i), Finset.sdiff_singleton_eq_erase,
    ← Finset.add_sum_erase Finset.univ (fun j => g (s j)) (Finset.mem_univ i)]
  abel

/-- The same for parties of different kinds. -/
theorem sum_update_pi {ι M : Type*} {σ : ι → Type*} [Fintype ι] [DecidableEq ι] [AddCommMonoid M]
    (g : ∀ i, σ i → M) (s : ∀ i, σ i) (i : ι) (x : σ i) :
    ∑ j, g j (Function.update s i x j) + g i (s i) = ∑ j, g j (s j) + g i x := by
  have hupdate : (fun j => g j (Function.update s i x j)) =
      Function.update (fun j => g j (s j)) i (g i x) := by
    funext j
    exact Function.apply_update g s i x j
  rw [hupdate, Finset.sum_update_of_mem (Finset.mem_univ i), Finset.sdiff_singleton_eq_erase,
    ← Finset.add_sum_erase Finset.univ (fun j => g j (s j)) (Finset.mem_univ i)]
  abel

/-- What all hold together when only one changes what it holds. -/
theorem sum_frame {ι M : Type*} [Fintype ι] [DecidableEq ι] [AddCommMonoid M] {f g : ι → M}
    {i : ι} (hother : ∀ j ≠ i, g j = f j) : ∑ j, g j + f i = ∑ j, f j + g i := by
  have hupdate : g = Function.update f i (g i) := by
    funext j
    by_cases hj : j = i
    · rw [hj, Function.update_self]
    · rw [Function.update_of_ne hj, hother j hj]
  calc ∑ j, g j + f i = ∑ j, Function.update f i (g i) j + f i := by rw [← hupdate]
    _ = ∑ j, f j + g i := sum_update id f i (g i)

end Transition
