import Mathlib

/-!
# Runs of a labelled machine

A machine takes a step for a label or refuses it. A run records the labels
taken; a guard restricts the runs to those whose every step meets it, judged in
the state before the step.
-/

namespace Hedronetes.Runs

variable {σ ℓ : Type*}

/-- The labels `ls` lead from `s` to `t`, and `guard` held before each step. -/
inductive Run (step : σ → ℓ → Option σ) (guard : σ → ℓ → Prop) (s : σ) : List ℓ → σ → Prop
  | nil : Run step guard s [] s
  | snoc {ls : List ℓ} {t u : σ} {l : ℓ} : Run step guard s ls t → guard t l →
      step t l = some u → Run step guard s (ls ++ [l]) u

/-- A run on which nothing is asked of the steps. -/
abbrev AnyRun (step : σ → ℓ → Option σ) : σ → List ℓ → σ → Prop := Run step fun _ _ => True

variable {step : σ → ℓ → Option σ} {guard : σ → ℓ → Prop}

namespace Run

theorem any {s t : σ} {ls : List ℓ} (h : Run step guard s ls t) : AnyRun step s ls t := by
  induction h with
  | nil => exact .nil
  | snoc _ _ hs ih => exact .snoc ih trivial hs

/-- A guard may be weakened. -/
theorem weaken {guard' : σ → ℓ → Prop} {s t : σ} {ls : List ℓ} (h : Run step guard s ls t)
    (hg : ∀ s l, guard s l → guard' s l) : Run step guard' s ls t := by
  induction h with
  | nil => exact .nil
  | snoc _ hl hs ih => exact .snoc ih (hg _ _ hl) hs

/-- A guard on the labels alone can be read off the list of them. -/
theorem of_labels {p : ℓ → Prop} {s t : σ} {ls : List ℓ} (h : AnyRun step s ls t)
    (hp : ∀ l ∈ ls, p l) : Run step (fun _ l => p l) s ls t := by
  induction h with
  | nil => exact .nil
  | snoc _ _ hs ih =>
    exact .snoc (ih fun l hl => hp l (by simp [hl])) (hp _ (by simp)) hs

/-- What holds at the start and survives each guarded step holds at the end. -/
theorem invariant {I : σ → Prop} {s t : σ} {ls : List ℓ} (h : Run step guard s ls t) (h0 : I s)
    (hstep : ∀ s l t, I s → guard s l → step s l = some t → I t) : I t := by
  induction h with
  | nil => exact h0
  | snoc _ hg hs ih => exact hstep _ _ _ ih hg hs

/-- A quantity that no step lowers, in states with an invariant, never falls on a run. -/
theorem monotone {I : σ → Prop} (f : σ → ℕ) {s t : σ} {ls : List ℓ}
    (h : Run step guard s ls t) (h0 : I s)
    (hstep : ∀ s l t, I s → guard s l → step s l = some t → I t)
    (hf : ∀ s l t, I s → guard s l → step s l = some t → f s ≤ f t) : f s ≤ f t := by
  induction h with
  | nil => exact le_rfl
  | snoc hr hg hs ih => exact ih.trans (hf _ _ _ (hr.invariant h0 hstep) hg hs)

theorem trans {s t u : σ} {ls ms : List ℓ} (h : Run step guard s ls t)
    (h' : Run step guard t ms u) : Run step guard s (ls ++ ms) u := by
  induction h' with
  | nil => simpa using h
  | snoc _ hg hs ih => simpa using ih.snoc hg hs

end Run

/-- Take the steps of a list of labels, if none is refused. -/
def exec (step : σ → ℓ → Option σ) : σ → List ℓ → Option σ
  | s, [] => some s
  | s, l :: ls => (step s l).bind fun t => exec step t ls

theorem run_of_exec {s t : σ} {ls : List ℓ} (h : exec step s ls = some t) :
    AnyRun step s ls t := by
  induction ls generalizing s with
  | nil =>
    cases Option.some.inj h
    exact .nil
  | cons l ls ih =>
    obtain ⟨u, hu, hrest⟩ := Option.bind_eq_some_iff.mp h
    exact (Run.snoc Run.nil trivial hu).trans (ih hrest)

/-- An observation of where a list of labels leads is one of the end of a run. -/
theorem run_of_exec_map {τ : Type*} {f : σ → τ} {s : σ} {x : τ} {ls : List ℓ}
    (h : (exec step s ls).map f = some x) : ∃ t, AnyRun step s ls t ∧ f t = x := by
  obtain ⟨t, ht, hx⟩ := Option.map_eq_some_iff.mp h
  exact ⟨t, run_of_exec ht, hx⟩

/-- A run whose every step passes a check that implies the guard. -/
theorem guarded_of_exec {check : σ → ℓ → Bool} (hcheck : ∀ s l, check s l = true → guard s l)
    {s t : σ} {ls : List ℓ}
    (h : exec (fun s l => if check s l then step s l else none) s ls = some t) :
    Run step guard s ls t := by
  induction ls generalizing s with
  | nil =>
    cases Option.some.inj h
    exact .nil
  | cons l ls ih =>
    obtain ⟨u, hu, hrest⟩ := Option.bind_eq_some_iff.mp h
    dsimp only at hu
    split_ifs at hu with hpass
    exact (Run.snoc Run.nil (hcheck s l hpass) hu).trans (ih hrest)

end Hedronetes.Runs
