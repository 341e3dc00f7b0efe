import Hedronetes.Foundations.Fallible

/-!
# Steps that settle

A step that fills in or checks parts of a value settles when it leaves its own results as they are.
Steps that come one after another settle together when none of them writes what an earlier one has
gone by.
-/

namespace Hedronetes.Settling

open Fallible

variable {σ ε α κ β : Type} {part : σ → κ → β}

/-- Two values that agree on some parts. -/
def Agrees (part : σ → κ → β) (parts : List κ) (s t : σ) : Prop :=
  ∀ k ∈ parts, part t k = part s k

/-- A step that leaves its results as they are, for what it finds in the parts it reads, and changes
no parts but those it writes. -/
structure Settles (part : σ → κ → β) (reads writes : List κ) (step : σ → Except ε σ) : Prop where
  again : ∀ s t, step s = .ok t → step t = .ok t
  depends : ∀ s t, step s = .ok s → Agrees part reads s t → step t = .ok t
  frame : ∀ s t, step s = .ok t → ∀ k, k ∉ writes → part t k = part s k

variable {reads reads' writes writes' : List κ} {step next : σ → Except ε σ}

theorem Agrees.left {s t : σ} (h : Agrees part (reads ++ reads') s t) : Agrees part reads s t :=
  fun k hk => h k (List.mem_append_left _ hk)

theorem Agrees.right {s t : σ} (h : Agrees part (reads ++ reads') s t) : Agrees part reads' s t :=
  fun k hk => h k (List.mem_append_right _ hk)

/-- What is not written stays. -/
theorem Settles.agrees (h : Settles part reads' writes' step) (hapart : ∀ k ∈ reads, k ∉ writes')
    {s t : σ} (hstep : step s = .ok t) : Agrees part reads s t :=
  fun k hk => h.frame s t hstep k (hapart k hk)

/-- A step settles when it brings about something that it leaves alone where it holds. -/
theorem Settles.of_holds {holds : σ → Prop} (hstep : ∀ s t, step s = .ok t → holds t)
    (hfixed : ∀ s, holds s → step s = .ok s)
    (hdepends : ∀ s t, holds s → Agrees part reads s t → holds t)
    (hframe : ∀ s t, step s = .ok t → ∀ k, k ∉ writes → part t k = part s k) :
    Settles part reads writes step := by
  constructor
  · intro s t h
    exact hfixed t (hstep s t h)
  · intro s t h hagrees
    exact hfixed t (hdepends s t (hstep s s h) hagrees)
  · exact hframe

theorem Settles.ok : Settles part [] [] (fun s => (.ok s : Except ε σ)) := by
  constructor
  · intro s t _
    rfl
  · intro s t _ _
    rfl
  · intro s t h k _
    rw [Except.ok.inj h]

/-- A step without results. -/
theorem Settles.fails (h : ∀ s t, step s ≠ .ok t) : Settles part reads writes step := by
  constructor
  · exact fun s t hstep => absurd hstep (h s t)
  · exact fun s t hstep => absurd hstep (h s s)
  · exact fun s t hstep => absurd hstep (h s t)

/-- A step that goes by a part of the value that nothing of it writes. -/
theorem Settles.read {see : σ → Except ε α} {step : α → σ → Except ε σ}
    (hsee : ∀ s t a, see s = .ok a → Agrees part reads s t → see t = .ok a)
    (h : ∀ a, Settles part reads' writes (step a)) (hapart : ∀ k ∈ reads, k ∉ writes) :
    Settles part (reads ++ reads') writes fun s => see s >>= fun a => step a s := by
  constructor
  · intro s t hstep
    obtain ⟨a, ha, hstep⟩ := bind_eq_ok.mp hstep
    have hagrees := (h a).agrees hapart hstep
    exact bind_eq_ok.mpr ⟨a, hsee s t a ha hagrees, (h a).again s t hstep⟩
  · intro s t hstep hagrees
    obtain ⟨a, ha, hstep⟩ := bind_eq_ok.mp hstep
    exact bind_eq_ok.mpr ⟨a, hsee s t a ha hagrees.left, (h a).depends s t hstep hagrees.right⟩
  · intro s t hstep k hk
    obtain ⟨a, -, hstep⟩ := bind_eq_ok.mp hstep
    exact (h a).frame s t hstep k hk

/-- A step after another that goes by nothing that it writes. -/
theorem Settles.andThen (h : Settles part reads writes step)
    (h' : Settles part reads' writes' next) (hapart : ∀ k ∈ reads, k ∉ writes') :
    Settles part (reads ++ reads') (writes ++ writes') fun s => step s >>= next := by
  constructor
  · intro s t hboth
    obtain ⟨a, ha, ht⟩ := bind_eq_ok.mp hboth
    have hfixed := h.depends a t (h.again s a ha) (h'.agrees hapart ht)
    exact bind_eq_ok.mpr ⟨t, hfixed, h'.again a t ht⟩
  · intro s t hboth hagrees
    obtain ⟨a, ha, hs⟩ := bind_eq_ok.mp hboth
    -- The first step has left the value as it is, for the second has not written what it reads.
    have hfixed := h.depends a s (h.again s a ha) (h'.agrees hapart hs)
    obtain rfl := Except.ok.inj (ha.symm.trans hfixed)
    exact bind_eq_ok.mpr ⟨t, h.depends a t hfixed hagrees.left, h'.depends a t hs hagrees.right⟩
  · intro s t hboth k hk
    obtain ⟨a, ha, ht⟩ := bind_eq_ok.mp hboth
    rw [List.mem_append, not_or] at hk
    rw [h'.frame a t ht k hk.2, h.frame s a ha k hk.1]

theorem Settles.see {see : σ → α} {step : α → σ → Except ε σ}
    (hsee : ∀ s t, Agrees part reads s t → see t = see s)
    (h : ∀ a, Settles part reads' writes (step a)) (hapart : ∀ k ∈ reads, k ∉ writes) :
    Settles part (reads ++ reads') writes fun s => step (see s) s := by
  have hread : ∀ s t a, (.ok (see s) : Except ε α) = .ok a → Agrees part reads s t →
      (.ok (see t) : Except ε α) = .ok a := by
    intro s t a ha hagrees
    rw [hsee s t hagrees]
    exact ha
  exact Settles.read hread h hapart

/-- One of two steps. -/
theorem Settles.ite {c : σ → Prop} [DecidablePred c]
    (hc : ∀ s t, Agrees part reads s t → (c t ↔ c s)) (h : Settles part reads' writes step)
    (h' : Settles part reads' writes next) (hapart : ∀ k ∈ reads, k ∉ writes) :
    Settles part (reads ++ reads') writes fun s => if c s then step s else next s := by
  have hboth : ∀ b, Settles part reads' writes fun s => if b = true then step s else next s := by
    intro b
    cases b with
    | true => exact h
    | false => exact h'
  have hsee : ∀ s t, Agrees part reads s t → decide (c t) = decide (c s) :=
    fun s t hagrees => decide_eq_decide.mpr (hc s t hagrees)
  simpa only [decide_eq_true_eq] using Settles.see hsee hboth hapart

/-- More parts may be named. -/
theorem Settles.mono (h : Settles part reads writes step) (hreads : reads ⊆ reads')
    (hwrites : writes ⊆ writes') : Settles part reads' writes' step := by
  constructor
  · exact h.again
  · exact fun s t hstep hagrees => h.depends s t hstep fun k hk => hagrees k (hreads hk)
  · exact fun s t hstep k hk => h.frame s t hstep k fun hmem => hk (hwrites hmem)

end Hedronetes.Settling
