import Hedronetes.Foundations.Effects

/-!
# Work paid from a budget

Computations that pay for their steps from a budget and stop when it does not suffice. What a
priced computation returns and pays does not depend on the budget it had.
-/

namespace Hedronetes.Budgets

open Effects

variable {ε α β : Type} {e : ε} {budget left amount : ℕ}

def spend (e : ε) (amount : ℕ) : EStateM ε ℕ Unit := fun budget =>
  if amount ≤ budget then .ok () (budget - amount) else .error e budget

theorem spend_ok {u : Unit} :
    spend e amount budget = .ok u left ↔ amount ≤ budget ∧ budget - amount = left := by
  unfold spend
  split_ifs with h
  · simp [h]
  · simp [h]

theorem spend_bind_ok {f : Unit → EStateM ε ℕ α} {a : α} :
    (spend e amount >>= f) budget = .ok a left ↔
      amount ≤ budget ∧ f () (budget - amount) = .ok a left := by
  rw [Effects.bind_eq_ok]
  constructor
  · rintro ⟨_, rest, hspend, h⟩
    obtain ⟨hle, rfl⟩ := spend_ok.mp hspend
    exact ⟨hle, h⟩
  · rintro ⟨hle, h⟩
    exact ⟨(), _, spend_ok.mpr ⟨hle, rfl⟩, h⟩

/-- The computation costs the same on every budget that suffices. -/
def Priced (x : EStateM ε ℕ α) : Prop :=
  ∀ budget a left, x budget = .ok a left →
    ∃ cost, budget = left + cost ∧ ∀ rest, x (rest + cost) = .ok a rest

section

variable {x : EStateM ε ℕ α} {f : α → EStateM ε ℕ β}

theorem Priced.spend : Priced (spend e amount) := by
  intro budget a left h
  have hpaid := spend_ok.mp h
  refine ⟨amount, by omega, ?_⟩
  intro rest
  exact spend_ok.mpr ⟨by omega, by omega⟩

theorem Priced.pure (a : α) : Priced (pure a : EStateM ε ℕ α) := by
  intro budget b left h
  have hpure := pure_eq_ok.mp h
  refine ⟨0, hpure.2, ?_⟩
  intro rest
  exact pure_eq_ok.mpr ⟨hpure.1, rfl⟩

theorem Priced.throw (e : ε) : Priced (throw e : EStateM ε ℕ α) := by
  intro budget b left h
  exact absurd h throw_ne_ok

theorem Priced.ofExcept (y : Except ε α) : Priced (ofExcept y : EStateM ε ℕ α) := by
  intro budget b left h
  have hy := ofExcept_eq_ok.mp h
  refine ⟨0, hy.2, ?_⟩
  intro rest
  exact ofExcept_eq_ok.mpr ⟨hy.1, rfl⟩

theorem Priced.bind (hx : Priced x) (hf : ∀ a, Priced (f a)) : Priced (x >>= f) := by
  intro budget b left h
  obtain ⟨a, rest, ha, hb⟩ := Effects.bind_eq_ok.mp h
  obtain ⟨paid, hpaid, hagain⟩ := hx budget a rest ha
  obtain ⟨cost, hcost, hrest⟩ := hf a rest b left hb
  refine ⟨cost + paid, by omega, ?_⟩
  intro other
  apply Effects.bind_eq_ok.mpr
  refine ⟨a, other + cost, ?_, hrest other⟩
  rw [← Nat.add_assoc]
  exact hagain (other + cost)

theorem Priced.foldlM {g : β → α → EStateM ε ℕ β} {l : List α} (hg : ∀ b, ∀ a ∈ l, Priced (g b a)) :
    ∀ b, Priced (l.foldlM g b) := by
  induction l with
  | nil => exact Priced.pure
  | cons a l ih =>
    intro b
    rw [List.foldlM_cons]
    apply Priced.bind (hg b a List.mem_cons_self)
    exact ih fun c d hd => hg c d (List.mem_cons_of_mem a hd)

/-- A larger budget buys the same result. -/
theorem Priced.mono (hx : Priced x) {a : α} (h : x budget = .ok a left) {other : ℕ}
    (hle : budget ≤ other) : ∃ rest, left ≤ rest ∧ x other = .ok a rest := by
  obtain ⟨cost, hcost, hagain⟩ := hx budget a left h
  refine ⟨other - cost, by omega, ?_⟩
  have hother : other = other - cost + cost := by omega
  rw [hother]
  simpa using hagain (other - cost)

theorem Priced.le (hx : Priced x) {a : α} (h : x budget = .ok a left) : left ≤ budget := by
  obtain ⟨cost, hcost, _⟩ := hx budget a left h
  omega

/-- All budgets that suffice buy one result. -/
theorem Priced.unique (hx : Priced x) {a b : α} {other rest : ℕ} (h : x budget = .ok a left)
    (h' : x other = .ok b rest) : a = b := by
  obtain ⟨cost, hcost, hagain⟩ := hx budget a left h
  obtain ⟨cost', hcost', hagain'⟩ := hx other b rest h'
  have hboth := hagain cost'
  rw [Nat.add_comm, hagain' cost] at hboth
  injection hboth with hba
  exact hba.symm

end

end Hedronetes.Budgets
