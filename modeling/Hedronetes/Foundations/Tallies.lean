import Mathlib

/-!
# Tallies

Loops that take contributions one after the other, each of which may fail, and that stop
when the contributions so far are out of bounds. When no sum in bounds has a part out of
bounds, such a loop ends as the contributions do together, in whatever order they come. The
rules of `Adds` follow the shape of the loops.
-/

namespace Hedronetes.Tallies

universe u v w

/-! ## Sums of contributions -/

section Sums

variable {M : Type u} [AddCommMonoid M] {Within : M → Prop} [DecidablePred Within]

open Classical in
/-- What contributions come to together, and none when one of them fails. -/
noncomputable def gather (asks : Multiset (Option M)) : Option M :=
  if none ∈ asks then none else some (asks.filterMap id).sum

theorem gather_zero : gather (0 : Multiset (Option M)) = some 0 := by simp [gather]

theorem gather_cons (ask : Option M) (asks : Multiset (Option M)) :
    gather (ask ::ₘ asks) = ask.bind fun m => (gather asks).map (m + ·) := by
  unfold gather
  cases ask with
  | none => simp
  | some m =>
    by_cases h : none ∈ asks
    · simp [h]
    · simp [h, Multiset.filterMap_cons_some id (some m) asks rfl]

/-- The total with one contribution more, while it is in bounds. -/
def add (Within : M → Prop) [DecidablePred Within] (total : M) (ask : Option M) : Option M :=
  ask.bind fun m => if Within (total + m) then some (total + m) else none

theorem within_of_add {total next : M} {ask : Option M} (h : add Within total ask = some next) :
    Within next := by
  obtain ⟨m, _, hm⟩ := Option.bind_eq_some_iff.mp h
  split_ifs at hm with hwithin
  exact Option.some.inj hm ▸ hwithin

theorem add_zero_of_within {total : M} (h : Within total) :
    add Within total (some 0) = some total := by
  simp [add, h]

/-- Two contributions in turn are their sum at once. -/
theorem add_add (hdown : ∀ a b, Within (a + b) → Within a) (total : M) (ask ask' : Option M) :
    ((add Within total ask).bind fun next => add Within next ask') =
      add Within total (ask.bind fun m => ask'.map (m + ·)) := by
  cases ask with
  | none => rfl
  | some m =>
    cases ask' with
    | none => simp [add]
    | some n =>
      by_cases h : Within (total + (m + n))
      · have hassoc : Within (total + m + n) := by rwa [add_assoc]
        have hpart := hdown (total + m) n hassoc
        simp [add, hpart, h, add_assoc]
      · have hassoc : ¬ Within (total + m + n) := by rwa [add_assoc]
        by_cases hpart : Within (total + m)
        · simp [add, hpart, hassoc, h]
        · simp [add, hpart, h]

end Sums

/-! ## Computations beside what they are to yield -/

/-- The computation succeeds just where something is to be yielded, with what is related to it. -/
inductive Follows {ε : Type v} {α : Type w} {β : Type u} (R : α → β → Prop) :
    Except ε α → Option β → Prop
  | ok {a : α} {b : β} : R a b → Follows R (.ok a) (some b)
  | error {e : ε} : Follows R (.error e) none

section Follows

variable {ε : Type v} {α γ : Type w} {β δ : Type u} {R : α → β → Prop} {S : γ → δ → Prop}

theorem Follows.bind {x : Except ε α} {y : Option β} {f : α → Except ε γ} {g : β → Option δ}
    (h : Follows R x y) (hf : ∀ a b, y = some b → R a b → Follows S (f a) (g b)) :
    Follows S (x >>= f) (y.bind g) := by
  cases h with
  | error => exact .error
  | ok hab => exact hf _ _ rfl hab

theorem Follows.map {S : α → δ → Prop} {x : Except ε α} {y : Option β} {g : β → δ}
    (h : Follows R x y) (hS : ∀ a b, R a b → S a (g b)) : Follows S x (y.map g) := by
  cases h with
  | error => exact .error
  | ok hab => exact .ok (hS _ _ hab)

/-- What follows the same thing agrees: both fail, or both succeed with results alike. -/
theorem Follows.agree {α' : Type w} {R' : α' → β → Prop} {P : α → α' → Prop} {x : Except ε α}
    {x' : Except ε α'} {y : Option β} (h : Follows R x y) (h' : Follows R' x' y)
    (hP : ∀ a a' b, R a b → R' a' b → P a a') :
    (∃ a a', x = .ok a ∧ x' = .ok a' ∧ P a a') ∨ (∃ e e', x = .error e ∧ x' = .error e') := by
  cases h with
  | error =>
    cases h' with
    | error => exact Or.inr ⟨_, _, rfl, rfl⟩
  | ok hab =>
    cases h' with
    | ok hab' => exact Or.inl ⟨_, _, rfl, rfl, hP _ _ _ hab hab'⟩

end Follows

/-! ## Steps that take a contribution -/

section Adds

variable {M : Type u} [AddCommMonoid M] {ε : Type v} {β α γ : Type w} (R : β → M → Prop)
  (Within : M → Prop) [DecidablePred Within]

/-- In bounds, the step takes the contribution, and fails when it cannot. -/
def Adds (step : β → Except ε β) (ask : Option M) : Prop :=
  ∀ b total, R b total → Within total → Follows R (step b) (add Within total ask)

variable {R Within}

theorem Adds.skip : Adds R Within (fun b => (.ok b : Except ε β)) (some 0) := by
  intro b total hb hwithin
  rw [add_zero_of_within hwithin]
  exact .ok hb

theorem Adds.fail {e : ε} : Adds R Within (fun _ => .error e) none := by
  intro b total _ _
  exact .error

/-- A step of which the failures are told apart by what is read first. -/
theorem Adds.read {x : Except ε γ} {step : γ → β → Except ε β} {ask : γ → Option M}
    (h : ∀ a, x = .ok a → Adds R Within (step a) (ask a)) :
    Adds R Within (fun b => x >>= fun a => step a b) (x.toOption.bind ask) := by
  intro b total hb hwithin
  cases x with
  | error e => exact .error
  | ok a => exact h a rfl b total hb hwithin

theorem Adds.andThen (hdown : ∀ a b, Within (a + b) → Within a) {step step' : β → Except ε β}
    {ask ask' : Option M} (h : Adds R Within step ask) (h' : Adds R Within step' ask') :
    Adds R Within (fun b => step b >>= step') (ask.bind fun m => ask'.map (m + ·)) := by
  intro b total hb hwithin
  rw [← add_add hdown]
  apply (h b total hb hwithin).bind
  intro next total' htotal hnext
  exact h' next total' hnext (within_of_add htotal)

/-- A step with a check after it that narrows the bounds. -/
theorem Adds.guard {InBounds : M → Prop} [DecidablePred InBounds] {step check : β → Except ε β}
    {ask : Option M} (h : Adds R Within step ask)
    (hcheck : ∀ b m, R b m → Follows R (check b) (if InBounds m then some m else none)) :
    Adds R (fun m => Within m ∧ InBounds m) (fun b => step b >>= check) ask := by
  intro b total hb hwithin
  have hboth : add (fun m => Within m ∧ InBounds m) total ask =
      (add Within total ask).bind fun m => if InBounds m then some m else none := by
    cases ask with
    | none => rfl
    | some m => by_cases hm : Within (total + m) <;> simp [add, hm]
  rw [hboth]
  apply (h b total hb hwithin.1).bind
  intro next m _ hnext
  exact hcheck next m hnext

/-- A loop takes what its steps take. -/
theorem Adds.loop (hdown : ∀ a b, Within (a + b) → Within a) {step : β → α → Except ε β}
    {ask : α → Option M} {l : List α} (h : ∀ a ∈ l, Adds R Within (fun b => step b a) (ask a)) :
    Adds R Within (fun b => l.foldlM step b) (gather ↑(l.map ask)) := by
  induction l with
  | nil =>
    intro b total hb hwithin
    have hnone : add Within total (gather ↑(([] : List α).map ask)) = some total :=
      (congrArg (add Within total) gather_zero).trans (add_zero_of_within hwithin)
    rw [hnone]
    exact .ok hb
  | cons a l ih =>
    have hrest := ih fun x hx => h x (List.mem_cons_of_mem _ hx)
    have hboth := (h a List.mem_cons_self).andThen hdown hrest
    rw [← gather_cons] at hboth
    intro b total hb hwithin
    change Follows R ((a :: l).foldlM step b) _
    rw [List.foldlM_cons]
    exact hboth b total hb hwithin

end Adds

end Hedronetes.Tallies
