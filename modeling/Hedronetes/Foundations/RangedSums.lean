import Mathlib

/-!
# Sums within a range

Amounts are added one after the other, and a sum out of range ends the addition. As no amount is
negative, a total in range means that every sum on the way was.
-/

namespace RangedSums

universe u

variable {α : Type*} {M : Type u} [AddCommMonoid M]

/-- What fits in, and what may be added. -/
structure Range (M : Type u) [AddCommMonoid M] where
  within : M → Prop
  amount : M → Prop
  zero : amount 0
  add : ∀ {a b}, amount a → amount b → amount (a + b)
  below : ∀ {a b}, amount a → amount b → within (a + b) → within a

variable (R : Range M)

theorem Range.sum {ms : List M} (h : ∀ m ∈ ms, R.amount m) : R.amount ms.sum := by
  induction ms with
  | nil => exact R.zero
  | cons m ms ih =>
    rw [List.sum_cons]
    exact R.add (h m List.mem_cons_self) (ih fun n hn => h n (List.mem_cons_of_mem m hn))

variable {R} {f : α → Option M} {l : List α} in
theorem amounts {ms : List M} (hf : ∀ a m, f a = some m → R.amount m)
    (h : List.Forall₂ (fun a m => f a = some m) l ms) : ∀ m ∈ ms, R.amount m := by
  induction h with
  | nil => simp
  | cons hm _ ih => exact List.forall_mem_cons.mpr ⟨hf _ _ hm, ih⟩

variable [DecidablePred R.within]

/-- The sum, if it is in range. -/
def plus (a b : M) : Option M := if R.within (a + b) then some (a + b) else none

theorem plus_eq_some {a b c : M} : plus R a b = some c ↔ R.within (a + b) ∧ a + b = c := by
  unfold plus
  split_ifs with h <;> simp [h]

/-- One amount after the other. -/
def total (f : α → Option M) (start : M) (l : List α) : Option M :=
  l.foldlM (fun t a => (f a).bind (plus R t)) start

variable {R} {f : α → Option M} {start r : M} {l l' : List α}

/-- The total is that of the amounts, if there is one for each element and it is in range. -/
theorem total_eq_some (hf : ∀ a m, f a = some m → R.amount m) (hamount : R.amount start)
    (hstart : R.within start) : total R f start l = some r ↔
      ∃ ms, List.Forall₂ (fun a m => f a = some m) l ms ∧ r = start + ms.sum ∧ R.within r := by
  induction l generalizing start with
  | nil =>
    constructor
    · intro h
      obtain rfl := Option.some.inj h
      exact ⟨[], .nil, by simp, hstart⟩
    · rintro ⟨ms, hms, rfl, -⟩
      cases hms
      simp [total]
  | cons a l ih =>
    rw [total, List.foldlM_cons, Option.bind_eq_bind, Option.bind_eq_some_iff]
    constructor
    · rintro ⟨next, hnext, hrest⟩
      obtain ⟨m, hm, hplus⟩ := Option.bind_eq_some_iff.mp hnext
      obtain ⟨hwithin, rfl⟩ := (plus_eq_some R).mp hplus
      obtain ⟨ms, hms, rfl, hr⟩ := (ih (R.add hamount (hf a m hm)) hwithin).mp hrest
      refine ⟨m :: ms, .cons hm hms, ?_, hr⟩
      rw [List.sum_cons, add_assoc]
    · rintro ⟨ms', hms, rfl, hr⟩
      cases hms with
      | @cons _ m _ ms hm hms =>
        have hsum : start + (m :: ms).sum = start + m + ms.sum := by rw [List.sum_cons, add_assoc]
        have hnext := R.add hamount (hf a m hm)
        have hwithin := R.below hnext (R.sum (amounts hf hms)) (hsum ▸ hr)
        refine ⟨start + m, ?_, ?_⟩
        · rw [hm]
          exact (plus_eq_some R).mpr ⟨hwithin, rfl⟩
        · exact (ih hnext hwithin).mpr ⟨ms, hms, hsum, hr⟩

/-- The order of the elements does not matter. -/
theorem total_perm (hf : ∀ a m, f a = some m → R.amount m) (hamount : R.amount start)
    (hstart : R.within start) (h : l.Perm l') : total R f start l = total R f start l' := by
  apply Option.ext
  intro r
  rw [total_eq_some hf hamount hstart, total_eq_some hf hamount hstart]
  constructor
  · rintro ⟨ms, hms, rfl, hr⟩
    obtain ⟨ms', hms', hperm⟩ := List.perm_comp_forall₂ h.symm hms
    exact ⟨ms', hms', by rw [hperm.sum_eq], hr⟩
  · rintro ⟨ms, hms, rfl, hr⟩
    obtain ⟨ms', hms', hperm⟩ := List.perm_comp_forall₂ h hms
    exact ⟨ms', hms', by rw [hperm.sum_eq], hr⟩

end RangedSums
