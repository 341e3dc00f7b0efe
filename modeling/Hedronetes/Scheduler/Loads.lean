import Hedronetes.Scheduler.Pass
import Hedronetes.Scheduler.Reckoning

/-!
# The load of a node

What the Pods of a node take together, in a list and in the registry. A call of the store changes
the load by the one object that it brings, so that a call that puts no Pod on a node adds nothing.
-/

namespace Hedronetes.Scheduler

open Server Interleaving FirstMatch
open Storage (StoreKey startsWith)

/-! ## Sums of amounts -/

namespace Resources

instance : PartialOrder Resources where
  le_refl _ := ⟨le_rfl, le_rfl, le_rfl⟩
  le_trans _ _ _ h h' := ⟨h.1.trans h'.1, h.2.1.trans h'.2.1, h.2.2.trans h'.2.2⟩
  le_antisymm _ _ h h' := Resources.ext (h.1.antisymm h'.1) (h.2.1.antisymm h'.2.1)
    (h.2.2.antisymm h'.2.2)

instance : DecidableLE Resources := fun r s =>
  inferInstanceAs (Decidable (r.cpu ≤ s.cpu ∧ r.memory ≤ s.memory ∧ r.pods ≤ s.pods))

instance : IsOrderedAddMonoid Resources where
  add_le_add_left _ _ h t := ⟨add_le_add_left h.1 t.cpu, add_le_add_left h.2.1 t.memory,
    add_le_add_left h.2.2 t.pods⟩

end Resources

/-- Fewer entries sum up to no more. -/
theorem sum_le_of_subset {α M : Type} [AddCommMonoid M] [PartialOrder M] [IsOrderedAddMonoid M]
    {l l' : List (α × M)} (hnodup : l.Nodup) (hsub : l ⊆ l') (hnonneg : ∀ e ∈ l', 0 ≤ e.2) :
    (l.map Prod.snd).sum ≤ (l'.map Prod.snd).sum := by
  obtain ⟨between, hperm, hsublist⟩ := hnodup.subperm hsub
  rw [← (hperm.map Prod.snd).sum_eq]
  apply (hsublist.map Prod.snd).sum_le_sum
  intro x hx
  obtain ⟨e, he, rfl⟩ := List.mem_map.mp hx
  exact hnonneg e he

/-! ## Accounting -/

/-- A reckoning of what every Pod takes, whatever it says of those whose requests cannot be read. -/
structure Accounting where
  effective : Json → Resources
  nonneg : ∀ p, 0 ≤ effective p
  takes : ∀ p r, Takes p r → effective p = r
  spec : ∀ p q, p["spec"] = q["spec"] → effective p = effective q

/-- The Pod takes of the node. -/
def Counts (name : String) (p : Json) : Prop :=
  p["spec"]["nodeName"] = .string name ∧ terminal p = false

instance (name : String) : DecidablePred (Counts name) := fun p => by
  unfold Counts
  infer_instance

variable {p q : Json} {name : String} {request : Resources} {pods : List Json}

theorem assigned_cons : assigned name (p :: pods) =
    if Counts name p then p :: assigned name pods else assigned name pods := by
  unfold assigned Counts
  rw [List.filter_cons]
  simp

theorem counts_congr (hspec : p["spec"]["nodeName"] = q["spec"]["nodeName"])
    (hstatus : p["status"] = q["status"]) : Counts name p ↔ Counts name q := by
  unfold Counts terminal
  rw [hspec, hstatus]

/-- The name of the node is not among what decides the requests. -/
theorem Takes.congr (h : Takes p request)
    (hspec : ∀ f, f ≠ "nodeName" → q["spec"][f] = p["spec"][f]) : Takes q request := by
  obtain ⟨⟨hinit, hresources, hclaims⟩, containers, hcontainers, hne, rs, overhead, hrs,
    hoverhead, hsum⟩ := h
  refine ⟨⟨?_, ?_, ?_⟩, containers, ?_, hne, rs, overhead, hrs, ?_, hsum⟩
  · rw [hspec _ (by decide), hinit]
  · rw [hspec _ (by decide), hresources]
  · rw [hspec _ (by decide), hclaims]
  · rw [hspec _ (by decide), hcontainers]
  · rwa [hspec _ (by decide)]

namespace Accounting

variable (A : Accounting)

/-- What the Pods of a list take of a node. -/
def claimed (name : String) (pods : List Json) : Resources :=
  ((assigned name pods).map A.effective).sum

/-- What a Pod adds to a node. -/
def share (name : String) (p : Json) : Resources := if Counts name p then A.effective p else 0

/-- What the Pods of the registry take of a node. -/
def load (name : String) (reg : Registry) : Resources :=
  A.claimed name ((reg.list podsPath).map fun e => e.2.value)

/-- Each Pod of a node, by its key. -/
def shares (name : String) (reg : Registry) : List (StoreKey × Resources) :=
  ((reg.list podsPath).filter fun e => Counts name e.2.value).map fun e =>
    (e.1, A.effective e.2.value)

variable {A}

theorem share_nonneg : 0 ≤ A.share name p := by
  unfold share
  split_ifs
  · exact A.nonneg p
  · exact le_rfl

theorem claimed_cons : A.claimed name (p :: pods) = A.share name p + A.claimed name pods := by
  unfold claimed share
  rw [assigned_cons]
  split_ifs
  · rw [List.map_cons, List.sum_cons]
  · rw [zero_add]

theorem claimed_of_takes {rs : List Resources} (h : List.Forall₂ Takes (assigned name pods) rs) :
    A.claimed name pods = rs.sum := by
  unfold claimed
  congr 1
  generalize assigned name pods = l at h
  induction h with
  | nil => rfl
  | cons hp _ ih => rw [List.map_cons, A.takes _ _ hp, ih]

/-- A Pod that takes of no node of the name is replaced. -/
theorem claimed_set {index : ℕ} (hget : pods[index]? = some p) (hp : ¬ Counts name p) :
    A.claimed name (pods.set index q) = A.share name q + A.claimed name pods := by
  induction pods generalizing index with
  | nil => cases hget
  | cons first rest ih =>
    cases index with
    | zero =>
      obtain rfl : first = p := Option.some.inj hget
      have hnone : A.share name first = 0 := if_neg hp
      rw [List.set_cons_zero, claimed_cons, claimed_cons, hnone, zero_add]
    | succ index =>
      rw [List.set_cons_succ, claimed_cons, claimed_cons, ih hget]
      exact add_left_comm _ _ _

variable {reg s t : Registry} {k : StoreKey} {v : Json}

theorem load_eq : A.load name reg = ((A.shares name reg).map Prod.snd).sum := by
  unfold load claimed shares assigned
  congr 1
  rw [List.filter_map, List.map_map, List.map_map]
  congr 1
  apply List.filter_congr
  intro e _
  rw [Bool.eq_iff_iff, decide_eq_true_iff]
  simp [Counts]

theorem mem_shares {x : Resources} : (k, x) ∈ A.shares name reg ↔
    startsWith podsPath k = true ∧ ∃ o, reg.get k = some o ∧ Counts name o.value ∧
      A.effective o.value = x := by
  unfold shares
  simp only [List.mem_map, List.mem_filter, decide_eq_true_eq, Prod.exists, Prod.mk.injEq]
  constructor
  · rintro ⟨k', o, ⟨hlisted, hcounts⟩, rfl, rfl⟩
    obtain ⟨hget, hstart⟩ := Registry.mem_list.mp hlisted
    exact ⟨hstart, o, hget, hcounts, rfl⟩
  · rintro ⟨hstart, o, hget, hcounts, rfl⟩
    exact ⟨k, o, ⟨Registry.mem_list.mpr ⟨hget, hstart⟩, hcounts⟩, rfl, rfl⟩

theorem nodup_shares : (A.shares name reg).Nodup := by
  have hkeys : ((A.shares name reg).map Prod.fst).Nodup := by
    unfold shares Registry.list
    rw [List.map_map]
    have hsorted : reg.objects.Pairwise fun e f => e.1 ≠ f.1 :=
      reg.sorted.imp fun hlt => ne_of_lt hlt
    exact List.pairwise_map.mpr ((hsorted.filter _).filter _)
  exact hkeys.of_map _

theorem shares_nonneg : ∀ e ∈ A.shares name reg, 0 ≤ e.2 := by
  rintro ⟨k, x⟩ he
  obtain ⟨-, o, -, -, rfl⟩ := mem_shares.mp he
  exact A.nonneg o.value

/-- A write adds what its Pod takes. -/
theorem load_put : A.load name (reg.put k v) ≤ A.share name v + A.load name reg := by
  have hsub : A.shares name (reg.put k v) ⊆ (k, A.share name v) :: A.shares name reg := by
    rintro ⟨k', x⟩ he
    obtain ⟨hstart, o, hget, hcounts, rfl⟩ := mem_shares.mp he
    by_cases hk : k' = k
    · subst hk
      rw [Registry.get_put] at hget
      obtain rfl := Option.some.inj hget
      have hshare : A.share name v = A.effective v := if_pos hcounts
      rw [hshare]
      exact List.mem_cons_self
    · rw [Registry.get_put_ne hk] at hget
      exact List.mem_cons_of_mem _ (mem_shares.mpr ⟨hstart, o, hget, hcounts, rfl⟩)
  have hnonneg : ∀ e ∈ (k, A.share name v) :: A.shares name reg, 0 ≤ e.2 := by
    intro e he
    rcases List.mem_cons.mp he with rfl | he
    · exact share_nonneg
    · exact shares_nonneg e he
  rw [load_eq, load_eq]
  exact sum_le_of_subset nodup_shares hsub hnonneg

variable (A)

/-- No Pod gets on a node, and none on a node takes more. -/
def Quiet (s t : Registry) : Prop :=
  ∀ k o', startsWith podsPath k = true → t.get k = some o' → ∀ name, Counts name o'.value →
    ∃ o, s.get k = some o ∧ Counts name o.value ∧ A.effective o'.value = A.effective o.value

variable {A}

theorem Quiet.load_le (h : A.Quiet s t) : A.load name t ≤ A.load name s := by
  have hsub : A.shares name t ⊆ A.shares name s := by
    rintro ⟨k, x⟩ he
    obtain ⟨hstart, o', hget', hcounts', rfl⟩ := mem_shares.mp he
    obtain ⟨o, hget, hcounts, hsame⟩ := h k o' hstart hget' name hcounts'
    exact mem_shares.mpr ⟨hstart, o, hget, hcounts, hsame.symm⟩
  rw [load_eq, load_eq]
  exact sum_le_of_subset nodup_shares hsub shares_nonneg

end Accounting

end Hedronetes.Scheduler
