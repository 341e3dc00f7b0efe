import Hedronetes.Patch.Strategic

/-!
# Reordering a merged list

A reordered list holds the values of the merged list, each as often. Requested values stand in the
requested order and the others in their old order, so that reordering again changes nothing.
-/

namespace Hedronetes.Strategic

open StableSort Effects Apply Server

variable {key : Option String} {values order old result : List Json} {budget left : ℕ}

/-- The list has an item of the value's identity. -/
def named (key : Option String) (list : List Json) (v : Json) : Bool :=
  (position key list v).isSome

/-- The values stand in the order of their first places in the list. -/
def InOrder (key : Option String) (list l : List Json) : Prop :=
  l.Pairwise fun a b => rank key list a ≤ rank key list b

/-! ## Running out of budget -/

def reorderCost (values order old : List Json) : ℕ :=
  saturatingMul (values.length + order.length) (old.length + order.length + 1)

theorem identities_ok : identities key values = .ok () ↔
    ∀ v ∈ values, ∃ id, identity key v = .ok id := by
  unfold identities
  induction values with
  | nil => simp [pure, Except.pure]
  | cons v values ih =>
    rw [List.forM_eq_forM, List.forM_cons, Fallible.bind_eq_ok, List.forall_mem_cons, ← ih]
    constructor
    · rintro ⟨_, hv, hrest⟩
      obtain ⟨id, hid, _⟩ := Fallible.bind_eq_ok.mp hv
      exact ⟨⟨id, hid⟩, hrest⟩
    · rintro ⟨⟨id, hid⟩, hrest⟩
      exact ⟨(), Fallible.bind_eq_ok.mpr ⟨id, hid, rfl⟩, hrest⟩

theorem reorder_ok : reorder key values order old budget = .ok result left ↔
    reorderCost values order old ≤ budget ∧ identities key (values ++ order ++ old) = .ok () ∧
      interleaved key values order old = result ∧
      budget - reorderCost values order old = left := by
  unfold reorder
  rw [spend, Budgets.spend_bind_ok, ofExcept_bind_eq_ok]
  constructor
  · rintro ⟨hle, ⟨⟩, hids, h⟩
    obtain ⟨hresult, hleft⟩ := pure_eq_ok.mp h
    exact ⟨hle, hids, hresult, hleft⟩
  · rintro ⟨hle, hids, hresult, hleft⟩
    exact ⟨hle, (), hids, pure_eq_ok.mpr ⟨hresult, hleft⟩⟩

/-! ## The two orders in one list -/

theorem interleaved_perm : (interleaved key values order old).Perm values := by
  unfold interleaved
  have hparts := List.filter_append_perm (fun v => !(position key order v).isSome) values
  simp only [Bool.not_not] at hparts
  apply List.Perm.trans weave_perm (List.Perm.trans _ hparts)
  exact List.Perm.append (perm_sortBy _ _) (perm_sortBy _ _)

theorem interleaved_named : (interleaved key values order old).filter (named key order) =
    sortBy (rank key order) (values.filter (named key order)) := by
  unfold interleaved
  apply filter_weave_right
  · intro v hv
    have hv := (List.mem_filter.mp ((perm_sortBy _ _).mem_iff.mp hv)).2
    simpa [named] using hv
  · intro v hv
    exact (List.mem_filter.mp ((perm_sortBy _ _).mem_iff.mp hv)).2

theorem interleaved_unnamed :
    (interleaved key values order old).filter (fun v => !named key order v) =
      sortBy (rank key old) (values.filter fun v => !named key order v) := by
  unfold interleaved
  apply filter_weave_left
  · intro v hv
    exact (List.mem_filter.mp ((perm_sortBy _ _).mem_iff.mp hv)).2
  · intro v hv
    have hv := (List.mem_filter.mp ((perm_sortBy _ _).mem_iff.mp hv)).2
    simpa [named] using hv

/-- Both parts are sorted already, so the same two lists are merged again. -/
theorem interleaved_again :
    interleaved key (interleaved key values order old) order old =
      interleaved key values order old := by
  have hnamed : (interleaved key values order old).filter (named key order) =
    sortBy (rank key order) (values.filter (named key order)) := interleaved_named
  have hunnamed : (interleaved key values order old).filter (fun v => !named key order v) =
    sortBy (rank key old) (values.filter fun v => !named key order v) := interleaved_unnamed
  unfold named at hnamed hunnamed
  rw [interleaved.eq_def key (interleaved key values order old)]
  simp only [hnamed, hunnamed]
  rw [sortBy_eq_self (pairwise_sortBy _ _), sortBy_eq_self (pairwise_sortBy _ _)]
  rfl

/-- Reordering permutes: nothing is lost or duplicated, the values the directive names stand in
its order, the others that were there before in their old order, and once is enough. -/
theorem reorder_permutes (h : reorder key values order old budget = .ok result left) :
    result.Perm values ∧
      InOrder key order (result.filter (named key order)) ∧
      InOrder key old (result.filter fun v => !named key order v && named key old v) ∧
      reorder key result order old budget = .ok result left ∧
      ∀ again final rest, reorder key result order old again = .ok final rest → final = result := by
  obtain ⟨hle, hids, rfl, hleft⟩ := reorder_ok.mp h
  have hperm : (interleaved key values order old).Perm values := interleaved_perm
  have hcost : reorderCost (interleaved key values order old) order old =
      reorderCost values order old := by
    unfold reorderCost
    rw [hperm.length_eq]
  refine ⟨hperm, ?_, ?_, ?_, ?_⟩
  · rw [interleaved_named]
    exact pairwise_sortBy _ _
  · have hsorted : InOrder key old
        ((interleaved key values order old).filter fun v => !named key order v) := by
      rw [interleaved_unnamed]
      exact pairwise_sortBy _ _
    have hsub := hsorted.filter (named key old)
    rw [List.filter_filter] at hsub
    rwa [List.filter_congr fun v _ => Bool.and_comm (!named key order v) (named key old v)]
  · apply reorder_ok.mpr
    rw [hcost]
    refine ⟨hle, ?_, interleaved_again, hleft⟩
    apply identities_ok.mpr
    intro v hv
    apply identities_ok.mp hids v
    simp only [List.mem_append] at hv ⊢
    rw [hperm.mem_iff] at hv
    exact hv
  · intro again final rest hagain
    obtain ⟨_, _, rfl, _⟩ := reorder_ok.mp hagain
    exact interleaved_again

/-- Ports `b` and `a` are asked for in this order, `c` keeps its place before `a`. -/
theorem ports_reordered :
    ([.string "b", .string "c", .string "a"] : List Json).Perm
        [.string "a", .string "b", .string "c"] ∧
      InOrder none [.string "b", .string "x", .string "a", .string "b"]
        (([.string "b", .string "c", .string "a"] : List Json).filter
          (named none [.string "b", .string "x", .string "a", .string "b"])) :=
  have h : reorder none [.string "a", .string "b", .string "c"]
      [.string "b", .string "x", .string "a", .string "b"]
      [.string "b", .string "c", .string "a"] 100 =
        .ok [.string "b", .string "c", .string "a"] 44 :=
    reorder_ok.mpr ⟨by decide, rfl, by decide +kernel, rfl⟩
  ⟨(reorder_permutes h).1, (reorder_permutes h).2.1⟩

end Hedronetes.Strategic
