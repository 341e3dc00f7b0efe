import Hedronetes.Proxy.Plan

/-!
# The ranges of the Nodes

The proxy collects the ranges that the Nodes state, refuses one that it has seen and compares each
with the one before it. That is enough: ranges in their order that are apart from their neighbours
are apart from all others.
-/

namespace Hedronetes.Proxy

open Fallible Network

/-! ## Ranges in their order -/

section Order

variable {a b c : Net}

/-- The one ends before the other begins. -/
def Before (a b : Net) : Prop := a.broadcast < b.network

theorem network_le_broadcast (a : Net) : a.network ≤ a.broadcast := Nat.le_add_right _ _

theorem contains_network (a : Net) : a.contains a.network := ⟨le_rfl, network_le_broadcast a⟩

theorem Before.trans (h : Before a b) (h' : Before b c) : Before a c := by
  have hb := network_le_broadcast b
  unfold Before at *
  omega

instance : IsTrans Net Before := ⟨fun _ _ _ => Before.trans⟩

theorem disjoint_comm : a.Disjoint b ↔ b.Disjoint a :=
  ⟨fun h ip hip => h ip hip.symm, fun h ip hip => h ip hip.symm⟩

/-- A range is apart from one that begins no earlier exactly when it ends before it. -/
theorem disjoint_iff_before (h : a.network ≤ b.network) : a.Disjoint b ↔ Before a b := by
  constructor
  · intro hapart
    by_contra hlate
    have hin : a.contains b.network := ⟨h, not_lt.mp hlate⟩
    exact hapart b.network ⟨hin, contains_network b⟩
  · rintro hbefore ip ⟨⟨-, hhigh⟩, hlow, -⟩
    unfold Before at hbefore
    omega

theorem network_le (ha : a.addr = a.network) (hb : b.addr = b.network) (h : a ≤ b) :
    a.network ≤ b.network := by
  have hkey : toLex (a.addr, a.len) ≤ toLex (b.addr, b.len) := h
  rw [← ha, ← hb]
  rcases Prod.Lex.le_iff.mp hkey with hlt | ⟨heq, -⟩
  · exact hlt.le
  · exact heq.le

end Order

/-! ## The check -/

variable {cidrs : List Net} {seen set : Finset Net}

/-- Ranges that are in their order do not overlap exactly when each ends before the next. -/
theorem overlapping_eq_false (halign : ∀ c ∈ cidrs, c.addr = c.network)
    (hsorted : cidrs.Pairwise (· ≤ ·)) : overlapping cidrs = false ↔ cidrs.IsChain Before := by
  induction cidrs with
  | nil => simp [overlapping]
  | cons previous rest ih =>
    cases rest with
    | nil => simp [overlapping]
    | cons cidr rest =>
      have hle := network_le (halign previous (by simp)) (halign cidr (by simp))
        (List.rel_of_pairwise_cons hsorted List.mem_cons_self)
      have hbefore : ¬ previous.contains cidr.network ↔ Before previous cidr := by
        unfold Net.contains Before
        omega
      have hrest := ih (fun c hc => halign c (List.mem_cons_of_mem _ hc)) hsorted.of_cons
      rw [List.isChain_cons_cons, ← hrest, ← hbefore]
      simp [overlapping]

theorem overlapping_sort (halign : ∀ c ∈ seen, c.addr = c.network) :
    overlapping (seen.sort (· ≤ ·)) = false ↔ (seen.sort (· ≤ ·)).Pairwise Net.Disjoint := by
  have hmem : ∀ c ∈ seen.sort (· ≤ ·), c.addr = c.network :=
    fun c hc => halign c ((Finset.mem_sort _).mp hc)
  have hsorted : (seen.sort (· ≤ ·)).Pairwise (· ≤ ·) := Finset.pairwise_sort seen (· ≤ ·)
  rw [overlapping_eq_false hmem hsorted, List.isChain_iff_pairwise]
  constructor
  · intro h
    apply (h.and hsorted).imp_of_mem
    rintro a b ha hb ⟨hbefore, hle⟩
    exact (disjoint_iff_before (network_le (hmem a ha) (hmem b hb) hle)).mpr hbefore
  · intro h
    apply (h.and hsorted).imp_of_mem
    rintro a b ha hb ⟨hapart, hle⟩
    exact (disjoint_iff_before (network_le (hmem a ha) (hmem b hb) hle)).mp hapart

/-- A range that is seen for the first time. -/
def insertCidr (seen : Finset Net) (subnet : Net) : Except String (Finset Net) :=
  if subnet ∈ seen then .error "duplicate node CIDR" else .ok (insert subnet seen)

/-- The check of the ranges that the Nodes state. -/
def checkCidrs (cidrs : List Net) : Except String Unit := do
  let seen ← cidrs.foldlM insertCidr ∅
  demand (!overlapping (seen.sort (· ≤ ·))) "overlapping node CIDRs"

theorem foldlM_insertCidr : cidrs.foldlM insertCidr seen = .ok set ↔
    cidrs.Nodup ∧ (∀ c ∈ cidrs, c ∉ seen) ∧ set = seen ∪ cidrs.toFinset := by
  induction cidrs generalizing seen with
  | nil => simp [pure, Except.pure, eq_comm]
  | cons c cidrs ih =>
    rw [List.foldlM_cons]
    by_cases hc : c ∈ seen
    · have hrefused : insertCidr seen c = .error "duplicate node CIDR" := if_pos hc
      rw [hrefused]
      constructor
      · intro h
        cases h
      · rintro ⟨-, hnew, -⟩
        exact absurd hc (hnew c List.mem_cons_self)
    · have hinserted : insertCidr seen c = .ok (insert c seen) := if_neg hc
      have hunion : insert c seen ∪ cidrs.toFinset = seen ∪ (c :: cidrs).toFinset := by
        ext n
        simp only [Finset.mem_union, Finset.mem_insert, List.mem_toFinset, List.mem_cons]
        tauto
      rw [hinserted]
      change cidrs.foldlM insertCidr (insert c seen) = .ok set ↔ _
      rw [ih, hunion, List.nodup_cons]
      constructor
      · rintro ⟨hnodup, hnew, rfl⟩
        refine ⟨⟨fun hmem => hnew c hmem (Finset.mem_insert_self c seen), hnodup⟩, ?_, rfl⟩
        intro n hn
        rcases List.mem_cons.mp hn with rfl | hn
        · exact hc
        · exact fun hseen => hnew n hn (Finset.mem_insert_of_mem hseen)
      · rintro ⟨⟨hfirst, hnodup⟩, hnew, rfl⟩
        refine ⟨hnodup, ?_, rfl⟩
        intro n hn hmem
        rcases Finset.mem_insert.mp hmem with rfl | hseen
        · exact hfirst hn
        · exact hnew n (List.mem_cons_of_mem c hn) hseen

theorem nodup_of_disjoint (h : cidrs.Pairwise Net.Disjoint) : cidrs.Nodup := by
  apply h.imp
  rintro a b hapart rfl
  exact hapart a.network ⟨contains_network a, contains_network a⟩

/-- Ranges that start at their own addresses are accepted exactly when no two of them meet. -/
theorem cidrs_accepted_iff (halign : ∀ c ∈ cidrs, c.addr = c.network) :
    checkCidrs cidrs = .ok () ↔ cidrs.Pairwise Net.Disjoint := by
  have hsort : cidrs.Nodup → (overlapping (cidrs.toFinset.sort (· ≤ ·)) = false ↔
      cidrs.Pairwise Net.Disjoint) := by
    intro hnodup
    have hperm : (cidrs.toFinset.sort (· ≤ ·)).Perm cidrs :=
      (Finset.sort_perm_toList _ _).trans (List.toFinset_toList hnodup)
    rw [overlapping_sort fun c hc => halign c (List.mem_toFinset.mp hc)]
    exact hperm.pairwise_iff fun h => disjoint_comm.mp h
  constructor
  · intro h
    obtain ⟨set, hset, hcheck⟩ := bind_eq_ok.mp h
    obtain ⟨hnodup, -, rfl⟩ := foldlM_insertCidr.mp hset
    rw [Finset.empty_union] at hcheck
    unfold demand at hcheck
    split_ifs at hcheck with hapart
    exact (hsort hnodup).mp (by simpa using hapart)
  · intro h
    have hnodup := nodup_of_disjoint h
    have hset : cidrs.foldlM insertCidr ∅ = .ok cidrs.toFinset :=
      foldlM_insertCidr.mpr ⟨hnodup, by simp, by simp⟩
    apply bind_eq_ok.mpr ⟨_, hset, _⟩
    unfold demand
    exact if_pos (by simpa using (hsort hnodup).mpr h)

/-- Three ranges of different lengths. -/
theorem mixed_cidrs_accepted :
    checkCidrs [⟨10 * 2 ^ 24, 9, by decide, by decide⟩, ⟨11 * 2 ^ 24, 24, by decide, by decide⟩,
      ⟨11 * 2 ^ 24 + 2 ^ 8, 24, by decide, by decide⟩] = .ok () ↔
    [⟨10 * 2 ^ 24, 9, by decide, by decide⟩, ⟨11 * 2 ^ 24, 24, by decide, by decide⟩,
      ⟨11 * 2 ^ 24 + 2 ^ 8, 24, by decide, by decide⟩].Pairwise Net.Disjoint :=
  cidrs_accepted_iff (by decide)

/-! ## The plan -/

variable {nodeName : String} {before after : Cluster} {node : Json} {nodes : List Json}

theorem readAddress_podCidrs {address : Json} (h : readAddress before address = .ok after) :
    after.podCidrs = before.podCidrs := by
  unfold readAddress at h
  split_ifs at h
  · obtain ⟨reported, -, h⟩ := bind_eq_ok.mp h
    split_ifs at h
    · rw [← Except.ok.inj h]
    · rw [← Except.ok.inj h]
  · rw [← Except.ok.inj h]

/-- Ranges that start at their own addresses, each seen once, lead from the one set to the other. -/
def Inserts (seen set : Finset Net) : Prop :=
  ∃ cidrs : List Net, (∀ c ∈ cidrs, c.addr = c.network) ∧ cidrs.foldlM insertCidr seen = .ok set

theorem readCidr_podCidrs (h : readCidr nodeName before node = .ok after) :
    Inserts before.podCidrs after.podCidrs := by
  unfold readCidr at h
  split at h
  · rw [← Except.ok.inj h]
    exact ⟨[], by simp, rfl⟩
  · split at h
    · cases h
    · rename_i subnet _
      split_ifs at h with hinvalid hseen
      push Not at hinvalid
      rw [← Except.ok.inj h]
      refine ⟨[subnet], by simpa using hinvalid.1, ?_⟩
      exact bind_eq_ok.mpr ⟨_, if_neg hseen, rfl⟩

theorem readNode_podCidrs (h : readNode nodeName before node = .ok after) :
    Inserts before.podCidrs after.podCidrs := by
  obtain ⟨found, hfound, h⟩ := bind_eq_ok.mp h
  have hsame : after.podCidrs = found.podCidrs := by
    split_ifs at h
    · exact foldlM_invariant (I := fun c : Cluster => c.podCidrs = found.podCidrs) h rfl
        fun c address c' hstep hc => (readAddress_podCidrs hstep).trans hc
    · rw [Except.ok.inj h]
  rw [hsame]
  exact readCidr_podCidrs hfound

theorem readNodes_podCidrs (h : nodes.foldlM (readNode nodeName) before = .ok after) :
    Inserts before.podCidrs after.podCidrs := by
  induction nodes generalizing before with
  | nil =>
    rw [Except.ok.inj h]
    exact ⟨[], by simp, rfl⟩
  | cons node nodes ih =>
    rw [List.foldlM_cons] at h
    obtain ⟨read, hread, h⟩ := bind_eq_ok.mp h
    obtain ⟨own, hown, hfirst⟩ := readNode_podCidrs hread
    obtain ⟨others, hothers, hrest⟩ := ih h
    refine ⟨own ++ others, ?_, ?_⟩
    · intro c hc
      rcases List.mem_append.mp hc with hc | hc
      · exact hown c hc
      · exact hothers c hc
    · rw [List.foldlM_append]
      exact bind_eq_ok.mpr ⟨_, hfirst, hrest⟩

/-- A plan has passed the check, with the ranges that the Nodes state. -/
theorem plan_cidrs {digest : String → String} {services slices : List Json} {p : Plan}
    (h : plan digest nodeName services slices nodes = .ok p) :
    ∃ cidrs : List Net, (∀ c ∈ cidrs, c.addr = c.network) ∧ checkCidrs cidrs = .ok () ∧
      p.podCidrs = cidrs.toFinset := by
  obtain ⟨_, -, h⟩ := bind_eq_ok.mp h
  obtain ⟨cluster, hnodes, h⟩ := bind_eq_ok.mp h
  obtain ⟨_, hcheck, h⟩ := bind_eq_ok.mp h
  obtain ⟨_, -, h⟩ := bind_eq_ok.mp h
  obtain ⟨_, -, h⟩ := bind_eq_ok.mp h
  obtain ⟨_, -, h⟩ := bind_eq_ok.mp h
  obtain ⟨cidrs, halign, hset⟩ := readNodes_podCidrs hnodes
  have hchecked : checkCidrs cidrs = .ok () := bind_eq_ok.mpr ⟨_, hset, hcheck⟩
  obtain ⟨-, -, hall⟩ := foldlM_insertCidr.mp hset
  refine ⟨cidrs, halign, hchecked, ?_⟩
  rw [← Except.ok.inj h]
  simpa using hall

end Hedronetes.Proxy
