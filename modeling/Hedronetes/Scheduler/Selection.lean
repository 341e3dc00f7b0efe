import Hedronetes.Scheduler.Conditions

/-!
# The best feasible node

The choices of the scheduler are the feasible nodes, of which it takes the least, and the order of
the lists it reads leaves the answer as it is.
-/

namespace Hedronetes.Scheduler

open Server Api StableSort

variable {p n m : Json} {name other : String} {nodes pods leases nodes' pods' leases' : List Json}
  {now : ℤ} {rfc3339 : String → Option ℤ} {request : Resources} {c : Choice}

/-! ## What a node offers -/

theorem parseI64_range {s : String} {k : ℤ} (h : parseI64 s = some k) :
    -2 ^ 63 ≤ k ∧ k < 2 ^ 63 := by
  unfold parseI64 at h
  simp only [Option.ite_none_right_eq_some, Option.some.injEq] at h
  obtain ⟨-, hrange, rfl⟩ := h
  exact hrange

theorem capacity_eq_some {x : Resources} : capacity n = some x ↔ Offers n x := by
  unfold capacity
  simp only [Option.bind_eq_bind, Option.bind_eq_some_iff, Option.pure_def, Option.some.injEq,
    Option.filter_eq_some_iff, decide_eq_true_eq, milliCpu_eq_some, bytes_eq_some,
    Json.asString_eq_some]
  constructor
  · rintro ⟨cpu, hcpu, memory, hmemory, count, ⟨hcount, hpos⟩, rfl⟩
    exact ⟨hcpu, hmemory, hcount, hpos⟩
  · rintro ⟨hcpu, hmemory, hcount, hpos⟩
    exact ⟨_, hcpu, _, hmemory, _, ⟨hcount, hpos⟩, rfl⟩

theorem Offers.below {offer x : Resources} (h : Offers n offer) (hle : x ≤ offer) :
    x.cpu < 2 ^ 63 ∧ x.memory < 2 ^ 63 ∧ x.pods < 2 ^ 63 := by
  obtain ⟨s, -, -, -, -, -, hcpu⟩ := h.cpu
  obtain ⟨s, -, -, -, -, -, hmemory⟩ := h.memory
  obtain ⟨s, -, hpods⟩ := h.pods
  have hpods := (parseI64_range hpods).2
  exact ⟨lt_of_le_of_lt hle.1 hcpu, lt_of_le_of_lt hle.2.1 hmemory, lt_of_le_of_lt hle.2.2 hpods⟩

theorem fits_iff {x y : Resources} : x.fits y = true ↔ x ≤ y := by
  unfold Resources.fits
  simp only [Bool.and_eq_true, decide_eq_true_eq, and_assoc]
  rfl

/-- The amounts of the Pods of a list. -/
theorem takes_nonneg {rs : List Resources} (h : List.Forall₂ Takes pods rs) :
    Resources.i64.amount rs.sum := by
  apply Resources.i64.sum
  exact RangedSums.amounts (f := requests) (fun a x hx => (requests_eq_some.mp hx).nonneg)
    (h.imp fun _ _ hx => requests_eq_some.mpr hx)

/-- The check of the sums in `i64` arithmetic is that of the exact sums. -/
theorem used_fits_iff {offer used : Resources} (hrequest : Takes p request)
    (hoffer : Offers n offer) :
    (sum requests ⟨0, 0, 0⟩ pods = some used ∧ (used.add request).any (·.fits offer) = true) ↔
      ∃ rs, List.Forall₂ Takes pods rs ∧ used = rs.sum ∧ rs.sum + request ≤ offer := by
  rw [sum_requests, Option.any_eq_true]
  simp only [Resources.add_eq_some, fits_iff]
  constructor
  · rintro ⟨⟨rs, hrs, rfl, -⟩, _, ⟨-, rfl⟩, hle⟩
    exact ⟨rs, hrs, rfl, hle⟩
  · rintro ⟨rs, hrs, rfl, hle⟩
    have hlt := hoffer.below hle
    have hrange : (rs.sum + request).InRange := by
      have htotal := Resources.i64.add (takes_nonneg hrs) hrequest.nonneg
      have hcpu : 0 ≤ (rs.sum + request).cpu := htotal.1
      have hmemory : 0 ≤ (rs.sum + request).memory := htotal.2.1
      have hpods : 0 ≤ (rs.sum + request).pods := htotal.2.2
      unfold Resources.InRange
      omega
    have hbelow := Resources.i64.below (takes_nonneg hrs) hrequest.nonneg hrange
    exact ⟨⟨rs, hrs, rfl, hbelow⟩, _, ⟨hrange, rfl⟩, hle⟩

theorem takes_pods {rs : List Resources} (h : List.Forall₂ Takes pods rs) :
    rs.sum.pods = pods.length := by
  induction h with
  | nil => rfl
  | @cons p x pods rs hx _ ih =>
    obtain ⟨-, cs, -, -, ys, overhead, hys, hoverhead, rfl, -⟩ := hx
    have hnone : ys.sum.pods = 0 := by
      clear ih
      induction hys with
      | nil => rfl
      | cons hy _ ihy => rw [List.sum_cons, Resources.add_pods, hy.pods, ihy, add_zero]
    rw [List.sum_cons, Resources.add_pods, ih, Resources.add_pods, Resources.add_pods, hnone,
      hoverhead.pods, List.length_cons]
    push_cast
    omega

/-! ## The choices -/

/-- The soft taints of a node that the Pod does not tolerate. -/
def softTaints (p n : Json) : ℕ :=
  (taints n).countP fun t => t["effect"] = .string "PreferNoSchedule" ∧ ¬Tolerated p t

def choiceOf (p n : Json) (name : String) (pods : List Json) : Choice :=
  ⟨softTaints p n, score p n, (assigned name pods).length, name⟩

theorem choice_eq_some (hrequest : Takes p request) :
    choice rfc3339 p n pods leases now request = some c ↔
      ∃ name, Feasible rfc3339 p n name pods leases now request ∧ Weighed p ∧
        score p n < 2 ^ 63 ∧ c = choiceOf p n name pods := by
  have hsoft : (taints n).countP (fun t => t["effect"] = .string "PreferNoSchedule" &&
      !tolerates p t) = softTaints p n := by
    apply List.countP_congr
    intro t _
    rw [Bool.and_eq_true, Bool.not_eq_true', decide_eq_true_eq, decide_eq_true_eq,
      ← tolerates_iff, Bool.not_eq_true]
  have htaints : (taints n).any (repels p) = false ↔ ∀ t ∈ taints n,
      ∀ effect ∈ ["NoSchedule", "NoExecute"], t["effect"] = .string effect → Tolerated p t := by
    rw [List.any_eq_false]
    simp only [Bool.not_eq_true, repels_iff]
  unfold choice
  constructor
  · intro h
    simp only [Option.ite_none_left_eq_some, Option.ite_none_right_eq_some, Option.bind_eq_bind,
      Option.bind_eq_some_iff, Option.some.injEq] at h
    obtain ⟨hdead, name, hname, offer, hoffer, preference, hpreference, hrepelled, used, hused,
      hfits, rfl⟩ := h
    obtain ⟨hread, hne⟩ := Option.filter_eq_some_iff.mp hname
    have hoffer := capacity_eq_some.mp hoffer
    obtain ⟨hselected, haffinity, hweighed, hlt, rfl⟩ := affinity_eq_some.mp hpreference
    obtain ⟨rs, hrs, rfl, hle⟩ := (used_fits_iff hrequest hoffer).mp ⟨hused, hfits⟩
    refine ⟨name, ⟨⟨Json.asString_eq_some.mp hread, of_decide_eq_true hne⟩, ?_, hselected,
      haffinity, ?_, ⟨offer, rs, hoffer, hrs, hle⟩⟩, hweighed, hlt, ?_⟩
    · exact alive_iff.mp (by simpa using hdead)
    · exact htaints.mp (by simpa using hrepelled)
    · rw [hsoft, takes_pods hrs]
      rfl
  · rintro ⟨name, hfeasible, hweighed, hlt, rfl⟩
    obtain ⟨offer, rs, hoffer, hrs, hle⟩ := hfeasible.fits
    obtain ⟨hused, hfits⟩ := (used_fits_iff hrequest hoffer).mpr ⟨rs, hrs, rfl, hle⟩
    have hname : n["metadata"]["name"].asString.filter (· ≠ "") = some name := by
      rw [hfeasible.named.1]
      simp [Json.asString, Option.filter_some, hfeasible.named.2]
    have hpreference := affinity_eq_some.mpr
      ⟨hfeasible.selected, hfeasible.affinity, hweighed, hlt, rfl⟩
    simp only [alive_iff.mpr hfeasible.ready, Bool.not_true, Bool.false_eq_true, if_false, hname,
      Option.bind_eq_bind, Option.bind_some, capacity_eq_some.mpr hoffer, hpreference,
      htaints.mpr hfeasible.tolerated, hused, hfits, if_true, hsoft, takes_pods hrs]
    rfl

/-! ## The best one -/

/-- A Pod that the scheduler can place: it waits for nothing, asks for nothing that is not
supported, and its preferences weigh from 1 to 100, together no more than an `i64` holds. -/
structure Admitted (p : Json) (request : Resources) : Prop where
  ungated : populated p["spec"]["schedulingGates"] = false
  supported : unsupported p = false
  takes : Takes p request
  weighed : Weighed p
  light : ((preferences p).map weightOf).sum < 2 ^ 63

theorem rank_injective : Function.Injective Choice.rank := by
  rintro ⟨soft, preference, pods, name⟩ ⟨soft', preference', pods', name'⟩ h
  obtain ⟨hsoft, h⟩ := Prod.ext_iff.mp h
  obtain ⟨hpreference, h⟩ := Prod.ext_iff.mp h
  obtain ⟨hpods, hname⟩ := Prod.ext_iff.mp h
  obtain rfl : soft = soft' := hsoft
  obtain rfl : preference = preference' := hpreference
  obtain rfl : pods = pods' := hpods
  obtain rfl : name = name' := hname
  rfl

theorem Admitted.score_lt (h : Admitted p request) (n : Json) : score p n < 2 ^ 63 := by
  refine lt_of_le_of_lt ?_ h.light
  apply (List.filter_sublist.map weightOf).sum_le_sum
  intro w hw
  obtain ⟨pref, hpref, rfl⟩ := List.mem_map.mp hw
  obtain ⟨k, hread, hk⟩ := h.weighed pref hpref
  rw [weightOf, hread, asInt_int (by omega)]
  exact le_trans Int.one_nonneg hk.1

theorem Admitted.select_eq (h : Admitted p request) :
    select rfc3339 p nodes pods leases now =
      match (sortBy Choice.rank (nodes.filterMap fun n =>
        choice rfc3339 p n pods leases now request)).head? with
      | some c => .ok c.name
      | none => .error .unschedulable := by
  unfold select
  rw [h.ungated, h.supported, requests_eq_some.mpr h.takes]
  rfl

theorem mem_choices (h : Admitted p request) :
    c ∈ nodes.filterMap (fun n => choice rfc3339 p n pods leases now request) ↔
      ∃ n ∈ nodes, ∃ name, Feasible rfc3339 p n name pods leases now request ∧
        c = choiceOf p n name pods := by
  simp only [List.mem_filterMap, choice_eq_some h.takes]
  constructor
  · rintro ⟨n, hn, name, hfeasible, -, -, rfl⟩
    exact ⟨n, hn, name, hfeasible, rfl⟩
  · rintro ⟨n, hn, name, hfeasible, rfl⟩
    exact ⟨n, hn, name, hfeasible, h.weighed, h.score_lt n, rfl⟩

theorem select_eq_ok (h : Admitted p request) :
    select rfc3339 p nodes pods leases now = .ok name ↔
      ∃ n ∈ nodes, Feasible rfc3339 p n name pods leases now request ∧
        ∀ m ∈ nodes, ∀ other, Feasible rfc3339 p m other pods leases now request →
          (choiceOf p n name pods).rank ≤ (choiceOf p m other pods).rank := by
  rw [h.select_eq]
  constructor
  · intro hselect
    split at hselect
    · rename_i c hc
      obtain ⟨hmem, hle⟩ := head?_sortBy hc
      obtain ⟨n, hn, name', hfeasible, rfl⟩ := (mem_choices h).mp hmem
      obtain rfl : name' = name := Except.ok.inj hselect
      refine ⟨n, hn, hfeasible, ?_⟩
      intro m hm other hother
      exact hle _ ((mem_choices h).mpr ⟨m, hm, other, hother, rfl⟩)
    · cases hselect
  · rintro ⟨n, hn, hfeasible, hleast⟩
    have hmem := (mem_choices h).mpr ⟨n, hn, name, hfeasible, rfl⟩
    obtain ⟨c, hhead⟩ := head?_sortBy_of_mem Choice.rank hmem
    obtain ⟨hc, hle⟩ := head?_sortBy hhead
    obtain ⟨m, hm, other, hother, rfl⟩ := (mem_choices h).mp hc
    have heq := rank_injective (le_antisymm (hle _ hmem) (hleast m hm other hother))
    rw [hhead]
    exact congrArg (fun c => Except.ok (Choice.name c)) heq

/-- Whatever the preferences, the node that is selected is feasible. -/
theorem select_feasible (h : select rfc3339 p nodes pods leases now = .ok name) :
    populated p["spec"]["schedulingGates"] = false ∧ unsupported p = false ∧
      ∃ request, Takes p request ∧
        ∃ n ∈ nodes, Feasible rfc3339 p n name pods leases now request := by
  unfold select at h
  split_ifs at h with hgated hunsupported
  refine ⟨Bool.not_eq_true _ ▸ hgated, Bool.not_eq_true _ ▸ hunsupported, ?_⟩
  cases hrequest : requests p with
  | none =>
    rw [hrequest] at h
    cases h
  | some request =>
    rw [hrequest] at h
    have htakes := requests_eq_some.mp hrequest
    dsimp only at h
    split at h
    · rename_i c hc
      obtain ⟨n, hn, hchoice⟩ := List.mem_filterMap.mp (head?_sortBy hc).1
      obtain ⟨name', hfeasible, -, -, rfl⟩ := (choice_eq_some htakes).mp hchoice
      obtain rfl : name' = name := Except.ok.inj h
      exact ⟨request, htakes, n, hn, hfeasible⟩
    · cases h

/-! ## Any order -/

theorem sum_requests_perm (h : pods.Perm pods') :
    sum requests ⟨0, 0, 0⟩ pods = sum requests ⟨0, 0, 0⟩ pods' := by
  rw [sum_eq_total, sum_eq_total]
  apply RangedSums.total_perm _ Resources.i64.zero (by decide : Resources.InRange ⟨0, 0, 0⟩) h
  exact fun a x hx => (requests_eq_some.mp hx).nonneg

theorem choice_perm (hpods : pods.Perm pods') (hleases : leases.Perm leases') :
    choice rfc3339 p n pods leases now request = choice rfc3339 p n pods' leases' now request := by
  have halive : alive rfc3339 n leases now = alive rfc3339 n leases' now := by
    unfold alive
    rw [hleases.any_eq]
  have hused : ∀ name, sum requests ⟨0, 0, 0⟩ (assigned name pods) =
      sum requests ⟨0, 0, 0⟩ (assigned name pods') :=
    fun name => sum_requests_perm (hpods.filter _)
  unfold choice
  simp only [halive, hused]

theorem select_perm (hnodes : nodes.Perm nodes') (hpods : pods.Perm pods')
    (hleases : leases.Perm leases') :
    select rfc3339 p nodes pods leases now = select rfc3339 p nodes' pods' leases' now := by
  have hchoices : ∀ request, sortBy Choice.rank (nodes.filterMap fun n =>
      choice rfc3339 p n pods leases now request) =
      sortBy Choice.rank (nodes'.filterMap fun n =>
        choice rfc3339 p n pods' leases' now request) := by
    intro request
    apply sortBy_eq_of_perm rank_injective
    simp only [choice_perm (n := _) hpods hleases]
    exact hnodes.filterMap _
  unfold select
  simp only [hchoices]

/-- A Pod that can be placed goes to a node exactly when one is feasible, and then to the one with
the fewest soft taints, the highest score, the fewest Pods and the least name, in this order. The
order of nodes, Pods and leases does not matter to any Pod. -/
theorem best_node_selected (rfc3339 : String → Option ℤ) (p : Json)
    (nodes pods leases : List Json) (now : ℤ) :
    (∀ request, Admitted p request →
      ((∃ name, select rfc3339 p nodes pods leases now = .ok name) ↔
        ∃ n ∈ nodes, ∃ name, Feasible rfc3339 p n name pods leases now request) ∧
      ∀ name, select rfc3339 p nodes pods leases now = .ok name ↔
        ∃ n ∈ nodes, Feasible rfc3339 p n name pods leases now request ∧
          ∀ m ∈ nodes, ∀ other, Feasible rfc3339 p m other pods leases now request →
            (choiceOf p n name pods).rank ≤ (choiceOf p m other pods).rank) ∧
    ∀ nodes' pods' leases' : List Json, nodes.Perm nodes' → pods.Perm pods' →
      leases.Perm leases' → select rfc3339 p nodes' pods' leases' now =
        select rfc3339 p nodes pods leases now := by
  constructor
  · intro request h
    refine ⟨?_, fun name => select_eq_ok h⟩
    constructor
    · rintro ⟨name, hselect⟩
      obtain ⟨n, hn, hfeasible, -⟩ := (select_eq_ok h).mp hselect
      exact ⟨n, hn, name, hfeasible⟩
    · rintro ⟨n, hn, name, hfeasible⟩
      -- one choice is enough for a first one
      obtain ⟨c, hhead⟩ := head?_sortBy_of_mem Choice.rank
        ((mem_choices h).mpr ⟨n, hn, name, hfeasible, rfl⟩)
      exact ⟨c.name, by rw [h.select_eq, hhead]⟩
  · intro nodes' pods' leases' hnodes hpods hleases
    exact (select_perm hnodes hpods hleases).symm

/-! ## Two workers -/

/-- The time that the leases of the examples show. -/
def leaseTime (s : String) : Option ℤ :=
  if s = "2026-01-01T00:00:10Z" then some 1767225610000000000 else none

def workerNode (name : String) : Json :=
  .object [("metadata", .object [("name", .string name), ("uid", .string name)]),
    ("spec", .object []),
    ("status", .object [("allocatable", .object [("cpu", .string "1"), ("memory", .string "128Mi"),
        ("pods", .string "2")]),
      ("conditions", .array [.object [("status", .string "True"), ("type", .string "Ready")]])])]

def workerLease (name : String) : Json :=
  .object [("metadata", .object [("name", .string name), ("ownerReferences",
      .array [.object [("apiVersion", .string "v1"), ("kind", .string "Node"),
        ("uid", .string name)]])]),
    ("spec", .object [("holderIdentity", .string name),
      ("leaseDurationSeconds", .number (.int 40)),
      ("renewTime", .string "2026-01-01T00:00:10Z")])]

/-- A Pod with half a CPU as its limit, and some more members of its spec. -/
def halfPod (more : List (String × Json)) : Json :=
  .object [("spec", .object (("containers", .array [.object [("resources",
    .object [("limits", .object [("cpu", .string "500m"), ("memory", .string "64Mi")])])]]) ::
      more))]

theorem halfPod_takes : Takes (halfPod []) ⟨500, 67108864, 1⟩ :=
  requests_eq_some.mp (by decide +kernel)

/-- The worker that has a Pod already is passed over, from either order of the nodes. -/
theorem emptier_worker_selected :
    select leaseTime (halfPod []) [workerNode "a", workerNode "b"]
      [halfPod [("nodeName", .string "a")]] [workerLease "a", workerLease "b"]
      1767225620000000000 = .ok "b" ∧
    ∃ n ∈ [workerNode "b", workerNode "a"], ∃ name, Feasible leaseTime (halfPod []) n name
      [halfPod [("nodeName", .string "a")]] [workerLease "a", workerLease "b"]
      1767225620000000000 ⟨500, 67108864, 1⟩ := by
  have hadmitted : Admitted (halfPod []) ⟨500, 67108864, 1⟩ := by
    refine ⟨by decide, by decide, halfPod_takes, ?_, by decide⟩
    intro pref hpref
    cases hpref
  have hbest := best_node_selected leaseTime (halfPod []) [workerNode "b", workerNode "a"]
    [halfPod [("nodeName", .string "a")]] [workerLease "a", workerLease "b"] 1767225620000000000
  have hselect : select leaseTime (halfPod []) [workerNode "b", workerNode "a"]
      [halfPod [("nodeName", .string "a")]] [workerLease "a", workerLease "b"]
      1767225620000000000 = .ok "b" := by
    rfl
  refine ⟨?_, (hbest.1 _ hadmitted).1.mp ⟨"b", hselect⟩⟩
  rw [hbest.2 [workerNode "a", workerNode "b"] _ _ (List.Perm.swap _ _ _) (.refl _) (.refl _)]
  exact hselect

/-- A Pod that waits at a gate goes nowhere, however feasible a node is. -/
theorem gated_pod_waits : ¬ ∀ (rfc3339 : String → Option ℤ) (p : Json)
    (nodes pods leases : List Json) (now : ℤ),
      (nodes.map fun n => n["metadata"]["name"]).Nodup →
        ((∃ name, select rfc3339 p nodes pods leases now = .ok name) ↔
          ∃ n ∈ nodes, ∃ name request, Takes p request ∧
            Feasible rfc3339 p n name pods leases now request) := by
  intro hall
  have hgated := hall leaseTime
    (halfPod [("schedulingGates", .array [.object [("name", .string "gate")]])])
    [workerNode "a"] [] [workerLease "a"] 1767225620000000000 (List.nodup_singleton _)
  have htakes : Takes (halfPod [("schedulingGates", .array [.object [("name", .string "gate")]])])
      ⟨500, 67108864, 1⟩ := requests_eq_some.mp (by decide +kernel)
  have hchoice : choice leaseTime
      (halfPod [("schedulingGates", .array [.object [("name", .string "gate")]])])
      (workerNode "a") [] [workerLease "a"] 1767225620000000000 ⟨500, 67108864, 1⟩ =
        some ⟨0, 0, 0, "a"⟩ := by
    decide +kernel
  obtain ⟨name, hfeasible, -, -, -⟩ := (choice_eq_some htakes).mp hchoice
  obtain ⟨other, hselect⟩ := hgated.mpr
    ⟨workerNode "a", List.mem_singleton_self _, name, _, htakes, hfeasible⟩
  cases hselect

end Hedronetes.Scheduler
