import Hedronetes.Proxy.Snapshot

/-!
# The plan as a function of what is there

The slices by Service and the frontends of every Service, taken together; and that a plan
follows them.
-/

namespace Hedronetes.Proxy

open Network Tallies StableSort

/-! ## Slices by Service -/

/-- A Service's namespace and name, and what a slice of it offers to a port. -/
abbrev Offer := (String × String) × (Request → Option (Multiset Backend))

noncomputable def offerOf (e : (String × String) × Json) : Offer :=
  (e.1, fun request => request.sliceOffer e.2)

noncomputable def sliceAsk (slice : Json) : Option (Multiset Offer) :=
  if slice["addressType"] ≠ .string "IPv4" ∨ slice["metadata"]["deletionTimestamp"] ≠ .null then
    some 0
  else
    match slice["metadata"]["labels"]["kubernetes.io/service-name"].asString with
    | none => some 0
    | some name => (text slice["metadata"] "namespace").toOption.bind fun ns =>
      some {offerOf ((ns, name), slice)}

/-- The slices offer this much. -/
def Grouped (bySvc : List ((String × String) × Json)) (offers : Multiset Offer) : Prop :=
  ↑(bySvc.map offerOf) = offers

theorem readSlice_adds (slice : Json) :
    Adds Grouped (fun _ => True) (fun bySvc => readSlice bySvc slice) (sliceAsk slice) := by
  unfold readSlice sliceAsk
  split_ifs with hskip
  · exact Adds.skip
  · cases slice["metadata"]["labels"]["kubernetes.io/service-name"].asString with
    | none => exact Adds.skip
    | some name =>
      apply Adds.read
      intro ns _ bySvc offers hgrouped _
      rw [add, Option.bind_some, if_pos trivial]
      apply Follows.ok
      unfold Grouped at hgrouped ⊢
      rw [← hgrouped, List.map_append]
      rfl

/-! ## Frontends -/

/-- What frontends take: their tuples and chain names, themselves, and backends. -/
abbrev FrontendSum := Multiset Tuple × Multiset String × Multiset Frontend × ℕ

namespace FrontendSum

def Distinct (m : FrontendSum) : Prop := m.1.Nodup ∧ m.2.1.Nodup ∧ m.2.2.2 ≤ maxBackends

def Few (m : FrontendSum) : Prop := m.2.2.1.card ≤ maxFrontends

instance : DecidablePred Distinct := fun _ => inferInstanceAs (Decidable (_ ∧ _ ∧ _))

instance : DecidablePred Few := fun _ => inferInstanceAs (Decidable (_ ≤ _))

theorem distinct_down (a b : FrontendSum) (h : (a + b).Distinct) : a.Distinct := by
  obtain ⟨htuples, hids, hcount⟩ := h
  refine ⟨Multiset.nodup_of_le (Multiset.le_add_right a.1 b.1) htuples,
    Multiset.nodup_of_le (Multiset.le_add_right a.2.1 b.2.1) hids, ?_⟩
  exact (Nat.le_add_right a.2.2.2 b.2.2.2).trans hcount

theorem within_down (a b : FrontendSum) (h : (a + b).Distinct ∧ (a + b).Few) :
    a.Distinct ∧ a.Few :=
  ⟨distinct_down a b h.1, (Multiset.card_le_card (Multiset.le_add_right a.2.2.1 b.2.2.1)).trans h.2⟩

end FrontendSum

def Frontend.tuple (f : Frontend) : Tuple := (f.ip, f.port, f.protocol)

def taken (frontends : Multiset Frontend) (count : ℕ) : FrontendSum :=
  (frontends.map Frontend.tuple, frontends.map Frontend.id, frontends, count)

structure Progress.Holds (progress : Progress) (m : FrontendSum) : Prop where
  tuples : progress.tuples = m.1.toFinset
  ids : progress.ids = m.2.1.toFinset
  frontends : ↑progress.frontends = m.2.2.1
  totalBackends : progress.totalBackends = m.2.2.2
  chains : m.2.1 = m.2.2.1.map Frontend.id

section Steps

variable {progress : Progress} {total : FrontendSum}

theorem claimTuple_adds (tuple : Tuple) :
    Adds Progress.Holds FrontendSum.Distinct (fun progress => progress.claimTuple tuple)
      (some ({tuple}, 0, 0, 0)) := by
  intro progress total hprogress hdistinct
  have hwithin : (total + ({tuple}, 0, 0, 0)).Distinct ↔ tuple ∉ progress.tuples := by
    rw [hprogress.tuples, Multiset.mem_toFinset]
    unfold FrontendSum.Distinct at hdistinct ⊢
    simp only [Prod.fst_add, Prod.snd_add, nodup_add_singleton, add_zero]
    tauto
  rw [add, Option.bind_some]
  change Follows _ (if tuple ∈ progress.tuples then _ else _) _
  by_cases hmem : tuple ∈ progress.tuples
  · rw [if_pos hmem, if_neg fun h => hwithin.mp h hmem]
    exact .error
  · rw [if_neg hmem, if_pos (hwithin.mpr hmem)]
    apply Follows.ok
    constructor
    · exact (congrArg _ hprogress.tuples).trans (toFinset_add_singleton _ _).symm
    · simpa using hprogress.ids
    · simpa using hprogress.frontends
    · simpa using hprogress.totalBackends
    · simpa using hprogress.chains

/-- A frontend enters under a chain name that is not there yet. -/
theorem enter_follows (hprogress : progress.Holds total) (hdistinct : total.Distinct)
    (f : Frontend) {count : ℕ} (hbound : total.2.2.2 + count ≤ maxBackends) {change : Progress → Progress}
    (htuples : ∀ q, (change q).tuples = q.tuples) (hids : ∀ q, (change q).ids = q.ids)
    (hfrontends : ∀ q, (change q).frontends = q.frontends ++ [f])
    (htotal : ∀ q, q.totalBackends = progress.totalBackends →
      (change q).totalBackends = total.2.2.2 + count) :
    Follows Progress.Holds (progress.claimId f.id >>= fun q => .ok (change q))
      (add FrontendSum.Distinct total (some (0, {f.id}, {f}, count))) := by
  have hwithin : (total + (0, {f.id}, {f}, count)).Distinct ↔ f.id ∉ progress.ids := by
    rw [hprogress.ids, Multiset.mem_toFinset]
    unfold FrontendSum.Distinct at hdistinct ⊢
    simp only [Prod.fst_add, Prod.snd_add, nodup_add_singleton, add_zero]
    tauto
  rw [add, Option.bind_some]
  unfold Progress.claimId
  by_cases hmem : f.id ∈ progress.ids
  · rw [if_pos hmem, if_neg fun h => hwithin.mp h hmem]
    exact .error
  · rw [if_neg hmem, if_pos (hwithin.mpr hmem)]
    apply Follows.ok
    constructor
    · rw [htuples]
      simpa using hprogress.tuples
    · rw [hids]
      exact (congrArg _ hprogress.ids).trans (toFinset_add_singleton _ _).symm
    · rw [hfrontends]
      change ((progress.frontends ++ [f] : List Frontend) : Multiset Frontend) = total.2.2.1 + {f}
      rw [← hprogress.frontends]
      rfl
    · exact htotal _ rfl
    · simp [hprogress.chains]

theorem taken_singleton (f : Frontend) :
    taken {f} 0 = ({f.tuple}, 0, 0, 0) + (0, {f.id}, {f}, 0) := by
  simp [taken]

end Steps

section

variable (digest : String → String) (nodeName : String)

namespace Service

variable (service : Service)

noncomputable def offer (offers : Multiset Offer) (request : Request) : Option (Multiset Backend) :=
  gather ((offers.filter fun o => o.1 = (service.ns, service.name)).map fun o => o.2 request)

def nodesAsk (nodeIps : Multiset ℕ) (p : Json) (protocol : Protocol) (backends : Finset Backend) :
    Option FrontendSum :=
  if service.spec["type"] = .string "NodePort" then
    (Proxy.nodePort p["nodePort"]).toOption.bind fun number =>
      if nodeIps ≠ 0 then
        some (taken (nodeIps.map (service.nodeFrontend digest number protocol backends)) 0)
      else none
  else some 0

noncomputable def publishAsk (nodeIps : Multiset ℕ) (offers : Multiset Offer) (p : Json)
    (servicePort : ℕ) (protocol : Protocol) : Option FrontendSum :=
  (service.offer offers (service.request nodeName p protocol)).bind fun m =>
    (service.nodesAsk digest nodeIps p protocol m.toFinset).map
      (taken {service.clusterFrontend digest servicePort protocol m.toFinset} m.toFinset.card + ·)

noncomputable def portAsk (nodeIps : Multiset ℕ) (offers : Multiset Offer) (p : Json) :
    Option FrontendSum :=
  (port p["port"]).toOption.bind fun servicePort =>
    (Protocol.parse p["protocol"]).toOption.bind fun protocol =>
      service.publishAsk digest nodeName nodeIps offers p servicePort protocol

end Service

noncomputable def serviceAsk (nodeIps : Multiset ℕ) (offers : Multiset Offer) (service : Json) :
    Option FrontendSum :=
  if skipped service then some 0
  else (readService service).toOption.bind fun service =>
    gather ↑(service.spec["ports"].items.map (service.portAsk digest nodeName nodeIps offers))

variable {digest nodeName} {service : Service}

theorem addNode_adds (number : ℕ) (protocol : Protocol) (backends : Finset Backend) (nodeIp : ℕ) :
    Adds Progress.Holds FrontendSum.Distinct
      (fun progress => service.addNode digest number protocol backends progress nodeIp)
      (some (taken {service.nodeFrontend digest number protocol backends nodeIp} 0)) := by
  rw [taken_singleton]
  have henter : Adds Progress.Holds FrontendSum.Distinct
      (fun progress => progress.claimId (service.nodeId digest nodeIp number protocol) >>= fun q =>
        .ok (q.push (service.nodeFrontend digest number protocol backends nodeIp)))
      (some (0, {service.nodeId digest nodeIp number protocol},
        {service.nodeFrontend digest number protocol backends nodeIp}, 0)) := by
    intro progress total hprogress hdistinct
    exact enter_follows hprogress hdistinct
      (service.nodeFrontend digest number protocol backends nodeIp) hdistinct.2.2
      (fun _ => rfl) (fun _ => rfl) (fun _ => rfl) fun _ hq => hq.trans hprogress.totalBackends
  exact (claimTuple_adds (nodeIp, number, protocol)).andThen FrontendSum.distinct_down henter

theorem gather_nodes (f : ℕ → Frontend) (nodeIps : List ℕ) :
    gather ↑(nodeIps.map fun nodeIp => some (taken {f nodeIp} 0)) =
      some (taken ((nodeIps : Multiset ℕ).map f) 0) := by
  induction nodeIps with
  | nil => exact gather_zero
  | cons nodeIp nodeIps ih =>
    rw [List.map_cons, ← Multiset.cons_coe, gather_cons, ih]
    simp [taken]

theorem addNodes_adds (nodeIps : List ℕ) (p : Json) (protocol : Protocol)
    (backends : Finset Backend) :
    Adds Progress.Holds FrontendSum.Distinct
      (fun progress => service.addNodes digest nodeIps p protocol backends progress)
      (service.nodesAsk digest ↑nodeIps p protocol backends) := by
  unfold Service.addNodes Service.nodesAsk
  by_cases htype : service.spec["type"] = .string "NodePort"
  · simp only [htype, ↓reduceIte]
    apply Adds.read
    intro number _
    have hsome : (nodeIps : Multiset ℕ) ≠ 0 ↔ nodeIps ≠ [] := by simp
    rw [if_congr hsome rfl rfl]
    apply demand_adds
    intro _
    rw [← gather_nodes]
    exact Adds.loop FrontendSum.distinct_down fun nodeIp _ => addNode_adds number protocol
      backends nodeIp
  · simp only [htype, ↓reduceIte]
    exact Adds.skip

theorem offer_grouped {bySvc : List ((String × String) × Json)} {offers : Multiset Offer}
    (h : Grouped bySvc offers) (request : Request) :
    service.offer offers request = gather ↑((service.slices bySvc).map request.sliceOffer) := by
  unfold Grouped at h
  have hslices : ((bySvc.map offerOf).filter fun o => o.1 = (service.ns, service.name)).map
      (fun o => o.2 request) = (service.slices bySvc).map request.sliceOffer := by
    unfold Service.slices
    rw [List.filter_map, List.map_map, List.map_map]
    rfl
  rw [Service.offer, ← h, Multiset.filter_coe, Multiset.map_coe, hslices]

/-- The frontend on the published address takes its chain name and its backends. -/
theorem addCluster_follows {progress : Progress} {total : FrontendSum} {found : Found}
    (hprogress : progress.Holds total) (hdistinct : total.Distinct)
    (hfound : found.totalBackends = progress.totalBackends + found.backends.card)
    (hbound : progress.totalBackends + found.backends.card ≤ maxBackends)
    (servicePort : ℕ) (protocol : Protocol) :
    Follows Progress.Holds (service.addCluster digest servicePort protocol found progress)
      (add FrontendSum.Distinct total (some (0,
        {service.clusterId digest servicePort protocol},
        {service.clusterFrontend digest servicePort protocol found.backends},
        found.backends.card))) := by
  have hcount := hprogress.totalBackends
  exact enter_follows hprogress hdistinct
    (service.clusterFrontend digest servicePort protocol found.backends) (hcount ▸ hbound)
    (fun _ => rfl) (fun _ => rfl) (fun _ => rfl) fun _ _ => hfound.trans (hcount ▸ rfl)

/-- A published port claims its tuple, looks for its backends, and then takes the rest. -/
theorem add_publishAsk (nodeIps : Multiset ℕ) (offers : Multiset Offer) (p : Json)
    (servicePort : ℕ) (protocol : Protocol) (total : FrontendSum) :
    add FrontendSum.Distinct total
        (service.publishAsk digest nodeName nodeIps offers p servicePort protocol) =
      (add FrontendSum.Distinct total
        (some ({(service.clusterIp, servicePort, protocol)}, 0, 0, 0))).bind fun next =>
      ((service.offer offers (service.request nodeName p protocol)).bind fun m =>
        if next.2.2.2 + m.toFinset.card ≤ maxBackends then some m.toFinset else none).bind
          fun backends =>
      (add FrontendSum.Distinct next (some (0, {service.clusterId digest servicePort protocol},
        {service.clusterFrontend digest servicePort protocol backends}, backends.card))).bind
          fun last =>
      add FrontendSum.Distinct last (service.nodesAsk digest nodeIps p protocol backends) := by
  unfold Service.publishAsk
  cases service.offer offers (service.request nodeName p protocol) with
  | none => exact (Option.bind_fun_none _).symm
  | some m =>
    have hrest : ∀ next : FrontendSum,
        (((some m).bind fun m => if next.2.2.2 + m.toFinset.card ≤ maxBackends
          then some m.toFinset else none).bind fun backends =>
        (add FrontendSum.Distinct next (some (0, {service.clusterId digest servicePort protocol},
          {service.clusterFrontend digest servicePort protocol backends}, backends.card))).bind
            fun last =>
        add FrontendSum.Distinct last (service.nodesAsk digest nodeIps p protocol backends)) =
        add FrontendSum.Distinct next ((service.nodesAsk digest nodeIps p protocol m.toFinset).map
          ((0, {service.clusterId digest servicePort protocol},
            {service.clusterFrontend digest servicePort protocol m.toFinset}, m.toFinset.card) + ·)) := by
      intro next
      rw [Option.bind_some]
      split_ifs with hbound
      · rw [Option.bind_some, add_add FrontendSum.distinct_down]
        rfl
      · symm
        cases service.nodesAsk digest nodeIps p protocol m.toFinset with
        | none => rfl
        | some rest =>
          apply if_neg
          rintro ⟨_, _, hcount⟩
          apply hbound
          simp only [Prod.snd_add] at hcount
          omega
    simp only [hrest]
    rw [add_add FrontendSum.distinct_down, Option.bind_some, Option.bind_some, Option.map_map]
    apply congrArg
    apply congrArg fun f => Option.map f _
    funext rest
    simp [taken, Service.clusterFrontend, Frontend.tuple, ← add_assoc]

theorem publish_adds {bySvc : List ((String × String) × Json)} {offers : Multiset Offer}
    (hgrouped : Grouped bySvc offers) (nodeIps : List ℕ) (p : Json) (servicePort : ℕ)
    (protocol : Protocol) :
    Adds Progress.Holds FrontendSum.Distinct
      (fun progress => service.publish digest nodeName nodeIps bySvc p servicePort protocol progress)
      (service.publishAsk digest nodeName ↑nodeIps offers p servicePort protocol) := by
  intro progress total hprogress hdistinct
  rw [add_publishAsk]
  apply (claimTuple_adds _ progress total hprogress hdistinct).bind
  intro claimed next hnext hclaimed
  have hdistinct' := within_of_add hnext
  have hstart : claimed.totalBackends ≤ maxBackends := hclaimed.totalBackends ▸ hdistinct'.2.2
  rw [← hclaimed.totalBackends]
  apply (addSlices_follows _ _ claimed.warnings hstart (offer_grouped hgrouped _)).bind
  rintro found backends hsome ⟨rfl, hfound⟩
  have hbound : claimed.totalBackends + found.backends.card ≤ maxBackends := by
    obtain ⟨m, _, hm⟩ := Option.bind_eq_some_iff.mp hsome
    split_ifs at hm with hm'
    exact Option.some.inj hm ▸ hm'
  apply (addCluster_follows hclaimed hdistinct' hfound hbound servicePort protocol).bind
  intro last m hlast hholds
  exact addNodes_adds nodeIps p protocol found.backends last m hholds (within_of_add hlast)

theorem servicePort_adds {bySvc : List ((String × String) × Json)} {offers : Multiset Offer}
    (hgrouped : Grouped bySvc offers) (nodeIps : List ℕ) (p : Json) :
    Adds Progress.Holds (fun m => m.Distinct ∧ m.Few)
      (fun progress => service.addPort digest nodeName nodeIps bySvc progress p)
      (service.portAsk digest nodeName ↑nodeIps offers p) := by
  apply Adds.read
  intro servicePort _
  apply Adds.read
  intro protocol _
  apply (publish_adds hgrouped nodeIps p servicePort protocol).guard
  intro progress m hprogress
  have hfew : m.Few ↔ progress.frontends.length ≤ maxFrontends := by
    unfold FrontendSum.Few
    rw [← hprogress.frontends, Multiset.coe_card]
  rw [if_congr hfew rfl rfl]
  exact demand_follows fun _ => .ok hprogress

theorem addService_adds {bySvc : List ((String × String) × Json)} {offers : Multiset Offer}
    (hgrouped : Grouped bySvc offers) (nodeIps : List ℕ) (service : Json) :
    Adds Progress.Holds (fun m => m.Distinct ∧ m.Few)
      (fun progress => addService digest nodeName nodeIps bySvc progress service)
      (serviceAsk digest nodeName ↑nodeIps offers service) := by
  unfold addService serviceAsk
  by_cases hskip : skipped service = true
  · simp only [hskip, ↓reduceIte]
    exact Adds.skip
  · simp only [hskip]
    apply Adds.read
    intro read _
    exact Adds.loop FrontendSum.within_down fun p _ => servicePort_adds hgrouped nodeIps p

end

end Hedronetes.Proxy
