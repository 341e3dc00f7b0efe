import Hedronetes.Foundations.Tallies
import Hedronetes.Proxy.Plan

/-!
# What the lists come to

What the proxy plans as a function of the Services, slices and Nodes without their order:
each of them contributes ranges and addresses, backends or frontends, and the plan is what
they come to together within its bounds. The loops of the plan follow it.
-/

namespace Hedronetes.Proxy

open Network Tallies
open NodeCidrAllocations (dotted)

theorem demand_follows {α β : Type} {R : α → β → Prop} {condition : Prop} [Decidable condition]
    {message : String} {f : Unit → Except String α} {y : Option β}
    (h : condition → Follows R (f ()) y) :
    Follows R (demand condition message >>= f) (if condition then y else none) := by
  unfold demand
  split_ifs with hc
  · exact h hc
  · exact .error

theorem demand_adds {M β : Type} [AddCommMonoid M] {R : β → M → Prop} {Within : M → Prop}
    [DecidablePred Within] {condition : Prop} [Decidable condition] {message : String}
    {step : β → Except String β} {ask : Option M} (h : condition → Adds R Within step ask) :
    Adds R Within (fun b => demand condition message >>= fun _ => step b)
      (if condition then ask else none) := by
  intro b total hb hwithin
  have hsplit : add Within total (if condition then ask else none) =
      if condition then add Within total ask else none := by
    split_ifs <;> rfl
  rw [hsplit]
  exact demand_follows fun hc => h hc b total hb hwithin

section Multisets

variable {α : Type} {m : Multiset α} {a : α}

theorem nodup_add_singleton : (m + {a}).Nodup ↔ m.Nodup ∧ a ∉ m := by
  rw [add_comm, Multiset.singleton_add, Multiset.nodup_cons, and_comm]

theorem toFinset_add_singleton [DecidableEq α] (m : Multiset α) (a : α) :
    (m + {a}).toFinset = insert a m.toFinset := by
  ext b
  simp

end Multisets

/-! ## Nodes -/

/-- Ranges, how many of them are this node's own, and its addresses. -/
abbrev NodeSum := Multiset Net × ℕ × Multiset ℕ

def NodeSum.Distinct (m : NodeSum) : Prop := m.1.Nodup

instance : DecidablePred NodeSum.Distinct := fun m => inferInstanceAs (Decidable m.1.Nodup)

theorem NodeSum.distinct_down (a b : NodeSum) (h : (a + b).Distinct) : a.Distinct :=
  Multiset.nodup_of_le (Multiset.le_add_right a.1 b.1) h

structure Cluster.Holds (seen : Cluster) (m : NodeSum) : Prop where
  podCidrs : seen.podCidrs = m.1.toFinset
  own : seen.own = true ↔ 0 < m.2.1
  nodup : seen.nodeIps.Nodup
  nodeIps : ∀ ip, ip ∈ seen.nodeIps ↔ ip ∈ m.2.2

section Nodes

variable (nodeName : String)

def cidrAsk (node : Json) : Option NodeSum :=
  match node["spec"]["podCIDR"].asString.filter (· ≠ "") with
  | none => some 0
  | some cidr => (dotted.parse cidr).bind fun subnet =>
    if subnet.addr ≠ subnet.network ∨ dotted.print subnet ≠ cidr ∨ !isPrivate subnet.network ∨
        !isPrivate subnet.broadcast ∨ subnet.contains serviceNet.network ∨
          serviceNet.contains subnet.network then none
    else some ({subnet}, if node["metadata"]["name"] = .string nodeName then 1 else 0, 0)

def addressAsk (address : Json) : Option NodeSum :=
  if address["type"] = .string "InternalIP" ∨ address["type"] = .string "ExternalIP" then
    (ip address["address"]).toOption.bind fun reported => some (0, 0, {reported})
  else some 0

noncomputable def nodeAsk (node : Json) : Option NodeSum :=
  (cidrAsk nodeName node).bind fun m =>
    (if node["metadata"]["name"] = .string nodeName then
      gather ↑(node["status"]["addresses"].items.map addressAsk)
    else some 0).map (m + ·)

variable {nodeName}

/-- A range that is not there yet. -/
theorem takeCidr_follows {seen : Cluster} {total : NodeSum} (hseen : seen.Holds total)
    (hdistinct : total.Distinct) (subnet : Net) (mine : Bool) {message : String} :
    Follows Cluster.Holds
      (if subnet ∈ seen.podCidrs then Except.error message
        else .ok { seen with podCidrs := insert subnet seen.podCidrs, own := seen.own || mine })
      (add NodeSum.Distinct total (some ({subnet}, if mine then 1 else 0, 0))) := by
  have hwithin : (total + ({subnet}, if mine then 1 else 0, 0)).Distinct ↔ subnet ∉ seen.podCidrs := by
    rw [hseen.podCidrs, Multiset.mem_toFinset]
    exact nodup_add_singleton.trans (and_iff_right hdistinct)
  by_cases hmem : subnet ∈ seen.podCidrs
  · rw [if_pos hmem, add, Option.bind_some, if_neg fun h => hwithin.mp h hmem]
    exact .error
  · rw [if_neg hmem, add, Option.bind_some, if_pos (hwithin.mpr hmem)]
    apply Follows.ok
    constructor
    · exact (congrArg _ hseen.podCidrs).trans (toFinset_add_singleton _ _).symm
    · have hown := hseen.own
      cases mine <;> simp [hown]
    · exact hseen.nodup
    · intro ip
      simpa using hseen.nodeIps ip

theorem readCidr_adds (node : Json) :
    Adds Cluster.Holds NodeSum.Distinct (fun seen => readCidr nodeName seen node)
      (cidrAsk nodeName node) := by
  intro seen total hseen hdistinct
  unfold cidrAsk
  change Follows _ (readCidr nodeName seen node) _
  unfold readCidr
  cases node["spec"]["podCIDR"].asString.filter (· ≠ "") with
  | none => exact Adds.skip seen total hseen hdistinct
  | some cidr =>
    cases hparse : dotted.parse cidr with
    | none =>
      simp only [hparse]
      exact .error
    | some subnet =>
      simp only [hparse, Option.bind_some]
      by_cases hbad : subnet.addr ≠ subnet.network ∨ dotted.print subnet ≠ cidr ∨
          !isPrivate subnet.network ∨ !isPrivate subnet.broadcast ∨
            subnet.contains serviceNet.network ∨ serviceNet.contains subnet.network
      · rw [if_pos hbad, if_pos hbad]
        exact .error
      · rw [if_neg hbad, if_neg hbad]
        simpa using takeCidr_follows hseen hdistinct subnet
          (node["metadata"]["name"] = .string nodeName)

theorem readAddress_adds (address : Json) :
    Adds Cluster.Holds NodeSum.Distinct (fun seen => readAddress seen address)
      (addressAsk address) := by
  unfold readAddress addressAsk
  split_ifs with htype
  · apply Adds.read
    intro reported _ seen total hseen hdistinct
    have hwithin : (total + (0, 0, {reported})).Distinct := by
      unfold NodeSum.Distinct at hdistinct ⊢
      simpa using hdistinct
    rw [add, Option.bind_some, if_pos hwithin]
    change Follows _ (if reported ∈ seen.nodeIps then .ok seen
      else .ok { seen with nodeIps := seen.nodeIps ++ [reported] }) _
    split_ifs with hmem
    · apply Follows.ok
      constructor
      · simpa using hseen.podCidrs
      · simpa using hseen.own
      · exact hseen.nodup
      · intro ip
        have hreported := (hseen.nodeIps reported).mp hmem
        simp only [Prod.snd_add, Multiset.mem_add, Multiset.mem_singleton, hseen.nodeIps ip]
        exact ⟨Or.inl, fun h => h.elim id fun he => he ▸ hreported⟩
    · apply Follows.ok
      constructor
      · simpa using hseen.podCidrs
      · simpa using hseen.own
      · exact List.nodup_append.mpr ⟨hseen.nodup, List.nodup_singleton _, by
          intro a ha b hb he
          rw [List.mem_singleton.mp hb] at he
          exact hmem (he ▸ ha)⟩
      · intro ip
        simp [hseen.nodeIps ip]
  · exact Adds.skip

theorem readNode_adds (node : Json) :
    Adds Cluster.Holds NodeSum.Distinct (fun seen => readNode nodeName seen node)
      (nodeAsk nodeName node) := by
  apply (readCidr_adds node).andThen NodeSum.distinct_down
  split_ifs with hname
  · exact Adds.loop NodeSum.distinct_down fun address _ => readAddress_adds address
  · exact Adds.skip

end Nodes

/-! ## Backends -/

/-- The backends of a port fit beside those counted before it. -/
def WithinBackends (start : ℕ) (m : Multiset Backend) : Prop :=
  start + m.toFinset.card ≤ maxBackends

instance (start : ℕ) : DecidablePred (WithinBackends start) :=
  fun _ => inferInstanceAs (Decidable (_ ≤ _))

theorem withinBackends_down (start : ℕ) (a b : Multiset Backend) (h : WithinBackends start (a + b)) :
    WithinBackends start a := by
  have hcard : a.toFinset.card ≤ (a + b).toFinset.card := by
    apply Finset.card_le_card
    rw [Multiset.toFinset_add]
    exact Finset.subset_union_left
  unfold WithinBackends at h ⊢
  omega

structure Found.Holds (start : ℕ) (found : Found) (m : Multiset Backend) : Prop where
  backends : found.backends = m.toFinset
  totalBackends : found.totalBackends = start + m.toFinset.card

def addressOffer (target : ℕ) (address : Json) : Option (Multiset Backend) :=
  (ip address).toOption.bind fun address =>
    if ¬ serviceNet.contains address then some {⟨address, target⟩} else none

namespace Request

variable (request : Request)

noncomputable def endpointOffer (target : ℕ) (endpoint : Json) : Option (Multiset Backend) :=
  if request.passesOver endpoint then some 0
  else gather ↑(endpoint["addresses"].items.map (addressOffer target))

noncomputable def portOffer (slice sp : Json) : Option (Multiset Backend) :=
  if request.differs slice["ports"].items.length sp then some 0
  else (port sp["port"]).toOption.bind fun target =>
    gather ↑(slice["endpoints"].items.map (request.endpointOffer target))

noncomputable def sliceOffer (slice : Json) : Option (Multiset Backend) :=
  if request.foreign slice then some 0
  else gather ↑(slice["ports"].items.map (request.portOffer slice))

end Request

theorem takeBackend_follows {start : ℕ} {found : Found} {total : Multiset Backend}
    (hfound : found.Holds start total) (hwithin : WithinBackends start total) (b : Backend)
    {message : String} :
    Follows (Found.Holds start)
      (if b ∈ found.backends then .ok found
        else demand (found.totalBackends + 1 ≤ maxBackends) message >>= fun _ =>
          .ok { found with
            backends := insert b found.backends, totalBackends := found.totalBackends + 1 })
      (add (WithinBackends start) total (some {b})) := by
  rw [add, Option.bind_some]
  by_cases hmem : b ∈ found.backends
  · have hsame : (total + {b}).toFinset = total.toFinset := by
      rw [toFinset_add_singleton]
      exact Finset.insert_eq_of_mem (hfound.backends ▸ hmem)
    have hstill : WithinBackends start (total + {b}) := by
      unfold WithinBackends
      rwa [hsame]
    rw [if_pos hmem, if_pos hstill]
    apply Follows.ok
    constructor
    · rw [hsame]
      exact hfound.backends
    · rw [hsame]
      exact hfound.totalBackends
  · have hnew : (total + {b}).toFinset.card = total.toFinset.card + 1 := by
      rw [toFinset_add_singleton]
      exact Finset.card_insert_of_notMem (hfound.backends ▸ hmem)
    have hcount := hfound.totalBackends
    have hbound : WithinBackends start (total + {b}) ↔ found.totalBackends + 1 ≤ maxBackends := by
      unfold WithinBackends
      omega
    rw [if_neg hmem, if_congr hbound rfl rfl]
    apply demand_follows
    intro _
    apply Follows.ok
    constructor
    · rw [toFinset_add_singleton, ← hfound.backends]
    · change found.totalBackends + 1 = _
      omega

theorem addAddress_adds (start target : ℕ) (address : Json) :
    Adds (Found.Holds start) (WithinBackends start) (fun found => addAddress target found address)
      (addressOffer target address) := by
  apply Adds.read
  intro address _
  apply demand_adds
  intro _ found total hfound hwithin
  exact takeBackend_follows hfound hwithin _

section

variable (request : Request)

theorem addEndpoint_adds (start target : ℕ) (endpoint : Json) :
    Adds (Found.Holds start) (WithinBackends start)
      (fun found => request.addEndpoint target found endpoint)
      (request.endpointOffer target endpoint) := by
  unfold Request.addEndpoint Request.endpointOffer
  split_ifs with hover
  · exact Adds.skip
  · exact Adds.loop (withinBackends_down start) fun address _ => addAddress_adds start target address

theorem addPort_adds (start : ℕ) (slice sp : Json) :
    Adds (Found.Holds start) (WithinBackends start) (fun found => request.addPort slice found sp)
      (request.portOffer slice sp) := by
  unfold Request.addPort Request.portOffer
  split_ifs with hdiffers
  · intro found total hfound hwithin
    rw [add_zero_of_within hwithin]
    exact .ok ⟨hfound.backends, hfound.totalBackends⟩
  · apply Adds.read
    intro target _
    exact Adds.loop (withinBackends_down start) fun endpoint _ =>
      addEndpoint_adds request start target endpoint

theorem addSlice_adds (start : ℕ) (slice : Json) :
    Adds (Found.Holds start) (WithinBackends start) (fun found => request.addSlice found slice)
      (request.sliceOffer slice) := by
  unfold Request.addSlice Request.sliceOffer
  split_ifs with hforeign
  · exact Adds.skip
  · exact Adds.loop (withinBackends_down start) fun sp _ => addPort_adds request start slice sp

theorem map_add_backends (start : ℕ) (offer : Option (Multiset Backend)) :
    (add (WithinBackends start) 0 offer).map Multiset.toFinset = offer.bind fun m =>
      if start + m.toFinset.card ≤ maxBackends then some m.toFinset else none := by
  cases offer with
  | none => rfl
  | some m => by_cases h : start + m.toFinset.card ≤ maxBackends <;> simp [add, WithinBackends, h]

/-- The backends a Service port finds in its slices, beside those counted before it. -/
theorem addSlices_follows (slices : List Json) (warnings : List Warning) {start : ℕ}
    (hstart : start ≤ maxBackends) {offer : Option (Multiset Backend)}
    (hoffer : offer = gather ↑(slices.map request.sliceOffer)) :
    Follows (fun found (backends : Finset Backend) => found.backends = backends ∧
        found.totalBackends = start + backends.card)
      (slices.foldlM request.addSlice ⟨∅, warnings, start⟩)
      (offer.bind fun m =>
        if start + m.toFinset.card ≤ maxBackends then some m.toFinset else none) := by
  have hloop : Adds (Found.Holds start) (WithinBackends start)
      (fun found => slices.foldlM request.addSlice found)
      (gather ↑(slices.map request.sliceOffer)) :=
    Adds.loop (withinBackends_down start) fun slice _ => addSlice_adds request start slice
  have hfollows := hloop ⟨∅, warnings, start⟩ 0 ⟨rfl, rfl⟩ (by simpa [WithinBackends] using hstart)
  rw [← hoffer] at hfollows
  rw [← map_add_backends]
  exact hfollows.map fun found m h => ⟨h.backends, h.totalBackends⟩

end

end Hedronetes.Proxy
