import Hedronetes.Proxy.Outline
import Hedronetes.Proxy.Ruleset

/-!
# The order of the lists

The plan follows what the lists come to without their order, up to the order of frontends
with distinct chain names, which are sorted. So the rules are a function of the Services,
slices, endpoints and Nodes that are there.
-/

namespace Hedronetes.Proxy

open FirstMatch Network Tallies StableSort

section

variable (digest : String → String) (nodeName : String)

/-- The ranges and frontends that the Nodes, slices and Services come to. -/
noncomputable def outline (nodes services : Multiset Json)
    (slices : Multiset (Option (Multiset Offer))) : Option (Finset Net × FrontendSum) :=
  if validNodeName nodeName ∧ services.card ≤ 8192 ∧ slices.card ≤ 8192 ∧ nodes.card ≤ 8192 then
    (add NodeSum.Distinct 0 (gather (nodes.map (nodeAsk nodeName)))).bind fun seen =>
      if !overlapping (seen.1.toFinset.sort (· ≤ ·)) then
        if 0 < seen.2.1 then
          (add (fun _ => True) 0 (gather slices)).bind fun offers =>
            (add (fun m : FrontendSum => m.Distinct ∧ m.Few) 0 (gather (services.map
              (serviceAsk digest nodeName seen.2.2.dedup offers)))).map fun total =>
                (seen.1.toFinset, total)
        else none
      else none
  else none

/-- A plan of these ranges and, sorted, these frontends. -/
structure Plan.Realizes (p : Plan) (o : Finset Net × FrontendSum) : Prop where
  podCidrs : p.podCidrs = o.1
  services : ∃ frontends : List Frontend, ↑frontends = o.2.2.2.1 ∧ (frontends.map Frontend.id).Nodup ∧
    p.services = sortBy Frontend.id frontends

variable {digest nodeName}

theorem Cluster.Holds.dedup {seen : Cluster} {m : NodeSum} (h : seen.Holds m) :
    (seen.nodeIps : Multiset ℕ) = m.2.2.dedup := by
  apply (Multiset.Nodup.ext (Multiset.coe_nodup.mpr h.nodup) (Multiset.nodup_dedup _)).mpr
  intro ip
  rw [Multiset.mem_coe, Multiset.mem_dedup, h.nodeIps]

theorem plan_follows (services slices nodes : List Json) :
    Follows Plan.Realizes (plan digest nodeName services slices nodes)
      (outline digest nodeName ↑nodes ↑services ↑(slices.map sliceAsk)) := by
  unfold plan outline
  rw [Multiset.coe_card, Multiset.coe_card, Multiset.coe_card, List.length_map]
  apply demand_follows
  intro _
  have hnodes : Adds Cluster.Holds NodeSum.Distinct (fun seen => nodes.foldlM (readNode nodeName) seen)
      (gather ↑(nodes.map (nodeAsk nodeName))) :=
    Adds.loop NodeSum.distinct_down fun node _ => readNode_adds node
  apply (hnodes ⟨∅, false, []⟩ 0 ⟨rfl, by simp, by simp, by simp⟩ Multiset.nodup_zero).bind
  intro cluster seen _ hcluster
  rw [← hcluster.podCidrs]
  apply demand_follows
  intro _
  rw [← if_congr hcluster.own rfl rfl]
  apply demand_follows
  intro _
  have hslices : Adds Grouped (fun _ => True) (fun bySvc => slices.foldlM readSlice bySvc)
      (gather ↑(slices.map sliceAsk)) :=
    Adds.loop (fun _ _ _ => trivial) fun slice _ => readSlice_adds slice
  apply (hslices [] 0 rfl trivial).bind
  intro bySvc offers _ hgrouped
  rw [← hcluster.dedup]
  have hservices : Adds Progress.Holds (fun m => m.Distinct ∧ m.Few) (fun progress =>
      services.foldlM (addService digest nodeName cluster.nodeIps bySvc) progress)
      (gather ↑(services.map (serviceAsk digest nodeName ↑cluster.nodeIps offers))) :=
    Adds.loop FrontendSum.within_down fun service _ =>
      addService_adds hgrouped cluster.nodeIps service
  have hstart : FrontendSum.Distinct 0 ∧ FrontendSum.Few 0 := by
    simp [FrontendSum.Distinct, FrontendSum.Few]
  rw [Option.map_eq_bind]
  apply (hservices .start 0 ⟨rfl, rfl, rfl, rfl, rfl⟩ hstart).bind
  intro progress total htotal hprogress
  have hids := (within_of_add htotal).1.2.1
  rw [hprogress.chains, ← hprogress.frontends] at hids
  exact .ok ⟨rfl, progress.frontends, hprogress.frontends, Multiset.coe_nodup.mp hids, rfl⟩

/-! ## Slices whose endpoints change places -/

/-- A slice, or the slice with its endpoints in another order. -/
inductive Reordered : Json → Json → Prop
  | same {slice : Json} : Reordered slice slice
  | endpoints {fields : List (String × Json)} {items items' : List Json} :
      lookup "endpoints" fields = some (.array items) → items.Perm items' →
      Reordered (.object fields) (.object (insertKey "endpoints" (.array items') fields))

theorem Reordered.getElem {slice other : Json} (h : Reordered slice other) {name : String}
    (hname : name ≠ "endpoints") : other[name] = slice[name] := by
  cases h with
  | same => rfl
  | endpoints _ _ =>
    rw [Json.getElem_eq, Json.getElem_eq, Json.field, Json.field, lookup_insertKey_ne hname]

theorem Reordered.items {slice other : Json} (h : Reordered slice other) :
    other["endpoints"].items.Perm slice["endpoints"].items := by
  cases h with
  | same => exact .refl _
  | endpoints hlookup hperm =>
    rw [Json.getElem_eq, Json.getElem_eq, Json.field, Json.field, lookup_insertKey, hlookup]
    exact hperm.symm

theorem Reordered.sliceAsk_eq {slice other : Json} (h : Reordered slice other) :
    sliceAsk other = sliceAsk slice := by
  have hoffer : ∀ key, offerOf (key, other) = offerOf (key, slice) := by
    intro key
    unfold offerOf
    simp only [Prod.mk.injEq, true_and]
    funext request
    have hport : request.portOffer other = request.portOffer slice := by
      funext sp
      unfold Request.portOffer
      have hends : ∀ target, (↑(other["endpoints"].items.map (request.endpointOffer target)) :
          Multiset (Option (Multiset Backend))) =
            ↑(slice["endpoints"].items.map (request.endpointOffer target)) :=
        fun target => Multiset.coe_eq_coe.mpr (h.items.map _)
      simp only [hends]
      rw [h.getElem (by decide)]
    unfold Request.sliceOffer Request.foreign
    rw [hport, h.getElem (by decide), h.getElem (by decide)]
  unfold sliceAsk
  simp only [hoffer]
  rw [h.getElem (by decide), h.getElem (by decide)]

/-- Plans of one outline have the same rules. -/
theorem Plan.Realizes.render_eq {p q : Plan} {o : Finset Net × FrontendSum} (hp : p.Realizes o)
    (hq : q.Realizes o) (owner : String) : p.render digest owner = q.render digest owner := by
  obtain ⟨fs, hfs, hnodup, hservices⟩ := hp.services
  obtain ⟨gs, hgs, _, hothers⟩ := hq.services
  apply Plan.render_congr
  · exact hp.podCidrs.trans hq.podCidrs.symm
  · rw [hservices, hothers]
    exact sortBy_eq_of_perm_of_nodup hnodup (Multiset.coe_eq_coe.mp (hfs.trans hgs.symm))

/-- The rules of a snapshot do not depend on the order of its Services, slices and Nodes, nor
on the order of the endpoints in a slice: the same text, or no text in both. -/
theorem rules_order_free {services services' slices slices' nodes nodes' : List Json}
    (hservices : services.Perm services') (hnodes : nodes.Perm nodes')
    (hslices : ∃ reordered, List.Forall₂ Reordered slices reordered ∧ reordered.Perm slices')
    (owner : String) :
    (plan digest nodeName services slices nodes >>= fun p => p.render digest owner).toOption =
      (plan digest nodeName services' slices' nodes' >>= fun p => p.render digest owner).toOption := by
  obtain ⟨reordered, hreordered, hperm⟩ := hslices
  have hasks : (↑(slices.map sliceAsk) : Multiset (Option (Multiset Offer))) =
      ↑(slices'.map sliceAsk) := by
    have hsame : slices.map sliceAsk = reordered.map sliceAsk := by
      clear hperm
      induction hreordered with
      | nil => rfl
      | cons h _ ih => rw [List.map_cons, List.map_cons, ih, h.sliceAsk_eq]
    rw [hsame]
    exact Multiset.coe_eq_coe.mpr (hperm.map _)
  have hfollows : Follows Plan.Realizes (plan digest nodeName services slices nodes)
      (outline digest nodeName ↑nodes ↑services ↑(slices.map sliceAsk)) :=
    plan_follows services slices nodes
  rw [hasks, Multiset.coe_eq_coe.mpr hservices, Multiset.coe_eq_coe.mpr hnodes] at hfollows
  have hagree := hfollows.agree (plan_follows services' slices' nodes') fun p q o hp hq =>
    (show ∀ owner, p.render digest owner = q.render digest owner from hp.render_eq hq)
  rcases hagree with ⟨p, q, hp, hq, hrender⟩ | ⟨e, e', hp, hq⟩
  · rw [hp, hq]
    exact congrArg Except.toOption (hrender owner)
  · rw [hp, hq]
    rfl

end

/-! ## Two endpoints -/

def nodeObject (name cidr : String) : Json :=
  .object [("metadata", .object [("name", .string name)]),
    ("spec", .object [("podCIDR", .string cidr)])]

def webService : Json :=
  .object [("metadata", .object [("name", .string "web"), ("namespace", .string "test"),
      ("uid", .string "new-service")]),
    ("spec", .object [("clusterIP", .string "10.43.0.10"),
      ("ports", .array [.object [("name", .string "http"), ("port", .number (.int 80))]])])]

def webSlice (endpoints : List Json) : Json :=
  .object [("addressType", .string "IPv4"), ("endpoints", .array endpoints),
    ("metadata", .object [("labels", .object [("kubernetes.io/service-name", .string "web")]),
      ("namespace", .string "test")]),
    ("ports", .array [.object [("name", .string "http"), ("port", .number (.int 8080))]])]

def webEndpoint (address : String) : Json := .object [("addresses", .array [.string address])]

/-- The endpoints of a slice change places, and so do the Nodes. -/
theorem two_endpoints_rules :
    (plan id "server" [webService]
      [webSlice [webEndpoint "10.42.0.2", webEndpoint "10.42.2.2"]]
      [nodeObject "server" "10.42.0.0/24", nodeObject "worker" "10.42.2.0/24"] >>= fun p =>
        p.render id (String.ofList (List.replicate 64 'a'))).toOption =
    (plan id "server" [webService]
      [webSlice [webEndpoint "10.42.2.2", webEndpoint "10.42.0.2"]]
      [nodeObject "worker" "10.42.2.0/24", nodeObject "server" "10.42.0.0/24"] >>= fun p =>
        p.render id (String.ofList (List.replicate 64 'a'))).toOption := by
  apply rules_order_free (.refl _) (.swap _ _ _)
  have hslice : Reordered (webSlice [webEndpoint "10.42.0.2", webEndpoint "10.42.2.2"])
      (webSlice [webEndpoint "10.42.2.2", webEndpoint "10.42.0.2"]) :=
    @Reordered.endpoints [("addressType", .string "IPv4"), ("endpoints", .array
      [webEndpoint "10.42.0.2", webEndpoint "10.42.2.2"]), _, _] _ _ rfl (.swap _ _ _)
  exact ⟨_, .cons hslice .nil, .refl _⟩

end Hedronetes.Proxy
