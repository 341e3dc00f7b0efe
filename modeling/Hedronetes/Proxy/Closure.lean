import Hedronetes.Proxy.Chains
import Hedronetes.Proxy.ListOrder

/-!
# Closed and complete rules

Every chain that is referred to is there once, and a connection to a frontend comes to exactly its
backends.
-/

namespace Hedronetes.Proxy

open Network StableSort Fallible

/-! ## The frontends of a plan -/

/-- No two frontends share a tuple or a chain. -/
structure Separate (frontends : List Frontend) : Prop where
  tuples : (frontends.map Frontend.tuple).Nodup
  ids : (frontends.map Frontend.id).Nodup
  named : ∀ s ∈ frontends, ∃ text, s.id = "svc_" ++ text

/-- What the frontends so far take has been claimed. -/
structure Progress.Claims (progress : Progress) : Prop where
  separate : Separate progress.frontends
  tuples : ∀ s ∈ progress.frontends, s.tuple ∈ progress.tuples
  ids : ∀ s ∈ progress.frontends, s.id ∈ progress.ids

section Claims

variable {digest : String → String} {nodeName : String} {service : Service}
  {progress next : Progress} {s : Frontend}

/-- A frontend enters whose tuple and chain have been claimed by it alone. -/
theorem Progress.Claims.push (h : progress.Claims) {claimed : Progress}
    (hfrontends : claimed.frontends = progress.frontends ++ [s])
    (htuples : claimed.tuples = insert s.tuple progress.tuples)
    (hids : claimed.ids = insert s.id progress.ids) (hname : ∃ text, s.id = "svc_" ++ text)
    (htuple : s.tuple ∉ progress.tuples) (hid : s.id ∉ progress.ids) : claimed.Claims := by
  have hnodup : ∀ {β : Type} (f : Frontend → β), (progress.frontends.map f).Nodup →
      (∀ t ∈ progress.frontends, f t ≠ f s) → (claimed.frontends.map f).Nodup := by
    intro β f hf hne
    rw [hfrontends, List.map_append, List.map_singleton]
    apply List.Nodup.append hf (List.nodup_singleton _)
    intro b hb hs
    obtain ⟨t, ht, rfl⟩ := List.mem_map.mp hb
    exact hne t ht (List.mem_singleton.mp hs)
  constructor
  · constructor
    · exact hnodup _ h.separate.tuples fun t ht heq => htuple (heq ▸ h.tuples t ht)
    · exact hnodup _ h.separate.ids fun t ht heq => hid (heq ▸ h.ids t ht)
    · intro t ht
      rw [hfrontends] at ht
      rcases List.mem_append.mp ht with ht | ht
      · exact h.separate.named t ht
      · exact List.mem_singleton.mp ht ▸ hname
  · intro t ht
    rw [hfrontends] at ht
    rw [htuples]
    rcases List.mem_append.mp ht with ht | ht
    · exact Finset.mem_insert_of_mem (h.tuples t ht)
    · exact List.mem_singleton.mp ht ▸ Finset.mem_insert_self _ _
  · intro t ht
    rw [hfrontends] at ht
    rw [hids]
    rcases List.mem_append.mp ht with ht | ht
    · exact Finset.mem_insert_of_mem (h.ids t ht)
    · exact List.mem_singleton.mp ht ▸ Finset.mem_insert_self _ _

theorem claimTuple_ok {tuple : Tuple} (h : progress.claimTuple tuple = .ok next) :
    tuple ∉ progress.tuples ∧ next = { progress with tuples := insert tuple progress.tuples } := by
  unfold Progress.claimTuple at h
  by_cases hmem : tuple ∈ progress.tuples
  · rw [if_pos hmem] at h
    cases h
  · rw [if_neg hmem] at h
    exact ⟨hmem, (Except.ok.inj h).symm⟩

theorem claimId_ok {id : String} (h : progress.claimId id = .ok next) :
    id ∉ progress.ids ∧ next = { progress with ids := insert id progress.ids } := by
  unfold Progress.claimId at h
  by_cases hmem : id ∈ progress.ids
  · rw [if_pos hmem] at h
    cases h
  · rw [if_neg hmem] at h
    exact ⟨hmem, (Except.ok.inj h).symm⟩

theorem addNode_claims {number : ℕ} {protocol : Protocol} {backends : Finset Backend} {nodeIp : ℕ}
    (h : service.addNode digest number protocol backends progress nodeIp = .ok next)
    (hprogress : progress.Claims) : next.Claims := by
  obtain ⟨claimed, hclaimed, h⟩ := bind_eq_ok.mp h
  obtain ⟨named, hnamed, h⟩ := bind_eq_ok.mp h
  obtain ⟨htuple, rfl⟩ := claimTuple_ok hclaimed
  obtain ⟨hid, rfl⟩ := claimId_ok hnamed
  obtain rfl := Except.ok.inj h
  exact hprogress.push (s := service.nodeFrontend digest number protocol backends nodeIp)
    rfl rfl rfl ⟨_, rfl⟩ htuple hid

theorem addNodes_claims {nodeIps : List ℕ} {p : Json} {protocol : Protocol}
    {backends : Finset Backend}
    (h : service.addNodes digest nodeIps p protocol backends progress = .ok next)
    (hprogress : progress.Claims) : next.Claims := by
  unfold Service.addNodes at h
  by_cases htype : service.spec["type"] = .string "NodePort"
  · rw [if_pos htype] at h
    obtain ⟨number, -, h⟩ := bind_eq_ok.mp h
    obtain ⟨_, -, h⟩ := bind_eq_ok.mp h
    exact foldlM_invariant h hprogress fun _ _ _ => addNode_claims
  · rw [if_neg htype] at h
    exact Except.ok.inj h ▸ hprogress

theorem publish_claims {nodeIps : List ℕ} {bySvc : List ((String × String) × Json)} {p : Json}
    {servicePort : ℕ} {protocol : Protocol}
    (h : service.publish digest nodeName nodeIps bySvc p servicePort protocol progress = .ok next)
    (hprogress : progress.Claims) : next.Claims := by
  obtain ⟨claimed, hclaimed, h⟩ := bind_eq_ok.mp h
  obtain ⟨found, -, h⟩ := bind_eq_ok.mp h
  obtain ⟨entered, hentered, h⟩ := bind_eq_ok.mp h
  obtain ⟨named, hnamed, hentered⟩ := bind_eq_ok.mp hentered
  obtain ⟨htuple, rfl⟩ := claimTuple_ok hclaimed
  obtain ⟨hid, rfl⟩ := claimId_ok hnamed
  obtain rfl := Except.ok.inj hentered
  apply addNodes_claims h
  exact hprogress.push (s := service.clusterFrontend digest servicePort protocol found.backends)
    rfl rfl rfl ⟨_, rfl⟩ htuple hid

theorem addService_claims {nodeIps : List ℕ} {bySvc : List ((String × String) × Json)} {v : Json}
    (h : addService digest nodeName nodeIps bySvc progress v = .ok next)
    (hprogress : progress.Claims) : next.Claims := by
  unfold addService at h
  by_cases hskip : skipped v = true
  · rw [if_pos hskip] at h
    exact Except.ok.inj h ▸ hprogress
  · rw [if_neg hskip] at h
    obtain ⟨service, -, h⟩ := bind_eq_ok.mp h
    apply foldlM_invariant h hprogress
    intro progress p next hport hprogress
    obtain ⟨servicePort, -, hport⟩ := bind_eq_ok.mp hport
    obtain ⟨protocol, -, hport⟩ := bind_eq_ok.mp hport
    obtain ⟨published, hpublished, hport⟩ := bind_eq_ok.mp hport
    obtain ⟨_, -, hport⟩ := bind_eq_ok.mp hport
    exact Except.ok.inj hport ▸ publish_claims hpublished hprogress

/-- The frontends of a plan take a tuple and a chain each. -/
theorem plan_separate {services slices nodes : List Json} {p : Plan}
    (h : plan digest nodeName services slices nodes = .ok p) : Separate p.services := by
  obtain ⟨_, -, h⟩ := bind_eq_ok.mp h
  obtain ⟨cluster, -, h⟩ := bind_eq_ok.mp h
  obtain ⟨_, -, h⟩ := bind_eq_ok.mp h
  obtain ⟨_, -, h⟩ := bind_eq_ok.mp h
  obtain ⟨bySvc, -, h⟩ := bind_eq_ok.mp h
  obtain ⟨progress, hprogress, h⟩ := bind_eq_ok.mp h
  obtain rfl := Except.ok.inj h
  have hstart : Progress.start.Claims :=
    ⟨⟨List.nodup_nil, List.nodup_nil, by simp [Progress.start]⟩, by simp [Progress.start],
      by simp [Progress.start]⟩
  have hclaims := foldlM_invariant hprogress hstart fun _ _ _ => addService_claims
  have hperm := perm_sortBy Frontend.id progress.frontends
  exact ⟨(hperm.map _).nodup_iff.mpr hclaims.separate.tuples,
    (hperm.map _).nodup_iff.mpr hclaims.separate.ids,
    fun s hs => hclaims.separate.named s (hperm.mem_iff.mp hs)⟩

end Claims

/-! ## What is referred to -/

def Rule.targets : Rule → List String
  | .jump chain => [chain]
  | .frontend _ (.jump chain) => [chain]
  | .balance _ chains => chains.map Prod.snd
  | _ => []

/-- A rule for a frontend's tuple. -/
def Rule.concerns (tuple : Tuple) : Rule → Bool
  | .frontend other _ => other = tuple
  | _ => false

def Ruleset.names (chains : Ruleset) : List String := chains.map Chain.name

/-- The rules of the chains of a name. -/
def Ruleset.rulesOf (chains : Ruleset) (name : String) : List Rule :=
  (chains.filter fun chain => chain.name = name).flatMap Chain.rules

/-- A connection that comes to the chain may be sent to the backend. -/
inductive Reaches (chains : Ruleset) (tuple : Tuple) (b : Backend) : String → Prop
  | dnat {name : String} (h : .dnat tuple.2.2 b ∈ chains.rulesOf name) : Reaches chains tuple b name
  | jump {name target : String} (h : .jump target ∈ chains.rulesOf name)
      (hnext : Reaches chains tuple b target) : Reaches chains tuple b name
  | frontend {name target : String} (h : .frontend tuple (.jump target) ∈ chains.rulesOf name)
      (hnext : Reaches chains tuple b target) : Reaches chains tuple b name
  | balance {name : String} {size : ℕ} {entries : List (ℕ × String)} {entry : ℕ × String}
      (h : .balance size entries ∈ chains.rulesOf name) (hentry : entry ∈ entries)
      (hsize : entry.1 < size) (hnext : Reaches chains tuple b entry.2) :
      Reaches chains tuple b name

/-- Where a rule sends a connection, and what becomes of it there. -/
def Rule.Leads (tuple : Tuple) (b : Backend) (next : String → Prop) : Rule → Prop
  | .dnat protocol backend => tuple.2.2 = protocol ∧ b = backend
  | .jump target => next target
  | .frontend other (.jump target) => tuple = other ∧ next target
  | .balance size entries => ∃ entry ∈ entries, entry.1 < size ∧ next entry.2
  | _ => False

theorem reaches_iff {chains : Ruleset} {tuple : Tuple} {b : Backend} {name : String} :
    Reaches chains tuple b name ↔
      ∃ rule ∈ chains.rulesOf name, rule.Leads tuple b (Reaches chains tuple b) := by
  constructor
  · intro h
    cases h with
    | dnat h => exact ⟨_, h, rfl, rfl⟩
    | jump h hnext => exact ⟨_, h, hnext⟩
    | frontend h hnext => exact ⟨_, h, rfl, hnext⟩
    | balance h hentry hsize hnext => exact ⟨_, h, _, hentry, hsize, hnext⟩
  · rintro ⟨rule, h, hleads⟩
    cases rule with
    | dnat protocol backend =>
      obtain ⟨rfl, rfl⟩ := hleads
      exact .dnat h
    | jump target => exact .jump h hleads
    | frontend other verdict =>
      cases verdict with
      | jump target =>
        obtain ⟨rfl, hnext⟩ := hleads
        exact .frontend h hnext
      | reject => exact hleads.elim
      | drop => exact hleads.elim
    | balance size entries =>
      obtain ⟨entry, hentry, hsize, hnext⟩ := hleads
      exact .balance h hentry hsize hnext
    | outside other cidrs => exact hleads.elim
    | hairpin other backend => exact hleads.elim

theorem reaches_one {chains : Ruleset} {tuple : Tuple} {b : Backend} {name : String} {rule : Rule}
    (h : chains.rulesOf name = [rule]) :
    Reaches chains tuple b name ↔ rule.Leads tuple b (Reaches chains tuple b) := by
  rw [reaches_iff, h]
  simp only [List.mem_singleton, exists_eq_left]

/-- Of elements that a key tells apart, one has the key. -/
theorem filter_key {α β : Type} [DecidableEq β] {key : α → β} {l : List α} {a : α}
    (hnodup : (l.map key).Nodup) (h : a ∈ l) : l.filter (fun b => key b = key a) = [a] := by
  obtain ⟨before, after, rfl⟩ := List.append_of_mem h
  rw [List.map_append, List.map_cons, List.nodup_append_comm, List.cons_append, List.nodup_cons,
    List.mem_append, not_or] at hnodup
  have hothers : ∀ {m : List α}, key a ∉ m.map key → m.filter (fun b => key b = key a) = [] := by
    intro m hm
    apply List.filter_eq_nil_iff.mpr
    intro b hb heq
    exact hm (List.mem_map.mpr ⟨b, hb, of_decide_eq_true heq⟩)
  rw [List.filter_append, hothers hnodup.1.2, List.nil_append, List.filter_cons_of_pos (by simp),
    hothers hnodup.1.1]

theorem Ruleset.rulesOf_eq {chains : Ruleset} (chain : Chain) (hnodup : chains.names.Nodup)
    (h : chain ∈ chains) : chains.rulesOf chain.name = chain.rules := by
  unfold Ruleset.rulesOf
  rw [filter_key hnodup h, List.flatMap_singleton]

/-! ## Chain names -/

section Names

variable {digest : String → String} {p : Plan} {s t : Frontend} {b c : Backend}

def endpointText (s : Frontend) (b : Backend) : String :=
  ":".intercalate [s.id, Ipv4.print b.ip, toString b.port]

/-- The digests in the names of the plan's backend chains have no collisions. -/
def NoCollisions (digest : String → String) (p : Plan) : Prop :=
  ∀ s ∈ p.services, ∀ t ∈ p.services, ∀ b ∈ s.backends, ∀ c ∈ t.backends,
    digest (endpointText s b) = digest (endpointText t c) → endpointText s b = endpointText t c

theorem colon_notMem_print (ip : ℕ) : ':' ∉ (Ipv4.print ip).toList := by
  have hdigits := Ipv4.notMem_toDigits (show ':'.isDigit = false by decide)
  rw [Ipv4.print, String.toList_ofList]
  simp [Ipv4.octets, List.intercalate, hdigits]

/-- The text names the frontend's chain, the address and the port. -/
theorem endpointText_inj (h : endpointText s b = endpointText t c) : s.id = t.id ∧ b = c := by
  have hlists := congrArg String.toList h
  unfold endpointText at hlists
  rw [String.toList_intercalate, String.toList_intercalate] at hlists
  have hport : ∀ n : ℕ, (toString n).toList = Nat.toDigits 10 n := fun n => Nat.toList_repr
  simp only [List.map_cons, List.map_nil, hport] at hlists
  have hreverse : (Nat.toDigits 10 b.port).reverse ++
      ':' :: ((Ipv4.print b.ip).toList.reverse ++ ':' :: s.id.toList.reverse) =
        (Nat.toDigits 10 c.port).reverse ++
          ':' :: ((Ipv4.print c.ip).toList.reverse ++ ':' :: t.id.toList.reverse) := by
    simpa [List.intercalate] using congrArg List.reverse hlists
  have hdigits : ∀ n : ℕ, ':' ∉ (Nat.toDigits 10 n).reverse := by
    intro n hmem
    exact Ipv4.notMem_toDigits (show ':'.isDigit = false by decide) n (List.mem_reverse.mp hmem)
  obtain ⟨hports, hrest⟩ := FirstMatch.split_inj (hdigits _) (hdigits _) hreverse
  have hprint : ∀ ip : ℕ, ':' ∉ (Ipv4.print ip).toList.reverse := by
    intro ip hmem
    exact colon_notMem_print ip (List.mem_reverse.mp hmem)
  obtain ⟨hips, hids⟩ := FirstMatch.split_inj (hprint _) (hprint _) hrest
  have hip := Ipv4.print_inj (String.toList_inj.mp (List.reverse_inj.mp hips))
  have hnumber := Ipv4.toDigits_inj (List.reverse_inj.mp hports)
  refine ⟨String.toList_inj.mp (List.reverse_inj.mp hids), ?_⟩
  cases b
  cases c
  exact congrArg₂ Backend.mk hip hnumber

theorem mem_ordered : b ∈ s.ordered ↔ b ∈ s.backends := Finset.mem_sort _

theorem mem_serving {services : List Frontend} :
    s ∈ serving services ↔ s ∈ services ∧ s.backends ≠ ∅ := by
  simp [serving]

/-- The name of a backend's chain is none of the others. -/
theorem endpointChain_ne {text : String} : endpointChain digest s b ≠ "svc_" ++ text := by
  intro h
  have hlists := congrArg (fun s : String => s.toList.head?) h
  unfold endpointChain at hlists
  simp at hlists

/-- A backend's chain is that of its frontend. -/
theorem endpointChain_inj (hdigest : NoCollisions digest p) (hs : s ∈ p.services)
    (ht : t ∈ p.services) (hb : b ∈ s.backends) (hc : c ∈ t.backends)
    (h : endpointChain digest s b = endpointChain digest t c) : s.id = t.id ∧ b = c := by
  unfold endpointChain at h
  have hlists := congrArg String.toList h
  rw [String.toList_append, String.toList_append] at hlists
  have htext := String.toList_inj.mp (List.append_cancel_left hlists)
  exact endpointText_inj (hdigest s hs t ht b hb c hc htext)

/-- The chains of a frontend have names of their own. -/
def ownNames (digest : String → String) (s : Frontend) : List String :=
  s.id :: s.ordered.map (endpointChain digest s)

theorem names_ruleset : (p.ruleset digest).names = ["nat_prerouting", "nat_output", "services",
    "reject_input", "reject_forward", "reject_output", "postrouting"] ++
      (serving p.services).flatMap (ownNames digest) := by
  unfold Ruleset.names Plan.ruleset
  rw [List.map_append, List.map_flatMap]
  congr 1
  apply List.flatMap_congr
  intro s _
  rw [List.map_cons, List.map_map]
  rfl

theorem mem_ownNames {name : String} (hplan : Separate p.services) (hs : s ∈ p.services)
    (h : name ∈ ownNames digest s) :
    (∃ text, name = "svc_" ++ text) ∨ ∃ text, name = "ep_" ++ text := by
  rcases List.mem_cons.mp h with rfl | h
  · exact .inl (hplan.named s hs)
  · obtain ⟨b, -, rfl⟩ := List.mem_map.mp h
    exact .inr ⟨_, rfl⟩

/-- The chains of two frontends have different names. -/
theorem ownNames_disjoint (hplan : Separate p.services) (hdigest : NoCollisions digest p)
    (hs : s ∈ p.services) (ht : t ∈ p.services) (hne : s.id ≠ t.id) :
    (ownNames digest s).Disjoint (ownNames digest t) := by
  intro name hname hname'
  rcases List.mem_cons.mp hname with rfl | hname
  · rcases List.mem_cons.mp hname' with heq | hname'
    · exact hne heq
    · obtain ⟨c, -, hc⟩ := List.mem_map.mp hname'
      obtain ⟨text, htext⟩ := hplan.named s hs
      exact endpointChain_ne (hc.trans htext)
  · obtain ⟨b, hb, rfl⟩ := List.mem_map.mp hname
    rcases List.mem_cons.mp hname' with heq | hname'
    · obtain ⟨text, htext⟩ := hplan.named t ht
      exact endpointChain_ne (heq.trans htext)
    · obtain ⟨c, hc, heq⟩ := List.mem_map.mp hname'
      exact hne (endpointChain_inj hdigest hs ht (mem_ordered.mp hb) (mem_ordered.mp hc) heq.symm).1

theorem names_nodup (hplan : Separate p.services) (hdigest : NoCollisions digest p) :
    (p.ruleset digest).names.Nodup := by
  rw [names_ruleset]
  apply List.Nodup.append
  · decide
  · rw [List.nodup_flatMap]
    constructor
    · intro s hs
      obtain ⟨hs, -⟩ := mem_serving.mp hs
      obtain ⟨text, htext⟩ := hplan.named s hs
      apply List.nodup_cons.mpr
      constructor
      · intro hmem
        obtain ⟨b, -, hb⟩ := List.mem_map.mp hmem
        exact endpointChain_ne (hb.trans htext)
      · apply List.Nodup.map_on _ (Finset.sort_nodup _ _)
        intro b hb c hc heq
        exact (endpointChain_inj hdigest hs hs (mem_ordered.mp hb) (mem_ordered.mp hc) heq).2
    · have hids : (serving p.services).Pairwise fun s t => s.id ≠ t.id :=
        (List.pairwise_map.mp hplan.ids).filter _
      apply hids.imp_of_mem
      intro s t hs ht hne
      exact ownNames_disjoint hplan hdigest (mem_serving.mp hs).1 (mem_serving.mp ht).1 hne
  · intro name hfixed hmem
    obtain ⟨s, hs, hname⟩ := List.mem_flatMap.mp hmem
    have hplain : ∀ name ∈ ["nat_prerouting", "nat_output", "services", "reject_input",
        "reject_forward", "reject_output", "postrouting"],
        ¬ "svc_".toList <+: name.toList ∧ ¬ "ep_".toList <+: name.toList := by decide
    obtain ⟨hsvc, hep⟩ := hplain name hfixed
    rcases mem_ownNames hplan (mem_serving.mp hs).1 hname with ⟨text, rfl⟩ | ⟨text, rfl⟩
    · exact hsvc ⟨text.toList, String.toList_append.symm⟩
    · exact hep ⟨text.toList, String.toList_append.symm⟩

end Names

/-! ## The rules of each chain -/

section Rules

variable {digest : String → String} {p : Plan} {s : Frontend} {b c : Backend} {tuple : Tuple}
  {hook : String}

theorem rulesOf_nat (hnodup : (p.ruleset digest).names.Nodup) (h : hook ∈ ["prerouting", "output"]) :
    (p.ruleset digest).rulesOf ("nat_" ++ hook) = [.jump "services"] := by
  apply Ruleset.rulesOf_eq (natChain hook) hnodup
  unfold Plan.ruleset
  simp only [List.mem_append]
  exact .inl (.inl (.inl (.inl (List.mem_map_of_mem h))))

theorem rulesOf_services (hnodup : (p.ruleset digest).names.Nodup) :
    (p.ruleset digest).rulesOf "services" =
      (serving p.services).map fun s => .frontend s.tuple (.jump s.id) := by
  apply Ruleset.rulesOf_eq (servicesChain p.services) hnodup
  unfold Plan.ruleset
  simp only [List.mem_append]
  exact .inl (.inl (.inl (.inr (List.mem_singleton.mpr rfl))))

theorem rulesOf_reject (hnodup : (p.ruleset digest).names.Nodup)
    (h : hook ∈ ["input", "forward", "output"]) :
    (p.ruleset digest).rulesOf ("reject_" ++ hook) =
      (idle p.services).map fun s => .frontend s.tuple s.refusal := by
  apply Ruleset.rulesOf_eq (rejectChain p.services hook) hnodup
  unfold Plan.ruleset
  simp only [List.mem_append]
  exact .inl (.inl (.inr (List.mem_map_of_mem h)))

theorem mem_ruleset_own {chain : Chain} (hs : s ∈ serving p.services)
    (h : chain ∈ s.chain digest :: s.ordered.map (s.backendChain digest)) :
    chain ∈ p.ruleset digest := by
  unfold Plan.ruleset
  rw [List.mem_append]
  exact .inr (List.mem_flatMap.mpr ⟨s, hs, h⟩)

theorem rulesOf_frontend (hnodup : (p.ruleset digest).names.Nodup) (hs : s ∈ serving p.services) :
    (p.ruleset digest).rulesOf s.id = [s.balanceRule digest] :=
  Ruleset.rulesOf_eq (s.chain digest) hnodup (mem_ruleset_own hs List.mem_cons_self)

theorem rulesOf_backend (hnodup : (p.ruleset digest).names.Nodup) (hs : s ∈ serving p.services)
    (hb : b ∈ s.backends) :
    (p.ruleset digest).rulesOf (endpointChain digest s b) = [.dnat s.protocol b] :=
  Ruleset.rulesOf_eq (s.backendChain digest b) hnodup (mem_ruleset_own hs
    (List.mem_cons_of_mem _ (List.mem_map_of_mem (mem_ordered.mpr hb))))

/-- The chains of a frontend's backends, in their order. -/
def backendNames (digest : String → String) (s : Frontend) : List String :=
  s.ordered.map (endpointChain digest s)

theorem balanceRule_cases (digest : String → String) (s : Frontend) :
    (∃ name, backendNames digest s = [name] ∧ s.balanceRule digest = .jump name) ∨
      (backendNames digest s).length ≠ 1 ∧ s.balanceRule digest =
        .balance s.backends.card ((backendNames digest s).zipIdx.map Prod.swap) := by
  have hzip : s.ordered.zipIdx.map (fun e => (e.2, endpointChain digest s e.1)) =
      (backendNames digest s).zipIdx.map Prod.swap := by
    unfold backendNames
    rw [List.zipIdx_map, List.map_map]
    rfl
  unfold Frontend.balanceRule
  cases hordered : s.ordered with
  | nil => exact .inr ⟨by simp [backendNames, hordered], by rw [← hzip, hordered]⟩
  | cons b rest =>
    cases rest with
    | nil => exact .inl ⟨_, by simp [backendNames, hordered], rfl⟩
    | cons c rest => exact .inr ⟨by simp [backendNames, hordered], by rw [← hzip, hordered]⟩

/-! ## Where connections come to -/

theorem reaches_backend (hnodup : (p.ruleset digest).names.Nodup) (hs : s ∈ serving p.services)
    (hb : b ∈ s.backends) :
    Reaches (p.ruleset digest) tuple c (endpointChain digest s b) ↔
      tuple.2.2 = s.protocol ∧ c = b :=
  reaches_one (rulesOf_backend hnodup hs hb)

/-- One of the chains of a frontend's backends leads to the backend. -/
theorem reaches_names (hnodup : (p.ruleset digest).names.Nodup) (hs : s ∈ serving p.services) :
    (∃ name ∈ backendNames digest s, Reaches (p.ruleset digest) tuple c name) ↔
      tuple.2.2 = s.protocol ∧ c ∈ s.backends := by
  constructor
  · rintro ⟨name, hname, h⟩
    obtain ⟨b, hb, rfl⟩ := List.mem_map.mp hname
    have hb := mem_ordered.mp hb
    obtain ⟨hprotocol, rfl⟩ := (reaches_backend hnodup hs hb).mp h
    exact ⟨hprotocol, hb⟩
  · rintro ⟨hprotocol, hc⟩
    exact ⟨_, List.mem_map_of_mem (mem_ordered.mpr hc),
      (reaches_backend hnodup hs hc).mpr ⟨hprotocol, rfl⟩⟩

theorem length_backendNames (s : Frontend) :
    (backendNames digest s).length = s.backends.card := by
  unfold backendNames Frontend.ordered
  rw [List.length_map, Finset.length_sort]

theorem reaches_frontend (hnodup : (p.ruleset digest).names.Nodup) (hs : s ∈ serving p.services) :
    Reaches (p.ruleset digest) tuple c s.id ↔ tuple.2.2 = s.protocol ∧ c ∈ s.backends := by
  rw [reaches_one (rulesOf_frontend hnodup hs), ← reaches_names hnodup hs]
  rcases balanceRule_cases digest s with ⟨name, hnames, hrule⟩ | ⟨-, hrule⟩
  · rw [hrule, hnames]
    simp only [Rule.Leads, List.mem_singleton, exists_eq_left]
  · rw [hrule]
    constructor
    · rintro ⟨entry, hentry, -, hnext⟩
      obtain ⟨e, he, rfl⟩ := List.mem_map.mp hentry
      exact ⟨e.1, List.fst_mem_of_mem_zipIdx he, hnext⟩
    · rintro ⟨name, hname, hnext⟩
      obtain ⟨i, hi⟩ := List.mem_iff_getElem?.mp hname
      have hbound := (List.getElem?_eq_some_iff.mp hi).1
      rw [length_backendNames] at hbound
      exact ⟨(i, name), List.mem_map.mpr ⟨(name, i), List.mem_zipIdx_iff_getElem?.mpr hi, rfl⟩,
        hbound, hnext⟩

theorem reaches_services (hnodup : (p.ruleset digest).names.Nodup) :
    Reaches (p.ruleset digest) tuple c "services" ↔
      ∃ s ∈ p.services, s.tuple = tuple ∧ c ∈ s.backends := by
  rw [reaches_iff, rulesOf_services hnodup]
  constructor
  · rintro ⟨rule, hrule, hleads⟩
    obtain ⟨s, hs, rfl⟩ := List.mem_map.mp hrule
    obtain ⟨rfl, hnext⟩ := hleads
    exact ⟨s, (mem_serving.mp hs).1, rfl, ((reaches_frontend hnodup hs).mp hnext).2⟩
  · rintro ⟨s, hs, rfl, hc⟩
    have hserving := mem_serving.mpr ⟨hs, Finset.ne_empty_of_mem hc⟩
    exact ⟨_, List.mem_map_of_mem hserving, rfl, (reaches_frontend hnodup hserving).mpr ⟨rfl, hc⟩⟩

/-- A new connection comes to the backends of its frontend. -/
theorem reaches_nat (hnodup : (p.ruleset digest).names.Nodup) (h : hook ∈ ["prerouting", "output"]) :
    Reaches (p.ruleset digest) tuple c ("nat_" ++ hook) ↔
      ∃ s ∈ p.services, s.tuple = tuple ∧ c ∈ s.backends :=
  (reaches_one (rulesOf_nat hnodup h)).trans (reaches_services hnodup)

/-! ## One rule for a frontend -/

/-- Of rules for the tuples of frontends, those for one of the tuples are one. -/
theorem filter_concerns (hplan : Separate p.services) {verdict : Frontend → Verdict}
    {q : Frontend → Bool} (hs : s ∈ p.services) :
    ((p.services.filter q).map fun t => Rule.frontend t.tuple (verdict t)).filter
        (Rule.concerns s.tuple) = if q s then [.frontend s.tuple (verdict s)] else [] := by
  have hown : Rule.concerns s.tuple ∘ (fun t => Rule.frontend t.tuple (verdict t)) =
      fun t => decide (t.tuple = s.tuple) := rfl
  rw [List.filter_map, hown, List.filter_filter]
  have hswap : (fun t : Frontend => decide (t.tuple = s.tuple) && q t) =
      fun t => q t && decide (t.tuple = s.tuple) := by
    funext t
    exact Bool.and_comm _ _
  rw [hswap, ← List.filter_filter, filter_key hplan.tuples hs]
  cases hq : q s <;> simp [hq]

/-! ## The whole -/

/-- Every chain that is referred to is there once. -/
def Ruleset.Closed (chains : Ruleset) : Prop :=
  ∀ chain ∈ chains, ∀ rule ∈ chain.rules, ∀ target ∈ rule.targets, chains.names.count target = 1

/-- The chain of a frontend sends connections to chains that are numbered from zero, or to the only
one, and these send them to its backends, one each. -/
structure Balances (chains : Ruleset) (s : Frontend) (names : List String) : Prop where
  distinct : names.Nodup
  rule : (∃ name, names = [name] ∧ chains.rulesOf s.id = [.jump name]) ∨
    names.length ≠ 1 ∧
      chains.rulesOf s.id = [.balance s.backends.card (names.zipIdx.map Prod.swap)]
  backends : List.Forall₂ (fun name b => chains.rulesOf name = [.dnat s.protocol b]) names s.ordered

/-- The chains are those of the frontends. -/
structure Complete (services : List Frontend) (chains : Ruleset) : Prop where
  exclusive : (services.map Frontend.tuple).Nodup
  served : ∀ s ∈ services, s.backends ≠ ∅ →
    (chains.rulesOf "services").filter (Rule.concerns s.tuple) =
        [.frontend s.tuple (.jump s.id)] ∧ ∃ names, Balances chains s names
  refused : ∀ s ∈ services, s.backends = ∅ →
    (∀ hook ∈ ["input", "forward", "output"],
      (chains.rulesOf ("reject_" ++ hook)).filter (Rule.concerns s.tuple) =
        [.frontend s.tuple s.refusal]) ∧
      (chains.rulesOf "services").filter (Rule.concerns s.tuple) = []
  reached : ∀ hook ∈ ["prerouting", "output"], ∀ tuple b,
    Reaches chains tuple b ("nat_" ++ hook) ↔ ∃ s ∈ services, s.tuple = tuple ∧ b ∈ s.backends

theorem mem_ruleset {chain : Chain} (h : chain ∈ p.ruleset digest) :
    (∃ hook, chain = natChain hook) ∨ chain = servicesChain p.services ∨
      (∃ hook, chain = rejectChain p.services hook) ∨
        chain = postrouting p.services p.podCidrText ∨
          ∃ s ∈ serving p.services, chain = s.chain digest ∨ ∃ b, chain = s.backendChain digest b := by
  unfold Plan.ruleset at h
  simp only [List.mem_append] at h
  rcases h with (((h | h) | h) | h) | h
  · obtain ⟨hook, -, rfl⟩ := List.mem_map.mp h
    exact .inl ⟨hook, rfl⟩
  · exact .inr (.inl (List.mem_singleton.mp h))
  · obtain ⟨hook, -, rfl⟩ := List.mem_map.mp h
    exact .inr (.inr (.inl ⟨hook, rfl⟩))
  · exact .inr (.inr (.inr (.inl (List.mem_singleton.mp h))))
  · obtain ⟨s, hs, h⟩ := List.mem_flatMap.mp h
    refine .inr (.inr (.inr (.inr ⟨s, hs, ?_⟩)))
    rcases List.mem_cons.mp h with rfl | h
    · exact .inl rfl
    · obtain ⟨b, -, rfl⟩ := List.mem_map.mp h
      exact .inr ⟨b, rfl⟩

theorem targets_balanceRule {target : String} (h : target ∈ (s.balanceRule digest).targets) :
    target ∈ backendNames digest s := by
  rcases balanceRule_cases digest s with ⟨name, hnames, hrule⟩ | ⟨-, hrule⟩
  · rw [hrule] at h
    rw [hnames]
    exact h
  · rw [hrule] at h
    obtain ⟨entry, hentry, rfl⟩ := List.mem_map.mp h
    obtain ⟨e, he, rfl⟩ := List.mem_map.mp hentry
    exact List.fst_mem_of_mem_zipIdx he

theorem ruleset_closed (hplan : Separate p.services) (hdigest : NoCollisions digest p) :
    (p.ruleset digest).Closed := by
  have hnodup := names_nodup hplan hdigest
  intro chain hchain rule hrule target htarget
  apply List.count_eq_one_of_mem hnodup
  rw [names_ruleset]
  have hown : ∀ s ∈ serving p.services, target ∈ ownNames digest s →
      target ∈ (serving p.services).flatMap (ownNames digest) := fun s hs hmem =>
    List.mem_flatMap.mpr ⟨s, hs, hmem⟩
  rcases mem_ruleset hchain with ⟨hook, rfl⟩ | rfl | ⟨hook, rfl⟩ | rfl | ⟨s, hs, rfl | ⟨b, rfl⟩⟩
  · obtain rfl := List.mem_singleton.mp hrule
    obtain rfl := List.mem_singleton.mp htarget
    exact List.mem_append_left _ (by decide)
  · obtain ⟨s, hs, rfl⟩ := List.mem_map.mp hrule
    obtain rfl := List.mem_singleton.mp htarget
    exact List.mem_append_right _ (hown s hs List.mem_cons_self)
  · obtain ⟨s, -, rfl⟩ := List.mem_map.mp hrule
    unfold Frontend.refusal at htarget
    by_cases hlocal : s.localOnly = true
    · rw [if_pos hlocal] at htarget
      cases htarget
    · rw [if_neg hlocal] at htarget
      cases htarget
  · obtain ⟨s, -, hrule⟩ := List.mem_flatMap.mp hrule
    rcases List.mem_cons.mp hrule with rfl | hrule
    · cases htarget
    · obtain ⟨b, -, rfl⟩ := List.mem_map.mp hrule
      cases htarget
  · obtain rfl := List.mem_singleton.mp hrule
    exact List.mem_append_right _
      (hown s hs (List.mem_cons_of_mem _ (targets_balanceRule htarget)))
  · obtain rfl := List.mem_singleton.mp hrule
    cases htarget

theorem ruleset_complete (hplan : Separate p.services) (hdigest : NoCollisions digest p) :
    Complete p.services (p.ruleset digest) := by
  have hnodup := names_nodup hplan hdigest
  constructor
  · exact hplan.tuples
  · intro s hs hbackends
    have hserving := mem_serving.mpr ⟨hs, hbackends⟩
    constructor
    · rw [rulesOf_services hnodup]
      exact (filter_concerns hplan hs).trans (if_pos (by simpa using hbackends))
    · refine ⟨backendNames digest s, ?_, ?_, ?_⟩
      · have hown : (ownNames digest s).Nodup := by
          rw [names_ruleset] at hnodup
          exact (List.nodup_flatMap.mp hnodup.of_append_right).1 s hserving
        exact (List.nodup_cons.mp hown).2
      · rw [rulesOf_frontend hnodup hserving]
        rcases balanceRule_cases digest s with ⟨name, hnames, hrule⟩ | ⟨hmany, hrule⟩
        · exact .inl ⟨name, hnames, by rw [hrule]⟩
        · exact .inr ⟨hmany, by rw [hrule]⟩
      · unfold backendNames
        rw [List.forall₂_map_left_iff, List.forall₂_same]
        intro b hb
        exact rulesOf_backend hnodup hserving (mem_ordered.mp hb)
  · intro s hs hbackends
    constructor
    · intro hook hhook
      rw [rulesOf_reject hnodup hhook]
      exact (filter_concerns hplan hs).trans (if_pos (by simpa using hbackends))
    · rw [rulesOf_services hnodup]
      exact (filter_concerns hplan hs).trans (if_neg (by simpa using hbackends))
  · intro hook hhook tuple b
    exact reaches_nat hnodup hhook

/-- The rules of every plan are closed, and they serve its frontends completely. -/
theorem rules_complete {nodeName owner text : String} {services slices nodes : List Json}
    (hplan : plan digest nodeName services slices nodes = .ok p)
    (hdigest : NoCollisions digest p) (hrender : p.render digest owner = .ok text) :
    text = (p.ruleset digest).print owner ∧ (p.ruleset digest).Closed ∧
      Complete p.services (p.ruleset digest) := by
  have hseparate := plan_separate hplan
  exact ⟨Plan.render_prints digest hrender, ruleset_closed hseparate hdigest,
    ruleset_complete hseparate hdigest⟩

end Rules

/-! ## A Service with two endpoints -/

deriving instance DecidableEq for Frontend

/-- SHA-256 of the texts that are digested. -/
def webDigest (text : String) : String :=
  if text = "test/web/new-service/10.43.0.10/80/tcp" then
    "d6b42fa3a232b91259c12471627abbcbd9b61e829d1d2196b9f85a948492bb91"
  else if text =
      "svc_d6b42fa3a232b91259c12471627abbcbd9b61e829d1d2196b9f85a948492bb91:10.42.0.2:8080" then
    "cfd7ba2d386857fe7042c4afeb1f016a31459c7cbe56f926c20a3211850a890e"
  else if text =
      "svc_d6b42fa3a232b91259c12471627abbcbd9b61e829d1d2196b9f85a948492bb91:10.42.2.2:8080" then
    "a785ca5ecebe654a14c1c5821103f49a694bbb57387be9858854798747cba2c0"
  else text

def webBackend (third : ℕ) : Backend := ⟨10 * 2 ^ 24 + 42 * 2 ^ 16 + third * 2 ^ 8 + 2, 8080⟩

def webFrontend : Frontend where
  id := "svc_d6b42fa3a232b91259c12471627abbcbd9b61e829d1d2196b9f85a948492bb91"
  ip := 10 * 2 ^ 24 + 43 * 2 ^ 16 + 10
  port := 80
  protocol := .tcp
  localOnly := false
  backends := {webBackend 2, webBackend 0}

def webSlices : List Json := [webSlice [webEndpoint "10.42.0.2", webEndpoint "10.42.2.2"]]

def webNodes : List Json := [nodeObject "server" "10.42.0.0/24"]

def webOwner : String := String.ofList (List.replicate 64 'a')

theorem webFrontend_ordered : webFrontend.ordered = [webBackend 0, webBackend 2] := by
  unfold Frontend.ordered webFrontend
  rw [Finset.pair_comm, Finset.sort_insert _ (by decide) (by decide), Finset.sort_singleton]

def webNet : Net := ⟨10 * 2 ^ 24 + 42 * 2 ^ 16, 24, by decide, by decide⟩

theorem plan_web : ∃ p, plan webDigest "server" [webService] webSlices webNodes = .ok p ∧
    p.podCidrs = {webNet} ∧ p.services = [webFrontend] := by
  have hnodes : webNodes.foldlM (readNode "server") ⟨∅, false, []⟩ =
    .ok ⟨{webNet}, true, []⟩ := rfl
  have hslices : webSlices.foldlM readSlice [] =
    .ok (webSlices.map fun slice => (("test", "web"), slice)) := rfl
  have hservices : ([webService].foldlM (addService webDigest "server" []
      (webSlices.map fun slice => (("test", "web"), slice))) .start).toOption.map
        Progress.frontends = some [webFrontend] := by
    decide +kernel
  obtain ⟨progress, hprogress, hfrontends⟩ := Option.map_eq_some_iff.mp hservices
  have hprogress := toOption_eq_some.mp hprogress
  have hoverlap : overlapping (({webNet} : Finset Net).sort (· ≤ ·)) = false := by
    rw [Finset.sort_singleton]
    rfl
  refine ⟨⟨{webNet}, [webFrontend], progress.warnings, progress.status⟩, ?_, rfl, rfl⟩
  unfold plan
  apply bind_eq_ok.mpr ⟨(), if_pos (by decide +kernel), ?_⟩
  apply bind_eq_ok.mpr ⟨_, hnodes, ?_⟩
  apply bind_eq_ok.mpr ⟨(), if_pos (by rw [hoverlap]; rfl), ?_⟩
  apply bind_eq_ok.mpr ⟨(), rfl, ?_⟩
  apply bind_eq_ok.mpr ⟨_, hslices, ?_⟩
  apply bind_eq_ok.mpr ⟨progress, hprogress, ?_⟩
  rw [hfrontends]
  rfl

theorem web_rules_complete : ∃ p text,
    plan webDigest "server" [webService] webSlices webNodes = .ok p ∧
      p.render webDigest webOwner = .ok text ∧ text = (p.ruleset webDigest).print webOwner ∧
        (p.ruleset webDigest).Closed ∧ Complete p.services (p.ruleset webDigest) := by
  obtain ⟨p, hplan, hcidrs, hservices⟩ := plan_web
  have hdigest : NoCollisions webDigest p := by
    rw [NoCollisions, hservices]
    simp only [List.mem_singleton, forall_eq]
    decide +kernel
  have htext : (p.render webDigest webOwner).toOption.isSome = true := by
    have hprint : p.podCidrText = "10.42.0.0/24" := by
      unfold Plan.podCidrText
      rw [hcidrs, Finset.sort_singleton]
      decide +kernel
    unfold Plan.render Plan.hooks
    rw [hservices, hprint, List.foldlM_cons]
    unfold addChains Frontend.chains Frontend.balance Frontend.masqueradeRules
    simp only [List.map_cons, List.map_nil, webFrontend_ordered]
    decide +kernel
  obtain ⟨text, htext⟩ := Option.isSome_iff_exists.mp htext
  have hrender := toOption_eq_some.mp htext
  exact ⟨p, text, hplan, hrender, rules_complete hplan hdigest hrender⟩

end Hedronetes.Proxy
