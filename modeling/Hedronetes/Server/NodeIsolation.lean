import Hedronetes.Server.Runs
import Hedronetes.Server.Tokens

/-!
# What nodes read and write

A node reads Secrets and ConfigMaps that its Pods refer to, reads and writes its own Pods, and
writes its own Node and its own Lease. The roles of the registry do not change this: where they
allow a node more, the relations and the admission of node writes still hold it.
-/

namespace Hedronetes.Server

open Apply Auth
open Storage (StoreKey startsWith)

variable {lib : Libraries} {fresh : Fresh} {user : User} {request : HttpRequest} {target : Target}
  {reg reg' : Registry} {response : Response} {node v ns name plural : String}
  {selection : Selection} {grant : Grant} {k : StoreKey} {stored : Stored} {value : Json}

/-! ## Relations -/

/-- A Pod of the namespace that is assigned to the node refers to the object. -/
def Refers (reg : Registry) (node ns plural name : String) : Prop :=
  ∃ k stored, (k, stored) ∈ reg.list ("/registry/pods/" ++ ns ++ "/") ∧
    assigned stored.value node = true ∧ references stored.value plural name = true

/-- The named object is a Pod assigned to the node. -/
def OwnPod (reg : Registry) (node : String) (target : Target) : Prop :=
  ∃ k stored, named target = .ok k ∧ reg.get k = some stored ∧ assigned stored.value node = true

theorem assigned_object {pod : Json} (h : object stored = .ok pod) :
    assigned pod node = assigned stored.value node := by
  unfold assigned
  rw [object_ne h (by decide)]

theorem references_object {pod : Json} (h : object stored = .ok pod) :
    references pod plural name = references stored.value plural name := by
  unfold references
  rw [object_ne h (by decide)]

theorem anyRelated_ok {pods : List (StoreKey × Stored)}
    (h : anyRelated node plural name pods = .ok true) : ∃ k stored, (k, stored) ∈ pods ∧
      assigned stored.value node = true ∧ references stored.value plural name = true := by
  induction pods with
  | nil => cases h
  | cons e pods ih =>
    obtain ⟨pod, hpod, h⟩ := Fallible.bind_eq_ok.mp h
    split_ifs at h with hrelated
    · rw [Bool.and_eq_true, assigned_object hpod, references_object hpod] at hrelated
      exact ⟨e.1, e.2, List.mem_cons_self, hrelated⟩
    · obtain ⟨k, stored, hmem, hrelates⟩ := ih h
      exact ⟨k, stored, List.mem_cons_of_mem e hmem, hrelates⟩

/-- The two kinds that a node reads through its Pods only. -/
def IsConfiguration (resource : Resource) : Prop :=
  resource.kind = "Secret" ∨ resource.kind = "ConfigMap"

theorem pod_resource {resource : Resource} (h : resource ∈ resources) (hkind : resource.kind = "Pod") :
    resource = ⟨"", "v1", "pods", "Pod", true⟩ := by
  have hall : ∀ r ∈ resources, r.kind = "Pod" → r = ⟨"", "v1", "pods", "Pod", true⟩ := by decide
  exact hall resource h hkind

theorem configuration_resource {resource : Resource} (h : resource ∈ resources)
    (hkind : IsConfiguration resource) : resource.group = "" ∧
      (resource.plural = "secrets" ∨ resource.plural = "configmaps") := by
  have hall : ∀ r ∈ resources, r.kind = "Secret" ∨ r.kind = "ConfigMap" →
      r.group = "" ∧ (r.plural = "secrets" ∨ r.plural = "configmaps") := by decide
  exact hall resource h hkind

theorem related_configuration {asked : Option String} (hserved : target.resource ∈ resources)
    (hkind : IsConfiguration target.resource) (h : related reg node target asked = .ok true) :
    ∃ ns name, target.ns = some ns ∧ asked = some name ∧
      Refers reg node ns target.resource.plural name := by
  obtain ⟨hgroup, hplural⟩ := configuration_resource hserved hkind
  have hpods : target.resource.plural ≠ "pods" := by
    rcases hplural with h | h <;> rw [h] <;> decide
  unfold related at h
  split at h
  · rename_i ns name hns
    rw [if_neg (not_not.mpr hgroup), if_neg hpods, if_pos hplural] at h
    exact ⟨ns, name, hns, rfl, anyRelated_ok h⟩
  · cases h

theorem related_pod {asked : Option String} (hserved : target.resource ∈ resources)
    (hkind : target.resource.kind = "Pod") (h : related reg node target asked = .ok true) :
    ∃ name, asked = some name ∧ OwnPod reg node { target with name := some name } := by
  have hresource := pod_resource hserved hkind
  unfold related at h
  split at h
  · rename_i ns name hns
    rw [hresource, if_neg (by decide), if_pos rfl] at h
    obtain ⟨k, hk, h⟩ := Fallible.bind_eq_ok.mp h
    cases hget : reg.get k with
    | none =>
      rw [hget] at h
      cases h
    | some stored =>
      rw [hget] at h
      obtain ⟨pod, hpod, h⟩ := Fallible.bind_eq_ok.mp h
      refine ⟨name, rfl, k, stored, ?_, hget, assigned_object hpod ▸ Except.ok.inj h⟩
      rw [named, Target.pathPrefix, hns, hresource]
      exact hk
  · cases h

/-! ## Grants -/

/-- A node's request for one of the kinds that are kept from nodes goes by the relation alone. -/
theorem constrained_ok (hnode : user.nodeName = some node)
    (hkind : target.resource.kind ∈ ["Pod", "Secret", "ConfigMap"])
    (h : resource lib reg user target v selection = .ok grant) :
    ∃ relation, related reg node target (attributes target v selection).name = .ok relation ∧
      nodeAllows user (attributes target v selection) (selection.exactField "spec.nodeName")
        relation = true ∧
      nodeGrant node target v (attributes target v selection) selection = .ok grant := by
  unfold resource at h
  obtain ⟨rbac, _, h⟩ := Fallible.bind_eq_ok.mp h
  obtain ⟨allowed, hallowed, h⟩ := Fallible.bind_eq_ok.mp h
  unfold nodeAllowed at hallowed
  rw [hnode] at hallowed
  obtain ⟨relation, hrelation, hallowed⟩ := Fallible.bind_eq_ok.mp hallowed
  rw [← Except.ok.inj hallowed] at h
  rw [hnode, Option.isSome_some, Bool.true_and, decide_eq_true hkind] at h
  refine ⟨relation, hrelation, ?_⟩
  cases hallows : nodeAllows user (attributes target v selection)
    (selection.exactField "spec.nodeName") relation with
  | false =>
    rw [hallows] at h
    cases h
  | true =>
    rw [hallows] at h
    exact ⟨rfl, h⟩

theorem nodeAllows_pod {asked : ResourceRequest} {selected : Option String} {relation : Bool}
    (hnode : user.nodeName = some node) (hgroup : asked.group = "") (hpods : asked.resource = "pods")
    (h : nodeAllows user asked selected relation = true) :
    (asked.subresource = some "status" ∧ (asked.verb = "update" ∨ asked.verb = "patch")) ∨
      asked.subresource = none ∧ ((asked.verb = "get" ∨ asked.verb = "delete") ∧ relation = true ∨
        asked.verb = "list" ∨ asked.verb = "watch") := by
  unfold nodeAllows at h
  rw [hnode, hgroup, hpods] at h
  cases hsub : asked.subresource with
  | none =>
    rw [hsub] at h
    dsimp only at h
    split at h
    all_goals try (simp_all; done)
    -- the verbs on Pods
    split at h <;> simp_all
  | some sub =>
    rw [hsub] at h
    dsimp only at h
    split at h <;> simp_all

theorem nodeAllows_configuration {asked : ResourceRequest} {selected : Option String}
    {relation : Bool} (hnode : user.nodeName = some node) (hgroup : asked.group = "")
    (hplural : asked.resource = "secrets" ∨ asked.resource = "configmaps")
    (h : nodeAllows user asked selected relation = true) : asked.subresource = none ∧
      asked.verb ∈ ["get", "list", "watch"] ∧ relation = true := by
  unfold nodeAllows at h
  rw [hnode, hgroup] at h
  cases hsub : asked.subresource <;> rcases hplural with hplural | hplural <;>
    rw [hsub, hplural] at h <;> dsimp only at h <;> simp_all

/-- What a node may ask about Pods. -/
theorem pod_grant (hserved : target.resource ∈ resources) (hkind : target.resource.kind = "Pod")
    (hnode : user.nodeName = some node)
    (h : resource lib reg user target v selection = .ok grant) :
    (target.subresource = some "status" ∧ (v = "update" ∨ v = "patch")) ∨
      target.subresource = none ∧ ((v = "get" ∨ v = "delete") ∧ OwnPod reg node target ∨
        (v = "list" ∨ v = "watch") ∧
          grant.selection = selection.withField "spec.nodeName" node) := by
  obtain ⟨relation, hrelation, hallows, hgrant⟩ := constrained_ok hnode (by simp [hkind]) h
  have hresource := pod_resource hserved hkind
  rcases nodeAllows_pod hnode (by rw [attributes, hresource]) (by rw [attributes, hresource])
    hallows with hstatus | ⟨hsub, ⟨hverb, rfl⟩ | hverb⟩
  · exact .inl hstatus
  · refine .inr ⟨hsub, .inl ⟨hverb, ?_⟩⟩
    obtain ⟨name, hname, hown⟩ := related_pod hserved hkind hrelation
    have hsame : target.name = some name := by
      have hstreams : ¬ (v = "list" ∨ v = "watch") := by
        rcases hverb with hverb | hverb <;> rw [show v = _ from hverb] <;> decide
      simpa [attributes, hstreams] using hname
    rwa [← hsame] at hown
  · refine .inr ⟨hsub, .inr ⟨hverb, ?_⟩⟩
    unfold nodeGrant at hgrant
    have hplain : ¬ (target.resource.kind = "Secret" ∨ target.resource.kind = "ConfigMap") := by
      rw [hkind]
      decide
    rw [if_neg hplain] at hgrant
    rw [← Except.ok.inj hgrant]
    exact if_pos ⟨hkind, hverb⟩

/-- What a node may ask about Secrets and ConfigMaps. -/
theorem configuration_grant (hserved : target.resource ∈ resources)
    (hkind : IsConfiguration target.resource) (hnode : user.nodeName = some node)
    (h : resource lib reg user target v selection = .ok grant) :
    target.subresource = none ∧ v ∈ ["get", "list", "watch"] ∧ ∃ ns name, target.ns = some ns ∧
      (attributes target v selection).name = some name ∧
        Refers reg node ns target.resource.plural name ∧
          grant = ⟨selection, some ⟨node, target, name⟩⟩ := by
  have hconstrained : target.resource.kind ∈ ["Pod", "Secret", "ConfigMap"] := by
    rcases hkind with hkind | hkind <;> simp [hkind]
  obtain ⟨relation, hrelation, hallows, hgrant⟩ := constrained_ok hnode hconstrained h
  obtain ⟨hgroup, hplural⟩ := configuration_resource hserved hkind
  obtain ⟨hsub, hverb, rfl⟩ := nodeAllows_configuration hnode hgroup hplural hallows
  obtain ⟨ns, name, hns, hname, hrefers⟩ := related_configuration hserved hkind hrelation
  refine ⟨hsub, hverb, ns, name, hns, hname, hrefers, ?_⟩
  have hpod : ¬ (target.resource.kind = "Pod" ∧ (v = "list" ∨ v = "watch")) := by
    rintro ⟨hpod, _⟩
    rcases hkind with hkind | hkind <;> rw [hkind] at hpod <;> revert hpod <;> decide
  unfold nodeGrant at hgrant
  rw [if_neg hpod, if_pos (show target.resource.kind = "Secret" ∨ _ from hkind), hname] at hgrant
  exact (Except.ok.inj hgrant).symm

/-! ## Streams -/

theorem fieldValue_congr {number : Json → String} {a b : Json} {path x y : String}
    (hpath : splitOn '.' path = [x, y]) (h : a[x][y] = b[x][y]) :
    fieldValue number a path = fieldValue number b path := by
  simp only [fieldValue, hpath, List.foldl_cons, List.foldl_nil, h]

/-- What is delivered was selected, and the guard let it pass. -/
structure Shown (lib : Libraries) (grant : Grant) (now : Registry) (value : Json) : Prop where
  selected : ∃ plain, grant.selection.isMatch lib.text.print plain = true ∧
    value["spec"] = plain["spec"] ∧ value["metadata"]["name"] = plain["metadata"]["name"]
  guarded : ∀ guard, grant.readGuard = some guard → guard.check now = .ok ()

theorem emitItem_shown {now : Registry} (h : emitItem lib grant now stored = .ok (some value)) :
    Shown lib grant now value := by
  obtain ⟨plain, _, h⟩ := Fallible.bind_eq_ok.mp h
  split_ifs at h with hmatch
  · cases hguard : grant.readGuard with
    | none =>
      rw [hguard] at h
      cases h
      exact ⟨⟨value, hmatch, rfl, rfl⟩, fun guard hsome => by rw [hguard] at hsome; cases hsome⟩
    | some guard =>
      rw [hguard] at h
      obtain ⟨_, hcheck, h⟩ := Fallible.bind_eq_ok.mp h
      cases h
      refine ⟨⟨value, hmatch, rfl, rfl⟩, fun other hsome => ?_⟩
      rw [hguard] at hsome
      rw [← Option.some.inj hsome]
      exact hcheck
  · cases h

theorem emitList_shown {items : List (Registry × Stored)} {now : Registry}
    (h : (now, value) ∈ emitList lib grant items) : Shown lib grant now value := by
  induction items with
  | nil => cases h
  | cons item items ih =>
    obtain ⟨current, item⟩ := item
    unfold emitList at h
    split at h
    · rename_i delivered hitem
      rcases List.mem_cons.mp h with heq | h
      · cases heq
        exact emitItem_shown hitem
      · exact ih h
    · exact ih h
    · cases h

theorem change_selected {event : WatchEvent} {type : String}
    (h : change lib selection event = .ok (some (type, value))) :
    selection.isMatch lib.text.print value = true := by
  obtain ⟨current, _, h⟩ := Fallible.bind_eq_ok.mp h
  obtain ⟨previous, _, h⟩ := Fallible.bind_eq_ok.mp h
  have hfilter : ∀ {found : Option Json}, found.filter (selection.isMatch lib.text.print) =
      some value → selection.isMatch lib.text.print value = true := fun hfound =>
    (Option.filter_eq_some_iff.mp hfound).2
  have hkept : ∀ {v : Json}, (if event.kind = .deleted then none
      else current.filter (selection.isMatch lib.text.print)) = some v →
        current.filter (selection.isMatch lib.text.print) = some v := by
    intro v hsome
    split_ifs at hsome
    exact hsome
  dsimp only at h
  split at h
  · rename_i hsome
    cases h
    exact hfilter (hkept hsome)
  · rename_i hsome
    cases h
    exact hfilter (hkept hsome)
  · rename_i hprevious _
    cases h
    exact hfilter hprevious
  · cases h

theorem emitEvent_shown {event : WatchEvent} {now : Registry} {type : String}
    (h : emitEvent lib grant now event = .ok (some (type, value))) : Shown lib grant now value := by
  -- What is left of the event once its guard has passed.
  obtain ⟨hchecked, h⟩ :
      (∀ guard, grant.readGuard = some guard → guard.check now = .ok ()) ∧
        emitEvent lib { grant with readGuard := none } now event = .ok (some (type, value)) := by
    unfold emitEvent at h
    cases hguard : grant.readGuard with
    | none =>
      rw [hguard] at h
      exact ⟨fun guard hsome => (by cases hsome), h⟩
    | some guard =>
      rw [hguard] at h
      obtain ⟨_, hcheck, h⟩ := Fallible.bind_eq_ok.mp h
      exact ⟨fun other hsome => by cases hsome; exact hcheck, h⟩
  refine ⟨?_, hchecked⟩
  unfold emitEvent at h
  dsimp only at h
  split_ifs at h with hbookmark
  · cases h
  obtain ⟨changed, hchanged, h⟩ := Fallible.bind_eq_ok.mp h
  cases changed with
  | none => cases h
  | some changed =>
    obtain ⟨plain, hset, h⟩ := Fallible.bind_eq_ok.mp h
    cases h
    exact ⟨changed.2, change_selected hchanged, getElem_setAt_ne hset (by decide),
      getElem_setAt_ne (getElem_setAt_step hset) (by decide)⟩

theorem emitWatch_shown {events : List (Registry × WatchEvent)} {now : Registry}
    (h : (now, value) ∈ emitWatch lib grant events) : Shown lib grant now value := by
  induction events with
  | nil => cases h
  | cons event events ih =>
    obtain ⟨current, event⟩ := event
    unfold emitWatch at h
    split at h
    · rename_i type delivered hevent
      rcases List.mem_cons.mp h with heq | h
      · cases heq
        exact emitEvent_shown hevent
      · exact ih h
    · exact ih h
    · cases h

/-- Pods of a stream narrowed to a node are assigned to it. -/
theorem Shown.assigned {now : Registry} (h : Shown lib grant now value)
    (hgrant : grant.selection = selection.withField "spec.nodeName" node) :
    fieldValue lib.text.print value "spec.nodeName" = node := by
  obtain ⟨plain, hmatch, hspec, _⟩ := h.selected
  rw [hgrant] at hmatch
  rw [fieldValue_congr (x := "spec") (y := "nodeName") (by decide +kernel)
    (congrArg (fun spec : Json => spec["nodeName"]) hspec)]
  exact Selection.fieldValue_withField hmatch

/-- A stream of a Secret or ConfigMap has the one object that was asked for, while a Pod of the
node refers to it. -/
theorem Shown.referred {now : Registry} (hserved : target.resource ∈ resources)
    (hkind : IsConfiguration target.resource) (hns : target.ns = some ns)
    (hstreams : v = "list" ∨ v = "watch")
    (hname : (attributes target v (selection.withName target.name)).name = some name)
    (h : Shown lib ⟨selection.withName target.name, some ⟨node, target, name⟩⟩ now value) :
    fieldValue lib.text.print value "metadata.name" = name ∧
      Refers now node ns target.resource.plural name := by
  constructor
  · obtain ⟨plain, hmatch, _, hsame⟩ := h.selected
    rw [fieldValue_congr (x := "metadata") (y := "name") (by decide +kernel) hsame]
    unfold attributes at hname
    dsimp only at hname hmatch
    cases htarget : target.name with
    | some asked =>
      rw [htarget] at hname hmatch
      rw [Option.some_or] at hname
      rw [← Option.some.inj hname]
      exact Selection.fieldValue_withField hmatch
    | none =>
      rw [htarget, if_pos hstreams, Option.none_or] at hname
      rw [htarget] at hmatch
      exact Selection.fieldValue_of_matches hmatch hname
  · have hcheck := h.guarded _ rfl
    obtain ⟨relation, hrelation, hcheck⟩ := Fallible.bind_eq_ok.mp hcheck
    cases relation with
    | false => cases hcheck
    | true =>
      obtain ⟨ns', asked, hns', hasked, hrefers⟩ := related_configuration hserved hkind hrelation
      obtain rfl : ns = ns' := Option.some.inj (hns.symm.trans hns')
      obtain rfl : name = asked := Option.some.inj hasked
      exact hrefers

/-! ## Writes -/

theorem admitPod_ok {sub : Option String} {old : Option Json}
    (h : admitPod node v sub value old = .ok ()) : ∃ o, old = some o ∧ assigned o node = true := by
  unfold admitPod at h
  cases old with
  | none => cases h
  | some o =>
    cases hassigned : assigned o node with
    | true => exact ⟨o, rfl, hassigned⟩
    | false =>
      dsimp only at h
      rw [hassigned] at h
      cases h

/-- A node's write to Pods is one to a Pod of its own. -/
theorem executed_pod {query : Query} {body : Body} (hnode : user.nodeName = some node)
    (hserved : target.resource ∈ resources) (hkind : target.resource.kind = "Pod")
    (h : Executed lib fresh ⟨user, target, v⟩ query body reg reg') :
    ∃ k stored name, k.value = target.pathPrefix ++ name ∧ target.name.all (· = name) = true ∧
      reg.get k = some stored ∧ assigned stored.value node = true ∧
        SameBut (· = k) reg reg' := by
  have hallowed : ∀ {verb : String} {value : Json} {old : Option Json},
      nodesAdmit user target verb value old = .ok () →
        ∃ o, old = some o ∧ assigned o node = true := by
    intro verb value old h
    unfold nodesAdmit at h
    rw [hnode, pod_resource hserved hkind] at h
    exact admitPod_ok h
  cases h with
  | bound _ hnone => rw [show user.nodeName = none from hnone] at hnode; cases hnode
  | @deleted k stored obj _ hk hget hobj hnodes hdeleted =>
    obtain ⟨name, hname, hvalue⟩ := named_ok.mp hk
    obtain ⟨o, ho, hassigned⟩ := hallowed hnodes
    cases ho
    refine ⟨k, stored, name, hvalue, ?_, hget, assigned_object hobj ▸ hassigned, hdeleted.same⟩
    rw [show target.name = some name from hname]
    simp
  | @committed p response _ _ hp hcommit =>
    obtain ⟨result, reg₁, hadmitted, _, hcommitted⟩ := commit_ok hcommit
    obtain ⟨_, _, _, _, _, hnodes, _, _⟩ := admit_ok hadmitted
    obtain ⟨o, ho, hassigned⟩ := hallowed hnodes
    obtain ⟨⟨rv, o⟩, hold, rfl⟩ := Option.map_eq_some_iff.mp ho
    obtain ⟨stored, hget, hobj, _⟩ := (propose_found hp).1 rv o hold
    obtain ⟨name, hkey, _, hall⟩ := propose_key hp
    have hsame : reg₁ = reg := admit_same hadmitted
      (by change target.resource.kind ≠ _; rw [hkind]; decide)
      (by change target.resource.kind ≠ _; rw [hkind]; decide)
    exact ⟨p.key, stored, name, hkey, hall, hget, assigned_object hobj ▸ hassigned,
      hsame ▸ hcommitted.same⟩

/-- The proposal of a Node lies at the key of its name, that of its status too. -/
theorem propose_placed_node {write : Write} {query : Query} {body : Body} {p : Proposal}
    (hkind : write.target.resource.kind = "Node")
    (h : propose lib fresh write query body reg = .ok p) : Placed write.target p.key p.value := by
  cases hsub : write.target.subresource with
  | none => exact propose_placed hsub h
  | some sub =>
    rcases propose_cases h with ⟨_, hwrite⟩ | ⟨options, _, hplain, _⟩
    · obtain ⟨decoded, value, hdecoded, hvalue, hprepared, hkey, _⟩ := proposeWrite_ok hwrite
      rw [hkey]
      refine ((decode_ok hdecoded).1.keeps (concurrency_ok hvalue).1).keeps ?_
      have hstatus : write.target.subresource.isSome = true := by rw [hsub]; rfl
      cases hold : p.old.map Prod.snd with
      | none =>
        -- a status needs an object
        rw [hold] at hprepared
        unfold prepareWrite at hprepared
        obtain ⟨_, _, hprepared⟩ := Fallible.ite_bind_eq_ok.mp hprepared
        rw [hsub] at hprepared
        cases hprepared
      | some o =>
        rw [hold] at hprepared
        have hbut := prepareWrite_status_but hstatus hprepared
        rw [if_pos hkind] at hbut
        exact hbut.mono (by decide)
    · rw [hsub] at hplain
      cases hplain

theorem node_resource {resource : Resource} (h : resource ∈ resources)
    (hplural : resource.plural = "nodes") : resource = ⟨"", "v1", "nodes", "Node", false⟩ :=
  plural_inj h (by decide) hplural

theorem lease_resource {resource : Resource} (h : resource ∈ resources)
    (hplural : resource.plural = "leases") :
    resource = ⟨"coordination.k8s.io", "v1", "leases", "Lease", true⟩ :=
  plural_inj h (by decide) hplural

/-- A node's write to Nodes is one to its own. -/
theorem executed_node {query : Query} {body : Body} (hnode : user.nodeName = some node)
    (hserved : target.resource ∈ resources) (hplural : target.resource.plural = "nodes")
    (hns : target.ns.isSome = target.resource.namespaced)
    (h : Executed lib fresh ⟨user, target, v⟩ query body reg reg') (hk : Family "nodes" k)
    (hne : reg'.get k ≠ reg.get k) : k.value = "/registry/nodes/" ++ node := by
  have hresource := node_resource hserved hplural
  have hallowed : ∀ {verb : String} {value : Json} {old : Option Json},
      nodesAdmit user target verb value old = .ok () →
        value["metadata"]["name"] = .string node ∧ verb ≠ "delete" := by
    intro verb value old h
    unfold nodesAdmit at h
    rw [hnode, hresource] at h
    change admitNode node verb value (old.getD .null) = .ok () at h
    unfold admitNode at h
    split_ifs at h with hrefused
    rw [not_or, not_not] at hrefused
    exact hrefused
  cases h with
  | bound _ hnone => rw [show user.nodeName = none from hnone] at hnode; cases hnode
  | deleted hdelete _ _ _ hnodes => exact absurd hdelete (hallowed hnodes).2
  | @committed p response _ _ hp hcommit =>
    obtain ⟨result, reg₁, hadmitted, _, hcommitted⟩ := commit_ok hcommit
    obtain ⟨_, _, _, _, _, hnodes, _, _⟩ := admit_ok hadmitted
    obtain ⟨name, hname, _, _, hkey⟩ := (propose_placed_node
      (by change target.resource.kind = _; rw [hresource]) hp).name
    obtain ⟨hmeta, hside⟩ := admit_keeps hadmitted
    have hsame := (hallowed hnodes).1
    rw [hmeta, hname] at hsame
    cases hsame
    by_cases hown : k = p.key
    · have hcluster : target.ns = none := by
        rw [hresource] at hns
        simpa using hns
      rw [hown, hkey, Target.pathPrefix]
      dsimp only
      rw [hcluster, hresource]
      rfl
    · refine absurd ?_ hne
      rw [hcommitted.same k hown, hside k]
      intro hsideKey
      rcases family_of_side hsideKey with hother | hother
      · exact absurd (Family.unique (by decide) (by decide) hk hother) (by decide)
      · exact absurd (Family.unique (by decide) (by decide) hk hother) (by decide)

/-- A Lease that a node writes has its name, and lies in the namespace of the nodes' Leases. -/
def OwnLease (reg reg' : Registry) (node : String) (k : StoreKey) : Prop :=
  k.value = "/registry/leases/kube-node-lease/" ++ node ∨ ∃ stored name, reg'.get k = none ∧
    reg.get k = some stored ∧ k.value = "/registry/leases/kube-node-lease/" ++ name ∧
      stored.value["metadata"]["name"] = .string node

theorem executed_lease {query : Query} {body : Body} (hnode : user.nodeName = some node)
    (hvalid : target.Valid) (hplural : target.resource.plural = "leases")
    (h : Executed lib fresh ⟨user, target, v⟩ query body reg reg') (hne : reg'.get k ≠ reg.get k) :
    OwnLease reg reg' node k := by
  have hresource := lease_resource hvalid.served hplural
  have hplain : target.subresource = none := by
    cases hsub : target.subresource with
    | none => rfl
    | some sub =>
      have hserves := (hvalid.subresource sub hsub).2
      rw [hresource] at hserves
      unfold servesSubresource at hserves
      split at hserves <;> cases hserves
  have hallowed : ∀ {verb : String} {value : Json} {old : Option Json},
      nodesAdmit user target verb value old = .ok () →
        target.ns = some "kube-node-lease" ∧ value["metadata"]["name"] = .string node := by
    intro verb value old h
    unfold nodesAdmit at h
    rw [hnode, hresource] at h
    change (if target.ns ≠ some "kube-node-lease" ∨ value["metadata"]["name"] ≠ .string node then
      _ else _) = _ at h
    by_cases hrefused : target.ns ≠ some "kube-node-lease" ∨
        value["metadata"]["name"] ≠ .string node
    · rw [if_pos hrefused] at h
      cases h
    · rw [not_or, not_not, not_not] at hrefused
      exact hrefused
  have hpath : ∀ {verb : String} {value : Json} {old : Option Json},
      nodesAdmit user target verb value old = .ok () →
        target.pathPrefix = "/registry/leases/kube-node-lease/" := by
    intro verb value old h
    rw [Target.pathPrefix, (hallowed h).1, hresource]
    rfl
  cases h with
  | bound _ hnone => rw [show user.nodeName = none from hnone] at hnode; cases hnode
  | @deleted k₀ stored obj _ hk hget hobj hnodes hdeleted =>
    obtain ⟨name, _, hvalue⟩ := named_ok.mp hk
    have hown : k = k₀ := by
      by_contra hother
      exact hne (hdeleted.same k hother)
    have hkind : target.resource.kind ≠ "Namespace" := by
      rw [hresource]
      decide
    rw [hown]
    refine .inr ⟨stored, name, ?_, hget, ?_, ?_⟩
    · cases hdeleted with
      | removed => exact Registry.get_drop reg k₀
      | marked hnamespace => exact absurd hnamespace hkind
      | kept hnamespace => exact absurd hnamespace hkind
    · rw [hvalue, hpath hnodes]
    · rw [← object_metadata hobj "name" (by decide) (by decide)]
      exact (hallowed hnodes).2
  | @committed p response _ _ hp hcommit =>
    obtain ⟨result, reg₁, hadmitted, _, hcommitted⟩ := commit_ok hcommit
    obtain ⟨_, _, _, _, _, hnodes, _, _⟩ := admit_ok hadmitted
    obtain ⟨name, hname, _, _, hkey⟩ := (propose_placed hplain hp).name
    have hsame := (hallowed hnodes).2
    rw [(admit_keeps hadmitted).1, hname] at hsame
    cases hsame
    have hunchanged : reg₁ = reg := admit_same hadmitted
      (by change target.resource.kind ≠ _; rw [hresource]; decide)
      (by change target.resource.kind ≠ _; rw [hresource]; decide)
    have hown : k = p.key := by
      by_contra hother
      exact hne (hunchanged ▸ hcommitted.same k hother)
    refine .inl ?_
    rw [hown, hkey]
    exact congrArg (· ++ node) (hpath hnodes)

/-! ## Requests -/

/-- What a node reads of Secrets and ConfigMaps: an object that one of its Pods refers to, or a
stream of that object for as long as one does. -/
def ReadsReferred (lib : Libraries) (reg : Registry) (node : String) (target : Target)
    (response : Response) : Prop :=
  ∃ ns name, target.ns = some ns ∧ Refers reg node ns target.resource.plural name ∧
    ((target.name = some name ∧ ∃ k stored value, named target = .ok k ∧ reg.get k = some stored ∧
        object stored = .ok value ∧ response = .object 200 value) ∨
      ∃ grant, (response = .list target grant ∧ ∀ items now value,
          (now, value) ∈ emitList lib grant items →
            fieldValue lib.text.print value "metadata.name" = name ∧
              Refers now node ns target.resource.plural name) ∨
        response = .watch target grant ∧ ∀ events now value,
          (now, value) ∈ emitWatch lib grant events →
            fieldValue lib.text.print value "metadata.name" = name ∧
              Refers now node ns target.resource.plural name)

/-- What a node reads of Pods: the Pod it names is its own, and so is each of a stream. -/
def ReadsOwn (lib : Libraries) (reg : Registry) (node : String) (target : Target)
    (response : Response) : Prop :=
  OwnPod reg node target ∨ ∃ grant,
    (response = .list target grant ∧ ∀ items now value, (now, value) ∈ emitList lib grant items →
      fieldValue lib.text.print value "spec.nodeName" = node) ∨
    response = .watch target grant ∧ ∀ events now value, (now, value) ∈ emitWatch lib grant events →
      fieldValue lib.text.print value "spec.nodeName" = node

/-- What is kept from a node, whatever the registry holds. -/
structure Isolated (lib : Libraries) (node : String) (target : Target) (reg reg' : Registry)
    (response : Response) : Prop where
  configuration : IsConfiguration target.resource →
    reg' = reg ∧ ReadsReferred lib reg node target response
  pods : target.resource.kind = "Pod" → ReadsOwn lib reg node target response
  writtenPods : ∀ k, Family "pods" k → reg'.get k ≠ reg.get k →
    ∃ stored, reg.get k = some stored ∧ assigned stored.value node = true
  writtenNodes : ∀ k, Family "nodes" k → reg'.get k ≠ reg.get k → k.value = "/registry/nodes/" ++ node
  writtenLeases : ∀ k, Family "leases" k → reg'.get k ≠ reg.get k → OwnLease reg reg' node k

theorem configuration_read (hnode : user.nodeName = some node)
    (hparse : Target.parse request.path = some target)
    (h : serve lib fresh user request reg = .ok response reg')
    (hkind : IsConfiguration target.resource) :
    reg' = reg ∧ ReadsReferred lib reg node target response := by
  have hvalid := Target.parse_ok hparse
  rcases serve_cases hparse h with htoken | ⟨v, selection, grant, hgrant, h⟩
  · have hserves := (hvalid.subresource _ htoken).2
    have haccount : target.resource.kind = "ServiceAccount" := of_decide_eq_true hserves
    rcases hkind with hkind | hkind <;> exact absurd (hkind.symm.trans haccount) (by decide)
  obtain ⟨hsub, hverb, ns, name, hns, hname, hrefers, rfl⟩ :=
    configuration_grant hvalid.served hkind hnode hgrant
  cases serveAuthorized_replied h with
  | session hsession =>
    rw [hsub] at hsession
    rcases hsession with hsession | hsession <;> cases hsession
  | watch hwatch hresponse hreg =>
    refine ⟨hreg, ns, name, hns, hrefers, .inr ⟨_, .inr ⟨hresponse, fun events now value hmem => ?_⟩⟩⟩
    exact (emitWatch_shown hmem).referred hvalid.served hkind hns (.inr hwatch) hname
  | list hlist hresponse hreg =>
    refine ⟨hreg, ns, name, hns, hrefers, .inr ⟨_, .inl ⟨hresponse, fun items now value hmem => ?_⟩⟩⟩
    exact (emitList_shown hmem).referred hvalid.served hkind hns (.inl hlist) hname
  | get hget hread hreg =>
    obtain ⟨k, hk, hread⟩ := Fallible.bind_eq_ok.mp hread
    obtain ⟨stored, hstored, hread⟩ := Fallible.bind_eq_ok.mp hread
    obtain ⟨value, hvalue, hread⟩ := Fallible.bind_eq_ok.mp hread
    have hasked : target.name = some name := by
      simpa [attributes, hget] using hname
    exact ⟨hreg, ns, name, hns, hrefers, .inl ⟨hasked, k, stored, value, hk, fetch_ok.mp hstored,
      hvalue, (Except.ok.inj hread).symm⟩⟩
  | write hwrite => exact absurd hverb hwrite

theorem pods_read (hnode : user.nodeName = some node)
    (hparse : Target.parse request.path = some target)
    (h : serve lib fresh user request reg = .ok response reg')
    (hkind : target.resource.kind = "Pod") : ReadsOwn lib reg node target response := by
  have hvalid := Target.parse_ok hparse
  rcases serve_cases hparse h with htoken | ⟨v, selection, grant, hgrant, h⟩
  · have hserves := (hvalid.subresource _ htoken).2
    have haccount : target.resource.kind = "ServiceAccount" := of_decide_eq_true hserves
    exact absurd (hkind.symm.trans haccount) (by decide)
  rcases pod_grant hvalid.served hkind hnode hgrant with
    ⟨hstatus, hverb⟩ | ⟨hsub, ⟨hverb, hown⟩ | ⟨hverb, hselection⟩⟩
  · -- the write of a status changes a Pod of the node's
    cases serveAuthorized_replied h with
    | session hsession =>
      rw [hstatus] at hsession
      rcases hsession with hsession | hsession <;> exact absurd hsession (by decide)
    | watch hwatch => rcases hverb with rfl | rfl <;> exact absurd hwatch (by decide)
    | list hlist => rcases hverb with rfl | rfl <;> exact absurd hlist (by decide)
    | get hget => rcases hverb with rfl | rfl <;> exact absurd hget (by decide)
    | write _ hexecute =>
      obtain ⟨k, stored, name, hk, hname, hget, hassigned, _⟩ :=
        executed_pod hnode hvalid.served hkind (execute_ok hexecute)
      obtain ⟨asked, hasked⟩ := Option.isSome_iff_exists.mp (hvalid.subresource _ hstatus).1
      rw [hasked] at hname
      refine .inl ⟨k, stored, named_ok.mpr ⟨name, ?_, hk⟩, hget, hassigned⟩
      rw [hasked]
      exact congrArg some (of_decide_eq_true hname)
  · exact .inl hown
  · cases serveAuthorized_replied h with
    | session hsession =>
      rw [hsub] at hsession
      rcases hsession with hsession | hsession <;> cases hsession
    | watch _ hresponse =>
      refine .inr ⟨grant, .inr ⟨hresponse, fun events now value hmem => ?_⟩⟩
      exact (emitWatch_shown hmem).assigned hselection
    | list _ hresponse =>
      refine .inr ⟨grant, .inl ⟨hresponse, fun items now value hmem => ?_⟩⟩
      exact (emitList_shown hmem).assigned hselection
    | get hget => rcases hverb with rfl | rfl <;> exact absurd hget (by decide)
    | write hwrite => rcases hverb with rfl | rfl <;> exact absurd (by simp) hwrite

/-- Whatever objects the registry holds, roles among them, a node reads Secrets and ConfigMaps
that its Pods refer to and no others, reads and writes its own Pods alone, and writes no Node and no
Lease but its own. -/
theorem node_isolated (hnode : user.nodeName = some node)
    (hparse : Target.parse request.path = some target)
    (h : serve lib fresh user request reg = .ok response reg') :
    Isolated lib node target reg reg' response where
  configuration := configuration_read hnode hparse h
  pods := pods_read hnode hparse h
  writtenPods := by
    intro k hk hne
    obtain ⟨target', v, grant, hauthorized, hplural, _, hexecuted⟩ :=
      changed_served (by decide) (by decide) (serve_ok h) hk hne
    have hkind : target'.resource.kind = "Pod" := by
      rw [show target'.resource = ⟨"", "v1", "pods", "Pod", true⟩ from
        plural_inj hauthorized.served (by decide) hplural]
    obtain ⟨k', stored, _, _, _, hget, hassigned, hsame⟩ :=
      executed_pod hnode hauthorized.served hkind hexecuted
    have hown : k = k' := by
      by_contra hother
      exact hne (hsame k hother)
    rw [hown]
    exact ⟨stored, hget, hassigned⟩
  writtenNodes := by
    intro k hk hne
    obtain ⟨target', v, grant, hauthorized, hplural, hns, hexecuted⟩ :=
      changed_served (by decide) (by decide) (serve_ok h) hk hne
    exact executed_node hnode hauthorized.served hplural hns hexecuted hk hne
  writtenLeases := by
    intro k hk hne
    obtain ⟨target', v, grant, hauthorized, hplural, _, hexecuted⟩ :=
      changed_served (by decide) (by decide) (serve_ok h) hk hne
    exact executed_lease hnode (Target.parse_ok hauthorized.parsed) hplural hexecuted hne

/-! ## A node and a Secret -/

/-- A Pod of `n1` that refers to the Secret `db`, beside a Secret that no Pod refers to; a role
lets the nodes read both. -/
def secretsRegistry : Registry := .ofList [
  ("/registry/pods/team-a/web", .ofPairs [("metadata", .ofPairs [("name", .string "web")]),
    ("spec", .ofPairs [("nodeName", .string "n1"), ("volumes",
      .array [.ofPairs [("secret", .ofPairs [("secretName", .string "db")])]])])]),
  ("/registry/secrets/team-a/db", .ofPairs [("metadata", .ofPairs [("name", .string "db")])]),
  ("/registry/secrets/team-a/mail", .ofPairs [("metadata", .ofPairs [("name", .string "mail")])]),
  ("/registry/clusterroles/reader", .ofPairs [("metadata", .ofPairs [("name", .string "reader")]),
    ("rules", .array [.ofPairs [("apiGroups", .array [.string ""]),
      ("resources", .array [.string "secrets"]), ("verbs", .array [.string "get"])]])]),
  ("/registry/clusterrolebindings/readers", .ofPairs [
    ("metadata", .ofPairs [("name", .string "readers")]),
    ("roleRef", .ofPairs [("apiGroup", .string "rbac.authorization.k8s.io"),
      ("kind", .string "ClusterRole"), ("name", .string "reader")]),
    ("subjects", .array [.ofPairs [("kind", .string "Group"),
      ("apiGroup", .string "rbac.authorization.k8s.io"), ("name", .string "system:nodes")]])])]

def readSecret (name : String) : HttpRequest :=
  ⟨"GET", "/api/v1/namespaces/team-a/secrets/" ++ name, ⟨[], []⟩, ⟨"application/json", []⟩⟩

def secretTarget (name : String) : Target :=
  ⟨⟨"", "v1", "secrets", "Secret", true⟩, some "team-a", some name, none⟩

theorem secret_read : ∃ response reg',
    serve (.plain []) .plain nodeUser (readSecret "db") secretsRegistry = .ok response reg' ∧
      Isolated (.plain []) "n1" (secretTarget "db") secretsRegistry reg' response := by
  have hanswer : answer (serve (.plain []) .plain nodeUser (readSecret "db")) secretsRegistry =
      some (.object 200 (.ofPairs [("metadata", .ofPairs [("name", .string "db"),
        ("resourceVersion", .string "2")])])) := by decide +kernel
  obtain ⟨reg', h⟩ := ok_of_answer hanswer
  exact ⟨_, reg', h, node_isolated (by decide) (by decide +kernel) h⟩

/-- The role does not help where no Pod refers to the Secret. -/
example : answer (serve (.plain []) .plain nodeUser (readSecret "mail")) secretsRegistry = none ∧
    (answer (serve (.plain []) .plain ⟨"ann", ["system:nodes"]⟩ (readSecret "mail"))
      secretsRegistry).isSome := by
  decide +kernel

end Hedronetes.Server
