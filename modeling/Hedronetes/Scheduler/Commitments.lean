import Hedronetes.Scheduler.Statuses

/-!
# No node beyond what it offers

A pass reckons with the Pods that it listed and with those that it has bound since. What it reckons
for a node is never less than what the Pods on it take, as long as no other writer adds to them, so
that a node that had room before has room after every binding.
-/

namespace Hedronetes.Scheduler

open Server Apply Auth Interleaving Relation
open Controllers (Client pods readsAll writesAll)
open Storage (StoreKey startsWith)

section

variable {A : Accounting} {allocatable : String → Option Resources} {rfc3339 : String → Option ℤ}
  {moment : ℕ → Moment} {start s t u : Registry} {objects nodes leases : List Json}
  {seen seen' : List Observed} {k : StoreKey} {stored : Stored} {p value : Json}
  {node ns name : String} {index bound : ℕ} {lib : Libraries} {client : Client lib} {fresh : Fresh}

/-! ## A binding that is sent -/

theorem bindingOf_ok {version : String}
    (hversion : p["metadata"]["resourceVersion"] = .string version)
    (h : bindingOf p ns name node = .ok value) :
    value["metadata"]["resourceVersion"] = .string version ∧
      value["target"]["name"] = .string node := by
  obtain ⟨uid, huid, h⟩ := Fallible.bind_eq_ok.mp h
  rw [hversion] at h
  obtain rfl := Except.ok.inj h
  simp [Json.getElem_ofPairs]

theorem does_binding {target : Target} {verb : String}
    (h : Chosen A allocatable rfc3339 moment start seen objects index k stored p node)
    (hnode : node ≠ "") (hstart : Numbered start) (hs : Reckoned A allocatable start objects s)
    (hversion : value["metadata"]["resourceVersion"] = .string (toString stored.revision))
    (hname : value["target"]["name"] = .string node)
    (hbinding : target.subresource = some "binding") :
    Does Call.perform (passing A allocatable rfc3339 moment)
      (fun result seen t => ∃ answer, result = .ok answer ∧
        Answered A allocatable start objects index p node answer seen t)
      (Pass.send client fresh target verb value) seen s := by
  unfold Pass.send
  apply Does.attempt (P := Answered A allocatable start objects index p node)
  · unfold Handler.execute
    rw [if_neg (by decide), if_pos hbinding]
    split_ifs
    · exact .fail fun t ht => hs.others ht
    · apply Does.lift_bind _ fun _ t _ ht => hs.others ht
      intro decoded hdecoded
      obtain rfl := client.decodes hdecoded
      exact does_bind h hnode hstart hs hversion hname
  · exact fun answer _ _ hanswer => ⟨answer, rfl, hanswer⟩

/-- What is known when a binding has been sent. -/
def Sent (A : Accounting) (allocatable : String → Option Resources) (start : Registry)
    (objects : List Json) (index : ℕ) (p : Json) (node : String) :
    Except Halt Bool → List Observed → Registry → Prop
  | .ok true, _, t => ∀ placed, setAt p ["spec", "nodeName"] (.string node) = .ok placed →
      Reckoned A allocatable start (objects.set index placed) t
  | .ok false, _, t => Reckoned A allocatable start objects t
  | .error _, _, _ => True

theorem does_send {target : Target} {verb : String}
    (h : Chosen A allocatable rfc3339 moment start seen objects index k stored p node)
    (hnode : node ≠ "") (hstart : Numbered start) (hs : Reckoned A allocatable start objects s)
    (hversion : value["metadata"]["resourceVersion"] = .string (toString stored.revision))
    (hname : value["target"]["name"] = .string node)
    (hbinding : target.subresource = some "binding") :
    Does Call.perform (passing A allocatable rfc3339 moment)
      (Sent A allocatable start objects index p node)
      (Pass.sendOrSkip client fresh target verb value) seen s := by
  apply does_sendOrSkip (does_binding h hnode hstart hs hversion hname hbinding)
  · exact fun _ _ t u hsent hu placed hplaced => (hsent placed hplaced).others hu
  · exact fun _ _ t u hskipped hu => Reckoned.others hskipped hu
  · exact fun _ _ _ _ _ _ => trivial

/-! ## One Pod -/

/-- What a pass has read before it takes the first Pod. -/
structure Read (A : Accounting) (allocatable : String → Option Resources) (start : Registry)
    (seen : List Observed) (nodes leases : List Json) : Prop where
  numbered : Numbered start
  nodesRead : Listed seen nodesPath nodes
  leasesRead : Listed seen leasesPath leases
  offers : ∀ n ∈ nodes, ∀ name offer, n["metadata"]["name"] = .string name → Offers n offer →
    allocatable name = some offer

/-- The Pod at a place is the one that was listed, and waits. -/
structure Waits (start : Registry) (objects : List Json) (index : ℕ) (k : StoreKey)
    (stored : Stored) (p : Json) : Prop where
  place : objects[index]? = some p
  listed : startsWith podsPath k = true
  found : start.get k = some stored
  reads : object stored = .ok p
  pending : pending p = true

theorem Waits.chosen (h : Waits start objects index k stored p)
    (hread : Read A allocatable start seen nodes leases)
    (hselect : select rfc3339 p nodes objects leases (moment index).now = .ok node) :
    node ≠ "" ∧ Chosen A allocatable rfc3339 moment start seen objects index k stored p node := by
  obtain ⟨hungated, hsupported, request, htakes, n, hn, hfeasible⟩ := select_feasible hselect
  obtain ⟨offer, rs, hoffers, hrs, hle⟩ := hfeasible.fits
  refine ⟨hfeasible.named.2, h.place, h.listed, h.found, h.reads, ?_, ?_, ?_⟩
  · have hpending := h.pending
    unfold Scheduler.pending at hpending
    simp only [Bool.and_eq_true, Bool.not_eq_true'] at hpending
    exact hpending.1.1.2
  · refine ⟨request, offer, htakes, hread.offers n hn node offer hfeasible.named.1 hoffers, ?_⟩
    rwa [Accounting.claimed_of_takes hrs]
  · exact ⟨nodes, leases, n, index, hread.nodesRead, hread.leasesRead, hn, hfeasible.named.1,
      hungated, hsupported, hfeasible.ready, hfeasible.selected, hfeasible.affinity, hfeasible.tolerated⟩

theorem podsPath_eq : "/registry/" ++ pods.plural ++ "/" = podsPath := by decide +kernel

theorem does_announce {m : Moment} (hversion : KeepsVersion lib) (hphase : KeepsPhase lib)
    (hs : Reckoned A allocatable start objects s) :
    Does Call.perform (passing A allocatable rfc3339 moment)
      (fun _ _ t => Reckoned A allocatable start objects t) (announce client m ns name p)
      seen s := by
  unfold announce Pass.ask
  apply Does.reading_bind _ fun _ _ t _ ht => hs.others ht
  intro current reg hcurrent hreg
  have hnow := hs.others hreg
  cases current with
  | none => exact .pure fun t ht => hnow.others ht
  | some current =>
    dsimp only
    split_ifs
    · have hobject := Fallible.mapError_eq_ok.mp hcurrent
      unfold getObject at hobject
      obtain ⟨key, hkey, hfound⟩ := Fallible.bind_eq_ok.mp hobject
      cases hget : reg.get key with
      | none =>
        rw [hget] at hfound
        cases hfound
      | some stored =>
        rw [hget] at hfound
        obtain ⟨value, hvalue, hsame⟩ := Fallible.bind_eq_ok.mp hfound
        obtain rfl : value = current := Option.some.inj (Except.ok.inj hsame)
        have hlisted := family_startsWith (family_pathPrefix (key_ok.mp hkey))
        dsimp only at hlisted
        rw [podsPath_eq] at hlisted
        exact does_condition hversion hphase hnow.numbered (.refl reg) hlisted hget hvalue hnow
    · exact .pure fun t ht => hnow.others ht

/-- What a pass keeps while it goes through the Pods. -/
structure Going (A : Accounting) (allocatable : String → Option Resources) (start : Registry)
    (nodes leases : List Json) (rest : List ℕ) (state : List Json × ℕ) (seen : List Observed)
    (t : Registry) : Prop where
  read : Read A allocatable start seen nodes leases
  reckoned : Reckoned A allocatable start state.1 t
  nodup : rest.Nodup
  waits : ∀ i ∈ rest, ∃ k stored p, Waits start state.1 i k stored p

theorem Read.mono (h : Read A allocatable start seen nodes leases) (hsub : seen ⊆ seen') :
    Read A allocatable start seen' nodes leases :=
  ⟨h.numbered, h.nodesRead.mono hsub, h.leasesRead.mono hsub, h.offers⟩

theorem Going.skip {rest : List ℕ} {state : List Json × ℕ}
    (h : Going A allocatable start nodes leases (index :: rest) state seen s)
    (hsub : seen ⊆ seen') (ht : Reckoned A allocatable start state.1 t) :
    Going A allocatable start nodes leases rest state seen' t :=
  ⟨h.read.mono hsub, ht, h.nodup.of_cons, fun i hi => h.waits i (List.mem_cons_of_mem _ hi)⟩

theorem Going.place {rest : List ℕ} {placed : Json}
    (h : Going A allocatable start nodes leases (index :: rest) (objects, bound) seen s)
    (hsub : seen ⊆ seen') (ht : Reckoned A allocatable start (objects.set index placed) t) :
    Going A allocatable start nodes leases rest (objects.set index placed, bound + 1) seen' t := by
  refine ⟨h.read.mono hsub, ht, h.nodup.of_cons, fun i hi => ?_⟩
  obtain ⟨k, stored, p, hwaits⟩ := h.waits i (List.mem_cons_of_mem _ hi)
  have hne : index ≠ i := by
    rintro rfl
    exact (List.nodup_cons.mp h.nodup).1 hi
  exact ⟨k, stored, p, ⟨by rw [List.getElem?_set_ne hne, hwaits.place], hwaits.listed,
    hwaits.found, hwaits.reads, hwaits.pending⟩⟩

theorem does_consider {rest : List ℕ} {state : List Json × ℕ} (hversion : KeepsVersion lib)
    (hphase : KeepsPhase lib)
    (h : Going A allocatable start nodes leases (index :: rest) state seen s) :
    Does Call.perform (passing A allocatable rfc3339 moment)
      (fun result seen t => ∀ next, result = .ok next →
        Going A allocatable start nodes leases rest next seen t)
      (consider client rfc3339 moment nodes leases state index) seen s := by
  obtain ⟨objects, bound⟩ := state
  obtain ⟨k, stored, p, hwaits⟩ := h.waits index List.mem_cons_self
  have hp : objects.getD index .null = p := by
    rw [List.getD_eq_getElem?_getD, hwaits.place]
    rfl
  have hfailed : ∀ e seen t, ∀ next, (Except.error e : Except Halt (List Json × ℕ)) = .ok next →
      Going A allocatable start nodes leases rest next seen t := fun _ _ _ _ h => by cases h
  unfold consider
  simp only [hp]
  split
  · rename_i ns name hns hname
    cases hselect : select rfc3339 p nodes objects leases (moment index).now with
    | error reason =>
      dsimp only
      have hcondition : Does Call.perform (passing A allocatable rfc3339 moment)
          (fun _ _ t => Reckoned A allocatable start objects t)
          (condition client (moment index) ns p false reason.text) seen s :=
        does_condition hversion hphase h.read.numbered h.reckoned.later hwaits.listed hwaits.found
          hwaits.reads h.reckoned
      apply hcondition.bind
      · intro _ seen' t hsub ht
        refine .pure fun u hu next hnext => ?_
        obtain rfl := Except.ok.inj hnext
        exact h.skip hsub (ht.others hu)
      · exact fun e seen' t _ _ => hfailed e seen' t
    | ok node =>
      dsimp only
      obtain ⟨hnode, hchosen⟩ := hwaits.chosen h.read hselect
      apply Does.lift_bind _ fun e t _ _ => hfailed e _ t
      intro value hvalue
      obtain ⟨hnamed, htarget⟩ := bindingOf_ok (object_revision hwaits.reads) hvalue
      apply (does_send hchosen hnode h.read.numbered h.reckoned hnamed htarget rfl).bind
      · intro sent seen' t hsub hsent
        cases sent with
        | false =>
          rw [if_neg (by decide)]
          refine .pure fun u hu next hnext => ?_
          obtain rfl := Except.ok.inj hnext
          exact h.skip hsub (Reckoned.others hsent hu)
        | true =>
          rw [if_pos rfl]
          apply Does.lift_bind _ fun e u _ _ => hfailed e _ u
          intro placed hplaced
          have hreckoned := hsent placed (Fallible.mapError_eq_ok.mp hplaced)
          have hannounced : Does Call.perform (passing A allocatable rfc3339 moment)
              (fun _ _ t => Reckoned A allocatable start (objects.set index placed) t)
              (announce client (moment index) ns name p) seen' t :=
            does_announce hversion hphase hreckoned
          refine Does.bind hannounced ?_ fun e seen₂ u _ _ => hfailed e seen₂ u
          intro _ seen₂ u hsub₂ hu
          refine .pure fun v hv next hnext => ?_
          obtain rfl := Except.ok.inj hnext
          exact h.place (List.Subset.trans hsub hsub₂) (hu.others hv)
      · exact fun e seen' t _ _ => hfailed e seen' t
  · exact Does.fail fun t _ => hfailed _ _ t

/-! ## The pass -/

theorem mem_candidates : index ∈ candidates objects ↔
    index < objects.length ∧ pending (objects.getD index .null) = true := by
  unfold candidates
  rw [(StableSort.perm_sortBy _ _).mem_iff]
  simp

theorem nodup_candidates : (candidates objects).Nodup :=
  (StableSort.perm_sortBy _ _).nodup_iff.mpr (List.nodup_range.filter _)

/-- The Pods of a list, with their versions. -/
theorem waits_of_listed
    (hlist : (start.list podsPath).mapM (fun e => object e.2) = .ok objects)
    (hindex : index ∈ candidates objects) :
    ∃ k stored p, Waits start objects index k stored p := by
  obtain ⟨hlt, hpending⟩ := mem_candidates.mp hindex
  have hentries := Fallible.mapM_eq_ok_iff.mp hlist
  have hlt' : index < (start.list podsPath).length := by
    rw [hentries.length_eq]
    exact hlt
  have hobject := hentries.get hlt' hlt
  obtain ⟨hget, hstart⟩ := Registry.mem_list.mp (List.get_mem (start.list podsPath) ⟨index, hlt'⟩)
  have hplace : objects[index]? = some objects[index] := List.getElem?_eq_getElem hlt
  refine ⟨_, _, objects[index], hplace, hstart, hget, hobject, ?_⟩
  rwa [List.getD_eq_getElem?_getD, hplace] at hpending

theorem claimed_of_listed
    (hlist : (start.list podsPath).mapM (fun e => object e.2) = .ok objects) :
    A.claimed name objects = A.load name start := by
  have hentries := Fallible.mapM_eq_ok_iff.mp hlist
  unfold Accounting.load
  clear hlist
  generalize start.list podsPath = entries at hentries ⊢
  induction hentries with
  | nil => rfl
  | @cons e p entries pods hobject _ ih =>
    have hspec : p["spec"] = e.2.value["spec"] := object_ne hobject (by decide)
    have hcounts : Counts name p ↔ Counts name e.2.value :=
      counts_congr (by rw [hspec]) (object_ne hobject (by decide))
    have hshare : A.share name p = A.share name e.2.value := by
      unfold Accounting.share
      rw [A.spec _ _ hspec]
      simp only [hcounts]
    rw [List.map_cons, Accounting.claimed_cons, Accounting.claimed_cons, ih, hshare]

theorem offers_of_listed (hagrees : Agrees allocatable start)
    (hlist : (start.list nodesPath).mapM (fun e => object e.2) = .ok nodes) :
    ∀ n ∈ nodes, ∀ name offer, n["metadata"]["name"] = .string name → Offers n offer →
      allocatable name = some offer := by
  intro n hn name offer hname hoffers
  obtain ⟨⟨k, stored⟩, hlisted, hobject⟩ := Fallible.mapM_mem hlist hn
  obtain ⟨hget, hstart⟩ := Registry.mem_list.mp hlisted
  have hstatus : n["status"] = stored.value["status"] := object_ne hobject (by decide)
  rw [object_metadata hobject _ (by decide) (by decide)] at hname
  refine hagrees k stored name offer hstart hget hname ⟨?_, ?_, ?_, hoffers.positive⟩
  · exact hstatus ▸ hoffers.cpu
  · exact hstatus ▸ hoffers.memory
  · exact hstatus ▸ hoffers.pods

theorem does_list {path : String} :
    Does Call.perform (passing A allocatable rfc3339 moment)
      (fun result seen' t => ∀ items, result = .ok items → ∃ reg,
        ReflTransGen (Unobtrusive A allocatable) s reg ∧
          ReflTransGen (Unobtrusive A allocatable) reg t ∧ .read .object reg ∈ seen' ∧
            (reg.list path).mapM (fun e => object e.2) = .ok items)
      (Pass.list path) seen s := by
  apply Does.reading
  intro reg t hreg ht items hitems
  exact ⟨reg, hreg, ht, by simp, Fallible.mapError_eq_ok.mp hitems⟩

/-- What a pass has listed, and what is so of it when the first Pod is taken. -/
structure Begun (A : Accounting) (allocatable : String → Option Resources) (start : Registry)
    (listed : List Json × List Json × List Json) (seen : List Observed) (t : Registry) : Prop where
  read : Read A allocatable start seen listed.1 listed.2.1
  pods : (start.list podsPath).mapM (fun e => object e.2) = .ok listed.2.2
  reckoned : Reckoned A allocatable start listed.2.2 t

theorem does_snapshot (hnumbered : Numbered s) (hagrees : Agrees allocatable s) :
    Does Call.perform (passing A allocatable rfc3339 moment)
      (fun result seen t => ∀ listed, result = .ok listed →
        ∃ start, Begun A allocatable start listed seen t) snapshot seen s := by
  have hkept : ∀ {t}, ReflTransGen (Unobtrusive A allocatable) s t →
      Numbered t ∧ Agrees allocatable t := by
    intro t ht
    induction ht with
    | refl => exact ⟨hnumbered, hagrees⟩
    | tail _ hstep ih => exact ⟨hstep.numbered ih.1, hstep.agrees⟩
  have hfailed : ∀ e seen t, ∀ listed, (Except.error e : Except Halt _) = .ok listed →
      ∃ start, Begun A allocatable start listed seen t := fun _ _ _ _ h => by cases h
  unfold snapshot
  apply does_list.bind _ fun e seen t _ _ => hfailed e seen t
  intro nodes seen₁ t₁ hsub₁ hnodes
  obtain ⟨reg₁, hs₁, ht₁, hread₁, hlist₁⟩ := hnodes nodes rfl
  apply does_list.bind _ fun e seen t _ _ => hfailed e seen t
  intro leases seen₂ t₂ hsub₂ hleases
  obtain ⟨reg₂, hs₂, ht₂, hread₂, hlist₂⟩ := hleases leases rfl
  apply does_list.bind _ fun e seen t _ _ => hfailed e seen t
  intro objects seen₃ t₃ hsub₃ hobjects
  obtain ⟨start, hs₃, ht₃, hread₃, hlist₃⟩ := hobjects objects rfl
  split_ifs
  · exact .fail fun t _ => hfailed _ _ t
  · refine .pure fun t ht listed hlisted => ?_
    obtain rfl := Except.ok.inj hlisted
    have hstart := hs₁.trans (ht₁.trans (hs₂.trans (ht₂.trans hs₃)))
    have hnow : Reckoned A allocatable start objects start :=
      ⟨(hkept hstart).1, .refl start, (hkept hstart).2,
        fun name _ => le_of_eq (claimed_of_listed hlist₃).symm⟩
    refine ⟨start, ⟨(hkept hstart).1, ⟨reg₁, hsub₃ (hsub₂ hread₁), hlist₁⟩,
      ⟨reg₂, hsub₃ hread₂, hlist₂⟩, offers_of_listed (hkept hs₁).2 hlist₁⟩, hlist₃, ?_⟩
    exact hnow.others (ht₃.trans ht)

theorem does_reconcileOnce (hversion : KeepsVersion lib) (hphase : KeepsPhase lib)
    (hnumbered : Numbered s) (hagrees : Agrees allocatable s) :
    Does Call.perform (passing A allocatable rfc3339 moment) (fun _ _ _ => True)
      (reconcileOnce client rfc3339 moment) seen s := by
  unfold reconcileOnce
  apply (does_snapshot hnumbered hagrees).bind _ fun _ _ _ _ _ => trivial
  rintro ⟨nodes, leases, objects⟩ seen' t _ hbegun
  obtain ⟨start, hread, hpods, hreckoned⟩ := hbegun _ rfl
  have hgoing : Going A allocatable start nodes leases (candidates objects) (objects, 0) seen' t :=
    ⟨hread, hreckoned, nodup_candidates, fun i hi => waits_of_listed hpods hi⟩
  have hloop : Does Call.perform (passing A allocatable rfc3339 moment) (fun _ _ _ => True)
      ((candidates objects).foldlM (consider client rfc3339 moment nodes leases) (objects, 0))
      seen' t := by
    apply Does.foldlM (J := Going A allocatable start nodes leases) hgoing
    · exact fun _ _ _ _ _ _ => trivial
    · intro index rest state seen s h
      exact (does_consider hversion hphase h).weaken fun _ _ _ hnext => ⟨hnext, fun _ _ => trivial⟩
  apply hloop.bind
  · exact fun _ _ _ _ _ => .pure fun _ _ => trivial
  · exact fun _ _ _ _ _ => trivial

end

/-- Wherever a pass has come, a node that took no more than it offers takes no more, and each Pod
that was bound went to a node that was ready and not excluded for it. -/
theorem no_node_overcommitted {lib : Libraries} (client : Client lib) (A : Accounting)
    (allocatable : String → Option Resources) (rfc3339 : String → Option ℤ) (moment : ℕ → Moment)
    (hversion : KeepsVersion lib) (hphase : KeepsPhase lib) {reg state : Registry}
    {seen : List Observed} {rest : Pass ℕ} (hnumbered : Numbered reg)
    (hagrees : Agrees allocatable reg)
    (h : Reaches Call.perform (Unobtrusive A allocatable) (reconcileOnce client rfc3339 moment) reg
      seen rest state) :
    (∀ name offer, allocatable name = some offer → A.load name reg ≤ offer →
      A.load name state ≤ offer) ∧
    ∀ c s k name, .call c s ∈ seen → Places s (c.perform s).2 k name →
      Suited rfc3339 moment seen s k name := by
  have hdoes : Does Call.perform (passing A allocatable rfc3339 moment) (fun _ _ _ => True)
      (reconcileOnce client rfc3339 moment) [] reg :=
    does_reconcileOnce hversion hphase hnumbered hagrees
  constructor
  · intro name offer hoffer hbefore
    apply Reaches.keeps (I := fun t => A.load name t ≤ offer) h hdoes hbefore
    · exact fun t u ht hstep => hstep.quiet.load_le.trans ht
    · exact fun _ t c ht hsound => hsound.within name offer hoffer ht
  · intro c s k name hcall hplaces
    obtain ⟨earlier, hsub, hsound⟩ := Reaches.ensures h hdoes hcall
    obtain ⟨o, p, nodes, leases, n, index, hget, hreads, hnodes, hleases, hn, hallows⟩ :=
      hsound.suited k name hplaces
    exact ⟨o, p, nodes, leases, n, index, hget, hreads, hnodes.mono hsub, hleases.mono hsub, hn,
      hallows⟩

/-! ## A Pod that is bound -/

/-- The requests as the scheduler reads them, and nothing for the Pods that it cannot read. -/
def readable : Accounting where
  effective p := (requests p).getD 0
  nonneg p := by
    cases h : requests p with
    | none => exact le_rfl
    | some r => exact (requests_eq_some.mp h).nonneg
  takes p r h := by rw [requests_eq_some.mpr h, Option.getD_some]
  spec p q h := by
    unfold requests
    rw [h]

/-- A Pod with half a CPU as its limit. -/
def teamPod (metadata spec status : List (String × Json)) : Json :=
  .ofPairs ([("apiVersion", .string "v1"), ("kind", .string "Pod"), ("metadata", .ofPairs
      ([("name", .string "web"), ("namespace", .string "team-a"), ("uid", .string "u1")] ++
        metadata)),
    ("spec", .ofPairs ([("containers", (halfPod [])["spec"]["containers"])] ++ spec))] ++ status)

/-- A node with one CPU, its lease, and a Pod that waits. -/
def teamCluster : Registry :=
  .ofList [("/registry/namespaces/team-a", .ofPairs [("metadata", .ofPairs [])]),
    ("/registry/nodes/a", workerNode "a"),
    ("/registry/leases/kube-node-lease/a", workerLease "a"),
    ("/registry/pods/team-a/web", teamPod [] [] [])]

/-- The binding of the Pod and its status, as they are sent. -/
def teamWrites : List Json :=
  [.ofPairs [("apiVersion", .string "v1"), ("kind", .string "Binding"), ("metadata", .ofPairs
      [("name", .string "web"), ("namespace", .string "team-a"), ("uid", .string "u1"),
        ("resourceVersion", .string "4")]),
      ("target", .ofPairs
        [("apiVersion", .string "v1"), ("kind", .string "Node"), ("name", .string "a")])],
    teamPod [("generation", .number (.int 2)), ("resourceVersion", .string "5")]
      [("nodeName", .string "a")] [("status", .ofPairs [("conditions", .array
        ((conditions [] true "Scheduled" "2026-01-01T00:00:20Z").getD []))])]]

def teamScheduler : Client (readsAll teamWrites) := writesAll "system:h3s:scheduler" teamWrites

def teamMoment (_ : ℕ) : Moment :=
  ⟨1767225620000000000, "2026-01-01T00:00:20Z", .plain, .plain⟩

def teamAllocatable (name : String) : Option Resources :=
  if name = "a" then some ⟨1000, 134217728, 2⟩ else none

theorem teamCluster_agrees : Agrees teamAllocatable teamCluster := by
  have hnodes : ∀ e ∈ teamCluster.objects, startsWith nodesPath e.1 = true →
      ∀ name ∈ e.2.value["metadata"]["name"].asString,
        capacity e.2.value = teamAllocatable name := by
    decide +kernel
  intro k o name offer hnode hget hname hoffers
  have hread : name ∈ o.value["metadata"]["name"].asString := Json.asString_eq_some.mpr hname
  rw [← hnodes (k, o) (Registry.mem_objects.mpr hget) hnode name hread]
  exact capacity_eq_some.mpr hoffers

theorem pod_bound_within : ∃ seen state,
    Reaches Call.perform (Unobtrusive readable teamAllocatable)
      (reconcileOnce teamScheduler leaseTime teamMoment) teamCluster seen (.done 1) state ∧
    readable.load "a" state = ⟨500, 67108864, 1⟩ ∧
      readable.load "a" state ≤ ⟨1000, 134217728, 2⟩ := by
  have hend : (match (reconcileOnce teamScheduler leaseTime teamMoment).run Call.perform
      teamCluster with
      | .ok bound t => decide (bound = 1 ∧ readable.load "a" t = ⟨500, 67108864, 1⟩)
      | .error _ _ => false) = true := by
    decide +kernel
  cases hrun : (reconcileOnce teamScheduler leaseTime teamMoment).run Call.perform teamCluster with
  | error e t =>
    rw [hrun] at hend
    cases hend
  | ok bound t =>
    rw [hrun] at hend
    obtain ⟨rfl, hload⟩ := of_decide_eq_true hend
    have hstart : Reaches Call.perform (Unobtrusive readable teamAllocatable)
        (reconcileOnce teamScheduler leaseTime teamMoment) teamCluster []
        (reconcileOnce teamScheduler leaseTime teamMoment) teamCluster := .start
    obtain ⟨seen, hreaches⟩ := hstart.of_run hrun
    refine ⟨seen, t, hreaches, hload, ?_⟩
    have hwithin := (no_node_overcommitted teamScheduler readable teamAllocatable leaseTime
      teamMoment (fun _ _ _ h => by rw [Except.ok.inj h]) (fun _ _ _ _ h => by rw [Except.ok.inj h])
      (numbered_ofList _) teamCluster_agrees hreaches).1
    exact hwithin "a" _ rfl (by decide +kernel)

end Hedronetes.Scheduler
