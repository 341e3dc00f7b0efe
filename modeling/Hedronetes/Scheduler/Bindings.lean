import Hedronetes.Controllers.Adoption
import Hedronetes.Foundations.Interference
import Hedronetes.Scheduler.Loads
import Hedronetes.Scheduler.Selection

/-!
# The writes of a pass

A binding names the version of the Pod that was listed, so that it takes what was reckoned with or
is refused. A write of the status leaves the Pod where it is. Others may do anything but put Pods
on nodes, let those that are there take more, or change what a node offers.
-/

namespace Hedronetes.Scheduler

open Server Apply Auth Interleaving Relation
open Controllers (Client pods)
open Storage (StoreKey startsWith)

/-! ## What the others may do -/

/-- The nodes of a name offer this, if they offer anything. -/
def Agrees (allocatable : String → Option Resources) (reg : Registry) : Prop :=
  ∀ k o name offer, startsWith nodesPath k = true → reg.get k = some o →
    o.value["metadata"]["name"] = .string name → Offers o.value offer →
      allocatable name = some offer

/-- A call of another writer, which puts no Pod on a node, lets none there take more and keeps what
the nodes offer. -/
structure Unobtrusive (A : Accounting) (allocatable : String → Option Resources)
    (s t : Registry) : Prop where
  call : ∃ c : Call, (c.perform s).2 = t
  quiet : A.Quiet s t
  agrees : Agrees allocatable t

/-! ## What the pass may do -/

/-- The Pod at the key gets on the node. -/
structure Places (s t : Registry) (k : StoreKey) (name : String) : Prop where
  before : ∀ o, s.get k = some o → o.value["spec"]["nodeName"] ≠ .string name
  after : ∃ o, t.get k = some o ∧ o.value["spec"]["nodeName"] = .string name

/-- The node is ready, and the Pod's own constraints do not exclude it. -/
structure Allows (rfc3339 : String → Option ℤ) (p n : Json) (name : String) (leases : List Json)
    (now : ℤ) : Prop where
  named : n["metadata"]["name"] = .string name
  ungated : populated p["spec"]["schedulingGates"] = false
  supported : unsupported p = false
  ready : Ready rfc3339 n leases now
  selected : ∀ members, p["spec"]["nodeSelector"].asObject = some members →
    ∀ e ∈ members, n["metadata"]["labels"][e.1] = e.2
  affinity : RequiredAffinity p n
  tolerated : ∀ t ∈ taints n, ∀ effect ∈ ["NoSchedule", "NoExecute"],
    t["effect"] = .string effect → Tolerated p t

/-- The pass has read this list. -/
def Listed (seen : List Observed) (path : String) (objects : List Json) : Prop :=
  ∃ reg, .read .object reg ∈ seen ∧ (reg.list path).mapM (fun e => object e.2) = .ok objects

/-- The Pod that is stored at the key may go to the node, by the lists that the pass has read. -/
def Suited (rfc3339 : String → Option ℤ) (moment : ℕ → Moment) (seen : List Observed)
    (s : Registry) (k : StoreKey) (name : String) : Prop :=
  ∃ o p nodes leases n index, s.get k = some o ∧ object o = .ok p ∧ Listed seen nodesPath nodes ∧
    Listed seen leasesPath leases ∧ n ∈ nodes ∧
      Allows rfc3339 p n name leases (moment index).now

/-- A call of the pass takes no node beyond what it offers, and no Pod to a node that is not for
it. -/
structure Sound (A : Accounting) (allocatable : String → Option Resources)
    (rfc3339 : String → Option ℤ) (moment : ℕ → Moment) (seen : List Observed) (s : Registry)
    (c : Call) : Prop where
  within : ∀ name offer, allocatable name = some offer → A.load name s ≤ offer →
    A.load name (c.perform s).2 ≤ offer
  suited : ∀ k name, Places s (c.perform s).2 k name → Suited rfc3339 moment seen s k name

/-- A pass and the other writers. -/
def passing (A : Accounting) (allocatable : String → Option Resources)
    (rfc3339 : String → Option ℤ) (moment : ℕ → Moment) : Among Registry Purpose Call where
  others := Unobtrusive A allocatable
  ensures := Sound A allocatable rfc3339 moment

/-- What the pass goes by: the nodes take no more than what it reckons for them. -/
structure Reckoned (A : Accounting) (allocatable : String → Option Resources) (start : Registry)
    (objects : List Json) (t : Registry) : Prop where
  numbered : Numbered t
  later : Later start t
  agrees : Agrees allocatable t
  covers : ∀ name, name ≠ "" → A.load name t ≤ A.claimed name objects

section

variable {A : Accounting} {allocatable : String → Option Resources} {rfc3339 : String → Option ℤ}
  {moment : ℕ → Moment} {start s t u : Registry} {objects : List Json} {seen : List Observed}

theorem Unobtrusive.numbered (h : Unobtrusive A allocatable s t) (hs : Numbered s) :
    Numbered t := by
  obtain ⟨c, rfl⟩ := h.call
  exact c.perform_numbered hs

theorem Unobtrusive.later (h : Unobtrusive A allocatable s t) : Later s t := by
  obtain ⟨c, rfl⟩ := h.call
  exact c.perform_later s

theorem Reckoned.step (h : Reckoned A allocatable start objects s)
    (hstep : Unobtrusive A allocatable s t) : Reckoned A allocatable start objects t where
  numbered := hstep.numbered h.numbered
  later := h.later.trans hstep.later
  agrees := hstep.agrees
  covers name hname := hstep.quiet.load_le.trans (h.covers name hname)

theorem Reckoned.others (h : Reckoned A allocatable start objects s)
    (hothers : ReflTransGen (Unobtrusive A allocatable) s t) :
    Reckoned A allocatable start objects t := by
  induction hothers with
  | refl => exact h
  | tail _ hstep ih => exact ih.step hstep

/-- Nodes and Pods have keys of their own. -/
theorem not_node {k : StoreKey} (hpods : startsWith podsPath k = true) :
    startsWith nodesPath k ≠ true := by
  intro hnodes
  have hboth := List.prefix_or_prefix_of_prefix (List.isPrefixOf_iff_prefix.mp hpods)
    (List.isPrefixOf_iff_prefix.mp hnodes)
  exact absurd hboth (by decide)

variable {k : StoreKey} {stored : Stored} {p placed result generation v : Json} {name node : String}
  {offer request : Resources} {index : ℕ}

theorem Agrees.same (h : Agrees allocatable s)
    (hsame : SameBut (fun k => startsWith podsPath k = true) s t) : Agrees allocatable t := by
  intro k o name offer hnode hget
  rw [hsame k fun hpods => not_node hpods hnode] at hget
  exact h k o name offer hnode hget

/-! ## Bindings -/

/-- A Pod of the list, and a node that was selected for it. -/
structure Chosen (A : Accounting) (allocatable : String → Option Resources)
    (rfc3339 : String → Option ℤ) (moment : ℕ → Moment) (start : Registry) (seen : List Observed)
    (objects : List Json) (index : ℕ) (k : StoreKey) (stored : Stored) (p : Json) (node : String) :
    Prop where
  place : objects[index]? = some p
  listed : startsWith podsPath k = true
  found : start.get k = some stored
  reads : object stored = .ok p
  unbound : p["spec"]["nodeName"].hasText = false
  fits : ∃ request offer, Takes p request ∧ allocatable node = some offer ∧
    A.claimed node objects + request ≤ offer
  suited : ∃ nodes leases n i, Listed seen nodesPath nodes ∧ Listed seen leasesPath leases ∧
    n ∈ nodes ∧ Allows rfc3339 p n node leases (moment i).now

theorem Listed.mono {seen' : List Observed} {path : String} {items : List Json}
    (h : Listed seen path items) (hsub : seen ⊆ seen') : Listed seen' path items := by
  obtain ⟨reg, hread, hitems⟩ := h
  exact ⟨reg, hsub hread, hitems⟩

/-- What a binding writes: the Pod with its node. -/
structure Assigned (p placed result : Json) (node : String) : Prop where
  assigns : setAt p ["spec", "nodeName"] (.string node) = .ok placed
  counted : ∃ generation, setAt placed ["metadata", "generation"] generation = .ok result

namespace Assigned

theorem spec (h : Assigned p placed result node) : result["spec"] = placed["spec"] := by
  obtain ⟨generation, hresult⟩ := h.counted
  exact getElem_setAt_ne hresult (by decide)

theorem status (h : Assigned p placed result node) : result["status"] = placed["status"] := by
  obtain ⟨generation, hresult⟩ := h.counted
  exact getElem_setAt_ne hresult (by decide)

theorem nodeName (h : Assigned p placed result node) :
    result["spec"]["nodeName"] = .string node := by
  rw [h.spec]
  exact getElem_setAt (getElem_setAt_step h.assigns)

theorem counts (h : Assigned p placed result node) : Counts name result ↔ Counts name placed :=
  counts_congr (by rw [h.spec]) h.status

theorem share (h : Assigned p placed result node) : A.share name result = A.share name placed := by
  unfold Accounting.share
  rw [A.spec _ _ h.spec]
  simp only [h.counts]

theorem share_other (h : Assigned p placed result node) (hname : name ≠ node) :
    A.share name result = 0 := by
  apply if_neg
  intro hcounts
  exact hname (Json.string.inj (hcounts.1.symm.trans h.nodeName))

theorem share_le (h : Assigned p placed result node) (htakes : Takes p request) :
    A.share node result ≤ request := by
  have hspec : ∀ f, f ≠ "nodeName" → result["spec"][f] = p["spec"][f] := by
    intro f hf
    rw [h.spec]
    exact getElem_setAt_ne (getElem_setAt_step h.assigns) hf
  have hsame := A.takes _ _ (htakes.congr hspec)
  unfold Accounting.share
  split_ifs
  · exact le_of_eq hsame
  · exact hsame ▸ A.nonneg result

end Assigned

theorem not_counts (hunbound : p["spec"]["nodeName"].hasText = false) (hname : name ≠ "") :
    ¬ Counts name p := by
  rintro ⟨hnode, -⟩
  rw [hnode] at hunbound
  simp [Json.hasText, Json.asString, hname] at hunbound

namespace Chosen

/-- A binding is accepted only over the version that was listed. -/
theorem performed (h : Chosen A allocatable rfc3339 moment start seen objects index k stored p node)
    (hstart : Numbered start) (ht : Reckoned A allocatable start objects t) :
    t.get k = some stored ∧
        (Call.update k v stored.revision).perform t = (.ok ⟨v, t.revision + 1⟩, t.put k v) ∨
      ∃ e, (Call.update k v stored.revision).perform t = (.error e, t) := by
  cases hget : t.get k with
  | none => exact .inr ⟨.notFound k, by simp only [Call.perform, hget]⟩
  | some current =>
    by_cases hrevision : current.revision = stored.revision
    · obtain ⟨-, rfl⟩ := hstart.version ht.later h.found hget hrevision
      exact .inl ⟨rfl, by simp only [Call.perform, hget, if_true]⟩
    · exact .inr ⟨.conflict stored.revision current.revision,
        by simp only [Call.perform, hget, if_neg hrevision]⟩

theorem sound (h : Chosen A allocatable rfc3339 moment start seen objects index k stored p node)
    (hnode : node ≠ "") (hstart : Numbered start) (ht : Reckoned A allocatable start objects t)
    (hassigned : Assigned p placed result node) {seen' : List Observed} (hsub : seen ⊆ seen') :
    Sound A allocatable rfc3339 moment seen' t (.update k result stored.revision) := by
  rcases h.performed (v := result) hstart ht with ⟨hget, hperform⟩ | ⟨e, hperform⟩
  · constructor
    · intro name offer hoffer hwithin
      rw [hperform]
      refine Accounting.load_put.trans ?_
      by_cases hname : name = node
      · subst hname
        obtain ⟨request, offer', htakes, hoffer', hfits⟩ := h.fits
        obtain rfl := Option.some.inj (hoffer.symm.trans hoffer')
        refine le_trans ?_ hfits
        rw [add_comm]
        exact add_le_add (ht.covers name hnode) (hassigned.share_le htakes)
      · rw [hassigned.share_other hname, zero_add]
        exact hwithin
    · intro k' name hplaces
      rw [hperform] at hplaces
      obtain ⟨o, hafter, ho⟩ := hplaces.after
      by_cases hk : k' = k
      · subst hk
        rw [Registry.get_put] at hafter
        obtain rfl := Option.some.inj hafter
        obtain rfl : node = name := Json.string.inj (hassigned.nodeName.symm.trans ho)
        obtain ⟨nodes, leases, n, i, hnodes, hleases, hn, hallows⟩ := h.suited
        exact ⟨stored, p, nodes, leases, n, i, hget, h.reads, hnodes.mono hsub,
          hleases.mono hsub, hn, hallows⟩
      · rw [Registry.get_put_ne hk] at hafter
        exact absurd ho (hplaces.before o hafter)
  · constructor
    · intro name offer _ hwithin
      rwa [hperform]
    · intro k' name hplaces
      rw [hperform] at hplaces
      obtain ⟨o, hafter, ho⟩ := hplaces.after
      exact absurd ho (hplaces.before o hafter)

/-- What was bound is reckoned with. -/
theorem reckoned (h : Chosen A allocatable rfc3339 moment start seen objects index k stored p node)
    (ht : Reckoned A allocatable start objects t) (hassigned : Assigned p placed result node) :
    Reckoned A allocatable start (objects.set index placed) (t.put k result) where
  numbered := ht.numbered.put k result
  later := ht.later.trans (.put t k result)
  agrees := ht.agrees.same (.put h.listed t result)
  covers name hname := by
    rw [Accounting.claimed_set h.place (not_counts h.unbound hname), ← hassigned.share]
    exact Accounting.load_put.trans (add_le_add_right (ht.covers name hname) _)

end Chosen

/-- What is known when a binding has been answered. -/
def Answered (A : Accounting) (allocatable : String → Option Resources) (start : Registry)
    (objects : List Json) (index : ℕ) (p : Json) (node : String) :
    Except Stop Response → List Observed → Registry → Prop
  | .ok _, _, t => ∀ placed, setAt p ["spec", "nodeName"] (.string node) = .ok placed →
      Reckoned A allocatable start (objects.set index placed) t
  | .error _, _, t => Reckoned A allocatable start objects t

/-- The last call of a handler, and both its answers. -/
theorem does_last {α : Type} {B : Among Registry Purpose Call}
    {post : Except Stop α → List Observed → Registry → Prop} {c : Call} {a : α}
    (hensures : ∀ t, ReflTransGen B.others s t → B.ensures seen t c)
    (hok : ∀ t u v o, ReflTransGen B.others s t → c.perform t = (.ok o, u) →
      ReflTransGen B.others u v → post (.ok a) (seen ++ [.call c t]) v)
    (herror : ∀ t u v e, ReflTransGen B.others s t → c.perform t = (.error e, u) →
      ReflTransGen B.others u v → post (.error (storageFailure e)) (seen ++ [.call c t]) v) :
    Does Call.perform B post (Handler.store c >>= fun _ => pure a) seen s := by
  intro t ht
  refine ⟨hensures t ht, ?_⟩
  cases hp : c.perform t with
  | mk reply u =>
    cases reply with
    | ok o => exact fun v hv => hok t u v o ht hp hv
    | error e => exact fun v hv => herror t u v e ht hp hv

variable {lib : Libraries} {target : Target} {value : Json}

theorem does_bind
    (h : Chosen A allocatable rfc3339 moment start seen objects index k stored p node)
    (hnode : node ≠ "") (hstart : Numbered start) (hs : Reckoned A allocatable start objects s)
    (hversion : value["metadata"]["resourceVersion"] = .string (toString stored.revision))
    (htarget : value["target"]["name"] = .string node) :
    Does Call.perform (passing A allocatable rfc3339 moment)
      (Answered A allocatable start objects index p node) (Handler.bind lib target value)
      seen s := by
  have hsame : ∀ {t}, ReflTransGen (Unobtrusive A allocatable) s t →
      Reckoned A allocatable start objects t := fun ht => hs.others ht
  unfold Handler.bind
  apply Does.lift_bind _ fun _ _ _ ht => hsame ht
  intro _ _
  apply Does.lift_bind _ fun _ _ _ ht => hsame ht
  intro bound hbound
  obtain rfl : bound = node := by
    unfold bindingNode at hbound
    split at hbound
    · rename_i found hfilter
      cases hbound
      have hread := (Option.filter_eq_some_iff.mp hfilter).1
      rw [htarget] at hread
      exact (Option.some.inj hread).symm
    · cases hbound
  apply Does.lift_bind _ fun _ _ _ ht => hsame ht
  intro nodeKey _
  apply Does.reading_bind _ fun _ _ _ _ ht => hsame ht
  intro _ reg₀ _ h₀
  apply Does.lift_bind _ fun _ _ _ ht => hsame (h₀.trans ht)
  intro k' _
  apply Does.reading_bind _ fun _ _ _ _ ht => hsame (h₀.trans ht)
  intro stored' reg hstored hreg
  have hreg := h₀.trans hreg
  apply Does.lift_bind _ fun _ _ _ ht => hsame (hreg.trans ht)
  intro pod hpod
  split_ifs with hassigned hprecondition
  · exact .fail fun t ht => hsame (hreg.trans ht)
  · exact .fail fun t ht => hsame (hreg.trans ht)
  -- the version that the binding names is the one that was listed
  have hrevision : stored'.revision = stored.revision := by
    rw [not_or, hversion] at hprecondition
    have hnamed := hprecondition.2
    simp only [Json.asString, Option.any_some, ne_eq, decide_not, Bool.not_eq_true',
      decide_eq_false_iff_not, not_not] at hnamed
    exact (revision_inj hnamed).symm
  obtain ⟨rfl, rfl⟩ := hstart.version (hsame hreg).later h.found (fetch_ok.mp hstored) hrevision
  obtain rfl : pod = p := Except.ok.inj (hpod.symm.trans h.reads)
  apply Does.lift_bind _ fun _ _ _ ht => hsame (hreg.trans ht)
  intro placed hplaced
  dsimp only
  split_ifs with hgeneration
  · apply Does.lift_bind _ fun _ _ _ ht => hsame (hreg.trans ht)
    intro result hresult
    have hassigned : Assigned pod placed result bound := ⟨hplaced, _, hresult⟩
    apply does_last
    · intro t ht
      exact h.sound hnode hstart (hsame (hreg.trans ht)) hassigned (by simp)
    · intro t u v o ht hperform hv again hagain
      obtain rfl : placed = again := Except.ok.inj (hplaced.symm.trans hagain)
      rcases h.performed (v := result) hstart (hsame (hreg.trans ht)) with ⟨-, hput⟩ | ⟨e, hput⟩
      · obtain rfl : t.put k' result = u := congrArg Prod.snd (hput.symm.trans hperform)
        exact (h.reckoned (hsame (hreg.trans ht)) hassigned).others hv
      · have hne := congrArg Prod.fst (hput.symm.trans hperform)
        cases hne
    · intro t u v e ht hperform hv
      rcases h.performed (v := result) hstart (hsame (hreg.trans ht)) with ⟨-, hput⟩ | ⟨e', hput⟩
      · have hne := congrArg Prod.fst (hput.symm.trans hperform)
        cases hne
      · obtain rfl : t = u := congrArg Prod.snd (hput.symm.trans hperform)
        exact hsame ((hreg.trans ht).trans hv)
  · exact .fail fun t ht => hsame (hreg.trans ht)

end

end Hedronetes.Scheduler
