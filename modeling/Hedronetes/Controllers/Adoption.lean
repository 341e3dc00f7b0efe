import Hedronetes.Controllers.ReplicaSet
import Hedronetes.Server.Identity
import Hedronetes.Server.Updates

/-!
# One controller for each Pod

ReplicaSets whose selectors overlap see the same Pods without a controller. Each decides from the
version it has listed and names that version when it writes, so that of several adoptions only the
first is accepted, and none takes a Pod that has a controller.
-/

namespace Hedronetes.Controllers

open Server Apply Auth Interleaving Runs
open Storage (StoreKey)

/-! ## Controllers of an object -/

/-- The uids of the owners that are marked as controller. -/
def controllersOf (refs : List Json) : List String :=
  (refs.filter isController).map fun o => o["uid"].asString.getD ""

def controllers (v : Json) : List String := controllersOf (ownerReferences v)

/-- No Pod has two owner references marked as controller. -/
def PodsControlled (reg : Registry) : Prop :=
  ∀ k o, Family "pods" k → reg.get k = some o → (controllers o.value).length ≤ 1

/-- A call that brings a Pod brings one with at most one controller. -/
def BringsValid (c : Call) : Prop :=
  Family "pods" c.key → ∀ value, c.brings = some value → (controllers value).length ≤ 1

/-- A Pod that has a controller is given no other one by the call. -/
def KeepsController (s : Registry) (c : Call) : Prop :=
  Family "pods" c.key → ∀ current value, s.get c.key = some current →
    c.expects = some current.revision → c.brings = some value → controllers current.value ≠ [] →
      ∀ uid ∈ controllers value, uid ∈ controllers current.value

/-- A Pod that has a controller before has no other one after. -/
def NoTakeover (s t : Registry) : Prop :=
  ∀ k o o', Family "pods" k → s.get k = some o → t.get k = some o' → controllers o.value ≠ [] →
    ∀ uid ∈ controllers o'.value, uid ∈ controllers o.value

/-- A request of any client, or a pass of the ReplicaSet controller. -/
inductive Claimant (lib : Libraries) where
  | request (q : Submitted)
  | replicaSet (client : Client lib) (fresh : ℕ → Fresh) (ns name : String)

def Claimant.isReconciler {lib : Libraries} : Claimant lib → Bool
  | request _ => false
  | replicaSet _ _ _ _ => true

def Claimant.program {lib : Libraries} : Claimant lib → Work Unit
  | request q => do
    let _ ← (q.handler lib).attempt
    return ()
  | replicaSet client fresh ns name => replicaSetOnce client fresh ns name

/-- Requests and ReplicaSet passes on one registry. -/
abbrev Claimants (lib : Libraries) := Pool Registry Purpose Call Reply Halt Unit (Claimant lib)

def adoption (lib : Libraries) : Contract Registry Purpose Call (Claimant lib) where
  inv s := Numbered s ∧ PodsControlled s
  rely := Later
  guard p _ _ c := p.isReconciler = false → BringsValid c
  ensures p _ s c := p.isReconciler = true → KeepsController s c
  refl := Later.refl
  trans := Later.trans

/-- The typed object names the same owners as controllers. -/
def KeepsOwners (lib : Libraries) : Prop :=
  ∀ resource value result, lib.normalize resource value = .ok result →
    controllers result = controllers value

section

variable {lib : Libraries} {client : Client lib} {fresh : Fresh} {r : Claimant lib}
  {seen seen' : List Observed} {s t reg : Registry} {object sent rs p next : Json} {k : StoreKey}
  {stored : Stored} {ns : String} {resource : Resource} {write : Write}

theorem controllers_congr {v w : Json}
    (h : v["metadata"]["ownerReferences"] = w["metadata"]["ownerReferences"]) :
    controllers v = controllers w := by
  unfold controllers ownerReferences
  rw [h]

theorem controllers_object (h : Server.object stored = .ok object) :
    controllers stored.value = controllers object :=
  controllers_congr (object_metadata h "ownerReferences" (by decide) (by decide)).symm

/-- Only what a call that is accepted brings matters. -/
theorem podsControlled_perform {c : Call} (hs : PodsControlled s)
    (h : Family "pods" c.key → ∀ value, c.brings = some value →
      (∀ rv, c.expects = some rv → ∃ current, s.get c.key = some current ∧ current.revision = rv) →
        (controllers value).length ≤ 1) : PodsControlled (c.perform s).2 := by
  intro k o hk hget
  rcases Call.perform_get hget with hold | ⟨rfl, hbrings⟩
  · exact hs k o hk hold
  · have hperformed := c.performed s
    cases hp : c.perform s with
    | mk reply after =>
      rw [hp] at hperformed hget
      cases hperformed with
      | refused => exact hs _ o hk hget
      | created => exact h hk _ hbrings fun rv hrv => by cases hrv
      | updated hcurrent =>
        exact h hk _ hbrings fun rv hrv => ⟨_, hcurrent, Option.some.inj hrv⟩
      | deleted => cases hbrings

theorem noTakeover_perform {c : Call} (h : KeepsController s c) :
    NoTakeover s (c.perform s).2 := by
  intro k o o' hk hbefore hafter hne
  rcases Call.perform_get hafter with hold | ⟨rfl, hbrings⟩
  · cases hold.symm.trans hbefore
    exact fun uid huid => huid
  · have hperformed := c.performed s
    cases hp : c.perform s with
    | mk reply after =>
      rw [hp] at hperformed hafter
      cases hperformed with
      | refused =>
        cases hbefore.symm.trans hafter
        exact fun uid huid => huid
      | created hnone =>
        have habsent := hbefore.symm.trans hnone
        cases habsent
      | updated hcurrent =>
        cases hbefore.symm.trans hcurrent
        exact h hk _ _ hcurrent rfl hbrings hne
      | deleted => cases hbrings

/-! ## What a sent object becomes -/

variable {ι : Type} {C : Contract Registry Purpose Call ι} {proposal : Proposal}

/-- The controllers are stored as they are sent. -/
theorem proposed_controllers (howners : KeepsOwners lib) (hverb : write.verb ≠ "patch")
    (hplain : write.target.subresource = none)
    (hp : Proposed C lib fresh write ⟨[], []⟩ (client.body sent) seen s proposal) :
    controllers proposal.value = controllers sent := by
  cases hp with
  | written _ hdecoded _ hvalue hprepared _ _ =>
    cases hdecoded with
    | whole _ hread _ hnormalized =>
      obtain rfl := client.decodes hread
      obtain ⟨typed, htyped, hmembers⟩ := normalized_typed hnormalized
      rw [← howners _ _ _ htyped]
      apply controllers_congr
      rw [prepareWrite_keeps hplain hprepared "ownerReferences" (by decide),
        (concurrency_ok hvalue).1 "ownerReferences" (by decide),
        hmembers "ownerReferences" (by decide) (by decide)]
    | patch hpatch => exact absurd hpatch hverb
  | applied hoptions =>
    have hnone := hoptions.symm.trans plain_options
    cases hnone

/-- An update is checked against the version it names. -/
theorem proposed_version (hversion : KeepsVersion lib) (hverb : write.verb = "update")
    (hkind : write.target.resource.kind ≠ "ConfigMap" ∧ write.target.resource.kind ≠ "Secret")
    (hp : Proposed C lib fresh write ⟨[], []⟩ (client.body sent) seen s proposal) {n : ℕ}
    (hsent : sent["metadata"]["resourceVersion"] = .string (toString n)) :
    proposal.old.map Prod.fst = some n := by
  cases hp with
  | written _ hdecoded _ hvalue _ _ _ =>
    rcases (concurrency_ok hvalue).2 with ⟨hupdate, _⟩ | ⟨_, rv, current, hold, hreplaces⟩
    · exact absurd hverb hupdate
    obtain ⟨stored, _, _, _, hexpected⟩ := hreplaces.stored
    rw [hold, Option.map_some]
    cases hdecoded with
    | whole _ hread _ hnormalized =>
      obtain rfl := client.decodes hread
      have htext := normalized_version hversion hnormalized
      rw [hsent] at htext
      rcases expectedRevision_cases hexpected with ⟨v, hv, hparse⟩ | ⟨_, hhelm, _⟩
      · have hsame : some v = some (toString n) := hv.symm.trans htext
        rw [Option.some.inj hsame] at hparse
        rw [parseU64_toString hparse]
      · exact absurd hhelm (not_or.mpr hkind)
    | patch hpatch =>
      rw [hverb] at hpatch
      exact absurd hpatch (by decide)
  | applied hoptions =>
    have hnone := hoptions.symm.trans plain_options
    cases hnone

theorem proposed_create (hverb : write.verb = "create")
    (hp : Proposed C lib fresh write ⟨[], []⟩ (client.body sent) seen s proposal) :
    proposal.old = none := by
  cases hp with
  | written _ _ _ hvalue _ _ _ =>
    rcases (concurrency_ok hvalue).2 with ⟨_, _, hnone, _⟩ | ⟨hupdate | hpatch, _⟩
    · exact hnone
    · exact absurd (hverb.symm.trans hupdate) (by decide)
    · exact absurd (hverb.symm.trans hpatch) (by decide)
  | applied hoptions =>
    have hnone := hoptions.symm.trans plain_options
    cases hnone

/-! ## What a pass writes -/

variable {seen₀ : List Observed} {s₀ : Registry} {c : Call} {refs : List Json}

/-- What a call must keep to, if it comes after a state with what had been seen there. -/
structure Keeps (lib : Libraries) (seen₀ : List Observed) (s₀ : Registry) (seen : List Observed)
    (s : Registry) (c : Call) : Prop where
  valid : Family "pods" c.key → ∀ value, c.brings = some value →
    (∀ rv, c.expects = some rv → ∃ current, s.get c.key = some current ∧ current.revision = rv) →
      (controllers value).length ≤ 1
  controller : KeepsController s c

theorem permits_of_keeps
    (h : Numbered s → PodsControlled s → Later s₀ s → seen₀ ⊆ seen →
      Keeps lib seen₀ s₀ seen s c) :
    ((adoption lib).after seen₀ s₀).Permits Call.perform r seen s c := by
  rintro ⟨⟨hnumbered, hcontrolled⟩, hlater⟩ ⟨_, hsub⟩
  have hkeeps := h hnumbered hcontrolled hlater hsub
  have hstep := c.perform_later s
  exact ⟨fun _ => hkeeps.controller, ⟨⟨c.perform_numbered hnumbered,
    podsControlled_perform hcontrolled hkeeps.valid⟩, hlater.trans hstep⟩, hstep⟩

theorem permits_apart (h : ¬ Family "pods" c.key) :
    ((adoption lib).after seen₀ s₀).Permits Call.perform r seen s c :=
  permits_of_keeps fun _ _ _ _ => ⟨fun hpods => absurd hpods h, fun hpods => absurd hpods h⟩

theorem permits_side (h : Family "persistentvolumes" c.key ∨ Family "h3s-node-cidrs" c.key) :
    ((adoption lib).after seen₀ s₀).Permits Call.perform r seen s c := by
  have hslash : '/' ∉ "pods".toList ∧ '/' ∉ "persistentvolumes".toList ∧
      '/' ∉ "h3s-node-cidrs".toList := by decide +kernel
  refine permits_apart fun hpods => ?_
  rcases h with h | h
  · exact absurd (Family.unique hslash.2.1 hslash.1 h hpods) (by decide)
  · exact absurd (Family.unique hslash.2.2 hslash.1 h hpods) (by decide)

/-- Admission and commit of a Pod, for what the commit keeps to. -/
theorem meets_finish (hkind : write.target.resource.kind = "Pod") {value : Json}
    {old : Option (ℕ × Json)} {henclosing : Option Json}
    (h : ∀ result seen t, result["metadata"] = value["metadata"] → Numbered t →
      PodsControlled t → Later s₀ t → seen₀ ⊆ seen →
        Keeps lib seen₀ s₀ seen t (commitCall k result (old.map Prod.fst))) :
    Meets Call.perform ((adoption lib).after seen₀ s₀) r (fun _ _ _ => True)
      (Handler.finish lib fresh write k value old henclosing) seen s := by
  apply Meets.bind (meets_admit_metadata fun seen t c hside => permits_side hside)
  intro result seen' u _ _ _ hmeta
  apply meets_persist
  · exact fun t _ => permits_of_keeps fun hnumbered hcontrolled hlater hsub =>
      h result seen' t hmeta hnumbered hcontrolled hlater hsub
  · intro hnamespace
    rw [hkind] at hnamespace
    exact absurd hnamespace (by decide)

/-- A Pod is put back with other owner references: none of a controller that it lacks, unless it
has no controller. -/
theorem meets_replace (hversion : KeepsVersion lib) (howners : KeepsOwners lib)
    (hread : ReadAs (adoption lib) seen s k stored p)
    (hnext : setAt p ["metadata", "ownerReferences"] (.array refs) = .ok next)
    (hrefs : controllers p ≠ [] → ∀ uid ∈ controllersOf refs, uid ∈ controllers p)
    (hlength : (controllersOf refs).length ≤ max 1 (controllers p).length) :
    Meets Call.perform (adoption lib) r (fun _ _ _ => True)
      (Work.replace client fresh pods ns next) seen s := by
  have hpod : pods.kind ≠ "ConfigMap" ∧ pods.kind ≠ "Secret" := by decide
  apply Meets.lift_bind
  intro name _
  have hnamed : next["metadata"]["resourceVersion"] = .string (toString stored.revision) := by
    rw [getElem_setAt_ne (getElem_setAt_step hnext) (by decide)]
    exact object_revision hread.reads
  have hcontrollers : controllers next = controllersOf refs := by
    unfold controllers ownerReferences
    rw [getElem_setAt (getElem_setAt_step hnext)]
    rfl
  refine Meets.bind (P := fun _ _ _ => True) ?_ ?_
  · apply meets_send rfl
    · exact fun hverb => absurd hverb (by decide)
    · intro _ seen' t proposal hp
      have hsent := proposed_controllers howners (by decide : "update" ≠ "patch") rfl hp
      have hold := proposed_version hversion rfl ⟨hpod.1, hpod.2⟩ hp hnamed
      apply meets_finish rfl
      intro result seen₂ u hmeta hnumbered hcontrolled hlater hsub
      have hresult : controllers result = controllers next :=
        (controllers_congr (by rw [hmeta])).trans hsent
      rw [hold]
      -- what is replaced is the version that was listed
      have hcurrent : ∀ current, u.get proposal.key = some current →
          current.revision = stored.revision → controllers current.value = controllers p := by
        intro current hget hrevision
        obtain ⟨reg, hpast, hlisted⟩ := (hread.mono hsub hlater).past
        obtain ⟨_, rfl⟩ := hpast.inv.1.version hpast.since hlisted hget hrevision
        exact controllers_object hread.reads
      refine ⟨fun hpods value hbrings haccepted => ?_, fun hpods current value hget hexpects
        hbrings hne uid huid => ?_⟩
      · obtain rfl := Option.some.inj hbrings
        obtain ⟨current, hget, hrevision⟩ := haccepted _ rfl
        have hone := hcontrolled _ current hpods hget
        rw [hcurrent current hget hrevision] at hone
        rw [hresult, hcontrollers]
        omega
      · obtain rfl := Option.some.inj hbrings
        rw [hcurrent current hget (Option.some.inj hexpects).symm] at hne ⊢
        rw [hresult, hcontrollers] at huid
        exact hrefs hne uid huid
  · intro answer seen' t _ _ _ _
    cases answer with
    | ok _ => exact .pure fun _ _ _ => trivial
    | error _ => trivial

/-- A Pod is created with one controller at most. -/
theorem meets_create (howners : KeepsOwners lib) (hkind : resource.kind = "Pod")
    (hsent : (controllers sent).length ≤ 1) :
    Meets Call.perform (adoption lib) r (fun _ _ _ => True)
      (Work.create client fresh resource ns sent) seen s := by
  unfold Work.create
  refine Meets.bind (P := fun _ _ _ => True) ?_ ?_
  · apply meets_send rfl
    · exact fun hverb => absurd hverb (by decide)
    · intro _ seen' t proposal hp
      have hstored := proposed_controllers howners (by decide : "create" ≠ "patch") rfl hp
      apply meets_finish hkind
      intro result seen₂ u hmeta _ _ _ _
      rw [proposed_create rfl hp]
      refine ⟨fun _ value hbrings _ => ?_, fun _ _ _ _ hexpects => (by cases hexpects)⟩
      obtain rfl := Option.some.inj hbrings
      have hresult : controllers result = controllers proposal.value :=
        controllers_congr (by rw [hmeta])
      rwa [hresult, hstored]
  · intro answer seen' t _ _ _ _
    cases answer with
    | ok _ => exact .pure fun _ _ _ => trivial
    | error _ => trivial

theorem meets_remove :
    Meets Call.perform (adoption lib) r (fun _ _ _ => True)
      (Work.delete client fresh pods ns p) seen s := by
  apply Meets.lift_bind
  intro uid _
  apply Meets.lift_bind
  intro version _
  apply Meets.lift_bind
  intro name _
  refine Meets.bind (P := fun _ _ _ => True) ?_ ?_
  · apply meets_send rfl
    · intro _ seen' t reg k' stored' obj c _ hcall
      cases hcall with
      | marked hnamespace => exact absurd (show "Pod" = "Namespace" from hnamespace) (by decide)
      | removed _ =>
        exact permits_of_keeps fun _ _ _ _ =>
          ⟨fun _ _ hbrings => (by cases hbrings), fun _ _ _ _ _ hbrings => (by cases hbrings)⟩
    · exact fun hverb => absurd rfl hverb
  · intro answer seen' t _ _ _ _
    split <;> first | trivial | exact .pure fun _ _ _ => trivial

theorem meets_live :
    Meets Call.perform (adoption lib) r (fun _ _ _ => True) (Work.live resource ns rs) seen s := by
  apply Meets.lift_bind
  intro named _
  refine Meets.bind meets_ask ?_
  exact fun _ _ _ _ _ _ _ => .pure fun _ _ _ => trivial

theorem controllersOf_append (refs refs' : List Json) :
    controllersOf (refs ++ refs') = controllersOf refs ++ controllersOf refs' := by
  simp [controllersOf]

theorem controllersOf_owner : (controllersOf [owner rs]).length = 1 := by
  simp [controllersOf, isController, owner, Json.getElem_ofPairs]

theorem controllersOf_filter {keep : Json → Bool} {refs : List Json} :
    (controllersOf (refs.filter keep)).Sublist (controllersOf refs) :=
  (List.filter_sublist.filter isController).map _

theorem orphan_controllers (h : (!(ownerReferences p).any isController) = true) :
    controllers p = [] := by
  rw [Bool.not_eq_true', List.any_eq_false] at h
  unfold controllers controllersOf
  rw [List.filter_eq_nil_iff.mpr h, List.map_nil]

/-- A controller that is not there yet is added only where there is none. -/
theorem controllersOf_adoptedReferences (rs p : Json) (matched : Bool) :
    let refs := adoptedReferences rs p (!(ownerReferences p).any isController && matched)
    (controllers p ≠ [] → ∀ uid ∈ controllersOf refs, uid ∈ controllers p) ∧
      (controllersOf refs).length ≤ max 1 (controllers p).length := by
  have h : (!(ownerReferences p).any isController && matched) = true → controllers p = [] :=
    fun hadopts => orphan_controllers (Bool.and_eq_true_iff.mp hadopts).1
  generalize (!(ownerReferences p).any isController && matched) = adopts at h ⊢
  dsimp only
  unfold adoptedReferences
  rw [controllersOf_append]
  have hkept : (controllersOf ((ownerReferences p).filter
      fun o => o["uid"] ≠ rs["metadata"]["uid"])).Sublist (controllersOf (ownerReferences p)) :=
    controllersOf_filter
  cases adopts with
  | false =>
    have hlength := hkept.length_le
    constructor
    · intro _ uid huid
      rw [if_neg Bool.false_ne_true] at huid
      exact hkept.subset (by simpa [controllersOf] using huid)
    · rw [if_neg Bool.false_ne_true, List.length_append]
      change _ + 0 ≤ max 1 (controllersOf (ownerReferences p)).length
      omega
  | true =>
    have hnone := h rfl
    have hlength := hkept.length_le
    constructor
    · exact fun hne => absurd hnone hne
    · change controllersOf (ownerReferences p) = [] at hnone
      rw [hnone, List.length_nil] at hlength
      rw [if_pos rfl, List.length_append, controllersOf_owner]
      omega

variable {listed : List Json} {metadata : List (String × Json)} {freshness : ℕ → Fresh}

theorem meets_adopt (hversion : KeepsVersion lib) (howners : KeepsOwners lib)
    (hlisted : ∀ object ∈ listed, ∃ k stored, ReadAs (adoption lib) seen s k stored object) :
    Meets Call.perform (adoption lib) r (fun _ _ _ => True)
      (adopt client freshness ns rs listed) seen s := by
  induction listed with
  | nil => exact .pure fun _ _ _ => trivial
  | cons p rest ih =>
    unfold adopt
    dsimp only
    split_ifs with hclaims
    · apply Meets.bind meets_live
      intro alive seen' t _ hrely hsub _
      cases alive with
      | false => exact .pure fun _ _ _ => trivial
      | true =>
        apply Meets.lift_bind
        intro next hnext
        obtain ⟨k, stored, hread⟩ := hlisted p (by simp)
        have hclaimed := controllersOf_adoptedReferences rs p
          (labelsMatch rs["spec"]["selector"] p["metadata"]["labels"])
        refine Meets.bind (meets_replace hversion howners (hread.mono hsub hrely)
          (Fallible.mapError_eq_ok.mp hnext) hclaimed.1 hclaimed.2) ?_
        exact fun _ _ _ _ _ _ _ => .pure fun _ _ _ => trivial
    · exact ih fun object hobject => hlisted object (List.mem_cons_of_mem _ hobject)

theorem controllers_templatePod {name : String} :
    controllers (templatePod rs metadata name) = controllersOf [owner rs] := by
  unfold controllers ownerReferences templatePod
  simp [Json.getElem_ofPairs, Json.items, Json.asArray]

theorem meets_createPods (howners : KeepsOwners lib) (n : ℕ) :
    Meets Call.perform (adoption lib) r (fun _ _ _ => True)
      (createPods client freshness ns rs metadata n) seen s := by
  induction n generalizing seen s with
  | zero => exact .pure fun _ _ _ => trivial
  | succ n ih =>
    unfold createPods
    apply Meets.bind meets_live
    intro alive seen' t _ _ _ _
    cases alive with
    | false => exact .pure fun _ _ _ => trivial
    | true =>
      apply Meets.lift_bind
      intro name _
      have hone : (controllers (templatePod rs metadata name)).length ≤ 1 := by
        rw [controllers_templatePod, controllersOf_owner]
      exact Meets.bind (meets_create howners rfl hone) fun _ _ _ _ _ _ _ => ih

theorem meets_deletePods (victims : List Json) :
    Meets Call.perform (adoption lib) r (fun _ _ _ => True)
      (deletePods client freshness ns rs victims) seen s := by
  induction victims generalizing seen s with
  | nil => exact .pure fun _ _ _ => trivial
  | cons pod rest ih =>
    unfold deletePods
    apply Meets.bind meets_live
    intro alive seen' t _ _ _ _
    cases alive with
    | false => exact .pure fun _ _ _ => trivial
    | true => exact Meets.bind meets_remove fun _ _ _ _ _ _ _ => ih

theorem meets_sync (hversion : KeepsVersion lib) (howners : KeepsOwners lib)
    (hlisted : ∀ object ∈ listed, ∃ k stored, ReadAs (adoption lib) seen s k stored object) :
    Meets Call.perform (adoption lib) r (fun _ _ _ => True)
      (sync client freshness ns rs listed) seen s := by
  unfold sync
  apply Meets.lift_bind
  intro desired _
  apply Meets.lift_bind
  intro _ _
  apply Meets.lift_bind
  intro metadata _
  apply Meets.bind (meets_adopt hversion howners hlisted)
  intro ended seen' t _ _ _ _
  cases ended with
  | true => exact .pure fun _ _ _ => trivial
  | false =>
    rw [if_neg Bool.false_ne_true]
    dsimp only
    split_ifs
    · exact meets_createPods howners _
    · exact meets_deletePods _
    · exact .pure fun _ _ _ => trivial

theorem meets_replicaSetOnce (hversion : KeepsVersion lib) (howners : KeepsOwners lib)
    (name : String) :
    Meets Call.perform (adoption lib) r (fun _ _ _ => True)
      (replicaSetOnce client freshness ns name) seen s := by
  refine Meets.bind meets_ask ?_
  intro found seen' t _ _ _ _
  cases found with
  | none => exact .pure fun _ _ _ => trivial
  | some rs =>
    dsimp only
    split_ifs
    · exact .pure fun _ _ _ => trivial
    · refine Meets.bind meets_list ?_
      exact fun listed seen₂ u _ _ _ hlisted => meets_sync hversion howners hlisted

theorem adoption_met (hversion : KeepsVersion lib) (howners : KeepsOwners lib) :
    (adoption lib).MetBy Call.perform Claimant.program := by
  intro r s _
  cases r with
  | request q =>
    apply Meets.bind (P := fun _ _ _ => True)
    · refine (Meets.attempt (P := fun _ _ _ => True) ?_).weaken fun _ _ _ _ _ => trivial
      apply Meets.of_permits
      rintro seen t c ⟨hnumbered, hcontrolled⟩ hguard
      have hvalid := hguard rfl
      refine ⟨fun h => Bool.noConfusion h, ⟨c.perform_numbered hnumbered, ?_⟩, c.perform_later t⟩
      exact podsControlled_perform hcontrolled fun hpods value hbrings _ =>
        hvalid hpods value hbrings
    · exact fun _ _ _ _ _ _ _ => .pure fun _ _ _ => trivial
  | replicaSet client fresh ns name => exact meets_replicaSetOnce hversion howners name

end

/-- The Pods that clients' requests write have one controller at most. -/
def OwnersValid {lib : Libraries} (p : Claimants lib) (l : Turn (Claimant lib)) : Prop :=
  ∀ i t c next, l = .advance i → p.threads[i]? = some t → t.rest = .call c next →
    t.request.isReconciler = false → BringsValid c

theorem guarded_of_ownersValid {lib : Libraries} {p : Claimants lib} {l : Turn (Claimant lib)}
    (h : OwnersValid p l) : (adoption lib).Guarded p l := by
  cases l with
  | advance i => exact fun t c next => h i t c next rfl
  | _ => trivial

theorem noTakeover_advance {lib : Libraries} {p q : Claimants lib} {i : ℕ}
    {t : Thread Registry Purpose Call Reply Halt Unit (Claimant lib)}
    (h : (adoption lib).Holds Call.perform s p) (ht : p.threads[i]? = some t)
    (hreconciler : t.request.isReconciler = true)
    (hstep : p.step Call.perform Claimant.program (.advance i) = some q) :
    NoTakeover p.state q.state := by
  obtain ⟨u, hu, hrest⟩ := Option.bind_eq_some_iff.mp hstep
  obtain ⟨⟨t', after⟩, hadvance, hq⟩ := Option.bind_eq_some_iff.mp hrest
  cases hq
  obtain rfl : u = t := Option.some.inj (hu.symm.trans ht)
  unfold Thread.advance at hadvance
  cases hnext : u.rest with
  | done a => simp [hnext] at hadvance
  | fail e => simp [hnext] at hadvance
  | read what next =>
    simp only [hnext] at hadvance
    cases hadvance
    intro k o o' _ hbefore hafter _ uid huid
    cases hbefore.symm.trans hafter
    exact huid
  | call c next =>
    have hguard : (adoption lib).guard u.request u.seen p.state c := by
      intro hclient
      rw [hreconciler] at hclient
      cases hclient
    have hkeeps := h.ensures hu hnext hguard hreconciler
    simp only [hnext] at hadvance
    cases hadvance
    exact noTakeover_perform hkeeps

/-- Whatever ReplicaSets' passes and clients' requests do in between, each Pod has one controller
at most, and no step of a ReplicaSet's pass gives a Pod that has one another. -/
theorem one_controller {lib : Libraries} (hversion : KeepsVersion lib) (howners : KeepsOwners lib)
    {reg : Registry} {ls : List (Turn (Claimant lib))} {p : Claimants lib}
    (hstart : Numbered reg) (hcontrolled : PodsControlled reg)
    (h : Run (Pool.step Call.perform Claimant.program) OwnersValid ⟨reg, []⟩ ls p) :
    PodsControlled p.state ∧
      ∀ i t q, p.threads[i]? = some t → t.request.isReconciler = true →
        p.step Call.perform Claimant.program (.advance i) = some q →
          NoTakeover p.state q.state := by
  have hholds := Contract.holds (adoption_met hversion howners) ⟨hstart, hcontrolled⟩
    (h.weaken fun p l hvalid => guarded_of_ownersValid hvalid)
  exact ⟨hholds.inv.2, fun i t q ht hreconciler hstep =>
    noTakeover_advance hholds ht hreconciler hstep⟩

/-! ## A Pod that its ReplicaSet adopts -/

def webSet : Json :=
  .ofPairs [("apiVersion", .string "apps/v1"), ("kind", .string "ReplicaSet"),
    ("metadata", .ofPairs [("namespace", .string "team-a"), ("name", .string "web"),
      ("uid", .string "u0")]),
    ("spec", .ofPairs [("replicas", .number (.int 1)), ("selector", .ofPairs
      [("matchLabels", .ofPairs [("app", .string "web")])])])]

def webPod (metadata : List (String × Json)) : Json :=
  .ofPairs [("apiVersion", .string "v1"), ("kind", .string "Pod"), ("metadata", .ofPairs
    (("namespace", .string "team-a") :: ("name", .string "web-1") :: ("uid", .string "u1") ::
      ("labels", .ofPairs [("app", .string "web")]) :: metadata))]

def claimedPod : Json :=
  webPod [("resourceVersion", .string "3"), ("ownerReferences", .array [owner webSet])]

def claimRegistry : Registry :=
  .ofList [("/registry/namespaces/team-a", .ofPairs [("metadata", .ofPairs [])]),
    ("/registry/replicasets/team-a/web", webSet), ("/registry/pods/team-a/web-1", webPod [])]

def podControllers (reg : Registry) : List (List String) :=
  (reg.list "/registry/pods/").map fun e => controllers e.2.value

def onlyReconcilers {lib : Libraries} (p : Claimants lib) : Turn (Claimant lib) → Bool
  | .advance i => p.threads[i]?.all fun t => t.request.isReconciler
  | _ => true

theorem ownersValid_of_onlyReconcilers {lib : Libraries} (p : Claimants lib)
    (l : Turn (Claimant lib)) (h : onlyReconcilers p l = true) : OwnersValid p l := by
  rintro i t c next rfl ht _ hclient
  simp [onlyReconcilers, ht, hclient] at h

/-- The Pod is adopted, and nothing before took it from anyone. -/
theorem orphan_adopted : ∃ p : Claimants (readsOne claimedPod),
    Run (Pool.step Call.perform Claimant.program) OwnersValid ⟨claimRegistry, []⟩
      (.arrive (.replicaSet (writesOne "system:h3s:replicaset" claimedPod) (fun _ => .plain)
        "team-a" "web") :: List.replicate 8 (.advance 0)) p ∧
    podControllers claimRegistry = [[]] ∧ podControllers p.state = [["u0"]] ∧
      PodsControlled p.state := by
  have hexec : (exec (fun (p : Claimants (readsOne claimedPod)) l =>
        if onlyReconcilers p l then Pool.step Call.perform Claimant.program p l else none)
      ⟨claimRegistry, []⟩
      (.arrive (.replicaSet (writesOne "system:h3s:replicaset" claimedPod) (fun _ => .plain)
        "team-a" "web") :: List.replicate 8 (.advance 0))).any (fun p =>
          podControllers p.state = [["u0"]]) = true := by
    decide +kernel
  obtain ⟨p, hp, hend⟩ := (Option.any_eq_true _ _).mp hexec
  have hrun := guarded_of_exec ownersValid_of_onlyReconcilers hp
  have hcontrolled : PodsControlled claimRegistry := by
    have hone : ∀ e ∈ claimRegistry.objects, (controllers e.2.value).length ≤ 1 := by
      decide +kernel
    exact fun k o _ hget => hone (k, o) (Registry.mem_objects.mpr hget)
  refine ⟨p, hrun, by decide +kernel, of_decide_eq_true hend, ?_⟩
  exact (one_controller (fun _ _ _ h => by rw [Except.ok.inj h])
    (fun _ _ _ h => by rw [Except.ok.inj h]) (numbered_ofList _) hcontrolled hrun).1

end Hedronetes.Controllers
