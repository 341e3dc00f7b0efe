import Hedronetes.Api.PodSoundness
import Hedronetes.Server.Runs
import Hedronetes.Server.Settled
import Hedronetes.Server.Updates
import Hedronetes.Controllers.Acceptance

/-!
# The ReplicaSet of a template

The ReplicaSet that a pass creates is stored with the Deployment's template and the hash among its
labels. The passes after it recognise it by that template with the hash taken out again, unless the
template has no labels: then what is left of the labels is an empty object, where the Deployment has
null.
-/

namespace Hedronetes.Controllers.Deployments

open Server Apply FirstMatch Fallible Auth Runs StableSort
open Storage (StoreKey)

variable {digest : Json → String} {d d' rs view t t' v x : Json} {all pods sets : List Json}
  {minimum : ℤ} {live : Bool} {base : SpecRules} {lib : Libraries} {reg reg' : Registry}
  {k : StoreKey} {stored : Stored}

/-! ## Templates with the hash -/

/-- A write of a place goes over what was written below it. -/
theorem setAt_over (path more : List String) (h : setAt t (path ++ more) v = .ok t') (x : Json) :
    ∃ r, setAt t' path x = .ok r ∧ setAt t path x = .ok r := by
  induction path generalizing t t' with
  | nil => exact ⟨x, rfl, rfl⟩
  | cons name path ih =>
    cases t with
    | object fields =>
      obtain ⟨inner, hinner, hresult⟩ := bind_eq_ok.mp h
      obtain rfl := Except.ok.inj hresult
      obtain ⟨r, hover, hplain⟩ := ih hinner
      refine ⟨.object (insertKey name r fields), ?_, bind_eq_ok.mpr ⟨r, hplain, rfl⟩⟩
      refine bind_eq_ok.mpr ⟨r, ?_, ?_⟩
      · rw [lookup_insertKey]
        exact hover
      · rw [insertKey_insertKey]
        rfl
    | null =>
      obtain ⟨inner, hinner, hresult⟩ := bind_eq_ok.mp h
      obtain rfl := Except.ok.inj hresult
      obtain ⟨r, hover, hplain⟩ := ih hinner
      refine ⟨.object [(name, r)], ?_, bind_eq_ok.mpr ⟨r, hplain, rfl⟩⟩
      refine bind_eq_ok.mpr ⟨r, ?_, ?_⟩
      · rw [lookup_cons, if_pos rfl]
        exact hover
      · change (.ok (.object (insertKey name r (insertKey name inner []))) : Outcome Json) = _
        rw [insertKey_insertKey]
        rfl
    | _ => cases h

theorem write_ok {path : List String} : write t path v = .ok t' ↔ setAt t path v = .ok t' :=
  mapError_eq_ok

/-- The labels of a template that has the hash set. -/
theorem labels_write (h : write t ["metadata", "labels", HASH] x = .ok t') :
    setAt t["metadata"]["labels"] [HASH] x = .ok t'["metadata"]["labels"] :=
  getElem_setAt_step (getElem_setAt_step (write_ok.mp h))

/-- A ReplicaSet with the template and the hash is the current one exactly if the template has
labels. -/
theorem isCurrent_iff (hset : write d["spec"]["template"] ["metadata", "labels", HASH] x =
      .ok rs["spec"]["template"]) :
    isCurrent d rs = .ok true ↔ d["spec"]["template"]["metadata"]["labels"].isObject = true := by
  have hover := setAt_over ["metadata", "labels"] [HASH] (write_ok.mp hset)
  have hwritten := labels_write hset
  unfold isCurrent templateWithoutHash
  cases hlabels : d["spec"]["template"]["metadata"]["labels"] with
  | object labels =>
    rw [hlabels] at hwritten
    obtain ⟨inner, hinner, hwritten⟩ := bind_eq_ok.mp hwritten
    rw [← Except.ok.inj hwritten]
    dsimp only
    rw [eraseKey_insertKey]
    obtain ⟨r, hmine, hwanted⟩ := hover (.object (eraseKey HASH labels))
    rw [write_ok.mpr hmine, write_ok.mpr hwanted]
    exact ⟨fun _ => rfl, fun _ => congrArg Except.ok (decide_eq_true rfl)⟩
  | null =>
    rw [hlabels] at hwritten
    obtain ⟨inner, hinner, hwritten⟩ := bind_eq_ok.mp hwritten
    rw [← Except.ok.inj hwritten]
    dsimp only
    obtain ⟨r, hmine, _⟩ := hover (.object (eraseKey HASH [(HASH, inner)]))
    obtain ⟨r', _, hwanted⟩ := hover .null
    rw [write_ok.mpr hmine, write_ok.mpr hwanted]
    have hmineLabels : r["metadata"]["labels"] = .object (eraseKey HASH [(HASH, inner)]) :=
      getElem_setAt (getElem_setAt_step hmine)
    have hwantedLabels : r'["metadata"]["labels"] = .null :=
      getElem_setAt (getElem_setAt_step hwanted)
    have hne : r ≠ r' := by
      rintro rfl
      rw [hmineLabels] at hwantedLabels
      cases hwantedLabels
    constructor
    · intro h
      exact absurd (of_decide_eq_true (Except.ok.inj h)) hne
    · intro h
      cases h
  | _ =>
    rw [hlabels] at hwritten
    cases hwritten

/-! ## The ReplicaSet of a pass -/

/-- What a pass makes of a Deployment. -/
structure Made (d rs : Json) : Prop where
  name : rs["metadata"]["name"].hasText = true
  labels : rs["metadata"]["labels"] = rs["spec"]["template"]["metadata"]["labels"]
  owner : rs["metadata"]["ownerReferences"] = .array [owner d]
  unmarked : rs["metadata"]["deletionTimestamp"] = .null
  template : ∃ hash, write d["spec"]["template"] ["metadata", "labels", HASH] (.string hash) =
    .ok rs["spec"]["template"]
  replicas : rs["spec"]["replicas"] = .number (.int 0)

theorem setName_ne (name hash : String) : setName name hash ≠ "" := by
  intro h
  have hlist := congrArg String.toList h
  simp [setName] at hlist

theorem newSet_made (h : newSet digest d sets minimum = .ok rs) : Made d rs := by
  obtain ⟨name, hname, h⟩ := bind_eq_ok.mp h
  obtain ⟨uid, _, h⟩ := bind_eq_ok.mp h
  obtain ⟨template, htemplate, h⟩ := bind_eq_ok.mp h
  obtain ⟨selector, _, h⟩ := bind_eq_ok.mp h
  obtain ⟨revision, _, h⟩ := bind_eq_ok.mp h
  rw [← Except.ok.inj h]
  constructor
  · simp [Json.getElem_ofPairs, Json.hasText, Json.asString, setName_ne]
  · simp [Json.getElem_ofPairs]
  · simp [Json.getElem_ofPairs]
  · simp [Json.getElem_ofPairs]
  · exact ⟨_, by simpa [Json.getElem_ofPairs] using htemplate⟩
  · simp [Json.getElem_ofPairs]

/-- A pass creates nothing where it finds the ReplicaSet of the template. -/
theorem rollOut_creates {new : ℕ} {desired : ℤ} : Yields (fun r => ∀ rs, r ≠ .create rs)
    (rollOut d sets new pods live desired minimum) := by
  have hok : ∀ {r : Request}, (∀ rs, r ≠ .create rs) →
      Yields (fun r => ∀ rs, r ≠ .create rs) (.ok r : Result Request) := by
    intro r hr a ha
    rw [← Except.ok.inj ha]
    exact hr
  unfold rollOut scaled
  repeat' first
    | exact .error
    | exact hok fun rs => Request.noConfusion
    | refine .bind fun _ => ?_
    | split

/-- A pass that creates a ReplicaSet has found none of the template. -/
theorem sync_create (h : sync digest d all pods live = .ok (.create rs)) :
    suppliesHash d = false ∧ current d (activeSets d all) = .ok none ∧ Made d rs := by
  obtain ⟨desired, _, h⟩ := bind_eq_ok.mp h
  obtain ⟨minimum, _, h⟩ := bind_eq_ok.mp h
  obtain ⟨_, _, h⟩ := bind_eq_ok.mp h
  by_cases hsupplies : suppliesHash d = true
  · rw [if_pos hsupplies] at h
    cases h
  rw [if_neg hsupplies] at h
  cases hadoption : adoption d all with
  | some found =>
    rw [hadoption] at h
    cases live with
    | false => cases h
    | true =>
      obtain ⟨_, _, h⟩ := bind_eq_ok.mp h
      cases h
  | none =>
    rw [hadoption] at h
    dsimp only at h
    by_cases hpaused : d["spec"]["paused"] = .bool true
    · rw [if_pos hpaused] at h
      cases h
    rw [if_neg hpaused] at h
    obtain ⟨found, hfound, h⟩ := bind_eq_ok.mp h
    cases found with
    | some new => exact absurd rfl (rollOut_creates _ h rs)
    | none =>
      cases live with
      | false => cases h
      | true =>
        obtain ⟨made, hmade, h⟩ := bind_eq_ok.mp h
        cases h
        exact ⟨Bool.not_eq_true _ ▸ hsupplies, hfound, newSet_made hmade⟩

theorem current_none (h : current d sets = .ok none) : ∀ r ∈ sets, isCurrent d r = .ok false := by
  induction sets with
  | nil => simp
  | cons r sets ih =>
    obtain ⟨found, hfound, h⟩ := bind_eq_ok.mp h
    split_ifs at h with hcurrent
    · cases h
    · obtain ⟨rest, hrest, h⟩ := bind_eq_ok.mp h
      cases rest with
      | some n => cases h
      | none =>
        intro r' hr'
        rcases List.mem_cons.mp hr' with rfl | hmem
        · rw [hfound, Bool.eq_false_iff.mpr hcurrent]
        · exact ih hrest r' hmem

/-! ## What the server makes of a workload -/

/-- The rules of Deployments gave the specification. -/
def AcceptedSpec (spec : Json) : Prop := ∃ given, workload "Deployment" given = .ok spec

/-- An accepted workload has a template that its rules leave alone and that its selector selects. -/
theorem workload_parts {kind : String} {given spec : Json} (h : workload kind given = .ok spec) :
    Ruled "template" templateRule spec ∧
      selectorMatches spec["selector"] spec["template"]["metadata"]["labels"] = .ok () := by
  rw [workload_eq] at h
  obtain ⟨_, -, h⟩ := bind_eq_ok.mp h
  obtain ⟨filled, -, h⟩ := bind_eq_ok.mp h
  obtain ⟨_, -, h⟩ := bind_eq_ok.mp h
  obtain ⟨ruled, hruled, h⟩ := bind_eq_ok.mp h
  have hframe := (workloadChecked_settles kind).frame ruled spec h
  have htemplate : spec["template"] = ruled["template"] := hframe "template" (by decide)
  have hselector : spec["selector"] = ruled["selector"] := hframe "selector" (by decide)
  constructor
  · have hkept := onMember_ruled templateRule_idempotent (fun _ _ => templateRule_ne_null) hruled
    unfold Ruled at hkept ⊢
    rwa [htemplate]
  · obtain ⟨_, -, h⟩ := bind_eq_ok.mp h
    obtain ⟨_, -, h⟩ := bind_eq_ok.mp h
    obtain ⟨_, hmatches, -⟩ := bind_eq_ok.mp h
    rw [htemplate, hselector]
    exact hmatches

/-- A ReplicaSet with replicas and such a template is stored as it is. -/
theorem workload_same {given spec : Json} (hreplicas : given["replicas"] = .number (.int 0))
    (htemplate : Ruled "template" templateRule given)
    (h : workload "ReplicaSet" given = .ok spec) : spec = given := by
  rw [workload_eq] at h
  obtain ⟨_, -, h⟩ := bind_eq_ok.mp h
  obtain ⟨filled, hfilled, h⟩ := bind_eq_ok.mp h
  unfold defaultAt at hfilled
  rw [hreplicas, if_neg (by decide)] at hfilled
  obtain rfl := Except.ok.inj hfilled
  obtain ⟨_, -, h⟩ := bind_eq_ok.mp h
  rw [htemplate.onMember] at h
  change workloadChecked "ReplicaSet" given = .ok spec at h
  obtain ⟨_, -, h⟩ := bind_eq_ok.mp h
  obtain ⟨_, -, h⟩ := bind_eq_ok.mp h
  obtain ⟨_, -, h⟩ := bind_eq_ok.mp h
  exact (Except.ok.inj h).symm

/-- The hash is none of what the rules of a template go by. -/
theorem templateRule_hash (htemplate : Ruled "template" templateRule d["spec"])
    (hset : write d["spec"]["template"] ["metadata", "labels", HASH] x = .ok t') :
    t' ≠ .null ∧ templateRule t' = .ok t' := by
  obtain ⟨_, -, hrule⟩ := bind_eq_ok.mp htemplate.2
  have hspec := onMember_ruled pod_idempotent (fun _ _ => pod_ne_null) hrule
  have hkept : Ruled "spec" pod t' := by
    unfold Ruled at hspec ⊢
    rwa [getElem_setAt_ne (write_ok.mp hset) (by decide)]
  have hobject := isObject_of_member hkept.1
  refine ⟨?_, bind_eq_ok.mpr ⟨(), require_ok.mpr hobject, hkept.onMember⟩⟩
  rintro rfl
  exact absurd hobject (by decide)

theorem prepare_workload {rules : SpecRules} {resource : Resource} {value : Json}
    {old : Option Json} (hkind : resource.kind = "Deployment" ∨ resource.kind = "ReplicaSet")
    (h : prepare rules resource value old false = .ok v) :
    rules.workload resource.kind value["spec"] = .ok v["spec"] ∧
      (old = none → v["status"] = .object []) := by
  unfold prepare at h
  rw [if_neg (by decide)] at h
  obtain ⟨filled, hfilled, h⟩ := ite_bind_eq_ok.mp h
  obtain ⟨w, hw, h⟩ := bind_eq_ok.mp h
  have hstatus : resource.hasStatus = true := by
    rcases hkind with hkind | hkind <;> simp [Resource.hasStatus, hkind]
  rw [if_pos hstatus] at hfilled
  have hrule : (withSpec filled (rules.workload resource.kind)) = .ok w := by
    unfold prepareKind at hw
    rcases hkind with hkind | hkind
    · rw [hkind] at hw ⊢
      exact hw
    · rw [hkind] at hw ⊢
      exact hw
  obtain ⟨spec, hspec, hset⟩ := bind_eq_ok.mp hrule
  rw [getElem_setAt_ne hfilled (by decide)] at hspec
  have hsame : v["spec"] = w["spec"] ∧ v["status"] = w["status"] := by
    cases old with
    | some stored =>
      obtain ⟨_, -, h⟩ := bind_eq_ok.mp h
      obtain ⟨marked, hmarked, h⟩ := bind_eq_ok.mp h
      rw [withGeneration_ne h (by decide), withGeneration_ne h (by decide),
        getElem_setAt_ne hmarked (by decide), getElem_setAt_ne hmarked (by decide)]
      exact ⟨rfl, rfl⟩
    | none =>
      obtain ⟨marked, hmarked, h⟩ := bind_eq_ok.mp h
      rw [withGeneration_ne h (by decide), withGeneration_ne h (by decide),
        getElem_removeAt_ne hmarked (by decide), getElem_removeAt_ne hmarked (by decide)]
      exact ⟨rfl, rfl⟩
  constructor
  · rw [hsame.1, getElem_setAt hset]
    exact hspec
  · rintro rfl
    rw [hsame.2, getElem_setAt_ne hset (by decide), getElem_setAt hfilled]
    rcases hkind with hkind | hkind <;> rw [hkind] <;> rfl

/-! ## Labels with the hash -/

/-- A selector that says nothing of the hash selects the labels with the hash, if it selects them
without. -/
theorem labelsMatch_hash {labels labels' : Json} (hsupplies : suppliesHash d = false)
    (hselects : selectorMatches d["spec"]["selector"] labels = .ok ())
    (hset : setAt labels [HASH] x = .ok labels') :
    labelsMatch d["spec"]["selector"] labels' = true := by
  rw [selectors_agree] at hselects
  unfold suppliesHash at hsupplies
  simp only [Bool.or_eq_false_iff, List.any_eq_false] at hsupplies
  obtain ⟨⟨_, hwanted⟩, hexpressions⟩ := hsupplies
  unfold labelsMatch at hselects ⊢
  simp only [Bool.and_eq_true, List.all_eq_true] at hselects ⊢
  obtain ⟨⟨hcount, hpairs⟩, hall⟩ := hselects
  refine ⟨⟨hcount, fun e he => ?_⟩, fun r hr => ?_⟩
  · have hne : e.1 ≠ HASH := by
      intro heq
      cases hmatch : d["spec"]["selector"]["matchLabels"] with
      | object pairs =>
        rw [hmatch] at hwanted he
        rw [Json.field, Option.isSome_eq_false_iff, Option.isNone_iff_eq_none,
          lookup_eq_none_iff] at hwanted
        exact hwanted (heq ▸ List.mem_map_of_mem he)
      | _ =>
        rw [hmatch] at he
        cases he
    rw [getElem_setAt_ne hset hne]
    exact hpairs e he
  · have hmatches := hall r hr
    unfold expressionMatches at hmatches ⊢
    cases hkey : r["key"].asString.filter (· ≠ "") with
    | none =>
      rw [hkey] at hmatches
      cases hmatches
    | some key =>
      have hne : key ≠ HASH := by
        rintro rfl
        have hread := Json.asString_eq_some.mp (Option.filter_eq_some_iff.mp hkey).1
        exact hexpressions r hr (decide_eq_true hread)
      rw [hkey] at hmatches
      dsimp only at hmatches ⊢
      rw [field_setAt_ne hset hne, getElem_setAt_ne hset hne]
      exact hmatches

/-! ## The creation -/

/-- The write of a request that creates a ReplicaSet. -/
def creation (user : User) (ns : String) : Write := ⟨user, ⟨replicaSets, some ns, none, none⟩, "create"⟩

variable {user : User} {ns : String} {fresh : Fresh} {response : Response} {client : Client lib}

/-- Admission completes no ReplicaSet. -/
theorem admit_replicaSet {old enclosing : Option Json} {value result : Json}
    (h : admitWrite lib fresh (creation user ns) k value old enclosing reg = .ok result reg') :
    result = value ∧ reg' = reg := by
  have hkind : (creation user ns).target.resource.kind = "ReplicaSet" := rfl
  refine ⟨?_, admit_same h (by rw [hkind]; decide) (by rw [hkind]; decide)⟩
  obtain ⟨completed, reg₁, hcompleted, hkind, _⟩ := admit_ok h
  unfold serviceAccountStep at hcompleted
  rw [if_neg (fun hpod => absurd hpod.1 (by decide : "ReplicaSet" ≠ "Pod"))] at hcompleted
  rw [Except.ok.inj hcompleted]
  exact (Effects.pure_eq_ok.mp hkind).1.symm

/-- A created ReplicaSet as it is stored, and as its creator and every list gets it. -/
structure Created (rs : Json) (ns : String) (reg reg' : Registry) (response : Response)
    (view : Json) : Prop where
  stored : ∃ k stored, reg.get k = none ∧ reg'.get k = some stored ∧ object stored = .ok view
  answered : response = .object 201 view
  spec : view["spec"] = rs["spec"]
  status : view["status"] = .object []
  ns : ns ≠ "" → view["metadata"]["namespace"] = .string ns
  metadata : ∀ f ∈ ["labels", "ownerReferences", "deletionTimestamp"],
    view["metadata"][f] = rs["metadata"][f]

theorem execute_created (hrules : lib.rules = strategyRules base) (hmade : Made d rs)
    (haccepted : AcceptedSpec d["spec"]) (htyped : lib.normalize replicaSets rs = .ok rs)
    (h : execute lib fresh (creation user ns) ⟨[], []⟩ (client.body rs) reg = .ok response reg') :
    ∃ view, Created rs ns reg reg' response view := by
  have hkind : (creation user ns).target.resource.kind = "ReplicaSet" := rfl
  have hverb : (creation user ns).verb = "create" := rfl
  obtain ⟨p, hp, hcommit⟩ := execute_write_ok (fun hbinding => by cases hbinding)
    (by rw [hverb]; decide) h
  rcases propose_cases hp with ⟨_, hwrite⟩ | ⟨options, hoptions, _⟩
  swap
  · rw [plain_options] at hoptions
    cases hoptions
  obtain ⟨decoded, value, hdecoded, hvalue, hprepared, hkey, _⟩ := proposeWrite_ok hwrite
  obtain ⟨body, hbody, hnormalized⟩ := bind_eq_ok.mp hdecoded
  obtain rfl := client.decodes hbody
  have hnone : p.old = none := by
    rcases (concurrency_ok hvalue).2 with ⟨_, _, hnone, _⟩ | ⟨hupdate | hpatch, _⟩
    · exact hnone
    · exact absurd (hverb.symm.trans hupdate) (by decide)
    · exact absurd (hverb.symm.trans hpatch) (by decide)
  -- the object on its way from the body to what is prepared
  have hspec : value["spec"] = body["spec"] := by
    have hapart : "spec" ≠ "metadata" := by decide
    obtain ⟨typed, hread, hsame⟩ := normalized_ne hapart hnormalized
    obtain rfl := Except.ok.inj (hread.symm.trans htyped)
    rw [concurrency_ne (by decide) hvalue, hsame]
  obtain ⟨typed, generated, name, hread, hgenerated, _, _, _, hplaced, _⟩ :=
    normalized_steps hnormalized
  obtain rfl := Except.ok.inj (hread.symm.trans htyped)
  unfold generateName at hgenerated
  rw [if_neg (by simp [hmade.name])] at hgenerated
  obtain rfl := Except.ok.inj hgenerated
  rw [hnone] at hprepared
  have hmain : (creation user ns).target.subresource = none := rfl
  have hkept := prepareWrite_keeps hmain hprepared
  rw [prepareWrite_eq _ _ (by rw [hkind]; decide), hrules] at hprepared
  obtain ⟨hruled, hstatus⟩ := prepare_workload (.inr rfl) hprepared
  -- the prepared object is the one that is stored
  obtain ⟨admitted, reg₁, hadmitted, hpersist⟩ := Effects.bind_eq_ok.mp hcommit
  obtain ⟨rfl, rfl⟩ := admit_replicaSet hadmitted
  rw [hnone] at hpersist
  obtain ⟨stored, reg₂, hcreate, hpersist⟩ := Effects.bind_eq_ok.mp hpersist
  obtain ⟨hfree, rfl, rfl⟩ := create_ok.mp hcreate
  obtain ⟨view, hview, hpersist⟩ := Effects.ofExcept_bind_eq_ok.mp hpersist
  obtain ⟨rfl, rfl⟩ := Effects.pure_eq_ok.mp hpersist
  refine ⟨view, ⟨p.key, _, hfree, Registry.get_put _ _ _, hview⟩, rfl, ?_, ?_, fun hne => ?_,
    fun f hf => ?_⟩
  · rw [object_ne hview (by decide)]
    rw [hspec] at hruled
    obtain ⟨given, haccepted⟩ := haccepted
    obtain ⟨hash, hset⟩ := hmade.template
    exact workload_same hmade.replicas (templateRule_hash (workload_parts haccepted).1 hset) hruled
  · rw [object_ne hview (by decide)]
    exact hstatus rfl
  · rw [object_ns hview]
    have hns : p.value["metadata"]["namespace"] = .string ns := by
      rw [hkept "namespace" (by decide), (concurrency_ok hvalue).1 "namespace" (by decide)]
      exact (inNamespace_ok hplaced).2.1 ns rfl
    dsimp only
    rw [hns, if_neg (by simpa using hne)]
  · have hapart : f ∉ serverMembers ∧ f ≠ "namespace" ∧ f ≠ "resourceVersion" := by
      revert f
      decide
    rw [object_metadata hview f hapart.2.2 hapart.2.1]
    dsimp only
    rw [hkept f hapart.1, (concurrency_ok hvalue).1 f hapart.1,
      (inNamespace_ok hplaced).1 f hapart.2.1]

/-! ## Deployments that are accepted -/

/-- Every stored Deployment has a specification that its rules gave. -/
def DeploymentsAccepted (reg : Registry) : Prop :=
  ∀ k stored, Family "deployments" k → reg.get k = some stored → AcceptedSpec stored.value["spec"]

theorem copyField_read {key : String} {value source result : Json}
    (h : copyField value key source = .ok result) : result[key] = source[key] := by
  unfold copyField at h
  split_ifs at h with hnull
  · rw [hnull]
    cases value with
    | object fields =>
      rw [← Except.ok.inj h, Json.getElem_eq, Json.field, lookup_eraseKey]
      rfl
    | _ =>
      rw [← Except.ok.inj h]
      rfl
  · exact getElem_setAt h

theorem prepare_status_spec {rules : SpecRules} {resource : Resource} {value old result : Json}
    (h : prepare rules resource value (some old) true = .ok result) :
    result["spec"] = old["spec"] := by
  unfold prepare at h
  rw [if_pos rfl] at h
  unfold prepareStatus at h
  obtain ⟨copied, hcopied, h⟩ := bind_eq_ok.mp h
  obtain ⟨replaced, hreplaced, h⟩ := ite_bind_eq_ok.mp h
  obtain ⟨versioned, hversioned, h⟩ := bind_eq_ok.mp h
  have hsame : result = versioned := by
    split_ifs at h
    · obtain ⟨_, _, h⟩ := bind_eq_ok.mp h
      exact (Except.ok.inj h).symm
    · exact (Except.ok.inj h).symm
  rw [hsame, getElem_setAt_ne hversioned (by decide), ← copyField_read hcopied]
  split_ifs at hreplaced
  · exact getElem_setAt_ne hreplaced (by decide)
  · rw [Except.ok.inj hreplaced]

theorem admit_deployment {write : Write} {old enclosing : Option Json} {value result : Json}
    (hkind : write.target.resource.kind = "Deployment")
    (h : admitWrite lib fresh write k value old enclosing reg = .ok result reg') :
    result = value := by
  obtain ⟨completed, reg₁, hcompleted, hstep, _⟩ := admit_ok h
  unfold serviceAccountStep at hcompleted
  rw [if_neg (fun hpod => absurd (hkind.symm.trans hpod.1) (by decide))] at hcompleted
  rw [Except.ok.inj hcompleted]
  unfold kindStep at hstep
  rw [hkind] at hstep
  by_cases hsub : write.target.subresource.isSome = true
  · rw [if_pos hsub] at hstep
    exact (Effects.pure_eq_ok.mp hstep).1.symm
  · rw [if_neg hsub] at hstep
    exact (Effects.pure_eq_ok.mp hstep).1.symm

/-- What is proposed for a Deployment has an accepted specification. -/
theorem propose_accepted {write : Write} {query : Query} {body : Body} {p : Proposal}
    (hrules : lib.rules = strategyRules base) (hkind : write.target.resource.kind = "Deployment")
    (haccepted : ∀ rv o, p.old = some (rv, o) → AcceptedSpec o["spec"])
    (h : propose lib fresh write query body reg = .ok p) : AcceptedSpec p.value["spec"] := by
  have hprepared : ∃ value, prepareWrite lib write value (p.old.map Prod.snd) = .ok p.value := by
    rcases propose_cases h with ⟨_, hwrite⟩ | ⟨options, _, _, happly⟩
    · obtain ⟨_, value, _, _, hprepared, _⟩ := proposeWrite_ok hwrite
      exact ⟨value, hprepared⟩
    · obtain ⟨_, _, merged, _, _, _, _, hprepared, _⟩ := proposeApply_ok happly
      exact ⟨merged, hprepared⟩
  obtain ⟨value, hprepared⟩ := hprepared
  rw [prepareWrite_eq _ _ (by rw [hkind]; decide), hrules] at hprepared
  cases hstatus : write.target.subresource.isSome with
  | false =>
    rw [hstatus] at hprepared
    have hspec := (prepare_workload (.inl hkind) hprepared).1
    rw [hkind] at hspec
    exact ⟨_, hspec⟩
  | true =>
    rw [hstatus] at hprepared
    cases hold : p.old with
    | none =>
      rw [hold] at hprepared
      cases hprepared
    | some found =>
      rw [hold] at hprepared
      rw [prepare_status_spec hprepared]
      exact haccepted found.1 found.2 hold

theorem serve_accepted {request : HttpRequest} (hrules : lib.rules = strategyRules base)
    (h : serve lib fresh user request reg = .ok response reg')
    (haccepted : DeploymentsAccepted reg) : DeploymentsAccepted reg' := by
  intro k stored hk hget
  by_cases hsame : reg'.get k = reg.get k
  · exact haccepted k stored hk (hsame ▸ hget)
  obtain ⟨target, v, grant, hauthorized, hplural, _, hexecuted⟩ :=
    changed_served (by decide) (by decide) (serve_ok h) hk hsame
  have hkind : target.resource.kind = "Deployment" := by
    rw [show target.resource = deployments from
      plural_inj hauthorized.served (by decide) hplural]
    rfl
  cases hexecuted with
  | bound hsub =>
    have hserves := ((Target.parse_ok hauthorized.parsed).subresource _ hsub).2
    exact absurd ((of_decide_eq_true hserves : target.resource.kind = "Pod").symm.trans hkind)
      (by decide)
  | @deleted k' current obj _ _ _ _ _ hdeleted =>
    have hnamespace : target.resource.kind ≠ "Namespace" := by
      rw [hkind]
      decide
    cases hdeleted with
    | removed =>
      by_cases hown : k = k'
      · rw [hown, Registry.get_drop] at hget
        cases hget
      · exact absurd (Registry.get_drop_ne hown) hsame
    | marked hmarked => exact absurd hmarked hnamespace
    | kept hkept => exact absurd hkept hnamespace
  | @committed p _ _ _ hp hcommit =>
    obtain ⟨value, reg₁, hadmitted, _, hcommitted⟩ := commit_ok hcommit
    obtain rfl : reg₁ = reg := admit_same hadmitted
      (by change target.resource.kind ≠ _; rw [hkind]; decide)
      (by change target.resource.kind ≠ _; rw [hkind]; decide)
    obtain rfl := admit_deployment hkind hadmitted
    have hown : k = p.key := by
      by_contra hother
      exact hsame (hcommitted.same k hother)
    have hspec : AcceptedSpec p.value["spec"] := by
      refine propose_accepted hrules hkind (fun rv o hold => ?_) hp
      obtain ⟨current, hcurrent, hobject, _⟩ := (propose_found hp).1 rv o hold
      rw [object_ne hobject (by decide)]
      exact haccepted k current hk (hown ▸ hcurrent)
    rw [hown] at hget
    cases hcommitted with
    | written =>
      rw [Registry.get_put] at hget
      cases hget
      exact hspec
    | removed =>
      rw [Registry.get_drop] at hget
      cases hget

theorem run_accepted {s w : World} {ls : List Event} (hrules : lib.rules = strategyRules base)
    (hrun : AnyRun (step lib) s ls w) (hstart : DeploymentsAccepted s.registry) :
    DeploymentsAccepted w.registry := by
  apply hrun.invariant (I := fun w => DeploymentsAccepted w.registry) hstart
  intro u l t hu _ hstep
  cases l with
  | request fresh user request =>
    obtain ⟨response, hserve, _⟩ := step_request_ok hstep
    exact serve_accepted hrules hserve hu
  | tick seconds =>
    cases hstep
    exact hu

/-! ## Recognition -/

/-- The same Deployment at another time, with the same template. -/
structure Continues (d d' : Json) : Prop where
  apiVersion : d'["apiVersion"] = d["apiVersion"]
  kind : d'["kind"] = d["kind"]
  name : d'["metadata"]["name"] = d["metadata"]["name"]
  ns : d'["metadata"]["namespace"] = d["metadata"]["namespace"]
  uid : d'["metadata"]["uid"] = d["metadata"]["uid"]
  selector : d'["spec"]["selector"] = d["spec"]["selector"]
  template : d'["spec"]["template"] = d["spec"]["template"]

theorem Continues.refl (d : Json) : Continues d d := ⟨rfl, rfl, rfl, rfl, rfl, rfl, rfl⟩

/-- The same ReplicaSet at another time, not deleted, with its labels, its owner and its template. -/
structure Stays (view later : Json) : Prop where
  ns : later["metadata"]["namespace"] = view["metadata"]["namespace"]
  labels : later["metadata"]["labels"] = view["metadata"]["labels"]
  references : later["metadata"]["ownerReferences"] = view["metadata"]["ownerReferences"]
  template : later["spec"]["template"] = view["spec"]["template"]
  active : active later = true

/-- The Deployment's passes take the ReplicaSet for the one of its template, and create no other where
they see it. -/
structure Recognised (digest : Json → String) (d view : Json) : Prop where
  owned : owned view d = true
  matched : labelsMatch d["spec"]["selector"] view["metadata"]["labels"] = true
  current : isCurrent d view = .ok true
  only : ∀ (all pods : List Json) (live : Bool) (rs : Json), view ∈ all →
    sync digest d all pods live ≠ .ok (.create rs)

variable {later : Json}

theorem Created.active (hcreated : Created rs ns reg reg' response view) (hmade : Made d rs) :
    active view = true := by
  unfold Controllers.active
  rw [hcreated.metadata "deletionTimestamp" (by simp), hmade.unmarked, hcreated.status]
  rfl

theorem Created.stays (hcreated : Created rs ns reg reg' response view) (hmade : Made d rs) :
    Stays view view := ⟨rfl, rfl, rfl, rfl, hcreated.active hmade⟩

theorem Created.owned (hcreated : Created rs ns reg reg' response view) (hmade : Made d rs)
    (hns : d["metadata"]["namespace"] = .string ns) (hne : ns ≠ "") (hsame : Continues d d')
    (hstays : Stays view later) : owned later d' = true := by
  have hreferences : ownerReferences later = [owner d] := by
    unfold ownerReferences
    rw [hstays.references, hcreated.metadata "ownerReferences" (by simp), hmade.owner]
    rfl
  have hcontroller : controller later = some (owner d) := by
    have hmarked : isController (owner d) = true := by simp [isController, owner, Json.getElem_ofPairs]
    unfold controller
    rw [hreferences]
    simp [hmarked]
  unfold Controllers.owned
  rw [hcontroller, hstays.ns, hcreated.ns hne, hsame.ns, hns]
  simp [owner, Json.getElem_ofPairs, hsame.uid, hsame.name, hsame.kind, hsame.apiVersion]

/-- The selector selects the labels of the template, and the hash is none of its business. -/
theorem Created.matched (hcreated : Created rs ns reg reg' response view) (hmade : Made d rs)
    (haccepted : AcceptedSpec d["spec"]) (hsupplies : suppliesHash d = false)
    (hsame : Continues d d') (hstays : Stays view later) :
    labelsMatch d'["spec"]["selector"] later["metadata"]["labels"] = true := by
  obtain ⟨given, hgiven⟩ := haccepted
  obtain ⟨hash, hset⟩ := hmade.template
  rw [hsame.selector, hstays.labels, hcreated.metadata "labels" (by simp), hmade.labels]
  exact labelsMatch_hash hsupplies (workload_parts hgiven).2 (labels_write hset)

theorem Created.current_iff (hcreated : Created rs ns reg reg' response view) (hmade : Made d rs)
    (hsame : Continues d d') (hstays : Stays view later) :
    isCurrent d' later = .ok true ↔
      d["spec"]["template"]["metadata"]["labels"].isObject = true := by
  obtain ⟨hash, hset⟩ := hmade.template
  rw [← hsame.template] at hset ⊢
  rw [← hcreated.spec, ← hstays.template] at hset
  exact isCurrent_iff hset

/-- A pass that sees an owned ReplicaSet of the template creates none. -/
theorem sync_recognised (howned : owned later d = true) (hactive : active later = true)
    (hcurrent : isCurrent d later = .ok true) (hmem : later ∈ all) :
    sync digest d all pods live ≠ .ok (.create rs) := by
  intro h
  have hlisted : later ∈ activeSets d all := by
    apply (perm_sortBy age _).mem_iff.mpr
    exact List.mem_filter.mpr ⟨hmem, by rw [howned, hactive]; rfl⟩
  have hother := current_none (sync_create h).2.1 later hlisted
  rw [hcurrent] at hother
  cases hother

/-- The ReplicaSet that a pass creates is the Deployment's own and selected by it, and the passes
that follow take it for the one of the template exactly if the template has labels. -/
theorem template_recognised_iff {w : World} {ls : List Event}
    (hrules : lib.rules = strategyRules base)
    (hrun : AnyRun (step lib) ⟨.empty, 0⟩ ls w)
    (hk : Family "deployments" k) (hget : w.registry.get k = some stored)
    (hread : object stored = .ok d) (hns : d["metadata"]["namespace"] = .string ns)
    (hsync : sync digest d all pods live = .ok (.create rs))
    (htyped : lib.normalize replicaSets rs = .ok rs)
    (h : execute lib fresh (creation user ns) ⟨[], []⟩ (client.body rs) reg = .ok response reg') :
    ∃ view, Created rs ns reg reg' response view ∧
      ((∀ d' later, Continues d d' → Stays view later → Recognised digest d' later) ↔
        d["spec"]["template"]["metadata"]["labels"].isObject = true) := by
  obtain ⟨hsupplies, _, hmade⟩ := sync_create hsync
  have haccepted : AcceptedSpec d["spec"] := by
    have hempty : DeploymentsAccepted Registry.empty := by
      intro k stored _ hnone
      cases hnone
    rw [object_ne hread (by decide)]
    exact run_accepted hrules hrun hempty k stored hk hget
  have hne : ns ≠ "" := by
    rintro rfl
    rw [object_ns hread] at hns
    split_ifs at hns with htext
    exact htext hns
  obtain ⟨view, hcreated⟩ := execute_created hrules hmade haccepted htyped h
  refine ⟨view, hcreated, ?_, ?_⟩
  · intro hrecognised
    have hnow := hrecognised d view (.refl d) (hcreated.stays hmade)
    exact (hcreated.current_iff hmade (.refl d) (hcreated.stays hmade)).mp hnow.current
  · intro hlabels d' later hsame hstays
    have howned := hcreated.owned hmade hns hne hsame hstays
    have hcurrent := (hcreated.current_iff hmade hsame hstays).mpr hlabels
    constructor
    · exact howned
    · exact hcreated.matched hmade haccepted hsupplies hsame hstays
    · exact hcurrent
    · intro all pods live rs hmem
      exact sync_recognised howned hstays.active hcurrent hmem

/-! ## Templates with and without labels -/

/-- A Deployment of a Pod `web` whose template has this metadata, with this selector. -/
def webDeployment (metadata selector : List (String × Json)) : Json :=
  .ofPairs [("apiVersion", .string "apps/v1"), ("kind", .string "Deployment"),
    ("metadata", .ofPairs [("name", .string "web"), ("namespace", .string "team-a")]),
    ("spec", .ofPairs [("selector", .ofPairs selector), ("template", .ofPairs
      [("metadata", .ofPairs metadata), ("spec", Api.podOf [] [])])])]

def labelled : Json :=
  webDeployment [("labels", .ofPairs [("app", .string "web")])]
    [("matchLabels", .ofPairs [("app", .string "web")])]

/-- The selector asks for Pods without a label, which the template has none of. -/
def unlabelled : Json :=
  webDeployment [] [("matchExpressions",
    .array [.ofPairs [("key", .string "tier"), ("operator", .string "DoesNotExist")]])]

/-- A server with the rules of the kinds that reads these values only. -/
def webLibraries (values : List Json) : Libraries :=
  { readsAll values with rules := strategyRules .plain }

def webClient (values : List Json) : Client (webLibraries values) where
  user := (writesAll "system:admin" values).user
  bytes := (writesAll "system:admin" values).bytes
  reads := (writesAll "system:admin" values).reads

def webOwner : User := ⟨"system:admin", ["system:masters"]⟩

def webNamespace : Json :=
  .ofPairs [("apiVersion", .string "v1"), ("kind", .string "Namespace"),
    ("metadata", .ofPairs [("name", .string "team-a")])]

def webPost (path : String) (place : UInt8) : Event :=
  .request .plain webOwner ⟨"POST", path, ⟨[], []⟩, ⟨"application/json", [place]⟩⟩

def webEvents : List Event :=
  [webPost "/api/v1/namespaces" 0, webPost "/apis/apps/v1/namespaces/team-a/deployments" 1]

def webKey : StoreKey := ⟨"/registry/deployments/team-a/web", by decide⟩

/-- The Deployment as it is stored. -/
def webStored (given : Json) : Json :=
  ((Runs.exec (step (webLibraries [webNamespace, given])) ⟨.empty, 0⟩ webEvents).bind fun w =>
    (w.registry.get webKey).bind fun o => (object o).toOption).getD
      .null

/-- The ReplicaSet that the first pass creates. -/
def webSet (hash : String) (given : Json) : Json :=
  (newSet (fun _ => hash) (webStored given) [] 0).toOption.getD .null

def webValues (hash : String) (given : Json) : List Json :=
  [webNamespace, given, webSet hash given]

/-- What is read after the Deployment is stored, and the answer to the ReplicaSet's creator. -/
def webAnswers (hash : String) (given : Json) : Option (Json × Response) := do
  let w ← Runs.exec (step (webLibraries (webValues hash given))) ⟨.empty, 0⟩ webEvents
  let stored ← w.registry.get webKey
  let d ← (object stored).toOption
  let body := (webClient (webValues hash given)).body (webSet hash given)
  let response ← answer (execute (webLibraries (webValues hash given)) .plain
    (creation webOwner "team-a") ⟨[], []⟩ body) w.registry
  return (d, response)

theorem webAnswers_served {hash : String} {given : Json}
    (h : webAnswers hash given = some (d, response)) : ∃ w stored reg',
    AnyRun (step (webLibraries (webValues hash given))) ⟨.empty, 0⟩ webEvents w ∧
      w.registry.get webKey = some stored ∧ object stored = .ok d ∧
      execute (webLibraries (webValues hash given)) .plain (creation webOwner "team-a") ⟨[], []⟩
        ((webClient (webValues hash given)).body (webSet hash given)) w.registry =
          .ok response reg' := by
  unfold webAnswers at h
  simp only [Option.bind_eq_bind, Option.bind_eq_some_iff] at h
  obtain ⟨w, hexec, stored, hget, seen, hread, answered, hanswer, h⟩ := h
  obtain ⟨rfl, rfl⟩ := Prod.mk.inj (Option.some.inj h)
  obtain ⟨reg', hexecute⟩ := ok_of_answer hanswer
  exact ⟨w, stored, reg', Runs.run_of_exec hexec, hget, toOption_eq_some.mp hread, hexecute⟩

/-- What the digests begin with. -/
def labelledHash : String := "635db5be7132ff56"

def unlabelledHash : String := "948900229a0dbdc1"

theorem labelled_recognised : ∃ d view,
    webAnswers labelledHash labelled = some (d, .object 201 view) ∧
      Recognised (fun _ => labelledHash) d view := by
  obtain ⟨⟨d, response⟩, h⟩ : ∃ r, webAnswers labelledHash labelled = some r :=
    Option.isSome_iff_exists.mp (by decide +kernel)
  obtain ⟨w, stored, reg', hrun, hget, hread, hexecute⟩ := webAnswers_served h
  have hd : (webAnswers labelledHash labelled).map (fun r => decide
      (r.1["metadata"]["namespace"] = .string "team-a" ∧
        r.1["spec"]["template"]["metadata"]["labels"].isObject = true ∧
        (sync (fun _ => labelledHash) r.1 [] [] true).toOption =
          some (.create (webSet labelledHash labelled)))) = some true := by
    decide +kernel
  rw [h] at hd
  obtain ⟨hns, hlabels, hsync⟩ := of_decide_eq_true (Option.some.inj hd)
  have hrules : (webLibraries (webValues labelledHash labelled)).rules = strategyRules .plain := rfl
  obtain ⟨view, hcreated, hiff⟩ := template_recognised_iff hrules hrun
    (k := webKey) ⟨"team-a/web", by decide⟩ hget hread hns (toOption_eq_some.mp hsync) rfl hexecute
  refine ⟨d, view, hcreated.answered ▸ h, hiff.mpr hlabels d view (.refl d) ?_⟩
  exact hcreated.stays (sync_create (toOption_eq_some.mp hsync)).2.2

/-- A template without labels: the pass after the creation does not find the ReplicaSet, and asks
for another. -/
theorem unlabelled_created_again : ∃ d view again,
    webAnswers unlabelledHash unlabelled = some (d, .object 201 view) ∧
      sync (fun _ => unlabelledHash) d [] [] true =
        .ok (.create (webSet unlabelledHash unlabelled)) ∧
      isCurrent d view = .ok false ∧
      sync (fun _ => unlabelledHash) d [view] [] true = .ok (.create again) := by
  have hdone : (webAnswers unlabelledHash unlabelled).any (fun r =>
      match r with
      | (d, .object 201 view) => decide
        ((sync (fun _ => unlabelledHash) d [] [] true).toOption =
            some (.create (webSet unlabelledHash unlabelled)) ∧
          (isCurrent d view).toOption = some false ∧
          (sync (fun _ => unlabelledHash) d [view] [] true).toOption =
            some (.create ((newSet (fun _ => unlabelledHash) d [view] 0).toOption.getD .null)))
      | _ => false) = true := by
    decide +kernel
  obtain ⟨⟨d, response⟩, h, hdone⟩ := (Option.any_eq_true _ _).mp hdone
  split at hdone
  · rename_i d' view heq
    cases heq
    obtain ⟨hfirst, hother, hsecond⟩ := of_decide_eq_true hdone
    exact ⟨d, view, _, h, toOption_eq_some.mp hfirst, toOption_eq_some.mp hother,
      toOption_eq_some.mp hsecond⟩
  · cases hdone

end Hedronetes.Controllers.Deployments
