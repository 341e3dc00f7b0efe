import Hedronetes.Controllers.DeploymentPass
import Hedronetes.Controllers.Rollout

/-!
# Recreate

A Deployment with the Recreate strategy gets replicas of its new version once the ReplicaSets of the
others are drained. A ReplicaSet that is marked for deletion is none of those that a pass looks at.
-/

namespace Hedronetes.Controllers.Deployments

open Server Fallible StableSort

/-- A ReplicaSet that asks for no replicas, reports none for its generation and has no active Pod. -/
structure Drained (pods : List Json) (r : Json) : Prop where
  asked : replicas r = .ok 0
  observed : observed r = true
  reported : count r "replicas" = 0
  pods : ∀ p ∈ pods, active p = true → owned p r = false

/-- The Deployment's ReplicaSets but the new one. -/
def oldSets (d : Json) (all : List Json) (rs : Json) : List Json :=
  (all.filter fun r => owned r d).erase rs

/-- Whatever the pass reads, it scales the new ReplicaSet above zero only with all others drained. -/
def SeparatesVersions (digest : Json → String) (d : Json) (all pods : List Json) : Prop :=
  ∀ (live : Bool) (new : ℕ) (n : ℤ) (rs next : Json),
    current d (activeSets d all) = .ok (some new) → (activeSets d all)[new]? = some rs →
      sync digest d all pods live = .ok (.scale new n next) → 0 < n →
        ∀ r ∈ oldSets d all rs, Drained pods r

/-- The Deployment is admitted and nothing is left to do but to give its new ReplicaSet the replicas
that it asks for: the other ReplicaSets that are not marked for deletion are drained. -/
structure Switches (d : Json) (all pods : List Json) (new : ℕ) (rs : Json) : Prop where
  wanted : ∃ n m, replicas d = .ok n ∧ 0 < n ∧ replicas rs = .ok m ∧ m ≠ n
  minimum : minimumReady d = .ok (rs["spec"]["minReadySeconds"].asInt.getD 0)
  metadata : ∃ metadata, templateMetadata d["spec"]["template"] = .ok metadata
  unsupplied : suppliesHash d = false
  adopted : adoption d all = none
  unpaused : d["spec"]["paused"] ≠ .bool true
  current : current d (activeSets d all) = .ok (some new)
  place : (activeSets d all)[new]? = some rs
  observed : observed rs = true
  others : ∀ i r, (activeSets d all)[i]? = some r → i ≠ new → Drained pods r

variable {digest : Json → String} {d rs next r : Json} {all pods sets : List Json} {new : ℕ}
  {n desired newDesired minimum : ℤ} {live : Bool}

/-! ## The plan -/

/-- Drained of replicas, as far as the plan looks at a set. -/
def asksNone (r : Json) : Prop := replicas r = .ok 0 ∧ count r "replicas" = 0

/-- The new set is planned for once every other one asks for no replicas and reports none. -/
theorem recreate_iff : recreate sets new newDesired desired = .ok (some (new, n)) ↔
    (∀ i r, sets[i]? = some r → i ≠ new → asksNone r) ∧ newDesired ≠ desired ∧ n = desired := by
  have hreported : ((places sets).any fun e => e.2 ≠ new ∧ 0 < count e.1 "replicas") = false ↔
      ∀ i r, sets[i]? = some r → i ≠ new → count r "replicas" = 0 := by
    rw [List.any_eq_false]
    constructor
    · intro h i r hr hne
      have hcount := h (r, i) (mem_places.mpr hr)
      have := count_nonneg r "replicas"
      simp only [decide_eq_true_eq, not_and, not_lt] at hcount
      have := hcount hne
      omega
    · rintro h ⟨r, i⟩ hmem
      simp only [decide_eq_true_eq, not_and, not_lt]
      intro hne
      rw [h i r (mem_places.mp hmem) hne]
  unfold recreate
  rw [bind_eq_ok]
  constructor
  · rintro ⟨running, hrunning, h⟩
    cases running with
    | some action =>
      obtain ⟨before, ⟨r, i⟩, after, _, hfound, _⟩ := findSomeM?_eq_some hrunning
      cases Except.ok.inj h
      dsimp only at hfound
      split_ifs at hfound with hne
      · obtain ⟨m, _, hfound⟩ := bind_eq_ok.mp hfound
        split_ifs at hfound
        · have heq := Prod.mk.inj (Option.some.inj (Except.ok.inj hfound))
          exact absurd heq.1 hne
        · cases Except.ok.inj hfound
      · cases Except.ok.inj hfound
    | none =>
      dsimp only at h
      split_ifs at h with hany hchange
      · cases Except.ok.inj h
      · rw [Bool.not_eq_true] at hany
        refine ⟨fun i r hr hne => ⟨?_, hreported.mp hany i r hr hne⟩, hchange, ?_⟩
        · have hfound := findSomeM?_eq_none.mp hrunning (r, i) (mem_places.mpr hr)
          dsimp only at hfound
          rw [if_pos hne] at hfound
          obtain ⟨m, hm, hfound⟩ := bind_eq_ok.mp hfound
          have hnonneg := (replicas_ok.mp hm).2.1
          split_ifs at hfound with hpos
          · cases Except.ok.inj hfound
          · rw [hm, show m = 0 by omega]
        · exact (Prod.mk.inj (Option.some.inj (Except.ok.inj h))).2.symm
      · cases Except.ok.inj h
  · rintro ⟨hothers, hchange, rfl⟩
    refine ⟨none, findSomeM?_eq_none.mpr ?_, ?_⟩
    · rintro ⟨r, i⟩ hmem
      dsimp only
      split_ifs with hne
      · rw [(hothers i r (mem_places.mp hmem) hne).1]
        rfl
      · rfl
    · have hany := hreported.mpr fun i r hr hne => (hothers i r hr hne).2
      dsimp only
      rw [hany, if_neg (by decide), if_pos hchange]
      rfl

/-- When the plan of a Recreate Deployment is for its new set. -/
theorem plan_recreate_iff (hrecreate : d["spec"]["strategy"]["type"] = .string "Recreate")
    (hplace : sets[new]? = some rs) : plan d sets new = .ok (some (new, n)) ↔
      replicas d = .ok n ∧ d["spec"]["paused"] ≠ .bool true ∧ (∀ r ∈ sets, observed r = true) ∧
        (∃ m, replicas rs = .ok m ∧ m ≠ n) ∧
          ∀ i r, sets[i]? = some r → i ≠ new → asksNone r := by
  have hpick : pick sets new = .ok rs := by
    rw [pick, hplace]
  unfold plan
  constructor
  · intro h
    obtain ⟨desired, hdesired, h⟩ := bind_eq_ok.mp h
    split_ifs at h with hpaused hobserved
    · cases Except.ok.inj h
    · cases Except.ok.inj h
    · obtain ⟨_, hpicked, h⟩ := bind_eq_ok.mp h
      obtain rfl := Except.ok.inj (hpick.symm.trans hpicked)
      obtain ⟨m, hm, h⟩ := bind_eq_ok.mp h
      obtain ⟨hothers, hchange, rfl⟩ := recreate_iff.mp h
      refine ⟨hdesired, hpaused, ?_, ⟨m, hm, hchange⟩, hothers⟩
      simpa using hobserved
  · rintro ⟨hdesired, hpaused, hobserved, ⟨m, hm, hchange⟩, hothers⟩
    have hall : sets.any (fun r => !observed r) = false := by
      simpa using hobserved
    rw [hdesired]
    change (if d["spec"]["paused"] = .bool true then _ else _) = _
    rw [if_neg hpaused, hall, if_neg (by decide), hpick]
    change replicas rs >>= _ = _
    rw [hm]
    change (if _ then _ else _) = _
    rw [if_pos hrecreate]
    exact recreate_iff.mpr ⟨hothers, hchange, rfl⟩

theorem oldPodsActive_eq_false : oldPodsActive sets new pods = false ↔
    ∀ i r, sets[i]? = some r → i ≠ new → ∀ p ∈ pods, active p = true → owned p r = false := by
  unfold oldPodsActive
  simp only [List.any_eq_false, Bool.and_eq_true, not_and]
  constructor
  · intro h i r hr hne p hp hactive
    have := h p hp hactive
    rw [Bool.not_eq_true, List.any_eq_false] at this
    simpa [hne] using this (r, i) (mem_places.mpr hr)
  · intro h p hp hactive
    rw [Bool.not_eq_true, List.any_eq_false]
    rintro ⟨r, i⟩ hmem
    by_cases hne : i = new
    · simp [hne]
    · simp [hne, h i r (mem_places.mp hmem) hne p hp hactive]

/-! ## The pass -/

theorem rollOut_scale_iff (hrecreate : d["spec"]["strategy"]["type"] = .string "Recreate")
    (hplace : sets[new]? = some rs) (hn : 0 < n) :
    (∃ next, rollOut d sets new pods live desired minimum = .ok (.scale new n next)) ↔
      rs["spec"]["minReadySeconds"].asInt.getD 0 = minimum ∧
        plan d sets new = .ok (some (new, n)) ∧ oldPodsActive sets new pods = false ∧ live = true ∧
          ∃ next, write rs ["spec", "replicas"] (.number (.int n)) = .ok next := by
  have hpick : pick sets new = .ok rs := by
    rw [pick, hplace]
  have hroll : rollOut d sets new pods live desired minimum = if
      rs["spec"]["minReadySeconds"].asInt.getD 0 ≠ minimum then
        if live then (Request.replace ·) <$> write rs ["spec", "minReadySeconds"] (.number (.int minimum))
        else .ok .nothing
      else plan d sets new >>= fun action =>
        action.elim (completed desired sets new >>= fun done =>
          if done then .ok (if live then .delete (expired d sets new pods) else .nothing)
          else .ok .nothing) fun e => scaled d sets new pods live e.1 e.2 := by
    rw [rollOut, hpick]
    refine if_congr Iff.rfl rfl (bind_congr fun action => ?_)
    cases action <;> rfl
  rw [hroll]
  constructor
  · rintro ⟨next, h⟩
    by_cases hready : rs["spec"]["minReadySeconds"].asInt.getD 0 ≠ minimum
    · rw [if_pos hready] at h
      cases live with
      | true =>
        cases hwrite : write rs ["spec", "minReadySeconds"] (.number (.int minimum)) with
        | ok result =>
          rw [hwrite] at h
          cases Except.ok.inj h
        | error e =>
          rw [hwrite] at h
          cases h
      | false => cases Except.ok.inj h
    · rw [if_neg hready] at h
      obtain ⟨action, hplan, h⟩ := bind_eq_ok.mp h
      cases action with
      | none =>
        obtain ⟨done, _, h⟩ := bind_eq_ok.mp h
        cases done <;> cases live <;> cases Except.ok.inj h
      | some action =>
        obtain ⟨place, m⟩ := action
        change scaled d sets new pods live place m = _ at h
        unfold scaled at h
        split_ifs at h with hwaits hlive
        · cases Except.ok.inj h
        · obtain ⟨s, hs, h⟩ := bind_eq_ok.mp h
          obtain ⟨result, hwrite, h⟩ := bind_eq_ok.mp h
          injection Except.ok.inj h with hplace' hm
          subst hplace' hm
          obtain rfl := Except.ok.inj (hpick.symm.trans hs)
          refine ⟨not_not.mp hready, hplan, ?_, hlive, result, hwrite⟩
          simpa [hrecreate, hn] using hwaits
        · cases Except.ok.inj h
  · rintro ⟨hready, hplan, hidle, rfl, next, hwrite⟩
    refine ⟨next, ?_⟩
    rw [if_neg (not_not.mpr hready), hplan]
    change scaled d sets new pods true new n = _
    rw [scaled, hidle, if_neg (by simp), if_pos rfl, hpick]
    change write rs ["spec", "replicas"] (.number (.int n)) >>= _ = _
    rw [hwrite]
    rfl

/-- A pass with nothing to adopt goes on to the Deployment's own ReplicaSets. -/
theorem sync_eq {metadata : List (String × Json)} (hdesired : replicas d = .ok desired)
    (hminimum : minimumReady d = .ok minimum)
    (hmetadata : templateMetadata d["spec"]["template"] = .ok metadata)
    (hsupplies : suppliesHash d = false) (hadoption : adoption d all = none)
    (hpaused : d["spec"]["paused"] ≠ .bool true)
    (hcurrent : current d (activeSets d all) = .ok (some new)) :
    sync digest d all pods live =
      rollOut d (activeSets d all) new pods live desired minimum := by
  unfold sync
  rw [hdesired, hminimum, hmetadata, hadoption, hsupplies]
  change (if d["spec"]["paused"] = .bool true then _ else _) = _
  rw [if_neg hpaused, hcurrent]
  rfl

/-- What a pass has found when it scales the new set above zero. -/
theorem switches_of_scale (hrecreate : d["spec"]["strategy"]["type"] = .string "Recreate")
    (hcurrent : current d (activeSets d all) = .ok (some new))
    (hplace : (activeSets d all)[new]? = some rs)
    (h : sync digest d all pods live = .ok (.scale new n next)) (hn : 0 < n) :
    Switches d all pods new rs := by
  have hsync := h
  obtain ⟨desired, hdesired, h⟩ := bind_eq_ok.mp h
  obtain ⟨minimum, hminimum, h⟩ := bind_eq_ok.mp h
  obtain ⟨metadata, hmetadata, h⟩ := bind_eq_ok.mp h
  by_cases hsupplies : suppliesHash d = true
  · rw [if_pos hsupplies] at h
    cases h
  rw [if_neg hsupplies] at h
  cases hadoption : adoption d all with
  | some adopted =>
    rw [hadoption] at h
    cases live with
    | true =>
      obtain ⟨_, _, h⟩ := bind_eq_ok.mp h
      cases Except.ok.inj h
    | false => cases Except.ok.inj h
  | none =>
    rw [hadoption] at h
    dsimp only at h
    by_cases hpaused : d["spec"]["paused"] = .bool true
    · rw [if_pos hpaused] at h
      cases Except.ok.inj h
    rw [sync_eq hdesired hminimum hmetadata (Bool.eq_false_iff.mpr hsupplies) hadoption hpaused
      hcurrent] at hsync
    obtain ⟨hready, hplan, hidle, _, _⟩ := (rollOut_scale_iff hrecreate hplace hn).mp ⟨next, hsync⟩
    obtain ⟨hreplicas, _, hobserved, ⟨k, hk, hne⟩, hothers⟩ :=
      (plan_recreate_iff hrecreate hplace).mp hplan
    refine ⟨⟨n, k, hreplicas, hn, hk, hne⟩, hready ▸ hminimum, ⟨metadata, hmetadata⟩,
      Bool.eq_false_iff.mpr hsupplies, hadoption, hpaused, hcurrent, hplace,
      hobserved rs (List.mem_of_getElem? hplace), fun i r hr hold => ?_⟩
    obtain ⟨hasked, hreported⟩ := hothers i r hr hold
    exact ⟨hasked, hobserved r (List.mem_of_getElem? hr), hreported,
      oldPodsActive_eq_false.mp hidle i r hr hold⟩

/-- A pass over a Deployment that only its new ReplicaSet keeps waiting scales that above zero. -/
theorem scale_of_switches (hrecreate : d["spec"]["strategy"]["type"] = .string "Recreate")
    (h : Switches d all pods new rs) :
    ∃ n next, sync digest d all pods true = .ok (.scale new n next) ∧ 0 < n := by
  obtain ⟨n, m, hreplicas, hn, hm, hne⟩ := h.wanted
  obtain ⟨metadata, hmetadata⟩ := h.metadata
  have hobserved : ∀ r ∈ activeSets d all, observed r = true := by
    intro r hr
    obtain ⟨i, hi⟩ := List.mem_iff_getElem?.mp hr
    by_cases hnew : i = new
    · rw [hnew, h.place] at hi
      exact Option.some.inj hi ▸ h.observed
    · exact (h.others i r hi hnew).observed
  have hplan : plan d (activeSets d all) new = .ok (some (new, n)) :=
    (plan_recreate_iff hrecreate h.place).mpr ⟨hreplicas, h.unpaused, hobserved, ⟨m, hm, hne⟩,
      fun i r hr hold => ⟨(h.others i r hr hold).asked, (h.others i r hr hold).reported⟩⟩
  have hidle : oldPodsActive (activeSets d all) new pods = false :=
    oldPodsActive_eq_false.mpr fun i r hr hold => (h.others i r hr hold).pods
  obtain ⟨written, hset⟩ := exists_setAt_replicas hm (.number (.int n))
  have hwrite : write rs ["spec", "replicas"] (.number (.int n)) = .ok written := by
    rw [write, hset]
    rfl
  obtain ⟨next, hscale⟩ := (rollOut_scale_iff hrecreate h.place hn).mpr
    ⟨rfl, hplan, hidle, rfl, written, hwrite⟩
  refine ⟨n, next, ?_, hn⟩
  rw [sync_eq hreplicas h.minimum hmetadata h.unsupplied h.adopted h.unpaused h.current]
  exact hscale

/-! ## The other ReplicaSets -/

/-- The Deployment's other ReplicaSets: those that are looked at, and those marked for deletion. -/
theorem mem_oldSets (hplace : (activeSets d all)[new]? = some rs) : r ∈ oldSets d all rs ↔
    (∃ i, i ≠ new ∧ (activeSets d all)[i]? = some r) ∨
      r ∈ all ∧ owned r d = true ∧ active r = false := by
  have hperm : (all.filter fun r => owned r d).Perm
      (activeSets d all ++ all.filter fun r => owned r d && !active r) := by
    have hsplit := List.filter_append_perm active (all.filter fun r => owned r d)
    rw [List.filter_filter, List.filter_filter] at hsplit
    refine hsplit.symm.trans (List.Perm.append ?_ ?_)
    · refine List.Perm.trans ?_ (perm_sortBy age _).symm
      simp only [Bool.and_comm]
      exact List.Perm.refl _
    · simp only [Bool.and_comm]
      exact List.Perm.refl _
  obtain ⟨hlt, hget⟩ := List.getElem?_eq_some_iff.mp hplace
  have hmem : rs ∈ activeSets d all := List.mem_of_getElem? hplace
  have herase : ((activeSets d all).erase rs).Perm ((activeSets d all).eraseIdx new) := by
    have hfront := (List.getElem_cons_eraseIdx_perm hlt).symm.erase rs
    rwa [hget, List.erase_cons_head] at hfront
  rw [oldSets, (hperm.erase rs).mem_iff, List.erase_append_left _ hmem, List.mem_append,
    List.mem_filter, Bool.and_eq_true, Bool.not_eq_true', herase.mem_iff,
    List.mem_eraseIdx_iff_getElem?]

/-- The new version gets replicas only with the other ones drained, unless a ReplicaSet that is
marked for deletion still is not when the new one is all that is waited for. -/
theorem recreate_separates_iff (hrecreate : d["spec"]["strategy"]["type"] = .string "Recreate") :
    SeparatesVersions digest d all pods ↔ ¬ ∃ new rs, Switches d all pods new rs ∧
      ∃ r ∈ all, owned r d = true ∧ active r = false ∧ ¬ Drained pods r := by
  constructor
  · rintro h ⟨new, rs, hswitches, r, hr, howned, hinactive, hnot⟩
    obtain ⟨n, next, hscale, hn⟩ := scale_of_switches hrecreate hswitches
    apply hnot
    apply h true new n rs next hswitches.current hswitches.place hscale hn r
    exact (mem_oldSets hswitches.place).mpr (.inr ⟨hr, howned, hinactive⟩)
  · intro h live new n rs next hcurrent hplace hscale hn r hr
    have hswitches := switches_of_scale hrecreate hcurrent hplace hscale hn
    rcases (mem_oldSets hplace).mp hr with ⟨i, hold, hi⟩ | ⟨hr, howned, hinactive⟩
    · exact hswitches.others i r hi hold
    · by_contra hnot
      exact h ⟨new, rs, hswitches, r, hr, howned, hinactive, hnot⟩

/-! ## A ReplicaSet that is marked for deletion -/

/-- A Deployment of one Pod that is recreated. -/
def recreated : Json :=
  .ofPairs [("apiVersion", .string "apps/v1"), ("kind", .string "Deployment"),
    ("metadata", .ofPairs [("name", .string "web"), ("namespace", .string "default"),
      ("uid", .string "d")]),
    ("spec", .ofPairs [("replicas", .number (.int 1)),
      ("selector", .ofPairs [("matchLabels", .ofPairs [("app", .string "web")])]),
      ("strategy", .ofPairs [("type", .string "Recreate")]),
      ("template", .ofPairs [("metadata", .ofPairs [("labels", .ofPairs [("app", .string "web")])]),
        ("spec", .ofPairs [("hostname", .string "new")])])])]

/-- A ReplicaSet of the Deployment, by its template's host name, its replicas and when it was marked
for deletion. -/
def setOf (uid host : String) (n : ℤ) (deletion : Json) : Json :=
  .ofPairs [("apiVersion", .string "apps/v1"), ("kind", .string "ReplicaSet"),
    ("metadata", .ofPairs [("name", .string uid), ("namespace", .string "default"),
      ("uid", .string uid), ("generation", .number (.int 1)), ("deletionTimestamp", deletion),
      ("labels", .ofPairs [("app", .string "web")]), ("ownerReferences", .array [owner recreated])]),
    ("spec", .ofPairs [("replicas", .number (.int n)),
      ("template", .ofPairs [("metadata", .ofPairs [("labels", .ofPairs [("app", .string "web")])]),
        ("spec", .ofPairs [("hostname", .string host)])])]),
    ("status", .ofPairs [("observedGeneration", .number (.int 1)),
      ("replicas", .number (.int n))])]

def podOf (rs : Json) : Json :=
  .ofPairs [("metadata", .ofPairs [("namespace", .string "default"),
    ("ownerReferences", .array [owner rs])]), ("status", .ofPairs [("phase", .string "Running")])]

/-- The new ReplicaSet is scaled up beside an old one that is marked for deletion and has a Pod. -/
theorem deleted_set_still_runs : ¬ SeparatesVersions (fun _ => "") recreated
    [setOf "n" "new" 0 .null, setOf "o" "old" 1 (.string "2030-01-01T00:00:00Z")]
    [podOf (setOf "o" "old" 1 (.string "2030-01-01T00:00:00Z"))] := by
  intro h
  have hdrained := h true 0 1 (setOf "n" "new" 0 .null)
    ((write (setOf "n" "new" 0 .null) ["spec", "replicas"] (.number (.int 1))).toOption.getD .null)
    (Fallible.toOption_eq_some.mp (by decide +kernel)) (by decide +kernel) (Fallible.toOption_eq_some.mp (by decide +kernel)) (by decide)
    (setOf "o" "old" 1 (.string "2030-01-01T00:00:00Z")) (by decide +kernel)
  have hasked := replicas_ok.mp hdrained.asked
  have hone : (setOf "o" "old" 1 (.string "2030-01-01T00:00:00Z"))["spec"]["replicas"].asInt =
      some 1 := by decide +kernel
  rw [hone] at hasked
  cases hasked.1

/-- An old ReplicaSet that is not marked for deletion is waited for. -/
theorem running_set_waited_for : SeparatesVersions (fun _ => "") recreated
    [setOf "n" "new" 0 .null, setOf "o" "old" 1 .null] [podOf (setOf "o" "old" 1 .null)] := by
  refine (recreate_separates_iff (by decide +kernel)).mpr ?_
  rintro ⟨new, rs, _, r, hr, _, hinactive, _⟩
  have hall : ∀ r ∈ [setOf "n" "new" 0 .null, setOf "o" "old" 1 .null], active r = true := by
    decide +kernel
  rw [hall r hr] at hinactive
  cases hinactive

end Hedronetes.Controllers.Deployments
