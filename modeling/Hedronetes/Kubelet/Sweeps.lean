import Hedronetes.Kubelet.PodRounds

/-!
# The sweeps of a kubelet

A sweep goes through the Pods of the node and then through what no Pod of the list accounts for.
Whatever becomes of a Pod, what is known of the others stays. So every run of the kubelet keeps the
invariant, wherever it is cut off, and each request of it has its reason.
-/

namespace Hedronetes.Kubelet.Runtime

open Interleaving StableSort Fallible

/-! ## The Pods of a list -/

/-- What an accepted list has: UIDs that are path components and each of one Pod. -/
structure Accepted (pods : List Json) : Prop where
  uids : ∀ p ∈ pods, text p["metadata"] "uid" = .ok (uidOf p)
  safe : ∀ p ∈ pods, Api.safeComponent (uidOf p) = true
  distinct : (pods.map uidOf).Nodup

section

variable {agent : Agent} {pods : List Json} {p : Json}

theorem accept_ok {desired desired' : List String} (h : accept agent desired p = .ok desired') :
    text p["metadata"] "uid" = .ok (uidOf p) ∧ Api.safeComponent (uidOf p) = true ∧
      uidOf p ∉ desired ∧ desired' = uidOf p :: desired := by
  obtain ⟨_, -, h⟩ := bind_eq_ok.mp h
  obtain ⟨_, -, h⟩ := bind_eq_ok.mp h
  obtain ⟨_, -, h⟩ := bind_eq_ok.mp h
  obtain ⟨uid, huid, h⟩ := bind_eq_ok.mp h
  obtain ⟨_, hfresh, h⟩ := bind_eq_ok.mp h
  have huid := mapError_eq_ok.mp huid
  have hof : uidOf p = uid := by
    rw [uidOf, (Api.text_ok.mp (mapError_eq_ok.mp huid)).1]
    rfl
  obtain ⟨hsafe, hnew⟩ := demand_ok hfresh
  cases h
  rw [hof]
  exact ⟨huid, hsafe, hnew, rfl⟩

theorem accepted_ok {desired desired' : List String}
    (h : pods.foldlM (accept agent) desired = .ok desired') :
    Accepted pods ∧ ∀ p ∈ pods, uidOf p ∉ desired := by
  induction pods generalizing desired with
  | nil => exact ⟨⟨nofun, nofun, List.nodup_nil⟩, nofun⟩
  | cons p rest ih =>
    rw [List.foldlM_cons] at h
    obtain ⟨next, hone, hrest⟩ := bind_eq_ok.mp h
    obtain ⟨huid, hsafe, hnew, rfl⟩ := accept_ok hone
    obtain ⟨hall, hother⟩ := ih hrest
    simp only [List.forall_mem_cons]
    refine ⟨⟨?_, ?_, ?_⟩, hnew, fun q hq hmem => hother q hq (List.mem_cons_of_mem _ hmem)⟩
    · exact List.forall_mem_cons.mpr ⟨huid, hall.uids⟩
    · exact List.forall_mem_cons.mpr ⟨hsafe, hall.safe⟩
    · rw [List.map_cons, List.nodup_cons]
      refine ⟨fun hmem => ?_, hall.distinct⟩
      obtain ⟨q, hq, hsame⟩ := List.mem_map.mp hmem
      exact hother q hq (hsame ▸ List.mem_cons_self)

theorem assigned_ok {listing : ℕ × Json} (h : assigned agent listing = .ok pods) :
    Accepted pods := by
  unfold assigned at h
  split_ifs at h with hcode
  · cases h
  obtain ⟨_, -, h⟩ := bind_eq_ok.mp h
  split at h
  · cases h
  · obtain ⟨_, hall, h⟩ := bind_eq_ok.mp h
    cases h
    exact (accepted_ok hall).1

end

/-! ## A sweep -/

section

variable {agent : Agent} {K : Call → Prop} {uid box : String} {pods : List Json} {p : Json}
  {sandboxes : List Sandbox} {P : Known}

/-- What is known in a sweep: the whole list, and that what was listed of the runtime keeps its
labels. -/
def Inspected (agent : Agent) (pods : List Json) (sandboxes : List Sandbox) : Known :=
  fun seen m => Listed agent seen pods ∧ ∀ s ∈ sandboxes, boxIs s.id s.labels seen m

theorem kept_inspected : (only agent K).Kept (Inspected agent pods sandboxes) :=
  kept_listed.and (.forall fun s => .forall fun _ => kept_boxIs s.id s.labels)

theorem publish_triple (hP : (only agent Quiet).Kept P) {status : Json} :
    (only agent Quiet).Triple P (publish p status) fun _ => P := by
  unfold publish
  split_ifs
  · exact Setting.Triple.ends hP.toStable
  apply Setting.Triple.lift_bind
  intro ns _
  apply Setting.Triple.lift_bind
  intro name _
  apply Setting.Triple.bind (M := fun _ => P)
  · exact beside_triple trivial hP
  intro reply
  split_ifs
  · exact Setting.Triple.ends hP.toStable
  · exact Setting.Triple.fail

theorem removeDirectory_triple (hP : (only agent Quiet).Kept P) :
    (only agent Quiet).Triple P (removeDirectory uid) fun _ => P := by
  unfold removeDirectory
  apply (look_kept hP.toStable).bind
  intro present
  split_ifs
  · apply Setting.Triple.bind (M := fun _ => P)
    · exact beside_triple trivial hP
    · exact fun _ => Setting.Triple.ends hP.toStable
  · exact Setting.Triple.ends hP.toStable

/-- A sandbox of a Pod that is gone or is to go may be cleared away. -/
theorem clearing_gone {seen : List (Seen Machine Look Call)} {m : Machine} {s : Sandbox}
    (h : Inspected agent pods sandboxes seen m) (hs : s ∈ sandboxes)
    (habsent : ∀ uid, Belongs agent.name uid s.labels → ∀ p ∈ pods, uidOf p = uid →
      p["metadata"]["deletionTimestamp"] ≠ .null) : Clearing agent s seen m :=
  ⟨h.2 s hs, fun uid huid => .gone pods h.1 (habsent uid huid)⟩

theorem removeAll_triple {l : List Sandbox} (hl : l ⊆ sandboxes) (hP : (only agent Clears).Kept P)
    (habsent : ∀ s ∈ l, ∀ uid, Belongs agent.name uid s.labels → ∀ p ∈ pods, uidOf p = uid →
      p["metadata"]["deletionTimestamp"] ≠ .null) :
    (only agent Clears).Triple
      (fun seen m => Inspected agent pods sandboxes seen m ∧ P seen m)
      (l.foldlM (fun _ s => remove agent s) ()) fun _ seen m =>
        Inspected agent pods sandboxes seen m ∧ P seen m := by
  have hkept : (only agent Clears).Kept fun seen m =>
      Inspected agent pods sandboxes seen m ∧ P seen m := kept_inspected.and hP
  apply Setting.Triple.foldlM
    (J := fun _ _ seen m => Inspected agent pods sandboxes seen m ∧ P seen m)
    fun _ _ => hkept.toStable
  intro s _ _ hs
  apply ((remove_triple s).frame hkept).weaken
  · exact fun seen m _ h => ⟨clearing_gone h.1 (hl hs) (habsent s hs), h⟩
  · exact fun _ _ _ _ h => h.2

/-- A round of the sweep over one Pod. -/
theorem sweepPod_triple {observed : List String} (hassigned : p ∈ pods)
    (hpods : Accepted pods)
    (hP : (only agent (ForPod agent (uidOf p))).Kept P) :
    (only agent (ForPod agent (uidOf p))).Triple
      (fun seen m => Surveyed agent (uidOf p) sandboxes seen m ∧
        Inspected agent pods sandboxes seen m ∧ P seen m)
      (sweepPod agent sandboxes observed p) fun _ seen m =>
        Inspected agent pods sandboxes seen m ∧ P seen m := by
  have hclears : ∀ c, Clears c → ForPod agent (uidOf p) c := fun _ => Clears.forPod
  have hquiet : ∀ c, Quiet c → ForPod agent (uidOf p) c := fun _ => Quiet.forPod
  have hkept : (only agent (ForPod agent (uidOf p))).Kept fun seen m =>
      Inspected agent pods sandboxes seen m ∧ P seen m := kept_inspected.and hP
  have hends : ∀ r : List String, (only agent (ForPod agent (uidOf p))).Triple
      (fun seen m => Inspected agent pods sandboxes seen m ∧ P seen m) (pure r : Act (List String))
      fun _ seen m => Inspected agent pods sandboxes seen m ∧ P seen m :=
    fun r => Setting.Triple.ends hkept.toStable
  have huid := hpods.uids p hassigned
  apply Setting.Triple.lift_bind
  intro uid huid'
  obtain rfl : uidOf p = uid := Except.ok.inj (huid.symm.trans (mapError_eq_ok.mp huid'))
  extract_lets own
  split_ifs with hgoes
  · -- the Pod of this UID is the one that goes
    have habsent : ∀ s ∈ own, ∀ uid, Belongs agent.name uid s.labels → ∀ q ∈ pods,
        uidOf q = uid → q["metadata"]["deletionTimestamp"] ≠ .null := by
      intro s hs uid hbelongs q hq hqof
      have hown := (List.mem_filter.mp hs).2
      have hsame : uidOf q = uidOf p := by
        rw [hqof]
        exact Option.some.inj (hbelongs.uid.symm.trans
          (of_decide_eq_true (Bool.and_eq_true_iff.mp hown).2))
      rw [List.inj_on_of_nodup_map hpods.distinct hq hassigned hsame]
      exact hgoes
    apply Setting.Triple.bind (M := fun _ seen m =>
      Inspected agent pods sandboxes seen m ∧ P seen m)
    · apply ((removeAll_triple (List.filter_subset_self _) (hP.narrow hclears) habsent).widen
        hclears).weaken
      · exact fun _ _ _ h => h.2
      · exact fun _ _ _ _ h => h
    intro _
    apply ((removeDirectory_triple (hkept.narrow hquiet)).widen hquiet).bind
    exact fun _ => hends _
  · have hsafe := hpods.safe p hassigned
    apply ((Setting.Triple.framed (sync_triple hassigned rfl huid hsafe) hkept).weaken
      (fun seen m _ h => ⟨⟨h.2.1.1, h.1⟩, h.2⟩) fun _ _ _ _ h => h.1).bind
    intro result
    cases result with
    | ok status =>
      apply ((publish_triple (hkept.narrow hquiet)).widen hquiet).bind
      exact fun _ => hends _
    | error e =>
      apply (reading_kept hkept.toStable).bind
      intro clock
      apply ((publish_triple (hkept.narrow hquiet)).widen hquiet).bind
      exact fun _ => hends _

theorem belongs_labels_uid {uid uid' : String}
    (h : Belongs agent.name uid (labels agent.name uid')) :
    uid' = uid := by
  have huid := h.uid
  simpa [labels, List.lookup, UID, NODE] using huid

/-- What is known before the round over a Pod and those after it. -/
def Remaining (agent : Agent) (pods : List Json) (sandboxes : List Sandbox) (rest : List Json) :
    Known := fun seen m => ((rest.map uidOf).Nodup ∧ ∀ p ∈ rest, p ∈ pods) ∧
  Inspected agent pods sandboxes seen m ∧ ∀ p ∈ rest, Surveyed agent (uidOf p) sandboxes seen m

theorem surveyed_stable : (only agent K).Stable (Surveyed agent uid sandboxes) :=
  let h : (only agent Quiet).Kept (Surveyed agent uid sandboxes) :=
    kept_surveyed fun _ hK => hK.elim
  ⟨h.more, h.others⟩

theorem stable_remaining (rest : List Json) :
    (only agent K).Stable (Remaining agent pods sandboxes rest) :=
  (Setting.Stable.pure _).and (kept_inspected.toStable.and
    (.forall fun _ => .forall fun _ => surveyed_stable))

theorem remaining_triple {rest : List Json} {observed : List String}
    (hpods : Accepted pods) :
    (only agent fun _ => True).Triple (Remaining agent pods sandboxes (p :: rest))
      (sweepPod agent sandboxes observed p) fun _ => Remaining agent pods sandboxes rest := by
  apply Setting.Triple.assume
  rintro ⟨hnodup, hmem⟩
  rw [List.map_cons, List.nodup_cons] at hnodup
  -- a sandbox is made for this Pod only
  have hkept : (only agent (ForPod agent (uidOf p))).Kept fun seen m =>
      ∀ q ∈ rest, Surveyed agent (uidOf q) sandboxes seen m := by
    refine .forall fun q => .forall fun hq => kept_surveyed fun config hrun hbelongs => ?_
    have hlabels : config.labels = labels agent.name (uidOf p) := hrun
    rw [hlabels] at hbelongs
    exact hnodup.1 (belongs_labels_uid hbelongs ▸ List.mem_map_of_mem hq)
  apply ((sweepPod_triple (hmem p List.mem_cons_self) hpods hkept).widen fun _ _ => trivial).weaken
  · rintro seen m - ⟨hinspected, hall⟩
    exact ⟨hall p List.mem_cons_self, hinspected, fun q hq => hall q (List.mem_cons_of_mem _ hq)⟩
  · rintro _ seen m - hthere
    exact ⟨⟨hnodup.2, fun q hq => hmem q (List.mem_cons_of_mem _ hq)⟩, hthere⟩

/-- What belongs to a Pod is on the list of what carries the node's label. -/
theorem own_listed (l : List Sandbox) (node : String) :
    ownSandboxes node uid (l.filter fun s => s.labels.lookup NODE = some node) =
      ownSandboxes node uid l := by
  rw [ownSandboxes, ownSandboxes, List.filter_filter]
  apply List.filter_congr
  intro s _
  unfold owned
  cases decide (s.labels.lookup NODE = some node) <;> simp

theorem surveyed_listed {seen : List (Seen Machine Look Call)} {m : Machine}
    (hm : Sound agent.name m) : Surveyed agent uid
      (m.sandboxes.filter fun s => s.labels.lookup NODE = some agent.name)
      (seen ++ [.read .sandboxes m]) m := by
  unfold Surveyed
  rw [own_listed]
  constructor
  · intro s hs
    obtain ⟨hmem, hown⟩ := List.mem_filter.mp hs
    obtain ⟨howned, huid⟩ := Bool.and_eq_true_iff.mp hown
    refine ⟨⟨howned, of_decide_eq_true huid⟩, hm.boxIs hmem _, fun hother => ?_⟩
    exact .displaced m (List.mem_append_right _ (List.mem_singleton.mpr rfl)) fun h => hother h.symm
  · intro s hs howned hbelongs
    refine ⟨s, List.mem_filter.mpr ⟨hs, ?_⟩, rfl⟩
    rw [howned, hbelongs.uid]
    simp

/-- What no Pod of the list accounts for is cleared away. -/
theorem orphans_triple : (only agent Clears).Triple (Inspected agent pods sandboxes)
    (sandboxes.foldlM (fun _ s => do
      if owned s.labels agent.name ∧ (s.labels.lookup UID).getD "" ∉ pods.map uidOf then
        remove agent s) ()) fun _ => Inspected agent pods sandboxes := by
  have hkept : (only agent Clears).Kept (Inspected agent pods sandboxes) := kept_inspected
  apply Setting.Triple.foldlM (J := fun _ _ => Inspected agent pods sandboxes)
    fun _ _ => hkept.toStable
  intro s _ _ hs
  split_ifs with horphan
  · apply ((remove_triple s).frame hkept).weaken
    · refine fun seen m _ h => ⟨clearing_gone h hs fun uid huid p hp hpod => ?_, h⟩
      rw [huid.uid] at horphan
      exact absurd (List.mem_map.mpr ⟨p, hp, hpod⟩) horphan.2
    · exact fun _ _ _ _ h => h.2
  · exact Setting.Triple.ends hkept.toStable

/-- Directories that no Pod of the list accounts for. -/
theorem directories_triple {desired directories : List String} (hP : (only agent Quiet).Kept P) :
    (only agent Quiet).Triple P (directories.foldlM (fun _ name => do
      liftM (demand (Api.safeComponent name) "invalid local Pod directory identity")
      if name ∉ desired then
        let _ ← rpc (.removeDirectory name)) ()) fun _ => P := by
  apply Setting.Triple.foldlM (J := fun _ _ => P) fun _ _ => hP.toStable
  intro name _ _ _
  apply Setting.Triple.lift_bind
  intro _ _
  split_ifs
  · exact Setting.Triple.ends hP.toStable
  · apply Setting.Triple.bind (M := fun _ => P)
    · exact beside_triple trivial hP
    · exact fun _ => Setting.Triple.ends hP.toStable

theorem sweep_triple : (only agent fun _ => True).Triple (fun _ _ => True) (sweep agent)
    fun _ _ _ => True := by
  apply Setting.Triple.bind (M := fun pods seen _ => Accepted pods ∧ Listed agent seen pods)
  · refine (look_triple (.pure True) (fun pods => (Setting.Stable.pure _).and
      kept_listed.toStable) ?_).weaken (fun _ _ _ h => h) fun _ _ _ _ h => h.2
    intro pods seen m hpods _ _
    have hmem := List.mem_append_right seen (List.mem_singleton.mpr (Eq.refl (Seen.read .pods m)))
    exact ⟨assigned_ok hpods, _, hmem, m, rfl, hpods⟩
  intro pods
  apply Setting.Triple.assume
  intro hpods
  extract_lets desired
  apply Setting.Triple.bind (M := fun sandboxes => Remaining agent pods sandboxes pods)
  · refine (look_triple (Q := fun sandboxes seen m => (∀ s ∈ sandboxes, boxIs s.id s.labels seen m) ∧
      ∀ p ∈ pods, Surveyed agent (uidOf p) sandboxes seen m) kept_listed.toStable
      (fun sandboxes => ?_) ?_).weaken (fun _ _ _ h => h) ?_
    · exact .and (.forall fun s => .forall fun _ => (kept_boxIs s.id s.labels).toStable)
        (.forall fun _ => .forall fun _ => surveyed_stable)
    · intro sandboxes seen m hread hm _
      cases hread
      exact ⟨fun s hs => hm.boxIs (List.mem_of_mem_filter hs) _, fun p _ => surveyed_listed hm⟩
    · exact fun sandboxes seen m _ h => ⟨⟨hpods.distinct, fun _ hp => hp⟩, ⟨h.1, h.2.1⟩, h.2.2⟩
  intro sandboxes
  apply (Setting.Triple.foldlM (J := fun rest _ => Remaining agent pods sandboxes rest)
    (fun rest _ => stable_remaining rest) fun p rest observed _ => remaining_triple hpods).bind
  intro observed
  apply ((orphans_triple.widen fun _ _ => trivial).weaken (fun _ _ _ h => h.2.1)
    fun _ _ _ _ h => h).bind
  intro _
  apply (look_kept kept_inspected.toStable).bind
  intro directories
  apply ((directories_triple kept_inspected).widen fun _ _ => trivial).bind
  intro _
  apply Setting.Triple.bind (M := fun _ => Inspected agent pods sandboxes)
  · exact (beside_triple (c := .retain observed) trivial kept_inspected).widen fun _ _ => trivial
  · exact fun _ => Setting.Triple.pure kept_inspected.toStable fun _ _ _ _ => trivial

end

/-! ## A kubelet that is started again and again -/

section

variable {agent : Agent} {m m' : Machine}

/-- A node on which nothing carries the node's labels. -/
structure Untouched (node : String) (m : Machine) : Prop extends Regular m where
  noSandbox : ∀ s ∈ m.sandboxes, owned s.labels node = false
  noContainer : ∀ x ∈ m.containers, owned x.labels node = false

/-- From an untouched node on, sweeps follow each other, each of which may be cut off. -/
structure Sweeping (agent : Agent) (m m' : Machine) : Prop where
  untouched : Untouched agent.name m
  lives : Lives perform (Others agent.name) (fun x => x = sweep agent) m m'

theorem Untouched.sound {node : String} (h : Untouched node m) : Sound node m := by
  refine ⟨h.toRegular, fun s hs _ _ uid huid => ?_, fun x hx uid huid => ?_,
    fun x hx _ _ hown => ?_⟩
  · exact absurd huid.owned (by simp [h.noSandbox s hs])
  · exact absurd huid.owned (by simp [h.noContainer x hx])
  · exact absurd hown (by simp [h.noContainer x hx])

theorem Sweeping.sound (h : Sweeping agent m m') : Sound agent.name m' :=
  Lives.inv (E := only agent fun _ => True) h.lives h.untouched.sound fun _ hx => hx ▸ sweep_triple

/-- Two containers of a Pod by one name that live are one. -/
theorem Sound.live_unique {node uid name : String} (h : Sound node m) {x y : Container}
    (hx : x ∈ m.containers) (hy : y ∈ m.containers) (hxuid : Belongs node uid x.labels)
    (hyuid : Belongs node uid y.labels) (hxname : nameOf x = some name)
    (hyname : nameOf y = some name) (hxlive : x.live = true) (hylive : y.live = true) : x = y := by
  obtain ⟨s, hs, hsid⟩ := h.housed x hx
  obtain ⟨t, ht, htid⟩ := h.housed y hy
  have hbox : x.sandbox = y.sandbox := by
    rw [← hsid, ← htid]
    exact h.single s hs t ht uid (h.inside x hx uid hxuid s hs hsid)
      (h.inside y hy uid hyuid t ht htid)
  rcases Nat.le_total (attemptOf x) (attemptOf y) with hle | hle
  · exact h.eq_of_live hy hx hyuid.owned hxuid.owned hbox hyname hxname hle hxlive
  · exact (h.eq_of_live hx hy hxuid.owned hyuid.owned hbox.symm hxname hyname hle hylive).symm

/-- At every point of every run of the kubelet, whatever fails and wherever it is cut off, a Pod has
one sandbox at most and one container at most under each name that may be running. -/
theorem one_instance (h : Sweeping agent m m') (uid : String) :
    (∀ s ∈ m'.sandboxes, ∀ s' ∈ m'.sandboxes, Belongs agent.name uid s.labels →
      Belongs agent.name uid s'.labels → s = s') ∧
    ∀ name, ∀ x ∈ m'.containers, ∀ y ∈ m'.containers, Belongs agent.name uid x.labels →
      Belongs agent.name uid y.labels → nameOf x = some name → nameOf y = some name →
      x.live = true → y.live = true → x = y := by
  have hsound := h.sound
  constructor
  · intro s hs s' hs' huid huid'
    exact hsound.sandboxes s hs s' hs' (hsound.single s hs s' hs' uid huid huid')
  · intro name x hx y hy huid huid' hname hname' hlive hlive'
    exact hsound.live_unique hx hy huid huid' hname hname' hlive hlive'

/-- In every run of the kubelet each request that stops or removes something is about what belongs
to a Pod of the node, and what may be running is only stopped for a reason read before. -/
theorem stops_justified (h : Sweeping agent m m') {seen : List (Seen Machine Look Call)}
    {rest : Act Unit} {t : Machine}
    (hrun : Reaches perform (Others agent.name) (sweep agent) m' seen rest t) :
    ∀ before c u after, seen = before ++ .call c u :: after → Justified agent before u c := by
  intro before c u after hseen
  exact (Reaches.ensures_before hrun (sweep_triple [] m' h.sound trivial) hseen).1.2

end

/-! ## A container that is replaced -/

def plainPod (image : String) : Json :=
  Json.ofPairs [("metadata", Json.ofPairs [("name", .string "web"),
      ("namespace", .string "default"), ("uid", .string "u-1")]),
    ("spec", Json.ofPairs [("nodeName", .string "worker"),
      ("automountServiceAccountToken", .bool false), ("enableServiceLinks", .bool false),
      ("containers", .array [Json.ofPairs [("name", .string "web"), ("image", .string image),
        ("securityContext", Json.ofPairs [("runAsUser", number 65534),
          ("allowPrivilegeEscalation", .bool false),
          ("capabilities", Json.ofPairs [("drop", .array [.string "ALL"])]),
          ("seccompProfile", Json.ofPairs [("type", .string "RuntimeDefault")])])]])])]

/-- A container is told from another by its image. -/
def plainAgent : Agent where
  name := "worker"
  ip := "10.0.0.1"
  root := "/pods"
  dns _ := .ok .null
  linux _ _ := .ok .null
  digest v := v["container"]["image"].asString.getD ""
  stamp _ := ""

def assigning (image : String) (m : Machine) : Machine :=
  { m with listing := (200, Json.ofPairs [("items", .array [plainPod image])]) }

def plainNode : Machine := assigning "httpd" {
  sandboxes := []
  containers := []
  images := []
  issued := []
  supply := ["a", "b", "c"]
  clock := 0
  instant := 0
  fault := none
  listing := (200, .null)
  written := 200
  env _ _ := []
  passes _ := true
  directories := []
  probes _ := none }

def swept (m : Machine) : Option Machine :=
  match (sweep plainAgent).run perform m with
  | .ok _ m' => some m'
  | .error _ _ => none

/-- The containers that may be running. -/
def running (m : Machine) : List (String × ℕ) :=
  (m.containers.filter Container.live).map fun x => (x.id, attemptOf x)

def stops (seen : List (Seen Machine Look Call)) : List String :=
  seen.filterMap fun step =>
    match step with
    | .call (.stopContainer id _) _ => some id
    | _ => none

theorem plainNode_untouched : Untouched plainAgent.name plainNode := by
  refine ⟨⟨?_, ?_, ?_, ?_, ?_, ?_⟩, ?_, ?_⟩ <;> simp [plainNode, assigning]

/-- The API server answers something else. -/
theorem assigning_others {node image : String} {m : Machine} (h : Regular m) :
    Others node m (assigning image m) :=
  ⟨⟨h.sandboxes, h.containers, h.attempts, h.issuedSandboxes, h.issuedContainers, h.housed⟩,
    List.Subset.refl _, fun s hs _ => ⟨s, hs, rfl, rfl⟩,
    fun x hx _ => ⟨x, hx, .refl x, fun _ hlive => hlive⟩⟩

theorem swept_reaches {image : String} {m m' : Machine} (hm : Regular m)
    (h : swept (assigning image m) = some m') :
    Reaches perform (Others plainAgent.name) (sweep plainAgent) m
      ((sweep plainAgent).trace perform (assigning image m)) (.done ()) m' := by
  have hrun : (sweep plainAgent).run perform (assigning image m) = .ok () m' := by
    unfold swept at h
    split at h
    · rename_i hrun
      cases h
      exact hrun
    · cases h
  exact Reaches.of_trace (.others .start (assigning_others hm)) hrun

theorem Sweeping.swept {image : String} {m m' u : Machine} (h : Sweeping plainAgent m m')
    (hu : swept (assigning image m') = some u) : Sweeping plainAgent m u :=
  ⟨h.untouched, h.lives.next rfl (swept_reaches h.sound.toRegular hu)⟩

theorem plainNode_begins : Sweeping plainAgent plainNode plainNode := ⟨plainNode_untouched, .begin⟩

theorem web_runs_once : ∃ m, Sweeping plainAgent plainNode m ∧ running m = [("c", 1)] ∧
    (∀ s ∈ m.sandboxes, ∀ s' ∈ m.sandboxes, Belongs plainAgent.name "u-1" s.labels →
      Belongs plainAgent.name "u-1" s'.labels → s = s') ∧
    ∀ name, ∀ x ∈ m.containers, ∀ y ∈ m.containers, Belongs plainAgent.name "u-1" x.labels →
      Belongs plainAgent.name "u-1" y.labels → nameOf x = some name → nameOf y = some name →
      x.live = true → y.live = true → x = y := by
  have hexec : ((swept (assigning "httpd" plainNode)).bind fun m =>
      swept (assigning "nginx" m)).map running = some [("c", 1)] := by
    decide +kernel
  obtain ⟨m, hm, hrunning⟩ := Option.map_eq_some_iff.mp hexec
  obtain ⟨first, hfirst, hm⟩ := Option.bind_eq_some_iff.mp hm
  have hsweeping := (plainNode_begins.swept hfirst).swept hm
  exact ⟨m, hsweeping, hrunning, one_instance hsweeping "u-1"⟩

theorem web_stopped_for_a_reason : ∃ m seen t, Sweeping plainAgent plainNode m ∧
    Reaches perform (Others plainAgent.name) (sweep plainAgent) m seen (.done ()) t ∧
    stops seen = ["b", "b"] ∧
    ∀ before c u after, seen = before ++ .call c u :: after →
      Justified plainAgent before u c := by
  have hexec : ((swept (assigning "httpd" plainNode)).bind fun m =>
      (swept (assigning "nginx" m)).map fun _ =>
        stops ((sweep plainAgent).trace perform (assigning "nginx" m))) = some ["b", "b"] := by
    decide +kernel
  obtain ⟨m, hm, hexec⟩ := Option.bind_eq_some_iff.mp hexec
  obtain ⟨t, ht, hstops⟩ := Option.map_eq_some_iff.mp hexec
  have hsweeping := plainNode_begins.swept hm
  have hreaches := swept_reaches hsweeping.sound.toRegular ht
  exact ⟨m, _, t, hsweeping, hreaches, hstops, stops_justified hsweeping hreaches⟩

end Hedronetes.Kubelet.Runtime
