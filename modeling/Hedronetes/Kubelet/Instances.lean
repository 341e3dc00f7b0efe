import Hedronetes.Kubelet.PodSync

/-!
# One instance of each container

The kubelet keeps at most one sandbox for each Pod and, in it, lets no container live but the latest
of its name. It holds in every state of every run: whatever the API server answers, whatever request
fails or has its answer lost, wherever a sweep is cut off, and whatever else happens on the node.
-/

namespace Hedronetes.Kubelet.Runtime

open Interleaving Relation

/-- Labels of the node's for a Pod. -/
structure Belongs (node uid : String) (l : Labels) : Prop where
  owned : owned l node = true
  uid : l.lookup UID = some uid

theorem Belongs.unique {node uid uid' : String} {l : Labels} (h : Belongs node uid l)
    (h' : Belongs node uid' l) : uid = uid' := Option.some.inj (h.uid.symm.trans h'.uid)

theorem exists_belongs {node : String} {l : Labels} (h : owned l node = true) :
    ∃ uid, Belongs node uid l := by
  have hboth := Bool.and_eq_true_iff.mp h
  cases huid : l.lookup UID with
  | none =>
    rw [huid] at hboth
    cases hboth.2
  | some uid => exact ⟨uid, h, huid⟩

/-! ## The invariant -/

structure Sound (node : String) (m : Machine) : Prop extends Regular m where
  /-- A Pod has one sandbox at most. -/
  single : ∀ s ∈ m.sandboxes, ∀ s' ∈ m.sandboxes, ∀ uid, Belongs node uid s.labels →
    Belongs node uid s'.labels → s.id = s'.id
  /-- A container of a Pod is in a sandbox of the Pod. -/
  inside : ∀ x ∈ m.containers, ∀ uid, Belongs node uid x.labels → ∀ s ∈ m.sandboxes,
    s.id = x.sandbox → Belongs node uid s.labels
  /-- A container that another one of its name has followed does not live. -/
  latest : ∀ x ∈ m.containers, ∀ y ∈ m.containers, owned x.labels node = true →
    owned y.labels node = true → x.sandbox = y.sandbox → ∀ a b, x.metadata = some a →
    y.metadata = some b → a.name = b.name → a.attempt < b.attempt → x.live = false

/-- What a call needs of the state for the invariant to stay. -/
def Fits (node : String) (m : Machine) : Call → Prop
  | .runSandbox config => ∀ uid, Belongs node uid config.labels →
    ∀ s ∈ m.sandboxes, ¬Belongs node uid s.labels
  | .createContainer box config => ∀ uid, Belongs node uid config.labels →
    (∀ s ∈ m.sandboxes, s.id = box → Belongs node uid s.labels) ∧
    ∀ x ∈ m.containers, Belongs node uid x.labels → x.sandbox = box → ∀ a, x.metadata = some a →
      a.name = config.metadata.name → a.attempt ≤ config.metadata.attempt ∧ x.live = false
  | .startContainer id => ∀ x ∈ m.containers, x.id = id → ∀ y ∈ m.containers,
    owned y.labels node = true → x.sandbox = y.sandbox → ∀ a b, x.metadata = some a →
      y.metadata = some b → a.name = b.name → b.attempt ≤ a.attempt
  | _ => True

section

variable {node uid : String} {m m' : Machine} {c : Call}

/-- Those in the sandbox of a Pod's container are the Pod's. -/
theorem Sound.belongs (h : Sound node m) {x : Container} (hx : x ∈ m.containers)
    (howned : owned x.labels node = true)
    (hbox : ∀ s ∈ m.sandboxes, s.id = x.sandbox → Belongs node uid s.labels) :
    Belongs node uid x.labels := by
  obtain ⟨uid', huid'⟩ := exists_belongs howned
  obtain ⟨s, hs, hid⟩ := h.housed x hx
  rw [(hbox s hs hid).unique (h.inside x hx uid' huid' s hs hid)]
  exact huid'

theorem Sound.did (h : Sound node m) (hdid : Did c m m') (hfits : Fits node m c) :
    Sound node m' := by
  refine ⟨hdid.regular h.toRegular, ?_, ?_, ?_⟩
  · intro s' hs' r' hr' uid huid huid'
    rcases hdid.sandboxes s' hs' with ⟨s, hs, hid, hl⟩ | ⟨config, rfl, hl, hissue⟩ <;>
      rcases hdid.sandboxes r' hr' with ⟨r, hr, hid', hl'⟩ | ⟨config', hc, hl', hissue'⟩
    · rw [← hid, ← hid']
      exact h.single s hs r hr uid (hl ▸ huid) (hl' ▸ huid')
    · subst hc
      exact absurd (hl ▸ huid) (hfits uid (hl' ▸ huid') s hs)
    · exact absurd (hl' ▸ huid') (hfits uid (hl ▸ huid) r hr)
    · exact Option.some.inj (hissue.symm.trans hissue')
  · intro x' hx' uid huid s' hs' hid
    rcases hdid.containers x' hx' with ⟨x, hx, hsame, -⟩ | ⟨box, config, rfl, hmade⟩
    · rcases hdid.sandboxes s' hs' with ⟨s, hs, hsid, hl⟩ | ⟨config, rfl, hl, hissue⟩
      · rw [← hl]
        exact h.inside x hx uid (hsame.labels ▸ huid) s hs (by rw [hsid, hid, hsame.sandbox])
      · -- a container is in a sandbox that was there before it
        obtain ⟨s, hs, hsid⟩ := h.housed x hx
        have hold : s'.id ∈ m.issued := by
          rw [hid, ← hsame.sandbox, ← hsid]
          exact h.issuedSandboxes s hs
        exact absurd hold (m.issue_fresh hissue)
    · rcases hdid.sandboxes s' hs' with ⟨s, hs, hsid, hl⟩ | ⟨config, hc, -, -⟩
      · rw [← hl]
        exact (hfits uid (hmade.labels ▸ huid)).1 s hs (by rw [hsid, hid, hmade.sandbox])
      · cases hc
  · intro x' hx' y' hy' hownx howny hbox a b ha hb hname hlt
    rcases hdid.containers x' hx' with ⟨x, hx, hsame, hlive⟩ | ⟨box, config, rfl, hmade⟩
    · by_contra hlives
      rw [Bool.not_eq_false] at hlives
      rcases hdid.containers y' hy' with ⟨y, hy, hsame', -⟩ | ⟨box, config, rfl, hmade'⟩
      · rw [← hsame.labels] at hownx
        rw [← hsame'.labels] at howny
        rw [← hsame.sandbox, ← hsame'.sandbox] at hbox
        rw [← hsame.metadata] at ha
        rw [← hsame'.metadata] at hb
        rcases hlive hlives with hlives | rfl
        · have hdead := h.latest x hx y hy hownx howny hbox a b ha hb hname hlt
          rw [hlives] at hdead
          cases hdead
        · have hle := hfits x hx hsame.id y hy howny hbox a b ha hb hname
          omega
      · -- what follows it was only made when it did not live
        obtain ⟨uid, huid⟩ := exists_belongs howny
        obtain ⟨hboxes, hall⟩ := hfits uid (hmade'.labels ▸ huid)
        rw [hmade'.sandbox, ← hsame.sandbox] at hbox
        rw [hmade'.metadata] at hb
        have hb' := Option.some.inj hb
        have hbelongs : Belongs node uid x.labels :=
          h.belongs hx (hsame.labels ▸ hownx) fun s hs hid => hboxes s hs (hid.trans hbox)
        have hdead := (hall x hx hbelongs hbox a (hsame.metadata ▸ ha)
          (by rw [hname, ← hb'])).2
        rcases hlive hlives with hlives | hc
        · rw [hlives] at hdead
          cases hdead
        · cases hc
    · exact hmade.idle

theorem Sound.others (h : Sound node m) (ho : Others node m m') : Sound node m' := by
  refine ⟨ho.regular, ?_, ?_, ?_⟩
  · intro s' hs' r' hr' uid huid huid'
    obtain ⟨s, hs, hid, hl⟩ := ho.sandboxes s' hs' (.inr huid.owned)
    obtain ⟨r, hr, hid', hl'⟩ := ho.sandboxes r' hr' (.inr huid'.owned)
    rw [← hid, ← hid']
    exact h.single s hs r hr uid (hl ▸ huid) (hl' ▸ huid')
  · intro x' hx' uid huid s' hs' hid
    obtain ⟨x, hx, hsame, -⟩ := ho.containers x' hx' (.inr huid.owned)
    obtain ⟨r, hr, hrid⟩ := h.housed x hx
    have hknown : s'.id ∈ m.issued := by
      rw [hid, ← hsame.sandbox, ← hrid]
      exact h.issuedSandboxes r hr
    obtain ⟨s, hs, hsid, hl⟩ := ho.sandboxes s' hs' (.inl hknown)
    rw [← hl]
    exact h.inside x hx uid (hsame.labels ▸ huid) s hs (by rw [hsid, hid, hsame.sandbox])
  · intro x' hx' y' hy' hownx howny hbox a b ha hb hname hlt
    obtain ⟨x, hx, hsame, hlive⟩ := ho.containers x' hx' (.inr hownx)
    obtain ⟨y, hy, hsame', -⟩ := ho.containers y' hy' (.inr howny)
    have hdead := h.latest x hx y hy (hsame.labels ▸ hownx) (hsame'.labels ▸ howny)
      (by rw [hsame.sandbox, hsame'.sandbox, hbox]) a b (hsame.metadata ▸ ha)
      (hsame'.metadata ▸ hb) hname hlt
    by_contra hlives
    rw [Bool.not_eq_false] at hlives
    rw [hlive hownx hlives] at hdead
    cases hdead

end

/-! ## Reasons -/

section

variable (agent : Agent)

/-- The whole list of the node's Pods was read. -/
def Listed (seen : List (Seen Machine Look Call)) (pods : List Json) : Prop :=
  ∃ step ∈ seen, ∃ m, step = .read .pods m ∧ assigned agent m.listing = .ok pods

/-- What is in a sandbox of a Pod has to go. -/
inductive Moved (seen : List (Seen Machine Look Call)) (uid box : String) : Prop
  /-- The Pod is gone, or it is to go. -/
  | gone (pods : List Json) (listed : Listed agent seen pods)
    (absent : ∀ p ∈ pods, uidOf p = uid → p["metadata"]["deletionTimestamp"] ≠ .null)
  /-- Another sandbox of the Pod is the one that stays, or none is ready. -/
  | displaced (m : Machine) (read : .read .sandboxes m ∈ seen)
    (other : existing (ownSandboxes agent.name uid m.sandboxes) ≠ some box)

/-- Why a container that may be running is stopped. -/
inductive Reason (seen : List (Seen Machine Look Call)) (uid : String) (x : Container) : Prop
  | moved (h : Moved agent seen uid x.sandbox)
  /-- The Pod asks for another container under that name. -/
  | changed (pods : List Json) (p ctr : Json) (config : ContainerConfig)
    (listed : Listed agent seen pods) (assigned : p ∈ pods) (pod : uidOf p = uid)
    (asked : ctr ∈ p["spec"]["containers"].items)
    (configured : configOf agent p uid (push agent.root uid) ctr = .ok config)
    (name : x.metadata.map Metadata.name = some config.metadata.name)
    (other : x.labels.lookup HASH ≠ config.labels.lookup HASH)
  /-- It had exited, or the runtime did not know its state. -/
  | ended (m : Machine) (y : Container) (read : .read (.container x.id) m ∈ seen)
    (found : y ∈ m.containers) (same : y.id = x.id)
    (state : y.state = .exited ∨ y.state = .unknown)

/-- Nothing of another's is touched, and what may be running is not stopped without a reason. -/
def Justified (seen : List (Seen Machine Look Call)) (m : Machine) : Call → Prop
  | .stopContainer id _ => ∀ x ∈ m.containers, x.id = id → ∃ uid,
    Belongs agent.name uid x.labels ∧ (x.live = true → Reason agent seen uid x)
  | .removeContainer id => ∀ x ∈ m.containers, x.id = id → ∃ uid,
    Belongs agent.name uid x.labels ∧ (x.live = true → Reason agent seen uid x)
  | .stopSandbox id => ∀ s ∈ m.sandboxes, s.id = id → ∃ uid,
    Belongs agent.name uid s.labels ∧ Moved agent seen uid s.id
  | .removeSandbox id => ∀ s ∈ m.sandboxes, s.id = id → ∃ uid,
    Belongs agent.name uid s.labels ∧ Moved agent seen uid s.id
  | _ => True

def setting : Setting Machine Look Call (Except Failure Reply) where
  others := Others agent.name
  ensures seen m c := Fits agent.name m c ∧ Justified agent seen m c
  perform := perform
  inv := Sound agent.name
  others_inv := Sound.others
  call_inv h hc := h.did (did _ _) hc.1

/-- The kubelet with calls of some kind only. -/
abbrev only (K : Call → Prop) : Setting Machine Look Call (Except Failure Reply) :=
  (setting agent).restrict K

abbrev Known := Fact Machine Look Call

/-! ## Facts -/

/-- Of all sandboxes of the node's. -/
def boxes (P : String → Labels → Prop) : Known :=
  fun _ m => ∀ s ∈ m.sandboxes, owned s.labels agent.name = true → P s.id s.labels

/-- Of all containers of the node's. -/
def held (P : Container → Prop) : Known :=
  fun _ m => ∀ x ∈ m.containers, owned x.labels agent.name = true → P x

end

/-- An id that was given to a sandbox with these labels. -/
def boxIs (id : String) (l : Labels) : Known :=
  fun _ m => id ∈ m.issued ∧ ∀ s ∈ m.sandboxes, s.id = id → s.labels = l

/-- A container that was there. -/
def known (x : Container) : Known :=
  fun _ m => x.id ∈ m.issued ∧ ∀ y ∈ m.containers, y.id = x.id → x.Same y

/-- It stays when a container ends. -/
def Steady (P : Container → Prop) : Prop :=
  ∀ x y : Container, x.Same y → (y.live = true → x.live = true) → P x → P y

section

variable {agent : Agent} {K : Call → Prop}

theorem kept_boxes {P : String → Labels → Prop}
    (hrun : ∀ config id, K (.runSandbox config) → owned config.labels agent.name = true →
      P id config.labels) : (only agent K).Kept (boxes agent P) := by
  refine ⟨⟨fun _ h => h, fun {_ m m'} _ ho h s' hs' hown => ?_⟩,
    fun {_ m c} _ hc h s' hs' hown => ?_⟩
  · obtain ⟨s, hs, hid, hl⟩ := ho.sandboxes s' hs' (.inr hown)
    rw [← hid, ← hl]
    exact h s hs (hl ▸ hown)
  · rcases (did c m).sandboxes s' hs' with ⟨s, hs, hid, hl⟩ | ⟨config, rfl, hl, -⟩
    · rw [← hid, ← hl]
      exact h s hs (hl ▸ hown)
    · rw [hl]
      exact hrun config s'.id hc.2 (hl ▸ hown)

theorem stable_held {P : Container → Prop} (hP : Steady P) :
    (only agent K).Stable (held agent P) := by
  refine ⟨fun _ h => h, fun {_ m m'} _ ho h x' hx' hown => ?_⟩
  obtain ⟨x, hx, hsame, hlive⟩ := ho.containers x' hx' (.inr hown)
  exact hP x x' hsame (hlive hown) (h x hx (hsame.labels ▸ hown))

theorem kept_held {P : Container → Prop} (hP : Steady P)
    (hstart : ∀ id, K (.startContainer id) → ∀ x y : Container, x.Same y → y.id = id → P x → P y)
    (hcreate : ∀ box config m x, K (.createContainer box config) → Made box config m x → P x) :
    (only agent K).Kept (held agent P) := by
  refine ⟨stable_held hP, fun {_ m c} _ hc h x' hx' hown => ?_⟩
  rcases (did c m).containers x' hx' with ⟨x, hx, hsame, hlive⟩ | ⟨box, config, rfl, hmade⟩
  · have hthere := h x hx (hsame.labels ▸ hown)
    by_cases hc' : c = .startContainer x'.id
    · exact hstart x'.id (hc' ▸ hc.2) x x' hsame rfl hthere
    · exact hP x x' hsame (fun hl => (hlive hl).resolve_right hc') hthere
  · exact hcreate box config m x' hc.2 hmade

theorem kept_boxIs (id : String) (l : Labels) : (only agent K).Kept (boxIs id l) := by
  refine ⟨⟨fun _ h => h, fun {_ m m'} _ ho h => ⟨ho.issued h.1, fun s' hs' hid => ?_⟩⟩,
    fun {_ m c} _ hc h => ⟨(did c m).issued h.1, fun s' hs' hid => ?_⟩⟩
  · obtain ⟨s, hs, hsid, hl⟩ := ho.sandboxes s' hs' (.inl (hid ▸ h.1))
    rw [← hl]
    exact h.2 s hs (hsid.trans hid)
  · rcases (did c m).sandboxes s' hs' with ⟨s, hs, hsid, hl⟩ | ⟨config, rfl, hl, hissue⟩
    · rw [← hl]
      exact h.2 s hs (hsid.trans hid)
    · exact absurd (hid ▸ h.1) (m.issue_fresh hissue)

theorem kept_known (x : Container) : (only agent K).Kept (known x) := by
  refine ⟨⟨fun _ h => h, fun {_ m m'} _ ho h => ⟨ho.issued h.1, fun y' hy' hid => ?_⟩⟩,
    fun {_ m c} _ hc h => ⟨(did c m).issued h.1, fun y' hy' hid => ?_⟩⟩
  · obtain ⟨y, hy, hsame, -⟩ := ho.containers y' hy' (.inl (hid ▸ h.1))
    exact (h.2 y hy (hsame.id.trans hid)).trans hsame
  · rcases (did c m).containers y' hy' with ⟨y, hy, hsame, -⟩ | ⟨box, config, rfl, hmade⟩
    · exact (h.2 y hy (hsame.id.trans hid)).trans hsame
    · exact absurd (hid ▸ h.1) (m.issue_fresh hmade.fresh)

theorem Sound.known {node : String} {m : Machine} (h : Sound node m) {x : Container}
    (hx : x ∈ m.containers) (seen : List (Seen Machine Look Call)) : Runtime.known x seen m :=
  ⟨h.issuedContainers x hx, fun y hy hid => (h.containers x hx y hy hid.symm) ▸ .refl x⟩

theorem Sound.boxIs {node : String} {m : Machine} (h : Sound node m) {s : Sandbox}
    (hs : s ∈ m.sandboxes) (seen : List (Seen Machine Look Call)) :
    Runtime.boxIs s.id s.labels seen m :=
  ⟨h.issuedSandboxes s hs, fun t ht hid => by rw [h.sandboxes t ht s hs hid]⟩

end

/-! ## Requests to the runtime -/

/-- What clearing a sandbox away takes. -/
def Clears : Call → Prop
  | .stopContainer _ _ => True
  | .removeContainer _ => True
  | .stopSandbox _ => True
  | .removeSandbox _ => True
  | _ => False

section

variable {agent : Agent} {K : Call → Prop} {P : Known} {α : Type} {what : Look}
  {f : Machine → Except Failure α} {Q : α → Known}

theorem look_triple (hP : (only agent K).Stable P) (hQ : ∀ a, (only agent K).Stable (Q a))
    (h : ∀ a seen m, f m = .ok a → Sound agent.name m → P seen m →
      Q a (seen ++ [.read what m]) m) :
    (only agent K).Triple P (look what f) fun a seen m => P seen m ∧ Q a seen m := by
  apply Setting.Triple.reading_and hP hQ
  intro a seen m hf hm hpre
  split_ifs at hf
  exact h a seen m hf hm hpre

theorem look_kept (hP : (only agent K).Stable P) :
    (only agent K).Triple P (look what f) fun _ => P :=
  (look_triple (Q := fun _ _ _ => True) hP (fun _ => .pure _) fun _ _ _ _ _ _ => trivial).weaken
    (fun _ _ _ h => h) fun _ _ _ _ h => h.1

theorem ended_held {id : String} :
    (only agent K).Stable (held agent fun x => x.id = id → x.live = false) := by
  apply stable_held
  intro x y hsame hlive hx hid
  have hdead := hx (hsame.id.trans hid)
  cases hy : y.live with
  | false => rfl
  | true => rw [hlive hy] at hdead; cases hdead

theorem stop_triple {id : String} {p : Json} (hP : (only agent K).Kept P)
    (hK : ∀ timeout, K (.stopContainer id timeout))
    (hjust : ∀ seen m, Sound agent.name m → P seen m → ∀ x ∈ m.containers, x.id = id → ∃ uid,
      Belongs agent.name uid x.labels ∧ (x.live = true → Reason agent seen uid x)) :
    (only agent K).Triple P (stop id p) fun _ seen m =>
      P seen m ∧ held agent (fun x => x.id = id → x.live = false) seen m := by
  have hboth : (only agent K).Stable fun seen m =>
      P seen m ∧ held agent (fun x => x.id = id → x.live = false) seen m :=
    hP.toStable.and ended_held
  apply Setting.Triple.bind (M := fun _ seen m =>
    P seen m ∧ held agent (fun x => x.id = id → x.live = false) seen m)
  · apply Setting.Triple.rpc hP.toStable fun _ => hboth
    · exact fun seen m hm hpre => ⟨⟨trivial, hjust seen m hm hpre⟩, hK _⟩
    · intro reply seen m hreply hm hpre hdone
      refine ⟨hP.after hm hdone hpre, ?_⟩
      intro x hx _ hid
      exact stopContainer_ok (effect_of_ok hreply) x hx hid
  · exact fun _ => Setting.Triple.ends hboth

theorem demand_ok {p : Prop} [Decidable p] {message : String} {u : Unit}
    (h : demand p message = .ok u) : p := by
  unfold demand at h
  split_ifs at h with hp
  exact hp

/-- What is known of a sandbox before it is cleared away. -/
def Clearing (agent : Agent) (s : Sandbox) : Known := fun seen m => boxIs s.id s.labels seen m ∧
  ∀ uid, Belongs agent.name uid s.labels → Moved agent seen uid s.id

theorem Moved.mono {seen seen' : List (Seen Machine Look Call)} {uid box : String}
    (h : Moved agent seen uid box) (hsub : seen ⊆ seen') : Moved agent seen' uid box := by
  cases h with
  | gone pods listed absent =>
    obtain ⟨step, hstep, hread⟩ := listed
    exact .gone pods ⟨step, hsub hstep, hread⟩ absent
  | displaced m read other => exact .displaced m (hsub read) other

theorem kept_clearing (s : Sandbox) : (only agent K).Kept (Clearing agent s) := by
  refine (kept_boxIs s.id s.labels).and ⟨⟨fun hsub h uid huid => (h uid huid).mono hsub, ?_⟩, ?_⟩
  · exact fun _ _ h => h
  · exact fun _ _ h => h

/-- With the containers that were found in it. -/
def Emptying (agent : Agent) (s : Sandbox) (l : List Container) : Known := fun seen m =>
  Clearing agent s seen m ∧ ∀ x ∈ l, x.sandbox = s.id ∧ known x seen m

theorem kept_found {box : String} (l : List Container) : (only agent K).Kept fun seen m =>
    ∀ x ∈ l, x.sandbox = box ∧ known x seen m :=
  .forall fun x => .forall fun _ => (Setting.Kept.pure _).and (kept_known x)

theorem kept_emptying (s : Sandbox) (l : List Container) :
    (only agent K).Kept (Emptying agent s l) := (kept_clearing s).and (kept_found l)

/-- A container of the sandbox may be stopped and removed. -/
theorem Emptying.just {s : Sandbox} {l : List Container} {uid : String} {x : Container}
    {seen : List (Seen Machine Look Call)} {m : Machine} (h : Emptying agent s l seen m)
    (huid : Belongs agent.name uid s.labels) (hx : x ∈ l)
    (hown : owned x.labels agent.name ∧ x.labels.lookup UID = s.labels.lookup UID) :
    ∀ y ∈ m.containers, y.id = x.id → ∃ uid, Belongs agent.name uid y.labels ∧
      (y.live = true → Reason agent seen uid y) := by
  intro y hy hid
  obtain ⟨hbox, hthere⟩ := h.2 x hx
  have hsame := hthere.2 y hy hid
  refine ⟨uid, ?_, fun _ => .moved ?_⟩
  · rw [← hsame.labels]
    exact ⟨hown.1, hown.2.trans huid.uid⟩
  · rw [← hsame.sandbox, hbox]
    exact h.1.2 uid huid

theorem remove_triple (s : Sandbox) : (only agent Clears).Triple (Clearing agent s)
    (remove agent s) fun _ => boxes agent fun id _ => id ≠ s.id := by
  have hkept : (only agent Clears).Kept (Clearing agent s) := kept_clearing s
  have hgone : (only agent Clears).Kept (boxes agent fun id _ => id ≠ s.id) :=
    kept_boxes fun config id hrun => hrun.elim
  apply Setting.Triple.lift_bind
  intro _ howned
  obtain ⟨uid, huid⟩ := exists_belongs (demand_ok howned)
  apply Setting.Triple.bind (M := Emptying agent s)
  · apply look_triple hkept.toStable fun l => (kept_found l).toStable
    intro l seen m hl hm _ x hx
    obtain rfl := Except.ok.inj hl
    obtain ⟨hx, hbox⟩ := List.mem_filter.mp hx
    exact ⟨of_decide_eq_true hbox, hm.known hx _⟩
  intro l
  apply Setting.Triple.lift_bind
  intro _ hall
  have hall := demand_ok hall
  have hboth : (only agent Clears).Kept (Emptying agent s l) := kept_emptying s l
  -- the containers that were there, each with the reason of the sandbox
  apply Setting.Triple.bind (M := fun _ => Emptying agent s l)
  · apply Setting.Triple.foldlM (J := fun _ _ => Emptying agent s l) fun _ _ => hboth.toStable
    intro x rest _ hx
    apply Setting.Triple.bind (M := fun _ => Emptying agent s l)
    · apply (stop_triple hboth (fun _ => trivial) ?_).weaken (fun _ _ _ h => h)
        fun _ _ _ _ h => h.1
      exact fun seen m _ hpre => hpre.just huid hx (hall x hx)
    · intro _
      apply Setting.Triple.bind (M := fun _ => Emptying agent s l)
      · apply Setting.Triple.rpc_kept hboth
        exact fun seen m _ hpre => ⟨⟨trivial, hpre.just huid hx (hall x hx)⟩, trivial⟩
      · exact fun _ => Setting.Triple.ends hboth.toStable
  intro _
  have hjust : ∀ seen m, Emptying agent s l seen m → ∀ t ∈ m.sandboxes, t.id = s.id → ∃ uid,
      Belongs agent.name uid t.labels ∧ Moved agent seen uid t.id := by
    intro seen m hpre t ht hid
    rw [hid, hpre.1.1.2 t ht hid]
    exact ⟨uid, huid, hpre.1.2 uid huid⟩
  apply Setting.Triple.bind (M := fun _ => Emptying agent s l)
  · apply Setting.Triple.rpc_kept hboth
    exact fun seen m _ hpre => ⟨⟨trivial, hjust seen m hpre⟩, trivial⟩
  intro _
  apply Setting.Triple.bind (M := fun _ => boxes agent fun id _ => id ≠ s.id)
  · apply Setting.Triple.rpc hboth.toStable fun _ => hgone.toStable
    · exact fun seen m _ hpre => ⟨⟨trivial, hjust seen m hpre⟩, trivial⟩
    · exact fun reply seen m hreply _ _ _ t ht _ => removeSandbox_ok (effect_of_ok hreply) t ht
  · exact fun _ => Setting.Triple.ends hgone.toStable

end

/-! ## The sandbox of a Pod -/

/-- What is done for one Pod: no sandbox is made for another one. -/
def ForPod (agent : Agent) (uid : String) : Call → Prop
  | .runSandbox config => config.labels = labels agent.name uid
  | _ => True

theorem Clears.forPod {agent : Agent} {uid : String} {c : Call} (h : Clears c) :
    ForPod agent uid c := by
  cases c <;> trivial

/-- The sandboxes of a Pod are of these ids. -/
def BoxesOf (agent : Agent) (uid : String) (ids : String → Prop) : Known :=
  boxes agent fun id l => Belongs agent.name uid l → ids id

/-- Sandboxes of a Pod, and why those that do not stay have to go. -/
def Found (agent : Agent) (uid : String) (own : List Sandbox) : Known := fun seen m =>
  ∀ s ∈ own, Belongs agent.name uid s.labels ∧ boxIs s.id s.labels seen m ∧
    (some s.id ≠ existing own → Moved agent seen uid s.id)

/-- The one sandbox of a Pod. -/
def Home (agent : Agent) (uid box : String) : Known := fun seen m =>
  BoxesOf agent uid (fun id => id = box) seen m ∧
    ∃ l, Belongs agent.name uid l ∧ boxIs box l seen m

theorem belongs_labels {node uid : String} (h : Api.safeComponent uid = true) :
    Belongs node uid (labels node uid) := by
  have huid : (labels node uid).lookup UID = some uid := by
    simp [labels, List.lookup, UID, NODE]
  refine ⟨?_, huid⟩
  unfold owned
  rw [huid]
  simp [labels, h]

theorem mem_newestFirst {s : Sandbox} {l : List Sandbox} : s ∈ newestFirst l ↔ s ∈ l :=
  (StableSort.perm_sortBy _ l).mem_iff

theorem existing_mem {l : List Sandbox} {id : String} (h : existing l = some id) :
    ∃ s ∈ l, s.id = id := by
  obtain ⟨s, hs, rfl⟩ := Option.map_eq_some_iff.mp h
  exact ⟨s, mem_newestFirst.mp (List.mem_of_find?_eq_some hs), rfl⟩

section

variable {agent : Agent} {K : Call → Prop} {uid : String}

theorem kept_among {ids : String → Prop}
    (hrun : ∀ config id, K (.runSandbox config) → Belongs agent.name uid config.labels → ids id) :
    (only agent K).Kept (BoxesOf agent uid ids) :=
  kept_boxes fun config id hK _ huid => hrun config id hK huid

theorem stable_among (ids : String → Prop) : (only agent K).Stable (BoxesOf agent uid ids) :=
  let h : (only agent Clears).Kept (BoxesOf agent uid ids) := kept_among fun _ _ hrun => hrun.elim
  ⟨h.more, h.others⟩

theorem kept_moved (box : String) : (only agent K).Kept fun seen _ => Moved agent seen uid box :=
  ⟨⟨fun hsub h => h.mono hsub, fun _ _ h => h⟩, fun _ _ h => h⟩

theorem kept_own (own : List Sandbox) : (only agent K).Kept (Found agent uid own) :=
  .forall fun s => .forall fun _ => (Setting.Kept.pure _).and
    ((kept_boxIs s.id s.labels).and (.forall fun _ => kept_moved s.id))

theorem stable_home (box : String) : (only agent K).Stable (Home agent uid box) :=
  (stable_among _).and (.exists fun l => (Setting.Stable.pure _).and (kept_boxIs box l).toStable)

/-- A sandbox that does not stay is cleared away; what is known of the others remains. -/
theorem clear_triple {own rest : List Sandbox} {s : Sandbox} (hs : s ∈ own)
    (hother : some s.id ≠ existing own) :
    (only agent (ForPod agent uid)).Triple
      (fun seen m => Found agent uid own seen m ∧
        BoxesOf agent uid (fun id => (∃ t ∈ s :: rest, t.id = id) ∨ some id = existing own) seen m)
      (remove agent s) fun _ seen m => Found agent uid own seen m ∧
        BoxesOf agent uid (fun id => (∃ t ∈ rest, t.id = id) ∨ some id = existing own) seen m := by
  have hkept : (only agent Clears).Kept fun seen m => Found agent uid own seen m ∧
      BoxesOf agent uid (fun id => (∃ t ∈ s :: rest, t.id = id) ∨ some id = existing own) seen m :=
    (kept_own own).and (kept_among fun _ _ hrun => hrun.elim)
  apply (((remove_triple s).frame hkept).widen fun _ => Clears.forPod).weaken
  · intro seen m _ hpre
    obtain ⟨huid, hbox, hmoved⟩ := hpre.1 s hs
    refine ⟨⟨hbox, fun uid' huid' => ?_⟩, hpre⟩
    rw [huid'.unique huid]
    exact hmoved hother
  · rintro _ seen m _ ⟨hgone, hfound, hamong⟩
    refine ⟨hfound, fun t ht hown htuid => ?_⟩
    rcases hamong t ht hown htuid with ⟨r, hr, hid⟩ | hstays
    · rcases List.mem_cons.mp hr with rfl | hr
      · exact absurd hid.symm (hgone t ht hown)
      · exact .inl ⟨r, hr, hid⟩
    · exact .inr hstays

theorem place_triple {config : SandboxConfig} {own : List Sandbox}
    (hlabels : config.labels = labels agent.name uid) (hsafe : Api.safeComponent uid = true) :
    (only agent (ForPod agent uid)).Triple
      (fun seen m => Found agent uid own seen m ∧
        BoxesOf agent uid (fun id => ∃ s ∈ own, s.id = id) seen m)
      (place agent config own) fun box => Home agent uid box := by
  have hstable : ∀ rest : List Sandbox, (only agent (ForPod agent uid)).Stable fun seen m =>
      Found agent uid own seen m ∧
      BoxesOf agent uid (fun id => (∃ t ∈ rest, t.id = id) ∨ some id = existing own) seen m :=
    fun rest => (kept_own own).toStable.and (stable_among _)
  apply Setting.Triple.bind (M := fun _ seen m => Found agent uid own seen m ∧
    BoxesOf agent uid (fun id => (∃ t ∈ ([] : List Sandbox), t.id = id) ∨ some id = existing own)
      seen m)
  · refine (Setting.Triple.foldlM (J := fun rest _ seen m => Found agent uid own seen m ∧
      BoxesOf agent uid (fun id => (∃ t ∈ rest, t.id = id) ∨ some id = existing own) seen m)
      (fun rest _ => hstable rest) ?_).weaken ?_ fun _ _ _ _ h => h
    · intro s rest _ hs
      split_ifs with hother
      · exact clear_triple (mem_newestFirst.mp hs) hother
      · apply Setting.Triple.pure (hstable (s :: rest))
        rintro seen m _ ⟨hfound, hamong⟩
        refine ⟨hfound, fun t ht hown htuid => ?_⟩
        rcases hamong t ht hown htuid with ⟨r, hr, hid⟩ | hstays
        · rcases List.mem_cons.mp hr with rfl | hr
          · rw [not_not, hid] at hother
            exact .inr hother
          · exact .inl ⟨r, hr, hid⟩
        · exact .inr hstays
    · rintro seen m _ ⟨hfound, hamong⟩
      refine ⟨hfound, fun t ht hown htuid => .inl ?_⟩
      obtain ⟨s, hs, hid⟩ := hamong t ht hown htuid
      exact ⟨s, mem_newestFirst.mpr hs, hid⟩
  · intro _
    cases hexisting : existing own with
    | some box =>
      apply Setting.Triple.pure (hexisting ▸ hstable [])
      rintro seen m _ ⟨hfound, hamong⟩
      obtain ⟨s, hs, rfl⟩ := existing_mem hexisting
      refine ⟨fun t ht hown htuid => ?_, s.labels, (hfound s hs).1, (hfound s hs).2.1⟩
      rcases hamong t ht hown htuid with ⟨r, hr, -⟩ | hstays
      · cases hr
      · exact Option.some.inj hstays
    | none =>
      have hnone : ∀ seen m, BoxesOf agent uid (fun id => (∃ t ∈ ([] : List Sandbox), t.id = id) ∨
          some id = none) seen m → ∀ t ∈ m.sandboxes, ¬Belongs agent.name uid t.labels := by
        intro seen m h t ht htuid
        rcases h t ht htuid.owned htuid with ⟨r, hr, -⟩ | hstays
        · cases hr
        · cases hstays
      apply Setting.Triple.bind (M := fun reply => Home agent uid reply.id)
      · apply Setting.Triple.rpc (hexisting ▸ hstable []) fun reply => stable_home reply.id
        · rintro seen m _ ⟨-, hamong⟩
          refine ⟨⟨fun uid' huid' t ht htuid => ?_, trivial⟩, hlabels⟩
          rw [hlabels] at huid'
          rw [huid'.unique (belongs_labels hsafe)] at htuid
          exact hnone seen m hamong t ht htuid
        · rintro reply seen m hreply hm ⟨-, hamong⟩ _
          obtain ⟨hfresh, hissued, hall⟩ := runSandbox_ok (effect_of_ok hreply)
          refine ⟨fun t ht _ htuid => ?_, labels agent.name uid, belongs_labels hsafe, hissued, ?_⟩
          · rcases hall t ht with hold | hnew
            · exact absurd htuid (hnone seen m hamong t hold)
            · exact hnew.1
          · intro t ht hid
            rcases hall t ht with hold | hnew
            · exact absurd (hid ▸ hm.issuedSandboxes t hold) hfresh
            · exact hnew.2.trans hlabels
      · exact fun reply => Setting.Triple.pure (stable_home _) fun _ _ _ h => h

end

end Hedronetes.Kubelet.Runtime
