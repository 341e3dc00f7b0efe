import Hedronetes.Foundations.Triples
import Hedronetes.Kubelet.Volumes

/-!
# The container runtime

What the kubelet finds on its node: the sandboxes and containers of the runtime, some of which carry
the node's labels, and what it can ask the runtime to do. A request may fail, before it has its
effect or after it. Others use the same runtime, and what runs in it ends when it will.
-/

namespace Hedronetes.Kubelet.Runtime

/-! ## Labels -/

abbrev Labels := List (String × String)

def NODE : String := "io.hedronetes.node"

def UID : String := "io.hedronetes.pod.uid"

def HASH : String := "io.hedronetes.container.hash"

def labels (node uid : String) : Labels := [(NODE, node), (UID, uid)]

def owned (l : Labels) (node : String) : Bool :=
  l.lookup NODE = some node && (l.lookup UID).any Api.safeComponent

/-! ## Sandboxes and containers -/

inductive State
  | created
  | running
  | exited
  | unknown
  deriving DecidableEq

structure Sandbox where
  id : String
  labels : Labels
  /-- The attempt of its metadata. -/
  attempt : Option ℕ
  ready : Bool
  createdAt : ℤ
  ip : String

@[ext]
structure Metadata where
  name : String
  attempt : ℕ
  deriving DecidableEq

structure Container where
  id : String
  sandbox : String
  labels : Labels
  metadata : Option Metadata
  state : State
  exitCode : ℤ
  /-- Nanoseconds since the epoch, as every time of the runtime. -/
  startedAt : ℤ
  finishedAt : ℤ
  imageRef : String

/-- A container of an unknown state may be running. -/
def Container.live (x : Container) : Bool := x.state = .running || x.state = .unknown

structure SandboxConfig where
  name : String
  ns : String
  uid : String
  attempt : ℕ
  hostname : String
  logDirectory : String
  dns : Json
  labels : Labels

structure ContainerConfig where
  metadata : Metadata
  image : String
  command : List String
  args : List String
  workingDir : String
  mounts : List Mount
  labels : Labels
  /-- Its resources and its security context. -/
  linux : Json
  logPath : String
  envs : List (String × String)

/-- What the kubelet remembers of the readiness of a container. -/
structure Entry where
  /-- Nanoseconds of a clock that never goes back. -/
  checked : ℕ
  success : ℕ
  failure : ℕ
  ready : Bool
  deriving DecidableEq

/-! ## The node -/

inductive Fault
  /-- Nothing happened. -/
  | refused
  /-- It happened, but the answer did not come. -/
  | lost
  deriving DecidableEq

structure Machine where
  sandboxes : List Sandbox
  containers : List Container
  images : List String
  /-- The ids that the runtime has given. -/
  issued : List String
  /-- The ids it gives next. -/
  supply : List String
  clock : ℤ
  instant : ℕ
  /-- What comes of a request now. -/
  fault : Option Fault
  /-- The API server's answer to the list of the Pods assigned to the node. -/
  listing : ℕ × Json
  /-- Its answer to a write. -/
  written : ℕ
  /-- The environment of a container of a Pod. -/
  env : Json → Json → List (String × String)
  /-- Which readiness checks pass in time. -/
  passes : String → Bool
  /-- The directories of Pods under the kubelet's root. -/
  directories : List String
  probes : String → Option Entry

inductive Call
  | runSandbox (config : SandboxConfig)
  | stopSandbox (id : String)
  | removeSandbox (id : String)
  | createContainer (sandbox : String) (config : ContainerConfig)
  | startContainer (id : String)
  | stopContainer (id : String) (timeout : ℤ)
  | removeContainer (id : String)
  | pullImage (image : String)
  /-- The directories, volumes and logs of a Pod are set up. -/
  | prepare (uid : String)
  | removeDirectory (uid : String)
  | publish (ns name : String) (body : Json)
  | record (id : String) (entry : Entry)
  | retain (ids : List String)

/-- The id of what was made, or the status code of the API server. -/
structure Reply where
  id : String
  code : ℕ

namespace Machine

def done (m : Machine) : Option (Reply × Machine) := some (⟨"", 0⟩, m)

/-- An id that was never given before. -/
def issue (m : Machine) : Option String := m.supply.head?.filter fun id => id ∉ m.issued

/-- A container that ends now, if it is one of those and lives. -/
def ended (m : Machine) (p : Container → Bool) (x : Container) : Container :=
  if p x && x.live then { x with state := .exited, finishedAt := m.clock } else x

def stopped (m : Machine) (p : Container → Bool) : List Container :=
  m.containers.map (m.ended p)

/-- What a request does to the node and what it answers, unless the runtime refuses it. -/
def effect (m : Machine) : Call → Option (Reply × Machine)
  | .runSandbox config =>
    m.issue.map fun id => (⟨id, 0⟩, { m with
      sandboxes := m.sandboxes ++ [⟨id, config.labels, some config.attempt, true, m.clock, ""⟩]
      issued := id :: m.issued
      supply := m.supply.tail })
  | .stopSandbox id => done { m with
      sandboxes := m.sandboxes.map fun s => if s.id = id then { s with ready := false } else s
      containers := m.stopped fun x => x.sandbox = id }
  | .removeSandbox id => done { m with
      sandboxes := m.sandboxes.filter fun s => s.id ≠ id
      containers := m.containers.filter fun x => x.sandbox ≠ id }
  | .createContainer sandbox config =>
    -- a name and an attempt are given to one container of a sandbox
    if (∃ s ∈ m.sandboxes, s.id = sandbox) ∧
        ∀ x ∈ m.containers, x.sandbox = sandbox → x.metadata ≠ some config.metadata then
      m.issue.map fun id => (⟨id, 0⟩, { m with
        containers := m.containers ++
          [⟨id, sandbox, config.labels, some config.metadata, .created, 0, 0, 0, config.image⟩]
        issued := id :: m.issued
        supply := m.supply.tail })
    else none
  | .startContainer id =>
    if ∃ x ∈ m.containers, x.id = id ∧ x.state = .created then
      done { m with
        containers := m.containers.map fun x =>
          if x.id = id && x.state = .created then
            { x with state := .running, startedAt := m.clock }
          else x }
    else none
  | .stopContainer id _ => done { m with containers := m.stopped fun x => x.id = id }
  | .removeContainer id => done { m with
      containers := m.containers.filter fun x => x.id ≠ id }
  | .pullImage image => done { m with images := image :: m.images }
  | .prepare uid => done { m with directories := m.directories.insert uid }
  | .removeDirectory uid => done { m with directories := m.directories.erase uid }
  | .publish _ _ _ => some (⟨"", m.written⟩, m)
  | .record id entry => done { m with
      probes := fun other => if other = id then some entry else m.probes other }
  | .retain ids => done { m with
      probes := fun id => if id ∈ ids then m.probes id else none }

end Machine

/-- What the kubelet's own memory holds is always at hand. -/
def Call.remote : Call → Bool
  | .record _ _ => false
  | .retain _ => false
  | _ => true

inductive Failure where
  | kubelet (e : Error)
  /-- An error of the runtime, of a file or of the connection to the API server. -/
  | io
  | status (code : ℕ)

def perform (c : Call) (m : Machine) : Except Failure Reply × Machine :=
  if c.remote && m.fault.isSome then
    (.error .io, if m.fault = some .lost then ((m.effect c).map Prod.snd).getD m else m)
  else
    match m.effect c with
    | some (reply, m') => (.ok reply, m')
    | none => (.error .io, m)

/-- Whatever comes of a call, it has had its effect or it has not. -/
theorem perform_cases (c : Call) (m : Machine) : (perform c m).2 = m ∨
    ∃ reply, m.effect c = some (reply, (perform c m).2) := by
  unfold perform
  split_ifs with hfault hlost
  · cases h : m.effect c with
    | none => exact .inl rfl
    | some r => exact .inr ⟨r.1, rfl⟩
  · exact .inl rfl
  · cases h : m.effect c with
    | none => exact .inl rfl
    | some r => exact .inr ⟨r.1, rfl⟩

/-- A reply comes with the effect. -/
theorem effect_of_ok {c : Call} {m : Machine} {reply : Reply}
    (h : (perform c m).1 = .ok reply) : m.effect c = some (reply, (perform c m).2) := by
  unfold perform at h ⊢
  split_ifs at h ⊢ with hfault
  cases heffect : m.effect c with
  | none => simp [heffect] at h
  | some r =>
    simp only [heffect, Except.ok.injEq] at h ⊢
    rw [← h]

/-! ## The others -/

/-- What never changes of a container. -/
structure Container.Same (x y : Container) : Prop where
  id : x.id = y.id
  sandbox : x.sandbox = y.sandbox
  labels : x.labels = y.labels
  metadata : x.metadata = y.metadata

/-- What the runtime keeps to, whoever uses it. -/
structure Regular (m : Machine) : Prop where
  sandboxes : ∀ s ∈ m.sandboxes, ∀ s' ∈ m.sandboxes, s.id = s'.id → s = s'
  containers : ∀ x ∈ m.containers, ∀ y ∈ m.containers, x.id = y.id → x = y
  attempts : ∀ x ∈ m.containers, ∀ y ∈ m.containers, x.sandbox = y.sandbox →
    x.metadata = y.metadata → x.metadata ≠ none → x = y
  issuedSandboxes : ∀ s ∈ m.sandboxes, s.id ∈ m.issued
  issuedContainers : ∀ x ∈ m.containers, x.id ∈ m.issued
  /-- A container goes with its sandbox. -/
  housed : ∀ x ∈ m.containers, ∃ s ∈ m.sandboxes, s.id = x.sandbox

/-- What can happen between two steps of the kubelet on a node. Others do what they want with what
does not carry the node's labels; of what carries them none comes to be and none comes to life.
No id is given twice. -/
structure Others (node : String) (m m' : Machine) : Prop where
  regular : Regular m'
  issued : m.issued ⊆ m'.issued
  sandboxes : ∀ s' ∈ m'.sandboxes, s'.id ∈ m.issued ∨ owned s'.labels node = true →
    ∃ s ∈ m.sandboxes, s.id = s'.id ∧ s.labels = s'.labels
  containers : ∀ x' ∈ m'.containers, x'.id ∈ m.issued ∨ owned x'.labels node = true →
    ∃ x ∈ m.containers, x.Same x' ∧ (owned x'.labels node = true → x'.live = true → x.live = true)

/-! ## What a call does -/

theorem Container.Same.refl (x : Container) : x.Same x := ⟨rfl, rfl, rfl, rfl⟩

theorem Container.Same.trans {x y z : Container} (h : x.Same y) (h' : y.Same z) : x.Same z :=
  ⟨h.id.trans h'.id, h.sandbox.trans h'.sandbox, h.labels.trans h'.labels,
    h.metadata.trans h'.metadata⟩

theorem Container.Same.symm {x y : Container} (h : x.Same y) : y.Same x :=
  ⟨h.id.symm, h.sandbox.symm, h.labels.symm, h.metadata.symm⟩

/-- What a container brings with it when it is made. -/
structure Made (box : String) (config : ContainerConfig) (m : Machine) (x : Container) :
    Prop where
  sandbox : x.sandbox = box
  labels : x.labels = config.labels
  metadata : x.metadata = some config.metadata
  idle : x.live = false
  fresh : m.issue = some x.id
  alone : ∀ y ∈ m.containers, y.sandbox = box → y.metadata ≠ some config.metadata

/-- What can have come of a call. -/
structure Did (c : Call) (m m' : Machine) : Prop where
  regular : Regular m → Regular m'
  issued : m.issued ⊆ m'.issued
  sandboxes : ∀ s' ∈ m'.sandboxes, (∃ s ∈ m.sandboxes, s.id = s'.id ∧ s.labels = s'.labels) ∨
    ∃ config, c = .runSandbox config ∧ s'.labels = config.labels ∧ m.issue = some s'.id
  containers : ∀ x' ∈ m'.containers,
    (∃ x ∈ m.containers, x.Same x' ∧
      (x'.live = true → x.live = true ∨ c = .startContainer x'.id)) ∨
    ∃ box config, c = .createContainer box config ∧ Made box config m x'

theorem Did.refl (c : Call) (m : Machine) : Did c m m :=
  ⟨fun h => h, List.Subset.refl _, fun s hs => .inl ⟨s, hs, rfl, rfl⟩,
    fun x hx => .inl ⟨x, hx, .refl x, fun h => .inl h⟩⟩

/-- A part of what there was, as it was but for what changes of a sandbox and a container. -/
structure Narrowed (m m' : Machine) (p : Sandbox → Bool) (f : Sandbox → Sandbox)
    (q : Container → Bool) (g : Container → Container) : Prop where
  sandboxes : m'.sandboxes = (m.sandboxes.filter p).map f
  containers : m'.containers = (m.containers.filter q).map g
  issued : m'.issued = m.issued
  box : ∀ s, s.id = (f s).id ∧ s.labels = (f s).labels
  same : ∀ x : Container, x.Same (g x)
  housed : ∀ x ∈ m.containers, q x = true → ∀ s ∈ m.sandboxes, s.id = x.sandbox → p s = true

section

variable {m m' : Machine} {p : Sandbox → Bool} {f : Sandbox → Sandbox} {q : Container → Bool}
  {g : Container → Container} {c : Call}

theorem Narrowed.mem_sandboxes (h : Narrowed m m' p f q g) {s' : Sandbox}
    (hs : s' ∈ m'.sandboxes) : ∃ s ∈ m.sandboxes, p s = true ∧ f s = s' := by
  rw [h.sandboxes] at hs
  obtain ⟨s, hmem, rfl⟩ := List.mem_map.mp hs
  exact ⟨s, (List.mem_filter.mp hmem).1, (List.mem_filter.mp hmem).2, rfl⟩

theorem Narrowed.mem_containers (h : Narrowed m m' p f q g) {x' : Container}
    (hx : x' ∈ m'.containers) : ∃ x ∈ m.containers, q x = true ∧ g x = x' := by
  rw [h.containers] at hx
  obtain ⟨x, hmem, rfl⟩ := List.mem_map.mp hx
  exact ⟨x, (List.mem_filter.mp hmem).1, (List.mem_filter.mp hmem).2, rfl⟩

theorem Narrowed.regular (h : Narrowed m m' p f q g) (hm : Regular m) : Regular m' := by
  refine ⟨?_, ?_, ?_, ?_, ?_, ?_⟩
  · intro s hs s' hs' hid
    obtain ⟨r, hr, -, rfl⟩ := h.mem_sandboxes hs
    obtain ⟨r', hr', -, rfl⟩ := h.mem_sandboxes hs'
    rw [← (h.box r).1, ← (h.box r').1] at hid
    rw [hm.sandboxes r hr r' hr' hid]
  · intro x hx y hy hid
    obtain ⟨u, hu, -, rfl⟩ := h.mem_containers hx
    obtain ⟨v, hv, -, rfl⟩ := h.mem_containers hy
    rw [← (h.same u).id, ← (h.same v).id] at hid
    rw [hm.containers u hu v hv hid]
  · intro x hx y hy hsandbox hmetadata hsome
    obtain ⟨u, hu, -, rfl⟩ := h.mem_containers hx
    obtain ⟨v, hv, -, rfl⟩ := h.mem_containers hy
    rw [← (h.same u).sandbox, ← (h.same v).sandbox] at hsandbox
    rw [← (h.same u).metadata] at hsome
    rw [← (h.same u).metadata, ← (h.same v).metadata] at hmetadata
    rw [hm.attempts u hu v hv hsandbox hmetadata hsome]
  · intro s hs
    obtain ⟨r, hr, -, rfl⟩ := h.mem_sandboxes hs
    rw [h.issued, ← (h.box r).1]
    exact hm.issuedSandboxes r hr
  · intro x hx
    obtain ⟨u, hu, -, rfl⟩ := h.mem_containers hx
    rw [h.issued, ← (h.same u).id]
    exact hm.issuedContainers u hu
  · intro x hx
    obtain ⟨u, hu, hkept, rfl⟩ := h.mem_containers hx
    obtain ⟨s, hs, hid⟩ := hm.housed u hu
    have hstays := h.housed u hu hkept s hs hid
    refine ⟨f s, ?_, ?_⟩
    · rw [h.sandboxes]
      exact List.mem_map_of_mem (List.mem_filter.mpr ⟨hs, hstays⟩)
    · rw [← (h.box s).1, hid, (h.same u).sandbox]

theorem Narrowed.did (h : Narrowed m m' p f q g)
    (hlive : ∀ x, (g x).live = true → x.live = true ∨ c = .startContainer (g x).id) :
    Did c m m' := by
  refine ⟨h.regular, fun id hid => h.issued ▸ hid, ?_, ?_⟩
  · intro s' hs'
    obtain ⟨s, hs, -, rfl⟩ := h.mem_sandboxes hs'
    exact .inl ⟨s, hs, h.box s⟩
  · intro x' hx'
    obtain ⟨x, hx, -, rfl⟩ := h.mem_containers hx'
    exact .inl ⟨x, hx, h.same x, hlive x⟩

end

theorem Machine.issue_fresh {m : Machine} {id : String} (h : m.issue = some id) :
    id ∉ m.issued := by
  obtain ⟨-, hid⟩ := Option.filter_eq_some_iff.mp h
  exact of_decide_eq_true hid

theorem ended_same (m : Machine) (p : Container → Bool) (x : Container) :
    x.Same (m.ended p x) := by
  unfold Machine.ended
  split_ifs <;> exact ⟨rfl, rfl, rfl, rfl⟩

theorem ended_live {m : Machine} {p : Container → Bool} {x : Container}
    (h : (m.ended p x).live = true) : x.live = true ∧ p x = false := by
  unfold Machine.ended at h
  split_ifs at h with hends
  · cases h
  · exact ⟨h, by simpa [h] using hends⟩

theorem did_runSandbox {m : Machine} {config : SandboxConfig} {id : String}
    (h : m.issue = some id) : Did (.runSandbox config) m { m with
      sandboxes := m.sandboxes ++ [⟨id, config.labels, some config.attempt, true, m.clock, ""⟩]
      issued := id :: m.issued
      supply := m.supply.tail } := by
  have hfresh := m.issue_fresh h
  refine ⟨fun hm => ⟨?_, hm.containers, hm.attempts, ?_, ?_, ?_⟩, ?_, ?_, ?_⟩
  · intro s hs s' hs' hid
    rcases List.mem_append.mp hs with hs | hs <;> rcases List.mem_append.mp hs' with hs' | hs'
    · exact hm.sandboxes s hs s' hs' hid
    · rw [List.mem_singleton.mp hs'] at hid
      have hsame : s.id = id := hid
      exact absurd (hsame ▸ hm.issuedSandboxes s hs) hfresh
    · rw [List.mem_singleton.mp hs] at hid
      have hsame : s'.id = id := hid.symm
      exact absurd (hsame ▸ hm.issuedSandboxes s' hs') hfresh
    · rw [List.mem_singleton.mp hs, List.mem_singleton.mp hs']
  · intro s hs
    rcases List.mem_append.mp hs with hs | hs
    · exact List.mem_cons_of_mem _ (hm.issuedSandboxes s hs)
    · rw [List.mem_singleton.mp hs]
      exact List.mem_cons_self
  · exact fun x hx => List.mem_cons_of_mem _ (hm.issuedContainers x hx)
  · intro x hx
    obtain ⟨s, hs, hid⟩ := hm.housed x hx
    exact ⟨s, List.mem_append_left _ hs, hid⟩
  · exact List.subset_cons_self _ _
  · intro s hs
    rcases List.mem_append.mp hs with hs | hs
    · exact .inl ⟨s, hs, rfl, rfl⟩
    · rw [List.mem_singleton.mp hs]
      exact .inr ⟨config, rfl, rfl, h⟩
  · exact fun x hx => .inl ⟨x, hx, .refl x, fun hl => .inl hl⟩

theorem did_createContainer {m : Machine} {sandbox id : String} {config : ContainerConfig}
    (h : m.issue = some id) (hbox : ∃ s ∈ m.sandboxes, s.id = sandbox)
    (halone : ∀ x ∈ m.containers, x.sandbox = sandbox → x.metadata ≠ some config.metadata) :
    Did (.createContainer sandbox config) m { m with
      containers := m.containers ++
        [⟨id, sandbox, config.labels, some config.metadata, .created, 0, 0, 0, config.image⟩]
      issued := id :: m.issued
      supply := m.supply.tail } := by
  have hfresh := m.issue_fresh h
  refine ⟨fun hm => ⟨hm.sandboxes, ?_, ?_, ?_, ?_, ?_⟩, ?_, ?_, ?_⟩
  · intro x hx y hy hid
    rcases List.mem_append.mp hx with hx | hx <;> rcases List.mem_append.mp hy with hy | hy
    · exact hm.containers x hx y hy hid
    · rw [List.mem_singleton.mp hy] at hid
      have hsame : x.id = id := hid
      exact absurd (hsame ▸ hm.issuedContainers x hx) hfresh
    · rw [List.mem_singleton.mp hx] at hid
      have hsame : y.id = id := hid.symm
      exact absurd (hsame ▸ hm.issuedContainers y hy) hfresh
    · rw [List.mem_singleton.mp hx, List.mem_singleton.mp hy]
  · intro x hx y hy hsandbox hmetadata hsome
    rcases List.mem_append.mp hx with hx | hx <;> rcases List.mem_append.mp hy with hy | hy
    · exact hm.attempts x hx y hy hsandbox hmetadata hsome
    · rw [List.mem_singleton.mp hy] at hsandbox hmetadata
      exact absurd hmetadata (halone x hx hsandbox)
    · rw [List.mem_singleton.mp hx] at hsandbox hmetadata
      exact absurd hmetadata.symm (halone y hy hsandbox.symm)
    · rw [List.mem_singleton.mp hx, List.mem_singleton.mp hy]
  · exact fun s hs => List.mem_cons_of_mem _ (hm.issuedSandboxes s hs)
  · intro x hx
    rcases List.mem_append.mp hx with hx | hx
    · exact List.mem_cons_of_mem _ (hm.issuedContainers x hx)
    · rw [List.mem_singleton.mp hx]
      exact List.mem_cons_self
  · intro x hx
    rcases List.mem_append.mp hx with hx | hx
    · exact hm.housed x hx
    · rw [List.mem_singleton.mp hx]
      exact hbox
  · exact List.subset_cons_self _ _
  · exact fun s hs => .inl ⟨s, hs, rfl, rfl⟩
  · intro x hx
    rcases List.mem_append.mp hx with hx | hx
    · exact .inl ⟨x, hx, .refl x, fun hl => .inl hl⟩
    · rw [List.mem_singleton.mp hx]
      exact .inr ⟨sandbox, config, rfl, rfl, rfl, rfl, rfl, h, halone⟩

/-- A call that leaves what runs alone. -/
theorem did_beside {c : Call} {m m' : Machine} (hsandboxes : m'.sandboxes = m.sandboxes)
    (hcontainers : m'.containers = m.containers) (hissued : m'.issued = m.issued) :
    Did c m m' := by
  have hnarrowed : Narrowed m m' (fun _ => true) id (fun _ => true) id :=
    ⟨by simp [hsandboxes], by simp [hcontainers], hissued, fun _ => ⟨rfl, rfl⟩,
      fun x => .refl x, fun _ _ _ _ _ _ => rfl⟩
  exact hnarrowed.did fun x hx => .inl hx

theorem did_effect {c : Call} {m m' : Machine} {reply : Reply}
    (h : m.effect c = some (reply, m')) : Did c m m' := by
  cases c with
  | runSandbox config =>
    obtain ⟨id, hid, he⟩ := Option.map_eq_some_iff.mp h
    cases he
    exact did_runSandbox hid
  | stopSandbox id =>
    cases h
    refine Narrowed.did (p := fun _ => true)
      (f := fun s => if s.id = id then { s with ready := false } else s) (q := fun _ => true)
      (g := m.ended fun x => x.sandbox = id)
      ⟨by simp, by simp [Machine.stopped], rfl, fun s => ?_, ended_same m _,
        fun _ _ _ _ _ _ => rfl⟩ fun x hx => .inl (ended_live hx).1
    split_ifs <;> exact ⟨rfl, rfl⟩
  | removeSandbox id =>
    cases h
    refine Narrowed.did (p := fun s => s.id ≠ id) (f := fun s => s)
      (q := fun x => x.sandbox ≠ id) (g := fun x => x)
      ⟨by simp, by simp, rfl, fun _ => ⟨rfl, rfl⟩, .refl, fun x _ hkept s _ hs => ?_⟩
      fun x hx => .inl hx
    simpa [hs] using hkept
  | createContainer sandbox config =>
    simp only [Machine.effect] at h
    split_ifs at h with hgood
    obtain ⟨id, hid, he⟩ := Option.map_eq_some_iff.mp h
    cases he
    exact did_createContainer hid hgood.1 hgood.2
  | startContainer id =>
    simp only [Machine.effect] at h
    split_ifs at h with hgood
    cases h
    refine Narrowed.did (p := fun _ => true) (f := fun s => s) (q := fun _ => true)
      (g := fun x => if decide (x.id = id) && decide (x.state = .created) then
        { x with state := .running, startedAt := m.clock } else x)
      ⟨by simp, by simp, rfl, fun _ => ⟨rfl, rfl⟩, fun x => ?_, fun _ _ _ _ _ _ => rfl⟩
      fun x hx => ?_
    · split_ifs <;> exact ⟨rfl, rfl, rfl, rfl⟩
    · split_ifs at hx ⊢ with hstarts
      · simp only [Bool.and_eq_true, decide_eq_true_eq] at hstarts
        exact .inr (by rw [hstarts.1])
      · exact .inl hx
  | stopContainer id timeout =>
    cases h
    exact Narrowed.did (p := fun _ => true) (f := fun s => s) (q := fun _ => true)
      (g := m.ended fun x => x.id = id) ⟨by simp, by simp [Machine.stopped], rfl,
        fun _ => ⟨rfl, rfl⟩, ended_same m _, fun _ _ _ _ _ _ => rfl⟩
      fun x hx => .inl (ended_live hx).1
  | removeContainer id =>
    cases h
    exact Narrowed.did (p := fun _ => true) (f := fun s => s) (q := fun x => x.id ≠ id)
      (g := fun x => x) ⟨by simp, by simp, rfl, fun _ => ⟨rfl, rfl⟩, .refl,
        fun _ _ _ _ _ _ => rfl⟩ fun x hx => .inl hx
  | pullImage image =>
    cases h
    exact did_beside rfl rfl rfl
  | prepare uid =>
    cases h
    exact did_beside rfl rfl rfl
  | removeDirectory uid =>
    cases h
    exact did_beside rfl rfl rfl
  | publish ns name body =>
    cases h
    exact did_beside rfl rfl rfl
  | record id entry =>
    cases h
    exact did_beside rfl rfl rfl
  | retain ids =>
    cases h
    exact did_beside rfl rfl rfl

theorem did (c : Call) (m : Machine) : Did c m (perform c m).2 := by
  rcases perform_cases c m with h | ⟨reply, h⟩
  · rw [h]
    exact .refl c m
  · exact did_effect h

/-! ## Answers -/

section

variable {m m' : Machine} {reply : Reply} {id : String}

theorem stopContainer_ok {timeout : ℤ}
    (h : m.effect (.stopContainer id timeout) = some (reply, m')) :
    ∀ x ∈ m'.containers, x.id = id → x.live = false := by
  cases h
  intro x hx hid
  obtain ⟨y, -, rfl⟩ := List.mem_map.mp hx
  cases hlive : (m.ended (fun x => x.id = id) y).live with
  | false => rfl
  | true =>
    have hsame := (ended_same m (fun x => x.id = id) y).id.trans hid
    exact absurd hsame (of_decide_eq_false (ended_live hlive).2)

theorem removeSandbox_ok (h : m.effect (.removeSandbox id) = some (reply, m')) :
    ∀ s ∈ m'.sandboxes, s.id ≠ id := by
  cases h
  exact fun s hs => of_decide_eq_true (List.mem_filter.mp hs).2

theorem runSandbox_ok {config : SandboxConfig}
    (h : m.effect (.runSandbox config) = some (reply, m')) :
    reply.id ∉ m.issued ∧ reply.id ∈ m'.issued ∧
      ∀ s ∈ m'.sandboxes, s ∈ m.sandboxes ∨ s.id = reply.id ∧ s.labels = config.labels := by
  obtain ⟨id, hid, he⟩ := Option.map_eq_some_iff.mp h
  cases he
  refine ⟨m.issue_fresh hid, List.mem_cons_self, fun s hs => ?_⟩
  rcases List.mem_append.mp hs with hs | hs
  · exact .inl hs
  · rw [List.mem_singleton.mp hs]
    exact .inr ⟨rfl, rfl⟩

theorem createContainer_ok {box : String} {config : ContainerConfig}
    (h : m.effect (.createContainer box config) = some (reply, m')) :
    ∃ x, Made box config m x ∧ x.id = reply.id ∧ m'.containers = m.containers ++ [x] ∧
      m'.issued = x.id :: m.issued := by
  simp only [Machine.effect] at h
  split_ifs at h with hgood
  obtain ⟨id, hid, he⟩ := Option.map_eq_some_iff.mp h
  cases he
  exact ⟨_, ⟨rfl, rfl, rfl, rfl, hid, hgood.2⟩, rfl, rfl, rfl⟩

end

end Hedronetes.Kubelet.Runtime
