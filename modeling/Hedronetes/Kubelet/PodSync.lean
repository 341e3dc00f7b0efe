import Hedronetes.Foundations.StableSort
import Hedronetes.Kubelet.Containers
import Hedronetes.Kubelet.Expansion

/-!
# The Pods of a node

A sweep reads the Pods assigned to the node and brings the container runtime to what they ask for.
The runtime is the authority on what runs; only a complete list of Pods shows that one is gone.
-/

namespace Hedronetes.Kubelet.Runtime

open Server Interleaving StableSort

/-- What a read is for. -/
inductive Look
  | pods
  | sandboxes
  | sandbox (id : String)
  | containers (sandbox : String)
  | container (id : String)
  | environment
  | image (image : String)
  | time
  | probe (id : String)
  | directories
  deriving DecidableEq

abbrev Act := Program Machine Look Call (Except Failure Reply) Failure

def invalid (message : String) : Failure := .kubelet (.invalid message)

/-- A check of the kubelet's own. -/
def checked {α : Type} (x : Result α) : Except Failure α := x.mapError .kubelet

def demand (p : Prop) [Decidable p] (message : String) : Except Failure Unit :=
  if p then .ok () else .error (invalid message)

/-- A read that goes to the runtime, to a file or to the API server. -/
def look {α : Type} (what : Look) (f : Machine → Except Failure α) : Act α :=
  .reading what fun m => if m.fault.isSome then .error .io else f m

def rpc (c : Call) : Act Reply := .call c .lift

/-- The kubelet and what it computes with code that is not modelled here. -/
structure Agent where
  name : String
  ip : String
  root : String
  /-- The resolver configuration of a Pod's sandbox. -/
  dns : Json → Result Json
  /-- The resources and the security context of a container of a Pod. -/
  linux : Json → Json → Result Json
  digest : Json → String
  /-- A time as text. -/
  stamp : ℤ → String

variable (agent : Agent)

/-! ## What is asked for -/

def number (n : ℕ) : Json := .number (.int n)

def strings (v : Json) : Result (List String) :=
  if v = .null then .ok []
  else
    match v.asArray with
    | none => .error (.invalid "expected string list")
    | some items => items.mapM fun item =>
      match item.asString.filter fun s => !s.toList.contains '\x00' with
      | some s => .ok s
      | none => .error (.invalid "invalid string list")

/-- Identity, the runtime profile, then assignment to this node. -/
def validate (p : Json) (node : String) : Except Failure Unit := do
  checked (identity p)
  checked ((Api.check p["spec"]).mapError .profile)
  demand ((← checked (text p["spec"] "nodeName")) = node) "Pod is assigned to another node"

/-- A Pod of the list, after those with these UIDs. -/
def accept (desired : List String) (p : Json) : Except Failure (List String) := do
  demand ((← checked (text p["spec"] "nodeName")) = agent.name) "assigned list contains foreign Pod"
  let _ ← ["name", "namespace"].mapM fun key => do
    demand (Api.safeComponent (← checked (text p["metadata"] key))) "invalid Pod path identity"
  let uid ← checked (text p["metadata"] "uid")
  demand (Api.safeComponent uid ∧ uid ∉ desired) "invalid or duplicate Pod UID"
  return uid :: desired

/-- The Pods of an answer of the API server, if it is the whole list of those of this node. -/
def assigned (listing : ℕ × Json) : Except Failure (List Json) := do
  if listing.1 ≠ 200 then throw (.status listing.1)
  demand (listing.2["metadata"]["continue"].hasText = false) "incomplete assigned Pod list"
  match listing.2["items"].asArray.filter fun pods => pods.length ≤ 256 with
  | none => throw (invalid "invalid or oversized assigned Pod list")
  | some pods =>
    let _ ← pods.foldlM (accept agent) []
    return pods

def uidOf (p : Json) : String := p["metadata"]["uid"].asString.getD ""

/-- What a container is identified by: one with another hash is another container. -/
def identityOf (p ctr : Json) : Json :=
  Json.ofPairs ([("container", ctr), ("podSecurityContext", p["spec"]["securityContext"]),
    ("runtimeProfile", .string "restricted-v1")] ++
    if p["spec"]["volumes"].items ≠ [] then [("volumes", p["spec"]["volumes"])] else [])

def configOf (p : Json) (uid root : String) (ctr : Json) : Result ContainerConfig := do
  let name ← text ctr "name"
  let image ← text ctr "image"
  let command ← strings ctr["command"]
  let args ← strings ctr["args"]
  let mounts ← mounts p ctr root
  let linux ← agent.linux p ctr
  return {
    metadata := ⟨name, 0⟩
    image, command, args, mounts, linux
    workingDir := ctr["workingDir"].asString.getD ""
    labels := labels agent.name uid ++ [(HASH, agent.digest (identityOf p ctr))]
    logPath := ""
    envs := [] }

/-! ## Restarts -/

def policyOf (p : Json) : String := p["spec"]["restartPolicy"].asString.getD "Always"

def shouldRestart (x : Option Container) (same : Bool) (policy : String) : Bool :=
  match x with
  | none => true
  | some x =>
    if !same then true
    else
      match x.state with
      | .exited => policy = "Always" || policy = "OnFailure" && x.exitCode ≠ 0
      | .unknown => true
      | _ => false

def attemptOf (x : Container) : ℕ := (x.metadata.map Metadata.attempt).getD 0

/-- Seconds to wait before the next start. -/
def delay (attempt : ℕ) : ℕ := min (10 * 2 ^ min attempt 5) 300

def retryDue (now : ℤ) (x : Container) : Bool :=
  delay (attemptOf x) * 1000000000 ≤ now - x.finishedAt

def U32_MAX : ℕ := 2 ^ 32 - 1

/-- `saturating_add(1)`. -/
def next (n : ℕ) : ℕ := if n < U32_MAX then n + 1 else n

/-- `as_u64`. -/
def asU64 : Json → Option ℕ
  | .number (.int n) => (some n.toNat).filter fun k => k = n ∧ k < 2 ^ 64
  | _ => none

/-- The restarts that the API server knows of. -/
def oldRestart (p : Json) (name : String) : ℕ :=
  match p["status"]["containerStatuses"].items.find? fun s => s["name"] = .string name with
  | none => 0
  | some s => min ((asU64 s["restartCount"]).getD 0) U32_MAX

/-! ## Requests to the runtime -/

def gracePeriod (p : Json) : ℤ :=
  max 0 (min ((p["spec"]["terminationGracePeriodSeconds"].asInt).getD 30) 30)

def stop (id : String) (p : Json) : Act Unit := do
  let _ ← rpc (.stopContainer id (gracePeriod p))

def inSandbox (m : Machine) (id : String) : List Container :=
  m.containers.filter fun x => x.sandbox = id

def remove (s : Sandbox) : Act Unit := do
  demand (owned s.labels agent.name) "refusing foreign sandbox cleanup"
  let containers ← look (.containers s.id) fun m => .ok (inSandbox m s.id)
  demand (∀ x ∈ containers, owned x.labels agent.name ∧
    x.labels.lookup UID = s.labels.lookup UID) "sandbox contains foreign container"
  containers.foldlM (fun _ x => do
    stop x.id .null
    let _ ← rpc (.removeContainer x.id)) ()
  let _ ← rpc (.stopSandbox s.id)
  let _ ← rpc (.removeSandbox s.id)

def pullPolicy (ctr : Json) : String := ctr["imagePullPolicy"].asString.getD "IfNotPresent"

/-- Whether the image need not be pulled. -/
def present (ctr : Json) (image : String) : Act Bool :=
  if pullPolicy ctr = "Always" then pure false
  else look (.image image) fun m => .ok (decide (image ∈ m.images))

def pull (ctr : Json) : Act Unit := do
  let image ← liftM (checked (text ctr "image"))
  if ← present ctr image then return
  demand (pullPolicy ctr ≠ "Never") "image is absent and pull policy is Never"
  let _ ← rpc (.pullImage image)

def containerStatus (id : String) : Act (Option Container) :=
  look (.container id) fun m =>
    match m.containers.find? fun x => x.id = id with
    | some x => .ok (some x)
    | none => .error .io

def now : Act ℤ := .reading .time fun m => .ok m.clock

/-! ## Readiness -/

def natural (v : Json) (default : ℕ) : ℕ := (asU64 v).getD default

def clampU32 (n : ℕ) : ℕ := max 1 (min n U32_MAX)

/-- The entry after a check, from the one before. -/
def Entry.after (e : Entry) (p : Json) (instant : ℕ) (passed : Bool) : Entry :=
  if passed then
    { checked := instant
      success := next e.success
      failure := 0
      ready := e.ready || clampU32 (natural p["successThreshold"] 1) ≤ next e.success }
  else
    { checked := instant
      success := 0
      failure := next e.failure
      ready := e.ready && !(clampU32 (natural p["failureThreshold"] 3) ≤ next e.failure : Bool) }

/-- What is remembered of a check that is not a period old. -/
def remembered (id : String) (p : Json) : Act (Option Entry) :=
  .reading (.probe id) fun m => .ok ((m.probes id).filter fun e =>
    m.instant - e.checked < max 1 (natural p["periodSeconds"] 10) * 1000000000)

def checkNow (id : String) (p : Json) : Act Bool := do
  -- the check of its own fails when it does not end in time
  let passed ← Program.reading (.probe id) fun m => .ok (m.passes id)
  let entry ← Program.reading (.probe id) fun m =>
    .ok (((m.probes id).getD ⟨m.instant, 0, 0, false⟩).after p m.instant passed)
  let _ ← rpc (.record id entry)
  return entry.ready

def ready (id : String) (ctr : Json) (started : ℤ) : Act Bool := do
  if ctr["readinessProbe"] = .null then return true
  let clock ← now
  if (clock - started).tdiv 1000000000 < natural ctr["readinessProbe"]["initialDelaySeconds"] 0 then
    return false
  match ← remembered id ctr["readinessProbe"] with
  | some e => return e.ready
  | none => checkNow id ctr["readinessProbe"]

/-! ## One container -/

/-- The containers of one name, the latest first. -/
def matching (node uid name : String) (all : List Container) : List Container :=
  sortBy (fun x => -(attemptOf x : ℤ)) (all.filter fun x =>
    owned x.labels node && x.labels.lookup UID = some uid && x.metadata.any fun a => a.name = name)

def stopCurrent (current : Option Container) (p : Json) : Act Unit :=
  match current with
  | some x => stop x.id p
  | none => pure ()

/-- A container of the next attempt takes the place of the current one. -/
def replace (p ctr : Json) (sandboxId : String) (config : ContainerConfig) (attempt : ℕ)
    (current : Option Container) : Act (Option Container) := do
  let envs ← look .environment fun m => .ok (m.env p ctr)
  pull ctr
  stopCurrent current p
  let reply ← rpc (.createContainer sandboxId { config with
    metadata := ⟨config.metadata.name, attempt⟩
    logPath := config.metadata.name ++ "-" ++ toString attempt ++ ".log"
    command := config.command.map fun s => expand s envs
    args := config.args.map fun s => expand s envs
    envs })
  let _ ← rpc (.startContainer reply.id)
  containerStatus reply.id

def statusOf : Option Container → Act (Option Container)
  | some x => containerStatus x.id
  | none => pure none

/-- Whether the container is what the Pod asks for. -/
def sameHash (config : ContainerConfig) (x : Option Container) : Bool :=
  x.any fun x => x.labels.lookup HASH = config.labels.lookup HASH

/-- Whether another container is started now. -/
def due (p : Json) (same : Bool) (clock : ℤ) (current : Option Container) : Bool :=
  shouldRestart current same (policyOf p) &&
    current.all fun x => x.state ≠ .exited || !same || retryDue clock x

def nextAttempt (p : Json) (name : String) (current : Option Container) : ℕ :=
  (current.bind Container.metadata).elim (oldRestart p name) fun a => next a.attempt

/-- A container that was made and not started is started now. -/
def resume (same : Bool) (current : Option Container) : Act (Option Container) :=
  match current.filter fun x => same && x.state = .created with
  | some x => do
    let _ ← rpc (.startContainer x.id)
    containerStatus x.id
  | none => return current

/-- The container that is there when the round is over. -/
def settle (p ctr : Json) (sandboxId : String) (config : ContainerConfig)
    (latest : Option Container) : Act (Option Container) := do
  let current ← statusOf latest
  let clock ← now
  if due p (sameHash config latest) clock current then
    replace p ctr sandboxId config (nextAttempt p config.metadata.name current) current
  else resume (sameHash config latest) current

structure Tally where
  statuses : List Json
  allReady : Bool
  anyRunning : Bool
  allTerminated : Bool
  allSuccess : Bool

def stateOf (x : Container) : Json :=
  if x.state = .running then
    Json.ofPairs [("running", Json.ofPairs [("startedAt", .string (agent.stamp x.startedAt))])]
  else if x.state = .exited then
    Json.ofPairs [("terminated", Json.ofPairs [("exitCode", .number (.int x.exitCode)),
      ("reason", .string (if x.exitCode = 0 then "Completed" else "Error")),
      ("startedAt", .string (agent.stamp x.startedAt)),
      ("finishedAt", .string (agent.stamp x.finishedAt)),
      ("containerID", .string ("containerd://" ++ x.id))])]
  else Json.ofPairs [("waiting", Json.ofPairs [("reason", .string "ContainerCreating")])]

def Tally.add (tally : Tally) (p ctr : Json) (name : String) (x : Container) (ready : Bool) :
    Tally :=
  let running := decide (x.state = .running)
  let terminated := decide (x.state = .exited)
  { statuses := tally.statuses ++ [Json.ofPairs [("name", .string name), ("image", ctr["image"]),
      ("imageID", .string x.imageRef), ("containerID", .string ("containerd://" ++ x.id)),
      ("ready", .bool ready), ("started", .bool running),
      ("restartCount", number ((x.metadata.map Metadata.attempt).getD (oldRestart p name))),
      ("state", stateOf agent x)]]
    allReady := tally.allReady && ready
    anyRunning := tally.anyRunning || running
    allTerminated := tally.allTerminated && terminated
    allSuccess := tally.allSuccess && (terminated && x.exitCode = 0) }

/-- The others are reclaimed, and only after a replacement is observed. -/
def reclaim (p : Json) (found : List Container) (id : String) : Act Unit :=
  found.foldlM (fun _ old => do
    if old.id ≠ id then
      stop old.id p
      let _ ← rpc (.removeContainer old.id)) ()

def readyNow (ctr : Json) (x : Container) : Act Bool :=
  if x.state = .running then ready x.id ctr x.startedAt else pure false

def syncContainer (p : Json) (uid sandboxId : String) (all : List Container) (tally : Tally)
    (e : Json × ContainerConfig) : Act Tally := do
  let name ← liftM (checked (text e.1 "name"))
  let found := matching agent.name uid name all
  match ← settle p e.1 sandboxId e.2 found.head? with
  | none => .fail (invalid "runtime omitted container status")
  | some x =>
    reclaim p found x.id
    let ready ← readyNow e.1 x
    return tally.add agent p e.1 name x ready

/-! ## One Pod -/

def newestFirst (sandboxes : List Sandbox) : List Sandbox :=
  sortBy (fun s => -s.createdAt) sandboxes

/-- The sandbox that stays. -/
def existing (sandboxes : List Sandbox) : Option String :=
  ((newestFirst sandboxes).find? fun s => s.ready).map Sandbox.id

def sandboxAttempt (sandboxes : List Sandbox) : ℕ :=
  ((sandboxes.filterMap Sandbox.attempt).max?).elim 0 next

def conditions (p : Json) (now : String) (ready initialized : Bool) : Json :=
  .array ([("PodScheduled", true), ("Initialized", initialized), ("ContainersReady", ready),
    ("Ready", ready)].map fun e =>
      let value := Json.string (if e.2 then "True" else "False")
      let old := (p["status"]["conditions"].items.find? fun d =>
        d["type"] = .string e.1 ∧ d["status"] = value).bind fun d =>
          d["lastTransitionTime"].asString
      Json.ofPairs [("type", .string e.1), ("status", value),
        ("lastTransitionTime", .string (old.getD now)),
        ("reason", .string (if e.2 then "KubeletObservedReady" else "ContainersNotReady"))])

def phaseOf (policy : String) (t : Tally) : String :=
  if t.allTerminated ∧ policy ≠ "Always" ∧ (policy = "Never" ∨ t.allSuccess) then
    if t.allSuccess then "Succeeded" else "Failed"
  else if t.anyRunning ∨ t.allTerminated then "Running"
  else "Pending"

/-- The sandbox of the Pod; every other one of it is removed. -/
def place (config : SandboxConfig) (sandboxes : List Sandbox) : Act String := do
  (newestFirst sandboxes).foldlM (fun _ s => do
    if some s.id ≠ existing sandboxes then remove agent s) ()
  match existing sandboxes with
  | some id => return id
  | none => return (← rpc (.runSandbox config)).id

/-- The containers of a Pod, each with its configuration. -/
def configs (p : Json) (uid : String) : Except Failure (List (Json × ContainerConfig)) :=
  p["spec"]["containers"].items.mapM fun ctr => do
    return (ctr, ← checked (configOf agent p uid (push agent.root uid) ctr))

def sandboxConfig (p dns : Json) (uid name ns : String) (sandboxes : List Sandbox) :
    SandboxConfig where
  name := name
  ns := ns
  uid := uid
  dns := dns
  attempt := sandboxAttempt sandboxes
  hostname := p["spec"]["hostname"].asString.getD name
  logDirectory := push (push agent.root uid) "logs"
  labels := labels agent.name uid

/-- The containers that the runtime lists for a Pod in its sandbox. -/
def inPod (m : Machine) (node uid sandboxId : String) : List Container :=
  (inSandbox m sandboxId).filter fun x =>
    x.labels.lookup NODE = some node && x.labels.lookup UID = some uid

def ipOf (sandboxId : String) : Act String :=
  look (.sandbox sandboxId) fun m =>
    match m.sandboxes.find? fun s => s.id = sandboxId with
    | some s => .ok s.ip
    | none => .error .io

def statusFrom (p : Json) (tally : Tally) (ip : String) (start clock : ℤ) : Json :=
  Json.ofPairs ([("phase", .string (phaseOf (policyOf p) tally)),
    ("hostIP", .string agent.ip), ("containerStatuses", .array tally.statuses),
    ("startTime", .string (p["status"]["startTime"].asString.getD (agent.stamp start))),
    ("conditions", conditions p (agent.stamp clock) tally.allReady true)] ++
    if ip = "" then [] else [("podIP", .string ip),
      ("podIPs", .array [Json.ofPairs [("ip", .string ip)]])])

def sync (p : Json) (sandboxes : List Sandbox) : Act Json := do
  liftM (validate p agent.name)
  let dns ← liftM (checked (agent.dns p))
  let uid ← liftM (checked (text p["metadata"] "uid"))
  let name ← liftM (checked (text p["metadata"] "name"))
  let ns ← liftM (checked (text p["metadata"] "namespace"))
  let _ ← rpc (.prepare uid)
  let prepared ← liftM (configs agent p uid)
  let sandboxId ← place agent (sandboxConfig agent p dns uid name ns sandboxes) sandboxes
  let ip ← ipOf sandboxId
  let all ← look (.containers sandboxId) fun m => .ok (inPod m agent.name uid sandboxId)
  let tally ← prepared.foldlM (syncContainer agent p uid sandboxId all) ⟨[], true, false, true, true⟩
  let start ← now
  let clock ← now
  return statusFrom agent p tally ip start clock

/-! ## All of them -/

def publish (p status : Json) : Act Unit := do
  if p["status"] = status then return
  let ns ← liftM (checked (text p["metadata"] "namespace"))
  let name ← liftM (checked (text p["metadata"] "name"))
  let body := Json.object (FirstMatch.insertKey "status" status (p.asObject.getD []))
  let reply ← rpc (.publish ns name body)
  if reply.code ∈ [200, 404, 409] then return else .fail (.status reply.code)

/-- The status of a Pod that could not be brought to what it asks for. -/
def troubled (p : Json) (now : String) : Json :=
  let status := if p["status"].isObject then p["status"] else Json.ofPairs []
  Json.ofPairs (status.asObject.getD [] ++
    (if status["phase"] = .null then [("phase", .string "Pending")] else []) ++
    [("reason", .string "PodSyncError"),
      ("message", .string "Pod configuration or runtime operation failed; retrying"),
      ("conditions", conditions p now false false)])

def observedIds (status : Json) : List String :=
  status["containerStatuses"].items.filterMap fun s =>
    s["containerID"].asString.bind (stripStart "containerd://")

def ownSandboxes (node uid : String) (sandboxes : List Sandbox) : List Sandbox :=
  sandboxes.filter fun s => owned s.labels node && s.labels.lookup UID = some uid

def removeDirectory (uid : String) : Act Unit := do
  if ← look .directories fun m => .ok (decide (uid ∈ m.directories)) then
    let _ ← rpc (.removeDirectory uid)

def sweepPod (sandboxes : List Sandbox) (observed : List String) (p : Json) :
    Act (List String) := do
  let uid ← liftM (checked (text p["metadata"] "uid"))
  let own := ownSandboxes agent.name uid sandboxes
  if p["metadata"]["deletionTimestamp"] ≠ .null then
    own.foldlM (fun _ s => remove agent s) ()
    removeDirectory uid
    return observed
  match ← (sync agent p own).attempt with
  | .ok status =>
    publish p status
    return observed ++ observedIds status
  | .error _ =>
    let clock ← now
    publish p (troubled p (agent.stamp clock))
    return observed

def sweep : Act Unit := do
  let pods ← look .pods fun m => assigned agent m.listing
  let desired := pods.map uidOf
  let sandboxes ← look .sandboxes fun m =>
    .ok (m.sandboxes.filter fun s => s.labels.lookup NODE = some agent.name)
  let observed ← pods.foldlM (sweepPod agent sandboxes) []
  sandboxes.foldlM (fun _ s => do
    if owned s.labels agent.name ∧ (s.labels.lookup UID).getD "" ∉ desired then remove agent s) ()
  let directories ← look .directories fun m => .ok m.directories
  directories.foldlM (fun _ name => do
    demand (Api.safeComponent name) "invalid local Pod directory identity"
    if name ∉ desired then
      let _ ← rpc (.removeDirectory name)) ()
  let _ ← rpc (.retain observed)

end Hedronetes.Kubelet.Runtime
