import Hedronetes.Foundations.Interleaving
import Hedronetes.Server.Commits

/-!
# Handlers on a shared registry

The write pipeline as it runs on one of several servers: each read and each call
of the store happens at its own moment, and other servers may write in between.
Run alone, a handler is the write pipeline.
-/

namespace Hedronetes.Server

open FirstMatch Apply Auth Effects Interleaving
open Storage (StoreKey)

/-- What a handler reads the registry for. -/
inductive Purpose
  | object
  | ns
  | account
  | services
  | volume
  | storageClass
  | roles
  | ledger
  | node
  deriving DecidableEq

/-- The calls of the store that write. -/
inductive Call
  | create (k : StoreKey) (value : Json)
  | update (k : StoreKey) (value : Json) (expected : ℕ)
  | delete (k : StoreKey) (expected : ℕ)
  deriving DecidableEq

abbrev Reply := Except Storage.Error Stored

namespace Call

def key : Call → StoreKey
  | create k _ => k
  | update k _ _ => k
  | delete k _ => k

/-- A compare-and-set at one instant. -/
def perform : Call → Registry → Reply × Registry
  | create k value, reg =>
    match reg.get k with
    | some _ => (.error (.alreadyExists k), reg)
    | none => (.ok ⟨value, reg.revision + 1⟩, reg.put k value)
  | update k value expected, reg =>
    match reg.get k with
    | none => (.error (.notFound k), reg)
    | some current =>
      if current.revision = expected then (.ok ⟨value, reg.revision + 1⟩, reg.put k value)
      else (.error (.conflict expected current.revision), reg)
  | delete k expected, reg =>
    match reg.get k with
    | none => (.error (.notFound k), reg)
    | some current =>
      if current.revision = expected then (.ok current, reg.drop k)
      else (.error (.conflict expected current.revision), reg)

end Call

abbrev Handler := Program Registry Purpose Call Reply Stop

abbrev Observed := Seen Registry Purpose Call

namespace Handler

/-- A call whose errors the request is answered with. -/
def store (c : Call) : Handler Stored :=
  .call c fun
    | .ok stored => .done stored
    | .error e => .fail (storageFailure e)

section

variable (lib : Libraries) (fresh : Fresh)

/-! ## Decode and concurrency -/

def decode (write : Write) (body : Body) : Handler Decoded := do
  let value ←
    if write.verb = "patch" then .reading .object (patched lib write body)
    else .lift (lib.decode body.bytes body.contentType)
  .reading .ns (normalized lib fresh write value)

/-! ## Admit -/

/-- Creates a volume, or keeps the one that is there. -/
def createVolume (name : String) (volume : Json) : Handler Unit := do
  let k ← (Server.key ("/registry/persistentvolumes/" ++ name) : Outcome StoreKey)
  .call (.create k volume) fun
    | .ok _ => .done ()
    | .error (.alreadyExists _) => .done ()
    | .error e => .fail (storageFailure e)

def claimBind (rules : SpecRules) (value : Json) : Handler Json := do
  let ns ← requiredText value["metadata"]["namespace"] "a claim requires a namespace"
  let name ← requiredText value["metadata"]["name"] "a claim requires a name"
  let uid := value["metadata"]["uid"].asString.getD ""
  let requested := value["spec"]["volumeName"].asString.getD ""
  if requested ≠ "" then .reading .volume fun reg => bindNamed reg value ns uid requested
  else
    match ← Program.reading .storageClass fun reg => ownClass reg value with
    | none => return value
    | some storageClass =>
      match value["spec"]["resources"]["requests"]["storage"].asString.bind rules.quantity with
      | none => .fail (invalid "resources.requests.storage must be a resource quantity")
      | some storage =>
        let volume := provisioned fresh value storageClass ns name uid storage
        createVolume ("pvc-" ++ uid) volume
        bound value volume ("pvc-" ++ uid)

def kindStep (write : Write) (value : Json) (old ns : Option Json) : Handler Json :=
  if write.target.subresource.isSome then return value
  else
    match write.target.resource.kind with
    | "Namespace" => do
      admitNamespace value
      return value
    | "Pod" =>
      match ns with
      | some ns => do
        admitPodPolicy lib.rules ns value
        lib.rules.runtime value["spec"]
        return value
      | none => .fail (.panic "namespaced Pod")
    | "Service" => do
      let uid := value["metadata"]["uid"].asString.getD ""
      let spec ← Program.reading .services fun reg =>
        lib.rules.assign reg uid value["spec"] (old.map fun o => o["spec"])
      setAt value ["spec"] spec
    | "PersistentVolumeClaim" =>
      if old.isNone then claimBind fresh lib.rules value else return value
    | _ => return value

def cidrAdmit (reserve : Json → String → String → Outcome (Option Json)) (value : Json)
    (old : Option Json) : Handler Unit := do
  match ← keepsCidr value old with
  | none => return ()
  | some cidr =>
    let k ← Server.key ledgerKey
    let saved ← Program.reading .ledger fun reg =>
      match reg.get k with
      | some saved => .ok saved
      | none => .error (failure 500 "InternalError" "node CIDR ledger is missing")
    match ← reserve saved.value (value["metadata"]["name"].asString.getD "") cidr with
    | none => return ()
    | some ledger =>
      let _ ← store (.update k ledger saved.revision)
      return ()

def cidrStep (write : Write) (k : StoreKey) (value : Json) (old : Option Json) :
    Handler Unit :=
  if write.target.resource.kind = "Node" then
    match lib.reserve with
    | none => return ()
    | some reserve => do
      -- do not reserve a range for a duplicate create that will fail
      Program.reading .object fun reg =>
        if old.isNone ∧ (reg.get k).isSome then
          .error (failure 409 "AlreadyExists" "Node already exists")
        else .ok ()
      cidrAdmit reserve value old
  else return ()

def admitWrite (write : Write) (k : StoreKey) (value : Json) (old ns : Option Json) :
    Handler Json := do
  let value ← Program.reading .account (serviceAccountStep fresh write value)
  let value ← kindStep lib fresh write value old ns
  Program.reading .roles fun reg =>
    escalation lib reg write.user write.target write.verb value
  nodesAdmit write.user write.target write.verb value old
  checkSize lib value
  cidrStep lib write k value old
  return value

/-! ## Persist -/

def persist (write : Write) (k : StoreKey) (value : Json) (expected : Option ℕ) :
    Handler Response :=
  match expected with
  | some rv => do
    let result ← store (.update k value rv)
    if write.target.resource.kind = "Namespace" then
      let current ← Server.object result
      if deletionRequested current ∧ !finalizersPending current then
        let _ ← store (.delete k result.revision)
        return .success 200
      else return .object 200 (← Server.object result)
    else return .object 200 (← Server.object result)
  | none => do
    let result ← store (.create k value)
    return .object 201 (← Server.object result)

/-- Admission and commit of an object over what its handler found stored. -/
def finish (write : Write) (k : StoreKey) (value : Json) (old : Option (ℕ × Json))
    (ns : Option Json) : Handler Response := do
  let value ← admitWrite lib fresh write k value (old.map Prod.snd) ns
  persist write k value (old.map Prod.fst)

/-! ## The other writes -/

def applyWrite (write : Write) (body : Body) (options : Options) : Handler Response :=
  if write.target.subresource.isSome then
    .fail (bad "server-side apply writes the whole object, not a subresource")
  else do
    let value ← lib.decode body.bytes "application/json"
    let decoded ← Program.reading .ns (normalized lib fresh write value)
    let old ← Program.reading .object (storedAt decoded.key)
    let value ← applied lib fresh decoded.value (old.map Prod.snd) options
    let value ← prepareWrite lib write value (old.map Prod.snd)
    finish lib fresh write decoded.key value old decoded.ns

def deleteNamespace (k : StoreKey) (current : Stored) (obj : Json) : Handler Response :=
  if obj["metadata"]["name"].asString.getD "" ∈ protectedNamespaces then
    .fail (forbidden "this namespace cannot be deleted")
  else if deletionRequested obj ∧ !finalizersPending obj then do
    let _ ← store (.delete k current.revision)
    return .success 200
  else if deletionRequested obj then return .object 200 obj
  else do
    let obj ← setAt obj ["metadata", "deletionTimestamp"] (.string fresh.now)
    let obj ← setAt obj ["status", "phase"] (.string "Terminating")
    let obj ← setAt obj ["metadata", "finalizers"]
      (.array ((deletionFinalizers obj).map Json.string))
    let result ← store (.update k obj current.revision)
    return .object 200 (← Server.object result)

def deleteWrite (write : Write) (options : Json) : Handler Response := do
  let k ← named write.target
  let current ← Program.reading .object (fetch k "object not found")
  let obj ← Server.object current
  nodesAdmit write.user write.target write.verb obj (some obj)
  if ["uid", "resourceVersion"].any fun field =>
      options["preconditions"][field].asString.any
        (· ≠ obj["metadata"][field].asString.getD "") then
    .fail (failure 409 "Conflict" "delete precondition failed")
  else if obj["metadata"]["finalizers"].items ≠ [] then
    .fail (failure 409 "Conflict" "object has pending finalizers")
  else if write.target.resource.kind = "Namespace" then deleteNamespace fresh k current obj
  else if options["propagationPolicy"].asString.any (· ≠ "Background") ∨
      options["orphanDependents"] = .bool true then
    .fail (invalid ("only background deletion is implemented; foreground and orphan " ++
      "propagation are unsupported"))
  else
    let _ ← store (.delete k current.revision)
    return .success 200

def bind (target : Target) (value : Json) : Handler Response := do
  bindingMatches lib target value
  let node ← bindingNode value
  let nodeKey ← Server.key ("/registry/nodes/" ++ node)
  let _ ← Program.reading .node (fetch nodeKey "binding target node not found")
  let k ← named target
  let stored ← Program.reading .object (fetch k "Pod not found")
  let pod ← Server.object stored
  if pod["spec"]["nodeName"].hasText ∨ pod["metadata"]["deletionTimestamp"] ≠ .null then
    .fail (failure 409 "Conflict" "Pod is already bound or terminating")
  else if value["metadata"]["uid"].asString.any (fun uid => pod["metadata"]["uid"] ≠ .string uid) ∨
      value["metadata"]["resourceVersion"].asString.any (· ≠ toString stored.revision) then
    .fail (failure 409 "Conflict" "binding precondition failed")
  else
    let pod ← setAt pod ["spec", "nodeName"] (.string node)
    let generation := pod["metadata"]["generation"].asInt.getD 1
    if generation + 1 < 2 ^ 63 then
      let pod ← setAt pod ["metadata", "generation"] (.number (.int (generation + 1)))
      let _ ← store (.update k pod stored.revision)
      return .success 201
    else .fail (invalid "generation overflow")

def execute (write : Write) (query : Query) (body : Body) : Handler Response :=
  if (query.get "dryRun").isSome then .fail (bad "dryRun is not yet implemented")
  else if write.target.subresource = some "binding" then
    if write.user.nodeName.isSome then .fail (forbidden "nodes may not bind Pods")
    else do bind lib write.target (← lib.decode body.bytes body.contentType)
  else if write.verb = "delete" then do
    deleteWrite fresh write (← lib.decode body.bytes body.contentType)
  else do
    match ← applyOptions body.contentType query with
    | some options => applyWrite lib fresh write body options
    | none =>
      let decoded ← decode lib fresh write body
      let (value, old) ← Program.reading .object
        (concurrency fresh write decoded.key decoded.value)
      let value ← prepareWrite lib write value (old.map Prod.snd)
      finish lib fresh write decoded.key value old decoded.ns

end

/-! ## A handler alone -/

section

variable (lib : Libraries) (fresh : Fresh)

theorem run_lift {α : Type} (x : Outcome α) :
    (liftM x : Handler α).run Call.perform = liftM x := by
  cases x <;> rfl

theorem run_reading {α : Type} (what : Purpose) (f : Registry → Outcome α) :
    (Program.reading what f : Handler α).run Call.perform = Server.reading f := by
  funext reg
  change (Program.lift (f reg)).run Call.perform reg = _
  unfold Server.reading
  cases f reg <;> rfl

theorem run_create (k : StoreKey) (value : Json) :
    (store (.create k value)).run Call.perform = Server.create k value := by
  funext reg
  simp only [store, Program.run, Call.perform, Server.create]
  cases reg.get k <;> rfl

theorem run_update (k : StoreKey) (value : Json) (expected : ℕ) :
    (store (.update k value expected)).run Call.perform = Server.update k value expected := by
  funext reg
  simp only [store, Program.run, Call.perform, Server.update]
  cases reg.get k with
  | none => rfl
  | some current =>
    dsimp only
    split_ifs <;> rfl

theorem run_delete {α : Type} (k : StoreKey) (expected : ℕ) (next : Handler α) :
    (store (.delete k expected) >>= fun _ => next).run Call.perform =
      Server.delete k expected >>= fun _ => next.run Call.perform := by
  rw [Program.run_bind]
  funext reg
  change (EStateM.bind _ _) reg = (EStateM.bind _ _) reg
  unfold EStateM.bind
  simp only [store, Program.run, Call.perform, Server.delete]
  cases reg.get k with
  | none => rfl
  | some current =>
    dsimp only
    split_ifs <;> rfl

theorem run_createVolume (name : String) (volume : Json) :
    (createVolume name volume).run Call.perform = Server.createVolume name volume := by
  funext reg
  unfold createVolume Server.createVolume
  cases Server.key ("/registry/persistentvolumes/" ++ name) with
  | error e => rfl
  | ok k =>
    change Program.run Call.perform (.call _ _) reg = _
    simp only [Program.run, Call.perform]
    cases reg.get k <;> rfl

theorem run_claimBind (rules : SpecRules) (value : Json) :
    (claimBind fresh rules value).run Call.perform = Server.claimBind rules fresh value := by
  unfold claimBind Server.claimBind
  simp only [Program.run_bind, run_lift]
  congr 1
  funext ns
  congr 1
  funext name
  split_ifs
  · exact run_reading _ _
  · rw [Program.run_bind, run_reading]
    congr 1
    funext found
    cases found with
    | none => rfl
    | some storageClass =>
      dsimp only
      cases value["spec"]["resources"]["requests"]["storage"].asString.bind rules.quantity with
      | none => rfl
      | some storage => simp only [Program.run_bind, run_createVolume, run_lift]

theorem run_kindStep (write : Write) (value : Json) (old ns : Option Json) :
    (kindStep lib fresh write value old ns).run Call.perform =
      Server.kindStep lib fresh write value old ns := by
  unfold kindStep Server.kindStep
  by_cases hsub : write.target.subresource.isSome
  · rw [if_pos hsub, if_pos hsub]
    rfl
  rw [if_neg hsub, if_neg hsub]
  generalize write.target.resource.kind = kind
  split
  · simp only [Program.run_bind, run_lift, Program.run_pure]
  · cases ns with
    | none => rfl
    | some ns => simp only [Program.run_bind, run_lift, Program.run_pure]
  · simp only [Program.run_bind, run_reading, run_lift]
  · cases old with
    | none => exact run_claimBind fresh lib.rules value
    | some old => rfl
  · first | rfl | (split <;> first | contradiction | rfl)

theorem run_cidrAdmit (reserve : Json → String → String → Outcome (Option Json)) (value : Json)
    (old : Option Json) :
    (cidrAdmit reserve value old).run Call.perform = Server.cidrAdmit reserve value old := by
  unfold cidrAdmit Server.cidrAdmit
  rw [Program.run_bind, run_lift]
  congr 1
  funext cidr
  cases cidr with
  | none => rfl
  | some cidr =>
    simp only [Program.run_bind, run_lift, run_reading]
    congr 1
    funext k
    congr 1
    funext saved
    congr 1
    funext ledger
    cases ledger with
    | none => rfl
    | some ledger => simp only [Program.run_bind, run_update, Program.run_pure]

theorem run_cidrStep (write : Write) (k : StoreKey) (value : Json) (old : Option Json) :
    (cidrStep lib write k value old).run Call.perform = Server.cidrStep lib write k value old := by
  unfold cidrStep Server.cidrStep
  split_ifs
  · cases lib.reserve with
    | none => rfl
    | some reserve =>
      simp only [Program.run_bind, run_reading, run_cidrAdmit]
      funext reg
      change (EStateM.bind _ _) reg = (EStateM.bind _ _) reg
      unfold EStateM.bind
      by_cases hduplicate : old.isNone ∧ (reg.get k).isSome
      · simp only [Server.reading, if_pos hduplicate]
        change _ = (if old.isNone ∧ (reg.get k).isSome then _ else _ : Action Unit) reg
        rw [if_pos hduplicate]
        rfl
      · simp only [Server.reading, if_neg hduplicate]
        change _ = (if old.isNone ∧ (reg.get k).isSome then _ else _ : Action Unit) reg
        rw [if_neg hduplicate]
  · rfl

theorem run_admitWrite (write : Write) (k : StoreKey) (value : Json) (old ns : Option Json) :
    (admitWrite lib fresh write k value old ns).run Call.perform =
      Server.admitWrite lib fresh write k value old ns := by
  simp only [admitWrite, Server.admitWrite, Program.run_bind, run_reading, run_kindStep, run_lift,
    run_cidrStep, Program.run_pure]

theorem run_persist (write : Write) (k : StoreKey) (value : Json) (expected : Option ℕ) :
    (persist write k value expected).run Call.perform =
      Server.persist write k value expected := by
  unfold persist Server.persist
  cases expected with
  | none => simp only [Program.run_bind, run_create, run_lift, Program.run_pure]
  | some rv =>
    rw [Program.run_bind, run_update]
    congr 1
    funext result
    split_ifs
    · rw [Program.run_bind, run_lift]
      congr 1
      funext current
      split_ifs
      · exact run_delete _ _ _
      · simp only [Program.run_bind, run_lift, Program.run_pure]
    · simp only [Program.run_bind, run_lift, Program.run_pure]

theorem run_finish (write : Write) (p : Proposal) :
    (finish lib fresh write p.key p.value p.old p.ns).run Call.perform =
      commit lib fresh write p := by
  simp only [finish, commit, Program.run_bind, run_admitWrite, run_persist]

theorem run_deleteNamespace (k : StoreKey) (current : Stored) (obj : Json) :
    (deleteNamespace fresh k current obj).run Call.perform =
      Server.deleteNamespace fresh k current obj := by
  unfold deleteNamespace Server.deleteNamespace
  split_ifs
  · rfl
  · exact run_delete _ _ _
  · rfl
  · simp only [Program.run_bind, run_lift, run_update, Program.run_pure]

theorem run_deleteWrite (write : Write) (options : Json) :
    (deleteWrite fresh write options).run Call.perform =
      Server.deleteWrite fresh write options := by
  unfold deleteWrite Server.deleteWrite
  simp only [Program.run_bind, run_lift, run_reading]
  congr 1
  funext k
  congr 1
  funext current
  congr 1
  funext obj
  congr 1
  funext _
  split_ifs
  · rfl
  · rfl
  · exact run_deleteNamespace fresh k current obj
  · rfl
  · exact run_delete _ _ _

theorem run_bind (target : Target) (value : Json) :
    (bind lib target value).run Call.perform = Server.bind lib target value := by
  unfold bind Server.bind
  simp only [Program.run_bind, run_lift, run_reading]
  iterate 7
    congr 1
    funext _
  split_ifs
  · rfl
  · rfl
  · rw [Program.run_bind, run_lift]
    congr 1
    funext pod
    split_ifs
    · simp only [Program.run_bind, run_lift, run_update, Program.run_pure]
    · rfl

theorem run_decode (write : Write) (body : Body) :
    (decode lib fresh write body).run Call.perform =
      Server.reading (Server.decode lib fresh write body) := by
  funext reg
  unfold decode Server.decode
  by_cases hpatch : write.verb = "patch"
  · simp only [if_pos hpatch, Program.run_bind, run_reading]
    change (EStateM.bind _ _) reg = _
    unfold EStateM.bind
    simp only [Server.reading]
    cases patched lib write body reg with
    | error e => rfl
    | ok value => rfl
  · simp only [if_neg hpatch]
    rw [Program.run_bind]
    change (EStateM.bind _ _) reg = _
    unfold EStateM.bind
    simp only [Server.reading]
    cases lib.decode body.bytes body.contentType with
    | error e => rfl
    | ok value =>
      change (Program.reading _ _ : Handler Decoded).run Call.perform reg = _
      rw [run_reading]
      rfl

theorem run_applyWrite (write : Write) (body : Body) (options : Options) :
    (applyWrite lib fresh write body options).run Call.perform =
      Server.applyWrite lib fresh write body options := by
  unfold applyWrite Server.applyWrite
  by_cases hsub : write.target.subresource.isSome
  · rw [if_pos hsub, if_pos hsub]
    rfl
  rw [if_neg hsub, if_neg hsub]
  simp only [Program.run_bind, run_lift, run_reading, finish, run_admitWrite, run_persist]
  congr 1
  funext value
  congr 1
  funext decoded reg
  change (EStateM.bind _ _) reg = (EStateM.bind _ _) reg
  unfold EStateM.bind
  have hnow : (MonadState.get : Action Registry) reg = .ok reg reg := rfl
  simp only [Server.reading, storedAt, hnow]
  cases hget : reg.get decoded.key with
  | none => rfl
  | some stored =>
    dsimp only
    cases hobject : object stored with
    | error e => rfl
    | ok current => rfl

/-- A handler that no other interrupts is the write pipeline. -/
theorem run_execute (write : Write) (query : Query) (body : Body) :
    (execute lib fresh write query body).run Call.perform =
      Server.execute lib fresh write query body := by
  unfold execute Server.execute
  split_ifs
  · rfl
  · rfl
  · rw [Program.run_bind, run_lift]
    congr 1
    funext value
    exact run_bind lib write.target value
  · rw [Program.run_bind, run_lift]
    congr 1
    funext value
    exact run_deleteWrite fresh write value
  · rw [Program.run_bind, run_lift]
    congr 1
    funext options
    cases options with
    | some options => exact run_applyWrite lib fresh write body options
    | none =>
      simp only [Program.run_bind, run_decode, run_reading, run_lift, finish, run_admitWrite,
        run_persist]

end

end Handler

end Hedronetes.Server
