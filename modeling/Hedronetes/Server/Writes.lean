import Hedronetes.Server.Access
import Hedronetes.Server.Admission

/-!
# The write pipeline

Decode, concurrency, prepare, admit, persist. Deletes and Pod bindings read their
own options and commit under the same admission lock: a request is one action
from its decoding to its commit.
-/

namespace Hedronetes.Server

open FirstMatch Apply Auth
open Storage (StoreKey)

structure Query where
  params : List (String × String)
  commands : List String
  deriving DecidableEq

def Query.get (query : Query) (name : String) : Option String := query.params.lookup name

structure Body where
  contentType : String
  bytes : Bytes
  deriving DecidableEq

/-- What a request is answered with. -/
inductive Response
  | success (code : ℕ)
  | object (code : ℕ) (value : Json)
  /-- A stream of `read::list` or `read::watch`, still to be served. -/
  | list (target : Target) (grant : Grant)
  | watch (target : Target) (grant : Grant)
  | log (target : Target)
  | exec (target : Target)
  | token (record : Json)
  deriving DecidableEq

structure Write where
  user : User
  target : Target
  verb : String

structure Decoded where
  value : Json
  key : StoreKey
  /-- The enclosing Namespace object of a namespaced write. -/
  ns : Option Json

/-- `content_type.split(';').next().trim()`. -/
def mediaType (contentType : String) : String :=
  let start := contentType.toList.takeWhile (· ≠ ';')
  String.ofList ((start.dropWhile Char.isWhitespace).rdropWhile Char.isWhitespace)

/-- The apply options of a request, or none when it is not an apply. -/
def applyOptions (contentType : String) (query : Query) : Outcome (Option Options) :=
  if mediaType contentType = "application/apply-patch+yaml" then
    .error (failure 415 "UnsupportedMediaType"
      "send application/apply-patch+json: this server decodes JSON apply bodies only")
  else if mediaType contentType ≠ "application/apply-patch+json" then .ok none
  else do
    let manager ←
      match (query.get "fieldManager").filter (· ≠ "") with
      | some manager => pure manager
      | none => throw (bad "server-side apply requires the fieldManager query parameter")
    if 128 < manager.utf8ByteSize ∨ manager.toList.any fun c => c.val < 32 ∨
        (127 ≤ c.val ∧ c.val < 160) then
      throw (bad "invalid fieldManager")
    let force ←
      match query.get "force" with
      | none => pure false
      | some "true" => pure true
      | some "false" => pure false
      | some _ => throw (bad "force must be true or false")
    if (query.get "fieldValidation").any fun v => v ∉ ["Ignore", "Warn", "Strict"] then
      throw (bad "fieldValidation must be Ignore, Warn or Strict")
    return some ⟨manager, force⟩

section

variable (lib : Libraries) (fresh : Fresh)

/-! ## Decode -/

/-- A created object may leave its name to the server. -/
def generateName (verb : String) (value : Json) : Outcome Json :=
  if verb = "create" ∧ !value["metadata"]["name"].hasText then
    match value["metadata"]["generateName"].asString with
    | some start => setAt value ["metadata", "name"] (.string (start ++ fresh.suffix))
    | none => .ok value
  else .ok value

/-- The namespace of the endpoint, in the object and as it is stored. -/
def inNamespace (reg : Registry) (write : Write) (value : Json) :
    Outcome (Json × Option Json) :=
  match write.target.ns with
  | some ns =>
    if value["metadata"]["namespace"].hasText ∧
        value["metadata"]["namespace"] ≠ .string ns then
      .error (bad "metadata.namespace mismatch")
    else do
      let value ← setAt value ["metadata", "namespace"] (.string ns)
      let k ← key ("/registry/namespaces/" ++ ns)
      let current ← object (← fetch k "namespace not found" reg)
      lifecycle current (write.verb = "create")
      return (value, some current)
  | none =>
    if value["metadata"]["namespace"].hasText then
      .error (bad "cluster-scoped resource cannot set namespace")
    else do
      let value ← removeAt value "metadata" "namespace"
      return (value, none)

/-- `value` is a complete object for the endpoint, never a patch over one. -/
def normalized (write : Write) (value : Json) (reg : Registry) : Outcome Decoded := do
  let target := write.target
  if value["apiVersion"] ≠ .string target.resource.apiVersion ∨
      value["kind"] ≠ .string target.resource.kind then
    throw (bad "apiVersion/kind does not match the endpoint")
  let value ← lib.normalize target.resource value
  let value ← generateName fresh write.verb value
  let name ←
    match value["metadata"]["name"].asString with
    | some name => pure name
    | none => throw (bad "metadata.name is required")
  if !target.resource.validName name ∨ target.name.any (· ≠ name) then
    throw (bad "invalid or mismatched metadata.name")
  let (value, ns) ← inNamespace reg write value
  let k ← key (target.pathPrefix ++ name)
  return ⟨value, k, ns⟩

/-- A patch applies to the stored object. The result must keep metadata and may only name
the revision it was computed against. -/
def patched (write : Write) (body : Body) (reg : Registry) : Outcome Json := do
  let current ← fetch (← named write.target) "object not found" reg
  let revision := toString current.revision
  let patched ← lib.patch write.target.resource (← object current) body.bytes body.contentType
  if !patched.isObject ∨ !patched["metadata"].isObject then
    throw (invalid "patch must preserve object metadata")
  let version := patched["metadata"]["resourceVersion"]
  if version ≠ .null ∧ version.asString.isNone then
    throw (invalid "resourceVersion must be a string")
  if version.asString.any (· ≠ revision) then
    throw (failure 409 "Conflict" "patch resourceVersion precondition failed")
  setAt patched ["metadata", "resourceVersion"] (.string revision)

def decode (write : Write) (body : Body) (reg : Registry) : Outcome Decoded := do
  let value ←
    if write.verb = "patch" then patched lib write body reg
    else lib.decode body.bytes body.contentType
  normalized lib fresh write value reg

/-! ## Concurrency -/

/-- A created object gets its identity from the server. -/
def identify (value : Json) : Outcome Json := do
  let value ← setAt value ["metadata", "uid"] (.string fresh.uid)
  setAt value ["metadata", "creationTimestamp"] (.string fresh.now)

/-- `parse::<u64>`. -/
def parseU64 (s : String) : Option ℕ :=
  let digits := (stripStart "+" s).getD s
  if digits ≠ "" ∧ digits.toList.all Char.isDigit then
    let n := digits.toList.foldl (fun n c => 10 * n + (c.toNat - '0'.toNat)) 0
    if n < 2 ^ 64 then some n else none
  else none

/-- The revision an update is checked against. -/
def expectedRevision (kind : String) (value : Json) (old : Stored) : Outcome ℕ :=
  match value["metadata"]["resourceVersion"].asString.filter (· ≠ "") with
  | some s =>
    match parseU64 s with
    | none => .error (bad "invalid resourceVersion")
    | some rv =>
      if old.revision ≠ rv then
        .error (failure 409 "Conflict" "resourceVersion precondition failed")
      else .ok rv
  | none =>
    -- only what Helm itself stores may skip the precondition
    if (kind = "ConfigMap" ∨ kind = "Secret") ∧ helmOwned value kind then .ok old.revision
    else .error (bad "update requires metadata.resourceVersion")

/-- Update and patch name the revision they observed; create refuses one. -/
def concurrency (write : Write) (k : StoreKey) (value : Json) (reg : Registry) :
    Outcome (Json × Option (ℕ × Json)) := do
  if write.verb ≠ "update" ∧ write.verb ≠ "patch" then
    if value["metadata"]["resourceVersion"].hasText then
      throw (bad "create cannot set resourceVersion")
    else return (← identify fresh value, none)
  else
    let stored ← fetch k "object not found" reg
    let rv ← expectedRevision write.target.resource.kind value stored
    let old ← object stored
    if value["metadata"]["uid"].asString.any fun uid => old["metadata"]["uid"] ≠ .string uid then
      throw (failure 409 "Conflict" "UID is immutable")
    else
      let value ← setAt value ["metadata", "uid"] old["metadata"]["uid"]
      let value ← setAt value ["metadata", "creationTimestamp"]
        old["metadata"]["creationTimestamp"]
      return (value, some (rv, old))

/-! ## Prepare -/

/-- A Secret's plain strings go into its data. -/
def foldStringData (value : Json) : Outcome Json :=
  match value.field "stringData" with
  | none => .ok value
  | some (.object plain) => do
    let value :=
      match value with
      | .object fields => .object (eraseKey "stringData" fields)
      | other => other
    let value ← if value["data"].isObject then pure value
      else setAt value ["data"] (.object [])
    plain.foldlM (fun value (entry : String × Json) =>
      match entry.2.asString with
      | some s => setAt value ["data", entry.1] (.string (lib.base64 s))
      | none => .error (bad "stringData values must be strings")) value
  | some _ => .error (bad "stringData must be a string map")

def prepareWrite (write : Write) (value : Json) (old : Option Json) : Outcome Json := do
  let value ← if write.target.resource.kind = "Secret" then foldStringData lib value
    else pure value
  prepare lib.rules write.target.resource value old write.target.subresource.isSome

/-! ## Admit -/

def serviceAccountStep (write : Write) (value : Json) (reg : Registry) : Outcome Json :=
  if write.target.resource.kind = "Pod" ∧ write.verb = "create" then
    match write.target.ns with
    | some ns => serviceAccountAdmit fresh.accessSuffix ns value reg
    | none => .error (.panic "Pod namespace")
  else .ok value

/-- Namespace and Pod policy, Service addresses and claims. -/
def kindStep (write : Write) (value : Json) (old ns : Option Json) : Action Json :=
  if write.target.subresource.isSome then return value
  else
    match write.target.resource.kind with
    | "Namespace" => do
      admitNamespace value
      return value
    | "Pod" =>
      match ns with
      | some ns => do
        admitPodPolicy lib.rules ns value
        lib.rules.runtime value["spec"]
        return value
      | none => throw (.panic "namespaced Pod")
    | "Service" => do
      let uid := value["metadata"]["uid"].asString.getD ""
      let spec ← reading fun reg =>
        lib.rules.assign reg uid value["spec"] (old.map fun o => o["spec"])
      setAt value ["spec"] spec
    | "PersistentVolumeClaim" =>
      if old.isNone then claimBind lib.rules fresh value else return value
    | _ => return value

def maxObjectBytes : ℕ := 2 * 1024 * 1024

def checkSize (value : Json) : Outcome Unit :=
  if maxObjectBytes < lib.size value then
    .error (failure 413 "RequestEntityTooLarge" "resulting object exceeds 2 MiB")
  else .ok ()

def cidrStep (write : Write) (k : StoreKey) (value : Json) (old : Option Json) : Action Unit := do
  if write.target.resource.kind = "Node" then
    match lib.reserve with
    | none => return ()
    | some reserve =>
      -- do not reserve a range for a duplicate create that will fail
      if old.isNone ∧ ((← get).get k).isSome then
        throw (failure 409 "AlreadyExists" "Node already exists")
      else cidrAdmit reserve value old
  else return ()

/-- Admission after the strategy. -/
def admitWrite (write : Write) (k : StoreKey) (value : Json) (old ns : Option Json) :
    Action Json := do
  let value ← reading (serviceAccountStep fresh write value)
  let value ← kindStep lib fresh write value old ns
  reading fun reg => escalation lib reg write.user write.target write.verb value
  nodesAdmit write.user write.target write.verb value old
  checkSize lib value
  cidrStep lib write k value old
  return value

/-! ## Persist -/

def deletionRequested (obj : Json) : Bool := obj["metadata"]["deletionTimestamp"].hasText

def finalizersPending (obj : Json) : Bool :=
  obj["metadata"]["finalizers"].items.any Json.hasText

/-- Compare-and-set commit. A Namespace whose last finalizer just cleared is removed in the
same request. -/
def persist (write : Write) (k : StoreKey) (value : Json) (expected : Option ℕ) :
    Action Response :=
  match expected with
  | some rv => do
    let result ← update k value rv
    if write.target.resource.kind = "Namespace" then
      let current ← object result
      if deletionRequested current ∧ !finalizersPending current then
        delete k result.revision
        return .success 200
    return .object 200 (← object result)
  | none => do
    let result ← create k value
    return .object 201 (← object result)

/-! ## The other writes -/

/-- What a first apply starts from, and what it gets as its identity. -/
def applied (value : Json) (old : Option Json) (options : Options) :
    Outcome Json :=
  match old with
  | some current => serverSide lib.text fresh.now current value options
  | none => do
    let created ← serverSide lib.text fresh.now
      (.object [("apiVersion", value["apiVersion"]), ("kind", value["kind"]),
        ("metadata", .object [])]) value options
    identify fresh created

/-- Merge the applied object into what is stored, or into nothing, then run the ordinary
strategy, admission and commit. -/
def applyWrite (write : Write) (body : Body) (options : Options) : Action Response := do
  if write.target.subresource.isSome then
    throw (bad "server-side apply writes the whole object, not a subresource")
  let value ← lib.decode body.bytes "application/json"
  let decoded ← reading (normalized lib fresh write value)
  let stored := (← get).get decoded.key
  let old ← match stored with
    | some stored => some <$> (object stored : Outcome Json)
    | none => pure none
  let value ← applied lib fresh decoded.value old options
  let value ← prepareWrite lib write value old
  let value ← admitWrite lib fresh write decoded.key value old decoded.ns
  persist write decoded.key value (stored.map Stored.revision)

def protectedNamespaces : List String :=
  ["default", "kube-system", "kube-public", "kube-node-lease"]

/-- The finalizers of a Namespace whose deletion begins. -/
def deletionFinalizers (obj : Json) : List String :=
  let finalizers := obj["metadata"]["finalizers"].items.filterMap fun v =>
    v.asString.filter (· ≠ "")
  if "kubernetes" ∈ finalizers then finalizers else finalizers ++ ["kubernetes"]

/-- Mark Terminating with the `kubernetes` finalizer, then remove once the namespace
controller clears it. -/
def deleteNamespace (k : StoreKey) (current : Stored) (obj : Json) : Action Response := do
  if obj["metadata"]["name"].asString.getD "" ∈ protectedNamespaces then
    throw (forbidden "this namespace cannot be deleted")
  else if deletionRequested obj ∧ !finalizersPending obj then
    delete k current.revision
    return .success 200
  else if deletionRequested obj then return .object 200 obj
  else
    let obj ← setAt obj ["metadata", "deletionTimestamp"] (.string fresh.now)
    let obj ← setAt obj ["status", "phase"] (.string "Terminating")
    let obj ← setAt obj ["metadata", "finalizers"]
      (.array ((deletionFinalizers obj).map Json.string))
    let result ← update k obj current.revision
    return .object 200 (← object result)

def deleteWrite (write : Write) (options : Json) : Action Response := do
  let k ← named write.target
  let current ← reading (fetch k "object not found")
  let obj ← object current
  nodesAdmit write.user write.target write.verb obj (some obj)
  if ["uid", "resourceVersion"].any fun field =>
      options["preconditions"][field].asString.any
        (· ≠ obj["metadata"][field].asString.getD "") then
    throw (failure 409 "Conflict" "delete precondition failed")
  else if obj["metadata"]["finalizers"].items ≠ [] then
    throw (failure 409 "Conflict" "object has pending finalizers")
  else if write.target.resource.kind = "Namespace" then deleteNamespace fresh k current obj
  else if options["propagationPolicy"].asString.any (· ≠ "Background") ∨
      options["orphanDependents"] = .bool true then
    throw (invalid ("only background deletion is implemented; foreground and orphan " ++
      "propagation are unsupported"))
  else
    delete k current.revision
    return .success 200

/-- What a binding says about the Pod it binds. -/
def bindingMatches (target : Target) (value : Json) : Outcome Unit :=
  if value["kind"] ≠ .string "Binding" ∨ value["apiVersion"] ≠ .string "v1" then
    .error (bad "binding requires v1 Binding")
  else if !lib.accepts "bindings" value then
    .error (invalid "invalid Kubernetes JSON object")
  else if value["metadata"]["name"].asString ≠ target.name ∨
      value["metadata"]["namespace"].asString.any (fun ns => target.ns ≠ some ns) then
    .error (bad "binding metadata does not match endpoint")
  else if value["target"]["kind"] ≠ .string "Node" ∨
      value["target"]["apiVersion"].asString.any (· ≠ "v1") then
    .error (bad "binding target must be a v1 Node")
  else .ok ()

def bindingNode (value : Json) : Outcome String :=
  match value["target"]["name"].asString.filter fun n => validName n with
  | some node => .ok node
  | none => .error (bad "binding target node name is required")

/-- The scheduler's one-shot assignment of a Pod to a Node. -/
def bind (target : Target) (value : Json) : Action Response := do
  bindingMatches lib target value
  let node ← bindingNode value
  let nodeKey ← key ("/registry/nodes/" ++ node)
  let _ ← reading (fetch nodeKey "binding target node not found")
  let k ← named target
  let stored ← reading (fetch k "Pod not found")
  let pod ← object stored
  if pod["spec"]["nodeName"].hasText ∨ pod["metadata"]["deletionTimestamp"] ≠ .null then
    throw (failure 409 "Conflict" "Pod is already bound or terminating")
  else if value["metadata"]["uid"].asString.any (fun uid => pod["metadata"]["uid"] ≠ .string uid) ∨
      value["metadata"]["resourceVersion"].asString.any (· ≠ toString stored.revision) then
    throw (failure 409 "Conflict" "binding precondition failed")
  else
    let pod ← setAt pod ["spec", "nodeName"] (.string node)
    let generation := pod["metadata"]["generation"].asInt.getD 1
    if generation + 1 < 2 ^ 63 then
      let pod ← setAt pod ["metadata", "generation"] (.number (.int (generation + 1)))
      let _ ← update k pod stored.revision
      return .success 201
    else throw (invalid "generation overflow")

/-- Serialized from the decoding to the commit by the admission lock. -/
def execute (write : Write) (query : Query) (body : Body) : Action Response := do
  if (query.get "dryRun").isSome then throw (bad "dryRun is not yet implemented")
  else if write.target.subresource = some "binding" then
    if write.user.nodeName.isSome then throw (forbidden "nodes may not bind Pods")
    else bind lib write.target (← lib.decode body.bytes body.contentType)
  else if write.verb = "delete" then
    deleteWrite fresh write (← lib.decode body.bytes body.contentType)
  else
    match ← applyOptions body.contentType query with
    | some options => applyWrite lib fresh write body options
    | none =>
      let decoded ← reading (decode lib fresh write body)
      let (value, old) ← reading (concurrency fresh write decoded.key decoded.value)
      let value ← prepareWrite lib write value (old.map Prod.snd)
      let value ← admitWrite lib fresh write decoded.key value (old.map Prod.snd) decoded.ns
      persist write decoded.key value (old.map Prod.fst)

end

end Hedronetes.Server
