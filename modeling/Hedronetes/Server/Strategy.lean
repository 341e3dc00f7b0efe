import Hedronetes.Server.Libraries

/-!
# Resource strategies

Defaults, validation and immutability of an object against the stored one. A
status write takes its status and keeps the rest; any other write keeps the
stored status. What is said about one kind's `spec` alone is left to its rules.
-/

namespace Hedronetes.Server

open FirstMatch Apply

/-- Takes a member from another object, and leaves it absent where that has none. -/
def copyField (value : Json) (key : String) (source : Json) : Outcome Json :=
  if source[key] = .null then
    match value with
    | .object fields => .ok (.object (eraseKey key fields))
    | other => .ok other
  else setAt value [key] source[key]

/-- Sets a member that is absent, null or, for a text, empty. -/
def defaultAt (value : Json) (key : String) (fallback : Json) : Outcome Json :=
  if value[key] = .null ∨ (fallback.asString.isSome ∧ value[key] = .string "") then
    setAt value [key] fallback
  else .ok value

def oneOf (value : Json) (choices : List String) (field : String) : Outcome Unit :=
  if value.asString.any fun v => v ∈ choices then .ok () else .error (invalid field)

/-- A rule on `spec` alone. -/
def withSpec (value : Json) (rule : Json → Outcome Json) : Outcome Json := do
  setAt value ["spec"] (← rule value["spec"])

/-- What Helm's own release storage looks like. -/
def helmOwned (value : Json) (kind : String) : Bool :=
  match value["metadata"]["name"].asString with
  | none => false
  | some name => (stripStart "sh.helm.release.v1." name).isSome &&
      value["metadata"]["labels"]["owner"] = .string "helm" &&
        (kind = "ConfigMap" || value["type"] = .string "helm.sh/release.v1")

/-- The status of a new object. -/
def freshStatus (kind : String) : Json :=
  match kind with
  | "Namespace" => .object [("phase", .string "Active")]
  | "Pod" => .object [("phase", .string "Pending")]
  | "PersistentVolumeClaim" => .object [("phase", .string "Pending")]
  | _ => .object []

def podPhases : List String := ["Pending", "Running", "Succeeded", "Failed", "Unknown"]

/-- A write of the status subresource. -/
def prepareStatus (resource : Resource) (value old : Json) : Outcome Json := do
  let rv := value["metadata"]["resourceVersion"]
  let value ← copyField value "spec" old
  let value ← if resource.kind ≠ "Node" then setAt value ["metadata"] old["metadata"]
    else pure value
  let value ← setAt value ["metadata", "resourceVersion"] rv
  if resource.kind = "Pod" ∧ value["status"]["phase"] ≠ .null then
    oneOf value["status"]["phase"] podPhases "invalid Pod status.phase"
  return value

/-! ## Kinds whose rules see more than `spec` -/

def storageClass (value : Json) : Outcome Json := do
  let provisioner := (value["provisioner"].asString.getD "").toList
  if provisioner.length < 1 ∨ 253 < provisioner.length ∨
      ('.', '.') ∈ provisioner.zip provisioner.tail ∨ provisioner.head? = some '/' ∨
        provisioner.getLast? = some '/' ∨
          !provisioner.all (fun c => c.isAlphanum || c ∈ ['-', '.', '_', '/']) then
    throw (invalid "StorageClass provisioner is required")
  let value ← defaultAt value "reclaimPolicy" (.string "Delete")
  let value ← defaultAt value "volumeBindingMode" (.string "Immediate")
  oneOf value["reclaimPolicy"] ["Delete", "Retain"] "unsupported StorageClass reclaim policy"
  oneOf value["volumeBindingMode"] ["Immediate"] "only immediate volume binding is implemented"
  return value

def validPort (value : Json) : Outcome Unit :=
  if value.asInt.any fun n => 1 ≤ n ∧ n ≤ 65535 then .ok ()
  else .error (invalid "port must be in 1..65535")

def endpointPort (port : Json) : Outcome Json := do
  if port["port"] ≠ .null then validPort port["port"]
  let port ← defaultAt port "protocol" (.string "TCP")
  oneOf port["protocol"] ["TCP", "UDP", "SCTP"] "invalid endpoint protocol"
  return port

def endpointAddresses (validAddress : String → Bool) (endpoint : Json) : Outcome Unit :=
  match endpoint["addresses"].items with
  | [] => .error (invalid "endpoint addresses required")
  | addresses =>
    if addresses.all fun address => validAddress (address.asString.getD "") then .ok ()
    else .error (invalid "endpoint address does not match addressType")

def endpoints (validAddress : String → String → Bool) (value : Json) : Outcome Json := do
  oneOf value["addressType"] ["IPv4", "IPv6", "FQDN"] "invalid EndpointSlice addressType"
  let addressType := value["addressType"].asString.getD ""
  let valid := fun address =>
    if addressType = "FQDN" then validName address else validAddress addressType address
  value["endpoints"].items.forM (endpointAddresses valid)
  match value["ports"].asArray with
  | some ports => do
    let ports ← ports.mapM endpointPort
    setAt value ["ports"] (.array ports)
  | none => return value

def ingress (value : Json) : Outcome Unit :=
  if !value["spec"].isObject then .error (invalid "Ingress spec is required")
  else if (value["spec"].field "rules").any (fun rules => rules.asArray.isNone) then
    .error (invalid "spec.rules must be an array")
  else if (value["spec"].field "defaultBackend").any (fun backend => !backend.isObject) then
    .error (invalid "spec.defaultBackend must name a Service")
  else .ok ()

def nodeSpec (validCidr : String → Bool) (value : Json) : Outcome Json := do
  let value ← defaultAt value "spec" (.object [])
  if value["spec"]["podCIDR"].asString.any fun cidr => cidr ≠ "" && !validCidr cidr then
    throw (invalid "invalid node podCIDR")
  return value

/-- The rules of a kind. -/
def prepareKind (rules : SpecRules) (resource : Resource) (value : Json) (old : Option Json) :
    Outcome Json :=
  match resource.kind with
  | "Pod" => withSpec value rules.pod
  | "Deployment" => withSpec value (rules.workload "Deployment")
  | "ReplicaSet" => withSpec value (rules.workload "ReplicaSet")
  | "Service" => withSpec value rules.service
  | "PersistentVolumeClaim" =>
    withSpec value fun spec => rules.claim spec (old.map fun o => o["spec"])
  | "PersistentVolume" => withSpec value rules.volume
  | "StorageClass" => storageClass value
  | "Node" => nodeSpec rules.validCidr value
  | "EndpointSlice" => endpoints rules.validAddress value
  | "Ingress" => do
    ingress value
    return value
  | "Lease" =>
    if value["spec"]["leaseDurationSeconds"].asInt.any fun v => v ≤ 0 then
      .error (invalid "lease duration must be positive")
    else .ok value
  | _ => .ok value

/-! ## Immutability and generation -/

/-- Containers with the images of others of the same number. -/
def withImages (spec after : Json) (field : String) : Outcome Json :=
  match spec[field].asArray, after[field].asArray with
  | some before, some after =>
    if before.length = after.length then do
      let images ← (before.zip after).mapM fun (a, b) => setAt a ["image"] b["image"]
      setAt spec [field] (.array images)
    else return spec
  | _, _ => return spec

def immutable (resource : Resource) (value old : Json) : Outcome Unit := do
  if (resource.kind = "Deployment" ∨ resource.kind = "ReplicaSet") ∧
      value["spec"]["selector"] ≠ old["spec"]["selector"] then
    throw (invalid "workload selector is immutable")
  if resource.kind = "Pod" then
    let allowed ← ["containers", "initContainers"].foldlM
      (fun allowed field => withImages allowed value["spec"] field) old["spec"]
    if allowed ≠ value["spec"] then
      throw (invalid
        "this Pod update changes immutable spec fields; scheduling requires binding")
  if resource.kind = "EndpointSlice" ∧ value["addressType"] ≠ old["addressType"] then
    throw (invalid "addressType is immutable")
  if (resource.kind = "Secret" ∨ resource.kind = "ConfigMap") ∧
      old["immutable"] = .bool true ∧ (value["immutable"] ≠ .bool true ∨
        value["data"] ≠ old["data"] ∨ value["binaryData"] ≠ old["binaryData"]) then
    throw (invalid "immutable object data cannot change")
  if resource.kind = "Secret" ∧ value["type"] ≠ old["type"] then
    throw (invalid "Secret type is immutable")

/-- A generation counts the changes of the specification. -/
def withGeneration (resource : Resource) (value : Json) (old : Option Json) : Outcome Json :=
  if resource.hasGeneration then
    let changed := old.any fun old => old["spec"] ≠ value["spec"] ||
      (resource.kind = "Deployment" &&
        old["metadata"]["annotations"] ≠ value["metadata"]["annotations"])
    let generation := (old.bind fun old => old["metadata"]["generation"].asInt).getD 1
    let next := generation + if changed then 1 else 0
    if next < 2 ^ 63 then setAt value ["metadata", "generation"] (.number (.int next))
    else .error (invalid "generation overflow")
  else .ok value

/-- `value` is already normalized by the write pipeline. -/
def prepare (rules : SpecRules) (resource : Resource) (value : Json) (old : Option Json)
    (status : Bool) : Outcome Json :=
  if status then
    match old with
    | some old => prepareStatus resource value old
    | none => .error (.panic "status updates require an existing object")
  else do
    let value ←
      if resource.hasStatus then
        let stored := (old.map fun o => o["status"]).filter (· ≠ .null)
        setAt value ["status"] (stored.getD (freshStatus resource.kind))
      else pure value
    let value ← prepareKind rules resource value old
    match old with
    | some old => do
      immutable resource value old
      let value ← setAt value ["metadata", "generation"] old["metadata"]["generation"]
      withGeneration resource value (some old)
    | none => do
      let value ← removeAt value "metadata" "generation"
      withGeneration resource value none

end Hedronetes.Server
