import Hedronetes.Api.PodProfile
import Hedronetes.Api.Quantity
import Hedronetes.Server.Services

/-!
# The rules of each specification

Defaults and validation of the `spec` of Pods, workloads, claims and volumes. Each
reads one specification and gives it back with what it leaves out filled in.
-/

namespace Hedronetes.Server

open FirstMatch Apply

/-- A rule on one member. -/
def onMember (value : Json) (key : String) (rule : Json → Outcome Json) : Outcome Json := do
  setAt value [key] (← rule value[key])

/-- A rule on the items of a member that is an array. -/
def onItems (value : Json) (key : String) (rule : List Json → Outcome (List Json)) :
    Outcome Json :=
  match value[key].asArray with
  | some items => do setAt value [key] (.array (← rule items))
  | none => .ok value

/-! ## Pods -/

/-- A field of `PodRuntimeProfile::defaults`. -/
def runtimeDefault (spec : Json) (field : String) : Json :=
  match spec with
  | .object fields =>
    if spec[field].asBool.isSome then spec else .object (insertKey field (.bool false) fields)
  | other => other

def runtimeDefaults (spec : Json) : Json :=
  ["automountServiceAccountToken", "enableServiceLinks"].foldl runtimeDefault spec

def containerPort (port : Json) : Outcome Json := do
  validPort port["containerPort"]
  let port ← defaultAt port "protocol" (.string "TCP")
  oneOf port["protocol"] ["TCP", "UDP", "SCTP"] "invalid port protocol"
  return port

/-- The Unicode property that `str::trim` goes by. -/
def isWhiteSpace (ch : Char) : Bool :=
  (9 ≤ ch.toNat && ch.toNat ≤ 13) || (0x2000 ≤ ch.toNat && ch.toNat ≤ 0x200a) ||
    ch.toNat ∈ [0x20, 0x85, 0xa0, 0x1680, 0x2028, 0x2029, 0x202f, 0x205f, 0x3000]

/-- An image without a digest and without a tag of its own. -/
def latestImage (image : String) : Bool :=
  !image.toList.contains '@' && ((stripEnd ":latest" image).isSome ||
    !((splitOn '/' image).getLast?.getD "").toList.contains ':')

def pullPolicy (image : String) : String := if latestImage image then "Always" else "IfNotPresent"

def containerImage (container : Json) : Outcome String :=
  match container["image"].asString.filter fun s => !s.toList.all isWhiteSpace with
  | some image => .ok image
  | none => .error (invalid "container image is required")

def containerName (container : Json) : String := container["name"].asString.getD ""

def podContainer (container : Json) : Outcome Json := do
  let image ← containerImage container
  let container ← defaultAt container "imagePullPolicy" (.string (pullPolicy image))
  let container ← defaultAt container "terminationMessagePath" (.string "/dev/termination-log")
  let container ← defaultAt container "terminationMessagePolicy" (.string "File")
  oneOf container["imagePullPolicy"] ["Always", "IfNotPresent", "Never"] "invalid imagePullPolicy"
  onItems container "ports" fun ports => ports.mapM containerPort

/-- Containers whose names are labels and differ from each other and from those seen before. -/
def podContainers : List Json → List String → Outcome (List Json)
  | [], _ => .ok []
  | container :: rest, names => do
    require (validLabelName (containerName container) ∧ containerName container ∉ names)
      "container names must be unique DNS labels"
    let container ← podContainer container
    return container :: (← podContainers rest (containerName container :: names))

def containerNames (spec : Json) (field : String) : List String :=
  spec[field].items.map containerName

/-- A Pod's account under its old name. -/
def accountAlias (spec : Json) : Outcome Json :=
  match spec["serviceAccount"].asString.filter (· ≠ "") with
  | some account => do
    require (spec["serviceAccountName"].asString.all fun name => name = "" ∨ name = account)
      "serviceAccount and serviceAccountName must agree"
    setAt spec ["serviceAccountName"] (.string account)
  | none => .ok spec

def pod (spec : Json) : Outcome Json := do
  require spec.isObject "Pod spec is required"
  require (spec["containers"].items ≠ []) "at least one container is required"
  let spec ← defaultAt spec "restartPolicy" (.string "Always")
  let spec ← defaultAt spec "dnsPolicy" (.string "ClusterFirst")
  let spec ← defaultAt spec "schedulerName" (.string "default-scheduler")
  let spec ← accountAlias spec
  let spec ← defaultAt spec "serviceAccountName" (.string "default")
  let spec ← setAt spec ["serviceAccount"] spec["serviceAccountName"]
  let spec ← defaultAt spec "terminationGracePeriodSeconds" (.number (.int 30))
  let spec := runtimeDefaults spec
  oneOf spec["restartPolicy"] ["Always", "OnFailure", "Never"] "invalid restartPolicy"
  oneOf spec["dnsPolicy"] ["ClusterFirst", "Default", "ClusterFirstWithHostNet", "None"]
    "invalid dnsPolicy"
  require (spec["terminationGracePeriodSeconds"].asInt.any (0 ≤ ·))
    "termination grace must be nonnegative"
  let spec ← onItems spec "containers" fun items => podContainers items []
  onItems spec "initContainers" fun items =>
    podContainers items (containerNames spec "containers")

/-! ## Workloads -/

/-- Whether a key with these values is selected, or no operator asks for them. -/
def operatorSelects (operator : Option String) (values : List Json) (labels : Json) (key : String) :
    Outcome Bool :=
  let present := (labels.field key).isSome
  match operator, values with
  | some "In", _ :: _ => .ok (present && labels[key] ∈ values)
  | some "NotIn", _ :: _ => .ok (!present || labels[key] ∉ values)
  | some "Exists", [] => .ok present
  | some "DoesNotExist", [] => .ok !present
  | _, _ => .error (invalid "invalid selector operator or values")

def expressionSelects (labels expression : Json) : Outcome Unit := do
  let key := expression["key"].asString.getD ""
  require (key ≠ "") "selector expression key is required"
  let selected ← operatorSelects expression["operator"].asString expression["values"].items labels key
  require selected "selector does not match template labels"

/-- A workload selector must select its own template. -/
def selectorMatches (selector labels : Json) : Outcome Unit := do
  let wanted := selector["matchLabels"].asObject.getD []
  require (∀ e ∈ wanted, labels[e.1] = e.2) "selector does not match template labels"
  let expressions := selector["matchExpressions"].items
  expressions.forM (expressionSelects labels)
  require (wanted.length + expressions.length ≠ 0) "workload selector must not be empty"

/-- A template that the node cannot execute is refused. -/
def executable (spec : Json) : Outcome Unit :=
  match Api.check spec with
  | .ok _ => .ok ()
  | .error (.unsupported message) =>
    .error (invalid ("template cannot run under the restricted-v1 runtime profile " ++
      "(k8s-1.34-h3s-0.9.1): " ++ message))
  | .error (.panic message) => .error (.panic message)

def rollingUpdate (update : Json) : Outcome Json := do
  let update ← defaultAt update "maxSurge" (.string "25%")
  defaultAt update "maxUnavailable" (.string "25%")

def deploymentStrategy (strategy : Json) : Outcome Json := do
  let strategy ← defaultAt strategy "type" (.string "RollingUpdate")
  oneOf strategy["type"] ["RollingUpdate", "Recreate"] "invalid deployment strategy"
  if strategy["type"] = .string "RollingUpdate" then do
    let strategy ← defaultAt strategy "rollingUpdate" (.object [])
    onMember strategy "rollingUpdate" rollingUpdate
  else do
    require (strategy["rollingUpdate"] = .null) "Recreate cannot set rollingUpdate"
    return strategy

/-- What a Deployment has beside its Pods. -/
def deployment (spec : Json) : Outcome Json := do
  let spec ← defaultAt spec "revisionHistoryLimit" (.number (.int 10))
  let spec ← defaultAt spec "progressDeadlineSeconds" (.number (.int 600))
  let spec ← defaultAt spec "strategy" (.object [])
  onMember spec "strategy" deploymentStrategy

def workload (kind : String) (spec : Json) : Outcome Json := do
  require spec.isObject "spec is required"
  let spec ← defaultAt spec "replicas" (.number (.int 1))
  require (spec["replicas"].asInt.any (0 ≤ ·)) "replicas must be nonnegative"
  require spec["template"].isObject "template is required"
  let spec ← onMember spec "template" fun template => onMember template "spec" pod
  require (spec["template"]["spec"]["restartPolicy"] = .string "Always")
    "workload template restartPolicy must be Always"
  executable spec["template"]["spec"]
  selectorMatches spec["selector"] spec["template"]["metadata"]["labels"]
  if kind = "Deployment" then deployment spec else return spec

/-! ## Storage -/

/-- A resource quantity in bytes. -/
def storage (value : Json) (field : String) : Outcome ℤ :=
  match (value.asString.bind Api.Quantity.parse).bind Api.Quantity.asBytes with
  | some bytes => .ok bytes
  | none => .error (invalid (field ++ " must be a resource quantity"))

def accessModes (value : Json) : Outcome Unit := do
  require (value.items ≠ []) "accessModes are required"
  value.items.forM fun mode =>
    oneOf mode ["ReadWriteOnce", "ReadOnlyMany", "ReadWriteMany"] "unsupported accessMode"

/-- A claim is only ever extended, never shrunk or bound anew. -/
def claimKept (spec old : Json) (requested : ℤ) : Outcome Unit := do
  require (∀ field ∈ ["storageClassName", "volumeMode"], old[field] = spec[field])
    "claim storage class and volume mode are immutable"
  require (old["accessModes"] = spec["accessModes"]) "claim access modes are immutable"
  let before ← storage old["resources"]["requests"]["storage"] "storage"
  require (before ≤ requested) "a claim may not shrink its storage request"
  require (¬ (old["volumeName"].hasText ∧ old["volumeName"] ≠ spec["volumeName"]))
    "a bound claim keeps its volume"

def claim (spec : Json) (old : Option Json) : Outcome Json := do
  require spec.isObject "PersistentVolumeClaim spec is required"
  let spec ← defaultAt spec "volumeMode" (.string "Filesystem")
  oneOf spec["volumeMode"] ["Filesystem"] "the local-path driver supports Filesystem claims"
  accessModes spec["accessModes"]
  let requested ← storage spec["resources"]["requests"]["storage"] "resources.requests.storage"
  match old with
  | some old => do
    claimKept spec old requested
    return spec
  | none => return spec

def localPath (path : Json) : Outcome Unit :=
  match path.asString.filter fun p => p.toList.head? = some '/' ∧ p.utf8ByteSize ≤ 4096 ∧
      '\x00' ∉ p.toList ∧ ('.', '.') ∉ p.toList.zip p.toList.tail with
  | none => .error (invalid "a local volume requires an absolute path without . or ..")
  | some p =>
    require (p.toList.rdropWhile (· = '/') ≠ "/var/lib/hedronetes/local-path".toList)
      "the local-path driver owns its own directory"

def volume (spec : Json) : Outcome Json := do
  require spec.isObject "PersistentVolume spec is required"
  let spec ← defaultAt spec "persistentVolumeReclaimPolicy" (.string "Delete")
  let spec ← defaultAt spec "volumeMode" (.string "Filesystem")
  oneOf spec["persistentVolumeReclaimPolicy"] ["Delete", "Retain"]
    "unsupported PersistentVolume reclaim policy"
  oneOf spec["volumeMode"] ["Filesystem"] "the local-path driver supports Filesystem volumes"
  accessModes spec["accessModes"]
  let _ ← storage spec["capacity"]["storage"] "capacity.storage"
  require (spec["hostPath"] = .null) "hostPath volumes are not implemented; use a local volume"
  localPath spec["local"]["path"]
  return spec

/-- The rules of the strategies, over what they leave to others. -/
def strategyRules (base : SpecRules) : SpecRules :=
  { base with pod, workload, service := Services.service, claim, volume }

end Hedronetes.Server
