import Hedronetes.Api.Quantity
import Hedronetes.Foundations.StableSort
import Hedronetes.Server.Selectors

/-!
# The placement of a Pod

A node is a choice if it is alive, the Pod's constraints allow it and its requests fit in beside
those of the Pods that are there. The least choice wins. The reading of a time is a parameter.
-/

namespace Hedronetes.Scheduler

open Server Api StableSort

/-- Neither null nor an empty list or object. -/
def populated (v : Json) : Bool := v ≠ .null && v ≠ .array [] && v ≠ .object []

def terminal (p : Json) : Bool := p["status"]["phase"].asString.any (· ∈ ["Succeeded", "Failed"])

/-- Neither assigned nor finished, and left to this scheduler. -/
def pending (p : Json) : Bool :=
  p["metadata"]["deletionTimestamp"] = .null && !p["spec"]["nodeName"].hasText &&
    p["spec"]["schedulerName"].asString.all (· ∈ ["", "default-scheduler"]) && !terminal p

/-! ## Resources -/

/-- `i64::checked_add`. -/
def checkedAdd (a b : ℤ) : Option ℤ :=
  if -2 ^ 63 ≤ a + b ∧ a + b < 2 ^ 63 then some (a + b) else none

structure Resources where
  cpu : ℤ
  memory : ℤ
  pods : ℤ
  deriving DecidableEq

namespace Resources

def add (r s : Resources) : Option Resources := do
  return ⟨← checkedAdd r.cpu s.cpu, ← checkedAdd r.memory s.memory, ← checkedAdd r.pods s.pods⟩

def fits (r capacity : Resources) : Bool :=
  r.cpu ≤ capacity.cpu && r.memory ≤ capacity.memory && r.pods ≤ capacity.pods

end Resources

/-- The members of an object are all known. -/
def onlyCpuMemory (v : Json) : Bool := v.asObject.all fun m => m.all fun e => e.1 ∈ ["cpu", "memory"]

def milliCpu (s : String) : Option ℤ := (Quantity.parse s).bind Quantity.asMilliCpu

def bytes (s : String) : Option ℤ := (Quantity.parse s).bind Quantity.asBytes

/-- A text that is there has to convert. -/
def optional (convert : String → Option ℤ) (v : Json) : Option (Option ℤ) :=
  match v.asString with
  | none => some none
  | some s => (convert s).map some

/-- What a container requests, which is its limit if it says nothing else. -/
def requested (convert : String → Option ℤ) (r : Json) (key : String) : Option ℤ := do
  let limit ← optional convert r["limits"][key]
  let request ← optional convert r["requests"][key]
  let request := (request.or limit).getD 0
  if limit.any (· < request) then none else some request

def containerRequests (ctr : Json) : Option Resources :=
  let r := ctr["resources"]
  if onlyCpuMemory r["requests"] && onlyCpuMemory r["limits"] then do
    return ⟨← requested milliCpu r "cpu", ← requested bytes r "memory", 0⟩
  else none

def overheadRequests (overhead : Json) : Option Resources :=
  if onlyCpuMemory overhead then do
    return ⟨(← optional milliCpu overhead["cpu"]).getD 0,
      (← optional bytes overhead["memory"]).getD 0, 0⟩
  else none

/-- One element after the other, as long as the sums are in range. -/
def sum {α : Type} (f : α → Option Resources) (start : Resources) (l : List α) : Option Resources :=
  l.foldlM (fun total a => do total.add (← f a)) start

/-- What a Pod takes of a node, unless it has resources that are not supported. -/
def requests (p : Json) : Option Resources := do
  let s := p["spec"]
  if populated s["initContainers"] || populated s["resources"] || populated s["resourceClaims"] then
    none
  else
    let containers ← s["containers"].asArray.filter (· ≠ [])
    let total ← sum containerRequests ⟨0, 0, 1⟩ containers
    total.add (← overheadRequests s["overhead"])

def capacity (n : Json) : Option Resources := do
  let a := n["status"]["allocatable"]
  return ⟨← a["cpu"].asString.bind milliCpu, ← a["memory"].asString.bind bytes,
    ← (a["pods"].asString.bind parseI64).filter (0 < ·)⟩

/-! ## Nodes -/

variable (rfc3339 : String → Option ℤ)

def pressures : List String :=
  ["MemoryPressure", "DiskPressure", "PIDPressure", "NetworkUnavailable"]

/-- The lease of the node object. -/
def ownLease (n l : Json) : Bool :=
  l["metadata"]["name"] = n["metadata"]["name"] &&
    l["spec"]["holderIdentity"] = n["metadata"]["name"] &&
    l["metadata"]["ownerReferences"].items.any fun o =>
      o["kind"] = .string "Node" && o["apiVersion"] = .string "v1" &&
        o["uid"] = n["metadata"]["uid"]

/-- Renewed within its duration. Times are in nanoseconds, of which whole milliseconds count. -/
def renewed (now : ℤ) (l : Json) : Bool :=
  match l["spec"]["renewTime"].asString.bind rfc3339 with
  | none => false
  | some time =>
    let duration := max 0 (min (l["spec"]["leaseDurationSeconds"].asInt.getD 0) 40)
    let age := (now - time).tdiv 1000000
    0 ≤ age && age ≤ duration * 1000 && 0 < duration

def alive (n : Json) (leases : List Json) (now : ℤ) : Bool :=
  let conditions := n["status"]["conditions"].items
  n["metadata"]["deletionTimestamp"] = .null && n["spec"]["unschedulable"] ≠ .bool true &&
    conditions.any (fun condition =>
      condition["type"] = .string "Ready" && condition["status"] = .string "True") &&
    !conditions.any (fun condition => condition["type"].asString.any (· ∈ pressures) &&
      condition["status"] ≠ .string "False") &&
    leases.any fun l => ownLease n l && renewed rfc3339 now l

/-! ## Constraints -/

/-- The toleration is for the key of the taint. -/
def forKey (v t : Json) : Bool :=
  let key := v["key"].asString.getD ""
  match v["operator"].asString.getD "Equal" with
  | "Exists" => key = "" || v["key"] = t["key"]
  | "Equal" => key ≠ "" && v["key"] = t["key"] &&
      v["value"].asString.getD "" = t["value"].asString.getD ""
  | _ => false

def tolerates (p t : Json) : Bool :=
  p["spec"]["tolerations"].items.any fun v =>
    let effect := v["effect"].asString.getD ""
    (effect = "" || v["effect"] = t["effect"]) && forKey v t

/-- The texts of a list. -/
def texts (v : Json) : List String := v.items.filterMap Json.asString

def requirement (r : Json) (value : Option String) : Bool :=
  let vals := texts r["values"]
  match r["operator"].asString with
  | some "In" => vals ≠ [] && value.any (· ∈ vals)
  | some "NotIn" => vals ≠ [] && value.all (· ∉ vals)
  | some "Exists" => vals = [] && value.isSome
  | some "DoesNotExist" => vals = [] && value.isNone
  | some "Gt" => match vals with
    | [bound] => (value.bind parseI64).any fun a => (parseI64 bound).any fun b => b < a
    | _ => false
  | some "Lt" => match vals with
    | [bound] => (value.bind parseI64).any fun a => (parseI64 bound).any fun b => a < b
    | _ => false
  | _ => false

def term (t n : Json) : Bool :=
  let expressions := t["matchExpressions"].items
  let fields := t["matchFields"].items
  (expressions ≠ [] || fields ≠ []) &&
    expressions.all (fun r => r["key"].asString.any fun k =>
      requirement r n["metadata"]["labels"][k].asString) &&
    fields.all fun r => r["key"] = .string "metadata.name" &&
      requirement r n["metadata"]["name"].asString

def nodeSelected (p n : Json) : Bool :=
  p["spec"]["nodeSelector"].asObject.all fun m => m.all fun e =>
    n["metadata"]["labels"][e.1] = e.2

def nodeAffinity (p : Json) : Json := p["spec"]["affinity"]["nodeAffinity"]

def required (p n : Json) : Bool :=
  let terms := (nodeAffinity p)["requiredDuringSchedulingIgnoredDuringExecution"]
  terms = .null || terms["nodeSelectorTerms"].items.any fun t => term t n

def weight (pref : Json) : Option ℤ := pref["weight"].asInt.filter fun w => 1 ≤ w ∧ w ≤ 100

def preferences (p : Json) : List Json :=
  (nodeAffinity p)["preferredDuringSchedulingIgnoredDuringExecution"].items

/-- The score of a node among those that the Pod may go to. -/
def affinity (p n : Json) : Option ℤ :=
  if nodeSelected p n && required p n then
    (preferences p).foldlM (fun score pref => do
      let w ← weight pref
      if term pref["preference"] n then checkedAdd score w else some score) 0
  else none

/-! ## The choice -/

/-- Why a Pod has no node. -/
inductive Reason where
  | schedulingGated
  | unsupportedScheduling
  | unsupportedResources
  | unschedulable
  deriving DecidableEq

def Reason.text : Reason → String
  | schedulingGated => "SchedulingGated"
  | unsupportedScheduling => "UnsupportedScheduling"
  | unsupportedResources => "UnsupportedResources"
  | unschedulable => "Unschedulable"

def volumeSources : List String :=
  ["configMap", "secret", "projected", "downwardAPI", "emptyDir", "persistentVolumeClaim"]

def unsupported (p : Json) : Bool :=
  let s := p["spec"]
  populated s["affinity"]["podAffinity"] || populated s["affinity"]["podAntiAffinity"] ||
    populated s["topologySpreadConstraints"] || populated s["runtimeClassName"] ||
    s["volumes"].items.any (fun v => !volumeSources.any fun k => v[k] ≠ .null) ||
    s["containers"].items.any fun ctr => ctr["ports"].items.any fun port =>
      port["hostPort"].asInt.getD 0 ≠ 0

structure Choice where
  soft : ℕ
  preference : ℤ
  pods : ℤ
  name : String
  deriving DecidableEq

/-- Fewer soft taints, then the higher score, then fewer Pods, then the name. -/
def Choice.rank (c : Choice) : ℕ ×ₗ ℤᵒᵈ ×ₗ ℤ ×ₗ String :=
  toLex (c.soft, toLex (OrderDual.toDual c.preference, toLex (c.pods, c.name)))

def taints (n : Json) : List Json := n["spec"]["taints"].items

/-- The Pods that take of a node. -/
def assigned (name : String) (pods : List Json) : List Json :=
  pods.filter fun p => p["spec"]["nodeName"] = .string name && !terminal p

/-- Whether a taint keeps the Pod off. -/
def repels (p t : Json) : Bool :=
  t["effect"].asString.any (· ∈ ["NoSchedule", "NoExecute"]) && !tolerates p t

def choice (p n : Json) (pods leases : List Json) (now : ℤ) (request : Resources) :
    Option Choice := do
  if !alive rfc3339 n leases now then none
  else
    let name ← n["metadata"]["name"].asString.filter (· ≠ "")
    let capacity ← capacity n
    let preference ← affinity p n
    if (taints n).any (repels p) then none
    else
      let soft := (taints n).countP fun t =>
        t["effect"] = .string "PreferNoSchedule" && !tolerates p t
      let used ← sum requests ⟨0, 0, 0⟩ (assigned name pods)
      if (used.add request).any (·.fits capacity) then some ⟨soft, preference, used.pods, name⟩
      else none

/-- The node that the Pod goes to. -/
def select (p : Json) (nodes pods leases : List Json) (now : ℤ) : Except Reason String :=
  if populated p["spec"]["schedulingGates"] then .error .schedulingGated
  else if unsupported p then .error .unsupportedScheduling
  else
    match requests p with
    | none => .error .unsupportedResources
    | some request =>
      let choices := nodes.filterMap fun n => choice rfc3339 p n pods leases now request
      match (sortBy Choice.rank choices).head? with
      | some c => .ok c.name
      | none => .error .unschedulable

end Hedronetes.Scheduler
