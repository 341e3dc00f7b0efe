import Hedronetes.Controllers.Clients
import Hedronetes.Foundations.StableSort

/-!
# The ReplicaSet controller

A pass takes the Pods as they were listed. It first adopts a matching Pod that has no controller,
or releases one of its own that no longer matches, and leaves the rest to the next pass. Otherwise
it creates or deletes Pods until the ReplicaSet has as many as it asks for.
-/

namespace Hedronetes.Controllers

open Server Apply Auth Interleaving StableSort

def deployments : Resource := ⟨"apps", "v1", "deployments", "Deployment", true⟩

def replicaSets : Resource := ⟨"apps", "v1", "replicasets", "ReplicaSet", true⟩

def pods : Resource := ⟨"", "v1", "pods", "Pod", true⟩

/-- The most Pods that a pass creates or deletes. -/
def BURST : ℕ := 8

def isReady (condition : Json) : Bool :=
  condition["type"] = .string "Ready" && condition["status"] = .string "True"

def ready (p : Json) : Bool := active p && p["status"]["conditions"].items.any isReady

def minimumReady (v : Json) : Result ℤ :=
  let seconds := v["spec"]["minReadySeconds"].asInt.getD 0
  if 0 ≤ seconds ∧ seconds < 2 ^ 32 then .ok seconds
  else .error (.invalid "invalid minReadySeconds")

/-- Labels and annotations, and nothing else. -/
def templateMetadata (template : Json) : Result (List (String × Json)) :=
  if template["metadata"].asObject.any fun m =>
      m.any fun e => e.2 ≠ .null && e.1 ∉ ["labels", "annotations"] then
    .error (.invalid "unsupported Pod template metadata")
  else .ok [("labels", template["metadata"]["labels"]),
    ("annotations", template["metadata"]["annotations"])]

/-- What is deleted first: Pods that are not ready, not placed, and young. -/
def deletionOrder (p : Json) : Bool ×ₗ Bool ×ₗ Stringᵒᵈ ×ₗ String :=
  toLex (ready p, toLex (p["spec"]["nodeName"].hasText,
    toLex (OrderDual.toDual (p["metadata"]["creationTimestamp"].asString.getD ""),
      p["metadata"]["uid"].asString.getD "")))

/-- The owner references of a Pod that is adopted or released. -/
def adoptedReferences (rs p : Json) (adopts : Bool) : List Json :=
  (ownerReferences p).filter (fun o => o["uid"] ≠ rs["metadata"]["uid"]) ++
    if adopts then [owner rs] else []

namespace Work

/-- The object is still there, and its specification is the one that was read. -/
def live (resource : Resource) (ns : String) (object : Json) : Work Bool := do
  let (_, name, uid) ← ofResult (identity object)
  let found ← find resource ns name
  return found.any fun p => p["metadata"]["uid"] = .string uid &&
    p["metadata"]["deletionTimestamp"] = .null &&
      p["metadata"]["generation"].asInt = object["metadata"]["generation"].asInt

variable {lib : Libraries} (client : Client lib)

/-- Puts an object back in the version that was read. -/
def replace (fresh : Fresh) (resource : Resource) (ns : String) (object : Json) : Work Unit := do
  let name ← ofResult (text object["metadata"] "name")
  match ← send client fresh ⟨resource, some ns, some name, none⟩ "update" object with
  | .ok _ => return ()
  | .error stop => .fail (.api stop)

def create (fresh : Fresh) (resource : Resource) (ns : String) (object : Json) : Work Unit := do
  match ← send client fresh ⟨resource, some ns, none, none⟩ "create" object with
  | .ok _ => return ()
  | .error stop => .fail (.api stop)

end Work

section

variable {lib : Libraries} (client : Client lib) (fresh : ℕ → Fresh) (ns : String) (rs : Json)

/-- Whether the first Pod to adopt or to release has ended the pass. Another controller's Pod is
never taken. -/
def adopt : List Json → Work Bool
  | [] => return false
  | p :: rest =>
    let matched := labelsMatch rs["spec"]["selector"] p["metadata"]["labels"]
    let orphan := !(ownerReferences p).any isController
    if active p && ((owned p rs && !matched) || (orphan && matched)) then do
      if !(← Work.live replicaSets ns rs) then return true
      else
        let next ← .lift ((setAt p ["metadata", "ownerReferences"]
          (.array (adoptedReferences rs p (orphan && matched)))).mapError .api)
        Work.replace client (fresh 0) pods ns next
        return true
    else adopt rest

/-- A Pod of the template. -/
def templatePod (metadata : List (String × Json)) (name : String) : Json :=
  .ofPairs [("apiVersion", .string "v1"), ("kind", .string "Pod"),
    ("metadata", .ofPairs (metadata ++
      [("generateName", .string (String.ofList (name.toList.take 54) ++ "-")),
        ("namespace", rs["metadata"]["namespace"]), ("ownerReferences", .array [owner rs])])),
    ("spec", rs["spec"]["template"]["spec"])]

def createPods (metadata : List (String × Json)) : ℕ → Work Unit
  | 0 => return ()
  | n + 1 => do
    if !(← Work.live replicaSets ns rs) then return ()
    else
      let name ← Work.ofResult (text rs["metadata"] "name")
      Work.create client (fresh n) pods ns (templatePod rs metadata name)
      createPods metadata n

def deletePods : List Json → Work Unit
  | [] => return ()
  | pod :: rest => do
    if !(← Work.live replicaSets ns rs) then return ()
    else
      let _ ← Work.delete client (fresh 0) pods ns pod
      deletePods rest

def sync (listed : List Json) : Work Unit := do
  let desired ← Work.ofResult (replicas rs)
  let _ ← Work.ofResult (minimumReady rs)
  let metadata ← Work.ofResult (templateMetadata rs["spec"]["template"])
  if ← adopt client fresh ns rs listed then return ()
  else
    let selected := listed.filter fun p => owned p rs && active p
    if selected.length < desired.toNat then
      createPods client fresh ns rs metadata (min (desired.toNat - selected.length) BURST)
    else if desired.toNat < selected.length then
      deletePods client fresh ns rs
        ((sortBy deletionOrder selected).take (min (selected.length - desired.toNat) BURST))
    else return ()

/-- A pass, up to the status it reports. -/
def replicaSetOnce (name : String) : Work Unit := do
  match ← Work.find replicaSets ns name with
  | none => return ()
  | some rs =>
    if !active rs then return ()
    else
      let listed ← Work.list ("/registry/pods/" ++ ns ++ "/")
      sync client fresh ns rs listed

end

end Hedronetes.Controllers
