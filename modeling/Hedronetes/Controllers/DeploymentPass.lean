import Hedronetes.Controllers.Deployment
import Hedronetes.Controllers.ReplicaSet

/-!
# A pass over a Deployment

What one pass asks of the server, from the ReplicaSets of the namespace and its Pods as they were
listed and from whether the Deployment was still the one that was read.
-/

namespace Hedronetes.Controllers.Deployments

open Server Apply FirstMatch StableSort

def HASH : String := "pod-template-hash"

def REVISION : String := "deployment.kubernetes.io/revision"

/-- A write by index, which panics at a value that is neither an object nor null. -/
def write (value : Json) (path : List String) (v : Json) : Result Json :=
  (setAt value path v).mapError fun _ => .panic "cannot access key in JSON value"

/-! ## The ReplicaSet of a template -/

/-- Reading the labels for writing makes what is missing on the way to them. -/
def templateWithoutHash (t : Json) : Result Json :=
  match t["metadata"]["labels"] with
  | .object labels => write t ["metadata", "labels"] (.object (eraseKey HASH labels))
  | labels => write t ["metadata", "labels"] labels

def isCurrent (d rs : Json) : Result Bool := do
  let mine ← templateWithoutHash rs["spec"]["template"]
  let wanted ← templateWithoutHash d["spec"]["template"]
  return mine = wanted

/-- The place of the first ReplicaSet with the Deployment's template. -/
def current (d : Json) : List Json → Result (Option ℕ)
  | [] => return none
  | rs :: sets => do
    if ← isCurrent d rs then return some 0
    else return (← current d sets).map (· + 1)

/-- The Deployment may not say anything of the label that the controller sets. -/
def suppliesHash (d : Json) : Bool :=
  (d["spec"]["template"]["metadata"]["labels"].field HASH).isSome ||
    (d["spec"]["selector"]["matchLabels"].field HASH).isSome ||
    d["spec"]["selector"]["matchExpressions"].items.any fun r => r["key"] = .string HASH

/-- The name of a ReplicaSet: the start of the Deployment's name and the hash of the template. -/
def setName (name hash : String) : String :=
  String.ofList (name.toList.take 46) ++ "-" ++ hash

/-- The start of the digest of a Deployment's uid and template. The digest is in hexadecimal
digits. -/
def templateHash (digest : Json → String) (uid : String) (template : Json) : String :=
  String.ofList ((digest (.array [.string uid, template])).toList.take 16)

/-- The revision after those of the ReplicaSets. -/
def nextRevision (sets : List Json) : Result ℤ :=
  let revisions := sets.filterMap fun r =>
    r["metadata"]["annotations"][REVISION].asString.bind fun s => parseI64 s.toList
  let last := revisions.max?.getD 0
  if last + 1 < 2 ^ 63 then .ok (last + 1) else .error (.invalid "Deployment revision overflow")

/-- The ReplicaSet of a Deployment's template, still without replicas. -/
def newSet (digest : Json → String) (d : Json) (sets : List Json) (minimum : ℤ) : Result Json := do
  let name ← text d["metadata"] "name"
  let uid ← text d["metadata"] "uid"
  let template := d["spec"]["template"]
  let hash := templateHash digest uid template
  let template ← write template ["metadata", "labels", HASH] (.string hash)
  let selector ← write d["spec"]["selector"] ["matchLabels", HASH] (.string hash)
  let revision ← nextRevision sets
  return .ofPairs [("apiVersion", .string "apps/v1"), ("kind", .string "ReplicaSet"),
    ("metadata", .ofPairs [("name", .string (setName name hash)),
      ("namespace", d["metadata"]["namespace"]), ("labels", template["metadata"]["labels"]),
      ("annotations", .ofPairs [(REVISION, .string (toString revision))]),
      ("ownerReferences", .array [owner d])]),
    ("spec", .ofPairs [("replicas", .number (.int 0)), ("minReadySeconds", .number (.int minimum)),
      ("selector", selector), ("template", template)])]

/-! ## The pass -/

/-- What a pass asks of the server. -/
inductive Request where
  | nothing
  | create (rs : Json)
  /-- A ReplicaSet with its owner references or `minReadySeconds` changed. -/
  | replace (rs : Json)
  /-- The ReplicaSet at a place with its replicas changed. -/
  | scale (place : ℕ) (replicas : ℤ) (rs : Json)
  | delete (sets : List Json)
  deriving DecidableEq

/-- The first ReplicaSet to adopt or to release. -/
def adoption (d : Json) (all : List Json) : Option (Json × Bool) :=
  (all.filter active).findSome? fun rs =>
    let matched := labelsMatch d["spec"]["selector"] rs["metadata"]["labels"]
    let orphan := !(ownerReferences rs).any isController
    if (owned rs d && !matched) || (orphan && matched) then some (rs, orphan && matched) else none

def age (rs : Json) : String ×ₗ String :=
  toLex (rs["metadata"]["creationTimestamp"].asString.getD "",
    rs["metadata"]["uid"].asString.getD "")

/-- The Deployment's ReplicaSets that are not marked for deletion, the oldest first. -/
def activeSets (d : Json) (all : List Json) : List Json :=
  sortBy age (all.filter fun r => owned r d && active r)

/-- A Pod of another ReplicaSet than the new one is not finished. -/
def oldPodsActive (sets : List Json) (new : ℕ) (pods : List Json) : Bool :=
  pods.any fun p => active p && (places sets).any fun (r, i) => i ≠ new && owned p r

/-- Writes the replicas of a plan. The Deployment's new ReplicaSet waits for the Pods of the old
ones. -/
def scaled (d : Json) (sets : List Json) (new : ℕ) (pods : List Json) (live : Bool) (place : ℕ)
    (n : ℤ) : Result Request :=
  if d["spec"]["strategy"]["type"] = .string "Recreate" ∧ place = new ∧ 0 < n ∧
      oldPodsActive sets new pods then .ok .nothing
  else if live then do
    let rs ← write (← pick sets place) ["spec", "replicas"] (.number (.int n))
    return .scale place n rs
  else .ok .nothing

/-- How many old ReplicaSets a Deployment keeps: a number that `as_u64` reads, or 10. -/
def historyLimit (d : Json) : ℕ :=
  match d["spec"]["revisionHistoryLimit"] with
  | .number (.int n) => if 0 ≤ n ∧ n < 2 ^ 64 then n.toNat else 10
  | _ => 10

/-- The old ReplicaSets beyond the history that a completed Deployment keeps. -/
def expired (d : Json) (sets : List Json) (new : ℕ) (pods : List Json) : List Json :=
  let old := ((places sets).filter fun (r, i) =>
    i ≠ new && observed r && count r "replicas" = 0).map Prod.fst
  (old.take (old.length - historyLimit d)).filter fun rs => !pods.any fun p => owned p rs

def completed (desired : ℤ) (sets : List Json) (new : ℕ) : Result Bool := do
  let rs ← pick sets new
  if desired ≤ count rs "availableReplicas" then
    return (← replicas rs) = desired && (places sets).all fun (r, i) =>
      i = new || (replicas r).toOption = some 0
  else return false

/-- The pass with the ReplicaSet of the Deployment's template found. -/
def rollOut (d : Json) (sets : List Json) (new : ℕ) (pods : List Json) (live : Bool)
    (desired minimum : ℤ) : Result Request := do
  let rs ← pick sets new
  if rs["spec"]["minReadySeconds"].asInt.getD 0 ≠ minimum then
    if live then return .replace (← write rs ["spec", "minReadySeconds"] (.number (.int minimum)))
    else return .nothing
  else
    match ← plan d sets new with
    | some (place, n) => scaled d sets new pods live place n
    | none =>
      if ← completed desired sets new then
        return if live then .delete (expired d sets new pods) else .nothing
      else return .nothing

/-- A pass, up to the status it reports. -/
def sync (digest : Json → String) (d : Json) (all pods : List Json) (live : Bool) :
    Result Request := do
  let desired ← replicas d
  let minimum ← minimumReady d
  let _ ← templateMetadata d["spec"]["template"]
  if suppliesHash d then
    .error (.invalid "Deployment cannot supply the controller-owned pod-template-hash label")
  else
    match adoption d all with
    | some (rs, adopts) =>
      if live then
        return .replace (← write rs ["metadata", "ownerReferences"]
          (.array (adoptedReferences d rs adopts)))
      else return .nothing
    | none =>
      let sets := activeSets d all
      if d["spec"]["paused"] = .bool true then return .nothing
      else
        match ← current d sets with
        | some new => rollOut d sets new pods live desired minimum
        | none =>
          if live then return .create (← newSet digest d sets minimum) else return .nothing

end Hedronetes.Controllers.Deployments
