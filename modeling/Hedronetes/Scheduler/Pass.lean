import Hedronetes.Controllers.ReplicaSet
import Hedronetes.Scheduler.Placement

/-!
# A pass of the scheduler

A pass lists the nodes, their leases and the Pods once. It takes the Pods that wait one after the
other, binds each to the node that is selected for it, and reckons with what it has bound before.
Requests of others may be served in between.
-/

namespace Hedronetes.Scheduler

open Server Apply Interleaving StableSort
open Controllers (Client pods)

/-- Why a pass ends early. -/
inductive Halt where
  | api (stop : Stop)
  | json
  | snapshot
  deriving DecidableEq

abbrev Pass := Program Registry Purpose Call Reply Halt

/-- What is read off the clock and drawn for one Pod. -/
structure Moment where
  now : ℤ
  /-- The time as it is written in a condition. -/
  written : String
  binding : Fresh
  status : Fresh

/-- The most objects of a LIST. -/
def complete : ℕ := 4096

def nodesPath : String := "/registry/nodes/"

def leasesPath : String := "/registry/leases/kube-node-lease/"

def podsPath : String := "/registry/pods/"

def isCode (code : ℕ) : Stop → Bool
  | .failure n _ _ => n = code
  | _ => false

namespace Pass

def ofOutcome {α : Type} (x : Outcome α) : Pass α := .lift (x.mapError .api)

/-- What the server answers from the registry as it is now. -/
def ask {α : Type} (f : Registry → Outcome α) : Pass α :=
  .reading .object fun reg => (f reg).mapError .api

def list (path : String) : Pass (List Json) :=
  ask fun reg => (reg.list path).mapM fun e => object e.2

variable {lib : Libraries} (client : Client lib)

/-- A request and its answer. -/
@[irreducible] def send (fresh : Fresh) (target : Target) (verb : String) (value : Json) :
    Pass (Except Stop Response) :=
  (Handler.execute lib fresh ⟨client.user, target, verb⟩ ⟨[], []⟩ (client.body value)).attempt

/-- An object that is gone or has changed is left alone. -/
def sendOrSkip (fresh : Fresh) (target : Target) (verb : String) (value : Json) : Pass Bool := do
  match ← send client fresh target verb value with
  | .ok _ => return true
  | .error stop => if isCode 404 stop || isCode 409 stop then return false else .fail (.api stop)

end Pass

/-- The nodes, their leases and the Pods, as long as there are not too many. -/
def snapshot : Pass (List Json × List Json × List Json) := do
  let nodes ← Pass.list nodesPath
  let leases ← Pass.list leasesPath
  let objects ← Pass.list podsPath
  if complete < nodes.length ∨ complete < leases.length ∨ complete < objects.length then
    .fail .snapshot
  else return (nodes, leases, objects)

/-- The higher priority first, then the older, then the lesser uid. -/
def order (p : Json) : ℤᵒᵈ ×ₗ String ×ₗ String :=
  toLex (OrderDual.toDual (p["spec"]["priority"].asInt.getD 0),
    toLex (p["metadata"]["creationTimestamp"].asString.getD "",
      p["metadata"]["uid"].asString.getD ""))

/-- The places of the Pods that wait for a node. -/
def candidates (objects : List Json) : List ℕ :=
  sortBy (fun i => order (objects.getD i .null))
    ((List.range objects.length).filter fun i => pending (objects.getD i .null))

/-! ## Conditions -/

def scheduledMessage (scheduled : Bool) : String :=
  if scheduled then "bound by native h3s scheduler"
  else "no placement satisfying the supported scheduling constraints is available"

/-- The conditions of a Pod with the scheduler's own replaced, unless it is there already. -/
def conditions (old : List Json) (scheduled : Bool) (reason written : String) :
    Option (List Json) :=
  let status := if scheduled then "True" else "False"
  let ours := fun v : Json => v["type"] = .string "PodScheduled" && v["status"] = .string status
  if old.any fun v => ours v && v["reason"] = .string reason then none
  else
    let since := (old.find? ours).bind fun v => v["lastTransitionTime"].asString
    some (old.filter (fun v => v["type"] ≠ .string "PodScheduled") ++ [.ofPairs
      [("type", .string "PodScheduled"), ("status", .string status), ("reason", .string reason),
        ("message", .string (scheduledMessage scheduled)),
        ("lastTransitionTime", .string (since.getD written))]])

/-- `name_any`. -/
def nameAny (v : Json) : String :=
  (v["metadata"]["name"].asString.or v["metadata"]["generateName"].asString).getD ""

/-- A member that is a text or missing. -/
def optionalText (key : String) : Json → Except Halt (List (String × Json))
  | .null => .ok []
  | .string s => .ok [(key, .string s)]
  | _ => .error .json

section

variable {lib : Libraries} (client : Client lib) (rfc3339 : String → Option ℤ) (moment : ℕ → Moment)

/-- Says on a Pod whether it has a node, in the version that was read. -/
@[irreducible] def condition (m : Moment) (ns : String) (pod : Json) (scheduled : Bool)
    (reason : String) : Pass Unit :=
  match conditions pod["status"]["conditions"].items scheduled reason m.written with
  | none => return ()
  | some conditions => do
    let next ← Pass.ofOutcome (setAt pod ["status", "conditions"] (.array conditions))
    let _ ← Pass.sendOrSkip client m.status ⟨pods, some ns, some (nameAny next), some "status"⟩
      "update" next
    return ()

/-- What names the Pod in its version, and its node. -/
def bindingOf (pod : Json) (ns name node : String) : Except Halt Json := do
  let uid ← optionalText "uid" pod["metadata"]["uid"]
  let version ← optionalText "resourceVersion" pod["metadata"]["resourceVersion"]
  return .ofPairs [("apiVersion", .string "v1"), ("kind", .string "Binding"),
    ("metadata", .ofPairs ([("name", .string name), ("namespace", .string ns)] ++ uid ++ version)),
    ("target", .ofPairs
      [("apiVersion", .string "v1"), ("kind", .string "Node"), ("name", .string node)])]

/-- A Pod that was bound is told so, unless it is another one by now. -/
@[irreducible] def announce (m : Moment) (ns name : String) (pod : Json) : Pass Unit := do
  match ← Pass.ask (getObject ((⟨pods, some ns, some name, none⟩ : Target).pathPrefix ++ name)) with
  | none => return ()
  | some current =>
    if current["metadata"]["uid"].asString = pod["metadata"]["uid"].asString then
      condition client m ns current true "Scheduled"
    else return ()

/-- Binds the Pod at a place, or tells it why not. What was bound is reckoned with from then on. -/
def consider (nodes leases : List Json) (state : List Json × ℕ) (index : ℕ) :
    Pass (List Json × ℕ) := do
  let (objects, bound) := state
  let pod := objects.getD index .null
  let m := moment index
  match pod["metadata"]["namespace"], pod["metadata"]["name"] with
  | .string ns, .string name =>
    match select rfc3339 pod nodes objects leases m.now with
    | .error reason => do
      condition client m ns pod false reason.text
      return (objects, bound)
    | .ok node => do
      let binding ← bindingOf pod ns name node
      let sent ← Pass.sendOrSkip client m.binding ⟨pods, some ns, some name, some "binding"⟩
        "create" binding
      if sent then
        let placed ← Pass.ofOutcome (setAt pod ["spec", "nodeName"] (.string node))
        announce client m ns name pod
        return (objects.set index placed, bound + 1)
      else return (objects, bound)
  | _, _ => .fail .snapshot

/-- The number of Pods that were bound. -/
def reconcileOnce : Pass ℕ := do
  let (nodes, leases, objects) ← snapshot
  let (_, bound) ← (candidates objects).foldlM (consider client rfc3339 moment nodes leases)
    (objects, 0)
  return bound

end

end Hedronetes.Scheduler
