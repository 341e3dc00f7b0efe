import Hedronetes.Controllers.Workload

/-!
# The rollout plan of a Deployment

A plan changes the replicas of one ReplicaSet at a time, and none before the ReplicaSets have
observed what was asked of them.
-/

namespace Hedronetes.Controllers

open Server

def observed (rs : Json) : Bool :=
  rs["status"]["observedGeneration"] = rs["metadata"]["generation"]

def count (rs : Json) (field : String) : ℤ := max (rs["status"][field].asInt.getD 0) 0

def digits (s : List Char) : Option ℕ :=
  if s ≠ [] ∧ s.all Char.isDigit then
    some (s.foldl (fun n c => 10 * n + (c.toNat - '0'.toNat)) 0)
  else none

/-- `str::parse::<i64>`. -/
def parseI64 (s : List Char) : Option ℤ :=
  match s with
  | '-' :: rest => (digits rest).bind fun n => if n ≤ 2 ^ 63 then some (-(n : ℤ)) else none
  | '+' :: rest => (digits rest).bind fun n => if n < 2 ^ 63 then some n else none
  | _ => (digits s).bind fun n => if n < 2 ^ 63 then some n else none

/-- A number of replicas, or a percentage of the desired ones. -/
def fraction (v : Json) (desired : ℤ) (ceil : Bool) : Result ℤ :=
  match v.asInt.filter fun n => 0 ≤ n with
  | some n => .ok n
  | none =>
    match ((v.asString.bind (stripEnd "%")).bind fun s => parseI64 s.toList).filter fun n => 0 ≤ n with
    | none => .error (.invalid "invalid rollout percentage")
    | some percent => do
      let product ← checked (desired * percent) "rollout percentage overflow"
      return product / 100 + if ceil ∧ product % 100 ≠ 0 then 1 else 0

/-- How many replicas a rollout may have above the desired ones, and how many may be missing. -/
def bounds (d : Json) : Result (ℤ × ℤ) := do
  let desired ← replicas d
  let update := d["spec"]["strategy"]["rollingUpdate"]
  let surge ← fraction update["maxSurge"] desired true
  let unavailable ← fraction update["maxUnavailable"] desired false
  let unavailable := min unavailable desired
  if desired > 0 ∧ surge = 0 ∧ unavailable = 0 then
    .error (.invalid "rollout requires nonzero maxSurge or maxUnavailable")
  else do
    let _ ← checked (desired + surge) "rollout capacity overflow"
    return (surge, unavailable)

/-- `sets[new]`. -/
def pick (sets : List Json) (new : ℕ) : Result Json :=
  match sets[new]? with
  | some r => .ok r
  | none => .error (.panic "index out of bounds")

/-- The sets with their places. -/
def places (sets : List Json) : List (Json × ℕ) := sets.zipIdx

/-- The `Recreate` strategy: the old sets stop before the new one starts. -/
def recreate (sets : List Json) (new : ℕ) (newDesired desired : ℤ) : Result (Option (ℕ × ℤ)) := do
  let running ← (places sets).findSomeM? fun (r, i) => do
    if i ≠ new then
      if 0 < (← replicas r) then return some (i, 0)
    return none
  match running with
  | some action => return some action
  | none =>
    if (places sets).any fun (r, i) => i ≠ new ∧ 0 < count r "replicas" then return none
    else return if newDesired ≠ desired then some (new, desired) else none

/-- An old set loses the replicas that are unavailable, and as many available ones as `excess`
allows. -/
def shrink (new : ℕ) (excess : ℤ) (place : Json × ℕ) : Result (Option (ℕ × ℤ)) := do
  if place.2 = new then return none
  let old ← replicas place.1
  let unhealthy := max (old - count place.1 "availableReplicas") 0
  let remove := min old (unhealthy + excess)
  return if 0 < remove then some (place.2, old - remove) else none

/-- The first old set with replicas to remove. -/
def scaleDown (sets : List Json) (new : ℕ) (excess : ℤ) : Result (Option (ℕ × ℤ)) :=
  (places sets).findSomeM? (shrink new excess)

/-- The `RollingUpdate` strategy. The reported counts are 32-bit numbers of a bounded list, so
their sum fits. -/
def roll (d : Json) (sets : List Json) (new : ℕ) (newDesired desired : ℤ) :
    Result (Option (ℕ × ℤ)) := do
  let (surge, unavailable) ← bounds d
  if newDesired > desired then return some (new, desired)
  let total ← sets.foldlM (fun sum r => do checked (sum + (← replicas r)) "replica sum overflow") 0
  if newDesired < desired ∧ total < desired + surge then
    return some (new, newDesired + min (desired - newDesired) (desired + surge - total))
  let available := (sets.map fun r => count r "availableReplicas").sum
  scaleDown sets new (max (available - (desired - unavailable)) 0)

/-- One change at a time: the place of a ReplicaSet, and the replicas it is to have. -/
def plan (d : Json) (sets : List Json) (new : ℕ) : Result (Option (ℕ × ℤ)) := do
  let desired ← replicas d
  if d["spec"]["paused"] = .bool true then return none
  if sets.any fun r => !observed r then return none
  let newDesired ← replicas (← pick sets new)
  if d["spec"]["strategy"]["type"] = .string "Recreate" then
    recreate sets new newDesired desired
  else roll d sets new newDesired desired

end Hedronetes.Controllers
