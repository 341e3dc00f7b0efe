import Hedronetes.Foundations.RangedSums
import Hedronetes.Scheduler.Placement

/-!
# Feasible nodes

What a node has to be for a Pod, said without the order in which it is checked: it is ready, the
Pod's constraints are met and the requests of all its Pods together stay within what it offers.
-/

namespace Hedronetes.Scheduler

open Server Api

/-! ## Selectors -/

/-- What an operator asks of the value of a label or a field. -/
inductive Meets : Option String → String → List String → Prop
  | among {v : String} {values : List String} : v ∈ values → Meets (some v) "In" values
  | notAmong {v : String} {values : List String} :
      values ≠ [] → v ∉ values → Meets (some v) "NotIn" values
  | missing {values : List String} : values ≠ [] → Meets none "NotIn" values
  | present {v : String} : Meets (some v) "Exists" []
  | absent : Meets none "DoesNotExist" []
  | above {v bound : String} {a b : ℤ} :
      parseI64 v = some a → parseI64 bound = some b → b < a → Meets (some v) "Gt" [bound]
  | below {v bound : String} {a b : ℤ} :
      parseI64 v = some a → parseI64 bound = some b → a < b → Meets (some v) "Lt" [bound]

/-- The value meets the requirement. -/
def Required (r : Json) (value : Option String) : Prop :=
  ∃ operator, r["operator"] = .string operator ∧ Meets value operator (texts r["values"])

/-- All requirements of a term, of which there is at least one. -/
structure Satisfied (t n : Json) : Prop where
  some : t["matchExpressions"].items ≠ [] ∨ t["matchFields"].items ≠ []
  labels : ∀ r ∈ t["matchExpressions"].items, ∃ k, r["key"] = .string k ∧
    Required r n["metadata"]["labels"][k].asString
  fields : ∀ r ∈ t["matchFields"].items, r["key"] = .string "metadata.name" ∧
    Required r n["metadata"]["name"].asString

/-- One of the terms is enough. -/
def RequiredAffinity (p n : Json) : Prop :=
  (nodeAffinity p)["requiredDuringSchedulingIgnoredDuringExecution"] = .null ∨
    ∃ t ∈ (nodeAffinity p)["requiredDuringSchedulingIgnoredDuringExecution"]["nodeSelectorTerms"].items,
      Satisfied t n

/-! ## Taints -/

/-- A text, or what stands for a missing one. -/
def textOr (v : Json) (default : String) : String := v.asString.getD default

/-- The toleration is for the key of the taint. -/
inductive ForKey (v t : Json) : Prop
  | every : textOr v["operator"] "Equal" = "Exists" → textOr v["key"] "" = "" → ForKey v t
  | key : textOr v["operator"] "Equal" = "Exists" → v["key"] = t["key"] → ForKey v t
  | value : textOr v["operator"] "Equal" = "Equal" → textOr v["key"] "" ≠ "" →
      v["key"] = t["key"] → textOr v["value"] "" = textOr t["value"] "" → ForKey v t

def Tolerated (p t : Json) : Prop :=
  ∃ v ∈ p["spec"]["tolerations"].items,
    (textOr v["effect"] "" = "" ∨ v["effect"] = t["effect"]) ∧ ForKey v t

/-! ## Readiness -/

variable (rfc3339 : String → Option ℤ)

/-- The node's own lease has been renewed within its duration. -/
structure Leased (n : Json) (now : ℤ) (l : Json) : Prop where
  name : l["metadata"]["name"] = n["metadata"]["name"]
  holder : l["spec"]["holderIdentity"] = n["metadata"]["name"]
  owner : ∃ o ∈ l["metadata"]["ownerReferences"].items, o["kind"] = .string "Node" ∧
    o["apiVersion"] = .string "v1" ∧ o["uid"] = n["metadata"]["uid"]
  renewed : ∃ text time duration, l["spec"]["renewTime"] = .string text ∧
    rfc3339 text = some time ∧ l["spec"]["leaseDurationSeconds"].asInt = some duration ∧
    0 < duration ∧ 0 ≤ (now - time).tdiv 1000000 ∧
    (now - time).tdiv 1000000 ≤ min duration 40 * 1000

structure Ready (n : Json) (leases : List Json) (now : ℤ) : Prop where
  kept : n["metadata"]["deletionTimestamp"] = .null
  schedulable : n["spec"]["unschedulable"] ≠ .bool true
  ready : ∃ condition ∈ n["status"]["conditions"].items,
    condition["type"] = .string "Ready" ∧ condition["status"] = .string "True"
  healthy : ∀ condition ∈ n["status"]["conditions"].items, ∀ kind ∈ pressures,
    condition["type"] = .string kind → condition["status"] = .string "False"
  leased : ∃ l ∈ leases, Leased rfc3339 n now l

/-! ## Resources -/

namespace Resources

instance : Zero Resources := ⟨⟨0, 0, 0⟩⟩

instance : Add Resources := ⟨fun r s => ⟨r.cpu + s.cpu, r.memory + s.memory, r.pods + s.pods⟩⟩

@[simp] theorem zero_cpu : (0 : Resources).cpu = 0 := rfl
@[simp] theorem zero_memory : (0 : Resources).memory = 0 := rfl
@[simp] theorem zero_pods : (0 : Resources).pods = 0 := rfl
@[simp] theorem add_cpu (r s : Resources) : (r + s).cpu = r.cpu + s.cpu := rfl
@[simp] theorem add_memory (r s : Resources) : (r + s).memory = r.memory + s.memory := rfl
@[simp] theorem add_pods (r s : Resources) : (r + s).pods = r.pods + s.pods := rfl

@[ext] theorem ext {r s : Resources} (hcpu : r.cpu = s.cpu) (hmemory : r.memory = s.memory)
    (hpods : r.pods = s.pods) : r = s := by
  cases r
  cases s
  simp_all

instance : AddCommMonoid Resources where
  add_assoc r s t := by ext <;> simp [add_assoc]
  zero_add r := by ext <;> simp
  add_zero r := by ext <;> simp
  add_comm r s := by ext <;> simp [add_comm]
  nsmul := nsmulRec

/-- No part is more. -/
instance : LE Resources := ⟨fun r s => r.cpu ≤ s.cpu ∧ r.memory ≤ s.memory ∧ r.pods ≤ s.pods⟩

/-- What an `i64` holds of each part. -/
def InRange (r : Resources) : Prop :=
  (-2 ^ 63 ≤ r.cpu ∧ r.cpu < 2 ^ 63) ∧ (-2 ^ 63 ≤ r.memory ∧ r.memory < 2 ^ 63) ∧
    -2 ^ 63 ≤ r.pods ∧ r.pods < 2 ^ 63

instance : DecidablePred InRange := fun r => by unfold InRange; infer_instance

end Resources

/-- The thousandths of a CPU that a text stands for, rounded up. -/
def MilliCpu (s : String) (n : ℤ) : Prop :=
  ∃ q, Quantity.parse s = some q ∧ Quantity.suffix s.toList ∈ Quantity.cpuSuffixes ∧
    n = ⌈q.value * 1000⌉ ∧ n < 2 ^ 63

/-- The bytes that a text stands for, rounded up. -/
def Bytes (s : String) (n : ℤ) : Prop :=
  ∃ q, Quantity.parse s = some q ∧ Quantity.suffix s.toList ∈ Quantity.byteSuffixes ∧
    n = ⌈q.value⌉ ∧ n < 2 ^ 63

/-- What is asked for: the request, which stays within the limit; the limit, if there is no
request; and nothing, if there is neither. -/
inductive Asks (amount : String → ℤ → Prop) (r : Json) (key : String) : ℤ → Prop
  | request {s : String} {n : ℤ} : r["requests"][key] = .string s → amount s n →
      r["limits"][key].asString = none → Asks amount r key n
  | limited {s t : String} {n limit : ℤ} : r["requests"][key] = .string s → amount s n →
      r["limits"][key] = .string t → amount t limit → n ≤ limit → Asks amount r key n
  | limit {t : String} {n : ℤ} : r["requests"][key].asString = none →
      r["limits"][key] = .string t → amount t n → Asks amount r key n
  | nothing : r["requests"][key].asString = none → r["limits"][key].asString = none →
      Asks amount r key 0

/-- No other members than the CPU and the memory. -/
def Known (v : Json) : Prop :=
  ∀ members, v.asObject = some members → ∀ e ∈ members, e.1 = "cpu" ∨ e.1 = "memory"

structure ContainerTakes (ctr : Json) (r : Resources) : Prop where
  requests : Known ctr["resources"]["requests"]
  limits : Known ctr["resources"]["limits"]
  cpu : Asks MilliCpu ctr["resources"] "cpu" r.cpu
  memory : Asks Bytes ctr["resources"] "memory" r.memory
  pods : r.pods = 0

/-- An amount that may be missing. -/
def Amount (amount : String → ℤ → Prop) (v : Json) (n : ℤ) : Prop :=
  (∃ s, v = .string s ∧ amount s n) ∨ v.asString = none ∧ n = 0

structure OverheadTakes (v : Json) (r : Resources) : Prop where
  known : Known v
  cpu : Amount MilliCpu v["cpu"] r.cpu
  memory : Amount Bytes v["memory"] r.memory
  pods : r.pods = 0

/-- Nothing is there that would take resources in another way. -/
structure Plain (p : Json) : Prop where
  init : populated p["spec"]["initContainers"] = false
  resources : populated p["spec"]["resources"] = false
  claims : populated p["spec"]["resourceClaims"] = false

/-- The effective requests of a Pod: those of its containers and its overhead, and one Pod. -/
def Takes (p : Json) (r : Resources) : Prop :=
  Plain p ∧ ∃ containers, p["spec"]["containers"] = .array containers ∧ containers ≠ [] ∧
    ∃ rs overhead, List.Forall₂ ContainerTakes containers rs ∧
      OverheadTakes p["spec"]["overhead"] overhead ∧
      r = ⟨0, 0, 1⟩ + rs.sum + overhead ∧ r.InRange

/-- What a node offers to Pods. -/
structure Offers (n : Json) (r : Resources) : Prop where
  cpu : ∃ s, n["status"]["allocatable"]["cpu"] = .string s ∧ MilliCpu s r.cpu
  memory : ∃ s, n["status"]["allocatable"]["memory"] = .string s ∧ Bytes s r.memory
  pods : ∃ s, n["status"]["allocatable"]["pods"] = .string s ∧ parseI64 s = some r.pods
  positive : 0 < r.pods

/-- The requests of the Pods of a node, and one more, stay within what it offers. -/
def Fits (n : Json) (name : String) (pods : List Json) (request : Resources) : Prop :=
  ∃ offer rs, Offers n offer ∧ List.Forall₂ Takes (assigned name pods) rs ∧
    rs.sum + request ≤ offer

/-! ## Feasibility -/

/-- The Pod may go to the node of this name. -/
structure Feasible (p n : Json) (name : String) (pods leases : List Json) (now : ℤ)
    (request : Resources) : Prop where
  named : n["metadata"]["name"] = .string name ∧ name ≠ ""
  ready : Ready rfc3339 n leases now
  selected : ∀ members, p["spec"]["nodeSelector"].asObject = some members →
    ∀ e ∈ members, n["metadata"]["labels"][e.1] = e.2
  affinity : RequiredAffinity p n
  tolerated : ∀ t ∈ taints n, ∀ effect ∈ ["NoSchedule", "NoExecute"],
    t["effect"] = .string effect → Tolerated p t
  fits : Fits n name pods request

/-- Every preference has a weight from 1 to 100. -/
def Weighed (p : Json) : Prop :=
  ∀ pref ∈ preferences p, ∃ w, pref["weight"] = .number (.int w) ∧ 1 ≤ w ∧ w ≤ 100

def weightOf (pref : Json) : ℤ := pref["weight"].asInt.getD 0

end Hedronetes.Scheduler
