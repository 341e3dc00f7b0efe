import Hedronetes.Server.Registry

/-!
# Resources and request targets

The static table of served resources, the names each accepts, and the target a
request path addresses: a resource, possibly a namespace, a name and a
subresource. The verb follows from the method and the target.
-/

namespace Hedronetes.Server

open Apply
open Storage (StoreKey startsWith)

/-! ## Text -/

def splitOn (separator : Char) (s : String) : List String :=
  (s.toList.splitOn separator).map String.ofList

def stripStart (start s : String) : Option String :=
  (start.toList.isPrefixOf? s.toList).map String.ofList

def stripEnd (tail s : String) : Option String :=
  (tail.toList.isSuffixOf? s.toList).map String.ofList

theorem isPrefixOf?_eq_some {start l rest : List Char} :
    start.isPrefixOf? l = some rest ↔ l = start ++ rest := by
  induction start generalizing l with
  | nil => simp [List.isPrefixOf?, eq_comm]
  | cons c start ih =>
    cases l with
    | nil => simp [List.isPrefixOf?]
    | cons d l =>
      by_cases h : c = d
      · simp [List.isPrefixOf?, h, ih]
      · simp [List.isPrefixOf?, h, Ne.symm h]

theorem stripStart_eq_some {start s rest : String} :
    stripStart start s = some rest ↔ s = start ++ rest := by
  rw [stripStart, Option.map_eq_some_iff]
  constructor
  · rintro ⟨r, hr, rfl⟩
    apply String.toList_inj.mp
    rw [String.toList_append, String.toList_ofList, isPrefixOf?_eq_some.mp hr]
  · rintro rfl
    refine ⟨rest.toList, isPrefixOf?_eq_some.mpr ?_, String.ofList_toList⟩
    rw [String.toList_append]

/-! ## The table -/

structure Resource where
  group : String
  version : String
  plural : String
  kind : String
  namespaced : Bool
  deriving DecidableEq

def resources : List Resource :=
  [⟨"", "v1", "namespaces", "Namespace", false⟩,
    ⟨"", "v1", "configmaps", "ConfigMap", true⟩,
    ⟨"", "v1", "secrets", "Secret", true⟩,
    ⟨"", "v1", "pods", "Pod", true⟩,
    ⟨"", "v1", "nodes", "Node", false⟩,
    ⟨"", "v1", "services", "Service", true⟩,
    ⟨"", "v1", "serviceaccounts", "ServiceAccount", true⟩,
    ⟨"apps", "v1", "deployments", "Deployment", true⟩,
    ⟨"apps", "v1", "replicasets", "ReplicaSet", true⟩,
    ⟨"discovery.k8s.io", "v1", "endpointslices", "EndpointSlice", true⟩,
    ⟨"coordination.k8s.io", "v1", "leases", "Lease", true⟩,
    ⟨"rbac.authorization.k8s.io", "v1", "roles", "Role", true⟩,
    ⟨"rbac.authorization.k8s.io", "v1", "rolebindings", "RoleBinding", true⟩,
    ⟨"rbac.authorization.k8s.io", "v1", "clusterroles", "ClusterRole", false⟩,
    ⟨"rbac.authorization.k8s.io", "v1", "clusterrolebindings", "ClusterRoleBinding", false⟩,
    ⟨"", "v1", "persistentvolumes", "PersistentVolume", false⟩,
    ⟨"", "v1", "persistentvolumeclaims", "PersistentVolumeClaim", true⟩,
    ⟨"storage.k8s.io", "v1", "storageclasses", "StorageClass", false⟩,
    ⟨"networking.k8s.io", "v1", "ingresses", "Ingress", true⟩]

def validLabelName (name : String) : Bool :=
  name ≠ "" && decide (name.toList.length ≤ 63) &&
    name.toList.all (fun c => c.isLower || c.isDigit || c = '-') &&
    name.toList.head?.any Char.isAlphanum && name.toList.getLast?.any Char.isAlphanum

def validName (name : String) : Bool :=
  name ≠ "" && decide (name.toList.length ≤ 253) && (splitOn '.' name).all validLabelName

namespace Resource

def validName (resource : Resource) (name : String) : Bool :=
  if resource.group = "rbac.authorization.k8s.io" then
    name ≠ "" && decide (name.toList.length ≤ 253) && name ≠ "." && name ≠ ".." &&
      name.toList.all fun c => c.isAlphanum || c ∈ ['-', '.', '_', ':']
  else if resource.kind = "Service" ∨ resource.kind = "Namespace" then validLabelName name
  else Server.validName name

def hasStatus (resource : Resource) : Bool :=
  resource.kind ∈ ["Pod", "Node", "Service", "Namespace", "Deployment", "ReplicaSet",
    "PersistentVolumeClaim", "Ingress"]

def hasGeneration (resource : Resource) : Bool :=
  resource.kind ∈ ["Pod", "Deployment", "ReplicaSet"]

def apiVersion (resource : Resource) : String :=
  if resource.group = "" then resource.version else resource.group ++ "/" ++ resource.version

end Resource

/-! ## Targets -/

structure Target where
  resource : Resource
  ns : Option String
  name : Option String
  subresource : Option String
  deriving DecidableEq

/-- Which kinds serve a subresource. -/
def servesSubresource (resource : Resource) : String → Bool
  | "status" => resource.hasStatus
  | "binding" => resource.kind = "Pod"
  | "log" => resource.kind = "Pod"
  | "exec" => resource.kind = "Pod"
  | "token" => resource.kind = "ServiceAccount"
  | _ => false

namespace Target

/-- Group, version and the rest of the segments of a path. -/
def splitVersion : List String → Option (String × String × List String)
  | "api" :: version :: tail => some ("", version, tail)
  | "apis" :: group :: version :: tail => some (group, version, tail)
  | _ => none

/-- Namespace, plural and name. -/
def splitTail : List String → Option (Option String × String × Option String)
  | ["namespaces", ns, plural] => some (some ns, plural, none)
  | ["namespaces", ns, plural, name] => some (some ns, plural, some name)
  | [plural] => some (none, plural, none)
  | [plural, name] => some (none, plural, some name)
  | _ => none

def parseResource (path : String) (subresource : Option String) : Option Target := do
  let path ← stripStart "/" path
  let (group, version, tail) ← splitVersion (splitOn '/' path)
  let (ns, plural, name) ← splitTail tail
  let resource ← resources.find? fun r =>
    r.group = group ∧ r.version = version ∧ r.plural = plural
  if ns.isSome && !resource.namespaced then none
  else if name.any (fun n => !resource.validName n) || ns.any (fun n => !validLabelName n)
  then none
  else if subresource.any fun s => name.isNone || !servesSubresource resource s then none
  else some { resource, ns, name, subresource }

def parse (path : String) : Option Target :=
  (none :: ["status", "binding", "log", "exec", "token"].map some).findSome? fun subresource =>
    match subresource with
    | none => parseResource path none
    | some s => (stripEnd ("/" ++ s) path).bind fun path => parseResource path (some s)

/-- `/registry/{plural}/{namespace}/` or `/registry/{plural}/`. -/
def pathPrefix (target : Target) : String :=
  match target.ns with
  | some ns => "/registry/" ++ target.resource.plural ++ "/" ++ ns ++ "/"
  | none => "/registry/" ++ target.resource.plural ++ "/"

/-- What every parsed target satisfies. -/
structure Valid (target : Target) : Prop where
  served : target.resource ∈ resources
  namespaced : target.ns.isSome → target.resource.namespaced = true
  name : ∀ n, target.name = some n → target.resource.validName n = true
  ns : ∀ n, target.ns = some n → validLabelName n = true
  subresource : ∀ s, target.subresource = some s →
    target.name.isSome ∧ servesSubresource target.resource s = true

end Target

/-- Registry key of the object a named request addresses. -/
def named (target : Target) : Outcome StoreKey :=
  match target.name with
  | some name => key (target.pathPrefix ++ name)
  | none => .error (.panic "named target")

/-! ## Parsed targets and their keys -/

theorem find?_resource {p : Resource → Bool} {r : Resource} (h : resources.find? p = some r) :
    r ∈ resources := List.mem_of_find?_eq_some h

theorem Target.parseResource_ok {path : String} {subresource : Option String} {t : Target}
    (h : parseResource path subresource = some t) : t.Valid := by
  unfold parseResource at h
  simp only [Option.bind_eq_bind, Option.bind_eq_some_iff, Prod.exists] at h
  obtain ⟨_, _, group, version, tail, _, ns, plural, name, _, resource, hresource, h⟩ := h
  split_ifs at h with hns hname hsub
  cases h
  simp only [Bool.and_eq_true, Bool.not_eq_true', not_and, Bool.not_eq_false] at hns
  simp only [Bool.or_eq_true, Option.any_eq_true, Bool.not_eq_true', not_or, not_exists, not_and,
    Bool.not_eq_false] at hname
  refine ⟨List.mem_of_find?_eq_some hresource, hns, hname.1, hname.2, ?_⟩
  rintro s rfl
  simpa [Option.isSome_iff_ne_none] using hsub

theorem Target.parse_ok {path : String} {t : Target} (h : parse path = some t) : t.Valid := by
  obtain ⟨subresource, _, h⟩ := List.exists_of_findSome?_eq_some h
  cases subresource with
  | none => exact parseResource_ok h
  | some s =>
    obtain ⟨_, _, h⟩ := Option.bind_eq_some_iff.mp h
    exact parseResource_ok h

theorem key_ok {value : String} {k : StoreKey} : key value = .ok k ↔ k.value = value := by
  unfold key StoreKey.new
  split_ifs with h
  · constructor
    · intro hk
      cases hk
      rfl
    · rintro rfl
      rfl
  · constructor
    · intro hk
      cases hk
    · rintro rfl
      exact absurd k.valid h

theorem named_ok {target : Target} {k : StoreKey} : named target = .ok k ↔
    ∃ name, target.name = some name ∧ k.value = target.pathPrefix ++ name := by
  unfold named
  cases target.name with
  | none => simp
  | some name => simp [key_ok]

/-- Two texts up to the first separator, and what follows it, are determined. -/
theorem append_slash_inj {a b x y : String} (ha : '/' ∉ a.toList) (hb : '/' ∉ b.toList)
    (h : a ++ "/" ++ x = b ++ "/" ++ y) : a = b ∧ x = y := by
  have hlists := congrArg String.toList h
  simp only [String.toList_append, List.append_assoc] at hlists
  obtain ⟨hab, hxy⟩ := FirstMatch.split_inj ha hb hlists
  exact ⟨String.toList_inj.mp hab, String.toList_inj.mp hxy⟩

theorem slash_notMem_of_validLabelName {n : String} (h : validLabelName n = true) :
    '/' ∉ n.toList := by
  intro hm
  simp only [validLabelName, Bool.and_eq_true, List.all_eq_true] at h
  have := h.1.1.2 '/' hm
  revert this
  decide

theorem slash_notMem_plural {r : Resource} (h : r ∈ resources) : '/' ∉ r.plural.toList := by
  have hall : ∀ r ∈ resources, '/' ∉ r.plural.toList := by decide +kernel
  exact hall r h

/-- No two served resources share a plural. -/
theorem plural_inj {r s : Resource} (hr : r ∈ resources) (hs : s ∈ resources)
    (h : r.plural = s.plural) : r = s := by
  have hall : ∀ r ∈ resources, ∀ s ∈ resources, r.plural = s.plural → r = s := by decide +kernel
  exact hall r hr s hs h

/-! ## Verbs -/

/-- The verb of a method on a target, checked against what each subresource supports. -/
def verb (method : String) (target : Target) (watch : Bool) : Outcome String := do
  let verb ←
    if target.subresource = some "exec" ∧ (method = "GET" ∨ method = "POST") ∧
        target.name.isSome ∧ !watch then pure "create"
    else
      match method, target.name.isSome, watch with
      | "GET", _, true => pure "watch"
      | "GET", true, _ => pure "get"
      | "GET", false, _ => pure "list"
      | "POST", named, _ =>
        if !named ∨ target.subresource = some "binding" then pure "create"
        else throw (failure 405 "MethodNotAllowed" "verb is not implemented for this resource")
      | "PUT", true, _ => pure "update"
      | "PATCH", true, _ => pure "patch"
      | "DELETE", true, _ => pure "delete"
      | _, _, _ =>
        throw (failure 405 "MethodNotAllowed" "verb is not implemented for this resource")
  let (supported, message) :=
    match target.subresource with
    | some "status" =>
      (decide (verb ∈ ["get", "update", "patch"]), "status supports get, update and patch")
    | some "binding" => (decide (verb = "create"), "binding supports create")
    | some "log" => (decide (verb = "get"), "log supports get")
    | some "exec" => (decide (verb = "create"), "exec supports create")
    | _ => (true, "")
  if supported then return verb else throw (failure 405 "MethodNotAllowed" message)

end Hedronetes.Server
