import Hedronetes.Auth.Nodes
import Hedronetes.Server.Libraries

/-!
# Nodes and what they are related to

A node is related to the Pods assigned to it and to the Secrets and ConfigMaps
these refer to in their typed fields. Its writes are held to its own Node, its own
Lease and the status of its own Pods.
-/

namespace Hedronetes.Server

open Apply Auth
open Storage (StoreKey)

def assigned (pod : Json) (node : String) : Bool :=
  pod["spec"]["nodeName"].asString = some node

/-- Both empty, or equal. -/
def equivalent (a b : Json) : Bool :=
  let empty := fun v : Json => v.isNull || v = .array [] || v = .string ""
  a = b || empty a && empty b

/-- Resolve only typed references: a name in arbitrary JSON grants nothing. -/
def references (pod : Json) (resource name : String) : Bool :=
  let spec := pod["spec"]
  let secret := decide (resource = "secrets")
  let source := if secret then "secret" else "configMap"
  let field := if secret then "secretName" else "name"
  let keyRef := if secret then "secretKeyRef" else "configMapKeyRef"
  let envSource := if secret then "secretRef" else "configMapRef"
  secret && spec["imagePullSecrets"].items.any (fun v => v["name"] = .string name) ||
    spec["volumes"].items.any (fun volume =>
      volume[source][field] = .string name ||
        volume["projected"]["sources"].items.any (fun v => v[source]["name"] = .string name) ||
          secret && volume["csi"]["nodePublishSecretRef"]["name"] = .string name) ||
    ["containers", "initContainers", "ephemeralContainers"].any fun group =>
      spec[group].items.any fun container =>
        container["env"].items.any (fun v => v["valueFrom"][keyRef]["name"] = .string name) ||
          container["envFrom"].items.any fun v => v[envSource]["name"] = .string name

/-- The first Pod that relates the node to the object ends the scan. -/
def anyRelated (node resource name : String) : List (StoreKey × Stored) → Outcome Bool
  | [] => .ok false
  | e :: rest => do
    let pod ← object e.2
    if assigned pod node && references pod resource name then .ok true
    else anyRelated node resource name rest

def related (reg : Registry) (node : String) (target : Target) (name : Option String) :
    Outcome Bool :=
  match target.ns, name with
  | some ns, some name =>
    if target.resource.group ≠ "" then .ok false
    else if target.resource.plural = "pods" then do
      match reg.get (← key ("/registry/pods/" ++ ns ++ "/" ++ name)) with
      | none => .ok false
      | some stored => do
        let pod ← object stored
        .ok (assigned pod node)
    else if target.resource.plural = "secrets" ∨ target.resource.plural = "configmaps" then
      anyRelated node target.resource.plural name (reg.list ("/registry/pods/" ++ ns ++ "/"))
    else .ok false
  | _, _ => .ok false

/-- Rechecked before each item of a stream: a revoked relationship ends it. -/
structure ReadGuard where
  node : String
  target : Target
  name : String
  deriving DecidableEq

def ReadGuard.check (guard : ReadGuard) (reg : Registry) : Outcome Unit := do
  if ← related reg guard.node guard.target (some guard.name) then .ok ()
  else .error (forbidden "node no longer has a Pod relationship to this object")

/-! ## Admission of node writes -/

/-- The labels either object has. -/
def labelKeys (value old : Json) : List String :=
  ((value["metadata"]["labels"].asObject.getD []) ++
    (old["metadata"]["labels"].asObject.getD [])).map Prod.fst

def admitNode (node verb : String) (value old : Json) : Outcome Unit :=
  if value["metadata"]["name"] ≠ .string node ∨ verb = "delete" then
    .error (forbidden "a node may modify only its own Node and may not delete it")
  else if ["podCIDR", "podCIDRs", "configSource"].any fun field =>
      !equivalent value["spec"][field] old["spec"][field] then
    .error (forbidden "node network allocation and configSource are administrator-managed")
  else if verb ≠ "create" ∧ !equivalent value["spec"]["taints"] old["spec"]["taints"] then
    .error (forbidden "nodes may not modify their taints")
  else if ["ownerReferences", "finalizers", "deletionTimestamp",
      "deletionGracePeriodSeconds"].any fun field =>
      !equivalent value["metadata"][field] old["metadata"][field] then
    .error (forbidden "nodes may not alter Node ownership or deletion metadata")
  else if (labelKeys value old).any fun label =>
      value["metadata"]["labels"][label] ≠ old["metadata"]["labels"][label] &&
        !nodeLabelAllowed label then
    .error (forbidden "nodes may not modify administrative Kubernetes labels")
  else .ok ()

def admitPod (node verb : String) (subresource : Option String) (value : Json) :
    Option Json → Outcome Unit
  | none => .error (forbidden "node mirror Pod creation is not implemented")
  | some old =>
    if !assigned old node then
      .error (forbidden "node may modify only Pods assigned to itself")
    else if verb = "delete" then .ok ()
    else if subresource ≠ some "status" then
      .error (forbidden "node Pod updates must use the status subresource")
    else if value["status"]["resourceClaimStatuses"] ≠ old["status"]["resourceClaimStatuses"] then
      .error (forbidden "node may not alter Pod resource claim allocation")
    else .ok ()

/-- Always run for node identities, including when RBAC granted the write. -/
def nodesAdmit (user : User) (target : Target) (verb : String) (value : Json)
    (old : Option Json) : Outcome Unit :=
  match user.nodeName with
  | none => .ok ()
  | some node =>
    match target.resource.group, target.resource.kind with
    | "", "Node" => admitNode node verb value (old.getD .null)
    | "", "Pod" => admitPod node verb target.subresource value old
    | "coordination.k8s.io", "Lease" =>
      if target.ns ≠ some "kube-node-lease" ∨ value["metadata"]["name"] ≠ .string node then
        .error (forbidden "node may modify only its named lease in kube-node-lease")
      else .ok ()
    | _, _ => .ok ()

end Hedronetes.Server
