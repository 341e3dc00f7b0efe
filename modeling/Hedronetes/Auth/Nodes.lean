import Hedronetes.Auth.Rbac

/-!
# Node permissions

What a node may ask for without any role, given whether a Pod assigned to it
relates it to the object, and the labels it may set on its own Node.
-/

namespace Hedronetes.Auth

/-- `related`: an assigned Pod, or a reference from one, was verified.
`selectedNode`: the exact `spec.nodeName` the request selects. -/
def nodeAllows (user : User) (request : ResourceRequest) (selectedNode : Option String)
    (related : Bool) : Bool :=
  match user.nodeName with
  | none => false
  | some node =>
    let read := decide (request.verb ∈ ["get", "list", "watch"])
    match request.group, request.resource, request.subresource with
    | "", "nodes", none => read && request.name = some node ||
        decide (request.verb ∈ ["create", "update", "patch"])
    | "", "nodes", some "status" => decide (request.verb ∈ ["update", "patch"])
    | "", "pods", some "status" => decide (request.verb ∈ ["update", "patch"])
    | "", "pods", none =>
      match request.verb with
      | "get" => related
      | "list" => selectedNode = some node || related
      | "watch" => selectedNode = some node || related
      -- admission checks the assignment again
      | "delete" => related
      | _ => false
    | "", "configmaps", none => read && related
    | "", "secrets", none => read && related
    | "", "services", none => read
    | "discovery.k8s.io", "endpointslices", none => read
    | "coordination.k8s.io", "leases", none => request.ns = some "kube-node-lease" &&
        (request.verb = "create" || request.name = some node &&
          decide (request.verb ∈ ["get", "update", "patch", "delete"]))
    | _, _, _ => false

/-- The text before and after the first separator. -/
def splitOnce (separator : Char) (s : String) : Option (String × String) :=
  if separator ∈ s.toList then
    some (String.ofList (s.toList.takeWhile (· ≠ separator)),
      String.ofList ((s.toList.dropWhile (· ≠ separator)).drop 1))
  else none

/-- The domain is one of these or below one. -/
def inDomains (domains : List String) (domain : String) : Bool :=
  domains.any fun d => domain = d ||
    (d.toList.isSuffixOf? domain.toList).any fun start => start.getLast? = some '.'

/-- Label namespaces of the kubelet and the well-known exceptions. -/
def nodeLabelAllowed (key : String) : Bool :=
  match splitOnce '/' key with
  | none => true
  | some (domain, _) =>
    if inDomains ["node-restriction.kubernetes.io"] domain then false
    else if inDomains ["kubelet.kubernetes.io", "node.kubernetes.io"] domain then true
    else if key ∈ ["kubernetes.io/hostname", "kubernetes.io/arch", "kubernetes.io/os",
      "beta.kubernetes.io/arch", "beta.kubernetes.io/os", "beta.kubernetes.io/instance-type",
      "node.kubernetes.io/instance-type", "failure-domain.beta.kubernetes.io/zone",
      "failure-domain.beta.kubernetes.io/region", "topology.kubernetes.io/zone",
      "topology.kubernetes.io/region"] then true
    else !inDomains ["kubernetes.io", "k8s.io"] domain

end Hedronetes.Auth
