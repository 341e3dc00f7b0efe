import Hedronetes.Foundations.StableSort
import Hedronetes.Network.NodeAllocation
import Hedronetes.Server.Values

/-!
# What the service proxy plans

The frontends of the Services on one node, each with its backends, from complete lists of
Services, EndpointSlices and Nodes. The digest of a chain's identity is a parameter. Warnings
carry what their texts name.
-/

namespace Hedronetes.Proxy

open Network StableSort
open NodeCidrAllocations (dotted)

/-! ## Readings -/

/-- The typed Service forwarding policy. -/
inductive ServiceForwarding
  | clusterIp
  | nodePort
  | externalName
  | headless
  | loadBalancer
  | unsupportedType
  | unsupportedPolicy
  deriving DecidableEq

def ServiceForwarding.classify (spec : Json) : ServiceForwarding :=
  let kind := spec["type"].asString.getD "ClusterIP"
  if kind = "ExternalName" then .externalName
  else if spec["clusterIP"].asString = some "None" then
    if kind = "ClusterIP" then .headless else .unsupportedType
  else if kind ≠ "ClusterIP" ∧ kind ≠ "NodePort" ∧ kind ≠ "LoadBalancer" then .unsupportedType
  else if spec["sessionAffinity"].asString.any (· ≠ "None") ||
      spec["externalIPs"].asArray.any (· ≠ []) || spec["trafficDistribution"] ≠ .null ||
        spec["externalTrafficPolicy"].asString.any (· ≠ "Cluster") ||
          spec["healthCheckNodePort"].asInt.any (· ≠ 0) then .unsupportedPolicy
  else if kind = "NodePort" then .nodePort
  else if kind = "LoadBalancer" then .loadBalancer
  else .clusterIp

def ServiceForwarding.proxied (f : ServiceForwarding) : Bool :=
  f = .clusterIp ∨ f = .nodePort ∨ f = .loadBalancer

def ServiceForwarding.skipInPlan (f : ServiceForwarding) : Bool := !f.proxied

inductive Protocol
  | tcp
  | udp
  deriving DecidableEq

def Protocol.parse (v : Json) : Except String Protocol :=
  match v.asString.getD "TCP" with
  | "TCP" => .ok .tcp
  | "UDP" => .ok .udp
  | _ => .error "proxy supports TCP and UDP Service ports"

def Protocol.nft : Protocol → String
  | .tcp => "tcp"
  | .udp => "udp"

structure Backend where
  ip : ℕ
  port : ℕ
  deriving DecidableEq

theorem Backend.key_injective : Function.Injective fun b : Backend => toLex (b.ip, b.port) := by
  rintro ⟨ip, port⟩ ⟨ip', port'⟩ h
  simpa using h

/-- Backends are ordered by address, then port. -/
instance : LinearOrder Backend := LinearOrder.lift' _ Backend.key_injective

theorem net_key_injective : Function.Injective fun n : Net => toLex (n.addr, n.len) := by
  rintro ⟨addr, len, _, _⟩ ⟨addr', len', _, _⟩ h
  simpa using h

/-- Ranges are ordered by address, then length. -/
instance : LinearOrder Net := LinearOrder.lift' _ net_key_injective

instance net_le_trans : IsTrans Net (· ≤ ·) := instIsTransLe

instance net_le_antisymm : Std.Antisymm fun a b : Net => a ≤ b := ⟨fun _ _ => le_antisymm⟩

structure Frontend where
  id : String
  /-- The published address of a ClusterIP frontend, or one of the node's own. -/
  ip : ℕ
  port : ℕ
  protocol : Protocol
  localOnly : Bool
  backends : Finset Backend

structure ServiceStatus where
  ns : String
  name : String
  port : ℕ
  backends : ℕ

/-- Why a frontend was published without endpoints. -/
inductive Warning
  | mismatch (ns name : String) (slice : Json) (sliceName sliceProtocol portName : String)
      (protocol : Protocol)
  | unready (ns name : String) (port : ℕ) (protocol : Protocol)

structure Plan where
  podCidrs : Finset Net
  services : List Frontend
  warnings : List Warning
  status : List ServiceStatus

/-- A check that names what it refuses. -/
def demand (condition : Prop) [Decidable condition] (message : String) : Except String Unit :=
  if condition then .ok () else .error message

def text (v : Json) (k : String) : Except String String :=
  match v[k].asString.filter fun s => s ≠ "" ∧ s.utf8ByteSize ≤ 256 with
  | some s => .ok s
  | none => .error "missing resource identity"

def port (v : Json) : Except String ℕ :=
  match v.asInt.filter fun n => 1 ≤ n ∧ n ≤ 65535 with
  | some n => .ok n.toNat
  | none => .error "invalid proxy port"

/-- An allocated node port, in the published range. -/
def nodePort (v : Json) : Except String ℕ :=
  match v.asInt.filter fun n => 30000 ≤ n ∧ n ≤ 32767 with
  | some n => .ok n.toNat
  | none => .error "invalid Service node port"

def ip (v : Json) : Except String ℕ :=
  match v.asString.bind Ipv4.parse with
  | none => .error "invalid IPv4 address"
  | some ip =>
    -- unspecified, loopback, multicast, link-local, broadcast and the reserved ends
    if ip = 0 ∨ ip / 2 ^ 24 = 127 ∨ ip / 2 ^ 28 = 14 ∨ ip / 2 ^ 16 = 169 * 256 + 254 ∨
        ip = 2 ^ 32 - 1 ∨ ip / 2 ^ 24 = 0 ∨ 240 ≤ ip / 2 ^ 24 then
      .error "endpoint must be a unicast IPv4 address"
    else .ok ip

/-! ## Nodes -/

/-- What the Nodes say: their ranges, whether this one has its own, and its addresses. -/
structure Cluster where
  podCidrs : Finset Net
  own : Bool
  nodeIps : List ℕ

def readCidr (nodeName : String) (seen : Cluster) (node : Json) : Except String Cluster :=
  match node["spec"]["podCIDR"].asString.filter (· ≠ "") with
  | none => .ok seen
  | some cidr =>
    match dotted.parse cidr with
    | none => .error "node CIDR must be IPv4"
    | some subnet =>
      if subnet.addr ≠ subnet.network ∨ dotted.print subnet ≠ cidr ∨ !isPrivate subnet.network ∨
          !isPrivate subnet.broadcast ∨ subnet.contains serviceNet.network ∨
            serviceNet.contains subnet.network then
        .error "invalid node CIDR"
      else if subnet ∈ seen.podCidrs then .error "duplicate node CIDR"
      else .ok { seen with
        podCidrs := insert subnet seen.podCidrs
        own := seen.own || node["metadata"]["name"] = .string nodeName }

def readAddress (seen : Cluster) (address : Json) : Except String Cluster :=
  if address["type"] = .string "InternalIP" ∨ address["type"] = .string "ExternalIP" then do
    let reported ← ip address["address"]
    if reported ∈ seen.nodeIps then return seen
    else return { seen with nodeIps := seen.nodeIps ++ [reported] }
  else .ok seen

def readNode (nodeName : String) (seen : Cluster) (node : Json) : Except String Cluster := do
  let seen ← readCidr nodeName seen node
  if node["metadata"]["name"] = .string nodeName then
    node["status"]["addresses"].items.foldlM readAddress seen
  else return seen

/-- Whether a range begins in the one before it. -/
def overlapping : List Net → Bool
  | previous :: cidr :: rest => previous.contains cidr.network || overlapping (cidr :: rest)
  | _ => false

/-! ## EndpointSlices -/

/-- The IPv4 slices by the Service they belong to. -/
def readSlice (bySvc : List ((String × String) × Json)) (slice : Json) :
    Except String (List ((String × String) × Json)) :=
  if slice["addressType"] ≠ .string "IPv4" ∨ slice["metadata"]["deletionTimestamp"] ≠ .null then
    .ok bySvc
  else
    match slice["metadata"]["labels"]["kubernetes.io/service-name"].asString with
    | none => .ok bySvc
    | some name => do
      let ns ← text slice["metadata"] "namespace"
      return bySvc ++ [((ns, name), slice)]

/-- What a Service port asks of a slice. -/
structure Request where
  ns : String
  name : String
  uid : String
  nodeName : String
  localOnly : Bool
  servicePorts : ℕ
  portName : String
  protocol : Protocol

/-- The backends of one Service port so far. -/
structure Found where
  backends : Finset Backend
  warnings : List Warning
  totalBackends : ℕ

def maxBackends : ℕ := 16384

def addAddress (target : ℕ) (found : Found) (address : Json) : Except String Found := do
  let address ← ip address
  demand (¬ serviceNet.contains address) "Service IP cannot be an endpoint"
  if (⟨address, target⟩ : Backend) ∈ found.backends then return found
  else
    demand (found.totalBackends + 1 ≤ maxBackends) "too many Service backends"
    return { found with
      backends := insert ⟨address, target⟩ found.backends
      totalBackends := found.totalBackends + 1 }

namespace Request

variable (request : Request)

/-- An endpoint that is not ready, ends, or is elsewhere while traffic stays local. -/
def passesOver (endpoint : Json) : Bool :=
  endpoint["conditions"]["ready"] = .bool false ∨
    endpoint["conditions"]["terminating"] = .bool true ∨
      request.localOnly ∧ endpoint["nodeName"] ≠ .string request.nodeName

def addEndpoint (target : ℕ) (found : Found) (endpoint : Json) : Except String Found :=
  if request.passesOver endpoint then .ok found
  else endpoint["addresses"].items.foldlM (addAddress target) found

/-- A slice that publishes one port pairs with a Service that has one port by protocol
alone; a multi-port pair must name its ports. -/
def differs (slicePorts : ℕ) (sp : Json) : Bool :=
  let sliceName := sp["name"].asString.getD ""
  let unambiguous := request.servicePorts ≤ 1 ∧ slicePorts ≤ 1
  let named := request.portName ≠ "" ∧ sliceName ≠ ""
  ¬ unambiguous ∧ named ∧ sliceName ≠ request.portName ∨ ¬ unambiguous ∧ ¬ named ∨
    sp["protocol"].asString.getD "TCP" ≠ request.protocol.nft.toUpper ∨ sp["port"] = .null

def addPort (slice : Json) (found : Found) (sp : Json) : Except String Found :=
  if request.differs slice["ports"].items.length sp then
    .ok { found with warnings := found.warnings ++ [.mismatch request.ns request.name
      slice["metadata"]["name"] (sp["name"].asString.getD "") (sp["protocol"].asString.getD "TCP")
        request.portName request.protocol] }
  else do
    let target ← port sp["port"]
    slice["endpoints"].items.foldlM (request.addEndpoint target) found

/-- A slice that another Service, or an older one of the name, owns. -/
def foreign (slice : Json) : Bool :=
  slice["metadata"]["ownerReferences"].items.any fun owner =>
    owner["kind"] = .string "Service" ∧
      (owner["uid"] ≠ .string request.uid ∨ owner["name"] ≠ .string request.name)

def addSlice (found : Found) (slice : Json) : Except String Found :=
  if request.foreign slice then .ok found
  else slice["ports"].items.foldlM (request.addPort slice) found

end Request

/-! ## Services -/

abbrev Tuple := ℕ × ℕ × Protocol

/-- The frontends so far and what they take. -/
structure Progress where
  frontends : List Frontend
  tuples : Finset Tuple
  ids : Finset String
  warnings : List Warning
  status : List ServiceStatus
  totalBackends : ℕ

namespace Progress

def start : Progress := ⟨[], ∅, ∅, [], [], 0⟩

def claimTuple (tuple : Tuple) (progress : Progress) : Except String Progress :=
  if tuple ∈ progress.tuples then .error "duplicate Service frontend"
  else .ok { progress with tuples := insert tuple progress.tuples }

def claimId (id : String) (progress : Progress) : Except String Progress :=
  if id ∈ progress.ids then .error "duplicate Service chain identity"
  else .ok { progress with ids := insert id progress.ids }

def push (frontend : Frontend) (progress : Progress) : Progress :=
  { progress with frontends := progress.frontends ++ [frontend] }

end Progress

/-- A Service that is planned. -/
structure Service where
  uid : String
  name : String
  ns : String
  clusterIp : ℕ
  localOnly : Bool
  spec : Json

def readPolicy (spec : Json) : Except String Bool :=
  match spec["internalTrafficPolicy"].asString.getD "Cluster" with
  | "Cluster" => .ok false
  | "Local" => .ok true
  | _ => .error "unsupported internal traffic policy"

def readService (service : Json) : Except String Service := do
  let uid ← text service["metadata"] "uid"
  let name ← text service["metadata"] "name"
  let ns ← text service["metadata"] "namespace"
  let clusterIp ← ip service["spec"]["clusterIP"]
  demand (serviceNet.contains clusterIp) "Service IP is outside the configured range"
  let localOnly ← readPolicy service["spec"]
  return { uid, name, ns, clusterIp, localOnly, spec := service["spec"] }

/-- Services that are not forwarded. -/
def skipped (service : Json) : Bool :=
  service["metadata"]["deletionTimestamp"] ≠ .null ∨
    (ServiceForwarding.classify service["spec"]).skipInPlan

def maxFrontends : ℕ := 4096

section

variable (digest : String → String) (nodeName : String)

namespace Service

variable (service : Service)

def slices (bySvc : List ((String × String) × Json)) : List Json :=
  (bySvc.filter fun e => e.1 = (service.ns, service.name)).map Prod.snd

def request (p : Json) (protocol : Protocol) : Request where
  ns := service.ns
  name := service.name
  uid := service.uid
  nodeName := nodeName
  localOnly := service.localOnly
  servicePorts := service.spec["ports"].items.length
  portName := p["name"].asString.getD ""
  protocol := protocol

def clusterId (servicePort : ℕ) (protocol : Protocol) : String :=
  "svc_" ++ digest ("/".intercalate [service.ns, service.name, service.uid,
    Ipv4.print service.clusterIp, toString servicePort, protocol.nft])

def nodeId (nodeIp nodePort : ℕ) (protocol : Protocol) : String :=
  "svc_" ++ digest ("/".intercalate [service.ns, service.name, service.uid, Ipv4.print nodeIp,
    toString nodePort, protocol.nft, "nodeport"])

def clusterFrontend (servicePort : ℕ) (protocol : Protocol) (backends : Finset Backend) :
    Frontend where
  id := service.clusterId digest servicePort protocol
  ip := service.clusterIp
  port := servicePort
  protocol := protocol
  localOnly := service.localOnly
  backends := backends

def nodeFrontend (nodePort : ℕ) (protocol : Protocol) (backends : Finset Backend) (nodeIp : ℕ) :
    Frontend where
  id := service.nodeId digest nodeIp nodePort protocol
  ip := nodeIp
  port := nodePort
  protocol := protocol
  localOnly := false
  backends := backends

/-- One frontend on this node's own address. -/
def addNode (nodePort : ℕ) (protocol : Protocol) (backends : Finset Backend) (progress : Progress)
    (nodeIp : ℕ) : Except String Progress := do
  let progress ← progress.claimTuple (nodeIp, nodePort, protocol)
  let progress ← progress.claimId (service.nodeId digest nodeIp nodePort protocol)
  return progress.push (service.nodeFrontend digest nodePort protocol backends nodeIp)

/-- A NodePort Service adds a frontend for every address of this node. -/
def addNodes (nodeIps : List ℕ) (p : Json) (protocol : Protocol) (backends : Finset Backend)
    (progress : Progress) : Except String Progress :=
  if service.spec["type"] = .string "NodePort" then do
    let number ← Proxy.nodePort p["nodePort"]
    demand (nodeIps ≠ []) "local node reports no address for NodePort Services"
    nodeIps.foldlM (service.addNode digest number protocol backends) progress
  else .ok progress

/-- What is said of a Service port beside its frontends. -/
def report (servicePort : ℕ) (protocol : Protocol) (found : Found) (progress : Progress) :
    Progress :=
  { progress with
    totalBackends := found.totalBackends
    warnings := found.warnings ++
      if found.backends = ∅ then [.unready service.ns service.name servicePort protocol] else []
    status := progress.status ++
      [⟨service.ns, service.name, servicePort, found.backends.card⟩] }

/-- The frontend on the published address. -/
def addCluster (servicePort : ℕ) (protocol : Protocol) (found : Found) (progress : Progress) :
    Except String Progress := do
  let progress ← progress.claimId (service.clusterId digest servicePort protocol)
  return (service.report servicePort protocol found progress).push
    (service.clusterFrontend digest servicePort protocol found.backends)

def publish (nodeIps : List ℕ) (bySvc : List ((String × String) × Json)) (p : Json)
    (servicePort : ℕ) (protocol : Protocol) (progress : Progress) : Except String Progress := do
  let progress ← progress.claimTuple (service.clusterIp, servicePort, protocol)
  let found ← (service.slices bySvc).foldlM (service.request nodeName p protocol).addSlice
    ⟨∅, progress.warnings, progress.totalBackends⟩
  let progress ← service.addCluster digest servicePort protocol found progress
  service.addNodes digest nodeIps p protocol found.backends progress

def addPort (nodeIps : List ℕ) (bySvc : List ((String × String) × Json)) (progress : Progress)
    (p : Json) : Except String Progress := do
  let servicePort ← port p["port"]
  let protocol ← Protocol.parse p["protocol"]
  let progress ← service.publish digest nodeName nodeIps bySvc p servicePort protocol progress
  demand (progress.frontends.length ≤ maxFrontends) "too many Service ports"
  return progress

end Service

def addService (nodeIps : List ℕ) (bySvc : List ((String × String) × Json)) (progress : Progress)
    (service : Json) : Except String Progress :=
  if skipped service then .ok progress
  else do
    let service ← readService service
    service.spec["ports"].items.foldlM (service.addPort digest nodeName nodeIps bySvc) progress

/-- Select current Service backends from complete API lists. -/
def plan (services slices nodes : List Json) : Except String Plan := do
  demand (validNodeName nodeName ∧ services.length ≤ 8192 ∧ slices.length ≤ 8192 ∧
    nodes.length ≤ 8192) "invalid or excessive proxy snapshot"
  let cluster ← nodes.foldlM (readNode nodeName) ⟨∅, false, []⟩
  demand (!overlapping (cluster.podCidrs.sort (· ≤ ·))) "overlapping node CIDRs"
  demand cluster.own "local node has no allocated Pod CIDR yet"
  let bySvc ← slices.foldlM readSlice []
  let progress ← services.foldlM (addService digest nodeName cluster.nodeIps bySvc) .start
  return {
    podCidrs := cluster.podCidrs
    services := sortBy Frontend.id progress.frontends
    warnings := progress.warnings
    status := progress.status }

end

end Hedronetes.Proxy
