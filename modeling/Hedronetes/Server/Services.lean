import Hedronetes.Network.Ipv4
import Hedronetes.Server.Metadata

/-!
# The addresses of Services

The strategy of a Service's specification, and the allocation of its cluster
address and node ports among those that the other Services have published.
-/

namespace Hedronetes.Server.Services

open FirstMatch Apply Network
open Storage (StoreKey)

def isNumber : Json → Bool
  | .number _ => true
  | _ => false

def isZero (value : Json) : Bool := value = .number (.int 0)

/-! ## The strategy -/

/-- A wire form reports an unset port as zero. -/
def unsetZero (port : Json) (field : String) : Outcome Json :=
  if isZero port[field] then setAt port [field] .null else .ok port

/-- A Service that publishes no node ports may not state one. -/
def allowedNodePort (published : Bool) (port : Json) : Outcome Unit :=
  if published then
    require (port["nodePort"] = .null ∨ port["nodePort"].asInt.any fun n => 30000 ≤ n ∧ n ≤ 32767)
      "nodePort must be between 30000 and 32767"
  else require (port["nodePort"] = .null) "nodePort requires Service type NodePort"

def allowedTarget (target : Json) : Outcome Unit :=
  if isNumber target then validPort target
  else require (target.asString.any fun s => validLabelName s) "invalid named targetPort"

/-- A port of a Service of a type that publishes node ports, or of one that does not. -/
def servicePort (published : Bool) (port : Json) : Outcome Json := do
  validPort port["port"]
  let cleared ← unsetZero port "targetPort"
  let cleared ← unsetZero cleared "nodePort"
  allowedNodePort published cleared
  let targeted ← defaultAt cleared "targetPort" port["port"]
  allowedTarget targeted["targetPort"]
  let result ← defaultAt targeted "protocol" (.string "TCP")
  oneOf result["protocol"] ["TCP", "UDP"] "native Service forwarding supports TCP and UDP"
  return result

/-- The declared name of a Service port, empty when the single-port form omits it. -/
def portName (port : Json) : String := port["name"].asString.getD ""

/-- The ports, whose names are valid and unique. -/
def servicePorts (published multiple : Bool) : List Json → List String → Outcome (List Json)
  | [], _ => .ok []
  | port :: ports, names => do
    let port ← servicePort published port
    require (¬ (multiple ∧ portName port = "") ∧
        (portName port = "" ∨ validLabelName (portName port)) ∧ portName port ∉ names)
      "Service port names must be valid and unique"
    return port :: (← servicePorts published multiple ports (portName port :: names))

/-- The specification of a Service that has an address. -/
def addressed (spec : Json) : Outcome Json := do
  let spec ← defaultAt spec "externalTrafficPolicy" (.string "Cluster")
  oneOf spec["externalTrafficPolicy"] ["Cluster"]
    "externalTrafficPolicy Local is not implemented by the native Service proxy"
  require (spec["healthCheckNodePort"].asInt.all (· = 0))
    "healthCheckNodePort is not implemented by the native Service proxy"
  require (¬ (spec["type"] = .string "NodePort" ∧ spec["clusterIP"] = .string "None"))
    "a NodePort Service requires a ClusterIP"
  let spec ← defaultAt spec "sessionAffinity" (.string "None")
  oneOf spec["sessionAffinity"] ["None"]
    "ClientIP affinity is not implemented by the native Service proxy"
  require (spec["externalIPs"].items = [] ∧ spec["trafficDistribution"] = .null)
    ("externalIPs and trafficDistribution are not implemented by the native Service proxy")
  let spec ← defaultAt spec "internalTrafficPolicy" (.string "Cluster")
  oneOf spec["internalTrafficPolicy"] ["Cluster", "Local"] "invalid internalTrafficPolicy"
  require (spec["ports"].items ≠ []) "Service ports are required"
  let ports ← servicePorts (spec["type"] = .string "NodePort") (1 < spec["ports"].items.length)
    spec["ports"].items []
  setAt spec ["ports"] (.array ports)

def service (spec : Json) : Outcome Json := do
  require spec.isObject "Service spec is required"
  let spec ← defaultAt spec "type" (.string "ClusterIP")
  oneOf spec["type"] ["ClusterIP", "NodePort", "ExternalName", "LoadBalancer"]
    "currently supported Service types are ClusterIP, NodePort, ExternalName and LoadBalancer"
  if spec["type"] = .string "ExternalName" then do
    require (spec["externalName"].asString.any fun n => validName n)
      "externalName must be a DNS name"
    return spec
  else addressed spec

/-! ## What is published -/

/-- A Service port's node port; an unset or zero value is not an allocation. -/
def nodePort (port : Json) : Option ℕ :=
  match port["nodePort"] with
  | .number (.int n) => if 0 < n ∧ n < 2 ^ 16 then some n.toNat else none
  | _ => none

/-- A Service port is the same across an update when its name matches, or, for the unnamed
single-port form, when port and protocol match. -/
def samePort (before after : Json) : Bool :=
  if portName before ≠ "" ∨ portName after ≠ "" then portName before = portName after
  else before["port"] = after["port"] && before["protocol"] = after["protocol"]

/-- The cluster address in a specification. -/
def address (spec : Json) : Option ℕ := spec["clusterIP"].asString.bind Ipv4.parse

/-- The addresses and node ports of the Services with another uid. -/
def published (reg : Registry) (uid : String) : Outcome (List ℕ × List ℕ) := do
  let all ← (reg.list "/registry/services/").mapM fun e => object e.2
  let others := all.filter fun current => current["metadata"]["uid"] ≠ .string uid
  return (others.filterMap fun current => address current["spec"],
    others.flatMap fun current => current["spec"]["ports"].items.filterMap nodePort)

/-! ## Allocation -/

def nodePortRange : List ℕ := List.range' 30000 2768

/-- The node port that a port had before. -/
def before (previous : Option Json) (port : Json) : Option ℕ :=
  (previous.bind fun spec => spec["ports"].items.find? fun p => samePort p port).bind nodePort

/-- The node port that a port states, had before or gets. -/
def selectPort (previous : Option Json) (port : Json) (used : List ℕ) : Outcome ℕ :=
  match nodePort port, before previous port with
  | some stated, some kept =>
    if kept ≠ stated then .error (invalid "nodePort is immutable") else .ok stated
  | some stated, none => .ok stated
  | none, some kept => .ok kept
  | none, none =>
    match nodePortRange.find? (· ∉ used) with
    | some free => .ok free
    | none => .error (failure 503 "ServiceUnavailable" "Service node port range exhausted")

/-- Keeps the node ports that were published already and allocates every one that the request
leaves unset. -/
def nodePorts (previous : Option Json) : List Json → List ℕ → Outcome (List Json)
  | [], _ => .ok []
  | port :: ports, used => do
    let selected ← selectPort previous port used
    require (selected ∉ used) "nodePort already allocated"
    let port ← setAt port ["nodePort"] (.number (.int selected))
    return port :: (← nodePorts previous ports (selected :: used))

def withNodePorts (spec : Json) (previous : Option Json) (used : List ℕ) : Outcome Json :=
  match spec["ports"].asArray with
  | some ports => do setAt spec ["ports"] (.array (← nodePorts previous ports used))
  | none => .error (.panic "validated Service ports")

/-- An allocation that the request leaves out stays, and none may change. -/
def keepField (old spec : Json) (field : String) : Outcome Json := do
  let kept ← if spec[field] = .null then setAt spec [field] old[field] else pure spec
  require (kept[field] = old[field]) "Service IP allocation is immutable"
  return kept

/-- `Ipv4Addr::new(10, 43, 0, 0)`. -/
def base : ℕ := Ipv4.ofOctets 10 43 0 0

/-- The address that a new Service gets. -/
def select (requested : String) (used : List ℕ) : Outcome String :=
  if requested = "None" then .ok "None"
  else if requested = "" then
    match ((List.range' 2 65533).map (base + ·)).find? (· ∉ used) with
    | some ip => .ok (Ipv4.print ip)
    | none => .error (failure 503 "ServiceUnavailable" "Service CIDR exhausted")
  else
    match Ipv4.parse requested with
    | none => .error (invalid "invalid ClusterIP")
    | some ip =>
      if ip < base + 2 ∨ base + 65535 ≤ ip then
        .error (invalid "ClusterIP outside allocatable 10.43.0.0/16 range")
      else if ip ∈ used then .error (invalid "ClusterIP already allocated")
      else .ok requested

/-- The addresses of a Service that is updated. -/
def reassign (reg : Registry) (uid : String) (spec old : Json) : Outcome Json := do
  require (old["type"] = spec["type"]) "Service type transitions are not yet supported"
  let spec ← ["clusterIP", "clusterIPs", "ipFamilies", "ipFamilyPolicy"].foldlM (keepField old) spec
  if spec["type"] = .string "NodePort" then do
    let (_, used) ← published reg uid
    withNodePorts spec (some old) used
  else return spec

/-- The addresses of a new Service. -/
def allocate (reg : Registry) (uid : String) (spec : Json) : Outcome Json := do
  require (spec["ipFamilyPolicy"].asString.all (· = "SingleStack") ∧
      spec["ipFamilies"].asArray.all (· = [.string "IPv4"]))
    "the M1 Service allocator supports IPv4 SingleStack"
  let (used, usedPorts) ← published reg uid
  let selected ← select (spec["clusterIP"].asString.getD "") used
  require (spec["clusterIPs"].asArray.all (· = [.string selected])) "clusterIPs must match clusterIP"
  let spec ← setAt spec ["clusterIP"] (.string selected)
  let spec ← setAt spec ["clusterIPs"] (.array [.string selected])
  let spec ← setAt spec ["ipFamilies"] (.array [.string "IPv4"])
  let spec ← setAt spec ["ipFamilyPolicy"] (.string "SingleStack")
  if spec["type"] = .string "NodePort" then withNodePorts spec none usedPorts
  else return spec

/-- `services::assign` on the specification. -/
def assign (reg : Registry) (uid : String) (spec : Json) (old : Option Json) : Outcome Json :=
  match old with
  | some old => reassign reg uid spec old
  | none =>
    if spec["type"] = .string "ExternalName" then
      if spec["clusterIP"].hasText ∨ spec["clusterIPs"].items ≠ [] then
        .error (invalid "ExternalName cannot allocate a ClusterIP")
      else .ok spec
    else allocate reg uid spec

/-! ## What an allocation gives -/

/-- A node port that a Service port holds, with its protocol. -/
def heldPort (port : Json) : Option (ℤ × Json) :=
  match port["nodePort"] with
  | .number (.int n) => if n ≠ 0 then some (n, port["protocol"]) else none
  | _ => none

def heldPorts (spec : Json) : List (ℤ × Json) := spec["ports"].items.filterMap heldPort

variable {reg : Registry} {uid : String} {spec result old port : Json} {previous : Option Json}
  {ports results : List Json} {used : List ℕ}

theorem unsetZero_ne {field other : String} (h : unsetZero port field = .ok result)
    (hne : other ≠ field) : result[other] = port[other] := by
  unfold unsetZero at h
  split_ifs at h
  · exact getElem_setAt_ne h hne
  · rw [Except.ok.inj h]

/-- What the Services with other uids hold is published. -/
theorem published_mem {ips : List ℕ} {k : StoreKey} {o : Stored}
    (h : published reg uid = .ok (ips, used)) (hget : (k, o) ∈ reg.list "/registry/services/") :
    ∃ current, object o = .ok current ∧ (current["metadata"]["uid"] ≠ .string uid →
      (∀ a, address current["spec"] = some a → a ∈ ips) ∧
        ∀ port ∈ current["spec"]["ports"].items, ∀ n, nodePort port = some n → n ∈ used) := by
  obtain ⟨all, hall, h⟩ := Fallible.bind_eq_ok.mp h
  cases h
  obtain ⟨current, hmem, hcurrent⟩ := Fallible.mapM_mem_of_mem hall hget
  refine ⟨current, hcurrent, fun huid => ?_⟩
  have hother : current ∈ all.filter fun current => current["metadata"]["uid"] ≠ .string uid :=
    List.mem_filter.mpr ⟨hmem, by simpa using huid⟩
  constructor
  · exact fun a ha => List.mem_filterMap.mpr ⟨current, hother, ha⟩
  · intro port hport n hn
    exact List.mem_flatMap.mpr ⟨current, hother, List.mem_filterMap.mpr ⟨port, hport, hn⟩⟩

/-- The node ports of a specification are different, and none was in use. -/
def FreshPorts (spec : Json) (used : List ℕ) : Prop :=
  ∃ ns : List ℕ, (heldPorts spec).map Prod.fst = ns.map Nat.cast ∧ ns.Nodup ∧
    ∀ n ∈ ns, n < 2 ^ 16 ∧ n ∉ used

theorem FreshPorts.nodup (h : FreshPorts spec used) : (heldPorts spec).Nodup := by
  obtain ⟨ns, hns, hnodup, _⟩ := h
  apply List.Nodup.of_map Prod.fst
  rw [hns]
  exact hnodup.map Nat.cast_injective

/-- A port that other Services have published is not held. -/
theorem FreshPorts.apart (h : FreshPorts spec used) {ports : List Json}
    (hused : ∀ port ∈ ports, ∀ n, nodePort port = some n → n ∈ used) {x : ℤ × Json}
    (hx : x ∈ ports.filterMap heldPort) : x ∉ heldPorts spec := by
  intro hheld
  obtain ⟨ns, hns, _, hfree⟩ := h
  have hmem : x.1 ∈ ns.map Nat.cast := hns ▸ List.mem_map_of_mem hheld
  obtain ⟨n, hn, hcast⟩ := List.mem_map.mp hmem
  obtain ⟨hlt, hnot⟩ := hfree n hn
  obtain ⟨port, hport, hx⟩ := List.mem_filterMap.mp hx
  apply hnot
  apply hused port hport
  unfold heldPort at hx
  split at hx
  · rename_i m hm
    split_ifs at hx with hne
    rw [← Option.some.inj hx] at hcast
    rw [nodePort, hm]
    dsimp only at hcast ⊢
    rw [if_pos (by omega)]
    congr 1
    omega
  · cases hx

/-- The addresses that a Service is stored with. -/
structure Assigned (reg : Registry) (uid : String) (spec : Json) (old : Option Json)
    (result : Json) : Prop where
  type : result["type"] = spec["type"]
  ports : spec["type"] ≠ .string "NodePort" → result["ports"] = spec["ports"]
  kept : ∀ o, old = some o → result["clusterIP"] = o["clusterIP"]
  external : old = none → spec["type"] = .string "ExternalName" → address result = none
  addressFree : old = none → spec["type"] ≠ .string "ExternalName" →
    ∃ ips used, published reg uid = .ok (ips, used) ∧ ∀ a, address result = some a → a ∉ ips
  portsFree : spec["type"] = .string "NodePort" →
    ∃ ips used, published reg uid = .ok (ips, used) ∧ FreshPorts result used

end Hedronetes.Server.Services
