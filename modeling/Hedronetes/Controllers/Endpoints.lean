import Hedronetes.Controllers.Clients
import Hedronetes.Foundations.Grouping
import Hedronetes.Foundations.StableSort
import Hedronetes.Network.IpAddr

/-!
# Slices of endpoints

The Pods that a Service selects are grouped by the ports that they resolve and cut into slices, per
address family. Every Pod with an address and a port is in one slice, with its own ports.
-/

namespace Hedronetes.Controllers.Endpoints

open Server Apply FirstMatch StableSort Grouping Network

def MANAGER : String := "hedronetes.io/endpointslice-controller"

def MANAGED_BY : String := "endpointslice.kubernetes.io/managed-by"

def SERVICE_NAME : String := "kubernetes.io/service-name"

def SLICE_SIZE : ℕ := 100

/-! ## What is read of a Service and a Pod -/

inductive Family
  | ipv4
  | ipv6
  deriving DecidableEq

def Family.name : Family → String
  | .ipv4 => "IPv4"
  | .ipv6 => "IPv6"

def familyOf (family : Json) : Result Family :=
  if family = .string "IPv4" then .ok .ipv4
  else if family = .string "IPv6" then .ok .ipv6
  else .error (.invalid "invalid Service IP family")

/-- The families of a Service in order, or that of its address if it names none. -/
def families (service : Json) : Result (List Family) := do
  let out ← service["spec"]["ipFamilies"].items.mapM familyOf
  if out ≠ [] then return [.ipv4, .ipv6].filter (· ∈ out)
  else match service["spec"]["clusterIP"].asString with
    | none => return [.ipv4]
    | some ip =>
      if ip = "None" then return [.ipv4]
      else match IpAddr.parse ip with
        | none => .error (.invalid "invalid Service IP")
        | some address => return [if address.isIpv4 then .ipv4 else .ipv6]

def selected (service p : Json) : Bool :=
  p["metadata"]["namespace"] = service["metadata"]["namespace"] &&
    service["spec"]["selector"].asObject.any (fun s => s ≠ [] &&
      s.all fun (k, v) => p["metadata"]["labels"][k] = v) &&
    p["status"]["phase"].asString.all (· ∉ ["Succeeded", "Failed"]) &&
    p["spec"]["nodeName"].asString.any (· ≠ "")

def protocolOf (port : Json) : String := port["protocol"].asString.getD "TCP"

/-- The port of the first container port of a name and a protocol. -/
def containerPort (pod : Json) (name protocol : String) : Option ℤ :=
  ((pod["spec"]["containers"].items.flatMap fun container => container["ports"].items).find? fun v =>
    v["name"] = .string name && protocolOf v = protocol).bind fun v => v["containerPort"].asInt

/-- What a port of a Service is resolved to: nothing if the Pod has no such port, and no number
yet without a Pod. -/
def resolve (pod : Option Json) (p : Json) : Result (Option (Option ℤ)) :=
  match p["targetPort"].asString, pod with
  | some name, some pod => .ok ((containerPort pod name (protocolOf p)).map some)
  | some _, none => .ok (some none)
  | none, _ =>
    match p["targetPort"].asInt.or p["port"].asInt with
    | some port => .ok (some (some port))
    | none => .error (.invalid "invalid Service target port")

/-- A port of a slice. -/
def portEntry (p : Json) (port : Option ℤ) : Json :=
  .ofPairs ([("name", .string (p["name"].asString.getD "")), ("protocol", .string (protocolOf p)),
    ("port", port.elim .null fun n => .number (.int n))] ++
      if p["appProtocol"] = .null then [] else [("appProtocol", p["appProtocol"])])

def endpointPort (pod : Option Json) (p : Json) : Result (Option Json) :=
  if protocolOf p ∉ ["TCP", "UDP", "SCTP"] then .error (.invalid "invalid Service port protocol")
  else match resolve pod p with
    | .error e => .error e
    | .ok none => .ok none
    | .ok (some port) =>
      if port.any fun n => n < 1 ∨ 65535 < n then .error (.invalid "invalid endpoint port")
      else .ok (some (portEntry p port))

/-- An address that other Pods can use. -/
def usable (family : Family) (ip : IpAddr) : Bool :=
  ip.isIpv4 = (family = .ipv4) && !ip.isLoopback && !ip.isUnspecified && !ip.isMulticast &&
    match ip with
    | .v4 ip => !IpAddr.isBroadcast ip && !IpAddr.isLinkLocal ip
    | .v6 ip => !IpAddr.isUnicastLinkLocal ip && (IpAddr.ipv4Mapped ip).isNone

def address (p : Json) (family : Family) : Option IpAddr :=
  (((p["status"]["podIPs"].items.filterMap fun ip => ip["ip"].asString) ++
    p["status"]["podIP"].asString.toList).filterMap IpAddr.parse).find? (usable family)

/-- What a slice says of a Pod. -/
def endpoint (service p : Json) (ip : IpAddr) : Json :=
  let serving := p["status"]["conditions"].items.any fun condition =>
    condition["type"] = .string "Ready" && condition["status"] = .string "True"
  let terminating := p["metadata"]["deletionTimestamp"] ≠ .null
  let ready := service["spec"]["publishNotReadyAddresses"] = .bool true || (serving && !terminating)
  .ofPairs ([("addresses", .array [.string ip.print]),
    ("conditions", .ofPairs [("ready", .bool ready), ("serving", .bool serving),
      ("terminating", .bool terminating)]), ("nodeName", p["spec"]["nodeName"]),
    ("targetRef", .ofPairs [("apiVersion", .string "v1"), ("kind", .string "Pod"),
      ("namespace", service["metadata"]["namespace"]), ("name", p["metadata"]["name"]),
      ("uid", p["metadata"]["uid"])])] ++
    if p["spec"]["subdomain"] = service["metadata"]["name"] ∧ p["spec"]["hostname"].hasText then
      [("hostname", p["spec"]["hostname"])] else [])

/-! ## The plan -/

section

variable (print : Json → String) (digest : Json → String)

/-- The ports of a slice, sorted by their texts. -/
def portSet (service : Json) (pod : Option Json) : Result (List Json) := do
  let ports ← service["spec"]["ports"].items.mapM (endpointPort pod)
  return sortBy print (ports.filterMap id)

/-- The ports and the endpoint of a Pod, unless it is not selected or cannot be reached. -/
def placement (service : Json) (family : Family) (p : Json) :
    Result (Option (List Json × Json)) :=
  if !selected service p then .ok none
  else match address p family with
    | none => .ok none
    | some ip =>
      match portSet print service (some p) with
      | .error e => .error e
      | .ok [] => .ok none
      | .ok ports => (identity p).map fun _ => some (ports, endpoint service p ip)

/-- The endpoints by the text of their ports. Without any there is one empty group. -/
def groups (service : Json) (family : Family) (pods : List Json) :
    Result (List (String × (List Json × List Json))) := do
  let placed ← pods.mapM (placement print service family)
  let groups := grouped (fun e => print (.array e.1)) Prod.fst Prod.snd (placed.filterMap id)
  if groups = [] then do
    let ports ← portSet print service none
    return [(print (.array ports), (ports, []))]
  else return groups

def endpointKey (e : Json) : String ×ₗ String :=
  toLex (print e["targetRef"]["uid"], print e["addresses"])

/-- The characters of exactly so many bytes at the start of a text. -/
def bytePrefix : ℕ → List Char → Option (List Char)
  | 0, _ => some []
  | _ + 1, [] => none
  | n + 1, ch :: rest =>
    if ch.utf8Size ≤ n + 1 then (bytePrefix (n + 1 - ch.utf8Size) rest).map (ch :: ·) else none

/-- At most 34 bytes of the Service's name, and the start of a digest. -/
def sliceName (name : String) (hash : Json) : String :=
  let cut := (bytePrefix (min name.utf8ByteSize 34) name.toList).getD "service".toList
  String.ofList (cut.rdropWhile fun ch => ch = '-' ∨ ch = '.') ++ "-" ++
    String.ofList ((digest hash).toList.take 20)

/-- What the name of a slice is derived from. -/
def hashed (uid : String) (family : Family) (key : String) (chunk : ℕ) : Json :=
  .array [.string uid, .string family.name, .string key, .number (.int chunk)]

def endpointSlice (service : Json) (name uid : String) (family : Family) (key : String)
    (ports endpoints : List Json) (chunk : ℕ) : Json :=
  .ofPairs [("apiVersion", .string "discovery.k8s.io/v1"), ("kind", .string "EndpointSlice"),
    ("metadata", .ofPairs [("namespace", service["metadata"]["namespace"]),
      ("name", .string (sliceName digest name (hashed uid family key chunk))),
      ("labels", .ofPairs [(SERVICE_NAME, .string name), (MANAGED_BY, .string MANAGER)]),
      ("ownerReferences", .array [owner service])]),
    ("addressType", .string family.name), ("ports", .array ports),
    ("endpoints", .array (slice SLICE_SIZE endpoints chunk))]

/-- The slices of a group. An empty group still advertises the family and the ports. -/
def groupSlices (service : Json) (name uid : String) (family : Family)
    (group : String × (List Json × List Json)) : List Json :=
  let endpoints := sortBy (endpointKey print) group.2.2
  (List.range (max 1 ((endpoints.length + SLICE_SIZE - 1) / SLICE_SIZE))).map
    (endpointSlice digest service name uid family group.1 group.2.1 endpoints)

def plan (service : Json) (pods : List Json) : Result (List Json) := do
  let (_, name, uid) ← identity service
  if service["spec"]["type"] = .string "ExternalName" ∨
      service["spec"]["selector"].asObject.all (· = []) then return []
  else do
    let desired ← (← families service).mapM fun family => do
      return (← groups print service family pods).flatMap
        (groupSlices print digest service name uid family)
    if LIMIT < desired.flatten.length then .error (.invalid "too many desired EndpointSlices")
    else return desired.flatten

/-! ## What a plan holds -/

/-- A Pod that a Service selects, with an address of a family and the ports that it resolves. -/
structure Reached (service : Json) (family : Family) (p : Json) (ip : IpAddr) (ports : List Json) :
    Prop where
  isSelected : selected service p = true
  hasAddress : address p family = some ip
  resolved : portSet print service (some p) = .ok ports
  nonempty : ports ≠ []

/-- The slices hold each Pod that is reached in one place of its family and with its own ports, and
nothing else. -/
structure Partitions (service : Json) (fams : List Family) (pods slices : List Json) : Prop where
  placed : ∀ family ∈ fams, ∀ p ∈ pods, ∀ ip ports, Reached print service family p ip ports →
    ∃ s ∈ slices, s["addressType"] = .string family.name ∧ s["ports"] = .array ports ∧
      endpoint service p ip ∈ s["endpoints"].items ∧
      ∀ other ∈ slices, other["addressType"] = .string family.name →
        endpoint service p ip ∈ other["endpoints"].items → other = s
  distinct : ∀ s ∈ slices, s["endpoints"].items.Nodup
  bounded : ∀ s ∈ slices, s["endpoints"].items.length ≤ 100
  only : ∀ s ∈ slices, ∀ e ∈ s["endpoints"].items, ∃ family ∈ fams, ∃ p ∈ pods, ∃ ip ports,
    Reached print service family p ip ports ∧ s["addressType"] = .string family.name ∧
      s["ports"] = .array ports ∧ e = endpoint service p ip
  named : (slices.map fun s => s["metadata"]["name"]).Nodup

/-- What is printed for the Pods: their uids and the ports that they resolve. -/
def Printed (service : Json) (pods : List Json) : Set Json :=
  {v | (∃ p ∈ pods, v = p["metadata"]["uid"]) ∨
    ∃ p ∈ pods, ∃ ports, portSet print service (some p) = .ok ports ∧ v = .array ports}

/-- What the names of a Service's slices are derived from. -/
def Hashed (service : Json) (pods : List Json) : Set Json :=
  {v | ∃ ns name uid fams family gs group chunk, identity service = .ok (ns, name, uid) ∧
    families service = .ok fams ∧ family ∈ fams ∧ groups print service family pods = .ok gs ∧
    group ∈ gs ∧ chunk * SLICE_SIZE ≤ group.2.2.length ∧ v = hashed uid family group.1 chunk}

/-! ## Slices of one family -/

variable {print digest} {service p : Json} {pods : List Json} {family : Family} {ip : IpAddr}
variable {ports : List Json} {e : Json}

theorem placement_eq_some : placement print service family p = .ok (some (ports, e)) ↔
    ∃ ip i, Reached print service family p ip ports ∧ identity p = .ok i ∧
      e = endpoint service p ip := by
  unfold placement
  constructor
  · intro h
    by_cases hselected : selected service p
    · rw [if_neg (by simp [hselected])] at h
      cases haddress : address p family with
      | none => simp [haddress] at h
      | some ip =>
        rw [haddress] at h
        cases hports : portSet print service (some p) with
        | error e => simp [hports] at h
        | ok found =>
          rw [hports] at h
          cases found with
          | nil => simp at h
          | cons port rest =>
            cases hi : identity p with
            | error e => simp [hi, Except.map] at h
            | ok i =>
              simp only [hi, Except.map, Except.ok.injEq, Option.some.injEq, Prod.mk.injEq] at h
              obtain ⟨rfl, rfl⟩ := h
              exact ⟨ip, i, ⟨hselected, haddress, hports, List.cons_ne_nil _ _⟩, rfl, rfl⟩
    · rw [if_pos (by simp [hselected])] at h
      simp at h
  · rintro ⟨ip, i, hreached, hi, rfl⟩
    rw [if_neg (by simp [hreached.isSelected]), hreached.hasAddress, hreached.resolved]
    cases ports with
    | nil => exact absurd rfl hreached.nonempty
    | cons port ports => simp [hi, Except.map]

theorem endpoint_uid (service p : Json) (ip : IpAddr) :
    (endpoint service p ip)["targetRef"]["uid"] = p["metadata"]["uid"] := by
  by_cases hhost : p["spec"]["subdomain"] = service["metadata"]["name"] ∧
      p["spec"]["hostname"].hasText
  · simp [endpoint, hhost, Json.getElem_ofPairs]
  · simp only [endpoint, if_neg hhost]
    simp [Json.getElem_ofPairs]

section

variable (service) (name uid key : String) (family) (endpoints : List Json) (chunk : ℕ) (ports)

theorem endpointSlice_addressType : (endpointSlice digest service name uid family key ports
    endpoints chunk)["addressType"] = .string family.name := by
  simp [endpointSlice, Json.getElem_ofPairs]

theorem endpointSlice_ports : (endpointSlice digest service name uid family key ports
    endpoints chunk)["ports"] = .array ports := by
  simp [endpointSlice, Json.getElem_ofPairs]

theorem endpointSlice_endpoints : (endpointSlice digest service name uid family key ports
    endpoints chunk)["endpoints"].items = slice SLICE_SIZE endpoints chunk := by
  simp [endpointSlice, Json.getElem_ofPairs, Json.items, Json.asArray]

theorem endpointSlice_name : (endpointSlice digest service name uid family key ports
    endpoints chunk)["metadata"]["name"] =
      .string (sliceName digest name (hashed uid family key chunk)) := by
  simp [endpointSlice, Json.getElem_ofPairs]

end

/-- The pairs of ports and endpoint in slices. -/
def pairs (slices : List Json) : List (Json × Json) :=
  slices.flatMap fun s => s["endpoints"].items.map fun e => (s["ports"], e)

/-- The chunks of a group hold its endpoints. -/
theorem pairs_groupSlices (name uid : String) (group : String × (List Json × List Json)) :
    (pairs (groupSlices print digest service name uid family group)).Perm
      (group.2.2.map fun e => (.array group.2.1, e)) := by
  unfold pairs groupSlices
  simp only [List.flatMap_map, endpointSlice_endpoints, endpointSlice_ports]
  have hall : (List.range (max 1 (((sortBy (endpointKey print) group.2.2).length + SLICE_SIZE - 1) /
      SLICE_SIZE))).flatMap (slice SLICE_SIZE (sortBy (endpointKey print) group.2.2)) =
      sortBy (endpointKey print) group.2.2 := by
    apply flatMap_slice_eq
    unfold SLICE_SIZE
    omega
  rw [← List.map_flatMap, hall]
  exact (perm_sortBy _ _).map _

theorem pairs_flatMap {α : Type} (l : List α) (f : α → List Json) :
    pairs (l.flatMap f) = l.flatMap fun a => pairs (f a) := by
  unfold pairs
  rw [List.flatMap_assoc]

theorem of_mem_placed {placed : List (Option (List Json × Json))}
    (hplaced : pods.mapM (placement print service family) = .ok placed)
    {entry : List Json × Json} (h : entry ∈ placed.filterMap id) :
    ∃ p ∈ pods, ∃ ip, Reached print service family p ip entry.1 ∧
      entry.2 = endpoint service p ip := by
  obtain ⟨found, hfound, hid⟩ := List.mem_filterMap.mp h
  obtain rfl : found = some entry := hid
  obtain ⟨p, hp, hplacement⟩ := Fallible.mapM_mem hplaced hfound
  obtain ⟨ip, i, hreached, -, he⟩ := placement_eq_some.mp hplacement
  exact ⟨p, hp, ip, hreached, he⟩

/-- Equal texts of ports are equal ports. -/
theorem ports_of_text (hprint : Set.InjOn print (Printed print service pods))
    {placed : List (Option (List Json × Json))}
    (hplaced : pods.mapM (placement print service family) = .ok placed) :
    ∀ a ∈ placed.filterMap id, ∀ b ∈ placed.filterMap id,
      print (.array a.1) = print (.array b.1) → a.1 = b.1 := by
  intro a ha b hb htext
  obtain ⟨p, hp, ip, hreached, -⟩ := of_mem_placed hplaced ha
  obtain ⟨q, hq, ip', hreached', -⟩ := of_mem_placed hplaced hb
  have harray := hprint (.inr ⟨p, hp, a.1, hreached.resolved, rfl⟩)
    (.inr ⟨q, hq, b.1, hreached'.resolved, rfl⟩) htext
  exact Json.array.inj harray

theorem groups_of_placed {placed : List (Option (List Json × Json))}
    (hplaced : pods.mapM (placement print service family) = .ok placed) :
    groups print service family pods =
      if placed.filterMap id = [] then
        (portSet print service none).map fun ports => [(print (.array ports), (ports, []))]
      else .ok (grouped (fun e => print (.array e.1)) Prod.fst Prod.snd (placed.filterMap id)) := by
  unfold groups
  rw [hplaced]
  change (if grouped _ _ _ (placed.filterMap id) = [] then _ else _) = _
  by_cases hnone : placed.filterMap id = []
  · rw [if_pos (grouped_eq_nil.mpr hnone), if_pos hnone]
    cases portSet print service none <;> rfl
  · rw [if_neg (mt grouped_eq_nil.mp hnone), if_neg hnone]
    rfl

theorem placed_of_groups {gs : List (String × (List Json × List Json))}
    (hgroups : groups print service family pods = .ok gs) :
    ∃ placed, pods.mapM (placement print service family) = .ok placed := by
  unfold groups at hgroups
  obtain ⟨placed, hplaced, -⟩ := Fallible.bind_eq_ok.mp hgroups
  exact ⟨placed, hplaced⟩

theorem groups_eq_ok {gs : List (String × (List Json × List Json))}
    {placed : List (Option (List Json × Json))}
    (hplaced : pods.mapM (placement print service family) = .ok placed)
    (hgroups : groups print service family pods = .ok gs) :
    (placed.filterMap id = [] ∧ ∃ ports, gs = [(print (.array ports), (ports, []))]) ∨
      gs = grouped (fun e => print (.array e.1)) Prod.fst Prod.snd (placed.filterMap id) := by
  rw [groups_of_placed hplaced] at hgroups
  split_ifs at hgroups with hnone
  · cases hports : portSet print service none with
    | error e => simp [hports, Except.map] at hgroups
    | ok ports =>
      rw [hports] at hgroups
      exact .inl ⟨hnone, ports, (Except.ok.inj hgroups).symm⟩
  · exact .inr (Except.ok.inj hgroups).symm

/-- The slices of a family hold just the placements of the Pods. -/
theorem pairs_family {gs : List (String × (List Json × List Json))} (name uid : String)
    {placed : List (Option (List Json × Json))}
    (hprint : Set.InjOn print (Printed print service pods))
    (hplaced : pods.mapM (placement print service family) = .ok placed)
    (hgroups : groups print service family pods = .ok gs) :
    (pairs (gs.flatMap (groupSlices print digest service name uid family))).Perm
      ((placed.filterMap id).map fun e => (.array e.1, e.2)) := by
  rw [pairs_flatMap]
  refine (List.Perm.flatMap_left _ fun group _ => pairs_groupSlices name uid group).trans ?_
  rcases groups_eq_ok hplaced hgroups with ⟨hnone, ports, rfl⟩ | rfl
  · rw [hnone]
    exact .refl _
  · have hentries := grouped_perm Prod.snd (ports_of_text hprint hplaced)
    have hperm := hentries.map fun e => ((.array e.1, e.2) : Json × Json)
    simpa [List.map_flatMap, Function.comp_def] using hperm

theorem placed_sublist {placed : List (Option (List Json × Json))}
    (hplaced : pods.mapM (placement print service family) = .ok placed) :
    ((placed.filterMap id).map fun e => e.2["targetRef"]["uid"]).Sublist
      (pods.map fun p => p["metadata"]["uid"]) := by
  have hall := Fallible.mapM_eq_ok_iff.mp hplaced
  clear hplaced
  induction hall with
  | nil => exact .slnil
  | @cons p found pods placed hp _ ih =>
    cases found with
    | none => exact ih.cons _
    | some entry =>
      obtain ⟨ports, e⟩ := entry
      obtain ⟨ip, i, -, -, rfl⟩ := placement_eq_some.mp hp
      rw [List.filterMap_cons, id, List.map_cons, List.map_cons, endpoint_uid]
      exact ih.cons_cons _

/-- The texts of the uids tell the endpoints apart. -/
theorem nodup_uid_texts (hprint : Set.InjOn print (Printed print service pods))
    (huids : (pods.map fun p => p["metadata"]["uid"]).Nodup)
    {placed : List (Option (List Json × Json))}
    (hplaced : pods.mapM (placement print service family) = .ok placed) :
    ((placed.filterMap id).map fun e => print e.2["targetRef"]["uid"]).Nodup := by
  have hsub := placed_sublist hplaced
  have hnodup := (hsub.nodup huids).map_on (f := print) ?_
  · simpa [List.map_map, Function.comp_def] using hnodup
  · intro u hu v hv heq
    obtain ⟨p, hp, rfl⟩ := List.mem_map.mp (hsub.subset hu)
    obtain ⟨q, hq, rfl⟩ := List.mem_map.mp (hsub.subset hv)
    exact hprint (.inl ⟨p, hp, rfl⟩) (.inl ⟨q, hq, rfl⟩) heq

/-- The slices of a family are the same for every order of the Pods. -/
theorem groups_perm {pods' : List Json} (hperm : pods.Perm pods')
    (hprint : Set.InjOn print (Printed print service pods))
    (huids : (pods.map fun p => p["metadata"]["uid"]).Nodup) (name uid : String)
    {gs : List (String × (List Json × List Json))}
    (hgroups : groups print service family pods = .ok gs) :
    ∃ gs', groups print service family pods' = .ok gs' ∧
      gs'.flatMap (groupSlices print digest service name uid family) =
        gs.flatMap (groupSlices print digest service name uid family) := by
  obtain ⟨placed, hplaced⟩ := placed_of_groups hgroups
  obtain ⟨placed', hplaced', hpermp⟩ := Fallible.mapM_perm hplaced hperm
  have hentries := hpermp.filterMap id
  rw [groups_of_placed hplaced] at hgroups
  rw [groups_of_placed hplaced']
  by_cases hnone : placed.filterMap id = []
  · rw [if_pos hnone] at hgroups
    rw [hnone] at hentries
    rw [if_pos hentries.nil_eq.symm]
    exact ⟨gs, hgroups, rfl⟩
  · have hnone' : placed'.filterMap id ≠ [] := by
      intro h
      rw [h] at hentries
      exact hnone hentries.eq_nil
    rw [if_neg hnone] at hgroups
    obtain rfl := Except.ok.inj hgroups
    rw [if_neg hnone']
    refine ⟨_, rfl, ?_⟩
    have hsorted := grouped_map_of_perm Prod.snd (sortBy (endpointKey print)) ?_
      (ports_of_text hprint hplaced) hentries
    · have hslices (l : List (List Json × Json)) :
          (grouped (fun e => print (.array e.1)) Prod.fst Prod.snd l).flatMap
            (groupSlices print digest service name uid family) =
          ((grouped (fun e => print (.array e.1)) Prod.fst Prod.snd l).map fun group =>
            (group.1, (group.2.1, sortBy (endpointKey print) group.2.2))).flatMap fun group =>
              (List.range (max 1 ((group.2.2.length + SLICE_SIZE - 1) / SLICE_SIZE))).map
                (endpointSlice digest service name uid family group.1 group.2.1 group.2.2) := by
        rw [List.flatMap_map]
        rfl
      rw [hslices, hslices, hsorted]
    · rintro items others ⟨k, rfl⟩ hothers
      apply sortBy_eq_of_perm_of_nodup _ hothers
      have hsub := ((placed.filterMap id).filter_sublist (p := fun e =>
        print (.array e.1) = k)).map fun e : List Json × Json => print e.2["targetRef"]["uid"]
      have hnodup := hsub.nodup (nodup_uid_texts hprint huids hplaced)
      apply List.Nodup.of_map fun k : String ×ₗ String => (ofLex k).1
      simpa [List.map_map, Function.comp_def, endpointKey] using hnodup

/-! ## Names -/

theorem hashed_inj {uid : String} {family family' : Family} {key key' : String} {chunk chunk' : ℕ} :
    hashed uid family key chunk = hashed uid family' key' chunk' ↔
      family = family' ∧ key = key' ∧ chunk = chunk' := by
  have hname : family.name = family'.name ↔ family = family' := by
    cases family <;> cases family' <;> simp [Family.name]
  simp [hashed, hname]

theorem sliceName_inj {name : String} {v w : Json} (h : sliceName digest name v =
    sliceName digest name w) : (digest v).toList.take 20 = (digest w).toList.take 20 := by
  have hlist := congrArg String.toList h
  simp only [sliceName, String.toList_append, String.toList_ofList] at hlist
  exact List.append_cancel_left hlist

/-- What the names of a group's slices are derived from. -/
theorem names_groupSlices (name uid : String) (group : String × (List Json × List Json)) :
    (groupSlices print digest service name uid family group).map (fun s => s["metadata"]["name"]) =
      (List.range (max 1 ((group.2.2.length + SLICE_SIZE - 1) / SLICE_SIZE))).map fun chunk =>
        .string (sliceName digest name (hashed uid family group.1 chunk)) := by
  unfold groupSlices
  simp only [List.map_map, Function.comp_def, endpointSlice_name]
  rw [(perm_sortBy _ _).length_eq]

theorem keysSorted_groups {gs : List (String × (List Json × List Json))}
    (hgroups : groups print service family pods = .ok gs) : KeysSorted gs := by
  obtain ⟨placed, hplaced⟩ := placed_of_groups hgroups
  rcases groups_eq_ok hplaced hgroups with ⟨-, ports, rfl⟩ | rfl
  · exact List.pairwise_singleton _ _
  · exact keysSorted_grouped _

theorem families_nodup {fams : List Family} (h : families service = .ok fams) : fams.Nodup := by
  unfold families at h
  obtain ⟨out, -, h⟩ := Fallible.bind_eq_ok.mp h
  by_cases hout : out = []
  · rw [if_neg (not_not.mpr hout)] at h
    split at h
    · obtain rfl := Except.ok.inj h
      exact List.nodup_singleton _
    · split_ifs at h
      · obtain rfl := Except.ok.inj h
        exact List.nodup_singleton _
      · split at h
        · cases h
        · obtain rfl := Except.ok.inj h
          exact List.nodup_singleton _
  · rw [if_pos hout] at h
    obtain rfl := Except.ok.inj h
    exact List.Nodup.filter _ (by decide)

section

variable (print digest service pods)

/-- The slices of a family. -/
def familySlices (name uid : String) (family : Family) : Result (List Json) := do
  return (← groups print service family pods).flatMap
    (groupSlices print digest service name uid family)

end

theorem familySlices_eq_ok {name uid : String} {slices : List Json} :
    familySlices print digest service pods name uid family = .ok slices ↔
      ∃ gs, groups print service family pods = .ok gs ∧
        slices = gs.flatMap (groupSlices print digest service name uid family) := by
  rw [familySlices, Fallible.bind_eq_ok]
  simp only [pure, Except.pure, Except.ok.injEq, eq_comm]

theorem plan_of_no_selector {i : String × String × String} (hidentity : identity service = .ok i)
    (hselector : service["spec"]["selector"].asObject.all (· = []) = true) (pods : List Json) :
    plan print digest service pods = .ok [] := by
  unfold plan
  rw [hidentity]
  exact if_pos (.inr hselector)

/-- A plan is made of the slices of the Service's families. -/
theorem plan_eq {ns name uid : String} {fams : List Family}
    (hidentity : identity service = .ok (ns, name, uid)) (hfams : families service = .ok fams)
    (pods : List Json) : plan print digest service pods =
      if service["spec"]["type"] = .string "ExternalName" ∨
          service["spec"]["selector"].asObject.all (· = []) then .ok []
      else match fams.mapM (familySlices print digest service pods name uid) with
        | .error e => .error e
        | .ok desired =>
          if LIMIT < desired.flatten.length then .error (.invalid "too many desired EndpointSlices")
          else .ok desired.flatten := by
  unfold plan
  rw [hidentity, hfams]
  change (if _ then _ else fams.mapM (familySlices print digest service pods name uid) >>= _) = _
  cases fams.mapM (familySlices print digest service pods name uid) <;> rfl

theorem plan_eq_ok_iff {ns name uid : String} {slices : List Json} {fams : List Family}
    (hidentity : identity service = .ok (ns, name, uid)) (hfams : families service = .ok fams)
    (htype : service["spec"]["type"] ≠ .string "ExternalName")
    (hselector : ¬ service["spec"]["selector"].asObject.all (· = []) = true) (pods : List Json) :
    plan print digest service pods = .ok slices ↔
      ∃ desired, fams.mapM (familySlices print digest service pods name uid) = .ok desired ∧
        slices = desired.flatten ∧ slices.length ≤ LIMIT := by
  rw [plan_eq hidentity hfams, if_neg (not_or.mpr ⟨htype, hselector⟩)]
  cases fams.mapM (familySlices print digest service pods name uid) with
  | error e => simp
  | ok desired =>
    simp only
    by_cases hlimit : LIMIT < desired.flatten.length
    · rw [if_pos hlimit]
      constructor
      · intro h
        cases h
      · rintro ⟨_, ⟨⟩, rfl, hle⟩
        exact absurd hlimit (not_lt.mpr hle)
    · rw [if_neg hlimit]
      constructor
      · intro h
        obtain rfl := Except.ok.inj h
        exact ⟨desired, rfl, rfl, not_lt.mp hlimit⟩
      · rintro ⟨_, ⟨⟩, rfl, -⟩
        rfl

theorem selected_of_no_selector
    (hselector : service["spec"]["selector"].asObject.all (· = []) = true) :
    selected service p = false := by
  unfold selected
  cases hobject : service["spec"]["selector"].asObject with
  | none => simp
  | some fields =>
    rw [hobject] at hselector
    simp_all

/-! ## The partition -/

/-- What a slice of a plan is made of. -/
theorem of_mem_groupSlices {name uid : String} {group : String × (List Json × List Json)} {s : Json}
    (h : s ∈ groupSlices print digest service name uid family group) :
    s["addressType"] = .string family.name ∧ s["ports"] = .array group.2.1 ∧
      s["endpoints"].items.length ≤ 100 := by
  obtain ⟨chunk, -, rfl⟩ := List.mem_map.mp h
  rw [endpointSlice_addressType, endpointSlice_ports, endpointSlice_endpoints]
  exact ⟨rfl, rfl, length_slice_le _ _ _⟩

theorem names_family {gs : List (String × (List Json × List Json))} (name uid : String) :
    (gs.flatMap (groupSlices print digest service name uid family)).map
      (fun s => s["metadata"]["name"]) =
    (gs.flatMap fun group =>
      (List.range (max 1 ((group.2.2.length + SLICE_SIZE - 1) / SLICE_SIZE))).map fun chunk =>
        hashed uid family group.1 chunk).map fun v => .string (sliceName digest name v) := by
  rw [List.map_flatMap, List.map_flatMap]
  simp only [names_groupSlices, List.map_map, Function.comp_def]

theorem nodup_hashed {fams : List Family} (hfams : fams.Nodup) (uid : String)
    (gs : Family → List (String × (List Json × List Json)))
    (hgs : ∀ family ∈ fams, KeysSorted (gs family)) :
    (fams.flatMap fun family => (gs family).flatMap fun group =>
      (List.range (max 1 ((group.2.2.length + SLICE_SIZE - 1) / SLICE_SIZE))).map fun chunk =>
        hashed uid family group.1 chunk).Nodup := by
  rw [List.nodup_flatMap]
  constructor
  · intro family hfamily
    rw [List.nodup_flatMap]
    constructor
    · intro group _
      apply List.nodup_range.map
      intro a b heq
      exact (hashed_inj.mp heq).2.2
    · apply (hgs family hfamily).imp
      intro a b hlt v ha hb
      obtain ⟨i, -, rfl⟩ := List.mem_map.mp ha
      obtain ⟨j, -, heq⟩ := List.mem_map.mp hb
      exact hlt.ne (hashed_inj.mp heq).2.1.symm
  · apply hfams.imp
    intro a b hne v ha hb
    obtain ⟨ga, -, hva⟩ := List.mem_flatMap.mp ha
    obtain ⟨gb, -, hvb⟩ := List.mem_flatMap.mp hb
    obtain ⟨i, -, rfl⟩ := List.mem_map.mp hva
    obtain ⟨j, -, heq⟩ := List.mem_map.mp hvb
    exact hne (hashed_inj.mp heq).1.symm

theorem placement_of_reached (h : Reached print service family p ip ports) :
    placement print service family p =
      (identity p).map fun _ => some (ports, endpoint service p ip) := by
  unfold placement
  rw [if_neg (by simp [h.isSelected]), h.hasAddress, h.resolved]
  cases ports with
  | nil => exact absurd rfl h.nonempty
  | cons port ports => rfl

/-- A Pod that is reached has its entry. -/
theorem mem_placed {placed : List (Option (List Json × Json))}
    (hplaced : pods.mapM (placement print service family) = .ok placed) (hp : p ∈ pods)
    (h : Reached print service family p ip ports) :
    (ports, endpoint service p ip) ∈ placed.filterMap id := by
  obtain ⟨found, hfound, hplacement⟩ := Fallible.mapM_mem_of_mem hplaced hp
  rw [placement_of_reached h] at hplacement
  rw [List.mem_filterMap]
  refine ⟨found, hfound, ?_⟩
  cases hi : identity p with
  | error e => simp [hi, Except.map] at hplacement
  | ok i =>
    rw [hi] at hplacement
    exact (Except.ok.inj hplacement).symm

section

variable {slices : List Json}

/-- The slices of one family hold the entries of its Pods. -/
structure Holds (print : Json → String) (service : Json) (pods : List Json) (family : Family)
    (slices : List Json) : Prop where
  entries : ∃ placed, pods.mapM (placement print service family) = .ok placed ∧
    (pairs slices).Perm ((placed.filterMap id).map fun e => (.array e.1, e.2))
  addressType : ∀ s ∈ slices, s["addressType"] = .string family.name
  bounded : ∀ s ∈ slices, s["endpoints"].items.length ≤ 100

theorem holds_family {name uid : String} {gs : List (String × (List Json × List Json))}
    (hprint : Set.InjOn print (Printed print service pods))
    (hgroups : groups print service family pods = .ok gs) :
    Holds print service pods family
      (gs.flatMap (groupSlices print digest service name uid family)) where
  entries := by
    obtain ⟨placed, hplaced⟩ := placed_of_groups hgroups
    exact ⟨placed, hplaced, pairs_family name uid hprint hplaced hgroups⟩
  addressType := by
    intro s hs
    obtain ⟨group, -, hgroup⟩ := List.mem_flatMap.mp hs
    exact (of_mem_groupSlices hgroup).1
  bounded := by
    intro s hs
    obtain ⟨group, -, hgroup⟩ := List.mem_flatMap.mp hs
    exact (of_mem_groupSlices hgroup).2.2

theorem mem_pairs {s : Json} (hs : s ∈ slices) (he : e ∈ s["endpoints"].items) :
    (s["ports"], e) ∈ pairs slices :=
  List.mem_flatMap.mpr ⟨s, hs, List.mem_map_of_mem he⟩

/-- An endpoint in a family's slices is that of a Pod, with its ports. -/
theorem Holds.only (h : Holds print service pods family slices) {s : Json} (hs : s ∈ slices)
    (he : e ∈ s["endpoints"].items) : ∃ p ∈ pods, ∃ ip ports,
      Reached print service family p ip ports ∧ s["ports"] = .array ports ∧
        e = endpoint service p ip := by
  obtain ⟨placed, hplaced, hperm⟩ := h.entries
  obtain ⟨entry, hentry, heq⟩ := List.mem_map.mp (hperm.mem_iff.mp (mem_pairs hs he))
  obtain ⟨p, hp, ip, hreached, hendpoint⟩ := of_mem_placed hplaced hentry
  obtain ⟨hports, rfl⟩ := Prod.ext_iff.mp heq
  exact ⟨p, hp, ip, entry.1, hreached, hports.symm, hendpoint⟩

theorem Holds.nodup (h : Holds print service pods family slices)
    (huids : (pods.map fun p => p["metadata"]["uid"]).Nodup) : (pairs slices).Nodup := by
  obtain ⟨placed, hplaced, hperm⟩ := h.entries
  rw [hperm.nodup_iff]
  apply List.Nodup.of_map fun e : Json × Json => e.2["targetRef"]["uid"]
  simpa [List.map_map, Function.comp_def] using (placed_sublist hplaced).nodup huids

/-- The ports go with the endpoint. -/
theorem Holds.ports_eq (h : Holds print service pods family slices)
    (huids : (pods.map fun p => p["metadata"]["uid"]).Nodup) {s t : Json} (hs : s ∈ slices)
    (ht : t ∈ slices) (he : e ∈ s["endpoints"].items) (he' : e ∈ t["endpoints"].items) :
    s["ports"] = t["ports"] := by
  obtain ⟨p, hp, ip, ports, hreached, hports, heq⟩ := h.only hs he
  obtain ⟨q, hq, ip', ports', hreached', hports', heq'⟩ := h.only ht he'
  have huid : p["metadata"]["uid"] = q["metadata"]["uid"] := by
    rw [← endpoint_uid service p ip, ← endpoint_uid service q ip', ← heq, ← heq']
  obtain rfl := List.inj_on_of_nodup_map huids hp hq huid
  have hsame := hreached.resolved.symm.trans hreached'.resolved
  rw [hports, hports', Except.ok.inj hsame]

theorem Holds.unique (h : Holds print service pods family slices)
    (huids : (pods.map fun p => p["metadata"]["uid"]).Nodup) {s t : Json} (hs : s ∈ slices)
    (ht : t ∈ slices) (he : e ∈ s["endpoints"].items) (he' : e ∈ t["endpoints"].items) :
    s = t := by
  have hdisjoint := (List.nodup_flatMap.mp (h.nodup huids)).2
  by_contra hne
  have hsymm : Std.Symm (Function.onFun List.Disjoint fun s : Json =>
      s["endpoints"].items.map fun e => (s["ports"], e)) := ⟨fun _ _ h => h.symm⟩
  have hfree : List.Disjoint (s["endpoints"].items.map fun e => (s["ports"], e))
      (t["endpoints"].items.map fun e => (t["ports"], e)) := hdisjoint.forall hs ht hne
  apply hfree (List.mem_map_of_mem he)
  rw [h.ports_eq huids hs ht he he']
  exact List.mem_map_of_mem he'

theorem Holds.distinct (h : Holds print service pods family slices)
    (huids : (pods.map fun p => p["metadata"]["uid"]).Nodup) {s : Json} (hs : s ∈ slices) :
    s["endpoints"].items.Nodup :=
  ((List.nodup_flatMap.mp (h.nodup huids)).1 s hs).of_map

/-- The slice of a Pod that is reached. -/
theorem Holds.placed (h : Holds print service pods family slices) (hp : p ∈ pods)
    (hreached : Reached print service family p ip ports) : ∃ s ∈ slices,
      s["ports"] = .array ports ∧ endpoint service p ip ∈ s["endpoints"].items := by
  obtain ⟨placed, hplaced, hperm⟩ := h.entries
  have hentry : ((.array ports, endpoint service p ip) : Json × Json) ∈ pairs slices :=
    hperm.mem_iff.mpr (List.mem_map.mpr ⟨_, mem_placed hplaced hp hreached, rfl⟩)
  obtain ⟨s, hs, hpair⟩ := List.mem_flatMap.mp hentry
  obtain ⟨e, he, heq⟩ := List.mem_map.mp hpair
  obtain ⟨hports, rfl⟩ := Prod.ext_iff.mp heq
  exact ⟨s, hs, hports, he⟩

end

theorem Family.name_inj {family family' : Family} :
    Json.string family.name = .string family'.name ↔ family = family' := by
  cases family <;> cases family' <;> simp [Family.name]

/-- The slices of a plan, by families. -/
theorem plan_families {ns name uid : String} {slices : List Json} {fams : List Family}
    (hidentity : identity service = .ok (ns, name, uid)) (hfams : families service = .ok fams)
    (htype : service["spec"]["type"] ≠ .string "ExternalName")
    (hselector : ¬ service["spec"]["selector"].asObject.all (· = []) = true)
    (hplan : plan print digest service pods = .ok slices) :
    ∃ gs : Family → List (String × (List Json × List Json)),
      (∀ family ∈ fams, groups print service family pods = .ok (gs family)) ∧
      slices = fams.flatMap fun family =>
        (gs family).flatMap (groupSlices print digest service name uid family) := by
  obtain ⟨desired, hdesired, rfl, -⟩ :=
    (plan_eq_ok_iff hidentity hfams htype hselector pods).mp hplan
  refine ⟨fun family => (groups print service family pods).toOption.getD [], ?_⟩
  have hall := Fallible.mapM_eq_ok_iff.mp hdesired
  clear hdesired hplan hfams
  induction hall with
  | nil => exact ⟨fun family h => absurd h List.not_mem_nil, rfl⟩
  | @cons family found fams desired hfamily _ ih =>
    obtain ⟨gs, hgs, rfl⟩ := familySlices_eq_ok.mp hfamily
    obtain ⟨hrest, hflatten⟩ := ih
    constructor
    · intro other hother
      rcases List.mem_cons.mp hother with rfl | hother
      · beta_reduce
        rw [hgs]
        rfl
      · exact hrest other hother
    · rw [List.flatten_cons, List.flatMap_cons, hflatten]
      beta_reduce
      rw [hgs]
      rfl

theorem partitions_of_groups {ns name uid : String} {fams : List Family}
    (hidentity : identity service = .ok (ns, name, uid)) (hfams : families service = .ok fams)
    (huids : (pods.map fun p => p["metadata"]["uid"]).Nodup)
    (hprint : Set.InjOn print (Printed print service pods))
    (hdigest : Set.InjOn (fun v => (digest v).toList.take 20) (Hashed print service pods))
    {gs : Family → List (String × (List Json × List Json))}
    (hgs : ∀ family ∈ fams, groups print service family pods = .ok (gs family)) :
    Partitions print service fams pods (fams.flatMap fun family =>
      (gs family).flatMap (groupSlices print digest service name uid family)) := by
  have hholds : ∀ family ∈ fams, Holds print service pods family
      ((gs family).flatMap (groupSlices print digest service name uid family)) :=
    fun family hfamily => holds_family hprint (hgs family hfamily)
  constructor
  case placed =>
    intro family hfamily p hp ip ports hreached
    obtain ⟨s, hs, hports, he⟩ := (hholds family hfamily).placed hp hreached
    refine ⟨s, List.mem_flatMap.mpr ⟨family, hfamily, hs⟩,
      (hholds family hfamily).addressType s hs, hports, he, ?_⟩
    intro other hother htype he'
    obtain ⟨family', hfamily', hother⟩ := List.mem_flatMap.mp hother
    have hsame := ((hholds family' hfamily').addressType other hother).symm.trans htype
    obtain rfl := Family.name_inj.mp hsame
    exact (hholds family' hfamily').unique huids hother hs he' he
  case distinct =>
    intro s hs
    obtain ⟨family, hfamily, hs⟩ := List.mem_flatMap.mp hs
    exact (hholds family hfamily).distinct huids hs
  case bounded =>
    intro s hs
    obtain ⟨family, hfamily, hs⟩ := List.mem_flatMap.mp hs
    exact (hholds family hfamily).bounded s hs
  case only =>
    intro s hs e he
    obtain ⟨family, hfamily, hs⟩ := List.mem_flatMap.mp hs
    obtain ⟨p, hp, ip, ports, hreached, hports, heq⟩ := (hholds family hfamily).only hs he
    exact ⟨family, hfamily, p, hp, ip, ports, hreached,
      (hholds family hfamily).addressType s hs, hports, heq⟩
  case named =>
    rw [List.map_flatMap]
    simp only [names_family]
    rw [← List.map_flatMap]
    apply List.Nodup.map_on _ (nodup_hashed (families_nodup hfams) uid gs fun family hfamily =>
      keysSorted_groups (hgs family hfamily))
    have hmem : ∀ v ∈ fams.flatMap (fun family => (gs family).flatMap fun group =>
        (List.range (max 1 ((group.2.2.length + SLICE_SIZE - 1) / SLICE_SIZE))).map fun chunk =>
          hashed uid family group.1 chunk), v ∈ Hashed print service pods := by
      intro v hv
      obtain ⟨family, hfamily, hv⟩ := List.mem_flatMap.mp hv
      obtain ⟨group, hgroup, hv⟩ := List.mem_flatMap.mp hv
      obtain ⟨chunk, hchunk, rfl⟩ := List.mem_map.mp hv
      refine ⟨ns, name, uid, fams, family, gs family, group, chunk, hidentity, hfams, hfamily,
        hgs family hfamily, hgroup, ?_, rfl⟩
      rw [List.mem_range] at hchunk
      unfold SLICE_SIZE at *
      omega
    intro v hv w hw heq
    exact hdigest (hmem v hv) (hmem w hw) (sliceName_inj (Json.string.inj heq))

/-- Another order of the Pods gives the same slices. -/
theorem plan_perm {ns name uid : String} {slices : List Json} {fams : List Family}
    (hidentity : identity service = .ok (ns, name, uid)) (hfams : families service = .ok fams)
    (htype : service["spec"]["type"] ≠ .string "ExternalName")
    (hselector : ¬ service["spec"]["selector"].asObject.all (· = []) = true)
    (huids : (pods.map fun p => p["metadata"]["uid"]).Nodup)
    (hprint : Set.InjOn print (Printed print service pods)) {pods' : List Json}
    (hperm : pods.Perm pods') (hplan : plan print digest service pods = .ok slices) :
    plan print digest service pods' = .ok slices := by
  rw [plan_eq_ok_iff hidentity hfams htype hselector] at *
  obtain ⟨desired, hdesired, hslices⟩ := hplan
  refine ⟨desired, ?_, hslices⟩
  rw [Fallible.mapM_eq_ok_iff] at *
  apply hdesired.imp
  intro family found hfound
  obtain ⟨gs, hgs, rfl⟩ := familySlices_eq_ok.mp hfound
  obtain ⟨gs', hgs', hsame⟩ := groups_perm hperm hprint huids name uid hgs
  exact familySlices_eq_ok.mpr ⟨gs', hgs', hsame.symm⟩

/-- A plan is refused only for what is malformed in the Service or in a Pod that it selects, and for
too many slices. -/
theorem plan_total {i : String × String × String} {fams : List Family} {advertised : List Json}
    (hidentity : identity service = .ok i) (hfams : families service = .ok fams)
    (hadvertised : portSet print service none = .ok advertised)
    (hpods : ∀ p ∈ pods, selected service p = true →
      (∃ ports, portSet print service (some p) = .ok ports) ∧ ∃ i, identity p = .ok i) :
    (∃ slices, plan print digest service pods = .ok slices) ∨
      plan print digest service pods = .error (.invalid "too many desired EndpointSlices") := by
  have hgroups (family : Family) : ∃ gs, groups print service family pods = .ok gs := by
    obtain ⟨placed, hplaced⟩ : ∃ placed,
        pods.mapM (placement print service family) = .ok placed := by
      apply Fallible.mapM_exists_ok
      intro p hp
      unfold placement
      by_cases hselected : selected service p = true
      · obtain ⟨⟨ports, hports⟩, i, hi⟩ := hpods p hp hselected
        rw [if_neg (by simp [hselected]), hports, hi]
        cases address p family with
        | none => exact ⟨none, rfl⟩
        | some ip => cases ports <;> exact ⟨_, rfl⟩
      · exact ⟨none, if_pos (by simp [hselected])⟩
    rw [groups_of_placed hplaced, hadvertised]
    split_ifs <;> exact ⟨_, rfl⟩
  obtain ⟨ns, name, uid⟩ := i
  obtain ⟨desired, hdesired⟩ : ∃ desired,
      fams.mapM (familySlices print digest service pods name uid) = .ok desired := by
    apply Fallible.mapM_exists_ok
    intro family _
    obtain ⟨gs, hgs⟩ := hgroups family
    exact ⟨_, familySlices_eq_ok.mpr ⟨gs, hgs, rfl⟩⟩
  rw [plan_eq hidentity hfams, hdesired]
  simp only
  split_ifs
  · exact .inl ⟨_, rfl⟩
  · exact .inr rfl
  · exact .inl ⟨_, rfl⟩

/-- Whenever slices are planned for a Service that is not a name, they partition the Pods that it
reaches, and do not depend on the order of the Pods. -/
theorem plan_partitions {slices : List Json} {fams : List Family}
    (hplan : plan print digest service pods = .ok slices)
    (hfams : families service = .ok fams)
    (htype : service["spec"]["type"] ≠ .string "ExternalName")
    (huids : (pods.map fun p => p["metadata"]["uid"]).Nodup)
    (hprint : Set.InjOn print (Printed print service pods))
    (hdigest : Set.InjOn (fun v => (digest v).toList.take 20) (Hashed print service pods)) :
    Partitions print service fams pods slices ∧
      ∀ pods', pods.Perm pods' → plan print digest service pods' = .ok slices := by
  obtain ⟨⟨ns, name, uid⟩, hidentity, -⟩ := Fallible.bind_eq_ok.mp hplan
  by_cases hselector : service["spec"]["selector"].asObject.all (· = []) = true
  · have hnone : ∀ pods, plan print digest service pods = .ok [] :=
      plan_of_no_selector hidentity hselector
    obtain rfl : [] = slices := Except.ok.inj ((hnone pods).symm.trans hplan)
    refine ⟨?_, fun pods' _ => hnone pods'⟩
    constructor
    case placed =>
      intro family _ p _ ip ports hreached
      have hselected := hreached.isSelected
      rw [selected_of_no_selector hselector] at hselected
      cases hselected
    all_goals simp
  · refine ⟨?_, fun pods' hperm =>
      plan_perm hidentity hfams htype hselector huids hprint hperm hplan⟩
    obtain ⟨gs, hgs, rfl⟩ := plan_families hidentity hfams htype hselector hplan
    exact partitions_of_groups hidentity hfams huids hprint hdigest hgs

/-! ## A Service and its Pod -/

def webService (external : Bool) : Json :=
  .ofPairs [("apiVersion", .string "v1"), ("kind", .string "Service"),
    ("metadata", .ofPairs [("name", .string "web"), ("namespace", .string "default"),
      ("uid", .string "service-uid")]),
    ("spec", .ofPairs [("type", .string (if external then "ExternalName" else "ClusterIP")),
      ("selector", .ofPairs [("app", .string "web")]),
      ("ports", .array [.ofPairs [("port", .number (.int 80)),
        ("targetPort", .number (.int 8080))]])])]

def webPod : Json :=
  .ofPairs [("apiVersion", .string "v1"), ("kind", .string "Pod"),
    ("metadata", .ofPairs [("name", .string "web-1"), ("namespace", .string "default"),
      ("uid", .string "pod-1"), ("labels", .ofPairs [("app", .string "web")])]),
    ("spec", .ofPairs [("nodeName", .string "worker")]),
    ("status", .ofPairs [("phase", .string "Running"), ("podIP", .string "10.42.2.1")])]

def webPorts : List Json :=
  [.ofPairs [("name", .string ""), ("port", .number (.int 8080)), ("protocol", .string "TCP")]]

/-- The texts of the uid and the ports. -/
def webText (v : Json) : String :=
  if v = .array webPorts then "[\x7b\"name\":\"\",\"port\":8080,\"protocol\":\"TCP\"\x7d]"
  else "\"pod-1\""

/-- The digest of `["service-uid","IPv4",…,0]`. -/
def webDigest (_ : Json) : String :=
  "2412ff8ac7a888ddb211f9b787ddfb6d4f09d4edf668a9ab1ae3d7afb3197f83"

theorem webPod_ports (external : Bool) :
    portSet webText (webService external) (some webPod) = .ok webPorts := by
  cases external <;> rfl

theorem webPod_reached (external : Bool) :
    Reached webText (webService external) .ipv4 webPod (.v4 170525185) webPorts where
  isSelected := by cases external <;> decide +kernel
  hasAddress := by decide +kernel
  resolved := webPod_ports external
  nonempty := by decide

theorem webService_families (external : Bool) :
    families (webService external) = .ok [.ipv4] := by
  cases external <;> rfl

theorem webText_injOn (external : Bool) :
    Set.InjOn webText (Printed webText (webService external) [webPod]) := by
  have hprinted : ∀ v ∈ Printed webText (webService external) [webPod],
      v = .string "pod-1" ∨ v = .array webPorts := by
    rintro v (⟨p, hp, rfl⟩ | ⟨p, hp, ports, hports, rfl⟩)
    · rw [List.mem_singleton.mp hp]
      exact .inl (by decide +kernel)
    · rw [List.mem_singleton.mp hp, webPod_ports] at hports
      exact .inr (by rw [← Except.ok.inj hports])
  intro v hv w hw heq
  rcases hprinted v hv with rfl | rfl <;> rcases hprinted w hw with rfl | rfl
  · rfl
  · exact absurd heq (by decide +kernel)
  · exact absurd heq (by decide +kernel)
  · rfl

theorem webPod_placed (external : Bool) :
    [webPod].mapM (placement webText (webService external) .ipv4) =
      .ok [some (webPorts, endpoint (webService external) webPod (.v4 170525185))] := by
  rw [Fallible.mapM_eq_ok_iff]
  exact .cons (placement_of_reached (webPod_reached external)) .nil

theorem webDigest_injOn (external : Bool) :
    Set.InjOn (fun v => (webDigest v).toList.take 20)
      (Hashed webText (webService external) [webPod]) := by
  have hone : ∀ v ∈ Hashed webText (webService external) [webPod],
      v = hashed "service-uid" .ipv4 (webText (.array webPorts)) 0 := by
    rintro v ⟨ns, name, uid, fams, family, gs, group, chunk, hidentity, hfams, hfamily, hgs, hgroup,
      hchunk, rfl⟩
    have hi : identity (webService external) = .ok ("default", "web", "service-uid") := by
      cases external <;> rfl
    obtain ⟨rfl, rfl, rfl⟩ : ns = "default" ∧ name = "web" ∧ uid = "service-uid" := by
      simpa [hi, eq_comm] using hidentity
    rw [webService_families] at hfams
    obtain rfl := Except.ok.inj hfams
    obtain rfl := List.mem_singleton.mp hfamily
    rcases groups_eq_ok (webPod_placed external) hgs with ⟨hnone, -⟩ | rfl
    · cases hnone
    · obtain rfl := List.mem_singleton.mp hgroup
      have hzero : chunk = 0 := by
        have hle : chunk * 100 ≤ 1 := hchunk
        omega
      rw [hzero]
  intro v hv w hw _
  rw [hone v hv, hone w hw]

/-- A Service that is reached through its ports has its slice. -/
theorem web_partitioned : ∃ slices, plan webText webDigest (webService false) [webPod] = .ok slices ∧
    Partitions webText (webService false) [.ipv4] [webPod] slices ∧
      ∀ pods', [webPod].Perm pods' → plan webText webDigest (webService false) pods' = .ok slices := by
  have hplan : (plan webText webDigest (webService false) [webPod]).toOption.isSome := by
    decide +kernel
  cases h : plan webText webDigest (webService false) [webPod] with
  | error e => simp [h, Except.toOption] at hplan
  | ok slices =>
    exact ⟨slices, rfl, plan_partitions h (webService_families false) (by decide +kernel)
      (List.nodup_singleton _) (webText_injOn false) (webDigest_injOn false)⟩

/-- A Service that is only a name has no slices, whatever it selects. -/
theorem external_service_unplanned :
    ¬ ∀ (print digest : Json → String) (service : Json) (pods : List Json) (fams : List Family),
      families service = .ok fams → service["spec"]["selector"].asObject.any (· ≠ []) = true →
      (pods.map fun p => p["metadata"]["uid"]).Nodup →
      Set.InjOn print (Printed print service pods) →
      Set.InjOn (fun v => (digest v).toList.take 20) (Hashed print service pods) →
      ∃ slices, plan print digest service pods = .ok slices ∧
        Partitions print service fams pods slices ∧
          ∀ pods', pods.Perm pods' → plan print digest service pods' = .ok slices := by
  intro hall
  obtain ⟨slices, hplan, hpartitions, -⟩ := hall webText webDigest (webService true) [webPod] _
    (webService_families true) (by decide +kernel) (List.nodup_singleton _) (webText_injOn true)
    (webDigest_injOn true)
  have hnone : plan webText webDigest (webService true) [webPod] = .ok [] := rfl
  obtain rfl := Except.ok.inj (hnone.symm.trans hplan)
  obtain ⟨s, hs, -⟩ := hpartitions.placed .ipv4 (by decide) webPod (List.mem_singleton_self _)
    _ _ (webPod_reached true)
  exact absurd hs List.not_mem_nil

end

end Hedronetes.Controllers.Endpoints
