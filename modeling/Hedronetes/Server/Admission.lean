import Hedronetes.Server.Strategy

/-!
# Admission

Namespace lifecycle and Pod policy, the ServiceAccount a Pod runs as, the volume a
claim is bound to and the address range a Node reserves. The last two write to
the registry.
-/

namespace Hedronetes.Server

open Apply
open Storage (StoreKey)

/-! ## Namespaces and Pod policy -/

def policySettings : List (String × List String) :=
  [("enforce", ["privileged", "baseline", "restricted"]), ("enforce-version", ["latest", "v1.34"])]

/-- A label that asks for a policy is a supported one. -/
def supportedLabel (label : String × Json) : Bool :=
  match stripStart "pod-security.kubernetes.io/" label.1 with
  | none => true
  | some setting => policySettings.any fun (name, values) =>
      setting = name && label.2.asString.any fun v => v ∈ values

def admitNamespace (value : Json) : Outcome Unit :=
  match (value["metadata"]["labels"].asObject.getD []).find? fun label => !supportedLabel label with
  | none => .ok ()
  | some label => .error (invalid ("unsupported Pod Security setting " ++ label.1 ++
      "; supported: enforce and enforce-version (latest or v1.34)"))

/-- A Namespace that is being deleted. -/
def terminating (ns : Json) : Bool :=
  ns["status"]["phase"] = .string "Terminating" || !ns["metadata"]["deletionTimestamp"].isNull

def lifecycle (ns : Json) (create : Bool) : Outcome Unit :=
  if create && terminating ns then
    .error (forbidden "cannot create new content in a terminating namespace")
  else .ok ()

def admitPodPolicy (rules : SpecRules) (ns pod : Json) : Outcome Unit := do
  let name := ns["metadata"]["name"].asString.getD ""
  let fallback :=
    if name ∈ ["kube-system", "kube-public", "kube-node-lease"] then "privileged"
    else "restricted"
  let labels := ns["metadata"]["labels"]
  let policy := labels["pod-security.kubernetes.io/enforce"].asString.getD fallback
  if policy ∉ ["privileged", "baseline", "restricted"] then
    throw (forbidden "invalid stored namespace Pod Security policy")
  let version := labels["pod-security.kubernetes.io/enforce-version"].asString
  if version ∉ [none, some "latest", some "v1.34"] then
    throw (forbidden "unsupported stored Pod Security policy version")
  match rules.podSecurity policy pod["spec"] pod["metadata"]["annotations"] with
  | none => return ()
  | some field =>
    throw (forbidden ("violates PodSecurity " ++ policy ++ ":v1.34: " ++ field))

/-! ## Service accounts -/

def mountPath : String := "/var/run/secrets/kubernetes.io/serviceaccount"

/-- The projection of a Pod's own token, the cluster CA and the namespace. -/
def tokenVolume (name : String) : Json :=
  .ofPairs [("name", .string name), ("projected", .ofPairs [("defaultMode", .number (.int 420)),
    ("sources", .array [
      .ofPairs [("serviceAccountToken", .ofPairs [("expirationSeconds", .number (.int 3607)),
        ("path", .string "token")])],
      .ofPairs [("configMap", .ofPairs [("name", .string "kube-root-ca.crt"), ("items",
        .array [.ofPairs [("key", .string "ca.crt"), ("path", .string "ca.crt")]])])],
      .ofPairs [("downwardAPI", .ofPairs [("items", .array [.ofPairs [
        ("path", .string "namespace"), ("fieldRef", .ofPairs [("apiVersion", .string "v1"),
          ("fieldPath", .string "metadata.namespace")])]])])]])])]

def mountToken (name : String) (container : Json) : Outcome Json :=
  if !container.isObject then .error (.panic "container object")
  else
    match (container.field "volumeMounts").getD (.array []) with
    | .array mounts =>
      let mounts :=
        if mounts.any fun m => m["mountPath"] = .string mountPath then mounts
        else mounts ++ [.ofPairs [("name", .string name), ("readOnly", .bool true),
          ("mountPath", .string mountPath)]]
      setAt container ["volumeMounts"] (.array mounts)
    | _ => .error (.panic "volumeMounts array")

def addVolume (spec : Json) (name : String) : Outcome Json :=
  if spec["volumes"].items.any fun v => v["name"] = .string name then .ok spec
  else
    match (spec.field "volumes").getD (.array []) with
    | .array volumes => setAt spec ["volumes"] (.array (volumes ++ [tokenVolume name]))
    | _ => .error (.panic "volumes array")

def mountTokens (name : String) (spec : Json) (field : String) : Outcome Json :=
  match spec[field].asArray with
  | none => .ok spec
  | some containers => do
    let containers ← containers.mapM (mountToken name)
    setAt spec [field] (.array containers)

/-- What a Pod with `automountServiceAccountToken` carries. -/
def projectToken (spec : Json) (accessSuffix : String) : Outcome Json := do
  let existing := (spec["volumes"].items.filter fun v => v["projected"] ≠ .null).filterMap
    fun v => v["name"].asString
  let name := existing.head?.getD ("kube-api-access-" ++ accessSuffix)
  if !spec.isObject then return spec
  else
    let spec ← addVolume spec name
    ["containers", "initContainers"].foldlM (mountTokens name) spec

/-- The Secrets a Pod's volumes and environment name. -/
def secretReferences (spec : Json) : List String :=
  (spec["volumes"].items.flatMap fun volume =>
    volume["secret"]["secretName"].asString.toList ++
      volume["projected"]["sources"].items.filterMap fun s => s["secret"]["name"].asString) ++
  ["containers", "initContainers", "ephemeralContainers"].flatMap fun field =>
    spec[field].items.flatMap fun container =>
      (container["env"].items.filterMap fun e =>
        e["valueFrom"]["secretKeyRef"]["name"].asString) ++
      container["envFrom"].items.filterMap fun e => e["secretRef"]["name"].asString

def validateSecretReferences (spec account : Json) : Outcome Unit :=
  let allowed := account["secrets"].items.filterMap fun v => v["name"].asString
  let pulls := account["imagePullSecrets"].items.filterMap fun v => v["name"].asString
  if (secretReferences spec).any fun name => name ∉ allowed then
    .error (forbidden "Pod references a secret not allowed by its service account")
  else if spec["imagePullSecrets"].items.any fun v => v["name"].asString.all (· ∉ pulls) then
    .error (forbidden "Pod references an image pull secret not allowed by its service account")
  else .ok ()

def enforcesSecrets (account : Json) : Bool :=
  account["metadata"]["annotations"]["kubernetes.io/enforce-mountable-secrets"].asString.any
    fun v => v = "1" || v.toList.map Char.toLower = "true".toList ||
      v.toList.map Char.toLower = "t".toList

/-- The account must exist and permit what the Pod refers to. -/
def serviceAccountAdmit (accessSuffix : String) (ns : String) (pod : Json) (reg : Registry) :
    Outcome Json := do
  if (pod["metadata"]["annotations"].field "kubernetes.io/config.mirror").isSome then
    throw (forbidden "mirror Pod admission is not implemented")
  let spec := pod["spec"]
  let name := spec["serviceAccountName"].asString.getD "default"
  if !validName name then throw (invalid "invalid serviceAccountName")
  let account ←
    match reg.get (← key ("/registry/serviceaccounts/" ++ ns ++ "/" ++ name)) with
    | some stored => object stored
    | none => throw (forbidden "Pod service account does not exist in its namespace")
  if account["metadata"]["deletionTimestamp"] ≠ .null then
    throw (forbidden "Pod service account is terminating")
  let spec ←
    if spec["imagePullSecrets"].items = [] ∧ account["imagePullSecrets"] ≠ .null then
      setAt spec ["imagePullSecrets"] account["imagePullSecrets"]
    else pure spec
  let spec ←
    if spec["automountServiceAccountToken"] = .bool true then projectToken spec accessSuffix
    else pure spec
  if enforcesSecrets account then validateSecretReferences spec account
  setAt pod ["spec"] spec

/-! ## Claims -/

def provisioner : String := "h3s.io/local-path"

def claimPath (ns claim : String) : String :=
  "/var/lib/hedronetes/local-path/" ++ ns ++ "_" ++ claim

/-- A claim that is bound to a volume. -/
def bound (value volume : Json) (name : String) : Outcome Json := do
  let requested := value["spec"]["resources"]["requests"]["storage"]
  let value ← setAt value ["spec", "volumeName"] (.string name)
  let capacity := (volume["spec"]["capacity"]["storage"].asString.getD
    (requested.asString.getD ""))
  setAt value ["status"] (.ofPairs [("phase", .string "Bound"),
    ("accessModes", volume["spec"]["accessModes"]),
    ("capacity", .ofPairs [("storage", .string capacity)])])

/-- The volume provisioned for a claim. -/
def provisioned (fresh : Fresh) (value storageClass : Json) (ns name uid : String)
    (storage : ℤ) : Json :=
  .ofPairs [("apiVersion", .string "v1"), ("kind", .string "PersistentVolume"),
    ("metadata", .ofPairs [("name", .string ("pvc-" ++ uid)), ("uid", .string fresh.volumeUid),
      ("creationTimestamp", .string fresh.now),
      ("labels", .ofPairs [("app.kubernetes.io/managed-by", .string "h3s-local-path")])]),
    ("spec", .ofPairs [
      ("capacity", .ofPairs [("storage", .string (toString storage))]),
      ("accessModes", value["spec"]["accessModes"]),
      ("persistentVolumeReclaimPolicy", .string "Delete"),
      ("storageClassName", storageClass["metadata"]["name"]),
      ("volumeMode", value["spec"]["volumeMode"]),
      ("local", .ofPairs [("path", .string (claimPath ns name))]),
      ("claimRef", .ofPairs [("apiVersion", .string "v1"),
        ("kind", .string "PersistentVolumeClaim"), ("name", .string name),
        ("namespace", .string ns), ("uid", .string uid)])])]

def getObject (path : String) (reg : Registry) : Outcome (Option Json) := do
  match reg.get (← key path) with
  | some stored => return some (← object stored)
  | none => return none

/-- A claim binds to the volume it names if that is free or names it back. -/
def bindNamed (reg : Registry) (value : Json) (ns uid requested : String) : Outcome Json := do
  match ← getObject ("/registry/persistentvolumes/" ++ requested) reg with
  | none => throw (invalid "the requested PersistentVolume does not exist")
  | some volume =>
    let claimRef := volume["spec"]["claimRef"]
    if claimRef ≠ .null ∧ (claimRef["uid"] ≠ .string uid ∨ claimRef["namespace"] ≠ .string ns) then
      throw (invalid "the PersistentVolume is claimed by another object")
    else bound value volume requested

/-- The class of a claim, if this server provisions for it. -/
def ownClass (reg : Registry) (value : Json) : Outcome (Option Json) :=
  match value["spec"]["storageClassName"].asString.filter (· ≠ "") with
  | none => return none
  | some storageClass => do
    match ← getObject ("/registry/storageclasses/" ++ storageClass) reg with
    | none => throw (invalid "the named StorageClass does not exist")
    | some storageClass =>
      return if storageClass["provisioner"] = .string provisioner then some storageClass else none

def requiredText (value : Json) (message : String) : Outcome String :=
  match value.asString.filter (· ≠ "") with
  | some s => .ok s
  | none => .error (invalid message)

/-- Creates a volume, or keeps the one that is there. -/
def createVolume (name : String) (volume : Json) : Action Unit := fun reg =>
  match key ("/registry/persistentvolumes/" ++ name) with
  | .error e => .error e reg
  | .ok k => if (reg.get k).isSome then .ok () reg else .ok () (reg.put k volume)

/-- Bind the claim this write is creating, or provision a volume for it. -/
def claimBind (rules : SpecRules) (fresh : Fresh) (value : Json) : Action Json := do
  let ns ← requiredText value["metadata"]["namespace"] "a claim requires a namespace"
  let name ← requiredText value["metadata"]["name"] "a claim requires a name"
  let uid := value["metadata"]["uid"].asString.getD ""
  let requested := value["spec"]["volumeName"].asString.getD ""
  if requested ≠ "" then reading fun reg => bindNamed reg value ns uid requested
  else
    match ← reading fun reg => ownClass reg value with
    | none => return value
    | some storageClass =>
      match value["spec"]["resources"]["requests"]["storage"].asString.bind rules.quantity with
      | none => throw (invalid "resources.requests.storage must be a resource quantity")
      | some storage =>
        let volume := provisioned fresh value storageClass ns name uid storage
        createVolume ("pvc-" ++ uid) volume
        bound value volume ("pvc-" ++ uid)

/-! ## Node addresses -/

def ledgerKey : String := "/registry/h3s-node-cidrs/allocations"

def nodeCidr (node : Json) : Outcome (Option String) :=
  let cidr := node["spec"]["podCIDR"].asString.filter (· ≠ "")
  let list := node["spec"]["podCIDRs"]
  if list = .null then .ok cidr
  else
    match list with
    | .array items =>
      if items = (cidr.map Json.string).toList then .ok cidr
      else .error (invalid
        "podCIDRs must contain exactly podCIDR; only IPv4 single-stack allocation is supported")
    | _ => .error (invalid "podCIDRs must be an array")

/-- The stored range of a Node does not change. -/
def keepsCidr (value : Json) (old : Option Json) : Outcome (Option String) := do
  let cidr ← nodeCidr value
  match old with
  | none => return cidr
  | some old =>
    match ← nodeCidr old with
    | none => return cidr
    | some previous =>
      if cidr = some previous then return cidr
      else throw (invalid "allocated node CIDR is immutable")

/-- Reserve before publishing the Node: a failed write may leave a reservation. -/
def cidrAdmit (reserve : Json → String → String → Outcome (Option Json)) (value : Json)
    (old : Option Json) : Action Unit := do
  match ← keepsCidr value old with
  | none => return ()
  | some cidr =>
    let k ← key ledgerKey
    let saved ← reading fun reg =>
      match reg.get k with
      | some saved => .ok saved
      | none => .error (failure 500 "InternalError" "node CIDR ledger is missing")
    match ← reserve saved.value (value["metadata"]["name"].asString.getD "") cidr with
    | none => return ()
    | some ledger =>
      let _ ← update k ledger saved.revision
      return ()

end Hedronetes.Server
