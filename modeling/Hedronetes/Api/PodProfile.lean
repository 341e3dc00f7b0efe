import Hedronetes.Server.Resources

/-!
# The Pod profile of the runtime

The check of a Pod spec has two layers. Claims, projected volumes and the request for a token are
checked first and removed, with the mounts that name them; the generated profile checks the rest.
-/

namespace Hedronetes.Api

open Server

inductive Refusal where
  | unsupported (message : String)
  /-- A write by index into a value that is neither an object nor null. -/
  | panic (message : String)
  deriving DecidableEq

abbrev Result := Except Refusal

def ensure (c : Prop) [Decidable c] (message : String) : Result Unit :=
  if c then .ok () else .error (.unsupported message)

/-! ## Reads -/

/-- A required, non-empty string field. -/
def text (v : Json) (key : String) : Result String :=
  match v[key].asString.filter fun s => s ≠ "" with
  | some s => .ok s
  | none => .error (.unsupported "required Pod field missing")

/-- Safe as a single path component or identity label. -/
def safeComponent (s : String) : Bool :=
  s ≠ "" && s.utf8ByteSize ≤ 253 && s.toList.all (fun c => c.isAlphanum || c = '-' || c = '.') &&
    s ≠ "." && s ≠ ".."

/-- An object may only carry the listed members (null members are ignored). -/
def fields (v : Json) (allowed : List String) : Result Unit :=
  ensure (v.asObject.all fun m => m.all fun e => e.2 = .null || e.1 ∈ allowed)
    "Pod contains an unsupported execution field"

def array (v : Json) : Result (List Json) :=
  if v = .null then .ok []
  else
    match v.asArray with
    | some items => .ok items
    | none => .error (.unsupported "Pod list field must be an array")

/-- A file mode is within 0000-0777. -/
def isMode (v : Json) : Bool := v.asInt.any fun n => 0 ≤ n && n ≤ 0o777

def mode (v : Json) (default : ℤ) : Result ℤ :=
  if v = .null then .ok default
  else if isMode v then .ok (v.asInt.getD default)
  else .error (.unsupported "volume file mode must be within 0000-0777")

def relative (path : String) : Bool :=
  path ≠ "" && path.utf8ByteSize ≤ 4096 && !path.toList.contains '\x00' &&
    (splitOn '/' path).length ≤ 32 &&
    (splitOn '/' path).all (fun s => s ≠ "" && s.utf8ByteSize ≤ 255 && s ≠ "." && s ≠ "..") &&
    (stripStart ".." path).isNone && (stripStart "/" path).isNone

/-- The text before each slash. -/
def parents (path : List Char) : List (List Char) :=
  (List.range path.length).filterMap fun i =>
    if path[i]? = some '/' then some (path.take i) else none

/-- Each element is checked against what those before it gave. -/
def collect {α β : Type} (f : List β → α → Result β) : List β → List α → Result (List β)
  | seen, [] => .ok seen
  | seen, a :: rest => do
    let b ← f seen a
    collect f (seen ++ [b]) rest

/-- Relative paths, none of which occurs twice or lies below another one. -/
def paths (ps : List String) : Result Unit := do
  let seen ← collect (fun seen path => do
    ensure (relative path ∧ path ∉ seen) "invalid or duplicate projected file path"
    return path) [] ps
  ensure (∀ path ∈ seen, ∀ parent ∈ parents path.toList, String.ofList parent ∉ seen)
    "projected file conflicts with a directory"

/-! ## The generated profile -/

def isFalse (v : Json) : Bool := v = .bool false

structure ContainerExecution where
  runAsUser : ℤ
  runAsGroup : ℤ
  readOnlyRootFilesystem : Bool
  deriving DecidableEq

def MAX_UID : ℤ := 2 ^ 32 - 1

/-- The identity a container runs with. -/
def container (spec ctr : Json) : Result ContainerExecution := do
  let sc := ctr["securityContext"]
  let ps := spec["securityContext"]
  match (sc["runAsUser"].asInt.or ps["runAsUser"].asInt).filter fun u => 1 ≤ u ∧ u ≤ MAX_UID with
  | none => .error (.unsupported "runtime requires an explicit non-root UID")
  | some uid =>
    let gid := sc["runAsGroup"].asInt.or ps["runAsGroup"].asInt
    ensure (gid.all fun g => 1 ≤ g ∧ g ≤ MAX_UID) "runtime requires a non-root GID"
    ensure (isFalse sc["allowPrivilegeEscalation"])
      "runtime requires allowPrivilegeEscalation=false"
    fields sc["capabilities"] ["add", "drop"]
    ensure (sc["capabilities"]["add"].items = [] ∧ .string "ALL" ∈ sc["capabilities"]["drop"].items)
      "runtime requires all capabilities dropped"
    let seccomp :=
      if sc["seccompProfile"] = .null then ps["seccompProfile"] else sc["seccompProfile"]
    ensure (seccomp["type"] = .string "RuntimeDefault" ∧ fields seccomp ["type"] = .ok ())
      "runtime-default seccomp is required"
    ensure (sc["readOnlyRootFilesystem"] = .null ∨ sc["readOnlyRootFilesystem"].asBool.isSome)
      "readOnlyRootFilesystem must be a boolean"
    return ⟨uid, gid.getD uid, sc["readOnlyRootFilesystem"].asBool.getD false⟩

/-- How many of the members are there. -/
def present (v : Json) (keys : List String) : ℕ := keys.countP fun k => v[k] ≠ .null

def probe (v : Json) : Result Unit := do
  ["initialDelaySeconds", "periodSeconds", "timeoutSeconds", "successThreshold",
    "failureThreshold"].forM fun field =>
      ensure (v[field] = .null ∨
          v[field].asInt.any fun n => (if field = "initialDelaySeconds" then 0 else 1) ≤ n)
        "invalid readiness timing or threshold"
  fields v ["exec", "httpGet", "tcpSocket", "initialDelaySeconds", "periodSeconds",
    "timeoutSeconds", "successThreshold", "failureThreshold"]
  ensure (present v ["exec", "httpGet", "tcpSocket"] = 1) "invalid readiness probe"
  fields v["exec"] ["command"]
  fields v["httpGet"] ["path", "port", "scheme"]
  fields v["tcpSocket"] ["port"]
  ensure (v["httpGet"]["scheme"].asString.all (· = "HTTP")) "only HTTP readiness is supported"
  ensure (v["httpGet"]["path"].asString.all fun s =>
      (stripStart "/" s).isSome && (stripStart "//" s).isNone)
    "invalid readiness path"

def SPEC_FIELDS : List String :=
  ["nodeName", "containers", "volumes", "securityContext", "restartPolicy",
    "terminationGracePeriodSeconds", "dnsPolicy", "dnsConfig", "hostname",
    "serviceAccount", "serviceAccountName", "automountServiceAccountToken",
    "enableServiceLinks", "schedulerName", "nodeSelector", "tolerations", "affinity",
    "priority", "priorityClassName", "preemptionPolicy", "imagePullSecrets"]

def CONTAINER_FIELDS : List String :=
  ["name", "image", "imagePullPolicy", "command", "args", "workingDir", "env", "envFrom",
    "ports", "resources", "securityContext", "volumeMounts", "readinessProbe",
    "terminationMessagePath", "terminationMessagePolicy"]

/-- The files that a volume projects. -/
def projectedFile (default : ℤ) (item : Json) : Result String := do
  fields item ["key", "path", "mode"]
  let _ ← text item "key"
  let path ← text item "path"
  let _ ← mode item["mode"] default
  return path

/-- The source of a volume and the field that names its object. -/
def volumeSource (v : Json) : Result (Json × String) :=
  if v["configMap"] ≠ .null ∧ v["secret"] = .null then .ok (v["configMap"], "name")
  else if v["configMap"] = .null ∧ v["secret"] ≠ .null then .ok (v["secret"], "secretName")
  else .error (.unsupported "exactly one ConfigMap or Secret volume source is required")

/-- One volume, beside those named before it. -/
def volume (names : List String) (v : Json) : Result String := do
  ensure (fields v ["name", "configMap", "secret"] = .ok ())
    "only ConfigMap and Secret volume sources are implemented"
  let name ← text v "name"
  ensure (safeComponent name ∧ (stripStart "." name).isNone ∧ name ∉ names)
    "invalid or duplicate volume name"
  let (source, field) ← volumeSource v
  fields source [field, "items", "defaultMode", "optional"]
  let object ← text source field
  ensure (safeComponent object ∧ (source["optional"] = .null ∨ source["optional"].asBool.isSome))
    "invalid volume object reference"
  let default ← mode source["defaultMode"] 0o644
  let items ← array source["items"]
  ensure (items.length ≤ 1024) "too many projected files"
  let files ← items.mapM (projectedFile default)
  paths files
  return name

/-- The names of the volumes. -/
def volumes (spec : Json) : Result (List String) := do
  let items ← array spec["volumes"]
  ensure (items.length ≤ 32) "too many Pod volumes"
  collect volume [] items

/-- The kernel's file systems, which nothing is mounted on. -/
def reserved (path : String) : Bool :=
  ["/proc", "/sys", "/dev"].any fun p => path = p || (stripStart (p ++ "/") path).isSome

/-- One mount, beside the destinations before it. -/
def mount (names destinations : List String) (m : Json) : Result String := do
  fields m ["name", "mountPath", "readOnly"]
  let name ← text m "name"
  ensure (name ∈ names) "mount references an undefined volume"
  let path ← text m "mountPath"
  ensure ((∃ rest ∈ stripStart "/" path, relative rest) ∧ reserved path = false ∧
      path ∉ destinations ∧ (m["readOnly"] = .null ∨ m["readOnly"].asBool.isSome))
    "invalid container mount path or options"
  return path

/-- Nested mount destinations obscure a portion of a projected volume. -/
def mounts (names : List String) (ctr : Json) : Result Unit := do
  let items ← array ctr["volumeMounts"]
  let destinations ← collect (mount names) [] items
  paths (destinations.map fun path => String.ofList (path.toList.drop 1))

def environment (e : Json) : Result Unit := do
  fields e ["name", "value", "valueFrom"]
  let source := e["valueFrom"]
  fields source ["configMapKeyRef", "secretKeyRef", "fieldRef"]
  ensure (source = .null ∨ present source ["configMapKeyRef", "secretKeyRef", "fieldRef"] = 1)
    "invalid environment value source"
  if source["fieldRef"] ≠ .null then
    fields source["fieldRef"] ["fieldPath", "apiVersion"]
    ensure (source["fieldRef"]["fieldPath"] ∈ [Json.string "metadata.name",
        .string "metadata.namespace", .string "metadata.uid", .string "spec.nodeName"])
      "unsupported downward API field"

/-- What is checked of a container before its mounts. -/
def containerFields (spec ctr : Json) : Result Unit := do
  fields ctr CONTAINER_FIELDS
  let _ ← text ctr "image"
  ensure (ctr["terminationMessagePolicy"].asString.all (· = "File"))
    "termination message policy is unsupported"
  let ports ← array ctr["ports"]
  ports.forM fun port => fields port ["name", "containerPort", "protocol"]
  ensure (ctr["workingDir"].asString.all fun s =>
      s = "" || ((stripStart "/" s).isSome && !s.toList.contains '\x00'))
    "invalid working directory"
  fields ctr["securityContext"] ["runAsUser", "runAsGroup", "runAsNonRoot",
    "allowPrivilegeEscalation", "readOnlyRootFilesystem", "capabilities", "seccompProfile",
    "procMount"]
  ensure (ctr["securityContext"]["procMount"].asString.all (· = "Default"))
    "unmasked proc mounts are unsupported"
  let _ ← container spec ctr
  fields ctr["resources"] ["requests", "limits"]
  ["requests", "limits"].forM fun k => fields ctr["resources"][k] ["cpu", "memory"]
  let env ← array ctr["env"]
  env.forM environment
  let envFrom ← array ctr["envFrom"]
  envFrom.forM fun source => fields source ["prefix", "configMapRef", "secretRef"]

def containerCheck (spec ctr : Json) (names : List String) : Result Unit := do
  containerFields spec ctr
  mounts names ctr
  if ctr["readinessProbe"] ≠ .null then probe ctr["readinessProbe"]

/-- What is checked of the spec before its volumes. -/
def specFields (spec : Json) : Result Unit := do
  ensure spec.isObject "Pod spec is required"
  fields spec SPEC_FIELDS
  ensure (spec["restartPolicy"].asString.all fun s => s ∈ ["Always", "OnFailure", "Never"])
    "invalid restart policy"
  ensure (spec["terminationGracePeriodSeconds"].asInt.all fun v => 0 ≤ v ∧ v ≤ 30)
    "termination grace outside supported 0-30 seconds"
  ensure (isFalse spec["automountServiceAccountToken"])
    "service-account token projection is not implemented"
  ensure (isFalse spec["enableServiceLinks"]) "service environment injection is not implemented"
  ensure (spec["imagePullSecrets"].items = []) "private image authentication is not implemented"
  ensure (spec["dnsPolicy"].asString.all fun s => s ∈ ["Default", "None", "ClusterFirst"])
    "unsupported DNS policy"
  fields spec["securityContext"] ["runAsUser", "runAsGroup", "runAsNonRoot", "seccompProfile"]
  ensure (spec["hostname"].asString.all fun v => safeComponent v && v.utf8ByteSize ≤ 63)
    "invalid Pod hostname"

/-- The check of the generated overlay. -/
def generated (spec : Json) : Result Unit := do
  specFields spec
  let names ← volumes spec
  match spec["containers"].asArray.filter fun v => v ≠ [] ∧ v.length ≤ 32 with
  | none => .error (.unsupported "invalid container count")
  | some containers =>
    let _ ← collect (fun seen ctr => do
      let name ← text ctr "name"
      ensure (safeComponent name ∧ name ∉ seen) "invalid or duplicate container name"
      containerCheck spec ctr names
      return name) [] containers

/-! ## The extension -/

/-- The name of a volume with a claim. -/
def claim (v : Json) : Result (Option String) :=
  let source := v["persistentVolumeClaim"]
  if source = .null then .ok none
  else
    match v["name"].asString.filter fun n => safeComponent n with
    | none => .error (.unsupported "invalid claim volume name")
    | some name => do
      fields source ["claimName", "readOnly", "subPath"]
      ensure (∃ claimName ∈ (text source "claimName").toOption, safeComponent claimName)
        "invalid claimName"
      ensure (source["readOnly"] = .null ∨ source["readOnly"].asBool.isSome)
        "readOnly must be a boolean"
      return some name

def incomplete : String :=
  "a projected volume must carry the service-account token, the cluster CA and the namespace"

/-- The three sources of a projected volume. -/
inductive Source where
  | token
  | ca
  | namespace
  deriving DecidableEq

def projectedSource (source : Json) : Result Source :=
  if source["serviceAccountToken"] ≠ .null then do
    let token := source["serviceAccountToken"]
    fields token ["audience", "expirationSeconds", "path"]
    let path ← text token "path"
    ensure (path = "token") "the bound token projects at `token`"
    ensure (token["expirationSeconds"].asInt.all fun v => 600 ≤ v ∧ v ≤ 86400)
      "token lifetime must be 600..86400 seconds"
    ensure (token["audience"].asString.all fun a => a ≠ "" ∧ a.utf8ByteSize ≤ 256)
      "invalid token audience"
    return .token
  else if source["configMap"] ≠ .null then do
    let map := source["configMap"]
    fields map ["name", "items", "optional"]
    let name ← text map "name"
    ensure (name = "kube-root-ca.crt" ∧ map["optional"] ≠ .bool true)
      "the cluster CA projects from kube-root-ca.crt"
    return .ca
  else if source["downwardAPI"] ≠ .null then do
    fields source["downwardAPI"] ["items"]
    match source["downwardAPI"]["items"].asArray with
    | some [item] =>
      fields item ["path", "fieldRef"]
      let path ← text item "path"
      ensure (path = "namespace" ∧ item["fieldRef"]["fieldPath"] = .string "metadata.namespace")
        "only the namespace is projected"
      return .namespace
    | _ => .error (.unsupported "only the namespace is projected")
  else .error (.unsupported "unsupported projected volume source")

/-- Whether a volume is the projected one that the API injects: the bound token, the cluster CA and
the namespace, and nothing else. -/
def projection (v : Json) : Result Bool :=
  let projected := v["projected"]
  if projected = .null then .ok false
  else do
    fields projected ["defaultMode", "sources"]
    ensure (projected["defaultMode"] = .null ∨ isMode projected["defaultMode"])
      "projected volume mode must be within 0000-0777"
    match projected["sources"].asArray.filter fun s => s.length = 3 with
    | none => .error (.unsupported incomplete)
    | some sources =>
      let kinds ← sources.mapM projectedSource
      ensure (kinds.count .token = 1 ∧ kinds.count .ca = 1 ∧ kinds.count .namespace = 1) incomplete
      return true

/-- The name of a projected volume. -/
def projectedName (v : Json) : Result (Option String) := do
  if ← projection v then
    match v["name"].asString.filter fun n => safeComponent n with
    | some name => return some name
    | none => .error (.unsupported "invalid projected volume name")
  else return none

/-- `value[name] = f value[name]`. -/
def modify (value : Json) (name : String) (f : Json → Result Json) : Result Json := do
  let inner ← f value[name]
  (setAt value [name] inner).mapError fun _ => .panic "cannot access key in JSON value"

/-- The items of a list that do not go by one of the names. -/
def without (stripped : List String) : Json → Json
  | .array items => .array (items.filter fun v => !v["name"].asString.any fun n => n ∈ stripped)
  | v => v

/-- The containers of a list without the mounts that go by one of the names. -/
def withoutMounts (stripped : List String) : Json → Result Json
  | .array containers => do
    let containers ← containers.mapM fun ctr =>
      modify ctr "volumeMounts" fun mounts => return without stripped mounts
    return .array containers
  | v => .ok v

/-- The names of the volumes that are checked here. -/
def strippedNames (spec : Json) : Result (List String) := do
  let claims ← spec["volumes"].items.mapM claim
  let projected ← spec["volumes"].items.mapM projectedName
  return claims.reduceOption ++ projected.reduceOption

/-- The spec that the generated overlay reads: volumes and mounts it predates are removed, and a
request for a bound token becomes the profile's default. -/
def extension (spec : Json) : Result (Option Json) := do
  let stripped ← strippedNames spec
  if stripped = [] ∧ spec["automountServiceAccountToken"] ≠ .bool true then return none
  else
    let result ← modify spec "automountServiceAccountToken" fun _ => return .bool false
    if stripped = [] then return some result
    else
      let result ← modify result "volumes" fun v => return without stripped v
      let result ← modify result "containers" (withoutMounts stripped)
      let result ← modify result "initContainers" (withoutMounts stripped)
      return some result

/-- Whether the runtime can execute a Pod spec exactly as written. -/
def check (spec : Json) : Result Unit := do
  match ← extension spec with
  | none => generated spec
  | some result => generated result

end Hedronetes.Api
