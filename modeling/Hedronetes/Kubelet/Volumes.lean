import Hedronetes.Api.PodSoundness
import Hedronetes.Foundations.LexicalPaths

/-!
# The volume mounts of a container

The kubelet tells the container runtime which host path stands behind each mount: the directory the
provisioner gave to a claim, or a directory of the Pod's own.
-/

namespace Hedronetes.Kubelet

open Server Api Fallible LexicalPaths

inductive Error where
  /-- What the profile answers. -/
  | profile (refusal : Refusal)
  | invalid (message : String)
  deriving DecidableEq

abbrev Result := Except Error

def text (v : Json) (key : String) : Result String := (Api.text v key).mapError .profile

/-! ## Paths as text -/

def isAbsolute (path : String) : Bool := path.toList.head? = some '/'

/-- An absolute path takes the place of what was there. -/
def push (path s : String) : String :=
  if isAbsolute s then s
  else if path = "" ∨ path.toList.getLast? = some '/' then path ++ s
  else path ++ "/" ++ s

def segment (s : String) : Segment String :=
  if s = "" ∨ s = "." then .here
  else if s = ".." then .parent
  else .name s

def segments (path : String) : List (Segment String) := (splitOn '/' path).map segment

/-- The directory or file a path names, seen from a working directory. -/
def resolve (cwd : List String) (path : String) : List String :=
  walk (if isAbsolute path then [] else cwd) (segments path)

/-! ## Volumes -/

def SERVICE_ACCOUNT_VOLUME : String := "kube-api-access"

def SERVICE_ACCOUNT_PATH : String := "/var/run/secrets/kubernetes.io/serviceaccount"

def array (v : Json) : Result (List Json) :=
  if v = .null then .ok []
  else
    match v.asArray with
    | some items => .ok items
    | none => .error (.invalid "volume field must be an array")

/-- The directory that the provisioner hands to a claim. -/
def claimPath (ns claim : String) : String :=
  "/var/lib/hedronetes/local-path/" ++ ns ++ "_" ++ claim

/-- What is asked of the identity of a Pod before its profile. -/
def identity (p : Json) : Result Unit :=
  ["uid", "name", "namespace"].forM fun k => do
    let s ← text p["metadata"] k
    if safeComponent s then .ok () else .error (.invalid "invalid Pod identity")

structure ClaimVolume where
  name : String
  claim : String
  subPath : Option String

def subPath (source : Json) : Option String := source["subPath"].asString.filter fun s => s ≠ ""

def claimVolume (v : Json) : Result (Option ClaimVolume) :=
  let source := v["persistentVolumeClaim"]
  if source = .null then .ok none
  else do
    let name ← text v "name"
    let claim ← text source "claimName"
    return some ⟨name, claim, subPath source⟩

def claimVolumes (p : Json) : Result (List ClaimVolume) := do
  let volumes ← array p["spec"]["volumes"]
  let claims ← volumes.mapM claimVolume
  return claims.reduceOption

structure Mount where
  containerPath : String
  hostPath : String
  readonly : Bool
  deriving DecidableEq

/-- The host path of a claim. -/
def ClaimVolume.host (ns : String) (volume : ClaimVolume) : String :=
  match volume.subPath with
  | some sub => push (claimPath ns volume.claim) sub
  | none => claimPath ns volume.claim

/-- The host path of a volume of the Pod's own. -/
def ownHost (podRoot name : String) : String := push (push podRoot "volumes") name

def mount (claims : List ClaimVolume) (ns podRoot : String) (m : Json) : Result Mount := do
  let name ← text m "name"
  let (host, readonly) := match claims.find? fun volume => volume.name = name with
    | some volume => (volume.host ns, decide (m["readOnly"] = .bool true))
    | none => (ownHost podRoot name, true)
  let containerPath ← text m "mountPath"
  return ⟨containerPath, host, readonly⟩

/-- Every container reaches its token, unless it mounts something there already. -/
def tokenMount (p : Json) (podRoot : String) (mounts : List Mount) : List Mount :=
  if p["spec"]["automountServiceAccountToken"] = .bool true ∧
      ∀ m ∈ mounts, m.containerPath ≠ SERVICE_ACCOUNT_PATH then
    [⟨SERVICE_ACCOUNT_PATH, ownHost podRoot SERVICE_ACCOUNT_VOLUME, true⟩]
  else []

def mounts (p ctr : Json) (podRoot : String) : Result (List Mount) := do
  let claims ← claimVolumes p
  let ns ← text p["metadata"] "namespace"
  let items ← array ctr["volumeMounts"]
  let mounts ← items.mapM (mount claims ns podRoot)
  return mounts ++ tokenMount p podRoot mounts

end Hedronetes.Kubelet
