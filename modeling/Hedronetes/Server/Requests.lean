import Hedronetes.Server.Writes

/-!
# Requests

A request is parsed to a target and a verb, authorized, and then served as a read,
handed to the write pipeline, or answered with a bound token. Lists and watches
are served item by item, and the registry may change between two items.
-/

namespace Hedronetes.Server

open FirstMatch Apply Auth
open Storage (StoreKey EventKind)

structure HttpRequest where
  method : String
  path : String
  query : Query
  body : Body

section

variable (lib : Libraries) (fresh : Fresh)

/-! ## Bound tokens -/

/-- How a token is bound to a running Pod. -/
structure Bound where
  kind : String
  name : String
  uid : String
  deriving DecidableEq

def bounded (value : String) : Bool :=
  1 ≤ value.utf8ByteSize && value.utf8ByteSize ≤ 256 &&
    value.toList.all fun c => 32 ≤ c.val && c.val ≠ 127

/-- The value is an object that has no other members than these. -/
def onlyKeys (value : Json) (keys : List String) : Bool :=
  value.asObject.any fun fields => fields.all fun e => e.1 ∈ keys

def tokenAudiences (spec : Json) : Outcome (List String) := do
  let audiences ← spec["audiences"].items.foldlM (fun out audience =>
    match audience.asString.filter fun a => bounded a with
    | none => .error (invalid
        "token audiences must be non-empty printable strings up to 256 bytes")
    | some a => .ok (if a ∈ out then out else out ++ [a])) []
  let audiences := if audiences = [] then ["https://kubernetes.default.svc"] else audiences
  if 10 < audiences.length then throw (invalid "a token may name at most 10 audiences")
  return audiences

def tokenSeconds (spec : Json) : Outcome ℤ :=
  let refused := Except.error (invalid "expirationSeconds must be between 600 and 86400")
  match spec["expirationSeconds"].asInt with
  | none => if spec["expirationSeconds"] = .null then .ok 3607 else refused
  | some seconds => if 600 ≤ seconds ∧ seconds ≤ 86400 then .ok seconds else refused

def tokenBound (reference : Json) : Outcome (Option Bound) :=
  if reference = .null then .ok none
  else if !onlyKeys reference ["apiVersion", "kind", "name", "uid"] then
    .error (invalid "unsupported boundObjectRef field")
  else
    let bound : Bound := ⟨text reference["kind"], text reference["name"], text reference["uid"]⟩
    if bound.kind ≠ "Pod" ∨ !validName bound.name ∨ bound.uid = "" ∨
        128 < bound.uid.utf8ByteSize ∨ '\x00' ∈ bound.uid.toList then
      .error (invalid "boundObjectRef must name a Pod with kind, name and uid")
    else .ok (some bound)

/-- A node may only mint a token for a Pod it is running. -/
def nodeMints (user : User) (ns : String) (bound : Option Bound) (reg : Registry) :
    Outcome Unit :=
  let denied := forbidden "a node may only mint a token bound to a Pod it is running"
  match user.nodeName with
  | none => .ok ()
  | some node =>
    match bound with
    | none => .error denied
    | some reference => do
      match ← getObject ("/registry/pods/" ++ ns ++ "/" ++ reference.name) reg with
      | none => throw denied
      | some pod =>
        if pod["metadata"]["uid"].asString ≠ some reference.uid ∨
            pod["spec"]["nodeName"].asString ≠ some node then
          throw denied
        else return ()

/-- The account a token is issued for. -/
def tokenAccount (ns account : String) (reg : Registry) : Outcome Json := do
  match ← getObject ("/registry/serviceaccounts/" ++ ns ++ "/" ++ account) reg with
  | none => throw (failure 404 "NotFound" "service account not found")
  | some object =>
    if object["metadata"]["deletionTimestamp"] ≠ .null then
      throw (forbidden "service account is terminating")
    else return object

/-- The registry's record of a token. -/
def tokenRecord (ns account : String) (uid : Json) (audiences : List String) (expires : ℤ)
    (bound : Option Bound) : Json :=
  .ofPairs [("version", .number (.int 1)), ("namespace", .string ns),
    ("service_account", .string account), ("uid", uid),
    ("audiences", .array (audiences.map Json.string)), ("expiration", .number (.int expires)),
    ("bound", match bound with
      | none => .null
      | some b => .ofPairs [("kind", .string b.kind), ("name", .string b.name),
          ("uid", .string b.uid)])]

/-- `POST /api/v1/namespaces/{ns}/serviceaccounts/{name}/token`. -/
def createToken (user : User) (target : Target) (request : HttpRequest) : Action Response := do
  if request.method ≠ "POST" then
    throw (failure 405 "MethodNotAllowed" "a bound token requires POST")
  else if request.query.params.any fun e => e.1 ≠ "timeout" then
    throw (bad "a bound token accepts only the client timeout parameter")
  else
    match target.ns, target.name with
    | none, _ => throw (invalid "a bound token requires a namespace")
    | _, none => throw (invalid "a bound token requires a service account")
    | some ns, some account =>
      let selection ← lib.selection "" "" target.resource.kind
      let _ ← reading fun reg => resource lib reg user target "create" selection
      let value ← lib.decode request.body.bytes request.body.contentType
      let spec := value["spec"]
      if value["kind"] ≠ .string "TokenRequest" ∨
          value["apiVersion"] ≠ .string "authentication.k8s.io/v1" then
        throw (invalid "a bound token requires an authentication.k8s.io/v1 TokenRequest")
      else if !onlyKeys spec ["audiences", "expirationSeconds", "boundObjectRef"] then
        throw (invalid "unsupported TokenRequest spec field")
      else
        let audiences ← tokenAudiences spec
        let expiration ← tokenSeconds spec
        let bound ← tokenBound spec["boundObjectRef"]
        reading (nodeMints user ns bound)
        let object ← reading (tokenAccount ns account)
        if 2 ^ 63 ≤ fresh.seconds + expiration then throw (invalid "invalid token lifetime")
        else
          let record := tokenRecord ns account object["metadata"]["uid"] audiences
            (fresh.seconds + expiration) bound
          let k ← key ("/registry/h3s-bound-tokens/" ++ lib.digest fresh.secret)
          let _ ← create k record
          return .token record

/-! ## Reads -/

def getRead (target : Target) (reg : Registry) : Outcome Response := do
  let stored ← fetch (← named target) "object not found" reg
  return .object 200 (← object stored)

/-- One item of a list, served while the registry is `now`. -/
def emitItem (grant : Grant) (now : Registry) (item : Stored) : Outcome (Option Json) := do
  let value ← object item
  if grant.selection.isMatch lib.text.print value then
    match grant.readGuard with
    | some guard => guard.check now
    | none => pure ()
    return some value
  else return none

/-- The items a list delivers before it ends or fails. -/
def emitList (grant : Grant) : List (Registry × Stored) → List (Registry × Json)
  | [] => []
  | (now, item) :: rest =>
    match emitItem lib grant now item with
    | .ok (some value) => (now, value) :: emitList grant rest
    | .ok none => emitList grant rest
    | .error _ => []

structure WatchEvent where
  kind : EventKind
  revision : ℕ
  object : Option Stored
  previous : Option Stored

def viewed : Option Stored → Outcome (Option Json)
  | none => .ok none
  | some stored => do return some (← object stored)

/-- The object a change is reported with, and how. -/
def change (selection : Selection) (event : WatchEvent) : Outcome (Option (String × Json)) := do
  let current ← viewed event.object
  let previous ← viewed event.previous
  let selected := fun v : Option Json => v.filter (selection.isMatch lib.text.print)
  let kept := if event.kind = .deleted then none else selected current
  match selected previous, kept with
  | none, some value => return some ("ADDED", value)
  | some _, some value => return some ("MODIFIED", value)
  | some value, none => return some ("DELETED", value)
  | none, none => return none

/-- One event of a watch, served while the registry is `now`. A bookmark has no object. -/
def emitEvent (grant : Grant) (now : Registry) (event : WatchEvent) :
    Outcome (Option (String × Json)) := do
  match grant.readGuard with
  | some guard => guard.check now
  | none => pure ()
  if event.kind = .bookmark then return none
  else
    match ← change lib grant.selection event with
    | none => return none
    | some (type, value) =>
      let value ← setAt value ["metadata", "resourceVersion"] (.string (toString event.revision))
      return some (type, value)

/-- The objects a watch delivers before it ends or fails. -/
def emitWatch (grant : Grant) : List (Registry × WatchEvent) → List (Registry × Json)
  | [] => []
  | (now, event) :: rest =>
    match emitEvent lib grant now event with
    | .ok (some (_, value)) => (now, value) :: emitWatch grant rest
    | .ok none => emitWatch grant rest
    | .error _ => []

/-! ## Resource requests -/

def serveAuthorized (user : User) (target : Target) (verb : String) (grant : Grant)
    (request : HttpRequest) : Action Response :=
  if (request.query.get "sendInitialEvents").isSome ∧ verb ≠ "watch" then
    throw (bad "sendInitialEvents requires watch=true")
  else if target.resource.namespaced = true ∧ target.ns.isNone ∧
      (target.name.isSome ∨ (verb ≠ "list" ∧ verb ≠ "watch")) then
    throw (bad "namespaced writes and named reads require a namespace")
  else if target.subresource = some "log" then return .log target
  else if target.subresource = some "exec" then return .exec target
  else if verb = "watch" then return .watch target grant
  else if verb = "list" then return .list target grant
  else if verb = "get" then reading (getRead target)
  else execute lib fresh ⟨user, target, verb⟩ request.query request.body

/-- Resolve the target and verb, authorize, then serve. -/
def serve (user : User) (request : HttpRequest) : Action Response :=
  match Target.parse request.path with
  | none => throw (failure 404 "NotFound" "resource or subresource is not implemented")
  | some target =>
    if target.subresource = some "token" then createToken lib fresh user target request
    else do
      let watch := decide (request.query.get "watch" ∈ [some "true", some "1"])
      let verb ← verb request.method target watch
      let selection ← lib.selection ((request.query.get "labelSelector").getD "")
        ((request.query.get "fieldSelector").getD "") target.resource.kind
      let grant ← reading fun reg =>
        resource lib reg user target verb (selection.withName target.name)
      serveAuthorized lib fresh user target verb grant request

end

end Hedronetes.Server
