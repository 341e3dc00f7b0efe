import Hedronetes.Server.Nodes

/-!
# Authorization

The RBAC snapshot of the registry, the decision on a resource request, where a
node's own grants join and sometimes replace those of RBAC, and the check that a
write of an RBAC object hands on nothing its writer does not hold.
-/

namespace Hedronetes.Server

open Apply Auth
open Storage (StoreKey)

/-! ## The snapshot

Which values the typed objects accept is a parameter; of an accepted one the
fields read as they stand. -/

def strings (j : Json) : Option (List String) := j.asArray.map (List.filterMap Json.asString)

def text (j : Json) : String := j.asString.getD ""

def policyRule (j : Json) : PolicyRule where
  apiGroups := strings j["apiGroups"]
  nonResourceURLs := strings j["nonResourceURLs"]
  resourceNames := strings j["resourceNames"]
  resources := strings j["resources"]
  verbs := (strings j["verbs"]).getD []

def policyRules (j : Json) : Option (List PolicyRule) := j.asArray.map (List.map policyRule)

def subject (j : Json) : Subject where
  apiGroup := j["apiGroup"].asString
  kind := text j["kind"]
  name := text j["name"]
  ns := j["namespace"].asString

def roleRef (j : Json) : RoleRef where
  apiGroup := text j["apiGroup"]
  kind := text j["kind"]
  name := text j["name"]

def role (j : Json) : Role where
  ns := j["metadata"]["namespace"].asString
  name := j["metadata"]["name"].asString
  rules := policyRules j["rules"]

def clusterRole (j : Json) : ClusterRole where
  name := j["metadata"]["name"].asString
  rules := policyRules j["rules"]

def roleBinding (j : Json) : RoleBinding where
  ns := j["metadata"]["namespace"].asString
  roleRef := roleRef j["roleRef"]
  subjects := j["subjects"].asArray.map (List.map subject)

def clusterRoleBinding (j : Json) : ClusterRoleBinding where
  roleRef := roleRef j["roleRef"]
  subjects := j["subjects"].asArray.map (List.map subject)

section

variable (lib : Libraries)

def readTyped (kind : String) (stored : StoreKey × Stored) : Outcome Json :=
  if lib.accepts kind stored.2.value then .ok stored.2.value
  else .error (invalid "invalid Kubernetes JSON object")

def readKind (reg : Registry) (kind : String) : Outcome (List Json) :=
  (reg.list ("/registry/" ++ kind ++ "/")).mapM (readTyped lib kind)

/-- The four kinds at one revision. -/
def rbac (reg : Registry) : Outcome Rbac := do
  let roles ← readKind lib reg "roles"
  let roleBindings ← readKind lib reg "rolebindings"
  let clusterRoles ← readKind lib reg "clusterroles"
  let clusterRoleBindings ← readKind lib reg "clusterrolebindings"
  return {
    roles := roles.map role
    clusterRoles := clusterRoles.map clusterRole
    roleBindings := roleBindings.map roleBinding
    clusterRoleBindings := clusterRoleBindings.map clusterRoleBinding }

/-! ## Resource requests -/

/-- What an authorized resource request may see. -/
structure Grant where
  selection : Selection
  readGuard : Option ReadGuard
  deriving DecidableEq

/-- The attributes that authorization decides on. -/
def attributes (target : Target) (verb : String) (selection : Selection) : ResourceRequest where
  verb := verb
  group := target.resource.group
  resource := target.resource.plural
  subresource := target.subresource
  ns := target.ns
  name := target.name.or (if verb = "list" ∨ verb = "watch" then selection.exactName else none)

def nodeAllowed (reg : Registry) (user : User) (target : Target) (attrs : ResourceRequest)
    (selection : Selection) : Outcome Bool :=
  match user.nodeName with
  | none => .ok false
  | some node => do
    let related ← related reg node target attrs.name
    return nodeAllows user attrs (selection.exactField "spec.nodeName") related

/-- The selection and the guard of an allowed request of a node. -/
def nodeGrant (node : String) (target : Target) (verb : String) (attrs : ResourceRequest)
    (selection : Selection) : Outcome Grant := do
  -- a recreated Pod on another worker must not enter a stream selected by name
  let narrowed :=
    if target.resource.kind = "Pod" ∧ (verb = "list" ∨ verb = "watch") then
      selection.withField "spec.nodeName" node
    else selection
  if target.resource.kind = "Secret" ∨ target.resource.kind = "ConfigMap" then
    match attrs.name with
    | some name => return ⟨narrowed, some ⟨node, target, name⟩⟩
    | none => throw (.panic "relationship name")
  else return ⟨narrowed, none⟩

def resource (reg : Registry) (user : User) (target : Target) (verb : String)
    (selection : Selection) : Outcome Grant := do
  let attrs := attributes target verb selection
  let rbacAllowed := (← rbac lib reg).allows user (.resource attrs)
  let nodeAllowed ← nodeAllowed reg user target attrs selection
  let nodeConstrained := user.nodeName.isSome &&
    decide (target.resource.kind ∈ ["Pod", "Secret", "ConfigMap"])
  let denied := forbidden ("user " ++ user.name ++ " cannot " ++ verb ++ " " ++
    target.resource.plural)
  if (nodeConstrained && !nodeAllowed) || (!nodeConstrained && !rbacAllowed && !nodeAllowed) then
    throw denied
  else
    match user.nodeName with
    | some node =>
      if nodeAllowed then nodeGrant node target verb attrs selection
      else return ⟨selection, none⟩
    | none => return ⟨selection, none⟩

/-! ## Escalation -/

/-- One permission of a rule, its star literal. -/
structure Permission where
  verb : String
  group : String
  resource : String
  name : Option String
  deriving DecidableEq

def grantedRule (rule : Json) : List Permission :=
  let groups := (strings rule["apiGroups"]).getD [""]
  let resources := (strings rule["resources"]).getD []
  let verbs := (strings rule["verbs"]).getD []
  let names :=
    match strings rule["resourceNames"] with
    | some (name :: names) => (name :: names).map some
    | _ => [none]
  verbs.flatMap fun verb => groups.flatMap fun group => resources.flatMap fun resource =>
    names.map fun name => ⟨verb, group, resource, name⟩

/-- The permissions a rule set grants. -/
def granted (rules : Json) : List Permission := rules.items.flatMap grantedRule

def splitResource (resource : String) : String × Option String :=
  match splitOnce '/' resource with
  | some (resource, subresource) => (resource, some subresource)
  | none => (resource, none)

/-- The request that asks for a permission in a scope. -/
def Permission.request (p : Permission) (ns : Option String) : Request :=
  .resource {
    verb := p.verb
    group := p.group
    resource := (splitResource p.resource).1
    subresource := (splitResource p.resource).2
    ns := ns
    name := p.name }

def escalationDenied (p : Permission) : Stop :=
  forbidden ("user cannot grant permissions it does not hold: " ++ p.verb ++ " on " ++ p.group ++
    "/" ++ p.resource)

/-- Every permission is one the user holds in the scope. -/
def holdsAll (rbac : Rbac) (user : User) (scope : Option String) (ps : List Permission) :
    Outcome Unit :=
  match ps.find? fun p => !rbac.allows user (p.request scope) with
  | some p => .error (escalationDenied p)
  | none => .ok ()

/-- The permission to write a kind beyond one's own, or to bind a role. -/
def within (rbac : Rbac) (user : User) (verb plural : String) (ns name : Option String) : Bool :=
  rbac.allows user (Permission.request ⟨verb, rbacGroup, plural, name⟩ ns)

/-- The plural of the role a binding refers to, by the kind it names. -/
def referencedKind (kind : Json) : Outcome String :=
  match kind.asString with
  | some "ClusterRole" => .ok "clusterroles"
  | some "Role" => .ok "roles"
  | _ => .error (forbidden "invalid roleRef kind")

def referencedRole (reg : Registry) (referenced : String) (ns : Option String) (name : String) :
    Outcome Json := do
  let k ← key (
    if referenced = "roles" then "/registry/roles/" ++ ns.getD "" ++ "/" ++ name
    else "/registry/clusterroles/" ++ name)
  match reg.get k with
  | some stored => object stored
  | none => .error (forbidden "roleRef names a missing role")

/-- A binding asks about the role it refers to what a role asks about itself. -/
def bindingEscalation (reg : Registry) (rbac : Rbac) (user : User) (ns : Option String)
    (value : Json) : Outcome Unit := do
  let referenced ← referencedKind value["roleRef"]["kind"]
  match value["roleRef"]["name"].asString with
  | none => throw (forbidden "roleRef name is required")
  | some "" => throw (forbidden "roleRef name is required")
  | some name =>
    if within rbac user "bind" referenced ns (some name) then return ()
    else
      let role ← referencedRole reg referenced ns name
      holdsAll rbac user (if referenced = "roles" then ns else none) (granted role["rules"])

/-- A principal may create or change an RBAC object only within what it already holds,
unless it may `escalate` that kind, or `bind` the role. -/
def escalation (reg : Registry) (user : User) (target : Target) (verb : String) (value : Json) :
    Outcome Unit :=
  if user.isSuperuser ∨ verb ∉ ["create", "update", "patch"] then .ok ()
  else do
    let rbac ← rbac lib reg
    let ns := target.ns.filter (· ≠ "")
    let plural := target.resource.plural
    if plural = "roles" ∨ plural = "clusterroles" then
      if within rbac user "escalate" plural ns none then return ()
      else holdsAll rbac user ns (granted value["rules"])
    else if plural = "rolebindings" ∨ plural = "clusterrolebindings" then
      bindingEscalation reg rbac user ns value
    else return ()

end

end Hedronetes.Server
