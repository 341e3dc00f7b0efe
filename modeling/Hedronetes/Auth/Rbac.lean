import Mathlib

/-!
# Identities and role-based access control

The identity a request carries and the evaluation of roles and bindings on a
request. The evaluation reads one snapshot of the four kinds of objects; a
reference to a role that is not there grants nothing.
-/

namespace Hedronetes.Auth

def rbacGroup : String := "rbac.authorization.k8s.io"

/-! ## Identities and requests -/

structure User where
  name : String
  groups : List String
  deriving DecidableEq

def User.isSuperuser (user : User) : Bool := user.groups.any (· = "system:masters")

/-- The node a user speaks for: both the group and the name are required. -/
def User.nodeName (user : User) : Option String :=
  if user.groups.any (· = "system:nodes") then
    (("system:node:".toList.isPrefixOf? user.name.toList).map String.ofList).filter (· ≠ "")
  else none

structure ResourceRequest where
  verb : String
  group : String
  resource : String
  subresource : Option String
  ns : Option String
  name : Option String
  deriving DecidableEq

inductive Request
  | resource (r : ResourceRequest)
  | nonResource (verb path : String)
  deriving DecidableEq

def Request.verb : Request → String
  | .resource r => r.verb
  | .nonResource verb _ => verb

/-! ## The snapshot -/

structure PolicyRule where
  apiGroups : Option (List String)
  nonResourceURLs : Option (List String)
  resourceNames : Option (List String)
  resources : Option (List String)
  verbs : List String
  deriving DecidableEq

structure Subject where
  apiGroup : Option String
  kind : String
  name : String
  ns : Option String
  deriving DecidableEq

structure RoleRef where
  apiGroup : String
  kind : String
  name : String
  deriving DecidableEq

structure Role where
  ns : Option String
  name : Option String
  rules : Option (List PolicyRule)
  deriving DecidableEq

structure ClusterRole where
  name : Option String
  rules : Option (List PolicyRule)
  deriving DecidableEq

structure RoleBinding where
  ns : Option String
  roleRef : RoleRef
  subjects : Option (List Subject)
  deriving DecidableEq

structure ClusterRoleBinding where
  roleRef : RoleRef
  subjects : Option (List Subject)
  deriving DecidableEq

/-- Immutable per-request view. -/
structure Rbac where
  roles : List Role
  clusterRoles : List ClusterRole
  roleBindings : List RoleBinding
  clusterRoleBindings : List ClusterRoleBinding
  deriving DecidableEq

/-! ## Evaluation -/

def contains (values : Option (List String)) (value : String) : Bool :=
  (values.getD []).any fun v => v = "*" ∨ v = value

/-- An exact URL, `*`, or one with a trailing star that the path starts with. -/
def urlMatches (url path : String) : Bool :=
  url = "*" || url = path ||
    ("*".toList.isSuffixOf? url.toList).any fun start => start.isPrefixOf path.toList

/-- The subresource a request names, if it is not empty. -/
def ResourceRequest.sub (r : ResourceRequest) : Option String := r.subresource.filter (· ≠ "")

/-- The resource as a rule spells it. -/
def ResourceRequest.path (r : ResourceRequest) : String :=
  match r.sub with
  | some sub => r.resource ++ "/" ++ sub
  | none => r.resource

/-- Wildcard group, verb and resource, exact resource names, `*/subresource`, and
trailing-star URLs. -/
def ruleAllows (rule : PolicyRule) (request : Request) : Bool :=
  contains (some rule.verbs) request.verb &&
    match request with
    | .nonResource _ path => (rule.nonResourceURLs.getD []).any fun url => urlMatches url path
    | .resource r =>
      contains rule.apiGroups r.group &&
        ((rule.resources.getD []).any fun v =>
          v = "*" ∨ v = r.path ∨ r.sub.any fun sub => v = "*/" ++ sub) &&
          (rule.resourceNames.filter (· ≠ [])).all fun names => r.name.any fun name => name ∈ names

def rulesAllow (rules : Option (List PolicyRule)) (request : Request) : Bool :=
  (rules.getD []).any fun rule => ruleAllows rule request

def subjectMatches (user : User) (bindingNs : Option String) (s : Subject) : Bool :=
  match s.kind with
  | "User" => s.apiGroup = some rbacGroup && s.name = user.name
  | "Group" => s.apiGroup = some rbacGroup && decide (s.name ∈ user.groups)
  | "ServiceAccount" => s.apiGroup.getD "" = "" && ((s.ns.or bindingNs).filter (· ≠ "")).any
      fun ns => user.name = "system:serviceaccount:" ++ ns ++ ":" ++ s.name
  | _ => false

def subjectsMatch (subjects : Option (List Subject)) (user : User) (bindingNs : Option String) :
    Bool := (subjects.getD []).any (subjectMatches user bindingNs)

def Request.ns : Request → Option String
  | .resource r => r.ns.filter (· ≠ "")
  | .nonResource _ _ => none

namespace Rbac

def clusterRole (rbac : Rbac) (name : String) : Option ClusterRole :=
  rbac.clusterRoles.find? fun r => r.name = some name

def role (rbac : Rbac) (ns name : String) : Option Role :=
  rbac.roles.find? fun r => r.ns = some ns ∧ r.name = some name

/-- What a ClusterRoleBinding grants a user. -/
def clusterGrant (rbac : Rbac) (user : User) (request : Request) (binding : ClusterRoleBinding) :
    Bool :=
  binding.roleRef.apiGroup = rbacGroup && binding.roleRef.kind = "ClusterRole" &&
    subjectsMatch binding.subjects user none &&
      (rbac.clusterRole binding.roleRef.name).any fun role => rulesAllow role.rules request

/-- The rules a RoleBinding of a namespace refers to. -/
def bindingRules (rbac : Rbac) (ns : String) (roleRef : RoleRef) : Option (List PolicyRule) :=
  match roleRef.kind with
  | "Role" => (rbac.role ns roleRef.name).bind Role.rules
  | "ClusterRole" => (rbac.clusterRole roleRef.name).bind ClusterRole.rules
  | _ => none

/-- What a RoleBinding grants a user in its namespace. -/
def grant (rbac : Rbac) (user : User) (request : Request) (ns : String) (binding : RoleBinding) :
    Bool :=
  binding.ns = some ns && binding.roleRef.apiGroup = rbacGroup &&
    subjectsMatch binding.subjects user (some ns) &&
      rulesAllow (rbac.bindingRules ns binding.roleRef) request

/-- RoleBindings cannot authorize cluster-scoped resources or non-resource URLs. -/
def allows (rbac : Rbac) (user : User) (request : Request) : Bool :=
  user.isSuperuser || rbac.clusterRoleBindings.any (rbac.clusterGrant user request) ||
    request.ns.any fun ns => rbac.roleBindings.any (rbac.grant user request ns)

end Rbac

/-! ## What a rule covers -/

theorem contains_iff {values : Option (List String)} {value : String} :
    contains values value = true ↔ ∃ vs, values = some vs ∧ ("*" ∈ vs ∨ value ∈ vs) := by
  cases values with
  | none => simp [contains]
  | some vs =>
    simp only [contains, Option.getD_some, List.any_eq_true, decide_eq_true_eq, Option.some.injEq,
      exists_eq_left']
    constructor
    · rintro ⟨v, hv, rfl | rfl⟩
      · exact Or.inl hv
      · exact Or.inr hv
    · rintro (h | h)
      · exact ⟨_, h, Or.inl rfl⟩
      · exact ⟨_, h, Or.inr rfl⟩

/-- Who may do the star may do anything it stands for. -/
theorem contains_of_star {values : Option (List String)} {v value : String}
    (h : contains values v = true) (hv : v = "*" ∨ v = value) : contains values value = true := by
  obtain ⟨vs, rfl, hmem⟩ := contains_iff.mp h
  rw [contains_iff]
  rcases hv with rfl | rfl
  · exact ⟨vs, rfl, Or.inl (hmem.elim id id)⟩
  · exact ⟨vs, rfl, hmem⟩

end Hedronetes.Auth
