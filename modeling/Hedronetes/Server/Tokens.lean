import Hedronetes.Server.Commits

/-!
# Tokens of nodes

A token a node mints is bound to a Pod that it runs. That the account the token
is issued for is the one the Pod runs as is not checked.
-/

namespace Hedronetes.Server

open FirstMatch Apply Auth Effects
open Storage (StoreKey)

variable {lib : Libraries} {fresh : Fresh} {user : User} {target : Target}
  {request : HttpRequest} {reg reg' : Registry} {response : Response} {record : Json}

/-! ## The Pod and the account of a token -/

/-- The record of a token says it is bound to a Pod that is there, is assigned to the node and
has the recorded uid; the account is the one the Pod runs as. -/
structure OwnToken (reg : Registry) (node : String) (record : Json) (pod : Json) : Prop where
  ns : ∃ ns, record["namespace"] = .string ns ∧ getObject ("/registry/pods/" ++ ns ++ "/" ++
    text record["bound"]["name"]) reg = .ok (some pod)
  kind : record["bound"]["kind"] = .string "Pod"
  uid : ∃ uid, record["bound"]["uid"] = .string uid ∧ pod["metadata"]["uid"] = .string uid
  node : assigned pod node = true
  account : ∃ account, record["service_account"] = .string account ∧
    pod["spec"]["serviceAccountName"] = .string account

section

variable (ns account : String) (uid : Json) (audiences : List String) (expires : ℤ)
  (bound : Option Bound)

theorem tokenRecord_ns :
    (tokenRecord ns account uid audiences expires bound)["namespace"] = .string ns := by
  unfold tokenRecord
  rw [Json.getElem_ofPairs]
  simp

theorem tokenRecord_account :
    (tokenRecord ns account uid audiences expires bound)["service_account"] = .string account := by
  unfold tokenRecord
  rw [Json.getElem_ofPairs]
  simp

theorem tokenRecord_bound (reference : Bound) :
    (tokenRecord ns account uid audiences expires (some reference))["bound"] =
      .ofPairs [("kind", .string reference.kind), ("name", .string reference.name),
        ("uid", .string reference.uid)] := by
  unfold tokenRecord
  rw [Json.getElem_ofPairs]
  simp

end

theorem nodeMints_ok {node ns : String} {bound : Option Bound} (hnode : user.nodeName = some node)
    (h : nodeMints user ns bound reg = .ok ()) :
    ∃ reference pod, bound = some reference ∧
      getObject ("/registry/pods/" ++ ns ++ "/" ++ reference.name) reg = .ok (some pod) ∧
        pod["metadata"]["uid"] = .string reference.uid ∧ assigned pod node = true := by
  unfold nodeMints at h
  rw [hnode] at h
  cases bound with
  | none => cases h
  | some reference =>
    obtain ⟨found, hfound, h⟩ := Fallible.bind_eq_ok.mp h
    cases found with
    | none => cases h
    | some pod =>
      dsimp only at h
      split_ifs at h with hpod
      rw [not_or, not_not, not_not, Json.asString_eq_some] at hpod
      exact ⟨reference, pod, rfl, hfound, hpod.1, decide_eq_true hpod.2⟩

theorem tokenBound_kind {reference : Json} {bound : Bound}
    (h : tokenBound reference = .ok (some bound)) :
    bound.kind = "Pod" ∧ bound.name = text reference["name"] := by
  unfold tokenBound at h
  dsimp only at h
  split_ifs at h with hnull hkeys hbound
  · cases h
  · obtain rfl := Option.some.inj (Except.ok.inj h)
    rw [not_or, not_not] at hbound
    exact ⟨hbound.1, rfl⟩

/-- A token that a node obtains is for the account its Pod runs as exactly if the request asks
for the account of the Pod it names. -/
theorem node_token_own {node : String} (hnode : user.nodeName = some node)
    (htarget : Target.parse request.path = some target)
    (htoken : target.subresource = some "token")
    (h : serve lib fresh user request reg = .ok (.token record) reg') :
    (∃ pod, OwnToken reg node record pod) ↔
      ∃ ns value pod, target.ns = some ns ∧
        lib.decode request.body.bytes request.body.contentType = .ok value ∧
          getObject ("/registry/pods/" ++ ns ++ "/" ++
            text value["spec"]["boundObjectRef"]["name"]) reg = .ok (some pod) ∧
              pod["spec"]["serviceAccountName"].asString = target.name := by
  unfold serve at h
  simp only [htarget, htoken, if_true] at h
  obtain ⟨ns, account, value, bound, object, audiences, expires, k, hns, haccount, hdecode, _, hbound,
    hmints, _, _, hrecord, _⟩ := createToken_ok h
  obtain ⟨reference, pod, rfl, hpod, huid, hassigned⟩ := nodeMints_ok hnode hmints
  obtain ⟨hkind, hname⟩ := tokenBound_kind hbound
  cases hrecord
  have hread := tokenRecord_bound ns account object["metadata"]["uid"] audiences expires reference
  constructor
  · rintro ⟨own, hown⟩
    obtain ⟨ns', hns', hfound⟩ := hown.ns
    obtain ⟨account', haccount', hruns⟩ := hown.account
    rw [tokenRecord_ns] at hns'
    rw [tokenRecord_account] at haccount'
    cases hns'
    cases haccount'
    rw [hread, Json.getElem_ofPairs] at hfound
    refine ⟨ns, value, own, hns, hdecode, ?_, ?_⟩
    · rw [← hname]
      exact hfound
    · rw [hruns, haccount]
      rfl
  · rintro ⟨ns', value', own, hns', hdecode', hfound, hruns⟩
    cases hns.symm.trans hns'
    cases hdecode.symm.trans hdecode'
    rw [← hname, hpod] at hfound
    cases hfound
    refine ⟨pod, ⟨ns, tokenRecord_ns _ _ _ _ _ _, ?_⟩, ?_, ⟨reference.uid, ?_, huid⟩, hassigned,
      ⟨account, tokenRecord_account _ _ _ _ _ _, ?_⟩⟩
    · rw [hread, Json.getElem_ofPairs]
      exact hpod
    · rw [hread, Json.getElem_ofPairs, hkind]
      simp
    · rw [hread, Json.getElem_ofPairs]
      simp
    · rwa [haccount, Json.asString_eq_some] at hruns

/-- A Pod of a node that runs as `web`, two accounts, and the grant of every node. -/
def mintingRegistry : Registry := .ofList [
  ("/registry/clusterroles/h3s-node-volumes", .ofPairs [
    ("metadata", .ofPairs [("name", .string "h3s-node-volumes")]),
    ("rules", .array [.ofPairs [("apiGroups", .array [.string ""]),
      ("resources", .array [.string "serviceaccounts/token"]),
      ("verbs", .array [.string "create"])]])]),
  ("/registry/clusterrolebindings/h3s-node-volumes", .ofPairs [
    ("metadata", .ofPairs [("name", .string "h3s-node-volumes")]),
    ("roleRef", .ofPairs [("apiGroup", .string rbacGroup), ("kind", .string "ClusterRole"),
      ("name", .string "h3s-node-volumes")]),
    ("subjects", .array [.ofPairs [("kind", .string "Group"), ("apiGroup", .string rbacGroup),
      ("name", .string "system:nodes")]])]),
  ("/registry/pods/team-a/web", .ofPairs [
    ("metadata", .ofPairs [("name", .string "web"), ("uid", .string "u1")]),
    ("spec", .ofPairs [("nodeName", .string "n1"), ("serviceAccountName", .string "web")])]),
  ("/registry/serviceaccounts/team-a/web", .ofPairs [("metadata",
    .ofPairs [("name", .string "web"), ("uid", .string "a1")])]),
  ("/registry/serviceaccounts/team-a/admin", .ofPairs [("metadata",
    .ofPairs [("name", .string "admin"), ("uid", .string "a2")])])]

def tokenRequest : Json := .ofPairs [("kind", .string "TokenRequest"),
  ("apiVersion", .string "authentication.k8s.io/v1"),
  ("spec", .ofPairs [("boundObjectRef", .ofPairs [("kind", .string "Pod"),
    ("name", .string "web"), ("uid", .string "u1")])])]

def nodeUser : User := ⟨"system:node:n1", ["system:nodes", "system:authenticated"]⟩

def mint (account : String) : HttpRequest :=
  ⟨"POST", "/api/v1/namespaces/team-a/serviceaccounts/" ++ account ++ "/token", ⟨[], []⟩,
    ⟨"application/json", [0]⟩⟩

def accountTarget (account : String) : Target :=
  ⟨⟨"", "v1", "serviceaccounts", "ServiceAccount", true⟩, some "team-a", some account,
    some "token"⟩

def minted (account uid : String) : Json :=
  tokenRecord "team-a" account (.string uid) ["https://kubernetes.default.svc"] 3607
    (some ⟨"Pod", "web", "u1"⟩)

theorem mint_answer (account uid : String)
    (h : account = "web" ∧ uid = "a1" ∨ account = "admin" ∧ uid = "a2") :
    answer (serve (.plain [tokenRequest]) .plain nodeUser (mint account)) mintingRegistry =
      some (.token (minted account uid)) := by
  rcases h with ⟨rfl, rfl⟩ | ⟨rfl, rfl⟩ <;> decide +kernel

/-- The Pod as the server reads it. -/
def webPod : Json := .ofPairs [
  ("metadata", .ofPairs [("name", .string "web"), ("uid", .string "u1"),
    ("resourceVersion", .string "3")]),
  ("spec", .ofPairs [("nodeName", .string "n1"), ("serviceAccountName", .string "web")])]

theorem getObject_web :
    getObject "/registry/pods/team-a/web" mintingRegistry = .ok (some webPod) := by
  decide +kernel

/-- The node obtains a token for the account its Pod runs as. -/
theorem web_token_own : ∃ record reg',
    serve (.plain [tokenRequest]) .plain nodeUser (mint "web") mintingRegistry =
      .ok (.token record) reg' ∧ ∃ pod, OwnToken mintingRegistry "n1" record pod := by
  obtain ⟨reg', h⟩ := ok_of_answer (mint_answer "web" "a1" (by decide))
  refine ⟨_, reg', h, (@node_token_own _ _ _ (accountTarget "web") _ _ _ _ "n1" (by decide)
    (by decide +kernel) rfl h).mpr ?_⟩
  exact ⟨"team-a", tokenRequest, webPod, rfl, rfl, getObject_web, by decide +kernel⟩

/-- The node also obtains one for an account that none of its Pods runs as. -/
theorem admin_token_minted : ¬ ∀ (lib : Libraries) (fresh : Fresh) (user : User)
    (request : HttpRequest) (target : Target) (reg reg' : Registry) (record : Json)
    (node : String), user.nodeName = some node → Target.parse request.path = some target →
      target.subresource = some "token" →
        serve lib fresh user request reg = .ok (.token record) reg' →
          ∃ pod, OwnToken reg node record pod := by
  intro hall
  obtain ⟨reg', h⟩ := ok_of_answer (mint_answer "admin" "a2" (by decide))
  obtain ⟨pod, hown⟩ := hall _ _ _ _ (accountTarget "admin") _ _ _ "n1" (by decide)
    (by decide +kernel) rfl h
  obtain ⟨ns, hns, hfound⟩ := hown.ns
  obtain ⟨account, haccount, hruns⟩ := hown.account
  obtain rfl := Json.string.inj ((tokenRecord_ns _ _ _ _ _ _).symm.trans hns)
  obtain rfl := Json.string.inj ((tokenRecord_account _ _ _ _ _ _).symm.trans haccount)
  have hname : text (minted "admin" "a2")["bound"]["name"] = "web" := by decide +kernel
  rw [hname, show "/registry/pods/" ++ "team-a" ++ "/" ++ "web" = "/registry/pods/team-a/web" by
    decide +kernel, getObject_web] at hfound
  cases hfound
  revert hruns
  decide +kernel

end Hedronetes.Server
