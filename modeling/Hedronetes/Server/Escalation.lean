import Hedronetes.Server.Runs

/-!
# Permissions that are handed on

A rule is written only by a user who may do what it permits, and a binding only by one who may
do what its role permits. So no run of requests gives anybody the permission to a request on a
resource that nobody taking part had at its start. The check does not look at the URLs of a
rule, and so says nothing of requests that are not on resources.
-/

namespace Hedronetes.Server

open FirstMatch Apply Auth Effects Runs
open Storage (StoreKey startsWith)

variable {lib : Libraries} {fresh : Fresh} {user writer : User} {request : HttpRequest}
  {reg reg' : Registry} {k : StoreKey} {b : Rbac} {r : ResourceRequest} {rules : Json}
  {scope : Option String}

/-! ## What a permission covers -/

/-- The permission is one that a rule must have to allow the request. -/
structure Needed (r : ResourceRequest) (p : Permission) : Prop where
  verb : p.verb = "*" ∨ p.verb = r.verb
  group : p.group = "*" ∨ p.group = r.group
  resource : p.resource = "*" ∨ p.resource = r.path ∨ r.sub.any fun sub => p.resource = "*/" ++ sub
  name : ∀ n, p.name = some n → r.name = some n

/-- The names a rule is expanded to: none where it is open. -/
def ruleNames (rule : Json) : List (Option String) :=
  match strings rule["resourceNames"] with
  | some (name :: names) => (name :: names).map some
  | _ => [none]

theorem mem_grantedRule {rule : Json} {p : Permission} : p ∈ grantedRule rule ↔
    p.verb ∈ (strings rule["verbs"]).getD [] ∧ p.group ∈ (strings rule["apiGroups"]).getD [""] ∧
      p.resource ∈ (strings rule["resources"]).getD [] ∧ p.name ∈ ruleNames rule := by
  have hrule : grantedRule rule = ((strings rule["verbs"]).getD []).flatMap fun verb =>
      ((strings rule["apiGroups"]).getD [""]).flatMap fun group =>
        ((strings rule["resources"]).getD []).flatMap fun resource =>
          (ruleNames rule).map fun name => ⟨verb, group, resource, name⟩ := rfl
  rw [hrule]
  simp only [List.mem_flatMap, List.mem_map]
  constructor
  · rintro ⟨verb, hverb, group, hgroup, resource, hresource, name, hname, rfl⟩
    exact ⟨hverb, hgroup, hresource, hname⟩
  · rintro ⟨hverb, hgroup, hresource, hname⟩
    exact ⟨_, hverb, _, hgroup, _, hresource, _, hname, rfl⟩

theorem grantedRule_needed {rule : Json} (h : ruleAllows (policyRule rule) (.resource r) = true) :
    ∃ p ∈ grantedRule rule, Needed r p := by
  unfold ruleAllows policyRule at h
  simp only [Bool.and_eq_true] at h
  obtain ⟨hverb, ⟨hgroup, hresource⟩, hnames⟩ := h
  obtain ⟨_, hverbs, hverb⟩ := contains_iff.mp hverb
  obtain ⟨groups, hgroups, hgroup⟩ := contains_iff.mp hgroup
  obtain ⟨resource, hmem, hresource⟩ := List.any_eq_true.mp hresource
  cases hverbs
  have hverb : ∃ verb ∈ (strings rule["verbs"]).getD [], verb = "*" ∨ verb = r.verb := by
    rcases hverb with hstar | hown
    · exact ⟨_, hstar, .inl rfl⟩
    · exact ⟨_, hown, .inr rfl⟩
  have hgroup : ∃ group ∈ groups, group = "*" ∨ group = r.group := by
    rcases hgroup with hstar | hown
    · exact ⟨_, hstar, .inl rfl⟩
    · exact ⟨_, hown, .inr rfl⟩
  have hname : ∃ n ∈ ruleNames rule, ∀ name, n = some name → r.name = some name := by
    unfold ruleNames
    cases hread : strings rule["resourceNames"] with
    | none => exact ⟨none, by simp, by simp⟩
    | some names =>
      cases names with
      | nil => exact ⟨none, by simp, by simp⟩
      | cons first rest =>
        cases hasked : r.name with
        | none => simp [hread, hasked] at hnames
        | some name =>
          have hmember : name ∈ first :: rest := by simpa [hread, hasked] using hnames
          refine ⟨some name, List.mem_map_of_mem hmember, fun n hn => ?_⟩
          exact hn
  obtain ⟨verb, hverbmem, hverb⟩ := hverb
  obtain ⟨group, hgroupmem, hgroup⟩ := hgroup
  obtain ⟨n, hnamemem, hname⟩ := hname
  refine ⟨⟨verb, group, resource, n⟩, ?_, hverb, hgroup, by simpa using hresource, hname⟩
  exact mem_grantedRule.mpr ⟨hverbmem, by rwa [hgroups], hmem, hnamemem⟩

/-- The check does not ask about the URLs that rules open. -/
theorem urls_unchecked (h : ∀ rule ∈ rules.items, strings rule["resources"] = none) :
    holdsAll b user scope (granted rules) = .ok () := by
  have hnone : granted rules = [] := by
    rw [granted, List.flatMap_eq_nil_iff]
    intro rule hrule
    refine List.eq_nil_iff_forall_not_mem.mpr fun p hp => ?_
    have hresource := (mem_grantedRule.mp hp).2.2.1
    rw [h rule hrule] at hresource
    cases hresource
  rw [hnone]
  rfl

theorem splitResource_whole {resource : String} (h : '/' ∉ resource.toList) :
    splitResource resource = (resource, none) := by
  simp [splitResource, splitOnce, h]

theorem splitResource_slash {resource sub : String} (h : '/' ∉ resource.toList) :
    splitResource (resource ++ "/" ++ sub) = (resource, some sub) := by
  have hlist : (resource ++ "/" ++ sub).toList = resource.toList ++ '/' :: sub.toList := by
    simp [String.toList_append]
  have hall : ∀ ch ∈ resource.toList, (decide (ch ≠ '/')) = true := by
    intro ch hch
    rw [decide_eq_true_eq]
    rintro rfl
    exact h hch
  have htake : (resource ++ "/" ++ sub).toList.takeWhile (· ≠ '/') = resource.toList := by
    rw [hlist, List.takeWhile_append_of_pos hall]
    simp
  have hdrop : ((resource ++ "/" ++ sub).toList.dropWhile (· ≠ '/')).drop 1 = sub.toList := by
    rw [hlist, List.dropWhile_append_of_pos hall]
    simp
  have hmem : '/' ∈ (resource ++ "/" ++ sub).toList := by
    rw [hlist]
    simp
  unfold splitResource splitOnce
  rw [if_pos hmem, htake, hdrop, String.ofList_toList, String.ofList_toList]

theorem path_whole {q : ResourceRequest} (h : q.sub = none) : q.path = q.resource := by
  rw [ResourceRequest.path, h]

theorem path_sub {q : ResourceRequest} {sub : String} (h : q.sub = some sub) :
    q.path = q.resource ++ "/" ++ sub := by
  rw [ResourceRequest.path, h]

theorem sub_full {q : ResourceRequest} {sub : String} (h : q.sub = some sub) :
    q.subresource = some sub ∧ sub ≠ "" := by
  obtain ⟨hsub, hfull⟩ := Option.filter_eq_some_iff.mp h
  exact ⟨hsub, by simpa using hfull⟩

/-- The spelling of a resource in a rule stands for the resource of the request. -/
def Spells (v : String) (q : ResourceRequest) : Prop :=
  v = "*" ∨ v = q.path ∨ q.sub.any fun sub => v = "*/" ++ sub

/-- What stands for the resource of the permission stands for that of the request. -/
theorem Spells.of_needed {v : String} {p : Permission} {q : ResourceRequest}
    (hslash : '/' ∉ r.resource.toList) (hp : Needed r p)
    (hresource : q.resource = (splitResource p.resource).1)
    (hsubresource : q.subresource = (splitResource p.resource).2) (h : Spells v q) :
    Spells v r := by
  have hwhole : q.subresource = none → v = "*" ∨ v = q.resource := by
    intro hnone
    have hsub : q.sub = none := by rw [ResourceRequest.sub, hnone, Option.filter_none]
    rcases h with h | h | h
    · exact .inl h
    · exact .inr (h.trans (path_whole hsub))
    · simp [hsub] at h
  have hpart : ∀ sub, sub ≠ "" → q.subresource = some sub →
      v = "*" ∨ v = q.resource ++ "/" ++ sub ∨ v = "*/" ++ sub := by
    intro sub hfull hsome
    have hsub : q.sub = some sub := by simp [ResourceRequest.sub, hsome, hfull]
    rcases h with h | h | h
    · exact .inl h
    · exact .inr (.inl (h.trans (path_sub hsub)))
    · exact .inr (.inr (by simpa [hsub] using h))
  rcases hp.resource with hstar | hown | hsub
  · rw [hstar, splitResource_whole (by decide)] at hresource hsubresource
    rcases hwhole hsubresource with hv | hv
    · exact .inl hv
    · exact .inl (hv.trans hresource)
  · cases hnamed : r.sub with
    | none =>
      rw [hown, path_whole hnamed, splitResource_whole hslash] at hresource hsubresource
      rcases hwhole hsubresource with hv | hv
      · exact .inl hv
      · exact .inr (.inl ((hv.trans hresource).trans (path_whole hnamed).symm))
    | some sub =>
      obtain ⟨_, hfull⟩ := sub_full hnamed
      rw [hown, path_sub hnamed, splitResource_slash hslash] at hresource hsubresource
      rcases hpart sub hfull hsubresource with hv | hv | hv
      · exact .inl hv
      · rw [hresource] at hv
        exact .inr (.inl (hv.trans (path_sub hnamed).symm))
      · exact .inr (.inr (by simpa [hnamed] using hv))
  · cases hnamed : r.sub with
    | none => simp [hnamed] at hsub
    | some sub =>
      obtain ⟨_, hfull⟩ := sub_full hnamed
      have hstar : p.resource = "*" ++ "/" ++ sub := by simpa [hnamed] using hsub
      rw [hstar, splitResource_slash (by decide)] at hresource hsubresource
      have hall : v = "*" ∨ v = "*/" ++ sub := by
        rcases hpart sub hfull hsubresource with hv | hv | hv
        · exact .inl hv
        · rw [hresource] at hv
          exact .inr hv
        · exact .inr hv
      rcases hall with hv | hv
      · exact .inl hv
      · exact .inr (.inr (by simpa [hnamed] using hv))

/-- A rule that gives the permission allows what the permission is needed for. -/
theorem ruleAllows_of_needed {rule : PolicyRule} {p : Permission}
    (hslash : '/' ∉ r.resource.toList) (hp : Needed r p)
    (h : ruleAllows rule (p.request scope) = true) : ruleAllows rule (.resource r) = true := by
  unfold Permission.request at h
  unfold ruleAllows at h ⊢
  simp only [Bool.and_eq_true] at h ⊢
  obtain ⟨hverb, ⟨hgroup, hresource⟩, hnames⟩ := h
  refine ⟨contains_of_star hverb hp.verb, ⟨contains_of_star hgroup hp.group, ?_⟩, ?_⟩
  · obtain ⟨v, hmem, hv⟩ := List.any_eq_true.mp hresource
    refine List.any_eq_true.mpr ⟨v, hmem, decide_eq_true ?_⟩
    have hspells := of_decide_eq_true hv
    exact Spells.of_needed hslash hp rfl rfl hspells
  · cases hlisted : rule.resourceNames.filter (· ≠ []) with
    | none => rfl
    | some names =>
      rw [hlisted] at hnames
      cases hname : p.name with
      | none => simp [hname] at hnames
      | some name =>
        have hmember : name ∈ names := by simpa [hname] using hnames
        simpa [hp.name name hname] using hmember

theorem rulesAllow_of_needed {rules : Option (List PolicyRule)} {p : Permission}
    (hslash : '/' ∉ r.resource.toList) (hp : Needed r p)
    (h : rulesAllow rules (p.request scope) = true) : rulesAllow rules (.resource r) = true := by
  obtain ⟨rule, hmem, hrule⟩ := List.any_eq_true.mp h
  exact List.any_eq_true.mpr ⟨rule, hmem, ruleAllows_of_needed hslash hp hrule⟩

/-- In which scope a permission helps with the request: everywhere, or in its own namespace. -/
def InScope (r : ResourceRequest) (scope : Option String) : Prop :=
  scope = none ∨ scope = r.ns.filter (· ≠ "")

theorem allows_of_needed {p : Permission} (hslash : '/' ∉ r.resource.toList) (hp : Needed r p)
    (hscope : InScope r scope) (h : b.allows user (p.request scope) = true) :
    b.allows user (.resource r) = true := by
  unfold Rbac.allows at h ⊢
  simp only [Bool.or_eq_true] at h ⊢
  rcases h with (hsuper | hcluster) | hnamespaced
  · exact .inl (.inl hsuper)
  · obtain ⟨binding, hmem, hgrant⟩ := List.any_eq_true.mp hcluster
    refine .inl (.inr (List.any_eq_true.mpr ⟨binding, hmem, ?_⟩))
    unfold Rbac.clusterGrant at hgrant ⊢
    rw [Bool.and_eq_true] at hgrant ⊢
    obtain ⟨hbinding, hrole⟩ := hgrant
    refine ⟨hbinding, ?_⟩
    cases hfound : b.clusterRole binding.roleRef.name with
    | none => simp [hfound] at hrole
    | some role =>
      rw [hfound] at hrole
      exact rulesAllow_of_needed hslash hp hrole
  · refine .inr ?_
    have hns : (p.request scope).ns = scope.filter (· ≠ "") := rfl
    rw [hns] at hnamespaced
    change (r.ns.filter (· ≠ "")).any _ = true
    rcases hscope with rfl | rfl
    · cases hnamespaced
    cases hfiltered : r.ns.filter (· ≠ "") with
    | none =>
      rw [hfiltered] at hnamespaced
      cases hnamespaced
    | some ns =>
      have hfull : ns ≠ "" := by simpa using (Option.filter_eq_some_iff.mp hfiltered).2
      rw [hfiltered, Option.filter_some_pos (by simpa using hfull)] at hnamespaced
      obtain ⟨binding, hmem, hgrant⟩ := List.any_eq_true.mp hnamespaced
      refine List.any_eq_true.mpr ⟨binding, hmem, ?_⟩
      unfold Rbac.grant at hgrant ⊢
      rw [Bool.and_eq_true] at hgrant ⊢
      exact ⟨hgrant.1, rulesAllow_of_needed hslash hp hgrant.2⟩

/-- Who holds all that the rules grant in a scope may do what they allow there. -/
theorem holdsAll_allows (hslash : '/' ∉ r.resource.toList) (hscope : InScope r scope)
    (h : holdsAll b user scope (granted rules) = .ok ())
    (hrules : rulesAllow (policyRules rules) (.resource r) = true) :
    b.allows user (.resource r) = true := by
  obtain ⟨rule, hmem, hrule⟩ := List.any_eq_true.mp hrules
  obtain ⟨value, hvalue, rfl⟩ : ∃ value ∈ rules.items, policyRule value = rule := by
    unfold policyRules at hmem
    cases hitems : rules.asArray with
    | none => simp [hitems] at hmem
    | some items =>
      rw [hitems] at hmem
      obtain ⟨value, hvalue, hsame⟩ := List.mem_map.mp hmem
      exact ⟨value, by rwa [Json.items, hitems], hsame⟩
  obtain ⟨p, hp, hneeded⟩ := grantedRule_needed hrule
  unfold holdsAll at h
  split at h
  · cases h
  · rename_i hnone
    have hheld := List.find?_eq_none.mp hnone p (List.mem_flatMap.mpr ⟨value, hvalue, hp⟩)
    exact allows_of_needed hslash hneeded hscope (by simpa using hheld)

/-! ## What the registry permits -/

theorem family_iff {plural : String} :
    startsWith ("/registry/" ++ plural ++ "/") k = true ↔ Family plural k := by
  refine ⟨fun h => ?_, family_startsWith⟩
  rw [startsWith, List.isPrefixOf_iff_prefix] at h
  obtain ⟨rest, hrest⟩ := h
  exact ⟨String.ofList rest, String.toList_inj.mp (by simp [← hrest, String.toList_append])⟩

theorem mem_readKind {kind : String} {values : List Json} {v : Json}
    (h : readKind lib reg kind = .ok values) :
    v ∈ values ↔ ∃ k stored, Family kind k ∧ reg.get k = some stored ∧ stored.value = v := by
  have hread : ∀ {e : StoreKey × Stored} {v : Json}, readTyped lib kind e = .ok v →
      e.2.value = v := by
    intro e v h
    unfold readTyped at h
    split_ifs at h
    exact Except.ok.inj h
  constructor
  · intro hv
    obtain ⟨e, hmem, he⟩ := Fallible.mapM_mem h hv
    obtain ⟨hget, hstarts⟩ := Registry.mem_list.mp hmem
    exact ⟨e.1, e.2, family_iff.mp hstarts, hget, hread he⟩
  · rintro ⟨k, stored, hfamily, hget, rfl⟩
    have hmem : (k, stored) ∈ reg.list ("/registry/" ++ kind ++ "/") :=
      Registry.mem_list.mpr ⟨hget, family_iff.mpr hfamily⟩
    obtain ⟨v, hv, he⟩ := Fallible.mapM_mem_of_mem h hmem
    rwa [hread he]

/-- The kinds that a snapshot reads. -/
structure Snapshot (lib : Libraries) (reg : Registry) (b : Rbac)
    (roles roleBindings clusterRoles clusterRoleBindings : List Json) : Prop where
  rolesRead : readKind lib reg "roles" = .ok roles
  roleBindingsRead : readKind lib reg "rolebindings" = .ok roleBindings
  clusterRolesRead : readKind lib reg "clusterroles" = .ok clusterRoles
  clusterRoleBindingsRead : readKind lib reg "clusterrolebindings" = .ok clusterRoleBindings
  snapshot : b = ⟨roles.map role, clusterRoles.map clusterRole, roleBindings.map roleBinding,
    clusterRoleBindings.map clusterRoleBinding⟩

theorem rbac_ok (h : rbac lib reg = .ok b) : ∃ roles roleBindings clusterRoles clusterRoleBindings,
    Snapshot lib reg b roles roleBindings clusterRoles clusterRoleBindings := by
  obtain ⟨roles, hroles, h⟩ := Fallible.bind_eq_ok.mp h
  obtain ⟨roleBindings, hroleBindings, h⟩ := Fallible.bind_eq_ok.mp h
  obtain ⟨clusterRoles, hclusterRoles, h⟩ := Fallible.bind_eq_ok.mp h
  obtain ⟨clusterRoleBindings, hclusterRoleBindings, h⟩ := Fallible.bind_eq_ok.mp h
  exact ⟨roles, roleBindings, clusterRoles, clusterRoleBindings, hroles, hroleBindings,
    hclusterRoles, hclusterRoleBindings, (Except.ok.inj h).symm⟩

/-- The roles and the bindings of namespaces lie at the keys of their names. -/
structure Homed (reg : Registry) : Prop where
  namespaced : ∀ plural ∈ ["roles", "rolebindings"], ∀ k stored, Family plural k →
    reg.get k = some stored → ∃ ns name, '/' ∉ ns.toList ∧
      k.value = "/registry/" ++ plural ++ "/" ++ ns ++ "/" ++ name ∧
      stored.value["metadata"]["namespace"] = .string ns ∧
      stored.value["metadata"]["name"] = .string name
  cluster : ∀ k stored, Family "clusterroles" k → reg.get k = some stored → ∃ name,
    k.value = "/registry/clusterroles/" ++ name ∧ stored.value["metadata"]["name"] = .string name

/-- Where what is looked for is told by its key, the first that is found is the one there. -/
theorem find_homed {α : Type} {kind path : String} {values : List Json} {f : Json → α}
    {p : α → Prop} [DecidablePred p] {x : α} (hread : readKind lib reg kind = .ok values)
    (hkey : ∀ k stored, Family kind k → reg.get k = some stored →
      (p (f stored.value) ↔ k.value = path)) (hpath : ∀ k : StoreKey, k.value = path → Family kind k) :
    (values.map f).find? (fun a => p a) = some x ↔
      ∃ k stored, k.value = path ∧ reg.get k = some stored ∧ f stored.value = x := by
  constructor
  · intro h
    have hp : p x := of_decide_eq_true (List.find?_some (p := fun a => decide (p a)) h)
    obtain ⟨v, hv, rfl⟩ := List.mem_map.mp (List.mem_of_find?_eq_some h)
    obtain ⟨k, stored, hfamily, hget, rfl⟩ := (mem_readKind hread).mp hv
    exact ⟨k, stored, (hkey k stored hfamily hget).mp hp, hget, rfl⟩
  · rintro ⟨k, stored, hk, hget, rfl⟩
    have hmem : stored.value ∈ values :=
      (mem_readKind hread).mpr ⟨k, stored, hpath k hk, hget, rfl⟩
    have hp : p (f stored.value) := (hkey k stored (hpath k hk) hget).mpr hk
    cases hfound : (values.map f).find? fun a => p a with
    | none =>
      have hnone := List.find?_eq_none.mp hfound _ (List.mem_map_of_mem hmem)
      exact absurd (decide_eq_true hp) hnone
    | some y =>
      have hy : p y := of_decide_eq_true (List.find?_some (p := fun a => decide (p a)) hfound)
      obtain ⟨v, hv, rfl⟩ := List.mem_map.mp (List.mem_of_find?_eq_some hfound)
      obtain ⟨k', stored', hfamily', hget', rfl⟩ := (mem_readKind hread).mp hv
      have hsame : k' = k := StoreKey.value_injective
        (((hkey k' stored' hfamily' hget').mp hy).trans hk.symm)
      rw [hsame, hget] at hget'
      rw [Option.some.inj hget']

/-- The role that a binding of a namespace refers to lies at the key. -/
def RoleAt (ns : String) (ref : RoleRef) (kr : StoreKey) : Prop :=
  (ref.kind = "Role" ∧ kr.value = "/registry/roles/" ++ ns ++ "/" ++ ref.name) ∨
    ref.kind = "ClusterRole" ∧ kr.value = "/registry/clusterroles/" ++ ref.name

def subjects (binding : Json) : Option (List Subject) :=
  binding["subjects"].asArray.map (List.map subject)

/-- The binding at a key hands the user the role at another for the request. -/
inductive Hands (user : User) (r : ResourceRequest) (k : StoreKey) (binding : Json) (kr : StoreKey) :
    Prop
  | cluster : Family "clusterrolebindings" k → (roleRef binding["roleRef"]).apiGroup = rbacGroup →
      (roleRef binding["roleRef"]).kind = "ClusterRole" →
      subjectsMatch (subjects binding) user none = true →
      kr.value = "/registry/clusterroles/" ++ (roleRef binding["roleRef"]).name →
      Hands user r k binding kr
  | namespaced {ns : String} : Family "rolebindings" k → r.ns.filter (· ≠ "") = some ns →
      binding["metadata"]["namespace"] = .string ns →
      (roleRef binding["roleRef"]).apiGroup = rbacGroup →
      subjectsMatch (subjects binding) user (some ns) = true →
      RoleAt ns (roleRef binding["roleRef"]) kr → Hands user r k binding kr

/-- The user is one who may do everything, or a binding hands it a role that allows the request. -/
def Held (reg : Registry) (user : User) (r : ResourceRequest) : Prop :=
  user.isSuperuser = true ∨ ∃ k binding kr role, reg.get k = some binding ∧
    Hands user r k binding.value kr ∧ reg.get kr = some role ∧
      rulesAllow (policyRules role.value["rules"]) (.resource r) = true

theorem role_path_inj {ns ns' x y : String} (h : '/' ∉ ns.toList) (h' : '/' ∉ ns'.toList)
    (hpath : "/registry/roles/" ++ ns ++ "/" ++ x = "/registry/roles/" ++ ns' ++ "/" ++ y) :
    ns = ns' ∧ x = y := by
  rw [String.append_assoc, String.append_assoc, String.append_assoc, String.append_assoc,
    String.append_right_inj, ← String.append_assoc, ← String.append_assoc] at hpath
  exact append_slash_inj h h' hpath

section

variable {roles roleBindings clusterRoles clusterRoleBindings : List Json}

theorem Snapshot.clusterRole {name : String} {x : ClusterRole}
    (hb : Snapshot lib reg b roles roleBindings clusterRoles clusterRoleBindings)
    (hhomed : Homed reg) : b.clusterRole name = some x ↔ ∃ k stored,
      k.value = "/registry/clusterroles/" ++ name ∧ reg.get k = some stored ∧
        Server.clusterRole stored.value = x := by
  unfold Rbac.clusterRole
  rw [hb.snapshot]
  refine find_homed hb.clusterRolesRead (fun k stored hfamily hget => ?_) fun k hk => ⟨name, hk⟩
  obtain ⟨own, hk, hown⟩ := hhomed.cluster k stored hfamily hget
  have hname : (Server.clusterRole stored.value).name = some own := by
    change stored.value["metadata"]["name"].asString = some own
    rw [hown]
    rfl
  rw [hname, hk, String.append_right_inj, Option.some.injEq]

theorem Snapshot.role {ns name : String} {x : Role}
    (hb : Snapshot lib reg b roles roleBindings clusterRoles clusterRoleBindings)
    (hhomed : Homed reg) (hns : '/' ∉ ns.toList) : b.role ns name = some x ↔ ∃ k stored,
      k.value = "/registry/roles/" ++ ns ++ "/" ++ name ∧ reg.get k = some stored ∧
        Server.role stored.value = x := by
  unfold Rbac.role
  rw [hb.snapshot]
  refine find_homed hb.rolesRead (fun k stored hfamily hget => ?_)
    fun k hk => ⟨ns ++ "/" ++ name, by rw [hk]; simp only [String.append_assoc]; rfl⟩
  obtain ⟨home, own, hhome, hk, hnamespace, hown⟩ :=
    hhomed.namespaced "roles" (by decide) k stored hfamily hget
  have hname : (Server.role stored.value).name = some own := by
    change stored.value["metadata"]["name"].asString = some own
    rw [hown]
    rfl
  have hplace : (Server.role stored.value).ns = some home := by
    change stored.value["metadata"]["namespace"].asString = some home
    rw [hnamespace]
    rfl
  rw [hname, hplace, hk, Option.some.injEq, Option.some.injEq]
  constructor
  · rintro ⟨rfl, rfl⟩
    rfl
  · intro hsame
    exact role_path_inj hhome hns hsame

/-- The role at a key has rules that allow the request. -/
def Allowing (reg : Registry) (kr : StoreKey) (r : ResourceRequest) : Prop :=
  ∃ role, reg.get kr = some role ∧ rulesAllow (policyRules role.value["rules"]) (.resource r) = true

theorem Snapshot.clusterGrant_iff {binding : Json}
    (hb : Snapshot lib reg b roles roleBindings clusterRoles clusterRoleBindings)
    (hhomed : Homed reg) :
    b.clusterGrant user (.resource r) (clusterRoleBinding binding) = true ↔
      (roleRef binding["roleRef"]).apiGroup = rbacGroup ∧
        (roleRef binding["roleRef"]).kind = "ClusterRole" ∧
        subjectsMatch (subjects binding) user none = true ∧ ∃ kr : StoreKey,
          kr.value = "/registry/clusterroles/" ++ (roleRef binding["roleRef"]).name ∧
            Allowing reg kr r := by
  unfold Rbac.clusterGrant
  simp only [Bool.and_eq_true, decide_eq_true_eq, Option.any_eq_true]
  constructor
  · rintro ⟨⟨⟨hgroup, hkind⟩, hsubjects⟩, x, hfound, hrules⟩
    obtain ⟨kr, role, hkr, hget, rfl⟩ := (hb.clusterRole hhomed).mp hfound
    exact ⟨hgroup, hkind, hsubjects, kr, hkr, role, hget, hrules⟩
  · rintro ⟨hgroup, hkind, hsubjects, kr, hkr, role, hget, hrules⟩
    exact ⟨⟨⟨hgroup, hkind⟩, hsubjects⟩, _,
      (hb.clusterRole hhomed).mpr ⟨kr, role, hkr, hget, rfl⟩, hrules⟩

theorem Snapshot.bindingRules_iff {ns : String} {ref : RoleRef}
    (hb : Snapshot lib reg b roles roleBindings clusterRoles clusterRoleBindings)
    (hhomed : Homed reg) (hns : '/' ∉ ns.toList) :
    rulesAllow (b.bindingRules ns ref) (.resource r) = true ↔
      ∃ kr, RoleAt ns ref kr ∧ Allowing reg kr r := by
  unfold Rbac.bindingRules RoleAt
  split
  · rename_i hkind
    have hother : ref.kind ≠ "ClusterRole" := by
      rw [hkind]
      decide
    constructor
    · intro h
      cases hfound : b.role ns ref.name with
      | none =>
        rw [hfound] at h
        cases h
      | some x =>
        rw [hfound] at h
        obtain ⟨kr, role, hkr, hget, rfl⟩ := (hb.role hhomed hns).mp hfound
        exact ⟨kr, .inl ⟨hkind, hkr⟩, role, hget, h⟩
    · rintro ⟨kr, ⟨_, hkr⟩ | ⟨hcluster, _⟩, role, hget, hrules⟩
      · rw [(hb.role hhomed hns).mpr ⟨kr, role, hkr, hget, rfl⟩]
        exact hrules
      · exact absurd hcluster hother
  · rename_i hkind
    have hother : ref.kind ≠ "Role" := by
      rw [hkind]
      decide
    constructor
    · intro h
      cases hfound : b.clusterRole ref.name with
      | none =>
        rw [hfound] at h
        cases h
      | some x =>
        rw [hfound] at h
        obtain ⟨kr, role, hkr, hget, rfl⟩ := (hb.clusterRole hhomed).mp hfound
        exact ⟨kr, .inr ⟨hkind, hkr⟩, role, hget, h⟩
    · rintro ⟨kr, ⟨hrole, _⟩ | ⟨_, hkr⟩, role, hget, hrules⟩
      · exact absurd hrole hother
      · rw [(hb.clusterRole hhomed).mpr ⟨kr, role, hkr, hget, rfl⟩]
        exact hrules
  · rename_i hrole hcluster
    constructor
    · intro h
      cases h
    · rintro ⟨kr, ⟨hkind, _⟩ | ⟨hkind, _⟩, _⟩
      · exact absurd hkind hrole
      · exact absurd hkind hcluster

theorem Snapshot.grant_iff {ns : String} {binding : Json}
    (hb : Snapshot lib reg b roles roleBindings clusterRoles clusterRoleBindings)
    (hhomed : Homed reg) (hns : '/' ∉ ns.toList) :
    b.grant user (.resource r) ns (roleBinding binding) = true ↔
      binding["metadata"]["namespace"] = .string ns ∧
        (roleRef binding["roleRef"]).apiGroup = rbacGroup ∧
        subjectsMatch (subjects binding) user (some ns) = true ∧
        ∃ kr, RoleAt ns (roleRef binding["roleRef"]) kr ∧ Allowing reg kr r := by
  unfold Rbac.grant
  simp only [Bool.and_eq_true, decide_eq_true_eq, hb.bindingRules_iff hhomed hns, and_assoc]
  change binding["metadata"]["namespace"].asString = some ns ∧ _ ↔ _
  rw [Json.asString_eq_some]
  rfl

/-- The registry decides as its bindings and roles hand permissions out. -/
theorem Snapshot.allows_iff
    (hb : Snapshot lib reg b roles roleBindings clusterRoles clusterRoleBindings)
    (hhomed : Homed reg) : b.allows user (.resource r) = true ↔ Held reg user r := by
  have hcluster : b.clusterRoleBindings = clusterRoleBindings.map clusterRoleBinding := by
    rw [hb.snapshot]
  have hnamespaced : b.roleBindings = roleBindings.map roleBinding := by rw [hb.snapshot]
  unfold Rbac.allows Held
  rw [Bool.or_eq_true, Bool.or_eq_true, hcluster, hnamespaced, or_assoc]
  refine or_congr_right ⟨?_, ?_⟩
  · rintro (h | h)
    · obtain ⟨x, hx, hgrant⟩ := List.any_eq_true.mp h
      obtain ⟨v, hv, rfl⟩ := List.mem_map.mp hx
      obtain ⟨k, binding, hfamily, hget, rfl⟩ := (mem_readKind hb.clusterRoleBindingsRead).mp hv
      obtain ⟨hgroup, hkind, hsubjects, kr, hkr, role, hrole, hrules⟩ :=
        (hb.clusterGrant_iff hhomed).mp hgrant
      exact ⟨k, binding, kr, role, hget, .cluster hfamily hgroup hkind hsubjects hkr, hrole, hrules⟩
    · obtain ⟨ns, hscope, h⟩ := (Option.any_eq_true _ _).mp h
      obtain ⟨x, hx, hgrant⟩ := List.any_eq_true.mp h
      obtain ⟨v, hv, rfl⟩ := List.mem_map.mp hx
      obtain ⟨k, binding, hfamily, hget, rfl⟩ := (mem_readKind hb.roleBindingsRead).mp hv
      obtain ⟨home, _, hslash, _, hnamespace, _⟩ :=
        hhomed.namespaced "rolebindings" (by decide) k binding hfamily hget
      have hhome : home = ns := by
        unfold Rbac.grant at hgrant
        simp only [Bool.and_eq_true, decide_eq_true_eq] at hgrant
        have hown : binding.value["metadata"]["namespace"].asString = some ns := hgrant.1.1.1
        rw [hnamespace] at hown
        exact Option.some.inj hown
      rw [hhome] at hslash
      obtain ⟨hplace, hgroup, hsubjects, kr, hat, role, hrole, hrules⟩ :=
        (hb.grant_iff hhomed hslash).mp hgrant
      exact ⟨k, binding, kr, role, hget, .namespaced hfamily hscope hplace hgroup hsubjects hat,
        hrole, hrules⟩
  · rintro ⟨k, binding, kr, role, hget, hhands, hrole, hrules⟩
    cases hhands with
    | cluster hfamily hgroup hkind hsubjects hkr =>
      refine .inl (List.any_eq_true.mpr ⟨_, List.mem_map_of_mem
        ((mem_readKind hb.clusterRoleBindingsRead).mpr ⟨k, binding, hfamily, hget, rfl⟩), ?_⟩)
      exact (hb.clusterGrant_iff hhomed).mpr ⟨hgroup, hkind, hsubjects, kr, hkr, role, hrole, hrules⟩
    | @namespaced ns hfamily hscope hplace hgroup hsubjects hat =>
      obtain ⟨home, _, hslash, _, hnamespace, _⟩ :=
        hhomed.namespaced "rolebindings" (by decide) k binding hfamily hget
      have hhome : home = ns := Json.string.inj (hnamespace.symm.trans hplace)
      rw [hhome] at hslash
      refine .inr ((Option.any_eq_true _ _).mpr ⟨ns, hscope, List.any_eq_true.mpr ⟨_,
        List.mem_map_of_mem ((mem_readKind hb.roleBindingsRead).mpr
          ⟨k, binding, hfamily, hget, rfl⟩), ?_⟩⟩)
      exact (hb.grant_iff hhomed hslash).mpr ⟨hplace, hgroup, hsubjects, kr, hat, role, hrole, hrules⟩

end

theorem allows_iff_held (hb : rbac lib reg = .ok b) (hhomed : Homed reg) :
    b.allows user (.resource r) = true ↔ Held reg user r := by
  obtain ⟨_, _, _, _, hsnapshot⟩ := rbac_ok hb
  exact hsnapshot.allows_iff hhomed

/-! ## Writes of roles and bindings -/

/-- The kinds that permissions are read from. -/
def rbacPlurals : List String := ["roles", "clusterroles", "rolebindings", "clusterrolebindings"]

theorem rbac_kind {resource : Resource} (h : resource ∈ resources)
    (hplural : resource.plural ∈ rbacPlurals) :
    resource.kind ∈ ["Role", "ClusterRole", "RoleBinding", "ClusterRoleBinding"] ∧
      (resource.namespaced = true ↔ resource.plural ∈ ["roles", "rolebindings"]) := by
  have hall : ∀ r ∈ resources, r.plural ∈ rbacPlurals →
      r.kind ∈ ["Role", "ClusterRole", "RoleBinding", "ClusterRoleBinding"] ∧
        (r.namespaced = true ↔ r.plural ∈ ["roles", "rolebindings"]) := by decide
  exact hall resource h hplural

theorem rbac_plain {target : Target} (h : target.Valid)
    (hplural : target.resource.plural ∈ rbacPlurals) : target.subresource = none := by
  obtain ⟨hkind, _⟩ := rbac_kind h.served hplural
  cases hsub : target.subresource with
  | none => rfl
  | some sub =>
    have hserves := (h.subresource sub hsub).2
    simp only [List.mem_cons, List.not_mem_nil, or_false] at hkind
    unfold servesSubresource at hserves
    split at hserves <;> rcases hkind with hkind | hkind | hkind | hkind <;>
      simp [Resource.hasStatus, hkind] at hserves

theorem supported_verb {x : Bool × String} {verb v : String}
    (h : (if x.1 = true then pure verb else throw (failure 405 "MethodNotAllowed" x.2) :
      Outcome String) = .ok v) : verb = v := by
  split_ifs at h
  exact Except.ok.inj h

theorem verb_mem {method v : String} {target : Target} {watch : Bool}
    (h : verb method target watch = .ok v) :
    v ∈ ["watch", "get", "list", "create", "update", "patch", "delete"] := by
  unfold verb at h
  dsimp only at h
  split at h
  · obtain ⟨verb, hverb, h⟩ := Fallible.bind_eq_ok.mp h
    cases hverb
    rw [← supported_verb h]
    decide
  · split at h
    case h_4 =>
      split at h
      · obtain ⟨verb, hverb, h⟩ := Fallible.bind_eq_ok.mp h
        cases hverb
        rw [← supported_verb h]
        decide
      · cases h
    case h_8 => cases h
    all_goals
      obtain ⟨verb, hverb, h⟩ := Fallible.bind_eq_ok.mp h
      cases hverb
      rw [← supported_verb h]
      decide

theorem write_verb {v : String}
    (hverb : v ∈ ["watch", "get", "list", "create", "update", "patch", "delete"])
    (hwrite : v ∉ ["get", "list", "watch"]) (hdelete : v ≠ "delete") :
    v ∈ ["create", "update", "patch"] := by
  simp only [List.mem_cons, List.not_mem_nil, or_false] at hverb
  rcases hverb with rfl | rfl | rfl | rfl | rfl | rfl | rfl
  · exact absurd (by decide) hwrite
  · exact absurd (by decide) hwrite
  · exact absurd (by decide) hwrite
  · decide
  · decide
  · decide
  · exact absurd rfl hdelete

/-- What an accepted write of a role or a binding does: it removes one, or it puts one that lies at
the key of its name and hands on nothing that the writer does not hold. -/
inductive Rewritten (lib : Libraries) (writer : User) (target : Target) (v : String)
    (reg : Registry) : Registry → Prop
  | removed {k : StoreKey} : Rewritten lib writer target v reg (reg.drop k)
  | put {k : StoreKey} {value : Json} : Placed target k value → v ∈ ["create", "update", "patch"] →
      escalation lib reg writer target v value = .ok () →
      Rewritten lib writer target v reg (reg.put k value)

theorem executed_rbac {target : Target} {v : String} {query : Query} {body : Body}
    (hvalid : target.Valid) (hplural : target.resource.plural ∈ rbacPlurals)
    (hverb : v ∈ ["watch", "get", "list", "create", "update", "patch", "delete"])
    (hwrite : v ∉ ["get", "list", "watch"])
    (h : Executed lib fresh ⟨writer, target, v⟩ query body reg reg') :
    Rewritten lib writer target v reg reg' := by
  have hplain := rbac_plain hvalid hplural
  obtain ⟨hkind, _⟩ := rbac_kind hvalid.served hplural
  have hother : ∀ kind ∉ ["Role", "ClusterRole", "RoleBinding", "ClusterRoleBinding"],
      target.resource.kind ≠ kind := by
    rintro kind hnot rfl
    exact hnot hkind
  cases h with
  | bound hbinding =>
    rw [show target.subresource = some "binding" from hbinding] at hplain
    cases hplain
  | deleted _ _ _ _ _ hdeleted =>
    cases hdeleted with
    | removed => exact .removed
    | marked hnamespace => exact absurd hnamespace (hother _ (by decide))
    | kept hnamespace => exact absurd hnamespace (hother _ (by decide))
  | @committed p response _ hdelete hp hcommit =>
    obtain ⟨value, reg₁, hadmit, _, hcommitted⟩ := commit_ok hcommit
    obtain ⟨hmeta, _⟩ := admit_keeps hadmit
    have hsame : reg₁ = reg := admit_same hadmit (hother _ (by decide)) (hother _ (by decide))
    have hkeep : KeepsMeta p.value value := fun f _ => by rw [hmeta]
    have hplaced := (propose_placed hplain hp).keeps hkeep
    obtain ⟨_, reg₂, _, hkindStep, hescalation, _⟩ := admit_ok hadmit
    have hbefore : reg₂ = reg :=
      (kindStep_ensures _ _ _ hkindStep).2.2 (hother _ (by decide))
    rw [hbefore] at hescalation
    cases hcommitted with
    | written =>
      rw [hsame]
      exact .put hplaced (write_verb hverb hwrite hdelete) hescalation
    | removed hnamespace => exact absurd hnamespace (hother _ (by decide))

/-- An accepted request leaves the roles and the bindings, or writes one of them. -/
theorem served_rbac (h : Served lib fresh writer request reg reg') :
    (∀ plural ∈ rbacPlurals, ∀ k, Family plural k → reg'.get k = reg.get k) ∨
      ∃ target v, target.Valid ∧ target.resource.plural ∈ rbacPlurals ∧
        target.ns.isSome = target.resource.namespaced ∧
          Rewritten lib writer target v reg reg' := by
  have hslash : ∀ plural ∈ rbacPlurals, '/' ∉ plural.toList := by decide
  have hown : ∀ plural ∈ rbacPlurals,
      plural ∉ ["h3s-bound-tokens", "h3s-node-cidrs", "persistentvolumes"] := by decide
  cases h with
  | read hsame =>
    left
    intro _ _ _ _
    rw [hsame]
  | token _ _ hcreate =>
    obtain ⟨ns, account, value, bound, object, audiences, expires, k', _, _, _, _, _, _, _, hk', _,
      hreg⟩ := createToken_ok hcreate
    left
    intro plural hplural k hfamily
    rw [hreg]
    apply Registry.get_put_ne
    rintro rfl
    have hsame := Family.unique (hslash plural hplural) (by decide) hfamily
      (family_token (key_ok.mp hk'))
    exact hown plural hplural (by simp [hsame])
  | @write target v grant hauthorized _ hwrite hns hexecuted =>
    have hvalid := Target.parse_ok hauthorized.parsed
    by_cases hplural : target.resource.plural ∈ rbacPlurals
    · exact .inr ⟨target, v, hvalid, hplural, hns,
        executed_rbac hvalid hplural (verb_mem hauthorized.verb) hwrite hexecuted⟩
    · left
      intro plural hmem k hfamily
      apply hexecuted.same k
      rintro (hside | hother)
      · rcases family_of_side hside with hside | hside
        · have hsame := Family.unique (hslash plural hmem) (by decide) hfamily hside
          exact hown plural hmem (by simp [hsame])
        · have hsame := Family.unique (hslash plural hmem) (by decide) hfamily hside
          exact hown plural hmem (by simp [hsame])
      · have hsame := Family.unique (hslash plural hmem) (slash_notMem_plural hvalid.served)
          hfamily hother
        exact hplural (hsame ▸ hmem)

/-! ## One request -/

theorem Homed.same (hhomed : Homed reg)
    (h : ∀ plural ∈ rbacPlurals, ∀ k, Family plural k → reg'.get k = reg.get k) : Homed reg' where
  namespaced plural hmem k stored hfamily hget := by
    have hplural : plural ∈ rbacPlurals := by
      simp only [List.mem_cons, List.not_mem_nil, or_false] at hmem
      rcases hmem with rfl | rfl <;> decide
    exact hhomed.namespaced plural hmem k stored hfamily (h plural hplural k hfamily ▸ hget)
  cluster k stored hfamily hget :=
    hhomed.cluster k stored hfamily (h "clusterroles" (by decide) k hfamily ▸ hget)

theorem get_of_drop {k₀ : StoreKey} {stored : Stored} (h : (reg.drop k₀).get k = some stored) :
    reg.get k = some stored := by
  by_cases hk : k = k₀
  · rw [hk, Registry.get_drop] at h
    cases h
  · rwa [Registry.get_drop_ne hk] at h

theorem Homed.drop (hhomed : Homed reg) (k₀ : StoreKey) : Homed (reg.drop k₀) where
  namespaced plural hmem k stored hfamily hget :=
    hhomed.namespaced plural hmem k stored hfamily (get_of_drop hget)
  cluster k stored hfamily hget := hhomed.cluster k stored hfamily (get_of_drop hget)

theorem Homed.put {target : Target} {k₀ : StoreKey} {value : Json} (hhomed : Homed reg)
    (hvalid : target.Valid) (hns : target.ns.isSome = target.resource.namespaced)
    (hplural : target.resource.plural ∈ rbacPlurals) (hplaced : Placed target k₀ value) :
    Homed (reg.put k₀ value) := by
  obtain ⟨name, hname, _, _, hk₀⟩ := hplaced.name
  have hfamily₀ : Family target.resource.plural k₀ := family_pathPrefix hk₀
  have hown : ∀ {plural}, '/' ∉ plural.toList → Family plural k₀ →
      target.resource.plural = plural := fun hslash hfamily =>
    Family.unique (slash_notMem_plural hvalid.served) hslash hfamily₀ hfamily
  obtain ⟨_, hnamespaced⟩ := rbac_kind hvalid.served hplural
  constructor
  · intro plural hmem k stored hfamily hget
    by_cases hk : k = k₀
    · subst hk
      rw [Registry.get_put] at hget
      obtain rfl := Option.some.inj hget
      have hslash : '/' ∉ plural.toList := by
        simp only [List.mem_cons, List.not_mem_nil, or_false] at hmem
        rcases hmem with rfl | rfl <;> decide
      have hsame := hown hslash hfamily
      rw [hnamespaced.mpr (by rwa [hsame])] at hns
      obtain ⟨ns, hsome⟩ := Option.isSome_iff_exists.mp hns
      refine ⟨ns, name, slash_notMem_of_validLabelName (hvalid.ns ns hsome), ?_,
        hplaced.ns ns hsome, hname⟩
      rw [hk₀, Target.pathPrefix, hsome, hsame]
    · rw [Registry.get_put_ne hk] at hget
      exact hhomed.namespaced plural hmem k stored hfamily hget
  · intro k stored hfamily hget
    by_cases hk : k = k₀
    · subst hk
      rw [Registry.get_put] at hget
      obtain rfl := Option.some.inj hget
      have hsame := hown (by decide) hfamily
      refine ⟨name, ?_, hname⟩
      cases hsome : target.ns with
      | some ns =>
        rw [hsome] at hns
        have hmem := hnamespaced.mp hns.symm
        rw [hsame] at hmem
        exact absurd hmem (by decide)
      | none =>
        rw [hk₀, Target.pathPrefix, hsome, hsame]
        rfl
    · rw [Registry.get_put_ne hk] at hget
      exact hhomed.cluster k stored hfamily hget

theorem Homed.served (hhomed : Homed reg) (h : Served lib fresh writer request reg reg') :
    Homed reg' := by
  rcases served_rbac h with hsame | ⟨target, v, hvalid, hplural, hns, hwritten⟩
  · exact hhomed.same hsame
  · cases hwritten with
    | removed => exact hhomed.drop _
    | put hplaced => exact hhomed.put hvalid hns hplural hplaced

/-- The user may neither escalate a role nor bind one. -/
def Unlicensed (b : Rbac) (user : User) : Prop :=
  ∀ verb ∈ ["escalate", "bind"], ∀ plural ∈ ["roles", "clusterroles"], ∀ ns name,
    within b user verb plural ns name = false

section

variable {target : Target} {v : String} {k₀ kr : StoreKey} {value : Json}

/-- The writer of a role holds what the role grants in its scope. -/
theorem escalation_role (hb : rbac lib reg = .ok b) (hplain : writer.isSuperuser = false)
    (hunlicensed : Unlicensed b writer) (hverb : v ∈ ["create", "update", "patch"])
    (hplural : target.resource.plural ∈ ["roles", "clusterroles"])
    (h : escalation lib reg writer target v value = .ok ()) :
    holdsAll b writer (target.ns.filter (· ≠ "")) (granted value["rules"]) = .ok () := by
  unfold escalation at h
  rw [if_neg (by simp [hplain, hverb])] at h
  obtain ⟨b', hb', h⟩ := Fallible.bind_eq_ok.mp h
  obtain rfl : b' = b := Except.ok.inj (hb'.symm.trans hb)
  have hroles : target.resource.plural = "roles" ∨ target.resource.plural = "clusterroles" := by
    simpa using hplural
  dsimp only at h
  rw [if_pos hroles, hunlicensed "escalate" (by decide) _ hplural] at h
  exact h

theorem text_eq {j : Json} {s : String} (h : text j = s) (hs : s ≠ "") : j = .string s := by
  unfold text at h
  cases hj : j.asString with
  | none =>
    rw [hj] at h
    exact absurd h.symm hs
  | some t =>
    rw [hj] at h
    exact Json.asString_eq_some.mp (hj.trans (congrArg some h))

/-- The writer of a binding holds what the role it refers to grants in its scope. -/
theorem escalation_binding (hb : rbac lib reg = .ok b) (hplain : writer.isSuperuser = false)
    (hunlicensed : Unlicensed b writer) (hverb : v ∈ ["create", "update", "patch"])
    (hplural : target.resource.plural ∈ ["rolebindings", "clusterrolebindings"])
    (h : escalation lib reg writer target v value = .ok ()) :
    ∃ referenced role, referencedKind value["roleRef"]["kind"] = .ok referenced ∧
      referencedRole reg referenced (target.ns.filter (· ≠ "")) (roleRef value["roleRef"]).name =
        .ok role ∧
      holdsAll b writer (if referenced = "roles" then target.ns.filter (· ≠ "") else none)
        (granted role["rules"]) = .ok () := by
  unfold escalation at h
  rw [if_neg (by simp [hplain, hverb])] at h
  obtain ⟨b', hb', h⟩ := Fallible.bind_eq_ok.mp h
  obtain rfl : b' = b := Except.ok.inj (hb'.symm.trans hb)
  have hbindings : target.resource.plural = "rolebindings" ∨
      target.resource.plural = "clusterrolebindings" := by simpa using hplural
  have hroles : ¬ (target.resource.plural = "roles" ∨ target.resource.plural = "clusterroles") := by
    rcases hbindings with hbinding | hbinding <;> rw [hbinding] <;> decide
  dsimp only at h
  rw [if_neg hroles, if_pos hbindings] at h
  obtain ⟨referenced, hreferenced, h⟩ := Fallible.bind_eq_ok.mp h
  have hmem : referenced ∈ ["roles", "clusterroles"] := by
    unfold referencedKind at hreferenced
    split at hreferenced <;> cases hreferenced <;> decide
  have hname : ∀ {name}, value["roleRef"]["name"].asString = some name →
      (roleRef value["roleRef"]).name = name := by
    intro name hsome
    change value["roleRef"]["name"].asString.getD "" = name
    rw [hsome]
    rfl
  split at h
  · cases h
  · cases h
  · rename_i name _ hsome
    rw [hunlicensed "bind" (by decide) _ hmem] at h
    obtain ⟨role, hrole, h⟩ := Fallible.bind_eq_ok.mp h
    rw [← hname hsome] at hrole
    exact ⟨referenced, role, hreferenced, hrole, h⟩

/-- The namespace of a binding that hands a role out, where it is one of a namespace. -/
theorem Hands.namespace_slash {k : StoreKey} {binding : Stored} (hhomed : Homed reg)
    (hget : reg.get k = some binding) (hfamily : Family "rolebindings" k) {ns : String}
    (hns : binding.value["metadata"]["namespace"] = .string ns) : '/' ∉ ns.toList := by
  obtain ⟨home, _, hslash, _, hnamespace, _⟩ :=
    hhomed.namespaced "rolebindings" (by decide) k binding hfamily hget
  rwa [Json.string.inj (hnamespace.symm.trans hns)] at hslash

/-- The role that is put at a key grants in the scope of its key. -/
theorem put_role_scope {k : StoreKey} {binding : Stored} (hhomed : Homed (reg.put k₀ value))
    (hvalid : target.Valid) (hns : target.ns.isSome = target.resource.namespaced)
    (hplural : target.resource.plural ∈ rbacPlurals) (hplaced : Placed target k₀ value)
    (hget : (reg.put k₀ value).get k = some binding) (hhands : Hands user r k binding.value k₀) :
    target.resource.plural ∈ ["roles", "clusterroles"] ∧
      InScope r (target.ns.filter (· ≠ "")) := by
  obtain ⟨name, _, _, _, hk₀⟩ := hplaced.name
  have hfamily₀ : Family target.resource.plural k₀ := family_pathPrefix hk₀
  have hown : ∀ {plural}, '/' ∉ plural.toList → Family plural k₀ →
      target.resource.plural = plural := fun hslash hfamily =>
    Family.unique (slash_notMem_plural hvalid.served) hslash hfamily₀ hfamily
  obtain ⟨_, hnamespaced⟩ := rbac_kind hvalid.served hplural
  have hcluster : ∀ {n : String}, k₀.value = "/registry/clusterroles/" ++ n →
      target.resource.plural ∈ ["roles", "clusterroles"] ∧
        InScope r (target.ns.filter (· ≠ "")) := by
    intro n hk
    have hfamily : Family "clusterroles" k₀ := ⟨n, hk⟩
    have hsame := hown (by decide) hfamily
    refine ⟨by rw [hsame]; decide, .inl ?_⟩
    cases hsome : target.ns with
    | none => rfl
    | some ns =>
      rw [hsome] at hns
      have hmem := hnamespaced.mp hns.symm
      rw [hsame] at hmem
      exact absurd hmem (by decide)
  cases hhands with
  | cluster _ _ _ _ hk => exact hcluster hk
  | @namespaced ns hfamily hscope hnamespace _ _ hat =>
    rcases hat with ⟨_, hk⟩ | ⟨_, hk⟩
    · have hslash := Hands.namespace_slash hhomed hget hfamily hnamespace
      have hsame : target.resource.plural = "roles" :=
        hown (by decide) ⟨ns ++ "/" ++ _, by rw [hk]; simp only [String.append_assoc]; rfl⟩
      refine ⟨by rw [hsame]; decide, .inr ?_⟩
      rw [hnamespaced.mpr (by rw [hsame]; decide)] at hns
      obtain ⟨home, hsome⟩ := Option.isSome_iff_exists.mp hns
      rw [Target.pathPrefix, hsome, hsame, hk] at hk₀
      obtain ⟨hhome, _⟩ := role_path_inj hslash
        (slash_notMem_of_validLabelName (hvalid.ns home hsome)) hk₀
      have hfull : ns ≠ "" := by simpa using (Option.filter_eq_some_iff.mp hscope).2
      rw [hsome, hscope, ← hhome, Option.filter_some_pos (by simpa using hfull)]
    · exact hcluster hk

/-- The role that a binding is put for is the one its writer was asked about. -/
theorem put_binding_role {kr : StoreKey} {referenced : String} {current : Json} {role : Stored}
    (hplaced : Placed target k₀ value) (hvalid : target.Valid)
    (hns : target.ns.isSome = target.resource.namespaced)
    (hplural : target.resource.plural ∈ rbacPlurals)
    (hhands : Hands user r k₀ value kr) (hget : reg.get kr = some role)
    (hreferenced : referencedKind value["roleRef"]["kind"] = .ok referenced)
    (hrole : referencedRole reg referenced (target.ns.filter (· ≠ ""))
      (roleRef value["roleRef"]).name = .ok current) :
    current["rules"] = role.value["rules"] ∧
      InScope r (if referenced = "roles" then target.ns.filter (· ≠ "") else none) := by
  obtain ⟨name, _, _, _, hk₀⟩ := hplaced.name
  have hfamily₀ : Family target.resource.plural k₀ := family_pathPrefix hk₀
  obtain ⟨k, hk, hfound⟩ := Fallible.bind_eq_ok.mp hrole
  have hpath := key_ok.mp hk
  have hrules : k = kr → current["rules"] = role.value["rules"] := by
    rintro rfl
    rw [hget] at hfound
    exact object_ne hfound (by decide)
  have hcluster : (roleRef value["roleRef"]).kind = "ClusterRole" →
      kr.value = "/registry/clusterroles/" ++ (roleRef value["roleRef"]).name →
        current["rules"] = role.value["rules"] ∧
          InScope r (if referenced = "roles" then target.ns.filter (· ≠ "") else none) := by
    intro hkind hkr
    have hkindValue := text_eq hkind (by decide)
    rw [hkindValue] at hreferenced
    obtain rfl : "clusterroles" = referenced := Except.ok.inj hreferenced
    rw [if_neg (by decide)] at hpath ⊢
    exact ⟨hrules (StoreKey.value_injective (hpath.trans hkr.symm)), .inl rfl⟩
  cases hhands with
  | cluster _ _ hkind _ hkr => exact hcluster hkind hkr
  | @namespaced ns hfamily hscope hnamespace _ _ hat =>
    rcases hat with ⟨hkind, hkr⟩ | ⟨hkind, hkr⟩
    · have hkindValue := text_eq hkind (by decide)
      rw [hkindValue] at hreferenced
      obtain rfl : "roles" = referenced := Except.ok.inj hreferenced
      have hsame : target.resource.plural = "rolebindings" :=
        Family.unique (slash_notMem_plural hvalid.served) (by decide) hfamily₀ hfamily
      obtain ⟨_, hnamespaced⟩ := rbac_kind hvalid.served hplural
      rw [hnamespaced.mpr (by rw [hsame]; decide)] at hns
      obtain ⟨home, hsome⟩ := Option.isSome_iff_exists.mp hns
      have hhome : home = ns := Json.string.inj ((hplaced.ns home hsome).symm.trans hnamespace)
      have hfull : ns ≠ "" := by simpa using (Option.filter_eq_some_iff.mp hscope).2
      have htarget : target.ns.filter (· ≠ "") = some ns := by
        rw [hsome, hhome, Option.filter_some_pos (by simpa using hfull)]
      rw [if_pos rfl, htarget] at hpath
      rw [if_pos rfl, htarget]
      exact ⟨hrules (StoreKey.value_injective (hpath.trans hkr.symm)), .inr hscope.symm⟩
    · exact hcluster hkind hkr

theorem roles_rbac {plural : String} (h : plural ∈ ["roles", "clusterroles"]) :
    plural ∈ rbacPlurals := by
  have hall : ∀ plural ∈ ["roles", "clusterroles"], plural ∈ rbacPlurals := by decide
  exact hall plural h

theorem bindings_rbac {plural : String} (h : plural ∈ ["rolebindings", "clusterrolebindings"]) :
    plural ∈ rbacPlurals := by
  have hall : ∀ plural ∈ ["rolebindings", "clusterrolebindings"], plural ∈ rbacPlurals := by decide
  exact hall plural h

theorem slash_bindings {plural : String} (h : plural ∈ ["rolebindings", "clusterrolebindings"]) :
    '/' ∉ plural.toList := by
  have hall : ∀ plural ∈ ["rolebindings", "clusterrolebindings"], '/' ∉ plural.toList := by decide
  exact hall plural h

theorem Hands.binding_family {k : StoreKey} {binding : Json} (h : Hands user r k binding kr) :
    ∃ plural ∈ ["rolebindings", "clusterrolebindings"], Family plural k := by
  cases h with
  | cluster hfamily => exact ⟨_, by decide, hfamily⟩
  | namespaced hfamily => exact ⟨_, by decide, hfamily⟩

theorem Hands.role_family {k : StoreKey} {binding : Json} (h : Hands user r k binding kr) :
    ∃ plural ∈ ["roles", "clusterroles"], Family plural kr := by
  cases h with
  | cluster _ _ _ _ hkr => exact ⟨"clusterroles", by decide, _, hkr⟩
  | @namespaced ns _ _ _ _ _ hat =>
    rcases hat with ⟨_, hkr⟩ | ⟨_, hkr⟩
    · refine ⟨"roles", by decide, ns ++ "/" ++ (roleRef binding["roleRef"]).name, ?_⟩
      rw [hkr]
      simp only [String.append_assoc]
      rfl
    · exact ⟨"clusterroles", by decide, _, hkr⟩

/-- A request hands a permission only to those who had it, or the writer had it. -/
theorem served_held (h : Served lib fresh writer request reg reg') (hhomed : Homed reg)
    (hb : rbac lib reg = .ok b) (hunlicensed : Unlicensed b writer)
    (hslash : '/' ∉ r.resource.toList) (hheld : Held reg' user r) :
    Held reg user r ∨ Held reg writer r := by
  have hwriter : b.allows writer (.resource r) = true → Held reg user r ∨ Held reg writer r :=
    fun hallows => .inr ((allows_iff_held hb hhomed).mp hallows)
  rcases hheld with hsuper | ⟨k, binding, kr, role, hget, hhands, hrole, hrules⟩
  · exact .inl (.inl hsuper)
  have hkept : reg.get k = some binding → reg.get kr = some role →
      Held reg user r ∨ Held reg writer r := fun hgot hfound =>
    .inl (.inr ⟨k, binding, kr, role, hgot, hhands, hfound, hrules⟩)
  rcases served_rbac h with hsame | ⟨target, v, hvalid, hplural, hns, hwritten⟩
  · obtain ⟨plural, hplural, hfamily⟩ := hhands.binding_family
    obtain ⟨rolePlural, hrolePlural, hroleFamily⟩ := hhands.role_family
    rw [hsame plural (bindings_rbac hplural) k hfamily] at hget
    rw [hsame rolePlural (roles_rbac hrolePlural) kr hroleFamily] at hrole
    exact hkept hget hrole
  have hhomed' := hhomed.served h
  cases hplain : writer.isSuperuser with
  | true => exact .inr (.inl hplain)
  | false =>
  cases hwritten with
  | removed => exact hkept (get_of_drop hget) (get_of_drop hrole)
  | @put k₀ value hplaced hverb hescalation =>
    by_cases hkr : kr = k₀
    · subst hkr
      rw [Registry.get_put] at hrole
      obtain rfl := Option.some.inj hrole
      obtain ⟨hroles, hscope⟩ := put_role_scope hhomed' hvalid hns hplural hplaced hget hhands
      exact hwriter (holdsAll_allows hslash hscope
        (escalation_role hb hplain hunlicensed hverb hroles hescalation) hrules)
    rw [Registry.get_put_ne hkr] at hrole
    by_cases hk : k = k₀
    · subst hk
      rw [Registry.get_put] at hget
      obtain rfl := Option.some.inj hget
      obtain ⟨name, _, _, _, hkey⟩ := hplaced.name
      obtain ⟨plural, hbinding, hfamily⟩ := hhands.binding_family
      have hsame : target.resource.plural = plural :=
        Family.unique (slash_notMem_plural hvalid.served) (slash_bindings hbinding)
          (family_pathPrefix hkey) hfamily
      obtain ⟨referenced, current, hreferenced, hcurrent, hholds⟩ :=
        escalation_binding hb hplain hunlicensed hverb (hsame ▸ hbinding) hescalation
      obtain ⟨hrulesSame, hscope⟩ := put_binding_role hplaced hvalid hns hplural hhands hrole
        hreferenced hcurrent
      rw [hrulesSame] at hholds
      exact hwriter (holdsAll_allows hslash hscope hholds hrules)
    · rw [Registry.get_put_ne hk] at hget
      exact hkept hget hrole

end

/-! ## Runs -/

/-- What the registry decides on a request for a user. -/
def Permits (lib : Libraries) (reg : Registry) (user : User) (r : ResourceRequest) : Prop :=
  ∃ b, rbac lib reg = .ok b ∧ b.allows user (.resource r) = true

/-- A request to write a role, or to bind one, beyond what one holds. -/
structure Licence (q : ResourceRequest) : Prop where
  verb : q.verb ∈ ["escalate", "bind"]
  group : q.group = rbacGroup
  resource : q.resource ∈ ["roles", "clusterroles"]
  subresource : q.subresource = none

/-- The users whose requests a run takes. -/
def requesters : List Event → List User
  | [] => []
  | .request _ user _ :: ls => user :: requesters ls
  | .tick _ :: ls => requesters ls

theorem requesters_append (ls ms : List Event) :
    requesters (ls ++ ms) = requesters ls ++ requesters ms := by
  induction ls with
  | nil => rfl
  | cons l ls ih =>
    cases l with
    | request => simp [requesters, ih]
    | tick => simp [requesters, ih]

theorem Held.permits (hb : rbac lib reg = .ok b) (hhomed : Homed reg) (h : Held reg user r) :
    Permits lib reg user r := ⟨b, hb, (allows_iff_held hb hhomed).mpr h⟩

theorem Permits.held (hhomed : Homed reg) (h : Permits lib reg user r) : Held reg user r := by
  obtain ⟨b, hb, hallows⟩ := h
  exact (allows_iff_held hb hhomed).mp hallows

/-- A user without a licence neither escalates nor binds. -/
theorem unlicensed (hb : rbac lib reg = .ok b)
    (h : ∀ q, Licence q → ¬ Permits lib reg user q) : Unlicensed b user := by
  intro verb hverb plural hplural ns name
  cases hwithin : within b user verb plural ns name with
  | false => rfl
  | true =>
    have hslash : '/' ∉ plural.toList := by
      have hall : ∀ plural ∈ ["roles", "clusterroles"], '/' ∉ plural.toList := by decide
      exact hall plural hplural
    refine absurd ⟨b, hb, hwithin⟩ (h ⟨verb, rbacGroup, _, _, ns, name⟩ ⟨hverb, rfl, ?_, ?_⟩)
    · rw [splitResource_whole hslash]
      exact hplural
    · rw [splitResource_whole hslash]

/-- Who may do something is a superuser, or some role has a rule for the verb. -/
theorem held_verb (h : Held reg user r) (hplain : user.isSuperuser = false) :
    ∃ e ∈ reg.objects, ∃ rule ∈ (policyRules e.2.value["rules"]).getD [],
      contains (some rule.verbs) r.verb = true := by
  rcases h with hsuper | ⟨_, _, kr, role, _, _, hrole, hrules⟩
  · rw [hplain] at hsuper
    cases hsuper
  · obtain ⟨rule, hmem, hrule⟩ := List.any_eq_true.mp hrules
    refine ⟨(kr, role), Registry.mem_objects.mpr hrole, rule, hmem, ?_⟩
    unfold ruleAllows at hrule
    rw [Bool.and_eq_true] at hrule
    exact hrule.1

theorem resource_rbac {target : Target} {v : String} {selection : Selection} {grant : Grant}
    (h : resource lib reg user target v selection = .ok grant) : ∃ b, rbac lib reg = .ok b := by
  obtain ⟨b, hb, _⟩ := Fallible.bind_eq_ok.mp h
  exact ⟨b, hb⟩

theorem serve_rbac {response : Response} (h : serve lib fresh user request reg = .ok response reg') :
    ∃ b, rbac lib reg = .ok b := by
  cases hparse : Target.parse request.path with
  | none =>
    unfold serve at h
    rw [hparse] at h
    exact absurd h throw_ok
  | some target =>
    rcases serve_cases hparse h with htoken | ⟨v, selection, grant, hgrant, _⟩
    · unfold serve at h
      simp only [hparse, if_pos htoken] at h
      unfold createToken at h
      split_ifs at h with hmethod hquery
      · exact absurd h throw_ok
      · exact absurd h throw_ok
      cases hns : target.ns with
      | none =>
        rw [hns] at h
        exact absurd h throw_ok
      | some ns =>
      cases haccount : target.name with
      | none =>
        rw [hns, haccount] at h
        exact absurd h throw_ok
      | some account =>
      rw [hns, haccount] at h
      obtain ⟨selection, _, h⟩ := ofExcept_bind_eq_ok.mp h
      obtain ⟨grant, hgrant, _⟩ := reading_bind_ok.mp h
      exact resource_rbac hgrant
    · exact resource_rbac hgrant

/-- Where nobody taking part may escalate or bind, a run gives nobody a permission that neither it
nor anybody taking part had at the start. -/
theorem permission_not_created {ls : List Event} {w w' : World} (hhomed : Homed w.registry)
    (hunlicensed : ∀ v ∈ requesters ls, ∀ q, Licence q → ¬ Permits lib w.registry v q)
    (hslash : '/' ∉ r.resource.toList) (hrun : AnyRun (step lib) w ls w')
    (h : Permits lib w'.registry user r) :
    ∃ v ∈ user :: requesters ls, Permits lib w.registry v r := by
  -- every permission of a state goes back to the start, and the kinds stay at home
  suffices hinvariant : Homed w'.registry ∧ ∀ user r, '/' ∉ r.resource.toList →
      Permits lib w'.registry user r → ∃ v ∈ user :: requesters ls, Permits lib w.registry v r from
    hinvariant.2 user r hslash h
  clear h hslash
  induction hrun with
  | nil => exact ⟨hhomed, fun user r _ h => ⟨user, List.mem_cons_self, h⟩⟩
  | @snoc ls t t' event hrun _ hstep ih =>
    rw [requesters_append] at hunlicensed ⊢
    obtain ⟨hhome, hback⟩ := ih fun v hv => hunlicensed v (List.mem_append_left _ hv)
    cases event with
    | tick =>
      cases hstep
      refine ⟨hhome, fun user r hslash h => ?_⟩
      obtain ⟨v, hv, hpermits⟩ := hback user r hslash h
      rw [requesters, requesters, List.append_nil]
      exact ⟨v, hv, hpermits⟩
    | request fresh writer request =>
      obtain ⟨response, hserve, _⟩ := step_request_ok hstep
      have hserved := serve_ok hserve
      obtain ⟨b, hb⟩ := serve_rbac hserve
      refine ⟨hhome.served hserved, fun user r hslash h => ?_⟩
      have hmem : ∀ {u v}, v ∈ u :: requesters ls → u ∈ [user, writer] →
          v ∈ user :: (requesters ls ++ [writer]) := by
        intro u v hv hu
        simp only [List.mem_cons, List.mem_append, List.not_mem_nil, or_false] at hv hu ⊢
        rcases hv with rfl | hv
        · rcases hu with rfl | rfl
          · exact .inl rfl
          · exact .inr (.inr rfl)
        · exact .inr (.inl hv)
      have hplain : Unlicensed b writer := by
        refine unlicensed hb fun q hq hpermits => ?_
        have hslash : '/' ∉ q.resource.toList := by
          have hall : ∀ plural ∈ ["roles", "clusterroles"], '/' ∉ plural.toList := by decide
          exact hall _ hq.resource
        obtain ⟨v, hv, hstart⟩ := hback writer q hslash hpermits
        refine hunlicensed v ?_ q hq hstart
        rcases List.mem_cons.mp hv with rfl | hv
        · exact List.mem_append_right _ List.mem_cons_self
        · exact List.mem_append_left _ hv
      rcases served_held hserved hhome hb hplain hslash (h.held (hhome.served hserved)) with
        hheld | hheld
      · obtain ⟨v, hv, hpermits⟩ := hback user r hslash (hheld.permits hb hhome)
        exact ⟨v, hmem hv (by simp), hpermits⟩
      · obtain ⟨v, hv, hpermits⟩ := hback writer r hslash (hheld.permits hb hhome)
        exact ⟨v, hmem hv (by simp), hpermits⟩

/-! ## A role and a binding -/

def rbacRole (kind : String) (rules : List Json) (name : String) : Json :=
  .ofPairs [("apiVersion", .string "rbac.authorization.k8s.io/v1"), ("kind", .string kind),
    ("metadata", .ofPairs [("name", .string name)]), ("rules", .array rules)]

def rbacBinding (kind : String) (ref : String × String) (user name : String) : Json :=
  .ofPairs [("apiVersion", .string "rbac.authorization.k8s.io/v1"), ("kind", .string kind),
    ("metadata", .ofPairs [("name", .string name)]),
    ("roleRef", .ofPairs [("apiGroup", .string "rbac.authorization.k8s.io"),
      ("kind", .string ref.1), ("name", .string ref.2)]),
    ("subjects", .array [.ofPairs [("kind", .string "User"),
      ("apiGroup", .string "rbac.authorization.k8s.io"), ("name", .string user)]])]

def rbacRule (groups resources verbs : List String) : Json :=
  .ofPairs [("apiGroups", .array (groups.map .string)), ("resources", .array (resources.map .string)),
    ("verbs", .array (verbs.map .string))]

/-- Ann may read Pods, and write roles and bindings. -/
def leadRegistry : Registry := .ofList [
  ("/registry/namespaces/team-a", .ofPairs [("metadata", .ofPairs [("name", .string "team-a")])]),
  ("/registry/clusterroles/lead", rbacRole "ClusterRole"
    [rbacRule [""] ["pods"] ["get"], rbacRule [rbacGroup] ["roles", "rolebindings"] ["create"]]
    "lead"),
  ("/registry/clusterrolebindings/leads",
    rbacBinding "ClusterRoleBinding" ("ClusterRole", "lead") "ann" "leads")]

def leadLibraries : Libraries := .plain [
  rbacRole "Role" [rbacRule [""] ["pods"] ["get"]] "view",
  rbacBinding "RoleBinding" ("Role", "view") "bob" "views"]

def ann : User := ⟨"ann", []⟩

def bob : User := ⟨"bob", []⟩

def postRbac (plural : String) (body : UInt8) : HttpRequest :=
  ⟨"POST", "/apis/rbac.authorization.k8s.io/v1/namespaces/team-a/" ++ plural, ⟨[], []⟩,
    ⟨"application/json", [body]⟩⟩

def leadRun : List Event :=
  [.request .plain ann (postRbac "roles" 0), .request .plain ann (postRbac "rolebindings" 1)]

def readPod : ResourceRequest := ⟨"get", "", "pods", none, some "team-a", some "web"⟩

theorem lead_homed : Homed leadRegistry := by
  have hnone : ∀ e ∈ leadRegistry.objects, ∀ plural ∈ ["roles", "rolebindings"],
      startsWith ("/registry/" ++ plural ++ "/") e.1 = false := by decide +kernel
  have hcluster : ∀ e ∈ leadRegistry.objects, startsWith "/registry/clusterroles/" e.1 = true →
      e.1.value = "/registry/clusterroles/" ++ "lead" ∧
        e.2.value["metadata"]["name"] = .string "lead" := by decide +kernel
  constructor
  · intro plural hplural k stored hfamily hget
    have hstarts := hnone (k, stored) (Registry.mem_objects.mpr hget) plural hplural
    rw [family_iff.mpr hfamily] at hstarts
    cases hstarts
  · intro k stored hfamily hget
    exact ⟨"lead", hcluster (k, stored) (Registry.mem_objects.mpr hget) (family_iff.mpr hfamily)⟩

theorem lead_unlicensed : ∀ v ∈ requesters leadRun, ∀ q, Licence q →
    ¬ Permits leadLibraries leadRegistry v q := by
  intro v hv q hq hpermits
  have hplain : ∀ v ∈ requesters leadRun, v.isSuperuser = false := by decide
  obtain ⟨e, he, rule, hrule, hverb⟩ := held_verb (hpermits.held lead_homed) (hplain v hv)
  have hall : ∀ verb ∈ ["escalate", "bind"], ∀ e ∈ leadRegistry.objects,
      ∀ rule ∈ (policyRules e.2.value["rules"]).getD [], contains (some rule.verbs) verb = false := by
    decide +kernel
  rw [hall _ hq.verb e he rule hrule] at hverb
  cases hverb

theorem bob_reads : (exec (step leadLibraries) ⟨leadRegistry, 0⟩ leadRun).map
    (fun w => (rbac leadLibraries w.registry).toOption.any (·.allows bob (.resource readPod))) =
      some true := by
  decide +kernel

theorem read_not_created : ∃ v ∈ [bob, ann, ann], Permits leadLibraries leadRegistry v readPod := by
  obtain ⟨w, hrun, hpermits⟩ := run_of_exec_map bob_reads
  obtain ⟨b, hb, hallows⟩ := (Option.any_eq_true _ _).mp hpermits
  exact permission_not_created lead_homed lead_unlicensed (by decide) hrun
    ⟨b, Fallible.toOption_eq_some.mp hb, hallows⟩

end Hedronetes.Server
