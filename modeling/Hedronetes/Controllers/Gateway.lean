import Hedronetes.Server.SelectorText

/-!
# The Ingress gateway

The routes that the gateway reads off the Ingresses, and the one it selects for a request.
-/

namespace Hedronetes.Controllers.Gateway

open Server (trim)

/-- A port of a Service by number or by name. -/
structure BackendPort where
  number : Option ℤ
  name : Option String

structure ServiceBackend where
  name : String
  port : Option BackendPort

/-- `IngressBackend`: a Service, or another resource. -/
structure Backend where
  service : Option ServiceBackend

structure HttpPath where
  path : Option String
  pathType : String
  backend : Backend

structure Rule where
  host : Option String
  http : Option (List HttpPath)

structure Spec where
  rules : Option (List Rule)
  defaultBackend : Option Backend

structure Ingress where
  ns : Option String
  spec : Option Spec

inductive PortRef
  | number (number : ℕ)
  | name (name : String)
  deriving DecidableEq

structure Route where
  host : String
  path : String
  ns : String
  service : String
  port : PortRef
  deriving DecidableEq

def backend (backend : Backend) : Option (String × PortRef) := do
  let service ← backend.service
  match service.port with
  | some ⟨some number, _⟩ =>
    if 0 ≤ number ∧ number < 2 ^ 16 then some (service.name, .number number.toNat) else none
  | some ⟨none, some name⟩ => some (service.name, .name name)
  | _ => none

/-- The path of a rule; an absent or empty one is the root. -/
def HttpPath.text (path : HttpPath) : String := (path.path.filter (· ≠ "")).getD "/"

def ruleRoutes (ns : String) (rule : Rule) : List Route :=
  match rule.http with
  | none => []
  | some paths => paths.filterMap fun path =>
    (backend path.backend).map fun (service, port) =>
      ⟨(rule.host.getD "").toLower, path.text, ns, service, port⟩

def ingressRoutes (ingress : Ingress) : List Route :=
  match ingress.spec with
  | none => []
  | some spec =>
    let ns := ingress.ns.getD ""
    (spec.rules.getD []).flatMap (ruleRoutes ns) ++
      match spec.defaultBackend.bind backend with
      | some (service, port) => [⟨"", "/", ns, service, port⟩]
      | none => []

/-- The table that `rebuild` leaves. -/
def routes (ingresses : List Ingress) : List Route := ingresses.flatMap ingressRoutes

/-- What `max_by_key` compares: a route of the host itself, then the bytes of its path. -/
def priority (host : String) (route : Route) : ℕ ×ₗ ℕ :=
  toLex (if route.host = host then 1 else 0, route.path.utf8ByteSize)

def admits (host path : String) (route : Route) : Bool :=
  (route.host = "" || route.host = host) && route.path.toList.isPrefixOf path.toList

/-- The last one of the greatest. -/
def select (table : List Route) (host path : String) : Option Route :=
  ((table.filter (admits host path)).reverse).argmax (priority host)

/-- The host that a request asks for, off its header. -/
def requestHost (value : String) : String :=
  String.ofList ((trim value.toList).map Char.toLower |>.takeWhile (· ≠ ':'))

/-! ## What the Ingresses say -/

/-- A path that an Ingress leads to a backend. -/
structure Entry where
  host : Option String
  path : String
  pathType : String
  ns : String
  backend : Backend

def Ingress.entries (ingress : Ingress) : List Entry :=
  match ingress.spec with
  | none => []
  | some spec =>
    let ns := ingress.ns.getD ""
    ((spec.rules.getD []).flatMap fun rule =>
      (rule.http.getD []).map fun path => ⟨rule.host, path.text, path.pathType, ns, path.backend⟩) ++
      spec.defaultBackend.toList.map fun backend => ⟨none, "/", "Prefix", ns, backend⟩

def entries (ingresses : List Ingress) : List Entry := ingresses.flatMap Ingress.entries

def Entry.route (entry : Entry) : Option Route :=
  (Gateway.backend entry.backend).map fun (service, port) =>
    ⟨(entry.host.getD "").toLower, entry.path, entry.ns, service, port⟩

/-- Its host is absent or the host of the request. -/
def Entry.OfHost (entry : Entry) (host : String) : Prop :=
  entry.host.getD "" = "" ∨ (entry.host.getD "").toLower = host

/-- The request is for its host, and for its path or something that begins with it. -/
def Entry.Serves (entry : Entry) (host path : String) : Prop :=
  entry.OfHost host ∧ entry.path.toList <+: path.toList

/-- The path of the request in the sense of Kubernetes. -/
def Entry.OfPath (entry : Entry) (path : String) : Prop :=
  match entry.pathType with
  | "Exact" => path = entry.path
  | "Prefix" =>
    let stem := if entry.path.toList.getLast? = some '/' then entry.path.toList.dropLast
      else entry.path.toList
    path.toList = stem ∨ stem ++ ['/'] <+: path.toList
  | _ => True

/-- A host before none, then the longer path. -/
def Route.rank (route : Route) : ℕ ×ₗ ℕ :=
  toLex (if route.host = "" then 0 else 1, route.path.utf8ByteSize)

section Select

variable {ingresses ingresses' : List Ingress} {table table' : List Route}
  {host path : String} {entry : Entry} {route other : Route}

theorem toLower_eq_empty {s : String} : s.toLower = "" ↔ s = "" := by
  unfold String.toLower
  rw [← String.toList_inj, ← String.toList_inj, String.toList_map]
  simp

theorem ingressRoutes_eq (ingress : Ingress) :
    ingressRoutes ingress = ingress.entries.filterMap Entry.route := by
  unfold ingressRoutes Ingress.entries
  cases ingress.spec with
  | none => rfl
  | some spec =>
    dsimp only
    rw [List.filterMap_append, List.filterMap_flatMap]
    congr 1
    · apply List.flatMap_congr
      intro rule _
      unfold ruleRoutes
      cases rule.http with
      | none => rfl
      | some paths =>
        rw [Option.getD_some, List.filterMap_map]
        rfl
    · cases hdefault : spec.defaultBackend with
      | none => rfl
      | some default =>
        rw [Option.bind_some, Option.toList_some, List.map_singleton]
        cases hbackend : backend default <;> simp [Entry.route, hbackend, toLower_eq_empty]

theorem routes_eq (ingresses : List Ingress) :
    routes ingresses = (entries ingresses).filterMap Entry.route := by
  unfold routes entries
  rw [List.filterMap_flatMap]
  exact List.flatMap_congr fun ingress _ => ingressRoutes_eq ingress

theorem mem_routes : route ∈ routes ingresses ↔
    ∃ entry ∈ entries ingresses, entry.route = some route := by
  rw [routes_eq, List.mem_filterMap]

/-- A route takes the requests that its entry serves. -/
theorem admits_iff (h : entry.route = some route) :
    admits host path route = true ↔ entry.Serves host path := by
  unfold Entry.route at h
  obtain ⟨⟨service, port⟩, -, rfl⟩ := Option.map_eq_some_iff.mp h
  simp [admits, Entry.Serves, Entry.OfHost, toLower_eq_empty]

theorem host_of_admits (h : admits host path route = true) :
    route.host = "" ∨ route.host = host := by
  simp only [admits, Bool.and_eq_true, Bool.or_eq_true, decide_eq_true_eq] at h
  exact h.1

theorem rank_eq_priority (hne : host ≠ "") (h : admits host path route = true) :
    route.rank = priority host route := by
  unfold Route.rank priority
  rcases host_of_admits h with hhost | hhost
  · rw [hhost, if_pos rfl, if_neg hne.symm]
  · rw [hhost, if_neg hne, if_pos rfl]

/-- Among the routes of one request, a host of their own sets the same ones apart for both. -/
theorem rank_le (hroute : admits host path route = true) (hother : admits host path other = true)
    (h : priority host other ≤ priority host route) : other.rank ≤ route.rank := by
  by_cases hne : host = ""
  · have hhosts : route.host = "" ∧ other.host = "" := by
      constructor
      · rcases host_of_admits hroute with hhost | hhost
        · exact hhost
        · exact hhost.trans hne
      · rcases host_of_admits hother with hhost | hhost
        · exact hhost
        · exact hhost.trans hne
    unfold priority at h
    unfold Route.rank
    rw [Prod.Lex.toLex_le_toLex] at h ⊢
    simpa [hhosts.1, hhosts.2, hne] using h
  · rw [rank_eq_priority hne hroute, rank_eq_priority hne hother]
    exact h

theorem select_eq_none : select table host path = none ↔
    ∀ route ∈ table, admits host path route = false := by
  simp [select, List.argmax_eq_none]

theorem select_mem (h : select table host path = some route) :
    route ∈ table ∧ admits host path route = true := by
  have hmem := List.argmax_mem h
  rw [List.mem_reverse] at hmem
  exact List.mem_filter.mp hmem

theorem le_select (h : select table host path = some route) (hmem : other ∈ table)
    (hother : admits host path other = true) : priority host other ≤ priority host route := by
  apply List.le_of_mem_argmax _ h
  rw [List.mem_reverse]
  exact List.mem_filter.mpr ⟨hmem, hother⟩

theorem select_of_admits (hmem : route ∈ table) (h : admits host path route = true) :
    ∃ best, select table host path = some best := by
  cases hselect : select table host path with
  | none =>
    rw [select_eq_none.mp hselect route hmem] at h
    cases h
  | some best => exact ⟨best, rfl⟩

theorem eq_of_isPrefix {s t : String} (h : s.toList <+: t.toList)
    (hsize : s.utf8ByteSize = t.utf8ByteSize) : s = t := by
  obtain ⟨rest, hrest⟩ := h
  have htext : t = s ++ String.ofList rest := by
    rw [← String.toList_inj, String.toList_append, String.toList_ofList, hrest]
  have hnone : (String.ofList rest).utf8ByteSize = 0 := by
    rw [htext, String.utf8ByteSize_append] at hsize
    omega
  rw [htext, String.utf8ByteSize_eq_zero_iff.mp hnone, String.append_empty]

/-- Two beginnings of one path are the same when they take the same bytes. -/
theorem path_eq (hroute : admits host path route = true) (hother : admits host path other = true)
    (hsize : other.path.utf8ByteSize = route.path.utf8ByteSize) : other.path = route.path := by
  simp only [admits, Bool.and_eq_true, List.isPrefixOf_iff_prefix] at hroute hother
  rcases List.prefix_or_prefix_of_prefix hother.2 hroute.2 with h | h
  · exact eq_of_isPrefix h hsize
  · exact (eq_of_isPrefix h hsize.symm).symm

theorem same_of_priority (hroute : admits host path route = true)
    (hother : admits host path other = true)
    (h : priority host other = priority host route) :
    other.host = route.host ∧ other.path = route.path := by
  unfold priority at h
  rw [toLex_inj, Prod.mk.injEq] at h
  constructor
  · rcases host_of_admits hroute with hr | hr <;> rcases host_of_admits hother with ho | ho <;>
      simp_all
  · exact path_eq hroute hother h.2

/-- The order of the table does not change which host and path a request goes to. -/
theorem select_perm (hperm : table.Perm table') (h : select table host path = some route) :
    ∃ route', select table' host path = some route' ∧ route'.host = route.host ∧
      route'.path = route.path := by
  obtain ⟨hmem, hadmits⟩ := select_mem h
  obtain ⟨route', h'⟩ := select_of_admits (hperm.mem_iff.mp hmem) hadmits
  obtain ⟨hmem', hadmits'⟩ := select_mem h'
  have hle := le_select h (hperm.mem_iff.mpr hmem') hadmits'
  have hge := le_select h' (hperm.mem_iff.mp hmem) hadmits
  exact ⟨route', h', same_of_priority hadmits hadmits' (le_antisymm hle hge)⟩

/-- A request goes to what serves it whenever anything does, to a rule of its host before a rule of
none and then to the longest path, in any order of the Ingresses. -/
theorem longest_path_selected (ingresses : List Ingress) (value path : String) :
    (∀ route, select (routes ingresses) (requestHost value) path = some route →
      (∃ entry ∈ entries ingresses, entry.route = some route ∧
        entry.Serves (requestHost value) path) ∧
      (∀ entry ∈ entries ingresses, ∀ other, entry.route = some other →
        entry.Serves (requestHost value) path → other.rank ≤ route.rank) ∧
      ∀ ingresses', ingresses.Perm ingresses' →
        ∃ route', select (routes ingresses') (requestHost value) path = some route' ∧
          route'.host = route.host ∧ route'.path = route.path) ∧
    ((∃ entry ∈ entries ingresses, (∃ route, entry.route = some route) ∧
        entry.Serves (requestHost value) path) →
      ∃ route, select (routes ingresses) (requestHost value) path = some route) := by
  constructor
  · intro route hselect
    obtain ⟨hmem, hadmits⟩ := select_mem hselect
    constructor
    · obtain ⟨entry, hentry, hroute⟩ := mem_routes.mp hmem
      exact ⟨entry, hentry, hroute, (admits_iff hroute).mp hadmits⟩
    constructor
    · intro entry hentry other hother hserves
      have hother' := (admits_iff hother).mpr hserves
      apply rank_le hadmits hother'
      exact le_select hselect (mem_routes.mpr ⟨entry, hentry, hother⟩) hother'
    · intro ingresses' hperm
      exact select_perm (hperm.flatMap_right _) hselect
  · rintro ⟨entry, hentry, ⟨route, hroute⟩, hserves⟩
    exact select_of_admits (mem_routes.mpr ⟨entry, hentry, hroute⟩) ((admits_iff hroute).mpr hserves)

end Select

def webBackend : Backend := ⟨some ⟨"web", some ⟨some 80, none⟩⟩⟩

/-- One rule for one path of a type. -/
def pathIngress (host : Option String) (path pathType : String) : Ingress :=
  ⟨some "default", some ⟨some [⟨host, some [⟨some path, pathType, webBackend⟩]⟩], none⟩⟩

/-- An exact path takes the requests for longer ones. -/
theorem exact_path_extended :
    ¬∀ (ingresses : List Ingress) (value path : String) (route : Route),
      select (routes ingresses) (requestHost value) path = some route →
        ∃ entry ∈ entries ingresses, entry.route = some route ∧
          entry.OfHost (requestHost value) ∧ entry.OfPath path := by
  intro h
  obtain ⟨entry, hentry, -, -, hpath⟩ := h [pathIngress (some "app.example") "/foo" "Exact"]
    "App.Example:8080" "/foobar" ⟨"app.example", "/foo", "default", "web", .number 80⟩
    (by decide +kernel)
  obtain rfl : entry = ⟨some "app.example", "/foo", "Exact", "default", webBackend⟩ := by
    simpa [entries, Ingress.entries, pathIngress, HttpPath.text, Option.filter] using hentry
  exact absurd (show "/foobar" = "/foo" from hpath) (by decide)

/-- A rule of the host goes before a longer one of no host, wherever it stands. -/
theorem own_host_selected :
    ∃ route', select (routes [pathIngress (some "App.example") "/" "Prefix",
        pathIngress none "/foo" "Prefix"]) (requestHost " app.example:80") "/foobar" =
      some route' ∧ route'.host = "app.example" ∧ route'.path = "/" :=
  ((longest_path_selected [pathIngress none "/foo" "Prefix",
    pathIngress (some "App.example") "/" "Prefix"] " app.example:80" "/foobar").1
    ⟨"app.example", "/", "default", "web", .number 80⟩ (by decide +kernel)).2.2 _
    (List.Perm.swap _ _ _)

end Hedronetes.Controllers.Gateway
