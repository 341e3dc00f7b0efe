import Hedronetes.Controllers.Workload
import Hedronetes.Server.Concurrent

/-!
# Controllers as clients of the server

A pass of a controller reads objects and lists and sends requests, each at its own moment, and
other clients' requests may be served in between. Owners are named by references in an object's
metadata; the one marked as controller decides who it belongs to.
-/

namespace Hedronetes.Controllers

open Server Apply Auth Interleaving

/-! ## What the controllers read of an object -/

/-- A required text. -/
def text (v : Json) (k : String) : Result String :=
  match v[k].asString.filter (· ≠ "") with
  | some s => .ok s
  | none => .error (.invalid "workload identity is incomplete")

/-- Namespace, name and uid. -/
def identity (v : Json) : Result (String × String × String) := do
  return (← text v["metadata"] "namespace", ← text v["metadata"] "name", ← text v["metadata"] "uid")

/-- Not marked for deletion and not finished. -/
def active (p : Json) : Bool :=
  p["metadata"]["deletionTimestamp"] = .null &&
    p["status"]["phase"].asString.all (· ∉ ["Succeeded", "Failed"])

def ownerReferences (v : Json) : List Json := v["metadata"]["ownerReferences"].items

def isController (owner : Json) : Bool := owner["controller"] = .bool true

/-- The owner that is marked as controller, if there is just one. -/
def controller (v : Json) : Option Json :=
  match (ownerReferences v).filter isController with
  | [owner] => some owner
  | _ => none

def owned (child parent : Json) : Bool :=
  (controller child).any (fun o => o["uid"] = parent["metadata"]["uid"] &&
    o["name"] = parent["metadata"]["name"] && o["kind"] = parent["kind"] &&
      o["apiVersion"] = parent["apiVersion"]) &&
    child["metadata"]["namespace"] = parent["metadata"]["namespace"]

/-- The reference that an object is given to its controller. -/
def owner (parent : Json) : Json :=
  .ofPairs [("apiVersion", parent["apiVersion"]), ("kind", parent["kind"]),
    ("name", parent["metadata"]["name"]), ("uid", parent["metadata"]["uid"]),
    ("controller", .bool true), ("blockOwnerDeletion", .bool true)]

/-- What an expression of a selector asks of the labels. -/
def expressionMatches (labels r : Json) : Bool :=
  match r["key"].asString.filter (· ≠ "") with
  | none => false
  | some key =>
    let present := (labels.field key).isSome
    let vals := r["values"].items
    match r["operator"].asString with
    | some "In" => vals ≠ [] && present && labels[key] ∈ vals
    | some "NotIn" => vals ≠ [] && (!present || labels[key] ∉ vals)
    | some "Exists" => vals = [] && present
    | some "DoesNotExist" => vals = [] && !present
    | _ => false

/-- An empty selector matches nothing. -/
def labelsMatch (selector labels : Json) : Bool :=
  let pairs := selector["matchLabels"].asObject.getD []
  let expressions := selector["matchExpressions"].items
  0 < pairs.length + expressions.length &&
    pairs.all (fun e => labels[e.1] = e.2) && expressions.all (expressionMatches labels)

theorem text_ok {v : Json} {k s : String} (h : text v k = .ok s) : v[k] = .string s ∧ s ≠ "" := by
  unfold text at h
  split at h
  · rename_i t hfilter
    cases h
    obtain ⟨hread, hne⟩ := Option.filter_eq_some_iff.mp hfilter
    exact ⟨Json.asString_eq_some.mp hread, of_decide_eq_true hne⟩
  · cases h

theorem identity_ok {v : Json} {ns name uid : String} (h : identity v = .ok (ns, name, uid)) :
    v["metadata"]["namespace"] = .string ns ∧ v["metadata"]["name"] = .string name ∧
      v["metadata"]["uid"] = .string uid := by
  obtain ⟨_, hns, h⟩ := Fallible.bind_eq_ok.mp h
  obtain ⟨_, hname, h⟩ := Fallible.bind_eq_ok.mp h
  obtain ⟨_, huid, h⟩ := Fallible.bind_eq_ok.mp h
  cases h
  exact ⟨(text_ok hns).1, (text_ok hname).1, (text_ok huid).1⟩

/-- Why a pass ends early. -/
inductive Halt where
  | api (stop : Stop)
  | work (error : Error)
  deriving DecidableEq

/-- A pass of a controller, or a part of one. -/
abbrev Work := Program Registry Purpose Call Reply Halt

/-- A controller's client: the user it acts as, and how it writes what it sends. What the server
decodes of that is the same value. -/
structure Client (lib : Libraries) where
  user : User
  bytes : Json → Bytes
  reads : ∀ value result, lib.decode (bytes value) "application/json" = .ok result → result = value

def Client.body {lib : Libraries} (client : Client lib) (value : Json) : Body :=
  ⟨"application/json", client.bytes value⟩

namespace Work

def ofResult {α : Type} (x : Result α) : Work α := .lift (x.mapError .work)

/-- What the server answers from the registry as it is now. -/
@[irreducible] def ask {α : Type} (f : Registry → Outcome α) : Work α :=
  .reading .object fun reg => (f reg).mapError .api

/-- `Api::get_opt`. -/
def find (resource : Resource) (ns name : String) : Work (Option Json) :=
  ask (getObject ((⟨resource, some ns, some name, none⟩ : Target).pathPrefix ++ name))

/-- A complete list of the objects below a path, or an error. -/
def list (path : String) : Work (List Json) :=
  ask (fun reg => (reg.list path).mapM fun e => object e.2) >>= fun items =>
    if LIMIT < items.length then
      .fail (.work (.invalid "workload controller requires complete bounded LIST"))
    else .done items

variable {lib : Libraries} (client : Client lib) (fresh : Fresh)

/-- A request and its answer. -/
@[irreducible] def send (target : Target) (verb : String) (value : Json) : Work (Except Stop Response) :=
  (Handler.execute lib fresh ⟨client.user, target, verb⟩ ⟨[], []⟩ (client.body value)).attempt

def deleteOptions (uid version : String) : Json :=
  .ofPairs [("propagationPolicy", .string "Background"), ("preconditions", .ofPairs
    [("uid", .string uid), ("resourceVersion", .string version)])]

/-- Deletes an object in the version that was read. An object that is gone or has changed is left
alone. -/
def delete (resource : Resource) (ns : String) (object : Json) : Work Bool := do
  let uid ← ofResult (text object["metadata"] "uid")
  let version ← ofResult (text object["metadata"] "resourceVersion")
  let name ← ofResult (text object["metadata"] "name")
  match ← send client fresh ⟨resource, some ns, some name, none⟩ "delete"
    (deleteOptions uid version) with
  | .ok _ => return true
  | .error (.failure 404 _ _) => return false
  | .error (.failure 409 _ _) => return false
  | .error stop => .fail (.api stop)

end Work

section

variable {lib : Libraries} {client : Client lib} {value result : Json}

theorem Client.body_contentType : (client.body value).contentType = "application/json" := rfl

theorem plain_options : applyOptions (client.body value).contentType ⟨[], []⟩ = .ok none := by
  have hmedia : mediaType "application/json" = "application/json" := by decide +kernel
  unfold applyOptions
  rw [Client.body_contentType, hmedia, if_neg (by decide), if_pos (by decide)]

theorem Client.decodes
    (h : lib.decode (client.body value).bytes (client.body value).contentType = .ok result) :
    result = value := client.reads value result h

end

/-! ## What a pass has read -/

section

variable {ι : Type} {C : Contract Registry Purpose Call ι} {r : ι} {seen seen' : List Observed}
  {s t : Registry} {k : Storage.StoreKey} {stored : Stored} {object : Json} {path : String}

/-- A version that was read, and the object that the reader got. -/
structure ReadAs (C : Contract Registry Purpose Call ι) (seen : List Observed) (s : Registry)
    (k : Storage.StoreKey) (stored : Stored) (object : Json) : Prop where
  past : ∃ reg, C.Past seen s .object reg ∧ reg.get k = some stored
  reads : Server.object stored = .ok object

theorem ReadAs.mono (h : ReadAs C seen s k stored object) (hseen : seen ⊆ seen')
    (hrely : C.rely s t) : ReadAs C seen' t k stored object := by
  obtain ⟨reg, hpast, hget⟩ := h.past
  exact ⟨⟨reg, hpast.mono hseen hrely, hget⟩, h.reads⟩

/-- A request with a body of its own, for what its calls keep to. -/
theorem meets_send {lib : Libraries} {client : Client lib} {fresh : Fresh} {target : Target}
    {verb : String} {value : Json} (hplain : target.subresource = none)
    (hdelete : verb = "delete" → ∀ seen' t reg k stored obj c,
      Deletes (C.after seen s) ⟨client.user, target, verb⟩ value seen' t reg k stored obj →
      DeleteCall fresh ⟨client.user, target, verb⟩ k stored obj c →
        (C.after seen s).Permits Call.perform r seen' t c)
    (hfinish : verb ≠ "delete" → ∀ seen' t p,
      Proposed (C.after seen s) lib fresh ⟨client.user, target, verb⟩ ⟨[], []⟩
        (client.body value) seen' t p →
        Meets Call.perform (C.after seen s) r (fun _ _ _ => True)
          (Handler.finish lib fresh ⟨client.user, target, verb⟩ p.key p.value p.old p.ns) seen' t) :
    Meets Call.perform C r (fun _ _ _ => True) (Work.send client fresh target verb value)
      seen s := by
  have hexecute : Meets Call.perform (C.after seen s) r (fun _ _ _ => True)
      (Handler.execute lib fresh ⟨client.user, target, verb⟩ ⟨[], []⟩ (client.body value))
      seen s := by
    apply meets_execute
    · intro hbinding
      rw [hplain] at hbinding
      cases hbinding
    · intro _ hverb options seen' t reg k stored obj c hoptions hdeletes
      rw [client.decodes hoptions] at hdeletes
      exact hdelete hverb seen' t reg k stored obj c hdeletes
    · exact fun _ hverb seen' t p _ => hfinish hverb seen' t p
  unfold Work.send
  exact (Meets.attempt (hexecute.of_after (List.Subset.refl _) (C.refl s))).weaken
    fun _ _ _ _ _ => trivial

theorem meets_ask {α : Type} {f : Registry → Outcome α} :
    Meets Call.perform C r (fun a seen' u => ∃ reg, C.Past seen' u .object reg ∧ C.rely s reg ∧
      f reg = .ok a) (Work.ask f) seen s := by
  unfold Work.ask
  intro reg hreg hrely
  apply Meets.lift
  intro a u ha _ hlater
  exact ⟨reg, ⟨by simp, hreg, hlater⟩, hrely, Fallible.mapError_eq_ok.mp ha⟩

theorem meets_list : Meets Call.perform C r
    (fun objects seen s => ∀ object ∈ objects, ∃ k stored, ReadAs C seen s k stored object)
    (Work.list path) seen s := by
  refine Meets.bind meets_ask ?_
  rintro objects seen t ht _ _ ⟨reg, hpast, _, hobjects⟩
  split_ifs
  · trivial
  · intro u _ hlater object hobject
    obtain ⟨⟨k, stored⟩, hlisted, hreads⟩ := Fallible.mapM_mem hobjects hobject
    exact ⟨k, stored, ⟨reg, hpast.mono (List.Subset.refl _) hlater,
      (Registry.mem_list.mp hlisted).1⟩, hreads⟩

end

/-! ## For the examples -/

/-- A server that reads one value only. -/
def readsOne (value : Json) : Libraries :=
  { Libraries.plain [] with
    decode := fun bytes _ => if bytes = [] then .ok value else .error (bad "unreadable body") }

/-- A client whose one readable value is this. -/
def writesOne (user : String) (value : Json) : Client (readsOne value) where
  user := ⟨user, []⟩
  bytes v := if v = value then [] else [0]
  reads v result h := by
    by_cases hv : v = value
    · simp only [readsOne, hv, if_true, Except.ok.injEq] at h
      rw [← h, hv]
    · simp [readsOne, hv] at h

/-- A server that reads these values only. -/
def readsAll (values : List Json) : Libraries :=
  { Libraries.plain [] with
    decode := fun bytes _ =>
      match bytes with
      | [b] => (values[b.toNat]?).elim (.error (bad "unreadable body")) .ok
      | _ => .error (bad "unreadable body") }

/-- A client that writes each of the values as its place among them. -/
def writesAll (user : String) (values : List Json) : Client (readsAll values) where
  user := ⟨user, []⟩
  bytes v := if v ∈ values ∧ values.idxOf v < 256 then [UInt8.ofNat (values.idxOf v)] else []
  reads v result h := by
    split_ifs at h with hv
    · have hplace : (UInt8.ofNat (values.idxOf v)).toNat = values.idxOf v := by
        rw [UInt8.toNat_ofNat']
        exact Nat.mod_eq_of_lt hv.2
      simp only [readsAll, hplace, List.getElem?_idxOf hv.1, Option.elim_some,
        Except.ok.injEq] at h
      exact h.symm
    · cases h

end Hedronetes.Controllers
