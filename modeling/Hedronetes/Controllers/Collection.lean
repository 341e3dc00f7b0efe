import Hedronetes.Controllers.ReplicaSet
import Hedronetes.Server.Identity
import Hedronetes.Server.Updates

/-!
# Garbage collection

A collector lists objects, looks for the owner of each one and deletes the object if the owner is
gone. It names the uid and the version that it listed, so that the server deletes that version or
nothing. While that version stays, the uid it names stays taken: no object is created with it.
-/

namespace Hedronetes.Controllers

open Server Apply Auth Interleaving Runs
open Storage (StoreKey)

def services : Resource := ⟨"", "v1", "services", "Service", true⟩

def endpointSlices : Resource :=
  ⟨"discovery.k8s.io", "v1", "endpointslices", "EndpointSlice", true⟩

def MANAGER : String := "hedronetes.io/endpointslice-controller"

def MANAGED_BY : String := "endpointslice.kubernetes.io/managed-by"

def managed (slice : Json) : Bool :=
  slice["metadata"]["labels"][MANAGED_BY] = .string MANAGER

/-! ## The collectors -/

/-- Goes through a list and counts what it deletes. -/
def sweep (one : Json → Work Bool) : List Json → Work ℕ
  | [] => return 0
  | object :: rest => do
    let removed ← one object
    let others ← sweep one rest
    return (if removed then 1 else 0) + others

section

variable {lib : Libraries} (client : Client lib) (fresh : Json → Fresh)

def gcObject (resource parent : Resource) (object : Json) : Work Bool :=
  -- additional owner references require a general graph; preserve them
  if (ownerReferences object).length ≠ 1 then return false
  else
    match (controller object).filter fun o =>
      o["apiVersion"] = .string "apps/v1" ∧ o["kind"] = .string parent.kind with
    | none => return false
    | some owner => do
      let (ns, _, _) ← Work.ofResult (identity object)
      let name ← Work.ofResult (text owner "name")
      let uid ← Work.ofResult (text owner "uid")
      let found ← Work.find parent ns name
      if found.any fun p => p["metadata"]["uid"] = .string uid then return false
      else Work.delete client (fresh object) resource ns object

/-- ReplicaSets of Deployments and Pods of ReplicaSets. -/
def gcOnce : Work ℕ := do
  let sets ← Work.list "/registry/replicasets/"
  let listed ← Work.list "/registry/pods/"
  let fromSets ← sweep (gcObject client fresh replicaSets deployments) sets
  let fromPods ← sweep (gcObject client fresh pods replicaSets) listed
  return fromSets + fromPods

def gcSlice (slice : Json) : Work Bool :=
  if !managed slice ∨ (ownerReferences slice).length ≠ 1 then return false
  else
    match controller slice with
    | none => return false
    | some reference =>
      if reference["kind"] ≠ .string "Service" ∨ reference["apiVersion"] ≠ .string "v1" then
        return false
      else do
        let (ns, _, _) ← Work.ofResult (identity slice)
        let name ← Work.ofResult (text reference "name")
        let service ← Work.find services ns name
        if service.any fun s => s["metadata"]["uid"].asString = reference["uid"].asString then
          return false
        else Work.delete client (fresh slice) endpointSlices ns slice

/-- EndpointSlices of Services. -/
def endpointGcOnce : Work ℕ := do
  let slices ← Work.list "/registry/endpointslices/"
  sweep (gcSlice client fresh) slices

end

/-- A request of any client, or a pass of a collector. -/
inductive Party (lib : Libraries) where
  | request (q : Submitted)
  | workloads (client : Client lib) (fresh : Json → Fresh)
  | slices (client : Client lib) (fresh : Json → Fresh)

def Party.isCollector {lib : Libraries} : Party lib → Bool
  | request _ => false
  | _ => true

def Party.program {lib : Libraries} : Party lib → Work Unit
  | request q => do
    let _ ← (q.handler lib).attempt
    return ()
  | workloads client fresh => do
    let _ ← gcOnce client fresh
    return ()
  | slices client fresh => do
    let _ ← endpointGcOnce client fresh
    return ()

/-- An owner reference of the object names the uid. -/
def Mentions (value : Json) (uid : String) : Prop :=
  ∃ owner ∈ ownerReferences value, owner["uid"] = .string uid

/-- The owner that a reference of an object names is there: its kind, namespace, name and uid. -/
inductive OwnerExists (reg : Registry) (value owner : Json) : Prop
  | intro {resource : Resource} {ns name uid : String} {k : StoreKey} {o : Stored} :
      resource ∈ resources → owner["apiVersion"] = .string resource.apiVersion →
      owner["kind"] = .string resource.kind → value["metadata"]["namespace"] = .string ns →
      owner["name"] = .string name → owner["uid"] = .string uid →
      k.value = (⟨resource, some ns, some name, none⟩ : Target).pathPrefix ++ name →
      reg.get k = some o → HasUid o.value uid → OwnerExists reg value owner

/-- No owner reference in the registry names the uid. -/
def Unmentioned (reg : Registry) (uid : String) : Prop :=
  ∀ k o, reg.get k = some o → ¬ Mentions o.value uid

/-- The kinds of owners that are looked for. -/
def OwnerKey (k : StoreKey) : Prop :=
  ∃ plural ∈ ["deployments", "replicasets", "services"], Family plural k

/-- While an object that names a uid stays as it was, no owner gets this uid. -/
def OwnersLast (s t : Registry) : Prop :=
  ∀ k o, t.get k = some o → o.revision ≤ s.revision → ∀ uid, Mentions o.value uid →
    ∀ k' o', OwnerKey k' → t.get k' = some o' → HasUid o'.value uid →
      ∃ old, s.get k' = some old ∧ HasUid old.value uid

theorem OwnersLast.trans {s t u : Registry} (h : OwnersLast s t) (h' : OwnersLast t u)
    (hst : Later s t) (htu : Later t u) : OwnersLast s u := by
  intro k o hget hle uid hmention k' o' hk' hget' huid
  have hle' : o.revision ≤ t.revision := by
    have := hst.revision
    omega
  obtain ⟨old, hold, holdUid⟩ := h' k o hget hle' uid hmention k' o' hk' hget' huid
  exact h k o (htu.kept k o hget hle') hle uid hmention k' old hk' hold holdUid

theorem not_ownerKey_side {k : StoreKey}
    (h : Family "persistentvolumes" k ∨ Family "h3s-node-cidrs" k) : ¬ OwnerKey k := by
  have hapart : ∀ a ∈ ["persistentvolumes", "h3s-node-cidrs"],
      ∀ b ∈ ["deployments", "replicasets", "services"],
        '/' ∉ a.toList ∧ '/' ∉ b.toList ∧ a ≠ b := by decide +kernel
  rintro ⟨plural, hmem, hfamily⟩
  rcases h with h | h
  · obtain ⟨ha, hb, hne⟩ := hapart "persistentvolumes" (by simp) plural hmem
    exact hne (Family.unique ha hb h hfamily)
  · obtain ⟨ha, hb, hne⟩ := hapart "h3s-node-cidrs" (by simp) plural hmem
    exact hne (Family.unique ha hb h hfamily)

/-- A call that keeps the uids, and creates no object whose uid is named already, keeps to it. -/
theorem ownersLast_of_keepsUid {fresh : Fresh} {s : Registry} {c : Call} (h : KeepsUid fresh s c)
    (hnew : ∀ k value, c = .create k value → Unmentioned s fresh.uid) :
    OwnersLast s (c.perform s).2 := by
  intro k o hget hle uid hmention k' o' hk' hget' huid
  have hold : s.get k = some o := (c.perform_later s).kept k o hget hle
  by_cases hkey : k' = c.key
  · subst hkey
    cases h with
    | side hside => exact absurd hk' (not_ownerKey_side hside)
    | @created k₁ value hfresh =>
      rcases Call.perform_get hget' with hsame | ⟨_, hbrings⟩
      · exact ⟨o', hsame, huid⟩
      · obtain rfl := Option.some.inj hbrings
        rw [hfresh uid huid] at hmention
        exact absurd hmention (hnew _ _ rfl k o hold)
    | @updated k₁ value rv hkept =>
      have hperformed := (Call.update k₁ value rv).performed s
      cases hp : (Call.update k₁ value rv).perform s with
      | mk reply after =>
        rw [hp] at hperformed hget'
        cases hperformed with
        | refused => exact ⟨o', hget', huid⟩
        | updated hcurrent =>
          simp only [Call.key, Registry.get_put, Option.some.injEq] at hget'
          rw [← hget'] at huid
          exact ⟨_, hcurrent, hkept _ hcurrent rfl uid huid⟩
    | @deleted k₁ rv =>
      rcases Call.perform_get hget' with hsame | ⟨_, hbrings⟩
      · exact ⟨o', hsame, huid⟩
      · cases hbrings
  · exact ⟨o', (c.perform_same s k' hkey) ▸ hget', huid⟩

/-! ## What a collector has read -/

/-- What a collector deletes: the version it listed, whose one owner reference is a controller's
and names an owner that is gone. -/
structure Collected (seen : List Observed) (s : Registry) (k : StoreKey) (o : Stored) : Prop where
  listed : ∃ reg, .read .object reg ∈ seen ∧ reg.get k = some o
  orphan : ∃ owner, ownerReferences o.value = [owner] ∧ isController owner = true ∧
    ¬ OwnerExists s o.value owner

def collection (lib : Libraries) : Contract Registry Purpose Call (Party lib) where
  inv := Numbered
  rely s t := Later s t ∧ OwnersLast s t
  guard p _ s c :=
    match p, c with
    | .request q, .create _ _ => Unmentioned s q.fresh.uid
    | _, _ => True
  ensures p seen s c := p.isCollector = true →
    ∃ k rv, c = .delete k rv ∧ ∀ o, s.get k = some o → o.revision = rv → Collected seen s k o
  refl s := ⟨.refl s, fun _ _ _ _ _ _ _ o _ hget huid => ⟨o, hget, huid⟩⟩
  trans h h' := ⟨h.1.trans h'.1, h.2.trans h'.2 h.1 h'.1⟩

section

variable {lib : Libraries} {client : Client lib} {fresh : Fresh} {r : Party lib}
  {seen seen' : List Observed} {s t reg : Registry} {object owner : Json} {k : StoreKey}
  {stored : Stored} {ns name uid path : String} {resource parent : Resource}

theorem ReadAs.revision_le (h : ReadAs (collection lib) seen s k stored object) :
    stored.revision ≤ s.revision := by
  obtain ⟨reg, hpast, hget⟩ := h.past
  have hdated := hpast.inv.dated k stored hget
  have hlater := hpast.since.1.revision
  omega

/-! ## What a collector deletes -/

theorem deleteOptions_version (uid version : String) :
    (Work.deleteOptions uid version)["preconditions"]["resourceVersion"] = .string version := by
  simp [Work.deleteOptions, Json.getElem_ofPairs]

theorem delete_ownersLast {c : Call} {rv : ℕ} (hc : c = .delete k rv) :
    OwnersLast s (c.perform s).2 := by
  subst hc
  exact ownersLast_of_keepsUid (@KeepsUid.deleted .plain s k rv) fun _ _ h => by cases h

/-- The request names the version that was read, so it deletes that one. -/
theorem meets_delete (hkind : resource.kind ≠ "Namespace")
    (hread : ReadAs (collection lib) seen s k stored object)
    (horphan : ∀ t, (collection lib).rely s t → t.get k = some stored →
      ∃ owner, ownerReferences stored.value = [owner] ∧ isController owner = true ∧
        ¬ OwnerExists t stored.value owner) :
    Meets Call.perform (collection lib) r (fun _ _ _ => True)
      (Work.delete client fresh resource ns object) seen s := by
  apply Meets.lift_bind
  intro uid _
  apply Meets.lift_bind
  intro version hversion
  apply Meets.lift_bind
  intro name _
  have hlisted : version = toString stored.revision := by
    have htext := (text_ok (Fallible.mapError_eq_ok.mp hversion)).1
    rw [object_revision hread.reads] at htext
    exact (Json.string.inj htext).symm
  apply Meets.bind (P := fun _ _ _ => True)
  · apply meets_send rfl
    · rintro _ seen' t reg k' stored' obj c hdeletes hcall ⟨hinv, hlater⟩ ⟨_, hsub⟩
      have hsame : stored.revision = stored'.revision := by
        have hnamed := hdeletes.preconditions "resourceVersion" (by simp)
        rw [deleteOptions_version, object_revision hdeletes.reads, hlisted] at hnamed
        exact revision_inj (by simpa [Json.asString] using hnamed)
      cases hcall with
      | marked hnamespace => exact absurd hnamespace hkind
      | removed _ =>
        have hstep : (collection lib).rely t ((Call.delete k' stored'.revision).perform t).2 :=
          ⟨Call.perform_later _ t, delete_ownersLast rfl⟩
        refine ⟨fun _ => ⟨k', stored'.revision, rfl, ?_⟩,
          ⟨Call.perform_numbered _ hinv, (collection lib).trans hlater hstep⟩, hstep⟩
        intro current hcurrent hrevision
        -- only the listed version has its revision
        obtain ⟨reg₀, hpast, hget⟩ := (hread.mono hsub hlater).past
        obtain ⟨rfl, rfl⟩ := hpast.inv.version hpast.since.1 hget hcurrent
          (hrevision.trans hsame.symm)
        exact ⟨⟨reg₀, hpast.seen, hget⟩, horphan t hlater hcurrent⟩
    · exact fun hverb => absurd rfl hverb
  · intro answer seen' t _ _ _ _
    split <;> first | trivial | exact .pure fun _ _ _ => trivial

variable {draws : Json → Fresh}

end

end Hedronetes.Controllers
