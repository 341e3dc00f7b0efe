import Hedronetes.Server.Applied
import Hedronetes.Server.Metadata
import Hedronetes.Server.Requests

/-!
# What an accepted write commits

Every write but a deletion and a binding makes a proposal from the request and
the registry: the prepared object, its key and what was stored there. Admission
may complete the object and writes beside it only a volume or the address ledger;
the commit replaces the version the proposal was made from.
-/

namespace Hedronetes.Server

open FirstMatch Apply Auth Effects
open Storage (StoreKey startsWith)

/-- What a write brings to its admission. -/
structure Proposal where
  value : Json
  key : StoreKey
  /-- The stored revision and object that the write replaces. -/
  old : Option (ℕ × Json)
  /-- The enclosing Namespace object of a namespaced write. -/
  ns : Option Json

section

variable (lib : Libraries) (fresh : Fresh)

/-- A create, an update or a patch. -/
def proposeWrite (write : Write) (body : Body) (reg : Registry) : Outcome Proposal := do
  let decoded ← decode lib fresh write body reg
  let (value, old) ← concurrency fresh write decoded.key decoded.value reg
  let value ← prepareWrite lib write value (old.map Prod.snd)
  return ⟨value, decoded.key, old, decoded.ns⟩

/-- The object stored at a key, with its revision. -/
def storedAt (k : StoreKey) (reg : Registry) : Outcome (Option (ℕ × Json)) :=
  match reg.get k with
  | some stored => do return some (stored.revision, ← object stored)
  | none => .ok none

/-- A server-side apply. -/
def proposeApply (write : Write) (body : Body) (options : Options) (reg : Registry) :
    Outcome Proposal := do
  let value ← lib.decode body.bytes "application/json"
  let decoded ← normalized lib fresh write value reg
  let old ← storedAt decoded.key reg
  let value ← applied lib fresh decoded.value (old.map Prod.snd) options
  let value ← prepareWrite lib write value (old.map Prod.snd)
  return ⟨value, decoded.key, old, decoded.ns⟩

def propose (write : Write) (query : Query) (body : Body) (reg : Registry) : Outcome Proposal := do
  match ← applyOptions body.contentType query with
  | some options =>
    if write.target.subresource.isSome then
      throw (bad "server-side apply writes the whole object, not a subresource")
    else proposeApply lib fresh write body options reg
  | none => proposeWrite lib fresh write body reg

/-- Admission and commit of a proposal. -/
def commit (write : Write) (p : Proposal) : Action Response := do
  let value ← admitWrite lib fresh write p.key p.value (p.old.map Prod.snd) p.ns
  persist write p.key value (p.old.map Prod.fst)

end

variable {lib : Libraries} {fresh : Fresh} {write : Write} {query : Query} {body : Body}
  {reg reg' : Registry} {response : Response} {p : Proposal} {k : StoreKey} {value result : Json}
  {old ns : Option Json}

theorem throw_ok {α : Type} {e : Stop} {reg reg' : Registry} {a : α} :
    ¬ (throw e : Action α) reg = .ok a reg' := throw_ne_ok

/-! ## The pipeline as a proposal and its commit -/

theorem applyWrite_ok {options : Options}
    (h : applyWrite lib fresh write body options reg = .ok response reg') :
    write.target.subresource.isSome = false ∧ ∃ p, proposeApply lib fresh write body options reg =
      .ok p ∧ commit lib fresh write p reg = .ok response reg' := by
  unfold applyWrite at h
  split_ifs at h with hsub
  · obtain ⟨_, _, hthrow, _⟩ := bind_eq_ok.mp h
    exact absurd hthrow throw_ok
  refine ⟨Bool.not_eq_true _ ▸ hsub, ?_⟩
  obtain ⟨value, hvalue, hread⟩ := ofExcept_bind_eq_ok.mp h
  obtain ⟨decoded, hdecoded, hread⟩ := reading_bind_ok.mp hread
  obtain ⟨now, after, hnow, hgo⟩ := bind_eq_ok.mp hread
  obtain ⟨hsame, hunchanged⟩ := get_eq_ok.mp hnow
  rw [hsame, hunchanged] at hgo
  -- what is stored under the name, as an object
  have hold : ∃ old, storedAt decoded.key reg = .ok old ∧
      (do
        let value ← applied lib fresh decoded.value (old.map Prod.snd) options
        let value ← prepareWrite lib write value (old.map Prod.snd)
        let value ← admitWrite lib fresh write decoded.key value (old.map Prod.snd) decoded.ns
        persist write decoded.key value (old.map Prod.fst) : Action Response) reg =
          .ok response reg' := by
    unfold storedAt
    cases hget : reg.get decoded.key with
    | none =>
      simp only [hget] at hgo
      exact ⟨none, rfl, hgo⟩
    | some stored =>
      simp only [hget] at hgo
      obtain ⟨old, after, hmap, hrest⟩ := bind_eq_ok.mp hgo
      obtain ⟨current, hlift, hsome⟩ := map_eq_ok.mp hmap
      obtain ⟨hobject, hafter⟩ := ofExcept_eq_ok.mp hlift
      rw [← hsome, ← hafter] at hrest
      refine ⟨some (stored.revision, current), ?_, hrest⟩
      exact Fallible.bind_eq_ok.mpr ⟨current, hobject, rfl⟩
  obtain ⟨old, hold, hgo⟩ := hold
  obtain ⟨merged, hmerged, hgo⟩ := ofExcept_bind_eq_ok.mp hgo
  obtain ⟨prepared, hprepared, hgo⟩ := ofExcept_bind_eq_ok.mp hgo
  refine ⟨⟨prepared, decoded.key, old, decoded.ns⟩, ?_, hgo⟩
  exact Fallible.bind_eq_ok.mpr ⟨value, hvalue, Fallible.bind_eq_ok.mpr ⟨decoded, hdecoded,
    Fallible.bind_eq_ok.mpr ⟨old, hold, Fallible.bind_eq_ok.mpr ⟨merged, hmerged,
      Fallible.bind_eq_ok.mpr ⟨prepared, hprepared, rfl⟩⟩⟩⟩⟩

/-- A write that is no deletion and no binding commits a proposal. -/
theorem execute_write_ok (hbinding : write.target.subresource ≠ some "binding")
    (hdelete : write.verb ≠ "delete")
    (h : execute lib fresh write query body reg = .ok response reg') :
    ∃ p, propose lib fresh write query body reg = .ok p ∧
      commit lib fresh write p reg = .ok response reg' := by
  unfold execute at h
  split_ifs at h with hdry
  · exact absurd h throw_ok
  obtain ⟨options, hoptions, h⟩ := ofExcept_bind_eq_ok.mp h
  unfold propose
  cases options with
  | some options =>
    obtain ⟨hsub, p, hp, hcommit⟩ := applyWrite_ok h
    refine ⟨p, ?_, hcommit⟩
    rw [Fallible.bind_eq_ok]
    refine ⟨some options, hoptions, ?_⟩
    simp only [hsub, Bool.false_eq_true, if_false]
    exact hp
  | none =>
    obtain ⟨decoded, hdecoded, hgo⟩ := reading_bind_ok.mp h
    obtain ⟨⟨value, old⟩, hvalue, hgo⟩ := reading_bind_ok.mp hgo
    obtain ⟨prepared, hprepared, hgo⟩ := ofExcept_bind_eq_ok.mp hgo
    refine ⟨⟨prepared, decoded.key, old, decoded.ns⟩, ?_, hgo⟩
    rw [Fallible.bind_eq_ok]
    refine ⟨none, hoptions, ?_⟩
    exact Fallible.bind_eq_ok.mpr ⟨decoded, hdecoded, Fallible.bind_eq_ok.mpr ⟨(value, old),
      hvalue, Fallible.bind_eq_ok.mpr ⟨prepared, hprepared, rfl⟩⟩⟩

/-! ## The object of a proposal and its key -/

/-- The object lies at the key of its name, under the endpoint. -/
structure Placed (target : Target) (k : StoreKey) (value : Json) : Prop where
  name : ∃ name, value["metadata"]["name"] = .string name ∧
    target.resource.validName name = true ∧ target.name.all (· = name) = true ∧
      k.value = target.pathPrefix ++ name
  ns : ∀ ns, target.ns = some ns → value["metadata"]["namespace"] = .string ns

theorem Placed.keeps {target : Target} (h : Placed target k value) (hkeep : KeepsMeta value result) :
    Placed target k result := by
  obtain ⟨name, hname, hrest⟩ := h.name
  refine ⟨⟨name, (hkeep "name" (by decide)).trans hname, hrest⟩, fun ns hns => ?_⟩
  rw [hkeep "namespace" (by decide), h.ns ns hns]

/-- The Namespace object that a namespaced write reads, and what it demands of it. -/
def Enclosed (write : Write) (reg : Registry) (ns : Option Json) : Prop :=
  match write.target.ns with
  | none => ns = none
  | some name => ∃ k stored current, k.value = "/registry/namespaces/" ++ name ∧
      reg.get k = some stored ∧ object stored = .ok current ∧ ns = some current ∧
        (write.verb = "create" → terminating current = false)

theorem inNamespace_ok (h : inNamespace reg write value = .ok (result, ns)) :
    (∀ f, f ≠ "namespace" → result["metadata"][f] = value["metadata"][f]) ∧
      (∀ n, write.target.ns = some n → result["metadata"]["namespace"] = .string n) ∧
        Enclosed write reg ns := by
  unfold inNamespace at h
  unfold Enclosed
  cases hns : write.target.ns with
  | none =>
    simp only [hns] at h
    split_ifs at h with htext
    obtain ⟨removed, hremoved, hgo⟩ := Fallible.bind_eq_ok.mp h
    cases hgo
    refine ⟨fun f hf => ?_, fun n hn => by simp at hn, rfl⟩
    rw [getElem_removeAt hremoved, if_neg hf]
  | some name =>
    simp only [hns] at h
    split_ifs at h with htext
    obtain ⟨placed, hplaced, hgo⟩ := Fallible.bind_eq_ok.mp h
    obtain ⟨k, hk, hgo⟩ := Fallible.bind_eq_ok.mp hgo
    obtain ⟨stored, hstored, hgo⟩ := Fallible.bind_eq_ok.mp hgo
    obtain ⟨current, hcurrent, hgo⟩ := Fallible.bind_eq_ok.mp hgo
    obtain ⟨_, hlifecycle, hgo⟩ := Fallible.bind_eq_ok.mp hgo
    cases hgo
    refine ⟨fun f hf => getElem_setAt_ne (getElem_setAt_step hplaced) hf, ?_, k, stored, current,
      key_ok.mp hk, fetch_ok.mp hstored, hcurrent, rfl, ?_⟩
    · intro n hn
      cases hn
      exact getElem_setAt (getElem_setAt_step hplaced)
    · intro hcreate
      unfold lifecycle at hlifecycle
      split_ifs at hlifecycle with hterminating
      simpa [hcreate] using hterminating

theorem normalized_steps {decoded : Decoded}
    (h : normalized lib fresh write value reg = .ok decoded) :
    ∃ typed generated name, lib.normalize write.target.resource value = .ok typed ∧
      generateName fresh write.verb typed = .ok generated ∧
      generated["metadata"]["name"] = .string name ∧
      write.target.resource.validName name = true ∧
      write.target.name.all (· = name) = true ∧
      inNamespace reg write generated = .ok (decoded.value, decoded.ns) ∧
      decoded.key.value = write.target.pathPrefix ++ name := by
  unfold normalized at h
  dsimp only at h
  split_ifs at h with hkind
  · cases h
  obtain ⟨typed, htyped, hgo⟩ := Fallible.bind_eq_ok.mp h
  obtain ⟨generated, hgenerated, hgo⟩ := Fallible.bind_eq_ok.mp hgo
  cases hname : generated["metadata"]["name"].asString with
  | none =>
    rw [hname] at hgo
    cases hgo
  | some name =>
    rw [hname] at hgo
    obtain ⟨_, hpure, hgo⟩ := Fallible.bind_eq_ok.mp hgo
    cases hpure
    split_ifs at hgo with hvalid
    · cases hgo
    obtain ⟨⟨placed, ns⟩, hplaced, hgo⟩ := Fallible.bind_eq_ok.mp hgo
    obtain ⟨k, hk, hgo⟩ := Fallible.bind_eq_ok.mp hgo
    cases hgo
    rw [not_or] at hvalid
    refine ⟨typed, generated, name, htyped, hgenerated, Json.asString_eq_some.mp hname,
      by simpa using hvalid.1, ?_, hplaced, key_ok.mp hk⟩
    cases hn : write.target.name <;> simp_all

theorem normalized_ne {decoded : Decoded} {field : String} (hne : field ≠ "metadata")
    (h : normalized lib fresh write value reg = .ok decoded) :
    ∃ typed, lib.normalize write.target.resource value = .ok typed ∧
      decoded.value[field] = typed[field] := by
  obtain ⟨typed, generated, _, htyped, hgenerated, _, _, _, hplaced, _⟩ := normalized_steps h
  refine ⟨typed, htyped, ?_⟩
  have hsame : generated[field] = typed[field] := by
    unfold generateName at hgenerated
    split_ifs at hgenerated
    · split at hgenerated
      · exact getElem_setAt_ne hgenerated hne
      · rw [Except.ok.inj hgenerated]
    · rw [Except.ok.inj hgenerated]
  rw [← hsame]
  unfold inNamespace at hplaced
  split at hplaced
  · split_ifs at hplaced
    obtain ⟨placed, hset, hplaced⟩ := Fallible.bind_eq_ok.mp hplaced
    obtain ⟨_, _, hplaced⟩ := Fallible.bind_eq_ok.mp hplaced
    obtain ⟨_, _, hplaced⟩ := Fallible.bind_eq_ok.mp hplaced
    obtain ⟨_, _, hplaced⟩ := Fallible.bind_eq_ok.mp hplaced
    obtain ⟨_, _, hplaced⟩ := Fallible.bind_eq_ok.mp hplaced
    obtain rfl : placed = decoded.value := congrArg Prod.fst (Except.ok.inj hplaced)
    exact getElem_setAt_ne hset hne
  · split_ifs at hplaced
    obtain ⟨removed, hremoved, hplaced⟩ := Fallible.bind_eq_ok.mp hplaced
    obtain rfl : removed = decoded.value := congrArg Prod.fst (Except.ok.inj hplaced)
    exact getElem_removeAt_ne hremoved hne

theorem normalized_ok {decoded : Decoded}
    (h : normalized lib fresh write value reg = .ok decoded) :
    Placed write.target decoded.key decoded.value ∧ Enclosed write reg decoded.ns := by
  obtain ⟨_, _, name, _, _, hname, hvalid, hall, hplaced, hk⟩ := normalized_steps h
  obtain ⟨hmembers, hns, henclosed⟩ := inNamespace_ok hplaced
  refine ⟨⟨⟨name, ?_, hvalid, hall, hk⟩, hns⟩, henclosed⟩
  rw [hmembers "name" (by decide), hname]

theorem identify_keeps (h : identify fresh value = .ok result) : KeepsMeta value result := by
  obtain ⟨_, huid, h⟩ := Fallible.bind_eq_ok.mp h
  exact (KeepsMeta.setAt_member huid (by decide)).trans (.setAt_member h (by decide))

theorem expectedRevision_ok {kind : String} {stored : Stored} {rv : ℕ}
    (h : expectedRevision kind value stored = .ok rv) : rv = stored.revision := by
  unfold expectedRevision at h
  split at h
  · split at h
    · cases h
    · split_ifs at h with hsame
      cases h
      exact (not_not.mp hsame).symm
  · split_ifs at h
    exact (Except.ok.inj h).symm

/-- What an update or a patch found stored. -/
structure Replaces (write : Write) (reg : Registry) (k : StoreKey) (value result : Json)
    (rv : ℕ) (current : Json) : Prop where
  stored : ∃ stored, reg.get k = some stored ∧ object stored = .ok current ∧
    stored.revision = rv ∧ expectedRevision write.target.resource.kind value stored = .ok rv
  uid : result["metadata"]["uid"] = current["metadata"]["uid"]
  creationTimestamp :
    result["metadata"]["creationTimestamp"] = current["metadata"]["creationTimestamp"]

theorem concurrency_ok {found : Option (ℕ × Json)}
    (h : concurrency fresh write k value reg = .ok (result, found)) :
    KeepsMeta value result ∧
      ((write.verb ≠ "update" ∧ write.verb ≠ "patch" ∧ found = none ∧
          value["metadata"]["resourceVersion"].hasText = false ∧
            identify fresh value = .ok result) ∨
        (write.verb = "update" ∨ write.verb = "patch") ∧ ∃ rv current, found = some (rv, current) ∧
          Replaces write reg k value result rv current) := by
  unfold concurrency at h
  split_ifs at h with hverb hversion
  · obtain ⟨identified, hidentified, hgo⟩ := Fallible.bind_eq_ok.mp h
    cases hgo
    exact ⟨identify_keeps hidentified,
      Or.inl ⟨hverb.1, hverb.2, rfl, by simpa using hversion, hidentified⟩⟩
  · obtain ⟨stored, hstored, hgo⟩ := Fallible.bind_eq_ok.mp h
    obtain ⟨rv, hrv, hgo⟩ := Fallible.bind_eq_ok.mp hgo
    obtain ⟨current, hcurrent, hgo⟩ := Fallible.bind_eq_ok.mp hgo
    split_ifs at hgo with huid
    obtain ⟨withUid, hwithUid, hgo⟩ := Fallible.bind_eq_ok.mp hgo
    obtain ⟨withTime, hwithTime, hgo⟩ := Fallible.bind_eq_ok.mp hgo
    cases hgo
    have hreplaces : Replaces write reg k value result rv current := by
      refine ⟨⟨stored, fetch_ok.mp hstored, hcurrent, (expectedRevision_ok hrv).symm, hrv⟩, ?_,
        getElem_setAt (getElem_setAt_step hwithTime)⟩
      rw [getElem_setAt_ne (getElem_setAt_step hwithTime) (by decide)]
      exact getElem_setAt (getElem_setAt_step hwithUid)
    refine ⟨(KeepsMeta.setAt_member hwithUid (by decide)).trans
      (.setAt_member hwithTime (by decide)), Or.inr ⟨?_, rv, current, rfl, hreplaces⟩⟩
    by_cases hupdate : write.verb = "update"
    · exact Or.inl hupdate
    · exact Or.inr (not_not.mp fun hpatch => hverb ⟨hupdate, hpatch⟩)

/-! ## Admission -/

/-- The keys that admission may write beside the object's own. -/
def SideKey (k : StoreKey) : Prop :=
  (∃ name, k.value = "/registry/persistentvolumes/pvc-" ++ name) ∨ k.value = ledgerKey

theorem createVolume_within (name : String) (volume : Json) :
    Within (SameBut SideKey) (createVolume ("pvc-" ++ name) volume) := by
  intro reg
  unfold final createVolume
  cases hk : key ("/registry/persistentvolumes/" ++ ("pvc-" ++ name)) with
  | error e => exact SameBut.refl reg
  | ok k =>
    have hside : SideKey k := Or.inl ⟨name, by rw [key_ok.mp hk, ← String.append_assoc]; rfl⟩
    by_cases hsome : (reg.get k).isSome
    · simp only [hsome, if_true]
      exact SameBut.refl reg
    · simp only [hsome]
      exact SameBut.put hside reg volume

theorem bound_metadata {volume : Json} {name : String} (h : bound value volume name = .ok result) :
    result["metadata"] = value["metadata"] := by
  obtain ⟨named, hnamed, hstatus⟩ := Fallible.bind_eq_ok.mp h
  rw [getElem_setAt_ne hstatus (by decide), getElem_setAt_ne hnamed (by decide)]

/-- What becomes of a claim that is created. -/
inductive Claimed (rules : SpecRules) (fresh : Fresh) (reg : Registry) (value : Json) :
    Json → Registry → Prop
  /-- No volume is asked for, and this server provisions none. -/
  | pending : value["spec"]["volumeName"].asString.getD "" = "" →
      Claimed rules fresh reg value value reg
  /-- The claim is bound to the volume it names. -/
  | named {result volume : Json} {uid ns requested : String} :
      value["spec"]["volumeName"].asString.getD "" = requested → requested ≠ "" →
      value["metadata"]["namespace"] = .string ns → value["metadata"]["uid"].asString.getD "" = uid →
      getObject ("/registry/persistentvolumes/" ++ requested) reg = .ok (some volume) →
      ¬ (volume["spec"]["claimRef"] ≠ .null ∧ (volume["spec"]["claimRef"]["uid"] ≠ .string uid ∨
        volume["spec"]["claimRef"]["namespace"] ≠ .string ns)) →
      bound value volume requested = .ok result → Claimed rules fresh reg value result reg
  /-- A volume is provisioned, or kept where one of its name is. -/
  | provisioned {result storageClass : Json} {uid ns name : String} {storage : ℤ}
      {reg' : Registry} :
      value["spec"]["volumeName"].asString.getD "" = "" →
      value["metadata"]["namespace"] = .string ns → value["metadata"]["name"] = .string name →
      value["metadata"]["uid"].asString.getD "" = uid →
      createVolume ("pvc-" ++ uid) (provisioned fresh value storageClass ns name uid storage) reg =
        .ok () reg' →
      bound value (provisioned fresh value storageClass ns name uid storage) ("pvc-" ++ uid) =
        .ok result → Claimed rules fresh reg value result reg'

theorem requiredText_ok {message s : String} (h : requiredText value message = .ok s) :
    value = .string s := by
  unfold requiredText at h
  split at h
  · rename_i t hfilter
    cases h
    exact Json.asString_eq_some.mp (Option.filter_eq_some_iff.mp hfilter).1
  · cases h

theorem claimBind_ok {rules : SpecRules} (h : claimBind rules fresh value reg = .ok result reg') :
    Claimed rules fresh reg value result reg' := by
  unfold claimBind at h
  obtain ⟨ns, hns, h⟩ := ofExcept_bind_eq_ok.mp h
  obtain ⟨name, hname, h⟩ := ofExcept_bind_eq_ok.mp h
  have hnamespace := requiredText_ok hns
  have hclaim := requiredText_ok hname
  dsimp only at h
  split_ifs at h with hrequested
  · obtain ⟨hread, rfl⟩ := reading_ok.mp h
    unfold bindNamed at hread
    obtain ⟨found, hfound, hread⟩ := Fallible.bind_eq_ok.mp hread
    cases found with
    | none => cases hread
    | some volume =>
      dsimp only at hread
      split_ifs at hread with hclaimed
      exact .named rfl hrequested hnamespace rfl hfound hclaimed hread
  · obtain ⟨found, hfound, h⟩ := reading_bind_ok.mp h
    have hnone := not_not.mp hrequested
    cases found with
    | none =>
      obtain ⟨rfl, rfl⟩ := pure_eq_ok.mp h
      exact .pending hnone
    | some storageClass =>
      cases hquantity : value["spec"]["resources"]["requests"]["storage"].asString.bind
          rules.quantity with
      | none =>
        simp only [hquantity] at h
        exact absurd h throw_ok
      | some storage =>
        simp only [hquantity] at h
        obtain ⟨_, reg₁, hcreate, h⟩ := bind_eq_ok.mp h
        obtain ⟨hbound, rfl⟩ := ofExcept_eq_ok.mp h
        exact .provisioned hnone hnamespace hclaim rfl hcreate hbound

theorem Claimed.keeps {rules : SpecRules} (h : Claimed rules fresh reg value result reg') :
    result["metadata"] = value["metadata"] ∧ SameBut SideKey reg reg' := by
  cases h with
  | pending => exact ⟨rfl, SameBut.refl reg⟩
  | named _ _ _ _ _ _ hbound => exact ⟨bound_metadata hbound, SameBut.refl reg⟩
  | provisioned _ _ _ _ hcreate hbound =>
    exact ⟨bound_metadata hbound, (createVolume_within _ _).ok hcreate⟩

theorem serviceAccountStep_metadata
    (h : serviceAccountStep fresh write value reg = .ok result) :
    result["metadata"] = value["metadata"] := by
  unfold serviceAccountStep at h
  split_ifs at h with hpod
  · cases hns : write.target.ns with
    | none =>
      rw [hns] at h
      cases h
    | some ns =>
      rw [hns] at h
      exact serviceAccountAdmit_metadata h
  · rw [Except.ok.inj h]

/-- Only the creation of a claim writes to the registry here. -/
theorem kindStep_ensures : Ensures (fun reg result reg' => result["metadata"] = value["metadata"] ∧
    SameBut SideKey reg reg' ∧
      (write.target.resource.kind ≠ "PersistentVolumeClaim" → reg' = reg))
    (kindStep lib fresh write value old ns) := by
  have hkept : Ensures (fun reg result reg' => result["metadata"] = value["metadata"] ∧
      SameBut SideKey reg reg' ∧
        (write.target.resource.kind ≠ "PersistentVolumeClaim" → reg' = reg))
      (pure value : Action Json) := by
    intro reg result reg' h
    obtain ⟨rfl, rfl⟩ := pure_eq_ok.mp h
    exact ⟨rfl, SameBut.refl reg, fun _ => rfl⟩
  unfold kindStep
  split
  · exact hkept
  split
  · intro reg result reg' h
    obtain ⟨_, _, h⟩ := ofExcept_bind_eq_ok.mp h
    exact hkept reg result reg' h
  · cases ns with
    | none => exact fun _ _ _ h => absurd h throw_ok
    | some ns =>
      intro reg result reg' h
      obtain ⟨_, _, h⟩ := ofExcept_bind_eq_ok.mp h
      obtain ⟨_, _, h⟩ := ofExcept_bind_eq_ok.mp h
      exact hkept reg result reg' h
  · intro reg result reg' h
    obtain ⟨spec, _, h⟩ := reading_bind_ok.mp h
    obtain ⟨hset, rfl⟩ := ofExcept_eq_ok.mp h
    exact ⟨getElem_setAt_ne hset (by decide), SameBut.refl reg, fun _ => rfl⟩
  · rename_i hkind
    split
    · intro reg result reg' h
      obtain ⟨hmeta, hside⟩ := (claimBind_ok h).keeps
      exact ⟨hmeta, hside, fun hne => absurd hkind hne⟩
    · exact hkept
  · exact hkept

theorem cidrAdmit_within {reserve : Json → String → String → Outcome (Option Json)} :
    Within (SameBut SideKey) (cidrAdmit reserve value old) := by
  have hrefl : ∀ reg, SameBut SideKey reg reg := SameBut.refl
  have hpure : Within (SameBut SideKey) (pure () : Action Unit) := .pure hrefl ()
  unfold cidrAdmit
  refine .bind (R := SameBut SideKey) SameBut.trans (.ofExcept hrefl _) fun cidr => ?_
  cases cidr with
  | none => exact hpure
  | some cidr =>
    intro reg
    unfold final
    cases hk : key ledgerKey with
    | error e => exact hrefl reg
    | ok k =>
      have hside : SideKey k := Or.inr (key_ok.mp hk)
      apply Within.bind (R := SameBut SideKey) (x := reading _) SameBut.trans (reading_within _)
      intro saved
      refine .bind (R := SameBut SideKey) SameBut.trans (.ofExcept hrefl _) fun ledger => ?_
      cases ledger with
      | none => exact hpure
      | some ledger => exact .bind (R := SameBut SideKey) SameBut.trans (update_within hside) fun _ => hpure

theorem cidrStep_within : Within (SameBut SideKey) (cidrStep lib write k value old) := by
  have hrefl : ∀ reg, SameBut SideKey reg reg := SameBut.refl
  unfold cidrStep
  split_ifs
  · cases lib.reserve with
    | none => exact .pure hrefl ()
    | some reserve =>
      refine .bind (R := SameBut SideKey) SameBut.trans (.get hrefl) fun now => ?_
      split_ifs
      · exact .throw hrefl _
      · exact cidrAdmit_within
  · exact .pure hrefl ()

/-- What an admitted write went through. -/
theorem admit_ok (h : admitWrite lib fresh write k value old ns reg = .ok result reg') :
    ∃ completed reg₁, serviceAccountStep fresh write value reg = .ok completed ∧
      kindStep lib fresh write completed old ns reg = .ok result reg₁ ∧
      escalation lib reg₁ write.user write.target write.verb result = .ok () ∧
      nodesAdmit write.user write.target write.verb result old = .ok () ∧
      checkSize lib result = .ok () ∧ cidrStep lib write k result old reg₁ = .ok () reg' := by
  unfold admitWrite at h
  obtain ⟨completed, hcompleted, h⟩ := reading_bind_ok.mp h
  obtain ⟨value', reg₁, hkind, h⟩ := bind_eq_ok.mp h
  obtain ⟨_, hescalation, h⟩ := reading_bind_ok.mp h
  obtain ⟨_, hnodes, h⟩ := ofExcept_bind_eq_ok.mp h
  obtain ⟨_, hsize, h⟩ := ofExcept_bind_eq_ok.mp h
  obtain ⟨_, reg₂, hcidr, h⟩ := bind_eq_ok.mp h
  obtain ⟨rfl, rfl⟩ := pure_eq_ok.mp h
  exact ⟨completed, reg₁, hcompleted, hkind, hescalation, hnodes, hsize, hcidr⟩

theorem admit_keeps (h : admitWrite lib fresh write k value old ns reg = .ok result reg') :
    result["metadata"] = value["metadata"] ∧ SameBut SideKey reg reg' := by
  obtain ⟨completed, reg₁, hcompleted, hkind, _, _, _, hcidr⟩ := admit_ok h
  obtain ⟨hmeta, hside, _⟩ := kindStep_ensures reg result reg₁ hkind
  exact ⟨hmeta.trans (serviceAccountStep_metadata hcompleted),
    hside.trans (cidrStep_within.ok hcidr)⟩

/-- Most writes change nothing but their own object. -/
theorem admit_same (h : admitWrite lib fresh write k value old ns reg = .ok result reg')
    (hclaim : write.target.resource.kind ≠ "PersistentVolumeClaim")
    (hnode : write.target.resource.kind ≠ "Node") : reg' = reg := by
  obtain ⟨completed, reg₁, _, hkind, _, _, _, hcidr⟩ := admit_ok h
  obtain ⟨_, _, hsame⟩ := kindStep_ensures reg result reg₁ hkind
  unfold cidrStep at hcidr
  rw [if_neg hnode] at hcidr
  rw [← (pure_eq_ok.mp hcidr).2, hsame hclaim]

/-! ## The commit -/

/-- What a commit leaves: the object at its key, or nothing where a Namespace lost its last
finalizer. -/
inductive Committed (write : Write) (k : StoreKey) (value : Json) (reg : Registry) :
    Registry → Prop
  | written : Committed write k value reg (reg.put k value)
  | removed : write.target.resource.kind = "Namespace" → deletionRequested value = true →
      finalizersPending value = false → Committed write k value reg ((reg.put k value).drop k)

theorem object_ok {stored : Stored} (h : object stored = .ok value) : ∃ base,
    (if stored.value["metadata"]["namespace"] = .string "" then
      removeAt stored.value "metadata" "namespace" else pure stored.value) = Except.ok base ∧
        setAt base ["metadata", "resourceVersion"] (.string (toString stored.revision)) =
          .ok value := by
  unfold object at h
  by_cases hobject : (!stored.value["metadata"].isObject) = true
  · rw [if_pos hobject] at h
    cases h
  · rw [if_neg hobject] at h
    obtain ⟨base, hbase, hset⟩ := Fallible.ite_bind_eq_ok.mp h
    exact ⟨base, hbase, hset⟩

theorem object_metadata {stored : Stored} (h : object stored = .ok value) :
    ∀ f, f ≠ "resourceVersion" → f ≠ "namespace" →
      value["metadata"][f] = stored.value["metadata"][f] := by
  obtain ⟨base, hbase, hset⟩ := object_ok h
  intro f hversion hnamespace
  rw [getElem_setAt_ne (getElem_setAt_step hset) hversion]
  split_ifs at hbase with hns
  · rw [getElem_removeAt hbase, if_neg hnamespace]
  · rw [Except.ok.inj hbase]

theorem object_ne {stored : Stored} (h : object stored = .ok value) {f : String}
    (hf : f ≠ "metadata") : value[f] = stored.value[f] := by
  obtain ⟨base, hbase, hset⟩ := object_ok h
  rw [getElem_setAt_ne hset hf]
  split_ifs at hbase with hns
  · exact getElem_removeAt_ne hbase hf
  · rw [Except.ok.inj hbase]

theorem object_ns {stored : Stored} (h : object stored = .ok value) :
    value["metadata"]["namespace"] =
      if stored.value["metadata"]["namespace"] = .string "" then .null
      else stored.value["metadata"]["namespace"] := by
  obtain ⟨base, hbase, hset⟩ := object_ok h
  rw [getElem_setAt_ne (getElem_setAt_step hset) (by decide)]
  split_ifs at hbase ⊢ with hns
  · rw [getElem_removeAt hbase, if_pos rfl]
  · rw [Except.ok.inj hbase]

theorem object_revision {stored : Stored} (h : object stored = .ok value) :
    value["metadata"]["resourceVersion"] = .string (toString stored.revision) := by
  obtain ⟨base, _, hset⟩ := object_ok h
  exact getElem_setAt (getElem_setAt_step hset)

theorem deletionRequested_object {stored : Stored} (h : object stored = .ok value) :
    deletionRequested value = deletionRequested stored.value := by
  unfold deletionRequested
  rw [object_metadata h _ (by decide) (by decide)]

theorem finalizersPending_object {stored : Stored} (h : object stored = .ok value) :
    finalizersPending value = finalizersPending stored.value := by
  unfold finalizersPending
  rw [object_metadata h _ (by decide) (by decide)]

/-- A commit replaces the version it expects, or fills an empty key. -/
theorem persist_ok {expected : Option ℕ}
    (h : persist write k value expected reg = .ok response reg') :
    (reg.get k).map Stored.revision = expected ∧ Committed write k value reg reg' := by
  unfold persist at h
  cases expected with
  | none =>
    obtain ⟨stored, reg₁, hcreate, h⟩ := bind_eq_ok.mp h
    obtain ⟨hnone, _, rfl⟩ := create_ok.mp hcreate
    obtain ⟨_, _, h⟩ := ofExcept_bind_eq_ok.mp h
    obtain ⟨_, rfl⟩ := pure_eq_ok.mp h
    exact ⟨by rw [hnone]; rfl, .written⟩
  | some rv =>
    obtain ⟨stored, reg₁, hupdate, h⟩ := bind_eq_ok.mp h
    obtain ⟨⟨current, hcurrent, hrv⟩, rfl, rfl⟩ := update_ok.mp hupdate
    refine ⟨by rw [hcurrent, Option.map_some, hrv], ?_⟩
    dsimp only at h
    split_ifs at h with hnamespace
    · obtain ⟨obj, hobj, h⟩ := ofExcept_bind_eq_ok.mp h
      split_ifs at h with hremove
      · obtain ⟨_, reg₂, hdelete, h⟩ := bind_eq_ok.mp h
        obtain ⟨_, rfl⟩ := delete_ok.mp hdelete
        obtain ⟨_, rfl⟩ := pure_eq_ok.mp h
        rw [deletionRequested_object hobj, finalizersPending_object hobj] at hremove
        exact .removed hnamespace hremove.1 (by simpa using hremove.2)
      · obtain ⟨_, _, h⟩ := ofExcept_bind_eq_ok.mp h
        obtain ⟨_, rfl⟩ := pure_eq_ok.mp h
        exact .written
    · obtain ⟨_, _, h⟩ := ofExcept_bind_eq_ok.mp h
      obtain ⟨_, rfl⟩ := pure_eq_ok.mp h
      exact .written

theorem Committed.same (h : Committed write k value reg reg') : SameBut (· = k) reg reg' := by
  cases h with
  | written =>
    intro k' hk'
    exact Registry.get_put_ne hk' value
  | removed =>
    intro k' hk'
    rw [Registry.get_drop_ne hk', Registry.get_put_ne hk']

/-! ## Proposals -/

/-- What a proposal found at its key. -/
def Found (reg : Registry) (p : Proposal) : Prop :=
  ∀ rv current, p.old = some (rv, current) →
    ∃ stored, reg.get p.key = some stored ∧ object stored = .ok current ∧ stored.revision = rv

theorem storedAt_ok {found : Option (ℕ × Json)} (h : storedAt k reg = .ok found) :
    (found = none ∧ reg.get k = none) ∨ ∃ stored current, reg.get k = some stored ∧
      object stored = .ok current ∧ found = some (stored.revision, current) := by
  unfold storedAt at h
  cases hget : reg.get k with
  | none =>
    rw [hget] at h
    exact Or.inl ⟨(Except.ok.inj h).symm, rfl⟩
  | some stored =>
    rw [hget] at h
    obtain ⟨current, hcurrent, hgo⟩ := Fallible.bind_eq_ok.mp h
    cases hgo
    exact Or.inr ⟨stored, current, rfl, hcurrent, rfl⟩

/-- An apply names what it applies. -/
theorem applied_member {options : Options} {field s : String}
    (h : applied lib fresh value old options = .ok result)
    (hmember : value["metadata"][field] = .string s)
    (hfield : field ∉ [managedFields, "resourceVersion", "uid", "creationTimestamp"]) :
    result["metadata"][field] = .string s := by
  unfold applied at h
  cases old with
  | some current => exact serverSide_member h hmember hfield
  | none =>
    obtain ⟨created, hcreated, hgo⟩ := Fallible.bind_eq_ok.mp h
    have hread := serverSide_member hcreated hmember hfield
    unfold identify at hgo
    obtain ⟨withUid, hwithUid, hgo⟩ := Fallible.bind_eq_ok.mp hgo
    simp only [List.mem_cons, List.not_mem_nil, or_false, not_or] at hfield
    rw [getElem_setAt_ne (getElem_setAt_step hgo) hfield.2.2.2,
      getElem_setAt_ne (getElem_setAt_step hwithUid) hfield.2.2.1, hread]

/-- How a write other than an apply comes to its proposal. -/
theorem proposeWrite_ok (h : proposeWrite lib fresh write body reg = .ok p) :
    ∃ decoded value, decode lib fresh write body reg = .ok decoded ∧
      concurrency fresh write decoded.key decoded.value reg = .ok (value, p.old) ∧
      prepareWrite lib write value (p.old.map Prod.snd) = .ok p.value ∧
      p.key = decoded.key ∧ p.ns = decoded.ns := by
  obtain ⟨decoded, hdecoded, hgo⟩ := Fallible.bind_eq_ok.mp h
  obtain ⟨⟨value, old⟩, hvalue, hgo⟩ := Fallible.bind_eq_ok.mp hgo
  obtain ⟨prepared, hprepared, hgo⟩ := Fallible.bind_eq_ok.mp hgo
  cases hgo
  exact ⟨decoded, value, hdecoded, hvalue, hprepared, rfl, rfl⟩

theorem proposeApply_ok {options : Options}
    (h : proposeApply lib fresh write body options reg = .ok p) :
    ∃ value decoded merged, lib.decode body.bytes "application/json" = .ok value ∧
      normalized lib fresh write value reg = .ok decoded ∧
      storedAt decoded.key reg = .ok p.old ∧
      applied lib fresh decoded.value (p.old.map Prod.snd) options = .ok merged ∧
      prepareWrite lib write merged (p.old.map Prod.snd) = .ok p.value ∧
      p.key = decoded.key ∧ p.ns = decoded.ns := by
  obtain ⟨value, hvalue, hgo⟩ := Fallible.bind_eq_ok.mp h
  obtain ⟨decoded, hdecoded, hgo⟩ := Fallible.bind_eq_ok.mp hgo
  obtain ⟨old, hold, hgo⟩ := Fallible.bind_eq_ok.mp hgo
  obtain ⟨merged, hmerged, hgo⟩ := Fallible.bind_eq_ok.mp hgo
  obtain ⟨prepared, hprepared, hgo⟩ := Fallible.bind_eq_ok.mp hgo
  cases hgo
  exact ⟨value, decoded, merged, hvalue, hdecoded, hold, hmerged, hprepared, rfl, rfl⟩

theorem propose_cases (h : propose lib fresh write query body reg = .ok p) :
    (applyOptions body.contentType query = .ok none ∧
      proposeWrite lib fresh write body reg = .ok p) ∨
    ∃ options, applyOptions body.contentType query = .ok (some options) ∧
      write.target.subresource.isSome = false ∧
        proposeApply lib fresh write body options reg = .ok p := by
  obtain ⟨options, hoptions, hgo⟩ := Fallible.bind_eq_ok.mp h
  cases options with
  | none => exact Or.inl ⟨hoptions, hgo⟩
  | some options =>
    dsimp only at hgo
    split_ifs at hgo with hsub
    exact Or.inr ⟨options, hoptions, Bool.not_eq_true _ ▸ hsub, hgo⟩

theorem decode_ok {decoded : Decoded} (h : decode lib fresh write body reg = .ok decoded) :
    Placed write.target decoded.key decoded.value ∧ Enclosed write reg decoded.ns := by
  unfold decode at h
  obtain ⟨value, _, hgo⟩ := Fallible.ite_bind_eq_ok.mp h
  exact normalized_ok hgo

/-- A proposal knows the version it replaces and the namespace it is made in. -/
theorem propose_found (h : propose lib fresh write query body reg = .ok p) :
    Found reg p ∧ Enclosed write reg p.ns := by
  rcases propose_cases h with ⟨_, hwrite⟩ | ⟨options, _, _, happly⟩
  · obtain ⟨decoded, value, hdecoded, hvalue, _, hkey, hns⟩ := proposeWrite_ok hwrite
    refine ⟨fun rv current hold => ?_, hns ▸ (decode_ok hdecoded).2⟩
    rcases (concurrency_ok hvalue).2 with ⟨_, _, hnone, _⟩ | ⟨_, rv', current', hsome, hreplaces⟩
    · rw [hnone] at hold
      cases hold
    · rw [hsome] at hold
      cases hold
      obtain ⟨stored, hstored, hobject, hrevision, _⟩ := hreplaces.stored
      exact ⟨stored, hkey ▸ hstored, hobject, hrevision⟩
  · obtain ⟨value, decoded, merged, _, hdecoded, hold, _, _, hkey, hns⟩ := proposeApply_ok happly
    refine ⟨fun rv current hsome => ?_, hns ▸ (normalized_ok hdecoded).2⟩
    rcases storedAt_ok hold with ⟨hnone, _⟩ | ⟨stored, current', hstored, hobject, hfound⟩
    · rw [hnone] at hsome
      cases hsome
    · rw [hfound] at hsome
      cases hsome
      exact ⟨stored, hkey ▸ hstored, hobject, rfl⟩

/-- The object of a proposal lies at the key of its name. -/
theorem propose_placed (hplain : write.target.subresource = none)
    (h : propose lib fresh write query body reg = .ok p) : Placed write.target p.key p.value := by
  rcases propose_cases h with ⟨_, hwrite⟩ | ⟨options, _, _, happly⟩
  · obtain ⟨decoded, value, hdecoded, hvalue, hprepared, hkey, _⟩ := proposeWrite_ok hwrite
    rw [hkey]
    exact ((decode_ok hdecoded).1.keeps (concurrency_ok hvalue).1).keeps
      (prepareWrite_keeps hplain hprepared)
  · obtain ⟨value, decoded, merged, _, hdecoded, _, hmerged, hprepared, hkey, _⟩ :=
      proposeApply_ok happly
    rw [hkey]
    have hplaced := (normalized_ok hdecoded).1
    have hmergedPlaced : Placed write.target decoded.key merged := by
      obtain ⟨name, hname, hrest⟩ := hplaced.name
      exact ⟨⟨name, applied_member hmerged hname (by decide), hrest⟩,
        fun ns hns => applied_member hmerged (hplaced.ns ns hns) (by decide)⟩
    exact hmergedPlaced.keeps (prepareWrite_keeps hplain hprepared)

/-- The key of a proposal is one of its endpoint. -/
theorem propose_key (h : propose lib fresh write query body reg = .ok p) :
    ∃ name, p.key.value = write.target.pathPrefix ++ name ∧
      write.target.resource.validName name = true ∧ write.target.name.all (· = name) = true := by
  rcases propose_cases h with ⟨_, hwrite⟩ | ⟨options, _, _, happly⟩
  · obtain ⟨decoded, value, hdecoded, _, _, hkey, _⟩ := proposeWrite_ok hwrite
    obtain ⟨name, _, hvalid, hall, hk⟩ := (decode_ok hdecoded).1.name
    exact ⟨name, hkey ▸ hk, hvalid, hall⟩
  · obtain ⟨value, decoded, merged, _, hdecoded, _, _, _, hkey, _⟩ := proposeApply_ok happly
    obtain ⟨name, _, hvalid, hall, hk⟩ := (normalized_ok hdecoded).1.name
    exact ⟨name, hkey ▸ hk, hvalid, hall⟩

/-- What an accepted proposal changed. -/
theorem commit_ok (h : commit lib fresh write p reg = .ok response reg') :
    ∃ value reg₁, admitWrite lib fresh write p.key p.value (p.old.map Prod.snd) p.ns reg =
      .ok value reg₁ ∧ (reg₁.get p.key).map Stored.revision = p.old.map Prod.fst ∧
        Committed write p.key value reg₁ reg' := by
  obtain ⟨value, reg₁, hadmit, hpersist⟩ := bind_eq_ok.mp h
  exact ⟨value, reg₁, hadmit, persist_ok hpersist⟩

/-! ## Bindings and deletions -/

/-- What a binding that is accepted found, and the Pod it leaves. -/
structure Binds (target : Target) (reg : Registry) (k : StoreKey) (stored : Stored)
    (pod result : Json) (node : String) : Prop where
  key : named target = .ok k
  found : reg.get k = some stored
  reads : object stored = .ok pod
  unbound : pod["spec"]["nodeName"].hasText = false
  live : pod["metadata"]["deletionTimestamp"] = .null
  result : ∃ assigned generation, setAt pod ["spec", "nodeName"] (.string node) = .ok assigned ∧
    setAt assigned ["metadata", "generation"] generation = .ok result

theorem bind_ok {target : Target} (h : Server.bind lib target value reg = .ok response reg') :
    ∃ k stored pod result node, Binds target reg k stored pod result node ∧
      value["target"]["name"] = .string node ∧
      value["metadata"]["resourceVersion"].asString.all (· = toString stored.revision) = true ∧
      reg' = reg.put k result := by
  unfold Server.bind at h
  obtain ⟨_, _, h⟩ := ofExcept_bind_eq_ok.mp h
  obtain ⟨node, hnode, h⟩ := ofExcept_bind_eq_ok.mp h
  obtain ⟨nodeKey, _, h⟩ := ofExcept_bind_eq_ok.mp h
  obtain ⟨_, _, h⟩ := reading_bind_ok.mp h
  obtain ⟨k, hk, h⟩ := ofExcept_bind_eq_ok.mp h
  obtain ⟨stored, hstored, h⟩ := reading_bind_ok.mp h
  obtain ⟨pod, hpod, h⟩ := ofExcept_bind_eq_ok.mp h
  split_ifs at h with hbound hprecondition
  · exact absurd h throw_ok
  · exact absurd h throw_ok
  obtain ⟨assigned, hassigned, h⟩ := ofExcept_bind_eq_ok.mp h
  split_ifs at h with hgeneration
  · obtain ⟨result, hresult, h⟩ := ofExcept_bind_eq_ok.mp h
    obtain ⟨_, reg₁, hupdate, h⟩ := bind_eq_ok.mp h
    obtain ⟨_, _, rfl⟩ := update_ok.mp hupdate
    obtain ⟨_, rfl⟩ := pure_eq_ok.mp h
    rw [not_or, not_not, Bool.not_eq_true] at hbound
    rw [not_or] at hprecondition
    refine ⟨k, stored, pod, result, node, ⟨hk, fetch_ok.mp hstored, hpod, hbound.1, hbound.2,
      assigned, _, hassigned, hresult⟩, ?_, ?_, rfl⟩
    · unfold bindingNode at hnode
      split at hnode
      · rename_i found hfilter
        cases hnode
        exact Json.asString_eq_some.mp (Option.filter_eq_some_iff.mp hfilter).1
      · cases hnode
    · cases hv : value["metadata"]["resourceVersion"].asString with
      | none => rfl
      | some v => simpa [hv] using hprecondition.2
  · exact absurd h throw_ok

/-- A deletion removes the object, marks a Namespace, or finds it marked. -/
inductive Deleted (fresh : Fresh) (write : Write) (k : StoreKey) (obj : Json) (reg : Registry) :
    Registry → Prop
  | removed : (write.target.resource.kind = "Namespace" → deletionRequested obj = true ∧
      finalizersPending obj = false) → Deleted fresh write k obj reg (reg.drop k)
  | marked {dated terminating result : Json} : write.target.resource.kind = "Namespace" →
      deletionRequested obj = false →
      setAt obj ["metadata", "deletionTimestamp"] (.string fresh.now) = .ok dated →
      setAt dated ["status", "phase"] (.string "Terminating") = .ok terminating →
      setAt terminating ["metadata", "finalizers"]
        (.array ((deletionFinalizers terminating).map Json.string)) = .ok result →
      Deleted fresh write k obj reg (reg.put k result)
  | kept : write.target.resource.kind = "Namespace" → deletionRequested obj = true →
      Deleted fresh write k obj reg reg

theorem deleteWrite_ok {options : Json}
    (h : deleteWrite fresh write options reg = .ok response reg') :
    ∃ k stored obj, named write.target = .ok k ∧ reg.get k = some stored ∧
      object stored = .ok obj ∧
      nodesAdmit write.user write.target write.verb obj (some obj) = .ok () ∧
      Deleted fresh write k obj reg reg' := by
  unfold deleteWrite at h
  obtain ⟨k, hk, h⟩ := ofExcept_bind_eq_ok.mp h
  obtain ⟨stored, hstored, h⟩ := reading_bind_ok.mp h
  obtain ⟨obj, hobj, h⟩ := ofExcept_bind_eq_ok.mp h
  obtain ⟨_, hnodes, h⟩ := ofExcept_bind_eq_ok.mp h
  refine ⟨k, stored, obj, hk, fetch_ok.mp hstored, hobj, hnodes, ?_⟩
  split_ifs at h with hprecondition hfinalizers hnamespace hpropagation
  · exact absurd h throw_ok
  · exact absurd h throw_ok
  · unfold deleteNamespace at h
    split_ifs at h with hprotected hremove hrequested
    · exact absurd h throw_ok
    · obtain ⟨_, reg₁, hdelete, h⟩ := bind_eq_ok.mp h
      obtain ⟨_, rfl⟩ := delete_ok.mp hdelete
      obtain ⟨_, rfl⟩ := pure_eq_ok.mp h
      exact .removed fun _ => ⟨hremove.1, by simpa using hremove.2⟩
    · obtain ⟨_, rfl⟩ := pure_eq_ok.mp h
      exact .kept hnamespace hrequested
    · obtain ⟨dated, hdated, h⟩ := ofExcept_bind_eq_ok.mp h
      obtain ⟨terminating, hterminating, h⟩ := ofExcept_bind_eq_ok.mp h
      obtain ⟨result, hresult, h⟩ := ofExcept_bind_eq_ok.mp h
      obtain ⟨_, reg₁, hupdate, h⟩ := bind_eq_ok.mp h
      obtain ⟨_, rfl, rfl⟩ := update_ok.mp hupdate
      obtain ⟨_, _, h⟩ := ofExcept_bind_eq_ok.mp h
      obtain ⟨_, rfl⟩ := pure_eq_ok.mp h
      exact .marked hnamespace (Bool.not_eq_true _ ▸ hrequested) hdated hterminating hresult
  · exact absurd h throw_ok
  · obtain ⟨_, reg₁, hdelete, h⟩ := bind_eq_ok.mp h
    obtain ⟨_, rfl⟩ := delete_ok.mp hdelete
    obtain ⟨_, rfl⟩ := pure_eq_ok.mp h
    exact .removed fun hkind => absurd hkind hnamespace

/-! ## Requests -/

/-- What an accepted write does: a binding, a deletion, or the commit of a proposal. -/
inductive Executed (lib : Libraries) (fresh : Fresh) (write : Write) (query : Query) (body : Body)
    (reg reg' : Registry) : Prop
  | bound {k : StoreKey} {stored : Stored} {pod result : Json} {node : String} :
      write.target.subresource = some "binding" → write.user.nodeName = none →
      Binds write.target reg k stored pod result node → reg' = reg.put k result →
      Executed lib fresh write query body reg reg'
  | deleted {k : StoreKey} {stored : Stored} {obj : Json} : write.verb = "delete" →
      named write.target = .ok k → reg.get k = some stored → object stored = .ok obj →
      nodesAdmit write.user write.target write.verb obj (some obj) = .ok () →
      Deleted fresh write k obj reg reg' → Executed lib fresh write query body reg reg'
  | committed {p : Proposal} {response : Response} : write.target.subresource ≠ some "binding" →
      write.verb ≠ "delete" → propose lib fresh write query body reg = .ok p →
      commit lib fresh write p reg = .ok response reg' →
      Executed lib fresh write query body reg reg'

theorem execute_ok (h : execute lib fresh write query body reg = .ok response reg') :
    Executed lib fresh write query body reg reg' := by
  by_cases hbinding : write.target.subresource = some "binding"
  · unfold execute at h
    split_ifs at h with hdry hnode
    · exact absurd h throw_ok
    · exact absurd h throw_ok
    · obtain ⟨value, _, h⟩ := ofExcept_bind_eq_ok.mp h
      obtain ⟨k, stored, pod, result, node, hbinds, _, _, hreg⟩ := bind_ok h
      exact .bound hbinding (by simpa using hnode) hbinds hreg
  · by_cases hdelete : write.verb = "delete"
    · unfold execute at h
      split_ifs at h with hdry
      · exact absurd h throw_ok
      · obtain ⟨options, _, h⟩ := ofExcept_bind_eq_ok.mp h
        obtain ⟨k, stored, obj, hk, hstored, hobj, hnodes, hdeleted⟩ := deleteWrite_ok h
        exact .deleted hdelete hk hstored hobj hnodes hdeleted
    · obtain ⟨p, hp, hcommit⟩ := execute_write_ok hbinding hdelete h
      exact .committed hbinding hdelete hp hcommit

/-- What the accepted request for a token established, and the record it leaves. -/
theorem createToken_ok {user : User} {target : Target} {request : HttpRequest}
    (h : createToken lib fresh user target request reg = .ok response reg') :
    ∃ ns account value bound object audiences expires k,
      target.ns = some ns ∧ target.name = some account ∧
      lib.decode request.body.bytes request.body.contentType = .ok value ∧
      tokenAudiences value["spec"] = .ok audiences ∧
      tokenBound value["spec"]["boundObjectRef"] = .ok bound ∧
      nodeMints user ns bound reg = .ok () ∧ tokenAccount ns account reg = .ok object ∧
      key ("/registry/h3s-bound-tokens/" ++ lib.digest fresh.secret) = .ok k ∧
      response = .token (tokenRecord ns account object["metadata"]["uid"] audiences expires bound) ∧
      reg' = reg.put k (tokenRecord ns account object["metadata"]["uid"] audiences expires bound) := by
  unfold createToken at h
  split_ifs at h with hmethod hquery
  · exact absurd h throw_ok
  · exact absurd h throw_ok
  cases hns : target.ns with
  | none =>
    rw [hns] at h
    exact absurd h throw_ok
  | some ns =>
  cases haccount : target.name with
  | none =>
    rw [hns, haccount] at h
    exact absurd h throw_ok
  | some account =>
  rw [hns, haccount] at h
  obtain ⟨selection, _, h⟩ := ofExcept_bind_eq_ok.mp h
  obtain ⟨grant, _, h⟩ := reading_bind_ok.mp h
  obtain ⟨value, hdecode, h⟩ := ofExcept_bind_eq_ok.mp h
  split_ifs at h with hkind hkeys
  · exact absurd h throw_ok
  · exact absurd h throw_ok
  obtain ⟨audiences, haudiences, h⟩ := ofExcept_bind_eq_ok.mp h
  obtain ⟨expiration, _, h⟩ := ofExcept_bind_eq_ok.mp h
  obtain ⟨bound, hbound, h⟩ := ofExcept_bind_eq_ok.mp h
  obtain ⟨_, hmints, h⟩ := reading_bind_ok.mp h
  obtain ⟨object, hobject, h⟩ := reading_bind_ok.mp h
  split_ifs at h with hlifetime
  · exact absurd h throw_ok
  obtain ⟨k, hk, h⟩ := ofExcept_bind_eq_ok.mp h
  obtain ⟨_, _, hcreate, h⟩ := bind_eq_ok.mp h
  obtain ⟨_, _, rfl⟩ := create_ok.mp hcreate
  obtain ⟨rfl, rfl⟩ := pure_eq_ok.mp h
  exact ⟨ns, account, value, bound, object, audiences, _, k, rfl, rfl, hdecode, haudiences, hbound,
    hmints, hobject, hk, rfl, rfl⟩

/-- The verb and the grant of a request that is not for a token. -/
structure Authorized (lib : Libraries) (user : User) (request : HttpRequest) (target : Target)
    (v : String) (grant : Grant) (reg : Registry) : Prop where
  parsed : Target.parse request.path = some target
  verb : verb request.method target
    (decide (request.query.get "watch" ∈ [some "true", some "1"])) = .ok v
  granted : ∃ selection, lib.selection ((request.query.get "labelSelector").getD "")
    ((request.query.get "fieldSelector").getD "") target.resource.kind = .ok selection ∧
      resource lib reg user target v (selection.withName target.name) = .ok grant

/-- What an accepted request does to the registry. -/
inductive Served (lib : Libraries) (fresh : Fresh) (user : User) (request : HttpRequest)
    (reg reg' : Registry) : Prop
  | read : reg' = reg → Served lib fresh user request reg reg'
  | token {target : Target} {response : Response} : Target.parse request.path = some target →
      target.subresource = some "token" →
      createToken lib fresh user target request reg = .ok response reg' →
      Served lib fresh user request reg reg'
  | write {target : Target} {v : String} {grant : Grant} :
      Authorized lib user request target v grant reg →
      target.subresource ∉ [some "token", some "log", some "exec"] →
      v ∉ ["get", "list", "watch"] → target.ns.isSome = target.resource.namespaced →
      Executed lib fresh ⟨user, target, v⟩ request.query request.body reg reg' →
      Served lib fresh user request reg reg'

theorem serve_ok {user : User} {request : HttpRequest}
    (h : serve lib fresh user request reg = .ok response reg') :
    Served lib fresh user request reg reg' := by
  unfold serve at h
  cases hparse : Target.parse request.path with
  | none =>
    rw [hparse] at h
    exact absurd h throw_ok
  | some target =>
    simp only [hparse] at h
    split_ifs at h with htoken
    · exact .token hparse htoken h
    obtain ⟨v, hv, h⟩ := ofExcept_bind_eq_ok.mp h
    obtain ⟨selection, hselection, h⟩ := ofExcept_bind_eq_ok.mp h
    obtain ⟨grant, hgrant, h⟩ := reading_bind_ok.mp h
    unfold serveAuthorized at h
    split_ifs at h with hinitial hplace hlog hexec hwatch hlist hget
    · exact absurd h throw_ok
    · exact absurd h throw_ok
    · exact .read (pure_eq_ok.mp h).2.symm
    · exact .read (pure_eq_ok.mp h).2.symm
    · exact .read (pure_eq_ok.mp h).2.symm
    · exact .read (pure_eq_ok.mp h).2.symm
    · exact .read (reading_ok.mp h).2
    refine .write ⟨hparse, hv, selection, hselection, hgrant⟩ (by simp [htoken, hlog, hexec])
      (by simp [hwatch, hlist, hget]) ?_ (execute_ok h)
    have hvalid := Target.parse_ok hparse
    cases hnamespaced : target.resource.namespaced with
    | true =>
      simp only [hnamespaced, true_and, not_and, not_or] at hplace
      by_contra hnone
      rw [Bool.not_eq_true, Option.isSome_eq_false_iff] at hnone
      have hwrite := (hplace hnone).2
      tauto
    | false =>
      by_contra hsome
      rw [Bool.not_eq_false] at hsome
      have hns := hvalid.namespaced hsome
      rw [hnamespaced] at hns
      cases hns

end Hedronetes.Server
