import Hedronetes.Server.Concurrent

/-!
# The uid of an object

The server draws the uid of an object when it creates it, and no write gives an object another
one. In every interleaving a handler's calls keep to this, apart from the volumes and the ledger
that admission writes beside its object.
-/

namespace Hedronetes.Server

open FirstMatch Apply Auth Effects Interleaving
open Storage (StoreKey)

def HasUid (value : Json) (uid : String) : Prop := value["metadata"]["uid"] = .string uid

/-- What a call makes of the uid at its key. -/
inductive KeepsUid (fresh : Fresh) (s : Registry) : Call → Prop
  | created {k : StoreKey} {value : Json} : (∀ uid, HasUid value uid → uid = fresh.uid) →
      KeepsUid fresh s (.create k value)
  | updated {k : StoreKey} {value : Json} {rv : ℕ} :
      (∀ current, s.get k = some current → current.revision = rv →
        ∀ uid, HasUid value uid → HasUid current.value uid) →
      KeepsUid fresh s (.update k value rv)
  | deleted {k : StoreKey} {rv : ℕ} : KeepsUid fresh s (.delete k rv)
  | side {c : Call} : Family "persistentvolumes" c.key ∨ Family "h3s-node-cidrs" c.key →
      KeepsUid fresh s c

section

variable {lib : Libraries} {fresh : Fresh} {write : Write} {query : Query} {body : Body}
  {reg s t : Registry} {k : StoreKey} {value result obj : Json} {stored : Stored} {uid : String}

/-! ## The object of a write -/

theorem HasUid.setAt_member {name : String} {v : Json}
    (hset : setAt value ["metadata", name] v = .ok result) (hname : name ≠ "uid")
    (h : HasUid result uid) : HasUid value uid := by
  unfold HasUid at h ⊢
  rwa [getElem_setAt_ne (getElem_setAt_step hset) hname.symm] at h

theorem HasUid.of_object (hobject : object stored = .ok obj) (h : HasUid obj uid) :
    HasUid stored.value uid := by
  unfold HasUid at h ⊢
  rwa [object_metadata hobject "uid" (by decide) (by decide)] at h

variable {ι : Type} {C : Contract Registry Purpose Call ι} {r : ι} {seen : List Observed}
  {p : Proposal}

/-- Admission keeps the metadata; beside its object it writes volumes and the ledger. -/
theorem meets_admit_metadata {old ns : Option Json}
    (hside : ∀ seen t c, Family "persistentvolumes" c.key ∨ Family "h3s-node-cidrs" c.key →
      C.Permits Call.perform r seen t c) :
    Meets Call.perform C r (fun result _ _ => result["metadata"] = value["metadata"])
      (Handler.admitWrite lib fresh write k value old ns) seen s := by
  apply meets_admit (K := fun result _ _ => result["metadata"] = value["metadata"])
  · intro completed account seen' t _ _ _ hcompleted
    have hsame := serviceAccountStep_metadata hcompleted
    apply meets_kind
    · exact fun _ _ => hsame
    · intro _ _ _ _ _ spec result _ _ hset
      rw [getElem_setAt_ne hset (by decide), hsame]
    · intro _ _ _
      apply Meets.weaken (meets_claim _)
      · intro result seen t _ hclaiming
        cases hclaiming with
        | pending => exact hsame
        | named _ _ _ _ hbound =>
          unfold bindNamed at hbound
          obtain ⟨found, _, hbound⟩ := Fallible.bind_eq_ok.mp hbound
          cases found with
          | none => cases hbound
          | some volume =>
            dsimp only at hbound
            split_ifs at hbound
            rw [bound_metadata hbound, hsame]
        | provisioned _ _ _ _ _ _ _ hbound => rw [bound_metadata hbound, hsame]
      · intro seen t _ _ _ uid _ k _ hk
        exact hside seen t _ (Or.inl ⟨"pvc-" ++ uid, key_ok.mp hk⟩)
  · exact fun _ _ _ _ _ _ _ h => h
  · intro result seen' t _ _ _ hresult _
    apply Meets.weaken (meets_cidr _) fun _ _ _ _ _ => hresult
    intro _ seen u _ at' _ _ hk _ _
    exact hside seen u _ (Or.inr ⟨"allocations", key_ok.mp hk⟩)
  · exact fun _ _ _ _ _ h => h

end

end Hedronetes.Server
