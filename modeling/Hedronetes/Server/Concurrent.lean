import Hedronetes.Server.Handlers
import Hedronetes.Server.Runs

/-!
# Handlers that take turns

What a call of the store does to the registry, what a handler has read when it
makes one, and which keys it writes. The store numbers its writes, so that a
version that a handler has read is the one its compare-and-set replaces.
-/

namespace Hedronetes.Server

open FirstMatch Apply Auth Effects Interleaving
open Storage (StoreKey startsWith)

/-! ## Dates -/

/-- No object is dated after the registry. -/
def Dated (reg : Registry) : Prop := ∀ k o, reg.get k = some o → o.revision ≤ reg.revision

/-- A registry and one it has come from: what is dated before is as it was. -/
structure Later (reg reg' : Registry) : Prop where
  revision : reg.revision ≤ reg'.revision
  kept : ∀ k o, reg'.get k = some o → o.revision ≤ reg.revision → reg.get k = some o

variable {reg reg' reg'' : Registry} {k k' : StoreKey} {value : Json} {o o' : Stored}

theorem Later.refl (reg : Registry) : Later reg reg := ⟨le_rfl, fun _ _ h _ => h⟩

theorem Later.trans (h : Later reg reg') (h' : Later reg' reg'') : Later reg reg'' where
  revision := h.revision.trans h'.revision
  kept k o hget hle := h.kept k o (h'.kept k o hget (hle.trans h.revision)) hle

/-- A version is determined by its date. -/
theorem Later.version (hdated : Dated reg) (h : Later reg reg') (hget : reg.get k = some o)
    (hget' : reg'.get k = some o') (hrevision : o'.revision = o.revision) : o' = o := by
  have hold := h.kept k o' hget' (hrevision ▸ hdated k o hget)
  rw [hget] at hold
  exact (Option.some.inj hold).symm

theorem dated_empty : Dated Registry.empty := by
  intro k o h
  cases h

theorem Dated.put (h : Dated reg) (k : StoreKey) (value : Json) : Dated (reg.put k value) := by
  intro k' o hget
  by_cases hk : k' = k
  · subst hk
    rw [Registry.get_put] at hget
    exact (Option.some.inj hget) ▸ le_rfl
  · rw [Registry.get_put_ne hk] at hget
    exact (h k' o hget).trans (Nat.le_succ _)

theorem Dated.drop (h : Dated reg) (k : StoreKey) : Dated (reg.drop k) := by
  intro k' o hget
  by_cases hk : k' = k
  · subst hk
    simp at hget
  · rw [Registry.get_drop_ne hk] at hget
    exact (h k' o hget).trans (Nat.le_succ _)

theorem Later.put (reg : Registry) (k : StoreKey) (value : Json) : Later reg (reg.put k value) := by
  refine ⟨Nat.le_succ _, fun k' o hget hle => ?_⟩
  by_cases hk : k' = k
  · subst hk
    rw [Registry.get_put] at hget
    obtain rfl := Option.some.inj hget
    exact absurd hle (by simp)
  · rwa [Registry.get_put_ne hk] at hget

theorem Later.drop (reg : Registry) (k : StoreKey) : Later reg (reg.drop k) := by
  refine ⟨Nat.le_succ _, fun k' o hget _ => ?_⟩
  by_cases hk : k' = k
  · subst hk
    simp at hget
  · rwa [Registry.get_drop_ne hk] at hget

/-- The store numbers its writes: an object's revision is its own. -/
structure Numbered (reg : Registry) : Prop where
  dated : Dated reg
  distinct : ∀ k k' o o', reg.get k = some o → reg.get k' = some o' →
    o.revision = o'.revision → k = k'

theorem numbered_empty : Numbered Registry.empty := ⟨dated_empty, fun _ _ _ _ h => by cases h⟩

theorem Numbered.put (h : Numbered reg) (k : StoreKey) (value : Json) :
    Numbered (reg.put k value) := by
  refine ⟨h.dated.put k value, fun k₁ k₂ o₁ o₂ h₁ h₂ hsame => ?_⟩
  by_cases hk₁ : k₁ = k
  · by_cases hk₂ : k₂ = k
    · rw [hk₁, hk₂]
    · subst hk₁
      rw [Registry.get_put, Option.some.injEq] at h₁
      rw [Registry.get_put_ne hk₂] at h₂
      have hle := h.dated k₂ o₂ h₂
      rw [← hsame, ← h₁] at hle
      exact absurd hle (by simp)
  · rw [Registry.get_put_ne hk₁] at h₁
    by_cases hk₂ : k₂ = k
    · subst hk₂
      rw [Registry.get_put, Option.some.injEq] at h₂
      have hle := h.dated k₁ o₁ h₁
      rw [hsame, ← h₂] at hle
      exact absurd hle (by simp)
    · rw [Registry.get_put_ne hk₂] at h₂
      exact h.distinct k₁ k₂ o₁ o₂ h₁ h₂ hsame

theorem Numbered.drop (h : Numbered reg) (k : StoreKey) : Numbered (reg.drop k) := by
  have hkept : ∀ k' o, (reg.drop k).get k' = some o → reg.get k' = some o := by
    intro k' o hget
    by_cases hk : k' = k
    · subst hk
      simp at hget
    · rwa [Registry.get_drop_ne hk] at hget
  exact ⟨h.dated.drop k, fun k₁ k₂ o₁ o₂ h₁ h₂ =>
    h.distinct k₁ k₂ o₁ o₂ (hkept k₁ o₁ h₁) (hkept k₂ o₂ h₂)⟩

theorem numbered_ofList (objects : List (String × Json)) : Numbered (Registry.ofList objects) := by
  unfold Registry.ofList
  have hempty := numbered_empty
  generalize Registry.empty = reg at hempty ⊢
  induction objects generalizing reg with
  | nil => exact hempty
  | cons e objects ih =>
    apply ih
    dsimp only
    cases key e.1 with
    | ok k => exact hempty.put _ _
    | error _ => exact hempty

theorem dated_ofList (objects : List (String × Json)) : Dated (Registry.ofList objects) :=
  (numbered_ofList objects).dated

/-- A revision finds its object again, wherever it is looked for. -/
theorem Numbered.version (h : Numbered reg) (hlater : Later reg reg') (hget : reg.get k = some o)
    (hget' : reg'.get k' = some o') (hrevision : o'.revision = o.revision) : k' = k ∧ o' = o := by
  have hold := hlater.kept k' o' hget' (hrevision ▸ h.dated k o hget)
  obtain rfl := h.distinct k' k o' o hold hget hrevision
  rw [hget] at hold
  exact ⟨rfl, (Option.some.inj hold).symm⟩

/-! ## What a call does -/

inductive Performed (reg : Registry) : Call → Reply × Registry → Prop
  | refused {c : Call} {e : Storage.Error} : Performed reg c (.error e, reg)
  | created {k : StoreKey} {value : Json} : reg.get k = none →
      Performed reg (.create k value) (.ok ⟨value, reg.revision + 1⟩, reg.put k value)
  | updated {k : StoreKey} {value : Json} {current : Stored} : reg.get k = some current →
      Performed reg (.update k value current.revision)
        (.ok ⟨value, reg.revision + 1⟩, reg.put k value)
  | deleted {k : StoreKey} {current : Stored} : reg.get k = some current →
      Performed reg (.delete k current.revision) (.ok current, reg.drop k)

theorem Call.performed (c : Call) (reg : Registry) : Performed reg c (c.perform reg) := by
  cases c with
  | create k value =>
    cases h : reg.get k with
    | none =>
      simp only [perform, h]
      exact .created h
    | some current =>
      simp only [perform, h]
      exact .refused
  | update k value expected =>
    cases h : reg.get k with
    | none =>
      simp only [perform, h]
      exact .refused
    | some current =>
      simp only [perform, h]
      split_ifs with hrevision
      · subst hrevision
        exact .updated h
      · exact .refused
  | delete k expected =>
    cases h : reg.get k with
    | none =>
      simp only [perform, h]
      exact .refused
    | some current =>
      simp only [perform, h]
      split_ifs with hrevision
      · subst hrevision
        exact .deleted h
      · exact .refused

theorem Call.update_ok {expected : ℕ}
    (h : (Call.update k value expected).perform reg = (.ok o, reg')) :
    (∃ current, reg.get k = some current ∧ current.revision = expected) ∧
      o = ⟨value, reg.revision + 1⟩ ∧ reg' = reg.put k value := by
  cases hget : reg.get k with
  | none =>
    simp only [perform, hget] at h
    cases h
  | some current =>
    simp only [perform, hget] at h
    split_ifs at h with hrevision
    · cases h
      exact ⟨⟨current, rfl, hrevision⟩, rfl, rfl⟩
    · cases h

theorem Call.perform_dated (c : Call) (h : Dated reg) : Dated (c.perform reg).2 := by
  cases hp : c.perform reg with
  | mk reply after =>
    have := c.performed reg
    rw [hp] at this
    cases this with
    | refused => exact h
    | created => exact h.put _ _
    | updated => exact h.put _ _
    | deleted => exact h.drop _

theorem Call.perform_numbered (c : Call) (h : Numbered reg) : Numbered (c.perform reg).2 := by
  cases hp : c.perform reg with
  | mk reply after =>
    have := c.performed reg
    rw [hp] at this
    cases this with
    | refused => exact h
    | created => exact h.put _ _
    | updated => exact h.put _ _
    | deleted => exact h.drop _

theorem Call.perform_later (c : Call) (reg : Registry) : Later reg (c.perform reg).2 := by
  cases hp : c.perform reg with
  | mk reply after =>
    have := c.performed reg
    rw [hp] at this
    cases this with
    | refused => exact .refl reg
    | created => exact .put _ _ _
    | updated => exact .put _ _ _
    | deleted => exact .drop _ _

theorem Call.perform_same (c : Call) (reg : Registry) :
    SameBut (· = c.key) reg (c.perform reg).2 := by
  cases hp : c.perform reg with
  | mk reply after =>
    have := c.performed reg
    rw [hp] at this
    cases this with
    | refused => exact .refl reg
    | created => exact fun k hk => Registry.get_put_ne hk _
    | updated => exact fun k hk => Registry.get_put_ne hk _
    | deleted => exact fun k hk => Registry.get_drop_ne hk

/-- The object that a call brings. -/
def Call.brings : Call → Option Json
  | .create _ value => some value
  | .update _ value _ => some value
  | .delete _ _ => none

/-- What is there after a call was there before, or is what it brought. -/
theorem Call.perform_get {c : Call} (h : (c.perform reg).2.get k = some o) :
    reg.get k = some o ∨ (k = c.key ∧ c.brings = some o.value) := by
  by_cases hk : k = c.key
  · subst hk
    have hperformed := c.performed reg
    cases hp : c.perform reg with
    | mk reply after =>
      rw [hp] at hperformed h
      cases hperformed with
      | refused => exact Or.inl h
      | created =>
        simp only [Call.key, Registry.get_put, Option.some.injEq] at h
        exact Or.inr ⟨rfl, by rw [← h]; rfl⟩
      | updated =>
        simp only [Call.key, Registry.get_put, Option.some.injEq] at h
        exact Or.inr ⟨rfl, by rw [← h]; rfl⟩
      | deleted => simp [Call.key] at h
  · exact Or.inl ((c.perform_same reg k hk) ▸ h)

/-! ## What a handler has read -/

section

variable {ι : Type} {C : Contract Registry Purpose Call ι} {r : ι} {lib : Libraries}
  {fresh : Fresh} {write : Write} {query : Query} {body : Body} {seen seen' : List Observed}
  {s t : Registry} {p : Proposal}

/-- A call of the store, and what follows where it is accepted. -/
theorem meets_store {post : Stored → List Observed → Registry → Prop} {c : Call}
    (hpermits : ∀ t, C.rely s t → C.Permits Call.perform r seen t c)
    (hpost : ∀ t u stored, C.inv t → C.rely s t → C.guard r seen t c →
      c.perform t = (.ok stored, u) → C.rely t u → ∀ v, C.inv v → C.rely u v →
        post stored (seen ++ [.call c t]) v) :
    Meets Call.perform C r post (Handler.store c) seen s := by
  apply Meets.call hpermits
  intro t ht hrely hguard hallows
  cases hp : c.perform t with
  | mk reply u =>
    cases reply with
    | error e => trivial
    | ok stored =>
      have hafter := hallows.rely
      rw [hp] at hafter
      exact fun v hv hlater => hpost t u stored ht hrely hguard hp hafter v hv hlater

/-- A decoded object: the namespace it was checked in, and what a patch started from. -/
inductive DecodedBy (C : Contract Registry Purpose Call ι) (lib : Libraries) (fresh : Fresh)
    (write : Write) (body : Body) (seen : List Observed) (s : Registry) (decoded : Decoded) : Prop
  | whole {value : Json} {ns : Registry} : write.verb ≠ "patch" →
      lib.decode body.bytes body.contentType = .ok value → C.Past seen s .ns ns →
      normalized lib fresh write value ns = .ok decoded →
      DecodedBy C lib fresh write body seen s decoded
  | patch {value : Json} {reg ns : Registry} : write.verb = "patch" → C.Past seen s .object reg →
      patched lib write body reg = .ok value → C.Past seen s .ns ns →
      normalized lib fresh write value ns = .ok decoded →
      DecodedBy C lib fresh write body seen s decoded

theorem DecodedBy.mono {decoded : Decoded} (h : DecodedBy C lib fresh write body seen s decoded)
    (hseen : seen ⊆ seen') (hrely : C.rely s t) :
    DecodedBy C lib fresh write body seen' t decoded := by
  cases h with
  | whole hverb hvalue hns hnormalized =>
    exact .whole hverb hvalue (hns.mono hseen hrely) hnormalized
  | patch hverb hreg hvalue hns hnormalized =>
    exact .patch hverb (hreg.mono hseen hrely) hvalue (hns.mono hseen hrely) hnormalized

theorem DecodedBy.normalized {decoded : Decoded}
    (h : DecodedBy C lib fresh write body seen s decoded) :
    ∃ value ns, C.Past seen s .ns ns ∧ normalized lib fresh write value ns = .ok decoded := by
  cases h with
  | whole _ _ hns hnormalized => exact ⟨_, _, hns, hnormalized⟩
  | patch _ _ _ hns hnormalized => exact ⟨_, _, hns, hnormalized⟩

theorem meets_decode : Meets Call.perform C r
    (fun decoded seen s => DecodedBy C lib fresh write body seen s decoded)
    (Handler.decode lib fresh write body) seen s := by
  unfold Handler.decode
  split_ifs with hpatch
  · apply Meets.reading_bind
    intro value reg hvalue _ _ hreg
    apply Meets.reading
    intro decoded ns u hdecoded _ hlater hpast
    exact .patch hpatch (hreg.mono (List.subset_append_left _ _) hlater) hvalue hpast hdecoded
  · apply Meets.lift_bind
    intro value hvalue
    apply Meets.reading
    intro decoded ns u hdecoded _ _ hpast
    exact .whole hpatch hvalue hpast hdecoded

/-- How a handler came to the object it brings to admission. -/
inductive Proposed (C : Contract Registry Purpose Call ι) (lib : Libraries) (fresh : Fresh)
    (write : Write) (query : Query) (body : Body) (seen : List Observed) (s : Registry)
    (p : Proposal) : Prop
  | written {decoded : Decoded} {value : Json} {reg : Registry} :
      applyOptions body.contentType query = .ok none →
      DecodedBy C lib fresh write body seen s decoded → C.Past seen s .object reg →
      concurrency fresh write decoded.key decoded.value reg = .ok (value, p.old) →
      prepareWrite lib write value (p.old.map Prod.snd) = .ok p.value → p.key = decoded.key →
      p.ns = decoded.ns → Proposed C lib fresh write query body seen s p
  | applied {options : Options} {value merged : Json} {decoded : Decoded} {ns reg : Registry} :
      applyOptions body.contentType query = .ok (some options) →
      write.target.subresource.isSome = false →
      lib.decode body.bytes "application/json" = .ok value → C.Past seen s .ns ns →
      normalized lib fresh write value ns = .ok decoded → C.Past seen s .object reg →
      storedAt decoded.key reg = .ok p.old →
      applied lib fresh decoded.value (p.old.map Prod.snd) options = .ok merged →
      prepareWrite lib write merged (p.old.map Prod.snd) = .ok p.value → p.key = decoded.key →
      p.ns = decoded.ns → Proposed C lib fresh write query body seen s p

theorem Proposed.mono (h : Proposed C lib fresh write query body seen s p) (hseen : seen ⊆ seen')
    (hrely : C.rely s t) : Proposed C lib fresh write query body seen' t p := by
  cases h with
  | written hoptions hdecoded hreg hvalue hprepared hkey hns =>
    exact .written hoptions (hdecoded.mono hseen hrely) (hreg.mono hseen hrely) hvalue hprepared
      hkey hns
  | applied hoptions hsub hvalue hns hdecoded hreg hold hmerged hprepared hkey henclosing =>
    exact .applied hoptions hsub hvalue (hns.mono hseen hrely) hdecoded (hreg.mono hseen hrely)
      hold hmerged hprepared hkey henclosing

/-- The version that a proposal was made from was read. -/
theorem Proposed.found (h : Proposed C lib fresh write query body seen s p) :
    ∃ reg, C.Past seen s .object reg ∧ Found reg p ∧
      (p.old = none → reg.get p.key = none ∨ (write.verb ≠ "update" ∧ write.verb ≠ "patch")) := by
  cases h with
  | @written decoded value reg _ _ hreg hvalue _ hkey _ =>
    rcases (concurrency_ok hvalue).2 with ⟨hupdate, hpatch, hnone, _⟩ | ⟨_, rv, current, hsome, hold⟩
    · refine ⟨reg, hreg, fun rv current hold => ?_, fun _ => Or.inr ⟨hupdate, hpatch⟩⟩
      rw [hnone] at hold
      cases hold
    · refine ⟨reg, hreg, fun rv' current' hold' => ?_, fun hnone => ?_⟩
      · rw [hsome] at hold'
        cases hold'
        obtain ⟨stored, hstored, hobject, hrevision, _⟩ := hold.stored
        exact ⟨stored, hkey ▸ hstored, hobject, hrevision⟩
      · rw [hnone] at hsome
        cases hsome
  | @applied options value merged decoded ns reg _ _ _ _ _ hreg hold _ _ hkey _ =>
    refine ⟨reg, hreg, fun rv current hsome => ?_, fun hnone => ?_⟩
    · rcases storedAt_ok hold with ⟨hnone, _⟩ | ⟨stored, current', hstored, hobject, hfound⟩
      · rw [hnone] at hsome
        cases hsome
      · rw [hfound] at hsome
        cases hsome
        exact ⟨stored, hkey ▸ hstored, hobject, rfl⟩
    · rcases storedAt_ok hold with ⟨_, habsent⟩ | ⟨stored, current', _, _, hfound⟩
      · exact Or.inl (hkey ▸ habsent)
      · rw [hfound] at hnone
        cases hnone

theorem Proposed.prepared (h : Proposed C lib fresh write query body seen s p) :
    ∃ value, prepareWrite lib write value (p.old.map Prod.snd) = .ok p.value := by
  cases h with
  | written _ _ _ _ hprepared _ _ => exact ⟨_, hprepared⟩
  | applied _ _ _ _ _ _ _ _ hprepared _ _ => exact ⟨_, hprepared⟩

theorem Proposed.key (h : Proposed C lib fresh write query body seen s p) :
    ∃ name, p.key.value = write.target.pathPrefix ++ name ∧
      write.target.resource.validName name = true ∧ write.target.name.all (· = name) = true := by
  cases h with
  | written _ hdecoded _ _ _ hkey _ =>
    obtain ⟨_, _, _, hnormalized⟩ := hdecoded.normalized
    obtain ⟨name, _, hvalid, hall, hk⟩ := (normalized_ok hnormalized).1.name
    exact ⟨name, hkey ▸ hk, hvalid, hall⟩
  | applied _ _ _ _ hdecoded _ _ _ _ hkey _ =>
    obtain ⟨name, _, hvalid, hall, hk⟩ := (normalized_ok hdecoded).1.name
    exact ⟨name, hkey ▸ hk, hvalid, hall⟩

/-! ## The calls of a handler -/

/-- The call that a deletion ends with, given what it found. -/
inductive DeleteCall (fresh : Fresh) (write : Write) (k : StoreKey) (stored : Stored) (obj : Json) :
    Call → Prop
  | removed : (write.target.resource.kind = "Namespace" → deletionRequested obj = true ∧
      finalizersPending obj = false) → DeleteCall fresh write k stored obj (.delete k stored.revision)
  | marked {dated terminating result : Json} : write.target.resource.kind = "Namespace" →
      deletionRequested obj = false →
      setAt obj ["metadata", "deletionTimestamp"] (.string fresh.now) = .ok dated →
      setAt dated ["status", "phase"] (.string "Terminating") = .ok terminating →
      setAt terminating ["metadata", "finalizers"]
        (.array ((deletionFinalizers terminating).map Json.string)) = .ok result →
      DeleteCall fresh write k stored obj (.update k result stored.revision)

theorem DeleteCall.key {stored : Stored} {obj : Json} {c : Call}
    (h : DeleteCall fresh write k stored obj c) : c.key = k := by
  cases h <;> rfl

/-- What a deletion has checked. -/
structure Deletes (C : Contract Registry Purpose Call ι) (write : Write) (options : Json)
    (seen : List Observed) (s reg : Registry) (k : StoreKey) (stored : Stored) (obj : Json) :
    Prop where
  past : C.Past seen s .object reg
  key : named write.target = .ok k
  found : reg.get k = some stored
  reads : object stored = .ok obj
  permitted : nodesAdmit write.user write.target write.verb obj (some obj) = .ok ()
  preconditions : ∀ field ∈ ["uid", "resourceVersion"],
    options["preconditions"][field].asString.all
      (· = obj["metadata"][field].asString.getD "") = true

/-- The last call of a handler, whose reply is only answered. -/
theorem meets_last {α : Type} {c : Call} {x : Handler α}
    (hpermits : ∀ t, C.rely s t → C.Permits Call.perform r seen t c)
    (hx : ∀ seen s, Meets Call.perform C r (fun _ _ _ => True) x seen s) :
    Meets Call.perform C r (fun _ _ _ => True) (Handler.store c >>= fun _ => x) seen s := by
  apply Meets.bind (P := fun _ _ _ => True)
  · exact meets_store hpermits fun _ _ _ _ _ _ _ _ _ _ _ => trivial
  · exact fun _ seen t _ _ _ _ => hx seen t

theorem meets_deleteNamespace {stored : Stored} {obj : Json}
    (hkind : write.target.resource.kind = "Namespace")
    (h : ∀ t c, C.rely s t → DeleteCall fresh write k stored obj c →
      C.Permits Call.perform r seen t c) :
    Meets Call.perform C r (fun _ _ _ => True) (Handler.deleteNamespace fresh k stored obj)
      seen s := by
  unfold Handler.deleteNamespace
  split_ifs with hprotected hremove hrequested
  · trivial
  · apply meets_last
    · exact fun t hlater => h t _ hlater (.removed fun _ => ⟨hremove.1, by simpa using hremove.2⟩)
    · exact fun _ _ => .pure fun _ _ _ => trivial
  · exact .pure fun _ _ _ => trivial
  · apply Meets.lift_bind
    intro dated hdated
    apply Meets.lift_bind
    intro terminating hterminating
    apply Meets.lift_bind
    intro result hresult
    apply Meets.bind (P := fun _ _ _ => True)
    · apply meets_store
      · exact fun t hlater => h t _ hlater
          (.marked hkind (Bool.not_eq_true _ ▸ hrequested) hdated hterminating hresult)
      · exact fun _ _ _ _ _ _ _ _ _ _ _ => trivial
    · exact fun _ _ _ _ _ _ _ => .lift_bind fun _ _ => .pure fun _ _ _ => trivial

theorem meets_delete {options : Json}
    (h : ∀ seen t reg k stored obj c, Deletes C write options seen t reg k stored obj →
      DeleteCall fresh write k stored obj c → C.Permits Call.perform r seen t c) :
    Meets Call.perform C r (fun _ _ _ => True) (Handler.deleteWrite fresh write options) seen s := by
  unfold Handler.deleteWrite
  apply Meets.lift_bind
  intro k hk
  apply Meets.reading_bind
  intro stored reg hstored _ _ hpast
  apply Meets.lift_bind
  intro obj hobj
  apply Meets.lift_bind
  intro _ hnodes
  split_ifs with hprecondition hfinalizers hnamespace hpropagation
  · trivial
  · trivial
  all_goals
    have hchecked : ∀ u, C.rely reg u →
        Deletes C write options (seen ++ [.read .object reg]) u reg k stored obj := by
      intro u hlater
      refine ⟨hpast.mono (List.Subset.refl _) hlater, hk, fetch_ok.mp hstored, hobj, hnodes, ?_⟩
      intro field hfield
      rw [Bool.not_eq_true, List.any_eq_false] at hprecondition
      have hnone := hprecondition field hfield
      cases hv : options["preconditions"][field].asString with
      | none => rfl
      | some v => simpa [hv] using hnone
  · exact meets_deleteNamespace hnamespace fun t c hlater =>
      h _ t reg k stored obj c (hchecked t hlater)
  · trivial
  · apply meets_last
    · exact fun t hlater => h _ t reg k stored obj _ (hchecked t hlater)
        (.removed fun hkind => absurd hkind hnamespace)
    · exact fun _ _ => .pure fun _ _ _ => trivial

/-- What a binding has found, and the version it names. -/
structure Binding (C : Contract Registry Purpose Call ι) (target : Target) (value : Json)
    (seen : List Observed) (s reg : Registry) (k : StoreKey) (stored : Stored)
    (pod result : Json) (node : String) : Prop where
  past : C.Past seen s .object reg
  binds : Binds target reg k stored pod result node
  named : value["metadata"]["resourceVersion"].asString.all (· = toString stored.revision) = true

theorem meets_bind {target : Target}
    (h : ∀ seen t reg k stored pod result node,
      Binding C target value seen t reg k stored pod result node →
        C.Permits Call.perform r seen t (.update k result stored.revision)) :
    Meets Call.perform C r (fun _ _ _ => True) (Handler.bind lib target value) seen s := by
  unfold Handler.bind
  apply Meets.lift_bind
  intro _ _
  apply Meets.lift_bind
  intro node hnode
  apply Meets.lift_bind
  intro nodeKey _
  apply Meets.reading_bind
  intro _ _ _ _ _ _
  apply Meets.lift_bind
  intro k hk
  apply Meets.reading_bind
  intro stored reg hstored _ _ hpast
  apply Meets.lift_bind
  intro pod hpod
  split_ifs with hbound hprecondition
  · trivial
  · trivial
  apply Meets.lift_bind
  intro assigned hassigned
  dsimp only
  split_ifs with hgeneration
  · apply Meets.lift_bind
    intro result hresult
    apply meets_last
    · intro t hlater
      rw [not_or, not_not, Bool.not_eq_true] at hbound
      rw [not_or] at hprecondition
      refine h _ t reg k stored pod result node ⟨hpast.mono (List.Subset.refl _) hlater,
        ⟨hk, fetch_ok.mp hstored, hpod, hbound.1, hbound.2, assigned, _, hassigned, hresult⟩, ?_⟩
      cases hv : value["metadata"]["resourceVersion"].asString with
      | none => rfl
      | some v => simpa [hv] using hprecondition.2
    · exact fun _ _ => .pure fun _ _ _ => trivial
  · trivial

/-- The call that commits an object. -/
def commitCall (k : StoreKey) (value : Json) : Option ℕ → Call
  | some rv => .update k value rv
  | none => .create k value

theorem commitCall_brings (k : StoreKey) (value : Json) (expected : Option ℕ) :
    (commitCall k value expected).key = k ∧ (commitCall k value expected).brings = some value := by
  cases expected <;> exact ⟨rfl, rfl⟩

/-- A Namespace that has lost its last finalizer is removed by a second call. -/
theorem meets_persist {expected : Option ℕ}
    (hcommit : ∀ t, C.rely s t → C.Permits Call.perform r seen t (commitCall k value expected))
    (hremove : write.target.resource.kind = "Namespace" → ∀ rv t u v stored,
      expected = some rv → C.inv t → (Call.update k value rv).perform t = (.ok stored, u) →
      C.rely u v → deletionRequested value = true → finalizersPending value = false →
        C.Permits Call.perform r (seen ++ [.call (.update k value rv) t]) v
          (.delete k stored.revision)) :
    Meets Call.perform C r (fun _ _ _ => True) (Handler.persist write k value expected)
      seen s := by
  unfold Handler.persist
  cases expected with
  | none =>
    apply Meets.bind (P := fun _ _ _ => True)
    · exact meets_store hcommit fun _ _ _ _ _ _ _ _ _ _ _ => trivial
    · exact fun _ _ _ _ _ _ _ => .lift_bind fun _ _ => .pure fun _ _ _ => trivial
  | some rv =>
    apply Meets.bind (P := fun stored seen' v => ∃ t u, C.inv t ∧
      (Call.update k value rv).perform t = (.ok stored, u) ∧ C.rely u v ∧
        seen' = seen ++ [.call (.update k value rv) t])
    · apply meets_store hcommit
      exact fun t u stored ht _ _ hperform _ v _ hlater => ⟨t, u, ht, hperform, hlater, rfl⟩
    rintro stored _ v _ _ _ ⟨t, u, ht, hperform, hlater, rfl⟩
    split_ifs with hnamespace
    · apply Meets.lift_bind
      intro current hcurrent
      split_ifs with hdone
      · apply meets_last
        · intro w hw
          have hvalue : stored.value = value := by
            rw [(Call.update_ok hperform).2.1]
          rw [deletionRequested_object hcurrent, finalizersPending_object hcurrent, hvalue] at hdone
          exact hremove hnamespace rv t u w stored rfl ht hperform (C.trans hlater hw) hdone.1
            (by simpa using hdone.2)
        · exact fun _ _ => .pure fun _ _ _ => trivial
      · exact .lift_bind fun _ _ => .pure fun _ _ _ => trivial
    · exact .lift_bind fun _ _ => .pure fun _ _ _ => trivial

/-- A write is a binding, a deletion, or the admission and commit of a proposal. -/
theorem meets_execute
    (hbind : write.target.subresource = some "binding" →
      ∀ object seen t reg k stored pod result node,
        lib.decode body.bytes body.contentType = .ok object →
        Binding C write.target object seen t reg k stored pod result node →
          C.Permits Call.perform r seen t (.update k result stored.revision))
    (hdelete : write.target.subresource ≠ some "binding" → write.verb = "delete" →
      ∀ options seen t reg k stored obj c,
        lib.decode body.bytes body.contentType = .ok options →
        Deletes C write options seen t reg k stored obj →
        DeleteCall fresh write k stored obj c → C.Permits Call.perform r seen t c)
    (hfinish : write.target.subresource ≠ some "binding" → write.verb ≠ "delete" →
      ∀ seen t p, C.inv t → Proposed C lib fresh write query body seen t p →
        Meets Call.perform C r (fun _ _ _ => True)
          (Handler.finish lib fresh write p.key p.value p.old p.ns) seen t) :
    Meets Call.perform C r (fun _ _ _ => True) (Handler.execute lib fresh write query body)
      seen s := by
  apply Meets.of_later
  intro s hs _
  unfold Handler.execute
  split_ifs with hdry hbinding hnode hverb
  · trivial
  · trivial
  · apply Meets.lift_bind
    intro object hobject
    exact meets_bind fun seen t reg k stored pod result node =>
      hbind hbinding object seen t reg k stored pod result node hobject
  · apply Meets.lift_bind
    intro options hoptions
    exact meets_delete fun seen t reg k stored obj c =>
      hdelete hbinding hverb options seen t reg k stored obj c hoptions
  apply Meets.lift_bind
  intro options hoptions
  cases options with
  | some options =>
    dsimp only
    unfold Handler.applyWrite
    split_ifs with hsub
    · trivial
    apply Meets.lift_bind
    intro value hvalue
    apply Meets.reading_bind
    intro decoded ns hdecoded _ _ hns
    apply Meets.reading_bind
    intro old reg hold hreg hlater hpast
    apply Meets.lift_bind
    intro merged hmerged
    apply Meets.lift_bind
    intro prepared hprepared
    exact hfinish hbinding hverb _ reg ⟨prepared, decoded.key, old, decoded.ns⟩ hreg
      (.applied hoptions (Bool.not_eq_true _ ▸ hsub) hvalue
        (hns.mono (List.subset_append_left _ _) hlater) hdecoded hpast hold hmerged hprepared rfl rfl)
  | none =>
    dsimp only
    apply Meets.bind meets_decode
    intro decoded seen t _ _ _ hdecoded
    apply Meets.reading_bind
    rintro ⟨value, old⟩ reg hvalue hreg hlater hpast
    apply Meets.lift_bind
    intro prepared hprepared
    exact hfinish hbinding hverb _ reg ⟨prepared, decoded.key, old, decoded.ns⟩ hreg
      (.written hoptions (hdecoded.mono (List.subset_append_left _ _) hlater) hpast hvalue
        hprepared rfl rfl)

/-! ## Admission -/

variable {old ns : Option Json}

/-- Admission goes through the rules of the kind and the node's address range; what the first
leaves must withstand the steps of others. -/
theorem meets_admit {K Q : Json → List Observed → Registry → Prop}
    (hkind : ∀ completed account seen' t, seen ⊆ seen' → C.inv t → C.rely s t →
      serviceAccountStep fresh write value account = .ok completed →
        Meets Call.perform C r K (Handler.kindStep lib fresh write completed old ns) seen' t)
    (hkeep : ∀ result seen seen' t u, seen ⊆ seen' → C.rely t u → K result seen t →
      K result seen' u)
    (hcidr : ∀ result seen' t, seen ⊆ seen' → C.inv t → C.rely s t → K result seen' t →
      nodesAdmit write.user write.target write.verb result old = .ok () →
        Meets Call.perform C r (fun _ => Q result) (Handler.cidrStep lib write k result old)
          seen' t)
    (hstable : ∀ result seen t u, C.rely t u → Q result seen t → Q result seen u) :
    Meets Call.perform C r Q (Handler.admitWrite lib fresh write k value old ns) seen s := by
  unfold Handler.admitWrite
  apply Meets.reading_bind
  intro completed account hcompleted haccount hlater₁ _
  have hsub₁ : seen ⊆ seen ++ [.read .account account] := List.subset_append_left _ _
  apply Meets.bind (hkind completed account _ account hsub₁ haccount hlater₁ hcompleted)
  intro result seen₂ t₂ _ hlater₂ hsub₂ hK
  apply Meets.reading_bind
  intro _ roles _ hroles hlater₃ _
  have hsub₃ : seen₂ ⊆ seen₂ ++ [.read .roles roles] := List.subset_append_left _ _
  apply Meets.lift_bind
  intro _ hnodes
  apply Meets.lift_bind
  intro _ _
  apply Meets.bind (hcidr result _ roles
    (List.Subset.trans hsub₁ (List.Subset.trans hsub₂ hsub₃)) hroles
    (C.trans hlater₁ (C.trans hlater₂ hlater₃)) (hkeep result _ _ _ _ hsub₃ hlater₃ hK) hnodes)
  intro _ seen₄ t₄ _ _ _ hQ
  exact .pure fun u _ hlater => hstable result _ _ _ hlater hQ

/-- Most writes are taken as they come. -/
theorem meets_kind_plain (h : write.target.subresource.isSome = true ∨
    (write.target.resource.kind ≠ "Service" ∧
      (write.target.resource.kind ≠ "PersistentVolumeClaim" ∨ old.isSome = true))) :
    Meets Call.perform C r (fun result _ _ => result = value)
      (Handler.kindStep lib fresh write value old ns) seen s := by
  have hkept : Meets Call.perform C r (fun result _ _ => result = value)
      (pure value : Handler Json) seen s := .pure fun _ _ _ => rfl
  unfold Handler.kindStep
  by_cases hsub : write.target.subresource.isSome
  · rw [if_pos hsub]
    exact hkept
  rw [if_neg hsub]
  have hplain := h.resolve_left hsub
  split
  · exact .lift_bind fun _ _ => hkept
  · cases ns with
    | none => trivial
    | some ns => exact .lift_bind fun _ _ => .lift_bind fun _ _ => hkept
  · rename_i hkind
    exact absurd hkind hplain.1
  · rename_i hkind
    have hsome := hplain.2.resolve_left fun hne => hne hkind
    rw [if_neg (by simpa using Option.isSome_iff_ne_none.mp hsome)]
    exact hkept
  · exact hkept

/-- A Service gets its addresses from the Services it finds. -/
theorem meets_kind_service (hsub : write.target.subresource = none)
    (hkind : write.target.resource.kind = "Service") :
    Meets Call.perform C r (fun result seen t => ∃ reg spec, C.Past seen t .services reg ∧
        lib.rules.assign reg (value["metadata"]["uid"].asString.getD "") value["spec"]
          (old.map fun o => o["spec"]) = .ok spec ∧ setAt value ["spec"] spec = .ok result)
      (Handler.kindStep lib fresh write value old ns) seen s := by
  unfold Handler.kindStep
  rw [if_neg (by simp [hsub]), hkind]
  apply Meets.reading_bind
  intro spec reg hspec _ _ hpast
  apply Meets.lift
  exact fun result u hresult _ hlater =>
    ⟨reg, spec, hpast.mono (List.Subset.refl _) hlater, hspec, hresult⟩

theorem kindStep_claim (hsub : write.target.subresource = none)
    (hkind : write.target.resource.kind = "PersistentVolumeClaim") :
    Handler.kindStep lib fresh write value none ns = Handler.claimBind fresh lib.rules value := by
  unfold Handler.kindStep
  rw [if_neg (by simp [hsub]), hkind]
  rfl

/-- The rules of the kinds: a Service gets its addresses, a new claim is bound, and any other
object is taken as it comes. -/
theorem meets_kind {P : Json → List Observed → Registry → Prop}
    (hplain : ∀ seen t, P value seen t)
    (hservice : write.target.subresource = none → write.target.resource.kind = "Service" →
      ∀ seen t reg spec result, C.Past seen t .services reg →
        lib.rules.assign reg (value["metadata"]["uid"].asString.getD "") value["spec"]
          (old.map fun o => o["spec"]) = .ok spec → setAt value ["spec"] spec = .ok result →
            P result seen t)
    (hclaim : write.target.subresource = none →
      write.target.resource.kind = "PersistentVolumeClaim" → old = none →
        Meets Call.perform C r P (Handler.claimBind fresh lib.rules value) seen s) :
    Meets Call.perform C r P (Handler.kindStep lib fresh write value old ns) seen s := by
  by_cases h : write.target.subresource.isSome = true ∨
      (write.target.resource.kind ≠ "Service" ∧
        (write.target.resource.kind ≠ "PersistentVolumeClaim" ∨ old.isSome = true))
  · apply (meets_kind_plain h).weaken
    rintro result seen t _ rfl
    exact hplain seen t
  rw [not_or, Bool.not_eq_true, Option.isSome_eq_false_iff, Option.isNone_iff_eq_none] at h
  obtain ⟨hsub, hkinds⟩ := h
  by_cases hkind : write.target.resource.kind = "Service"
  · apply (meets_kind_service hsub hkind).weaken
    rintro result seen t _ ⟨reg, spec, hpast, hspec, hresult⟩
    exact hservice hsub hkind seen t reg spec result hpast hspec hresult
  · rw [not_and, not_or, not_not] at hkinds
    obtain ⟨hkind, hold⟩ := hkinds hkind
    rw [Bool.not_eq_true, Option.isSome_eq_false_iff, Option.isNone_iff_eq_none] at hold
    subst hold
    rw [kindStep_claim hsub hkind]
    exact hclaim hsub hkind rfl

/-- What a claim that is created has become, by what its handler has seen. -/
inductive Claiming (C : Contract Registry Purpose Call ι) (rules : SpecRules) (fresh : Fresh)
    (value : Json) (seen : List Observed) (s : Registry) : Json → Prop
  | pending : value["spec"]["volumeName"].asString.getD "" = "" →
      Claiming C rules fresh value seen s value
  | named {result : Json} {ns requested : String} {reg : Registry} :
      value["spec"]["volumeName"].asString.getD "" = requested → requested ≠ "" →
      value["metadata"]["namespace"] = .string ns → C.Past seen s .volume reg →
      bindNamed reg value ns (value["metadata"]["uid"].asString.getD "") requested = .ok result →
      Claiming C rules fresh value seen s result
  | provisioned {result storageClass : Json} {ns name uid : String} {storage : ℤ} {k : StoreKey}
      {t : Registry} :
      value["spec"]["volumeName"].asString.getD "" = "" →
      value["metadata"]["namespace"] = .string ns → value["metadata"]["name"] = .string name →
      value["metadata"]["uid"].asString.getD "" = uid →
      Server.key ("/registry/persistentvolumes/" ++ ("pvc-" ++ uid)) = .ok k → C.inv t →
      C.rely ((Call.create k
        (provisioned fresh value storageClass ns name uid storage)).perform t).2 s →
      bound value (provisioned fresh value storageClass ns name uid storage) ("pvc-" ++ uid) =
        .ok result →
      Claiming C rules fresh value seen s result

theorem Claiming.mono {rules : SpecRules} {result : Json}
    (h : Claiming C rules fresh value seen s result) (hseen : seen ⊆ seen') (hrely : C.rely s t) :
    Claiming C rules fresh value seen' t result := by
  cases h with
  | pending hnone => exact .pending hnone
  | named hrequested hne hns hpast hbound =>
    exact .named hrequested hne hns (hpast.mono hseen hrely) hbound
  | provisioned hnone hns hname huid hk hinv hlater hbound =>
    exact .provisioned hnone hns hname huid hk hinv (C.trans hlater hrely) hbound

/-- The one call that binding a claim makes creates its volume. -/
theorem meets_claim {rules : SpecRules}
    (hcreate : ∀ seen t storageClass ns name uid storage k, value["metadata"]["uid"].asString.getD "" =
      uid → Server.key ("/registry/persistentvolumes/" ++ ("pvc-" ++ uid)) = .ok k →
        C.Permits Call.perform r seen t
          (.create k (provisioned fresh value storageClass ns name uid storage))) :
    Meets Call.perform C r (fun result seen t => Claiming C rules fresh value seen t result)
      (Handler.claimBind fresh rules value) seen s := by
  unfold Handler.claimBind
  apply Meets.lift_bind
  intro ns hns
  apply Meets.lift_bind
  intro name hname
  have hnamespace := requiredText_ok hns
  have hclaim := requiredText_ok hname
  dsimp only
  split_ifs with hrequested
  · apply Meets.reading
    intro result reg u hbound _ _ hpast
    exact .named rfl hrequested hnamespace hpast hbound
  have hnone := not_not.mp hrequested
  apply Meets.reading_bind
  intro found reg _ hreg _ _
  cases found with
  | none => exact .pure fun _ _ _ => .pending hnone
  | some storageClass =>
    dsimp only
    cases value["spec"]["resources"]["requests"]["storage"].asString.bind rules.quantity with
    | none => trivial
    | some storage =>
      dsimp only
      unfold Handler.createVolume
      apply Meets.bind (P := fun _ _ t => ∃ k u, Server.key ("/registry/persistentvolumes/" ++
        ("pvc-" ++ value["metadata"]["uid"].asString.getD "")) = .ok k ∧ C.inv u ∧
          C.rely ((Call.create k (provisioned fresh value storageClass ns name
            (value["metadata"]["uid"].asString.getD "") storage)).perform u).2 t)
      · apply Meets.lift_bind
        intro k hk
        apply Meets.call
        · exact fun t _ => hcreate _ t storageClass ns name _ storage k rfl hk
        · intro t ht _ _ hallows
          have hafter : ∀ v, C.inv v → C.rely ((Call.create k (provisioned fresh value storageClass
              ns name (value["metadata"]["uid"].asString.getD "") storage)).perform t).2 v →
              ∃ k u, Server.key ("/registry/persistentvolumes/" ++
                ("pvc-" ++ value["metadata"]["uid"].asString.getD "")) = .ok k ∧ C.inv u ∧
                C.rely ((Call.create k (provisioned fresh value storageClass ns name
                  (value["metadata"]["uid"].asString.getD "") storage)).perform u).2 v :=
            fun v _ hlater => ⟨k, t, hk, ht, hlater⟩
          split
          · exact .pure hafter
          · exact .pure hafter
          · trivial
      · rintro _ seen' t _ _ _ ⟨k, u, hk, hu, hlater⟩
        apply Meets.lift
        intro result v hbound _ hafter
        exact .provisioned hnone hnamespace hclaim rfl hk hu (C.trans hlater hafter) hbound

/-- The one call that a Node's address range makes replaces the ledger it has read. -/
theorem meets_cidr
    (hupdate : write.target.resource.kind = "Node" → ∀ seen t reg ledgerKey' saved ledger,
      Server.key ledgerKey = .ok ledgerKey' → C.Past seen t .ledger reg → reg.get ledgerKey' = some saved →
        C.Permits Call.perform r seen t (.update ledgerKey' ledger saved.revision)) :
    Meets Call.perform C r (fun _ _ _ => True) (Handler.cidrStep lib write k value old)
      seen s := by
  unfold Handler.cidrStep
  split_ifs with hkind
  · cases lib.reserve with
    | none => exact .pure fun _ _ _ => trivial
    | some reserve =>
      apply Meets.reading_bind
      intro _ _ _ _ _ _
      unfold Handler.cidrAdmit
      apply Meets.lift_bind
      intro cidr _
      cases cidr with
      | none => exact .pure fun _ _ _ => trivial
      | some cidr =>
        apply Meets.lift_bind
        intro ledgerKey hledgerKey
        apply Meets.reading_bind
        intro saved reg hsaved _ _ hpast
        have hget : reg.get ledgerKey = some saved := by
          cases hfound : reg.get ledgerKey with
          | none =>
            rw [hfound] at hsaved
            cases hsaved
          | some found =>
            rw [hfound] at hsaved
            rw [Except.ok.inj hsaved]
        apply Meets.lift_bind
        intro ledger _
        cases ledger with
        | none => exact .pure fun _ _ _ => trivial
        | some ledger =>
          apply meets_last
          · exact fun t hlater => hupdate hkind _ t reg ledgerKey saved ledger hledgerKey
              (hpast.mono (List.Subset.refl _) hlater) hget
          · exact fun _ _ => .pure fun _ _ _ => trivial
  · exact .pure fun _ _ _ => trivial

end

/-! ## Which keys a handler writes -/

/-- A request for a write, as it was routed. -/
structure Submitted where
  fresh : Fresh
  write : Write
  query : Query
  body : Body
  valid : write.target.Valid
  placed : write.target.ns.isSome = write.target.resource.namespaced

def Submitted.handler (lib : Libraries) (q : Submitted) : Handler Response :=
  Handler.execute lib q.fresh q.write q.query q.body

/-- The keys of the endpoint, the volumes of a claim and the ledger of a Node. -/
def OwnKey (write : Write) (k : StoreKey) : Prop :=
  Family write.target.resource.plural k ∨
    (write.target.resource.kind = "PersistentVolumeClaim" ∧ Family "persistentvolumes" k) ∨
    (write.target.resource.kind = "Node" ∧ Family "h3s-node-cidrs" k)

theorem OwnKey.plural {write : Write} {k : StoreKey} {plural : String} (hvalid : write.target.Valid)
    (hslash : '/' ∉ plural.toList) (h : OwnKey write k) (hk : Family plural k) :
    write.target.resource.plural = plural ∨
      (write.target.resource.kind = "PersistentVolumeClaim" ∧ "persistentvolumes" = plural) ∨
        (write.target.resource.kind = "Node" ∧ "h3s-node-cidrs" = plural) := by
  rcases h with h | ⟨hkind, h⟩ | ⟨hkind, h⟩
  · exact Or.inl (Family.unique (slash_notMem_plural hvalid.served) hslash h hk)
  · exact Or.inr (Or.inl ⟨hkind, Family.unique (by decide) hslash h hk⟩)
  · exact Or.inr (Or.inr ⟨hkind, Family.unique (by decide) hslash h hk⟩)

/-- The contract that only says where calls are made. -/
def keysContract : Contract Registry Purpose Call Submitted :=
  .only fun q _ _ c => OwnKey q.write c.key

section

variable {lib : Libraries} {q : Submitted} {value : Json} {seen : List Observed} {s : Registry}

theorem keys_permit {c : Call} (h : OwnKey q.write c.key) :
    keysContract.Permits Call.perform q seen s c := fun _ _ => ⟨h, trivial, trivial⟩

theorem meets_claim_keys (hkind : q.write.target.resource.kind = "PersistentVolumeClaim") :
    Meets Call.perform keysContract q (fun _ _ _ => True)
      (Handler.claimBind q.fresh lib.rules value) seen s := by
  apply Meets.weaken (meets_claim _) fun _ _ _ _ _ => trivial
  intro _ _ _ _ _ uid _ k _ hk
  exact keys_permit (Or.inr (Or.inl ⟨hkind, "pvc-" ++ uid, key_ok.mp hk⟩))

theorem meets_kind_keys {old ns : Option Json} :
    Meets Call.perform keysContract q (fun _ _ _ => True)
      (Handler.kindStep lib q.fresh q.write value old ns) seen s := by
  apply meets_kind
  · exact fun _ _ => trivial
  · exact fun _ _ _ _ _ _ _ _ _ _ => trivial
  · exact fun _ hkind _ => meets_claim_keys hkind

theorem meets_cidr_keys {k : StoreKey} {old : Option Json} :
    Meets Call.perform keysContract q (fun _ _ _ => True)
      (Handler.cidrStep lib q.write k value old) seen s := by
  apply meets_cidr
  intro hkind _ _ _ _ _ _ hk _ _
  exact keys_permit (Or.inr (Or.inr ⟨hkind, "allocations", key_ok.mp hk⟩))

/-- A handler writes its own resource, and what belongs to a claim or a Node. -/
theorem handler_keys :
    Meets Call.perform keysContract q (fun _ _ _ => True) (q.handler lib) seen s := by
  apply meets_execute
  · intro _ object seen t reg k stored pod result node _ hbinding
    obtain ⟨name, _, hk⟩ := named_ok.mp hbinding.binds.key
    exact keys_permit (Or.inl (family_pathPrefix hk))
  · intro _ _ options seen t reg k stored obj c _ hdeletes hcall
    obtain ⟨name, _, hk⟩ := named_ok.mp hdeletes.key
    apply keys_permit
    rw [hcall.key]
    exact Or.inl (family_pathPrefix hk)
  · intro _ _ seen t p _ hp
    obtain ⟨name, hk, _⟩ := hp.key
    have hown : OwnKey q.write p.key := Or.inl (family_pathPrefix hk)
    apply Meets.bind (P := fun _ _ _ => True)
    · apply meets_admit (K := fun _ _ _ => True) (Q := fun _ _ _ => True)
      · exact fun _ _ _ _ _ _ _ _ => meets_kind_keys
      · exact fun _ _ _ _ _ _ _ _ => trivial
      · exact fun _ _ _ _ _ _ _ _ => meets_cidr_keys
      · exact fun _ _ _ _ _ _ => trivial
    · intro value seen' t' _ _ _ _
      apply meets_persist
      · intro u _
        apply keys_permit
        cases p.old.map Prod.fst <;> exact hown
      · intro _ rv _ _ _ stored _ _ _ _ _ _
        exact keys_permit hown

/-- A handler meets every contract that its calls, by their keys, cannot break. -/
theorem handler_frame {ι : Type} {C : Contract Registry Purpose Call ι} {r : ι}
    (h : ∀ seen s c, OwnKey q.write c.key → C.Permits Call.perform r seen s c) :
    Meets Call.perform C r (fun _ _ _ => True) (q.handler lib) seen s := by
  have hkeys : Meets Call.perform keysContract q (fun _ _ _ => True) (q.handler lib) seen s :=
    handler_keys
  apply hkeys.mono
  · exact fun _ _ => trivial
  · exact fun _ _ _ => trivial
  · exact fun _ _ _ _ _ => trivial
  · exact fun seen s c hs hguard hkey => h seen s c hkey hs hguard

end

end Hedronetes.Server
