import Hedronetes.Scheduler.Bindings
import Hedronetes.Server.ServiceAddresses

/-!
# Conditions that are written

A condition is written to the status of a Pod in the version that was read. The server takes the
specification from what is stored, and the phase is the one that was read, so that the Pod stays on
its node and, if it is finished, stays so.
-/

namespace Hedronetes.Scheduler

open Server Apply Auth Interleaving Relation
open Controllers (Client pods)
open Storage (StoreKey startsWith)

/-- The typed Pod keeps its phase. -/
def KeepsPhase (lib : Libraries) : Prop :=
  ∀ resource value result, resource.kind = "Pod" → lib.normalize resource value = .ok result →
    result["status"]["phase"].asString = value["status"]["phase"].asString

/-- Every object keeps its specification, and one that is finished stays so. -/
def Still (s t : Registry) : Prop :=
  ∀ k o', t.get k = some o' → ∃ o, s.get k = some o ∧ o'.value["spec"] = o.value["spec"] ∧
    (terminal o.value = true → terminal o'.value = true)

section

variable {A : Accounting} {allocatable : String → Option Resources} {rfc3339 : String → Option ℤ}
  {moment : ℕ → Moment} {start s t u : Registry} {objects : List Json} {seen : List Observed}
  {k : StoreKey} {stored : Stored} {p placed result value v old next : Json} {index : ℕ} {c : Call}

theorem Still.refl (s : Registry) : Still s s := fun _ o' h => ⟨o', h, rfl, fun h => h⟩

theorem Still.put (hget : s.get k = some stored) (hspec : v["spec"] = stored.value["spec"])
    (hterminal : terminal stored.value = true → terminal v = true) : Still s (s.put k v) := by
  intro k' o' hafter
  by_cases hk : k' = k
  · subst hk
    rw [Registry.get_put] at hafter
    obtain rfl := Option.some.inj hafter
    exact ⟨stored, hget, hspec, hterminal⟩
  · rw [Registry.get_put_ne hk] at hafter
    exact ⟨o', hafter, rfl, fun h => h⟩

theorem Still.quiet (h : Still s t) : A.Quiet s t := by
  intro k o' _ hget name hcounts
  obtain ⟨o, hbefore, hspec, hterminal⟩ := h k o' hget
  refine ⟨o, hbefore, ⟨by rw [← hspec, hcounts.1], ?_⟩, A.spec _ _ hspec⟩
  rw [← Bool.not_eq_true]
  intro hfinished
  exact absurd (hterminal hfinished) (by rw [hcounts.2]; decide)

theorem Still.sound (h : Still s (c.perform s).2) :
    Sound A allocatable rfc3339 moment seen s c where
  within _ _ _ hwithin := h.quiet.load_le.trans hwithin
  suited k name hplaces := by
    obtain ⟨o', hafter, hnode⟩ := hplaces.after
    obtain ⟨o, hbefore, hspec, -⟩ := h k o' hafter
    rw [hspec] at hnode
    exact absurd hnode (hplaces.before o hbefore)

theorem Reckoned.still (h : Reckoned A allocatable start objects s)
    (hkey : startsWith podsPath c.key = true) (hstill : Still s (c.perform s).2) :
    Reckoned A allocatable start objects (c.perform s).2 where
  numbered := c.perform_numbered h.numbered
  later := h.later.trans (c.perform_later s)
  agrees := h.agrees.same ((c.perform_same s).weaken fun _ hk => hk ▸ hkey)
  covers name hname := hstill.quiet.load_le.trans (h.covers name hname)

/-! ## Writes of a status -/

variable {lib : Libraries} {client : Client lib} {fresh : Fresh} {write : Write} {reg : Registry}

/-- What is known after a Pod was read: the store goes on numbering its writes. -/
def statuses (reg : Registry) : Contract Registry Purpose Call Unit where
  inv t := Numbered t ∧ Later reg t
  rely := Later
  guard _ _ _ _ := True
  ensures _ _ s c := startsWith podsPath c.key = true ∧ Still s (c.perform s).2
  refl := Later.refl
  trans := Later.trans

variable {ns name : String} {proposal : Proposal}

/-- A request that writes the status of a Pod. -/
structure WritesStatus (write : Write) : Prop where
  resource : write.target.resource = pods
  subresource : write.target.subresource = some "status"
  verb : write.verb = "update"

/-- A Pod that was read, as it is sent with other conditions. -/
structure Restated (reg : Registry) (k : StoreKey) (stored : Stored) (p next : Json) : Prop where
  numbered : Numbered reg
  listed : startsWith podsPath k = true
  found : reg.get k = some stored
  reads : object stored = .ok p
  restates : ∃ conditions, setAt p ["status", "conditions"] conditions = .ok next

theorem Restated.version (h : Restated reg k stored p next) :
    next["metadata"]["resourceVersion"] = .string (toString stored.revision) := by
  obtain ⟨conditions, hnext⟩ := h.restates
  rw [getElem_setAt_ne hnext (by decide)]
  exact object_revision h.reads

theorem Restated.phase (h : Restated reg k stored p next) :
    next["status"]["phase"] = stored.value["status"]["phase"] := by
  obtain ⟨conditions, hnext⟩ := h.restates
  rw [getElem_setAt_ne (getElem_setAt_step hnext) (by decide), object_ne h.reads (by decide)]

/-- What is proposed differs from what is stored in its status, and not in its phase. -/
theorem Restated.proposed (h : Restated reg k stored p next) (hwrite : WritesStatus write)
    (hversion : KeepsVersion lib) (hphase : KeepsPhase lib)
    (hp : Proposed (statuses reg) lib fresh write ⟨[], []⟩ (client.body next) seen s proposal) :
    proposal.key = k ∧ proposal.old.map Prod.fst = some stored.revision ∧
      proposal.value["spec"] = stored.value["spec"] ∧
        terminal proposal.value = terminal stored.value := by
  have hpod : write.target.resource.kind = "Pod" := by rw [hwrite.resource]; rfl
  have hplain : write.target.resource.kind ≠ "ConfigMap" ∧
      write.target.resource.kind ≠ "Secret" := by
    rw [hpod]
    decide
  have hold := Controllers.proposed_version hversion hwrite.verb hplain hp h.version
  cases hp with
  | applied hoptions =>
    have hnone := hoptions.symm.trans Controllers.plain_options
    cases hnone
  | @written decoded value reg' _ hdecoded hpast hvalue hprepared hkey _ =>
    cases hdecoded with
    | patch hpatch =>
      rw [hwrite.verb] at hpatch
      exact absurd hpatch (by decide)
    | whole _ hread _ hnormalized =>
      obtain rfl := client.decodes hread
      rcases (concurrency_ok hvalue).2 with ⟨hupdate, _⟩ | ⟨_, rv, current, hfound, hreplaces⟩
      · exact absurd hwrite.verb hupdate
      obtain ⟨stored', hstored', hcurrent, hrevision, _⟩ := hreplaces.stored
      rw [hfound, Option.map_some, Option.some.injEq] at hold
      subst hold
      obtain ⟨hk, rfl⟩ := h.numbered.version hpast.inv.2 h.found hstored' hrevision
      rw [hfound] at hprepared
      have hprepare : prepare lib.rules write.target.resource value (some current) true =
          .ok proposal.value := by
        rw [← hprepared, Option.map_some, prepareWrite_eq _ _ hplain.2, hwrite.subresource]
        rfl
      refine ⟨hkey.trans hk, by rw [hfound]; rfl, ?_, ?_⟩
      · rw [prepare_status_spec hprepare, object_ne hcurrent (by decide)]
      · have hne : "status" ≠ "metadata" := by decide
        obtain ⟨typed, htyped, hstatus⟩ := normalized_ne hne hnormalized
        have hwritten : proposal.value["status"] = typed["status"] := by
          rw [prepare_status_ne (by decide) (by decide) hprepare,
            concurrency_ne (by decide) hvalue, hstatus]
        unfold terminal
        rw [hwritten, hphase _ _ _ hpod htyped, h.phase]

theorem Restated.still (h : Restated reg k stored p next) (hs : Numbered s ∧ Later reg s)
    (hspec : v["spec"] = stored.value["spec"]) (hterminal : terminal v = terminal stored.value) :
    Still s ((Call.update k v stored.revision).perform s).2 := by
  cases hget : s.get k with
  | none =>
    simp only [Call.perform, hget]
    exact .refl s
  | some current =>
    by_cases hrevision : current.revision = stored.revision
    · obtain ⟨-, rfl⟩ := h.numbered.version hs.2 h.found hget hrevision
      simp only [Call.perform, hget, if_true]
      exact .put hget hspec fun hfinished => hterminal.trans hfinished
    · simp only [Call.perform, hget, if_neg hrevision]
      exact .refl s

/-- Nothing but the status of the Pod is written. -/
theorem Restated.meets (h : Restated reg k stored p next) (hwrite : WritesStatus write)
    (hversion : KeepsVersion lib) (hphase : KeepsPhase lib) :
    Interleaving.Meets Call.perform (statuses reg) () (fun _ _ _ => True)
      (Handler.execute lib fresh write ⟨[], []⟩ (client.body next)) seen s := by
  apply meets_execute
  · intro hbinding
    rw [hwrite.subresource] at hbinding
    exact absurd hbinding (by decide)
  · intro _ hdelete
    rw [hwrite.verb] at hdelete
    exact absurd hdelete (by decide)
  intro _ _ seen t proposal _ hp
  obtain ⟨hk, hold, hspec, hterminal⟩ := h.proposed hwrite hversion hphase hp
  apply Interleaving.Meets.bind (P := fun result _ _ => result = proposal.value)
  · apply meets_admit (K := fun result _ _ => result = proposal.value)
    · intro completed account seen' u _ _ _ hcompleted
      unfold serviceAccountStep at hcompleted
      rw [hwrite.verb, if_neg fun h => absurd h.2 (by decide)] at hcompleted
      obtain rfl := Except.ok.inj hcompleted
      exact meets_kind_plain (.inl (by rw [hwrite.subresource]; rfl))
    · exact fun _ _ _ _ _ _ _ hresult => hresult
    · rintro result seen' u _ _ _ rfl _
      unfold Handler.cidrStep
      rw [hwrite.resource, if_neg (by decide)]
      exact .pure fun _ _ _ => rfl
    · exact fun _ _ _ _ _ hresult => hresult
  · rintro result seen' u _ _ _ rfl
    rw [hk, hold]
    apply meets_persist
    · intro u _ hu _
      exact ⟨⟨h.listed, h.still hu hspec hterminal⟩,
        ⟨Call.perform_numbered _ hu.1, hu.2.trans (Call.perform_later _ u)⟩, Call.perform_later _ u⟩
    · intro hnamespace
      rw [hwrite.resource] at hnamespace
      exact absurd hnamespace (by decide)

/-! ## Conditions -/

/-- A request whose answer is a failure of another kind ends the pass. -/
theorem does_sendOrSkip {B : Among Registry Purpose Call} {target : Target} {verb : String}
    {P : Except Stop Response → List Observed → Registry → Prop}
    {Q : Except Halt Bool → List Observed → Registry → Prop}
    (h : Does Call.perform B (fun result seen t => ∃ answer, result = .ok answer ∧ P answer seen t)
      (Pass.send client fresh target verb value) seen s)
    (hok : ∀ response seen t u, P (.ok response) seen t → ReflTransGen B.others t u →
      Q (.ok true) seen u)
    (hskip : ∀ stop seen t u, P (.error stop) seen t → ReflTransGen B.others t u →
      Q (.ok false) seen u)
    (hfail : ∀ stop seen t u, P (.error stop) seen t → ReflTransGen B.others t u →
      Q (.error (.api stop)) seen u) :
    Does Call.perform B Q (Pass.sendOrSkip client fresh target verb value) seen s := by
  apply h.bind
  · rintro result seen' t _ ⟨answer, hanswer, hpost⟩
    obtain rfl : result = answer := Except.ok.inj hanswer
    cases result with
    | ok response => exact .pure fun u hu => hok response seen' t u hpost hu
    | error stop =>
      dsimp only
      split_ifs
      · exact .pure fun u hu => hskip stop seen' t u hpost hu
      · exact .fail fun u hu => hfail stop seen' t u hpost hu
  · rintro e seen' t _ ⟨answer, hanswer, _⟩
    cases hanswer

theorem Restated.does {target : Target} {verb : String} (h : Restated reg k stored p next)
    (hwrite : WritesStatus ⟨client.user, target, verb⟩) (hversion : KeepsVersion lib)
    (hphase : KeepsPhase lib) (hlater : Later reg s)
    (hs : Reckoned A allocatable start objects s) :
    Does Call.perform (passing A allocatable rfc3339 moment)
      (fun result _ t => ∃ answer, result = .ok answer ∧ Reckoned A allocatable start objects t)
      (Pass.send client fresh target verb next) seen s := by
  unfold Pass.send
  apply Does.attempt (P := fun _ _ t => Reckoned A allocatable start objects t)
  · apply Does.of_meets (C := statuses reg)
    · exact h.meets hwrite hversion hphase
    · exact ⟨hs.numbered, hlater⟩
    · exact hs
    · exact fun _ _ ht hstep => ⟨hstep.numbered ht.1, ht.2.trans hstep.later⟩
    · exact fun _ _ hstep => hstep.later
    · exact fun _ _ _ => trivial
    · exact fun _ _ _ _ hstill => hstill.2.sound
    · exact fun _ _ ht hstep => ht.step hstep
    · exact fun _ _ _ ht _ hstill => ht.still hstill.1 hstill.2
  · exact fun answer _ _ ht => ⟨answer, rfl, ht⟩

/-- To write a condition changes nothing that the pass reckons with. -/
theorem does_condition {m : Moment} {scheduled : Bool} {reason : String}
    (hversion : KeepsVersion lib) (hphase : KeepsPhase lib) (hreg : Numbered reg)
    (hlater : Later reg s) (hlisted : startsWith podsPath k = true)
    (hfound : reg.get k = some stored) (hreads : object stored = .ok p)
    (hs : Reckoned A allocatable start objects s) :
    Does Call.perform (passing A allocatable rfc3339 moment)
      (fun _ _ t => Reckoned A allocatable start objects t)
      (condition client m ns p scheduled reason) seen s := by
  unfold condition
  cases conditions p["status"]["conditions"].items scheduled reason m.written with
  | none => exact .pure fun t ht => hs.others ht
  | some conditions =>
    apply Does.lift_bind _ fun _ t _ ht => hs.others ht
    intro next hnext
    have hrestated : Restated reg k stored p next :=
      ⟨hreg, hlisted, hfound, hreads, _, Fallible.mapError_eq_ok.mp hnext⟩
    have hstable : ∀ t u, Reckoned A allocatable start objects t →
        ReflTransGen (Unobtrusive A allocatable) t u → Reckoned A allocatable start objects u :=
      fun t u ht hu => ht.others hu
    have hsent : Does Call.perform (passing A allocatable rfc3339 moment)
        (fun _ _ t => Reckoned A allocatable start objects t)
        (Pass.sendOrSkip client m.status ⟨pods, some ns, some (nameAny next), some "status"⟩
          "update" next) seen s :=
      does_sendOrSkip (hrestated.does ⟨rfl, rfl, rfl⟩ hversion hphase hlater hs)
        (fun _ _ => hstable) (fun _ _ => hstable) (fun _ _ => hstable)
    apply hsent.bind
    · exact fun _ _ t _ ht => .pure fun u hu => ht.others hu
    · exact fun _ _ t _ ht => ht

end

end Hedronetes.Scheduler
