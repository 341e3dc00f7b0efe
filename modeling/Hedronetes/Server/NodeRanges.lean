import Hedronetes.Network.NodeCidrs
import Hedronetes.Server.Concurrent

/-!
# Node address ranges across servers

The ledger of Node ranges is one object and every Node is another. A write of a
Node reserves before it commits, and a server that starts imports what Nodes hold.
Whatever servers do in between, a Node that is there has its range in the ledger.
-/

namespace Hedronetes.Server

open FirstMatch Apply Auth Effects Interleaving Network Runs
open Storage (StoreKey startsWith)

/-! ## The ledger in the registry -/

def ledgerAt : StoreKey := ⟨ledgerKey, by decide +kernel⟩

def corrupt (message : String) : Stop := failure 500 "InternalError" message

section

variable (text : NetText) (configured : NodeCidrAllocations)

/-- A stored ledger that is valid and of the configured pool. -/
def readLedger (saved : Json) : Outcome NodeCidrAllocations :=
  match NodeCidrAllocations.ofJson saved with
  | none => .error (corrupt "invalid node CIDR ledger")
  | some state => do
    (state.validate text).mapError corrupt
    if state.clusterCidr ≠ configured.clusterCidr ∨ state.nodePrefix ≠ configured.nodePrefix then
      throw (corrupt "configured node CIDR pool differs from durable ledger")
    else return state

def load (reg : Registry) : Outcome NodeCidrAllocations :=
  match reg.get ledgerAt with
  | some saved => readLedger text configured saved.value
  | none => .error (corrupt "node CIDR ledger is missing")

/-- The reservation that admission makes in a stored ledger. -/
def reserveIn (saved : Json) (name cidr : String) : Outcome (Option Json) := do
  let state ← readLedger text configured saved
  match ← (state.reserve text name cidr).mapError invalid with
  | none => return none
  | some state => return some state.toJson

/-- Servers that allocate Node ranges from a configured pool. -/
def Libraries.withLedger (lib : Libraries) : Libraries :=
  { lib with reserve := some (reserveIn text configured) }

def importNode (state : NodeCidrAllocations) (saved : StoreKey × Stored) :
    Outcome NodeCidrAllocations := do
  let node ← object saved.2
  match ← nodeCidr node with
  | none => return state
  | some cidr =>
    match node["metadata"]["name"].asString with
    | none => throw (corrupt "stored Node name missing")
    | some name => do
      let reserved ← (state.reserve text name cidr).mapError invalid
      return reserved.getD state

/-- What all stored Nodes hold, in one snapshot. -/
def importNodes (state : NodeCidrAllocations) (reg : Registry) : Outcome NodeCidrAllocations :=
  (reg.list "/registry/nodes/").foldlM (importNode text) state

/-- A server that starts reads the ledger, imports the Nodes and commits what it found. -/
def initializeLedger : Handler Unit := do
  (configured.validate text).mapError invalid
  let existing ← Program.reading .ledger fun reg => .ok (reg.get ledgerAt)
  match existing with
  | some old => do
    let state ← Program.reading .ledger (load text configured)
    let state ← Program.reading .node (importNodes text state)
    if old.value ≠ state.toJson then
      let _ ← Handler.store (.update ledgerAt state.toJson old.revision)
      return ()
    else return ()
  | none => do
    let state ← Program.reading .node (importNodes text configured)
    let _ ← Handler.store (.create ledgerAt state.toJson)
    return ()

/-- A server starts, or takes a request, with the pool it is configured for. -/
inductive NodeRequest
  | start (configured : NodeCidrAllocations)
  | submit (configured : NodeCidrAllocations) (q : Submitted)

def NodeRequest.program (lib : Libraries) : NodeRequest → Handler Unit
  | start configured => initializeLedger text configured
  | submit configured q => do
    let _ ← q.handler (lib.withLedger text configured)
    return ()

end

/-! ## What holds between the writes -/

/-- The range a stored Node holds. -/
def podCidr (node : Json) : Option String := node["spec"]["podCIDR"].asString.filter (· ≠ "")

structure HoldsRange (reg : Registry) (k : StoreKey) (node : Stored) (cidr : String) : Prop where
  family : Family "nodes" k
  found : reg.get k = some node
  cidr : podCidr node.value = some cidr

/-- The range is reserved under the Node's own name. -/
def ReservedFor (state : NodeCidrAllocations) (node : Json) (cidr : String) : Prop :=
  ∃ name, node["metadata"]["name"] = .string name ∧ lookup name state.reservations = some cidr

/-- The stored ledger has the range under the Node's own name. -/
def ReservedAt (reg : Registry) (node : Json) (cidr : String) : Prop :=
  ∃ saved state, reg.get ledgerAt = some saved ∧
    NodeCidrAllocations.ofJson saved.value = some state ∧ ReservedFor state node cidr

structure Ledgered (text : NetText) (reg : Registry) (state : NodeCidrAllocations) : Prop where
  sound : state.Sound text
  covers : ∀ k node cidr, HoldsRange reg k node cidr → ReservedFor state node.value cidr

structure LedgerInv (text : NetText) (reg : Registry) : Prop where
  dated : Dated reg
  ledger : ∀ saved, reg.get ledgerAt = some saved →
    ∃ state, NodeCidrAllocations.ofJson saved.value = some state ∧ Ledgered text reg state

/-- Reservations stay, and without a ledger no Node gets a range. -/
structure Grows (reg reg' : Registry) : Prop where
  later : Later reg reg'
  kept : ∀ saved state, reg.get ledgerAt = some saved →
    NodeCidrAllocations.ofJson saved.value = some state → ∃ saved' state',
      reg'.get ledgerAt = some saved' ∧
        NodeCidrAllocations.ofJson saved'.value = some state' ∧ state.Extends state'
  stays : reg'.get ledgerAt = none → reg.get ledgerAt = none
  unpublished : reg'.get ledgerAt = none → ∀ k node cidr, HoldsRange reg' k node cidr →
    HoldsRange reg k node cidr

theorem Grows.refl (reg : Registry) : Grows reg reg where
  later := .refl reg
  kept saved state hsaved hstate := ⟨saved, state, hsaved, hstate, .refl state⟩
  stays h := h
  unpublished _ _ _ _ h := h

theorem Grows.trans {s t u : Registry} (h : Grows s t) (h' : Grows t u) : Grows s u where
  later := h.later.trans h'.later
  kept saved state hsaved hstate := by
    obtain ⟨saved₁, state₁, hsaved₁, hstate₁, hext⟩ := h.kept saved state hsaved hstate
    obtain ⟨saved₂, state₂, hsaved₂, hstate₂, hext'⟩ := h'.kept saved₁ state₁ hsaved₁ hstate₁
    exact ⟨saved₂, state₂, hsaved₂, hstate₂, hext.trans hext'⟩
  stays hnone := h.stays (h'.stays hnone)
  unpublished hnone k node cidr hrange :=
    h.unpublished (h'.stays hnone) k node cidr (h'.unpublished hnone k node cidr hrange)

def ledgerContract (text : NetText) : Contract Registry Purpose Call NodeRequest where
  inv := LedgerInv text
  rely := Grows
  guard _ _ _ _ := True
  ensures _ _ _ _ := True
  refl := .refl
  trans := .trans

variable {text : NetText} {configured state : NodeCidrAllocations} {reg reg' : Registry}
  {k : StoreKey} {value : Json} {c : Call} {r : NodeRequest} {seen : List Observed} {s : Registry}

theorem family_ledger : Family "h3s-node-cidrs" ledgerAt := ⟨"allocations", rfl⟩

theorem ledger_not_node : ¬ Family "nodes" ledgerAt := by
  intro h
  have := Family.unique (by decide) (by decide) h family_ledger
  revert this
  decide

/-- A change that leaves the ledger and does not bring a range that is not reserved. -/
theorem kept_ledger (hinv : LedgerInv text reg) (hdated : Dated reg') (hlater : Later reg reg')
    (hledger : reg'.get ledgerAt = reg.get ledgerAt)
    (hnodes : ∀ k node cidr, HoldsRange reg' k node cidr → HoldsRange reg k node cidr ∨
      ReservedAt reg node.value cidr) : LedgerInv text reg' ∧ Grows reg reg' := by
  refine ⟨⟨hdated, fun saved hsaved => ?_⟩, hlater, fun saved state hsaved hstate => ?_, ?_, ?_⟩
  · rw [hledger] at hsaved
    obtain ⟨state, hstate, hsound, hcovers⟩ := hinv.ledger saved hsaved
    refine ⟨state, hstate, hsound, fun k node cidr hrange => ?_⟩
    rcases hnodes k node cidr hrange with hold | ⟨saved', state', hsaved', hstate', hreserved⟩
    · exact hcovers k node cidr hold
    · rw [hsaved] at hsaved'
      cases hsaved'
      rw [hstate] at hstate'
      exact (Option.some.inj hstate') ▸ hreserved
  · exact ⟨saved, state, hledger.trans hsaved, hstate, .refl state⟩
  · intro hnone
    rw [← hledger, hnone]
  · intro hnone k node cidr hrange
    rcases hnodes k node cidr hrange with hold | ⟨saved', _, hsaved', _⟩
    · exact hold
    · rw [← hledger, hnone] at hsaved'
      cases hsaved'

/-- Calls at other keys touch neither Nodes nor the ledger. -/
theorem permits_elsewhere (hnode : ¬ Family "nodes" c.key) (hledger : c.key ≠ ledgerAt) :
    (ledgerContract text).Permits Call.perform r seen s c := by
  intro hinv _
  have hsame := c.perform_same s
  have hkept := kept_ledger hinv (c.perform_dated hinv.dated) (c.perform_later s)
    (hsame ledgerAt fun h => hledger h.symm) fun k node cidr hrange => by
      left
      refine ⟨hrange.family, ?_, hrange.cidr⟩
      rw [← hsame k, hrange.found]
      rintro rfl
      exact hnode hrange.family
  exact ⟨trivial, hkept.1, hkept.2⟩

theorem ReservedFor.mono {state' : NodeCidrAllocations} {cidr : String}
    (h : ReservedFor state value cidr) (hext : state.Extends state') :
    ReservedFor state' value cidr := by
  obtain ⟨name, hname, hlookup⟩ := h
  exact ⟨name, hname, hext.kept name cidr hlookup⟩

theorem ReservedAt.mono {cidr : String} (h : ReservedAt reg value cidr) (hgrows : Grows reg reg') :
    ReservedAt reg' value cidr := by
  obtain ⟨saved, state, hsaved, hstate, hreserved⟩ := h
  obtain ⟨saved', state', hsaved', hstate', hext⟩ := hgrows.kept saved state hsaved hstate
  exact ⟨saved', state', hsaved', hstate', hreserved.mono hext⟩

/-- A Node may be written when its range is reserved, and removed at any time. -/
theorem permits_node (hnode : Family "nodes" c.key)
    (hwrite : ∀ v cidr, c.brings = some v → podCidr v = some cidr → ReservedAt s v cidr) :
    (ledgerContract text).Permits Call.perform r seen s c := by
  intro hinv _
  have hledger : ledgerAt ≠ c.key := by
    rintro h
    exact ledger_not_node (h ▸ hnode)
  have hkept := kept_ledger hinv (c.perform_dated hinv.dated) (c.perform_later s)
    (c.perform_same s ledgerAt hledger) fun k node cidr hrange => by
      rcases Call.perform_get hrange.found with hold | ⟨rfl, hbrings⟩
      · exact Or.inl ⟨hrange.family, hold, hrange.cidr⟩
      · exact Or.inr (hwrite node.value cidr hbrings hrange.cidr)
  exact ⟨trivial, hkept.1, hkept.2⟩

theorem put_ledger (hdated : Dated reg) (hstate : Ledgered text reg state) :
    LedgerInv text (reg.put ledgerAt state.toJson) := by
  refine ⟨hdated.put _ _, fun saved hsaved => ?_⟩
  rw [Registry.get_put] at hsaved
  cases hsaved
  refine ⟨state, NodeCidrAllocations.ofJson_toJson hstate.sound, hstate.sound,
    fun k node cidr hrange => hstate.covers k node cidr ⟨hrange.family, ?_, hrange.cidr⟩⟩
  rw [← hrange.found, Registry.get_put_ne]
  rintro rfl
  exact ledger_not_node hrange.family

/-- A new ledger that extends the one it replaces and covers the Nodes that are there. -/
theorem commits_ledger (hinv : LedgerInv text reg) (hstate : Ledgered text reg state)
    (hext : ∀ saved old, reg.get ledgerAt = some saved →
      NodeCidrAllocations.ofJson saved.value = some old → old.Extends state) :
    LedgerInv text (reg.put ledgerAt state.toJson) ∧
      Grows reg (reg.put ledgerAt state.toJson) := by
  refine ⟨put_ledger hinv.dated hstate, .put _ _ _, fun saved old hsaved hold => ?_,
    fun hnone => ?_, fun hnone => ?_⟩
  · exact ⟨_, state, Registry.get_put _ _ _, NodeCidrAllocations.ofJson_toJson hstate.sound,
      hext saved old hsaved hold⟩
  · rw [Registry.get_put] at hnone
    cases hnone
  · rw [Registry.get_put] at hnone
    cases hnone

theorem permits_ledger_update {rv : ℕ}
    (h : ∀ saved old, s.get ledgerAt = some saved → saved.revision = rv →
      NodeCidrAllocations.ofJson saved.value = some old → Ledgered text s old →
        state.Sound text ∧ old.Extends state) :
    (ledgerContract text).Permits Call.perform r seen s (.update ledgerAt state.toJson rv) := by
  intro hinv _
  have hperformed := (Call.update ledgerAt state.toJson rv).performed s
  cases hp : (Call.update ledgerAt state.toJson rv).perform s with
  | mk reply after =>
    rw [hp] at hperformed
    cases hperformed with
    | refused => exact ⟨trivial, hp ▸ hinv, hp ▸ .refl s⟩
    | @updated _ _ current hcurrent =>
      obtain ⟨old, hold, hledgered⟩ := hinv.ledger current hcurrent
      obtain ⟨hsound, hext⟩ := h current old hcurrent rfl hold hledgered
      have hcommit := commits_ledger hinv ⟨hsound, fun k node cidr hrange =>
        (hledgered.covers k node cidr hrange).mono hext⟩ fun saved' old' hsaved' hold' => by
          rw [hcurrent] at hsaved'
          cases hsaved'
          rw [hold] at hold'
          exact (Option.some.inj hold') ▸ hext
      exact ⟨trivial, hp ▸ hcommit.1, hp ▸ hcommit.2⟩

theorem permits_ledger_create (h : s.get ledgerAt = none → Ledgered text s state) :
    (ledgerContract text).Permits Call.perform r seen s (.create ledgerAt state.toJson) := by
  intro hinv _
  have hperformed := (Call.create ledgerAt state.toJson).performed s
  cases hp : (Call.create ledgerAt state.toJson).perform s with
  | mk reply after =>
    rw [hp] at hperformed
    cases hperformed with
    | refused => exact ⟨trivial, hp ▸ hinv, hp ▸ .refl s⟩
    | created hnone =>
      have hcommit := commits_ledger hinv (h hnone) fun saved old hsaved _ => by
        rw [hnone] at hsaved
        cases hsaved
      exact ⟨trivial, hp ▸ hcommit.1, hp ▸ hcommit.2⟩

/-! ## Admission of a Node -/

theorem nodeCidr_ok {found : Option String} (h : nodeCidr value = .ok found) :
    found = podCidr value := by
  unfold nodeCidr at h
  dsimp only at h
  split_ifs at h with hnull
  · exact (Except.ok.inj h).symm
  · split at h
    · split_ifs at h
      exact (Except.ok.inj h).symm
    · cases h

theorem keepsCidr_ok {old : Option Json} {found : Option String}
    (h : keepsCidr value old = .ok found) : found = podCidr value := by
  obtain ⟨cidr, hcidr, h⟩ := Fallible.bind_eq_ok.mp h
  have hfound : found = cidr := by
    cases old with
    | none => exact (Except.ok.inj h).symm
    | some old =>
      obtain ⟨previous, _, h⟩ := Fallible.bind_eq_ok.mp h
      cases previous with
      | none => exact (Except.ok.inj h).symm
      | some previous =>
        dsimp only at h
        split_ifs at h
        exact (Except.ok.inj h).symm
  rw [hfound]
  exact nodeCidr_ok hcidr

theorem readLedger_ok {saved : Json} (h : readLedger text configured saved = .ok state) :
    NodeCidrAllocations.ofJson saved = some state ∧ state.Sound text := by
  unfold readLedger at h
  split at h
  · cases h
  · rename_i found hfound
    obtain ⟨_, hvalid, h⟩ := Fallible.bind_eq_ok.mp h
    split_ifs at h with hpool
    cases h
    exact ⟨hfound, NodeCidrAllocations.sound_of_validate (Fallible.mapError_eq_ok.mp hvalid)⟩

theorem reserveIn_ok {saved : Json} {name cidr : String} {result : Option Json}
    (h : reserveIn text configured saved name cidr = .ok result) :
    ∃ state, NodeCidrAllocations.ofJson saved = some state ∧ state.Sound text ∧
      validNodeName name = true ∧
        ((result = none ∧ lookup name state.reservations = some cidr) ∨
          ∃ state', result = some state'.toJson ∧
            state.reserve text name cidr = .ok (some state')) := by
  obtain ⟨state, hread, h⟩ := Fallible.bind_eq_ok.mp h
  obtain ⟨hstate, hsound⟩ := readLedger_ok hread
  obtain ⟨reserved, hreserve, h⟩ := Fallible.bind_eq_ok.mp h
  have hreserved := Fallible.mapError_eq_ok.mp hreserve
  obtain ⟨hname, _, ⟨rfl, hlookup⟩ | ⟨state', rfl, _⟩⟩ :=
    NodeCidrAllocations.reserve_ok hreserved
  · exact ⟨state, hstate, hsound, hname, Or.inl ⟨(Except.ok.inj h).symm, hlookup⟩⟩
  · exact ⟨state, hstate, hsound, hname, Or.inr ⟨state', (Except.ok.inj h).symm, hreserved⟩⟩

/-- A text that is a Node's name is its name. -/
theorem named_of_valid (h : validNodeName (value["metadata"]["name"].asString.getD "") = true) :
    value["metadata"]["name"] = .string (value["metadata"]["name"].asString.getD "") := by
  cases hname : value["metadata"]["name"].asString with
  | some name => exact Json.asString_eq_some.mp hname
  | none =>
    rw [hname] at h
    exact absurd h (by decide)

variable {lib : Libraries} {write : Write} {old : Option Json}

/-- The range of an admitted Node is reserved, now and from then on. -/
theorem meets_cidr_node (hkind : write.target.resource.kind = "Node") :
    Meets Call.perform (ledgerContract text) r
      (fun _ _ t => ∀ cidr, podCidr value = some cidr → ReservedAt t value cidr)
      (Handler.cidrStep (lib.withLedger text configured) write k value old) seen s := by
  unfold Handler.cidrStep
  rw [if_pos hkind]
  apply Meets.reading_bind
  intro _ _ _ _ _ _
  unfold Handler.cidrAdmit
  apply Meets.lift_bind
  intro found hfound
  have hcidr := keepsCidr_ok hfound
  cases found with
  | none =>
    refine .pure fun t _ _ cidr hsome => ?_
    rw [← hcidr] at hsome
    cases hsome
  | some cidr =>
    apply Meets.lift_bind
    intro ledger hledger
    obtain rfl : ledger = ledgerAt := Storage.StoreKey.value_injective (key_ok.mp hledger)
    apply Meets.reading_bind
    intro saved reg hsaved hreg _ _
    have hget : reg.get ledgerAt = some saved := by
      cases hfound : reg.get ledgerAt with
      | none =>
        rw [hfound] at hsaved
        cases hsaved
      | some found =>
        rw [hfound] at hsaved
        rw [Except.ok.inj hsaved]
    apply Meets.lift_bind
    intro result hresult
    obtain ⟨state, hstate, hsound, hname, hcase⟩ := reserveIn_ok hresult
    have hnamed := named_of_valid hname
    rcases hcase with ⟨rfl, hlookup⟩ | ⟨state', rfl, hreserve⟩
    · refine .pure fun t _ hgrows other hother => ?_
      rw [← hcidr] at hother
      cases hother
      exact ReservedAt.mono ⟨saved, state, hget, hstate, _, hnamed, hlookup⟩ hgrows
    · obtain ⟨hsound', hext, hlookup⟩ := hsound.reserve hreserve
      apply Meets.bind (P := fun _ _ t => ReservedAt t value cidr)
      · apply meets_store
        · intro t hgrows
          apply permits_ledger_update
          intro current found hcurrent hrevision hfound _
          obtain rfl := hgrows.later.version hreg.dated hget hcurrent hrevision
          rw [hstate] at hfound
          cases hfound
          exact ⟨hsound', hext⟩
        · intro t u stored _ _ _ hperform _ v _ hgrows
          obtain ⟨_, _, rfl⟩ := Call.update_ok hperform
          exact ReservedAt.mono ⟨_, state', Registry.get_put _ _ _,
            NodeCidrAllocations.ofJson_toJson hsound', _, hnamed, hlookup⟩ hgrows
      · intro _ seen' t _ _ _ hreserved
        refine .pure fun u _ hgrows other hother => ?_
        rw [← hcidr] at hother
        cases hother
        exact hreserved.mono hgrows

theorem kind_node {target : Target} (h : target.Valid) :
    target.resource.kind = "Node" ↔ target.resource.plural = "nodes" := by
  have hall : ∀ r ∈ resources, r.kind = "Node" ↔ r.plural = "nodes" := by decide +kernel
  exact hall target.resource h.served

theorem served_plural {target : Target} (h : target.Valid) :
    target.resource.plural ≠ "h3s-node-cidrs" := by
  have hall : ∀ r ∈ resources, r.plural ≠ "h3s-node-cidrs" := by decide +kernel
  exact hall target.resource h.served

/-- A request writes Nodes as the ledger has them, whatever it asks for. -/
theorem meets_submit {q : Submitted} : Meets Call.perform (ledgerContract text) r
    (fun _ _ _ => True) (q.handler (lib.withLedger text configured)) seen s := by
  by_cases hkind : q.write.target.resource.kind = "Node"
  · have hplural := (kind_node q.valid).mp hkind
    apply meets_execute
    · intro hbinding
      have hserved := (q.valid.subresource _ hbinding).2
      simp [servesSubresource, hkind] at hserved
    · intro _ _ options seen t reg k stored obj c _ hdeletes hcall
      obtain ⟨name, _, hk⟩ := named_ok.mp hdeletes.key
      apply permits_node
      · rw [hcall.key, ← hplural]
        exact family_pathPrefix hk
      · intro v cidr hbrings
        cases hcall with
        | removed => cases hbrings
        | marked hnamespace =>
          rw [hkind] at hnamespace
          exact absurd hnamespace (by decide)
    · intro _ _ seen t p _ hp
      obtain ⟨name, hk, _⟩ := hp.key
      apply Meets.bind (P := fun value _ t =>
        ∀ cidr, podCidr value = some cidr → ReservedAt t value cidr)
      · apply meets_admit (K := fun _ _ _ => True)
        · intro completed _ seen' t' _ _ _ _
          exact (meets_kind_plain (Or.inr (by simp [hkind]))).weaken fun _ _ _ _ _ => trivial
        · exact fun _ _ _ _ _ _ _ _ => trivial
        · exact fun _ _ _ _ _ _ _ _ => meets_cidr_node hkind
        · exact fun _ _ _ _ hgrows hreserved cidr hcidr => (hreserved cidr hcidr).mono hgrows
      · intro value seen' t' _ _ _ hreserved
        apply meets_persist
        · intro u hgrows
          obtain ⟨hkey, hbrings⟩ := commitCall_brings p.key value (p.old.map Prod.fst)
          apply permits_node
          · rw [hkey, ← hplural]
            exact family_pathPrefix hk
          · intro v cidr hv hcidr
            rw [hbrings] at hv
            cases hv
            exact (hreserved cidr hcidr).mono hgrows
        · intro hnamespace
          rw [hkind] at hnamespace
          exact absurd hnamespace (by decide)
  · apply handler_frame
    intro seen s c hown
    have hplural : q.write.target.resource.plural ≠ "nodes" := fun h =>
      hkind ((kind_node q.valid).mpr h)
    have hslash := slash_notMem_plural q.valid.served
    apply permits_elsewhere
    · intro hnode
      rcases hown with h | ⟨_, h⟩ | ⟨hnode', _⟩
      · exact hplural (Family.unique hslash (by decide) h hnode)
      · exact absurd (Family.unique (by decide) (by decide) h hnode) (by decide)
      · exact hkind hnode'
    · intro hledger
      rcases hown with h | ⟨_, h⟩ | ⟨hnode', _⟩
      · rw [hledger] at h
        exact served_plural q.valid (Family.unique hslash (by decide) h family_ledger)
      · rw [hledger] at h
        exact absurd (Family.unique (by decide) (by decide) h family_ledger) (by decide)
      · exact hkind hnode'

/-! ## A server that starts -/

theorem importNode_ok {saved : StoreKey × Stored} {state' : NodeCidrAllocations}
    (hsound : state.Sound text) (h : importNode text state saved = .ok state') :
    state'.Sound text ∧ state.Extends state' ∧
      ∀ cidr, podCidr saved.2.value = some cidr → ReservedFor state' saved.2.value cidr := by
  obtain ⟨node, hnode, h⟩ := Fallible.bind_eq_ok.mp h
  obtain ⟨found, hfound, h⟩ := Fallible.bind_eq_ok.mp h
  have hcidr : found = podCidr saved.2.value := by
    rw [nodeCidr_ok hfound, podCidr, podCidr, object_ne hnode (by decide)]
  have hmember := object_metadata hnode "name" (by decide) (by decide)
  cases found with
  | none =>
    cases h
    refine ⟨hsound, .refl _, fun cidr hsome => ?_⟩
    rw [← hcidr] at hsome
    cases hsome
  | some cidr =>
    cases hname : node["metadata"]["name"].asString with
    | none =>
      simp only [hname] at h
      cases h
    | some name =>
      simp only [hname] at h
      obtain ⟨reserved, hreserve, h⟩ := Fallible.bind_eq_ok.mp h
      cases h
      have hnamed : saved.2.value["metadata"]["name"] = .string name := by
        rw [← hmember]
        exact Json.asString_eq_some.mp hname
      have hreserved := Fallible.mapError_eq_ok.mp hreserve
      obtain ⟨_, _, ⟨rfl, hlookup⟩ | ⟨next, rfl, _⟩⟩ := NodeCidrAllocations.reserve_ok hreserved
      · refine ⟨hsound, .refl _, fun other hother => ?_⟩
        rw [← hcidr] at hother
        cases hother
        exact ⟨name, hnamed, hlookup⟩
      · obtain ⟨hsound', hext, hlookup⟩ := hsound.reserve hreserved
        refine ⟨hsound', hext, fun other hother => ?_⟩
        rw [← hcidr] at hother
        cases hother
        exact ⟨name, hnamed, hlookup⟩

theorem importAll_ok {nodes : List (StoreKey × Stored)} {state' : NodeCidrAllocations}
    (hsound : state.Sound text) (h : nodes.foldlM (importNode text) state = .ok state') :
    state'.Sound text ∧ state.Extends state' ∧ ∀ e ∈ nodes, ∀ cidr,
      podCidr e.2.value = some cidr → ReservedFor state' e.2.value cidr := by
  induction nodes generalizing state with
  | nil =>
    cases h
    exact ⟨hsound, .refl _, by simp⟩
  | cons e nodes ih =>
    rw [List.foldlM_cons] at h
    obtain ⟨next, hnext, hrest⟩ := Fallible.bind_eq_ok.mp h
    obtain ⟨hsound₁, hext₁, hfirst⟩ := importNode_ok hsound hnext
    obtain ⟨hsound₂, hext₂, hothers⟩ := ih hsound₁ hrest
    refine ⟨hsound₂, hext₁.trans hext₂, fun d hd cidr hcidr => ?_⟩
    rcases List.mem_cons.mp hd with rfl | hd
    · exact (hfirst cidr hcidr).mono hext₂
    · exact hothers d hd cidr hcidr

/-- An import covers every Node of its snapshot. -/
theorem importNodes_ok {state' : NodeCidrAllocations} (hsound : state.Sound text)
    (h : importNodes text state reg = .ok state') : Ledgered text reg state' ∧
      state.Extends state' := by
  obtain ⟨hsound', hext, hall⟩ := importAll_ok hsound h
  refine ⟨⟨hsound', fun k node cidr hrange => ?_⟩, hext⟩
  exact hall (k, node) (Registry.mem_list.mpr ⟨hrange.found, family_startsWith hrange.family⟩) cidr
    hrange.cidr

theorem load_ok (h : load text configured reg = .ok state) : ∃ saved,
    reg.get ledgerAt = some saved ∧ NodeCidrAllocations.ofJson saved.value = some state ∧
      state.Sound text := by
  unfold load at h
  cases hget : reg.get ledgerAt with
  | none =>
    rw [hget] at h
    cases h
  | some saved =>
    rw [hget] at h
    obtain ⟨hstate, hsound⟩ := readLedger_ok h
    exact ⟨saved, rfl, hstate, hsound⟩

theorem meets_initialize : Meets Call.perform (ledgerContract text) r (fun _ _ _ => True)
    (initializeLedger text configured) seen s := by
  unfold initializeLedger
  apply Meets.lift_bind
  intro _ hvalid
  have hconfigured := NodeCidrAllocations.sound_of_validate (Fallible.mapError_eq_ok.mp hvalid)
  apply Meets.reading_bind
  intro existing first hexisting hfirst _ _
  cases existing with
  | some old =>
    have hold : first.get ledgerAt = some old := Except.ok.inj hexisting
    apply Meets.reading_bind
    intro state second hstate hsecond hlater _
    obtain ⟨saved, hsaved, hread, hsound⟩ := load_ok hstate
    apply Meets.reading_bind
    intro imported third himported _ hlater' _
    obtain ⟨hledgered, hext⟩ := importNodes_ok hsound himported
    split_ifs with hchanged
    · apply meets_last
      · intro t hgrows
        apply permits_ledger_update
        intro current found hcurrent hrevision hfound _
        -- the ledger that is replaced is the one that was read twice
        have hsince : Grows second t := hlater'.trans hgrows
        have hdate : current.revision ≤ second.revision := by
          rw [hrevision]
          exact (hfirst.dated _ _ hold).trans hlater.later.revision
        have hagain := hsince.later.kept _ _ hcurrent hdate
        rw [hsaved] at hagain
        cases hagain
        rw [hread] at hfound
        cases hfound
        exact ⟨hledgered.sound, hext⟩
      · exact fun _ _ => .pure fun _ _ _ => trivial
    · exact .pure fun _ _ _ => trivial
  | none =>
    apply Meets.reading_bind
    intro imported second himported _ _ _
    obtain ⟨hledgered, _⟩ := importNodes_ok hconfigured himported
    apply meets_last
    · intro t hgrows
      apply permits_ledger_create
      intro hnone
      exact ⟨hledgered.sound, fun k node cidr hrange =>
        hledgered.covers k node cidr (hgrows.unpublished hnone k node cidr hrange)⟩
    · exact fun _ _ => .pure fun _ _ _ => trivial

theorem ledger_met : (ledgerContract text).MetBy Call.perform (NodeRequest.program text lib) := by
  intro r s _
  cases r with
  | start configured => exact meets_initialize
  | submit configured q => exact meets_submit.bind fun _ _ _ _ _ _ _ => .pure fun _ _ _ => trivial

/-- A server that started alone leaves a ledger of all Nodes. -/
theorem ledger_of_start {reg₀ : Registry} (hdated : Dated reg₀)
    (h : (initializeLedger text configured).run Call.perform reg₀ = .ok () reg) :
    LedgerInv text reg ∧ (reg.get ledgerAt).isSome = true := by
  unfold initializeLedger at h
  rw [Program.run_bind, Handler.run_lift] at h
  obtain ⟨_, hvalid, h⟩ := ofExcept_bind_eq_ok.mp h
  have hconfigured := NodeCidrAllocations.sound_of_validate (Fallible.mapError_eq_ok.mp hvalid)
  rw [Program.run_bind, Handler.run_reading] at h
  obtain ⟨existing, hexisting, h⟩ := reading_bind_ok.mp h
  have hfound : reg₀.get ledgerAt = existing := Except.ok.inj hexisting
  cases existing with
  | some old =>
    simp only [Program.run_bind, Handler.run_reading] at h
    obtain ⟨state, hstate, h⟩ := reading_bind_ok.mp h
    obtain ⟨saved, hsaved, hread, hsound⟩ := load_ok hstate
    obtain ⟨imported, himported, h⟩ := reading_bind_ok.mp h
    obtain ⟨hledgered, _⟩ := importNodes_ok hsound himported
    rw [hfound] at hsaved
    cases hsaved
    split_ifs at h with hchanged
    · rw [Program.run_bind, Handler.run_update] at h
      obtain ⟨_, reg₁, hupdate, h⟩ := bind_eq_ok.mp h
      obtain ⟨_, _, rfl⟩ := update_ok.mp hupdate
      obtain ⟨_, rfl⟩ := pure_eq_ok.mp h
      exact ⟨put_ledger hdated hledgered, by rw [Registry.get_put]; rfl⟩
    · obtain ⟨_, rfl⟩ := pure_eq_ok.mp h
      refine ⟨⟨hdated, fun saved hsaved => ?_⟩, by rw [hfound]; rfl⟩
      rw [hfound] at hsaved
      cases hsaved
      rw [not_not.mp hchanged]
      exact ⟨imported, NodeCidrAllocations.ofJson_toJson hledgered.sound, hledgered⟩
  | none =>
    simp only [Program.run_bind, Handler.run_reading, Handler.run_create] at h
    obtain ⟨imported, himported, h⟩ := reading_bind_ok.mp h
    obtain ⟨hledgered, _⟩ := importNodes_ok hconfigured himported
    obtain ⟨_, reg₁, hcreate, h⟩ := bind_eq_ok.mp h
    obtain ⟨_, _, rfl⟩ := create_ok.mp hcreate
    obtain ⟨_, rfl⟩ := pure_eq_ok.mp h
    exact ⟨put_ledger hdated hledgered, by rw [Registry.get_put]; rfl⟩

/-! ## Every reachable state -/

/-- Every Node's range is reserved under its name, and the reserved ranges lie in the pool and do
not meet. -/
def RangesReserved (text : NetText) (reg : Registry) : Prop :=
  ∃ saved state pool, reg.get ledgerAt = some saved ∧
    NodeCidrAllocations.ofJson saved.value = some state ∧
    text.parse state.clusterCidr = some pool ∧
    (∀ k node cidr, HoldsRange reg k node cidr → ReservedFor state node.value cidr) ∧
    (∀ name cidr, lookup name state.reservations = some cidr →
      ∃ net, text.parse cidr = some net ∧ net.Inside pool) ∧
    ∀ name name' cidr cidr', name ≠ name' → lookup name state.reservations = some cidr →
      lookup name' state.reservations = some cidr' →
        ∃ net net', text.parse cidr = some net ∧ text.parse cidr' = some net' ∧ net.Disjoint net'

/-- The stored ledger has this range under this name. -/
def Reserved (reg : Registry) (name cidr : String) : Prop :=
  ∃ saved state, reg.get ledgerAt = some saved ∧
    NodeCidrAllocations.ofJson saved.value = some state ∧
      lookup name state.reservations = some cidr

/-- What servers start on: a registry without a ledger, or any that one of them has started on. -/
def Bootable (text : NetText) (reg : Registry) : Prop :=
  (Dated reg ∧ reg.get ledgerAt = none) ∨ ∃ reg₀ configured, Dated reg₀ ∧
    (initializeLedger text configured).run Call.perform reg₀ = .ok () reg

theorem Bootable.inv (h : Bootable text reg) : LedgerInv text reg := by
  rcases h with ⟨hdated, hnone⟩ | ⟨reg₀, configured, hdated, hrun⟩
  · refine ⟨hdated, fun saved hsaved => ?_⟩
    rw [hnone] at hsaved
    cases hsaved
  · exact (ledger_of_start hdated hrun).1

theorem LedgerInv.reserved {saved : Stored} (h : LedgerInv text reg)
    (hsaved : reg.get ledgerAt = some saved) : RangesReserved text reg := by
  obtain ⟨state, hstate, hsound, hcovers⟩ := h.ledger saved hsaved
  obtain ⟨pool, hpool⟩ := hsound.pool
  refine ⟨saved, state, pool, hsaved, hstate, (NodeCidrAllocations.pool_ok hpool).1, hcovers,
    fun name cidr hlookup => ?_, fun name name' cidr cidr' hne hlookup hlookup' => ?_⟩
  · obtain ⟨_, net, hnet⟩ := hsound.ranges _ (mem_of_lookup hlookup)
    exact ⟨net, (NodeCidrAllocations.subnet_ok hnet).1,
      NodeCidrAllocations.subnet_inside hnet hpool⟩
  · exact hsound.disjoint hne hlookup hlookup'

theorem Grows.reserved {name cidr : String} (h : Grows reg reg') (hreserved : Reserved reg name cidr) :
    Reserved reg' name cidr := by
  obtain ⟨saved, state, hsaved, hstate, hlookup⟩ := hreserved
  obtain ⟨saved', state', hsaved', hstate', hext⟩ := h.kept saved state hsaved hstate
  exact ⟨saved', state', hsaved', hstate', hext.kept name cidr hlookup⟩

/-- Servers start and take requests in any order and interleaving. Once a ledger is there every
Node has its range in it, the ranges do not meet, and a reservation stays; before that no Node
gets a range. -/
theorem node_ranges_reserved {ls ms : List (Turn NodeRequest)}
    {p q : Pool Registry Purpose Call Reply Stop Unit NodeRequest} (hstart : Bootable text reg)
    (hp : AnyRun (Pool.step Call.perform (NodeRequest.program text lib)) ⟨reg, []⟩ ls p)
    (hq : AnyRun (Pool.step Call.perform (NodeRequest.program text lib)) p ms q) :
    (RangesReserved text p.state ∨ (reg.get ledgerAt = none ∧ p.state.get ledgerAt = none ∧
      ∀ k node cidr, HoldsRange p.state k node cidr → HoldsRange reg k node cidr)) ∧
      ∀ name cidr, Reserved p.state name cidr → Reserved q.state name cidr := by
  have hguard : ∀ (p : Pool Registry Purpose Call Reply Stop Unit NodeRequest) l, True →
      (ledgerContract text).Guarded p l := fun _ l _ =>
    Contract.unguarded (fun _ _ _ _ => trivial) l
  have hmet : (ledgerContract text).MetBy Call.perform (NodeRequest.program text lib) := ledger_met
  have hholds := Contract.holds hmet hstart.inv (hp.weaken hguard)
  refine ⟨?_, fun name cidr => ?_⟩
  · cases hledger : p.state.get ledgerAt with
    | some saved => exact Or.inl (hholds.inv.reserved hledger)
    | none =>
      exact Or.inr ⟨hholds.since.stays hledger, rfl, hholds.since.unpublished hledger⟩
  · exact (hholds.run hmet (hq.weaken hguard)).2.reserved

/-! ## A Node that is deleted -/

theorem cluster_length : 16 ≤ 32 := by decide

theorem node_length : 24 ≤ 32 := by decide

def exampleText : NetText where
  parse s := lookup s [("10.42.0.0/16", ⟨(10 * 256 + 42) * 2 ^ 16, 16, by decide, cluster_length⟩),
    ("10.42.2.0/24", ⟨(10 * 256 + 42) * 2 ^ 16 + 2 * 2 ^ 8, 24, by decide, node_length⟩)]
  print n := if n.len = 16 then "10.42.0.0/16" else "10.42.2.0/24"

theorem no_assignments : List.Pairwise (fun e f : String × String => e.1 < f.1) [] := .nil

def examplePool : NodeCidrAllocations := ⟨1, "10.42.0.0/16", 24, [], no_assignments⟩

def nodeObject (name cidr : String) : Json := .ofPairs [("apiVersion", .string "v1"),
  ("kind", .string "Node"), ("metadata", .ofPairs [("name", .string name)]),
  ("spec", .ofPairs [("podCIDR", .string cidr)])]

def nodeRegistry : Registry :=
  .ofList [("/registry/nodes/a", nodeObject "a" "10.42.2.0/24")]

/-- The registry after the first server has started. -/
def startedRegistry : Registry :=
  final ((initializeLedger exampleText examplePool).run Call.perform) nodeRegistry

def nodeTarget : Target := ⟨⟨"", "v1", "nodes", "Node", false⟩, none, some "a", none⟩

theorem nodeTarget_valid : nodeTarget.Valid where
  served := by decide +kernel
  namespaced := by decide
  name := by decide +kernel
  ns := by decide
  subresource := by decide

def deleteNode : Submitted where
  fresh := .plain
  write := ⟨⟨"admin", ["system:masters"]⟩, nodeTarget, "delete"⟩
  query := ⟨[], []⟩
  body := ⟨"application/json", []⟩
  valid := nodeTarget_valid
  placed := rfl

theorem bootable_started : Bootable exampleText startedRegistry := by
  have hanswer : answer ((initializeLedger exampleText examplePool).run Call.perform) nodeRegistry =
      some () := by decide +kernel
  obtain ⟨reg, hrun⟩ := ok_of_answer hanswer
  refine Or.inr ⟨nodeRegistry, examplePool, dated_ofList _, ?_⟩
  rw [startedRegistry, final_of_ok hrun]
  exact hrun

def reservedA (reg : Registry) : Bool :=
  (reg.get ledgerAt).any fun saved => (NodeCidrAllocations.ofJson saved.value).any fun state =>
    lookup "a" state.reservations = some "10.42.2.0/24"

theorem reserved_of_reservedA (h : reservedA reg = true) : Reserved reg "a" "10.42.2.0/24" := by
  obtain ⟨saved, hsaved, h⟩ := (Option.any_eq_true _ _).mp h
  obtain ⟨state, hstate, h⟩ := (Option.any_eq_true _ _).mp h
  exact ⟨saved, state, hsaved, hstate, of_decide_eq_true h⟩

/-- The Node that the first server found is deleted, and its reservation stays. -/
theorem deleted_node_keeps_range : ∃ p : Pool Registry Purpose Call Reply Stop Unit NodeRequest,
    AnyRun (Pool.step Call.perform (NodeRequest.program exampleText (.plain [])))
      ⟨startedRegistry, []⟩ [.arrive (.submit examplePool deleteNode), .advance 0, .advance 0] p ∧
    (p.state.list "/registry/nodes/").isEmpty = true ∧ RangesReserved exampleText p.state ∧
      Reserved p.state "a" "10.42.2.0/24" := by
  have hexec : (exec (Pool.step Call.perform (NodeRequest.program exampleText (.plain [])))
      ⟨startedRegistry, []⟩
      [.arrive (.submit examplePool deleteNode), .advance 0, .advance 0]).map (fun p =>
        ((p.state.list "/registry/nodes/").isEmpty, (p.state.get ledgerAt).isSome)) =
      some (true, true) := by decide +kernel
  obtain ⟨p, hrun, hend⟩ := run_of_exec_map hexec
  obtain ⟨hgone, hledger⟩ := Prod.ext_iff.mp hend
  have hstart : Reserved startedRegistry "a" "10.42.2.0/24" :=
    reserved_of_reservedA (by decide +kernel)
  refine ⟨p, hrun, hgone, ?_, (node_ranges_reserved bootable_started .nil hrun).2 _ _ hstart⟩
  rcases (node_ranges_reserved bootable_started hrun .nil).1 with h | ⟨_, hnone, _⟩
  · exact h
  · simp [hnone] at hledger

end Hedronetes.Server
