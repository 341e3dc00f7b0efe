import Hedronetes.Foundations.Fallible
import Hedronetes.Foundations.VersionLog
import Hedronetes.Storage.Custody

/-!
# The registry tables and their statements

Both backends keep the same tables and run the same SQL: `registry_meta` holds
the revision and the compaction floor, `registry_versions` is the event log, and
`registry_leases` the leases. Each statement here is a function of the table
contents it sees. `Consistent` relates the stored rows to the log of every row
ever committed, which compaction does not shorten.
-/

namespace Hedronetes.Storage

open VersionLog CursorScan Fallible

/-- The columns of a row besides its key and revision. -/
structure Cell where
  bytes : Bytes
  kind : Fin 3
  deriving DecidableEq

abbrev Row := Version StoreKey Cell

/-- The row condition `kind <> 2`. -/
def isLive (row : Row) : Bool := row.value.kind ≠ 2

structure LeaseRow where
  id : ℕ
  ttlMs : ℕ
  expiresMs : ℕ
  deriving DecidableEq

structure Tables where
  revision : ℕ
  compacted : ℕ
  versions : List Row
  leases : List LeaseRow
  deriving DecidableEq

/-- The tables as opening a fresh registry creates them. -/
def Tables.fresh : Tables := ⟨0, 0, [], []⟩

/-- A call of `create`, `update` or `delete`. -/
inductive Mutation where
  | create (obj : StoredObject)
  | update (obj : StoredObject) (rv : ℕ)
  | delete (key : StoreKey) (rv : ℕ)
  deriving DecidableEq

namespace Mutation

/-- The object handed to `mutate`. -/
def obj : Mutation → StoredObject
  | create obj => obj
  | update obj _ => obj
  | delete key _ => ⟨key, [], 0⟩

def expected : Mutation → Option ℕ
  | create _ => none
  | update _ rv => some rv
  | delete _ rv => some rv

def deletes : Mutation → Bool
  | delete _ _ => true
  | _ => false

/-- Only a delete asks for the removal of a key, and it names the revision it expects. -/
theorem expected_of_deletes {m : Mutation} (h : m.deletes = true) : ∃ rv, m.expected = some rv := by
  cases m with
  | delete key rv => exact ⟨rv, rfl⟩
  | create obj => cases h
  | update obj rv => cases h

end Mutation

/-- A stored row as an object with its stored bytes. -/
def rowObject (row : Row) : StoredObject := ⟨row.key, row.value.bytes, row.revision⟩

/-- The latest row of a key when it is no tombstone. -/
def currentObject (key : StoreKey) (versions : List Row) : Option StoredObject :=
  (latest key versions).bind fun row => if isLive row then some (rowObject row) else none

theorem currentObject_eq_some {key : StoreKey} {versions : List Row} {old : StoredObject} :
    currentObject key versions = some old ↔
      ∃ row, latest key versions = some row ∧ isLive row = true ∧ old = rowObject row := by
  simp only [currentObject, Option.bind_eq_some_iff]
  constructor
  · rintro ⟨row, hrow, hold⟩
    split_ifs at hold with hlive
    exact ⟨row, hrow, hlive, (Option.some.inj hold).symm⟩
  · rintro ⟨row, hrow, hlive, rfl⟩
    exact ⟨row, hrow, by simp [hlive]⟩

theorem currentObject_eq_none {key : StoreKey} {versions : List Row} :
    currentObject key versions = none ↔
      ∀ row, latest key versions = some row → isLive row = false := by
  simp only [currentObject, Option.bind_eq_none_iff]
  constructor
  · intro h row hrow
    by_contra hlive
    simpa [hlive] using h row hrow
  · intro h row hrow
    simp [h row hrow]

/-- The compare-and-swap check of `mutate`. -/
def checkExpected (key : StoreKey) (expected : Option ℕ) (previous : Option StoredObject) :
    Result Unit :=
  match expected, previous with
  | none, some _ => .error (.alreadyExists key)
  | some _, none => .error (.notFound key)
  | some expected, some old =>
    if expected ≠ old.revision then .error (.conflict expected old.revision) else .ok ()
  | none, none => .ok ()

theorem checkExpected_some {key : StoreKey} {expected : ℕ} {previous : Option StoredObject} :
    checkExpected key (some expected) previous = .ok () ↔
      ∃ old, previous = some old ∧ old.revision = expected := by
  cases previous with
  | none => simp [checkExpected]
  | some old =>
    simp only [checkExpected, Option.some.injEq, exists_eq_left']
    split_ifs with h
    · simpa using fun he => h he.symm
    · simpa using (not_not.mp h).symm

theorem checkExpected_none {key : StoreKey} {previous : Option StoredObject} :
    checkExpected key none previous = .ok () ↔ previous = none := by
  cases previous <;> simp [checkExpected]

/-- The kind of a change, from whether it deletes and what it replaces. -/
def changeKind (deletes : Bool) (previous : Option StoredObject) :
    {k : EventKind // k ≠ .bookmark} :=
  if deletes then ⟨.deleted, by simp⟩
  else if previous.isSome then ⟨.modified, by simp⟩
  else ⟨.added, by simp⟩

/-- What `mutate` is going to store once it has a revision. -/
structure Draft where
  key : StoreKey
  bytes : Bytes
  kind : Fin 3
  deriving DecidableEq

def Draft.row (d : Draft) (revision : ℕ) : Row := ⟨d.key, revision, ⟨d.bytes, d.kind⟩⟩

/-- The value that is stored: a delete keeps the bytes of the row it removes. The
check has refused every delete without one. -/
def storedValue (sealer : SecretsSealer) (draw : ℕ) (m : Mutation)
    (previous : Option StoredObject) : Result Bytes :=
  if m.deletes then .ok (previous.elim [] StoredObject.value)
  else sealValue sealer draw m.obj.key m.obj.value

/-- The part of `mutate` before it takes a revision: the check, the kind and the
stored value. -/
def prepare (sealer : SecretsSealer) (draw : ℕ) (m : Mutation) (previous : Option StoredObject) :
    Result Draft := do
  checkExpected m.obj.key m.expected previous
  let kind := changeKind m.deletes previous
  let bytes ← storedValue sealer draw m previous
  pure ⟨m.obj.key, bytes, kindNumber kind.1 kind.2⟩

/-- Everything `prepare` promises about the draft it returns. -/
theorem prepare_ok {sealer : SecretsSealer} {draw : ℕ} {m : Mutation}
    {previous : Option StoredObject} {d : Draft} (h : prepare sealer draw m previous = .ok d) :
    checkExpected m.obj.key m.expected previous = .ok () ∧ d.key = m.obj.key ∧
      kindOf d.kind = (changeKind m.deletes previous).1 ∧
      (m.deletes = true → ∃ old, previous = some old ∧ d.bytes = old.value) ∧
      (m.deletes = false → sealValue sealer draw m.obj.key m.obj.value = .ok d.bytes) := by
  obtain ⟨⟨⟩, hcheck, h⟩ := bind_eq_ok.mp h
  obtain ⟨bytes, hbytes, h⟩ := bind_eq_ok.mp h
  cases Except.ok.inj h
  refine ⟨hcheck, rfl, kindOf_kindNumber _ _, fun hdel => ?_, fun hdel => ?_⟩
  · obtain ⟨rv, hrv⟩ := Mutation.expected_of_deletes hdel
    rw [hrv] at hcheck
    obtain ⟨old, rfl, _⟩ := checkExpected_some.mp hcheck
    rw [storedValue, if_pos hdel] at hbytes
    exact ⟨old, rfl, (Except.ok.inj hbytes).symm⟩
  · rw [storedValue, if_neg (by simp [hdel])] at hbytes
    exact hbytes

/-- A draft is a tombstone exactly when it is the draft of a delete. -/
theorem prepare_isLive {sealer : SecretsSealer} {draw : ℕ} {m : Mutation}
    {previous : Option StoredObject} {d : Draft} (h : prepare sealer draw m previous = .ok d)
    (revision : ℕ) : isLive (d.row revision) = !m.deletes := by
  have hkind := (prepare_ok h).2.2.1
  have hlive : isLive (d.row revision) = !decide (kindOf d.kind = .deleted) := by
    change decide (d.kind ≠ 2) = _
    generalize d.kind = k
    revert k
    decide
  rw [hlive, hkind, changeKind]
  cases m.deletes <;> cases previous <;> simp

/-- The row that a mutation stores, against the rows of the history: it has seen the
version it expects, a write seals its payload, and a delete copies the bytes of a
live row of its key. -/
structure Written (sealer : SecretsSealer) (log : List Row) (m : Mutation) (row : Row) : Prop where
  key : row.key = m.obj.key
  live : isLive row = !m.deletes
  seen : ∀ rv, m.expected = some rv →
    ∃ v ∈ log, v.key = m.obj.key ∧ isLive v = true ∧ v.revision = rv
  sealed : m.deletes = false →
    ∃ draw, sealValue sealer draw m.obj.key m.obj.value = .ok row.value.bytes
  copied : m.deletes = true →
    ∃ v ∈ log, v.key = m.obj.key ∧ isLive v = true ∧ row.value.bytes = v.value.bytes

theorem Written.mono {sealer : SecretsSealer} {log log' : List Row} {m : Mutation} {row : Row}
    (h : Written sealer log m row) (hl : log ⊆ log') : Written sealer log' m row where
  key := h.key
  live := h.live
  seen rv hrv := by
    obtain ⟨v, hv, hrest⟩ := h.seen rv hrv
    exact ⟨v, hl hv, hrest⟩
  sealed := h.sealed
  copied hdel := by
    obtain ⟨v, hv, hrest⟩ := h.copied hdel
    exact ⟨v, hl hv, hrest⟩

theorem prepare_written {sealer : SecretsSealer} {draw : ℕ} {m : Mutation} {versions log : List Row}
    {d : Draft} (h : prepare sealer draw m (currentObject m.obj.key versions) = .ok d)
    (hl : versions ⊆ log) (revision : ℕ) : Written sealer log m (d.row revision) := by
  obtain ⟨hcheck, hkey, _, hdel, hwrite⟩ := prepare_ok h
  refine ⟨hkey, prepare_isLive h revision, fun rv hrv => ?_, fun hm => ⟨draw, hwrite hm⟩,
    fun hm => ?_⟩
  · rw [hrv] at hcheck
    obtain ⟨old, hold, hrev⟩ := checkExpected_some.mp hcheck
    obtain ⟨v, hv, hlive, rfl⟩ := currentObject_eq_some.mp hold
    exact ⟨v, hl (latest_mem hv).1, (latest_mem hv).2, hlive, hrev⟩
  · obtain ⟨old, hold, hbytes⟩ := hdel hm
    obtain ⟨v, hv, hlive, rfl⟩ := currentObject_eq_some.mp hold
    exact ⟨v, hl (latest_mem hv).1, (latest_mem hv).2, hlive, hbytes⟩

/-- `UPDATE registry_meta SET revision = revision + 1`, in a 64-bit column. -/
def bumpRevision (overflow : Error) (t : Tables) : Result ℕ :=
  if t.revision < maxRevision then .ok (t.revision + 1) else .error overflow

theorem bumpRevision_ok {overflow : Error} {t : Tables} {n : ℕ}
    (h : bumpRevision overflow t = .ok n) : n = t.revision + 1 ∧ n ≤ maxRevision := by
  unfold bumpRevision at h
  split_ifs at h with hlt
  have he := Except.ok.inj h
  exact ⟨he.symm, he ▸ hlt⟩

/-- `INSERT INTO registry_versions`, whose revisions are unique. -/
def insertRow (clash : Error) (row : Row) (versions : List Row) : Result (List Row) :=
  if versions.any fun v => v.revision = row.revision then .error clash
  else .ok (versions ++ [row])

theorem insertRow_ok {clash : Error} {row : Row} {versions inserted : List Row}
    (h : insertRow clash row versions = .ok inserted) : inserted = versions ++ [row] := by
  unfold insertRow at h
  split_ifs at h
  exact (Except.ok.inj h).symm

/-- A committed mutation with the row it inserted. -/
structure Commit where
  mutation : Mutation
  row : Row
  deriving DecidableEq

/-- The rows of a history of commits. -/
abbrev rowsOf (log : List Commit) : List Row := log.map Commit.row

/-- The value a mutation returns: a delete the stored bytes, a write the opened value. -/
def returnedValue (openValue : Bytes → Result Bytes) (m : Mutation) (d : Draft) : Result Bytes :=
  if m.deletes then .ok d.bytes else openValue d.bytes

/-- The last statement of `maintain`: delete the expired leases and count them. -/
def sweepLeases (now : ℕ) (t : Tables) : Tables × ℕ :=
  ({ t with leases := t.leases.filter fun l => now < l.expiresMs },
    (t.leases.filter fun l => l.expiresMs ≤ now).length)

/-- The stored rows, against the log of all committed rows: revisions are
assigned in order from 1, and the rows that are gone were superseded at `horizon`. -/
structure Consistent (log : List Row) (horizon : ℕ) (t : Tables) : Prop where
  ordered : Ordered log
  positive : ∀ v ∈ log, 0 < v.revision
  bounded : ∀ v ∈ log, v.revision ≤ t.revision
  retains : Retains horizon log t.versions
  horizon_le : horizon ≤ t.revision
  fits : t.revision ≤ maxRevision

namespace Consistent

variable {log : List Row} {horizon : ℕ} {t : Tables}

theorem fresh : Consistent [] 0 .fresh :=
  ⟨.nil, by simp, by simp, Retains.refl _ _, le_rfl, Nat.zero_le _⟩

theorem versions_ordered (h : Consistent log horizon t) : Ordered t.versions :=
  h.retains.ordered h.ordered

theorem latest_eq (h : Consistent log horizon t) (key : StoreKey) :
    latest key t.versions = latest key log := h.retains.latest_eq h.ordered

theorem currentObject_eq (h : Consistent log horizon t) (key : StoreKey) :
    currentObject key t.versions = currentObject key log := by
  rw [currentObject, currentObject, h.latest_eq]

/-- The next revision is not taken, so the insert of its row goes through. -/
theorem insertRow_eq (h : Consistent log horizon t) (clash : Error) {row : Row}
    (hrow : row.revision = t.revision + 1) :
    insertRow clash row t.versions = .ok (t.versions ++ [row]) := by
  have hany : (t.versions.any fun v => v.revision = row.revision) = false := by
    rw [List.any_eq_false]
    intro v hv
    have hle := h.bounded v (h.retains.sublist.subset hv)
    simp only [decide_eq_true_eq, hrow]
    omega
  simp [insertRow, hany]

/-- A committed mutation appends its row to the log and takes its revision. -/
theorem commit (h : Consistent log horizon t) {row : Row} (hrow : row.revision = t.revision + 1)
    (hfits : row.revision ≤ maxRevision) :
    Consistent (log ++ [row]) horizon
      { t with revision := row.revision, versions := t.versions ++ [row] } where
  ordered := h.ordered.snoc fun v hv => by
    have := h.bounded v hv
    omega
  positive := by
    intro v hv
    rcases List.mem_append.mp hv with hv | hv
    · exact h.positive v hv
    · rw [List.mem_singleton.mp hv]
      omega
  bounded := by
    intro v hv
    rcases List.mem_append.mp hv with hv | hv
    · have := h.bounded v hv
      dsimp only
      omega
    · rw [List.mem_singleton.mp hv]
  retains := h.retains.snoc row
  horizon_le := by
    have := h.horizon_le
    dsimp only
    omega
  fits := hfits

/-- A committed compaction deletes rows superseded at its revision. -/
theorem compacts (h : Consistent log horizon t) {rev floor : ℕ} (hrev : rev ≤ t.revision)
    {gone : List ℕ} (hgone : ∀ v ∈ log, v.revision ∈ gone → Superseded log rev v) :
    Consistent log (max horizon rev)
      { t with
        compacted := floor
        versions := t.versions.filter fun v => v.revision ∉ gone } where
  ordered := h.ordered
  positive := h.positive
  bounded := h.bounded
  retains := h.retains.filter (le_max_left _ _) fun v hv hq =>
    (hgone v hv (by simpa using hq)).mono (List.Subset.refl _) (le_max_right _ _)
  horizon_le := max_le h.horizon_le hrev
  fits := h.fits

/-- What a compaction selects for deletion is superseded in the log. -/
theorem doomed_superseded (h : Consistent log horizon t) {rev : ℕ} {v : Row} (hv : v ∈ log)
    (hd : v.revision ∈ doomed rev t.versions) : Superseded log rev v :=
  h.retains.superseded_of_doomed h.ordered hv hd

end Consistent

end Hedronetes.Storage
