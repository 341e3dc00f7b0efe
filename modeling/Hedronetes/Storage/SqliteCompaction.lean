import Hedronetes.Storage.SqliteInvariant

/-!
# SQLite compaction keeps what can still be asked for

Two stores with the same history and the same head answer alike: single keys are
read from the latest rows, which no compaction deletes, and a list at a revision
both floors allow reads the same snapshot. A store before and after a compaction
are two such stores, and so are all that later transactions make of them.
-/

namespace Hedronetes.Storage.Sqlite

open VersionLog CursorScan Fallible Runs

variable {sealer : SecretsSealer}

/-- Two stores of one history with the same head, whose floors may differ. -/
structure Alike (log : List Row) (t u : Tables) : Prop where
  left : Consistent log t.compacted t
  right : Consistent log u.compacted u
  revision : t.revision = u.revision

theorem Alike.symm {log : List Row} {t u : Tables} (h : Alike log t u) : Alike log u t :=
  ⟨h.right, h.left, h.revision.symm⟩

/-- The row of a mutation and the value it returns, from the history and the head. -/
def mutation (sealer : SecretsSealer) (draw : ℕ) (m : Mutation) (log : List Row) (head : ℕ) :
    Result (Row × Bytes) := do
  let draft ← prepare sealer draw m (currentObject m.obj.key log)
  if head < maxRevision then
    let returned ← returnedValue (decodeRowValue sealer) m draft
    pure (draft.row (head + 1), returned)
  else .error overflow

/-- The tables after a row was inserted. -/
def Tables.withRow (t : Tables) (row : Row) : Tables :=
  { t with revision := row.revision, versions := t.versions ++ [row] }

/-- A mutation depends on the tables through the history and the head only. -/
theorem mutateTx_eq {log : List Row} {t : Tables} (h : Consistent log t.compacted t) (draw : ℕ)
    (m : Mutation) :
    mutateTx sealer draw m t = (mutation sealer draw m log t.revision).map fun result =>
      (Tables.withRow t result.1, result.1, result.2) := by
  rw [mutateTx, mutation, h.currentObject_eq]
  cases hdraft : prepare sealer draw m (currentObject m.obj.key log) with
  | error e => rfl
  | ok draft =>
    by_cases hfits : t.revision < maxRevision
    · have hle : t.revision + 1 ≤ maxRevision := hfits
      cases hret : returnedValue (decodeRowValue sealer) m draft with
      | error e => simp [bumpRevision, hfits, hret, bind, Except.bind, Except.map]
      | ok returned =>
        have hinsert : insertRow clash (draft.row (t.revision + 1)) t.versions =
            .ok (t.versions ++ [draft.row (t.revision + 1)]) := h.insertRow_eq clash rfl
        simp [bumpRevision, hfits, hret, revisionI64, hle, hinsert, bind, Except.bind, Except.map,
          pure, Except.pure, Tables.withRow]
        rfl
    · simp [bumpRevision, hfits, bind, Except.bind, Except.map]

/-- A mutation that goes through in one of two alike stores goes through in both,
with the same row and answer, and leaves them alike. -/
theorem Alike.mutate {log : List Row} {t u : Tables} (h : Alike log t u) (draw : ℕ) (m : Mutation) :
    (∃ e, mutateTx sealer draw m t = .error e ∧ mutateTx sealer draw m u = .error e) ∨
      ∃ row returned, mutateTx sealer draw m t = .ok (Tables.withRow t row, row, returned) ∧
        mutateTx sealer draw m u = .ok (Tables.withRow u row, row, returned) ∧
        Alike (log ++ [row]) (Tables.withRow t row) (Tables.withRow u row) := by
  rw [mutateTx_eq h.left, mutateTx_eq h.right, ← h.revision]
  cases hm : mutation sealer draw m log t.revision with
  | error e => exact Or.inl ⟨e, rfl, rfl⟩
  | ok result =>
    obtain ⟨row, returned⟩ := result
    have htx : mutateTx sealer draw m t = .ok (Tables.withRow t row, row, returned) := by
      rw [mutateTx_eq h.left, hm]
      rfl
    obtain ⟨draft, _, _, hrow, hfits, _⟩ := mutateTx_ok htx
    have hnext : row.revision = t.revision + 1 := by rw [hrow]; rfl
    exact Or.inr ⟨row, returned, rfl, rfl, h.left.commit hnext hfits,
      h.right.commit (h.revision ▸ hnext) hfits, rfl⟩

theorem Alike.report {log : List Row} {t u : Tables} (h : Alike log t u) (row : Row)
    (returned : Bytes) : reportTx row returned t = reportTx row returned u := by
  rw [reportTx, reportTx, h.left.latest_eq, h.right.latest_eq]

theorem Alike.get {log : List Row} {t u : Tables} (h : Alike log t u) (key : StoreKey) :
    get sealer key t = get sealer key u := by
  rw [Sqlite.get, Sqlite.get, getObject, getObject, h.left.currentObject_eq,
    h.right.currentObject_eq]

/-- A list above both floors reads the same snapshot. -/
theorem Alike.list {log : List Row} {t u : Tables} (h : Alike log t u) (sel : ListSelect)
    (ht : t.compacted ≤ listRevision sel.atRevision t.revision)
    (hu : u.compacted ≤ listRevision sel.atRevision t.revision) :
    list sealer sel t = list sealer sel u := by
  rw [list_eq_log h.left sel ht, list_eq_log h.right sel (h.revision ▸ hu), h.revision]

/-- A transaction of a later call: a mutation or its report, a read of one key, or
another compaction. -/
inductive Txn where
  | mutate (draw : ℕ) (m : Mutation)
  | report (row : Row) (returned : Bytes)
  | get (key : StoreKey)
  | compact (rev : ℕ)

/-- What a transaction answers. -/
inductive Answer where
  | wrote (result : Result (Row × Bytes))
  | reported (result : Result StoredObject)
  | got (result : Result (Option StoredObject))
  | compacted (result : Result Unit)

namespace Txn

/-- The answer of a transaction and the tables it leaves. -/
def run (sealer : SecretsSealer) (t : Tables) : Txn → Answer × Tables
  | mutate draw m =>
    match mutateTx sealer draw m t with
    | .ok (t', row, returned) => (.wrote (.ok (row, returned)), t')
    | .error e => (.wrote (.error e), t)
  | report row returned => (.reported (reportTx row returned t), t)
  | get key => (.got (Sqlite.get sealer key t), t)
  | compact rev =>
    match compactTx rev t with
    | .ok t' => (.compacted (.ok ()), t')
    | .error e => (.compacted (.error e), t)

end Txn

/-- The answers of a sequence of transactions. -/
def answers (sealer : SecretsSealer) : Tables → List Txn → List Answer
  | _, [] => []
  | t, x :: xs => (x.run sealer t).1 :: answers sealer (x.run sealer t).2 xs

theorem compactTx_total {log : List Row} {t : Tables} (h : Consistent log t.compacted t) {rev : ℕ}
    (hrev : rev ≤ t.revision) : ∃ t', compactTx rev t = .ok t' := by
  have hfits : rev ≤ maxRevision := hrev.trans h.fits
  by_cases hfloor : rev ≤ t.compacted
  · exact ⟨t, by simp [compactTx, not_lt.mpr hrev, hfloor]⟩
  · exact ⟨_, by
      simp only [compactTx, not_lt.mpr hrev, hfloor, if_false, revisionI64, hfits, if_true]
      rfl⟩

/-- A compaction leaves a store alike the one before it. -/
theorem compactTx_alike {log : List Row} {t t' : Tables} {rev : ℕ}
    (h : Consistent log t.compacted t) (htx : compactTx rev t = .ok t') : Alike log t t' := by
  refine ⟨h, compactTx_consistent h htx, ?_⟩
  obtain ⟨_, ⟨_, rfl⟩ | ⟨_, rfl⟩⟩ := compactTx_ok htx <;> rfl

theorem Alike.trans {log : List Row} {t u v : Tables} (h : Alike log t u) (h' : Alike log u v) :
    Alike log t v :=
  ⟨h.left, h'.right, h.revision.trans h'.revision⟩

/-- Alike stores answer a transaction alike and stay alike. -/
theorem Alike.run {log : List Row} {t u : Tables} (h : Alike log t u) (x : Txn) :
    (x.run sealer t).1 = (x.run sealer u).1 ∧
      ∃ log', Alike log' (x.run sealer t).2 (x.run sealer u).2 := by
  cases x with
  | mutate draw m =>
    rcases @Alike.mutate sealer _ _ _ h draw m with ⟨e, ht, hu⟩ | ⟨row, returned, ht, hu, halike⟩
    · simp only [Txn.run, ht, hu, true_and]
      exact ⟨log, h⟩
    · simp only [Txn.run, ht, hu, true_and]
      exact ⟨_, halike⟩
  | report row returned => exact ⟨congrArg Answer.reported (h.report row returned), log, h⟩
  | get key => exact ⟨congrArg Answer.got (h.get key), log, h⟩
  | compact rev =>
    by_cases hrev : rev ≤ t.revision
    · obtain ⟨t', ht⟩ := compactTx_total h.left hrev
      obtain ⟨u', hu⟩ := compactTx_total h.right (h.revision ▸ hrev)
      simp only [Txn.run, ht, hu, true_and]
      exact ⟨log, ((compactTx_alike h.left ht).symm.trans h).trans (compactTx_alike h.right hu)⟩
    · have hlt := not_le.mp hrev
      have ht : compactTx rev t = .error (.futureRevision rev t.revision) := if_pos hlt
      have hu : compactTx rev u = .error (.futureRevision rev t.revision) := by
        rw [h.revision] at hlt ⊢
        exact if_pos hlt
      simp only [Txn.run, ht, hu, true_and]
      exact ⟨log, h⟩

/-- Alike stores answer every sequence of transactions alike. -/
theorem Alike.answers_eq {log : List Row} {t u : Tables} (h : Alike log t u) (xs : List Txn) :
    answers sealer t xs = answers sealer u xs := by
  induction xs generalizing log t u with
  | nil => rfl
  | cons x xs ih =>
    obtain ⟨hanswer, log', hnext⟩ := @Alike.run sealer _ _ _ h x
    rw [answers, answers, hanswer, ih hnext]

/-- What a compaction at `rev` that took the tables from `t` to `t'` leaves as it was. -/
structure Keeps (sealer : SecretsSealer) (rev : ℕ) (t t' : Tables) : Prop where
  gets : ∀ key, get sealer key t' = get sealer key t
  lists : ∀ sel, rev ≤ listRevision sel.atRevision t.revision →
    list sealer sel t' = list sealer sel t
  below : ∀ sel, listRevision sel.atRevision t.revision < rev → list sealer sel t' = (do
    checkList sel
    .error (.compacted (listRevision sel.atRevision t.revision) t'.compacted))
  later : ∀ xs, answers sealer t' xs = answers sealer t xs

theorem compactTx_keeps {log : List Row} {t t' : Tables} {rev : ℕ}
    (h : Consistent log t.compacted t) (htx : compactTx rev t = .ok t') :
    Keeps sealer rev t t' ∧ t'.compacted = max t.compacted rev := by
  have halike := compactTx_alike h htx
  have hrevision := halike.revision
  obtain ⟨_, ⟨hle, rfl⟩ | ⟨hlt, ht'⟩⟩ := compactTx_ok htx
  · refine ⟨⟨fun _ => rfl, fun _ _ => rfl, fun sel hsel => ?_, fun _ => rfl⟩, (max_eq_left hle).symm⟩
    exact list_below_floor sel (hsel.trans_le hle)
  · have hfloor : t'.compacted = rev := by rw [ht']
    refine ⟨⟨fun key => (halike.get key).symm, fun sel hsel => ?_, fun sel hsel => ?_,
      fun xs => (halike.answers_eq xs).symm⟩, by rw [hfloor, max_eq_right hlt.le]⟩
    · exact (halike.list sel (hlt.le.trans hsel) (hfloor ▸ hsel)).symm
    · rw [hrevision] at hsel ⊢
      exact list_below_floor sel (hfloor ▸ hsel)

/-- Between its two transactions a maintenance knows the head it read. -/
def MaintainReady (t : Tables) : Session → Prop
  | .maintaining window observed target => target = observed - window ∧ observed ≤ t.revision
  | _ => True

theorem MaintainReady.mono {t t' : Tables} {session : Session} (h : MaintainReady t session)
    (hrev : t.revision ≤ t'.revision) : MaintainReady t' session := by
  cases session with
  | maintaining window observed target => exact ⟨h.1, h.2.trans hrev⟩
  | _ => trivial

theorem Moves.maintainReady {t t' : Tables} {a : Action} {session session' : Session}
    {commit : Option Commit} (h : Moves sealer t a session t' commit session') :
    MaintainReady t' session' := by
  cases h with
  | observe htarget => exact ⟨(maintenanceRevision_eq_some htarget).1, le_rfl⟩
  | @register sel _ anchor _ =>
    rcases openStream_cases sel anchor with ⟨_, he⟩ | ⟨_, _, he⟩ | ⟨_, _, he⟩ <;>
      (rw [he]; trivial)
  | @replay _ _ w next =>
    rcases replayPage_cases sealer w next t with ⟨_, _, he⟩ | ⟨_, _, ⟨_, _, he⟩ | ⟨_, he⟩⟩ <;>
      (rw [he]; trivial)
  | @poll _ elapsed w cursor =>
    rcases poll_cases sealer w cursor elapsed t with ⟨_, _, he⟩ | ⟨_, _, _, he⟩ <;>
      (rw [he]; trivial)
  | _ => trivial

theorem reachable_maintainReady {s : State} {ls : List (ℕ × Action)}
    (h : AnyRun (step sealer) .initial ls s) (i : ℕ) : MaintainReady s.tables (s.sessions i) := by
  have hall : ∀ i, MaintainReady s.tables (s.sessions i) := by
    refine h.invariant (I := fun s => ∀ i, MaintainReady s.tables (s.sessions i))
      (fun j => by trivial) fun s l s' hs _ hstep j => ?_
    obtain ⟨t', commit, session', hmove, rfl⟩ := step_cases hstep
    by_cases hj : j = l.1
    · simpa [hj] using hmove.maintainReady
    · simpa [hj] using (hs j).mono (by rw [hmove.touches.log.2]; exact Nat.le_add_right _ _)
  exact hall i

theorem floor_monotone {s s' : State} {ls : List (ℕ × Action)}
    (h : AnyRun (step sealer) s ls s') : s.tables.compacted ≤ s'.tables.compacted := by
  refine h.monotone (I := fun _ => True) (fun s => s.tables.compacted) trivial
    (fun _ _ _ _ _ _ => trivial) fun s l s' _ _ hstep => ?_
  obtain ⟨t', commit, session', hmove, rfl⟩ := step_cases hstep
  exact hmove.touches.floor

/-- The compaction of a maintenance, which some writers may have overtaken: it keeps
every revision from `observed - window` on. -/
def MaintainKeeps (sealer : SecretsSealer) (s : State) (i window observed : ℕ) : Prop :=
  ∀ now elapsed, ∃ s', step sealer s (i, .advance now elapsed) = some s' ∧
    s'.sessions i = .sweeping ∧ Keeps sealer (observed - window) s.tables s'.tables ∧
    s'.tables.compacted = max s.tables.compacted (observed - window)

/-- Every accepted compaction of a reachable store answers as before at and above its
revision, and refuses below it; a maintenance keeps all from `observed - window` on;
the floor never falls and never passes the head. -/
theorem compaction_loses_nothing (sealer : SecretsSealer) {s : State} {ls : List (ℕ × Action)}
    (h : AnyRun (step sealer) .initial ls s) :
    (∀ rev t', compactTx rev s.tables = .ok t' → Keeps sealer rev s.tables t') ∧
      (∀ i window observed target, s.sessions i = .maintaining window observed target →
        observed ≤ s.tables.revision ∧ MaintainKeeps sealer s i window observed) ∧
      (∀ now, Keeps sealer 0 s.tables (sweepLeases now s.tables).1) ∧
      s.tables.compacted ≤ s.tables.revision ∧
      ∀ ms s', AnyRun (step sealer) s ms s' → s.tables.compacted ≤ s'.tables.compacted := by
  have hsound := reachable_sound h
  refine ⟨fun rev t' htx => (compactTx_keeps hsound htx).1, fun i window observed target hs => ?_,
    fun now => ?_, hsound.horizon_le, fun ms s' h' => floor_monotone h'⟩
  · have hready := reachable_maintainReady h i
    rw [hs] at hready
    obtain ⟨rfl, hobserved⟩ := hready
    refine ⟨hobserved, fun now elapsed => ?_⟩
    obtain ⟨t', htx⟩ := compactTx_total hsound ((Nat.sub_le observed window).trans hobserved)
    obtain ⟨hkeeps, hfloor⟩ := @compactTx_keeps sealer _ _ _ _ hsound htx
    exact ⟨⟨t', s.log, Function.update s.sessions i .sweeping⟩,
      by simp [step, continueCall, hs, htx], by simp, hkeeps, hfloor⟩
  · have halike : Alike (rowsOf s.log) s.tables (sweepLeases now s.tables).1 :=
      ⟨hsound, consistent_of_tables hsound rfl rfl rfl, rfl⟩
    exact ⟨fun _ => rfl, fun _ _ => rfl, fun _ hsel => absurd hsel (Nat.not_lt_zero _),
      fun xs => (halike.answers_eq xs).symm⟩

/-- A maintenance with window 1 has read the head when another update of the pod lands. -/
def overtakenMaintenance : List (ℕ × Action) :=
  [(0, .begin (.mutate 0 (.create ⟨podA, [1], 0⟩))),
    (1, .begin (.mutate 0 (.update ⟨podA, [2], 0⟩ 1))), (2, .begin (.maintain 1)),
    (3, .begin (.mutate 0 (.update ⟨podA, [3], 0⟩ 2)))]

theorem overtaken_maintenance_keeps :
    ∃ s, AnyRun (step unsealed) .initial overtakenMaintenance s ∧
      MaintainKeeps unsealed s 2 1 2 := by
  have hexec : (Runs.exec (step unsealed) .initial overtakenMaintenance).map (fun s => s.sessions 2)
      = some (.maintaining 1 2 1) := by decide
  obtain ⟨s, hrun, hs⟩ := run_of_exec_map hexec
  exact ⟨s, hrun, ((compaction_loses_nothing unsealed hrun).2.1 2 1 2 1 hs).2⟩

end Hedronetes.Storage.Sqlite
