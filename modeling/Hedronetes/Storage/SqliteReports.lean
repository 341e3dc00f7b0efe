import Hedronetes.Storage.SqliteInvariant

/-!
# What a SQLite mutation reports

`mutate` commits its row and then, outside the transaction, queries the latest
revision of the key. The answer names the row of this call exactly when no other
connection has committed to the key in between.
-/

namespace Hedronetes.Storage.Sqlite

open VersionLog CursorScan Fallible Runs

variable {sealer : SecretsSealer}

/-- The answer of a call is the row it inserted, with the value opened. -/
structure OwnRow (sealer : SecretsSealer) (log : List Row) (row : Row) (obj : StoredObject) :
    Prop where
  committed : row ∈ log
  key : obj.key = row.key
  revision : obj.revision = row.revision
  value : isLive row = true → decodeRowValue sealer row.value.bytes = .ok obj.value

/-- No row of the key is newer than `row`. -/
def Newest (row : Row) (versions : List Row) : Prop :=
  ∀ v ∈ versions, v.key = row.key → v.revision ≤ row.revision

/-- A step in which a connection makes its report finds the row of its call newest. -/
def ReportsNewest (s : State) (label : ℕ × Action) : Prop :=
  match label.2, s.sessions label.1 with
  | .advance _ _, .reporting row _ => Newest row s.tables.versions
  | _, _ => True

/-- Between commit and report a connection knows its row and the opened value. -/
def ReportReady (sealer : SecretsSealer) (log : List Row) : Session → Prop
  | .reporting row returned =>
    row ∈ log ∧ (isLive row = true → decodeRowValue sealer row.value.bytes = .ok returned)
  | _ => True

theorem ReportReady.mono {log log' : List Row} {session : Session}
    (h : ReportReady sealer log session) (hl : log ⊆ log') : ReportReady sealer log' session := by
  cases session with
  | reporting row returned => exact ⟨hl h.1, h.2⟩
  | _ => trivial

/-- The report of a call whose row is in the log names the newest row of the key. -/
theorem reportTx_eq {s : State} (h : Sound s) {row : Row} (hrow : row ∈ rowsOf s.log)
    (returned : Bytes) :
    ∃ stored, latest row.key s.tables.versions = some stored ∧
      reportTx row returned s.tables = .ok ⟨row.key, returned, stored.revision⟩ := by
  obtain ⟨stored, hstored⟩ := newest_exists (p := fun v => v.key = row.key) hrow (by simp)
  have hlatest : latest row.key s.tables.versions = some stored := by
    rw [h.latest_eq]
    exact hstored
  exact ⟨stored, hlatest, by simp [reportTx, hlatest]⟩

/-- The newest row of the key is the row of the call exactly when none is newer. -/
theorem latest_revision_iff {s : State} (h : Sound s) {row stored : Row}
    (hrow : row ∈ rowsOf s.log) (hstored : latest row.key s.tables.versions = some stored) :
    stored.revision = row.revision ↔ Newest row s.tables.versions := by
  constructor
  · intro he v hv hk
    rw [← he]
    exact newest_le hstored hv (by simp [hk])
  · intro hnew
    have hge : row.revision ≤ stored.revision := by
      rw [h.latest_eq] at hstored
      exact newest_le hstored hrow (by simp)
    obtain ⟨hmem, hkey⟩ := latest_mem hstored
    exact le_antisymm (hnew stored hmem hkey) hge

/-- Every finished create or update answered with its own row. -/
def ReportsOwn (sealer : SecretsSealer) (s : State) : Prop :=
  ∀ i row obj, s.sessions i = .done (.wrote row obj) → OwnRow sealer (rowsOf s.log) row obj

theorem OwnRow.mono {log log' : List Row} {row : Row} {obj : StoredObject}
    (h : OwnRow sealer log row obj) (hl : log ⊆ log') : OwnRow sealer log' row obj :=
  ⟨hl h.committed, h.key, h.revision, h.value⟩

/-- Only a commit leaves a connection waiting to report, and it knows its own row. -/
theorem Moves.reportReady {log : List Commit} {t t' : Tables} {a : Action}
    {session session' : Session} {commit : Option Commit}
    (h : Moves sealer t a session t' commit session') :
    ReportReady sealer (rowsOf (log ++ commit.toList)) session' := by
  cases h with
  | write htx =>
    obtain ⟨draft, hdraft, hret, rfl, _, _⟩ := mutateTx_ok htx
    refine ⟨by simp, fun hlive => ?_⟩
    rw [prepare_isLive hdraft] at hlive
    rw [returnedValue, if_neg (by simpa using hlive)] at hret
    exact hret
  | @register sel _ anchor _ =>
    rcases openStream_cases sel anchor with ⟨_, he⟩ | ⟨_, _, he⟩ | ⟨_, _, he⟩ <;>
      (rw [he]; trivial)
  | @replay _ _ w next =>
    rcases replayPage_cases sealer w next t with ⟨_, _, he⟩ | ⟨_, _, ⟨_, _, he⟩ | ⟨_, he⟩⟩ <;>
      (rw [he]; trivial)
  | @poll _ elapsed w cursor =>
    rcases poll_cases sealer w cursor elapsed t with ⟨_, _, he⟩ | ⟨_, _, _, he⟩ <;>
      (rw [he]; trivial)
  | _ => trivial

/-- The report made next is one's own row exactly when no newer row of the key is there. -/
theorem reportTx_own_iff {s : State} (h : Sound s) {row : Row} {returned : Bytes}
    (hready : ReportReady sealer (rowsOf s.log) (.reporting row returned)) {obj : StoredObject}
    (hreport : reportTx row returned s.tables = .ok obj) :
    OwnRow sealer (rowsOf s.log) row obj ↔ Newest row s.tables.versions := by
  obtain ⟨stored, hstored, heq⟩ := reportTx_eq h hready.1 returned
  have hobj := Except.ok.inj (heq.symm.trans hreport)
  rw [← latest_revision_iff h hready.1 hstored, ← hobj]
  constructor
  · exact fun hown => hown.revision
  · exact fun hrev => ⟨hready.1, rfl, hrev, hready.2⟩

theorem reachable_reportReady {s : State} {ls : List (ℕ × Action)}
    (h : AnyRun (step sealer) .initial ls s) (i : ℕ) :
    ReportReady sealer (rowsOf s.log) (s.sessions i) := by
  have hall : ∀ i, ReportReady sealer (rowsOf s.log) (s.sessions i) := by
    refine h.invariant (I := fun s => ∀ i, ReportReady sealer (rowsOf s.log) (s.sessions i))
      (fun j => by trivial) fun s l s' hs _ hstep j => ?_
    obtain ⟨t', commit, session', hmove, rfl⟩ := step_cases hstep
    by_cases hj : j = l.1
    · simpa [hj] using hmove.reportReady
    · simpa [hj] using (hs j).mono (by simp)
  exact hall i

/-- On a run whose every report finds the row of its call newest, each answer is
the row its call inserted. -/
theorem guarded_reportsOwn {s : State} {ls : List (ℕ × Action)}
    (h : Run (step sealer) ReportsNewest .initial ls s) : ReportsOwn sealer s := by
  induction h with
  | nil => intro i row obj hi; simp [State.initial] at hi
  | @snoc ls s s' l hrun hguard hstep ih =>
    have hsound := reachable_sound hrun.any
    have hready := reachable_reportReady hrun.any l.1
    obtain ⟨t', commit, session', hmove, rfl⟩ := step_cases hstep
    intro j row obj hj
    by_cases hjl : j = l.1
    · subst hjl
      obtain ⟨now, elapsed, returned, haction, hsession, hreport⟩ :=
        hmove.wrote_inv (by simpa using hj)
      rw [hsession] at hready
      have hnew : Newest row s.tables.versions := by
        simpa [ReportsNewest, hsession, haction] using hguard
      have hown := (reportTx_own_iff hsound hready hreport).mpr hnew
      exact hown.mono (by simp)
    · simp only [ne_eq, hjl, not_false_eq_true, Function.update_of_ne] at hj
      exact (ih j row obj hj).mono (by simp)

/-- A create or update answers with the key, revision and value of the row it
inserted, on every run whose reports find that row newest; and a connection that is
about to report answers so exactly when no newer row of its key has been committed. -/
theorem mutation_reports_own_row (sealer : SecretsSealer) :
    (∀ ls s, Run (step sealer) ReportsNewest .initial ls s → ReportsOwn sealer s) ∧
      ∀ ls s, AnyRun (step sealer) .initial ls s → ∀ i row returned now elapsed,
        s.sessions i = .reporting row returned →
        ∃ s' obj, step sealer s (i, .advance now elapsed) = some s' ∧
          s'.sessions i = .done (.wrote row obj) ∧
          (OwnRow sealer (rowsOf s'.log) row obj ↔ Newest row s.tables.versions) := by
  refine ⟨fun ls s h => guarded_reportsOwn h, fun ls s h i row returned now elapsed hi => ?_⟩
  have hsound := reachable_sound h
  have hready := reachable_reportReady h i
  rw [hi] at hready
  obtain ⟨stored, _, hreport⟩ := reportTx_eq hsound hready.1 returned
  set answer : StoredObject := ⟨row.key, returned, stored.revision⟩
  refine ⟨⟨s.tables, s.log, Function.update s.sessions i (.done (.wrote row answer))⟩, answer,
    ?_, by simp, reportTx_own_iff hsound hready hreport⟩
  simp [step, continueCall, hi, hreport]

/-- One connection creates a pod; before it reports, another one updates it. -/
def overtakenCreate : List (ℕ × Action) :=
  [(0, .begin (.mutate 0 (.create ⟨podA, [1], 0⟩))),
    (1, .begin (.mutate 0 (.update ⟨podA, [2], 0⟩ 1))), (0, .advance 0 false)]

/-- The overtaken create answers with the other connection's revision. -/
theorem overtaken_create_reports_other_row :
    ¬ ∀ ls s, AnyRun (step unsealed) .initial ls s → ReportsOwn unsealed s := by
  intro h
  have hexec : (Runs.exec (step unsealed) .initial overtakenCreate).map (fun s => s.sessions 0) =
      some (.done (.wrote ⟨podA, 1, ⟨[1], 0⟩⟩ ⟨podA, [1], 2⟩)) := by decide
  obtain ⟨s, hrun, hs⟩ := run_of_exec_map hexec
  have hown := (h _ _ hrun 0 _ _ hs).revision
  exact absurd hown (by decide)

/-- A create that reports at once answers with its own row. -/
theorem prompt_create_reports_own_row :
    ∃ s, AnyRun (step unsealed) .initial [(0, .begin (.mutate 0 (.create ⟨podA, [1], 0⟩)))] s ∧
      ∃ s' obj, step unsealed s (0, .advance 0 false) = some s' ∧
        s'.sessions 0 = .done (.wrote ⟨podA, 1, ⟨[1], 0⟩⟩ obj) ∧
        (OwnRow unsealed (rowsOf s'.log) ⟨podA, 1, ⟨[1], 0⟩⟩ obj ↔
          Newest ⟨podA, 1, ⟨[1], 0⟩⟩ s.tables.versions) := by
  have hexec : (Runs.exec (step unsealed) .initial
      [(0, .begin (.mutate 0 (.create ⟨podA, [1], 0⟩)))]).map (fun s => s.sessions 0) =
      some (.reporting ⟨podA, 1, ⟨[1], 0⟩⟩ [1]) := by decide
  obtain ⟨s, hrun, hs⟩ := run_of_exec_map hexec
  exact ⟨s, hrun, (mutation_reports_own_row unsealed).2 _ s hrun 0 _ _ 0 false hs⟩

end Hedronetes.Storage.Sqlite
