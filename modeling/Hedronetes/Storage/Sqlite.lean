import Hedronetes.Foundations.Runs
import Hedronetes.Storage.Stream

/-!
# The SQLite backend

SQLite runs each transaction atomically, so an operation is a function of the
tables. A call that makes several transactions lets other connections in between
them: a mutation commits and then queries the revision it reports, maintenance
reads the head and then compacts, and a watch makes a transaction for each page
and each poll. `step` interleaves the transactions of any number of connections.
-/

namespace Hedronetes.Storage.Sqlite

open VersionLog CursorScan Fallible

/-- At the greatest revision the sum becomes a REAL, which no longer reads as an integer. -/
def overflow : Error := .database "Invalid column type Real at index: 0, name: revision"

def clash : Error := .database "UNIQUE constraint failed: registry_versions.revision"

/-- The transaction of `mutate`: the tables it commits, its row, and the value it will return. -/
def mutateTx (sealer : SecretsSealer) (draw : ℕ) (m : Mutation) (t : Tables) :
    Result (Tables × Row × Bytes) := do
  let draft ← prepare sealer draw m (currentObject m.obj.key t.versions)
  let newRevision ← bumpRevision overflow t
  let returned ← returnedValue (decodeRowValue sealer) m draft
  let stored ← revisionI64 newRevision
  let versions ← insertRow clash (draft.row stored) t.versions
  pure ({ t with revision := newRevision, versions := versions }, draft.row stored, returned)

/-- The query `mutate` makes after its commit, outside any transaction. -/
def reportTx (row : Row) (returned : Bytes) (t : Tables) : Result StoredObject :=
  match latest row.key t.versions with
  | some stored => .ok ⟨row.key, returned, stored.revision⟩
  | none => .error (.database "Query returned no rows")

def get (sealer : SecretsSealer) (key : StoreKey) (t : Tables) : Result (Option StoredObject) :=
  getObject (decodeRowValue sealer) key t.versions

def list (sealer : SecretsSealer) (sel : ListSelect) (t : Tables) : Result ObjectList := do
  checkList sel
  let revision := listRevision sel.atRevision t.revision
  validateRevision revision t.revision t.compacted
  let revision ← revisionI64 revision
  listPage (decodeRowValue sealer) sel revision t.versions

def changes (sealer : SecretsSealer) (selected : String) (after : ℕ) (t : Tables) :
    Result (List WatchEvent × ℕ) := do
  validateRevision after t.revision t.compacted
  let after ← revisionI64 after
  let events ← (changeRows selected after t.versions).mapM
    (toEvent (decodeRowValue sealer) (decodePrevious sealer))
  pure (events, nextCursor t.revision events)

def compactTx (rev : ℕ) (t : Tables) : Result Tables :=
  if t.revision < rev then .error (.futureRevision rev t.revision)
  else if rev ≤ t.compacted then .ok t
  else do
    let rev ← revisionI64 rev
    pure { t with compacted := rev, versions := VersionLog.compact rev t.versions }

/-- What a finished call returned. `wrote` keeps the row the call inserted beside its answer. -/
inductive Outcome where
  | wrote (row : Row) (obj : StoredObject)
  | compacted
  | maintained (deleted : ℕ)
  | watchEnded (w : Watch) (cursor : ℕ) (e : Error)
  | failed (e : Error)
  deriving DecidableEq

/-- Where a connection's call stands between two of its transactions. -/
inductive Session where
  | idle
  | reporting (row : Row) (returned : Bytes)
  | maintaining (window observed target : ℕ)
  | sweeping
  | replaying (w : Watch) (next : Option StoreKey)
  | tailing (w : Watch) (cursor : ℕ)
  | done (outcome : Outcome)
  deriving DecidableEq

def Session.ready : Session → Bool
  | idle => true
  | done _ => true
  | _ => false

inductive Call where
  | mutate (draw : ℕ) (m : Mutation)
  | compact (rev : ℕ)
  | maintain (window : ℕ)
  | watch (sel : WatchSelect)

/-- The stream of a new watch. Without a start revision it replays the snapshot at
the anchor, unless the registry was empty then. -/
def openStream (sel : WatchSelect) (anchor : ℕ) : Session :=
  let w := Watch.register sel anchor
  match requestedRevision sel with
  | some _ => .tailing w anchor
  | none => if 0 < anchor then .replaying w none else .tailing (w.bookmark anchor) anchor

/-- The first transaction of a call. -/
def startCall (sealer : SecretsSealer) (call : Call) (t : Tables) :
    Tables × Option Commit × Session :=
  match call with
  | .mutate draw m =>
    match mutateTx sealer draw m t with
    | .error e => (t, none, .done (.failed e))
    | .ok (t', row, returned) => (t', some ⟨m, row⟩, .reporting row returned)
  | .compact rev =>
    match compactTx rev t with
    | .error e => (t, none, .done (.failed e))
    | .ok t' => (t', none, .done .compacted)
  | .maintain window =>
    match maintenanceRevision t.revision t.compacted window with
    | some target => (t, none, .maintaining window t.revision target)
    | none => (t, none, .sweeping)
  | .watch sel =>
    match watchAnchor sel t with
    | .error e => (t, none, .done (.failed e))
    | .ok anchor => (t, none, openStream sel anchor)

/-- One page of the initial snapshot; after the last one the opening bookmark. -/
def replayPage (sealer : SecretsSealer) (w : Watch) (next : Option StoreKey) (t : Tables) :
    Session :=
  match list sealer (snapshotSelect w next) t with
  | .error e => .done (.watchEnded w w.anchor e)
  | .ok page =>
    match page.nextAfter with
    | some key => .replaying (w.showPage page.items) (some key)
    | none => .tailing ((w.showPage page.items).bookmark w.anchor) w.anchor

/-- One poll of the log, and a bookmark when its interval has `elapsed`. -/
def poll (sealer : SecretsSealer) (w : Watch) (cursor : ℕ) (elapsed : Bool) (t : Tables) :
    Session :=
  match changes sealer w.sel.selected cursor t with
  | .error e => .done (.watchEnded w cursor e)
  | .ok (events, next) =>
    .tailing (if elapsed then (w.deliver events).bookmark next else w.deliver events) next

/-- The next transaction of an open call. -/
def continueCall (sealer : SecretsSealer) (now : ℕ) (elapsed : Bool) (session : Session)
    (t : Tables) : Option (Tables × Session) :=
  match session with
  | .reporting row returned =>
    match reportTx row returned t with
    | .ok obj => some (t, .done (.wrote row obj))
    | .error e => some (t, .done (.failed e))
  | .maintaining _ _ target =>
    match compactTx target t with
    | .ok t' => some (t', .sweeping)
    | .error e => some (t, .done (.failed e))
  | .sweeping => some ((sweepLeases now t).1, .done (.maintained (sweepLeases now t).2))
  | .replaying w next => some (t, replayPage sealer w next t)
  | .tailing w cursor => some (t, poll sealer w cursor elapsed t)
  | .idle => none
  | .done _ => none

/-- The database file, every row committed to it so far, and the connections. -/
structure State where
  tables : Tables
  log : List Commit
  sessions : ℕ → Session

def State.initial : State := ⟨.fresh, [], fun _ => .idle⟩

/-- A connection begins a call, continues it, or gives it up. -/
inductive Action where
  | begin (call : Call)
  | advance (now : ℕ) (elapsed : Bool)
  | abort

def step (sealer : SecretsSealer) (s : State) (label : ℕ × Action) : Option State :=
  match label.2 with
  | .begin call =>
    if (s.sessions label.1).ready then
      let result := startCall sealer call s.tables
      some ⟨result.1, s.log ++ result.2.1.toList,
        Function.update s.sessions label.1 result.2.2⟩
    else none
  | .advance now elapsed =>
    (continueCall sealer now elapsed (s.sessions label.1) s.tables).map fun result =>
      ⟨result.1, s.log, Function.update s.sessions label.1 result.2⟩
  | .abort => some { s with sessions := Function.update s.sessions label.1 .idle }

/-- Everything a committed `mutate` transaction did. -/
theorem mutateTx_ok {sealer : SecretsSealer} {draw : ℕ} {m : Mutation} {t t' : Tables} {row : Row}
    {returned : Bytes} (h : mutateTx sealer draw m t = .ok (t', row, returned)) :
    ∃ draft, prepare sealer draw m (currentObject m.obj.key t.versions) = .ok draft ∧
      returnedValue (decodeRowValue sealer) m draft = .ok returned ∧
      row = draft.row (t.revision + 1) ∧ row.revision ≤ maxRevision ∧
      t' = { t with revision := row.revision, versions := t.versions ++ [row] } := by
  obtain ⟨draft, hdraft, h⟩ := bind_eq_ok.mp h
  obtain ⟨newRevision, hbump, h⟩ := bind_eq_ok.mp h
  obtain ⟨value, hvalue, h⟩ := bind_eq_ok.mp h
  obtain ⟨stored, hstored, h⟩ := bind_eq_ok.mp h
  obtain ⟨versions, hinsert, h⟩ := bind_eq_ok.mp h
  obtain ⟨rfl, hfits⟩ := bumpRevision_ok hbump
  rw [revisionI64, if_pos hfits] at hstored
  cases Except.ok.inj hstored
  cases insertRow_ok hinsert
  have he := Except.ok.inj h
  simp only [Prod.mk.injEq] at he
  obtain ⟨rfl, rfl, rfl⟩ := he
  exact ⟨draft, hdraft, hvalue, rfl, hfits, rfl⟩

theorem compactTx_ok {rev : ℕ} {t t' : Tables} (h : compactTx rev t = .ok t') :
    rev ≤ t.revision ∧ (rev ≤ t.compacted ∧ t' = t ∨
      t.compacted < rev ∧
        t' = { t with compacted := rev, versions := VersionLog.compact rev t.versions }) := by
  unfold compactTx at h
  split_ifs at h with hfuture hfloor
  · exact ⟨not_lt.mp hfuture, Or.inl ⟨hfloor, (Except.ok.inj h).symm⟩⟩
  · obtain ⟨stored, hstored, h⟩ := bind_eq_ok.mp h
    unfold revisionI64 at hstored
    split_ifs at hstored
    cases Except.ok.inj hstored
    exact ⟨not_lt.mp hfuture, Or.inr ⟨not_le.mp hfloor, (Except.ok.inj h).symm⟩⟩

theorem openStream_cases (sel : WatchSelect) (anchor : ℕ) :
    (requestedRevision sel ≠ none ∧ openStream sel anchor = .tailing (.register sel anchor) anchor) ∨
      (requestedRevision sel = none ∧ 0 < anchor ∧
        openStream sel anchor = .replaying (.register sel anchor) none) ∨
      (requestedRevision sel = none ∧ anchor = 0 ∧
        openStream sel anchor = .tailing ((Watch.register sel anchor).bookmark anchor) anchor) := by
  unfold openStream
  cases h : requestedRevision sel with
  | some r => exact Or.inl ⟨by simp, rfl⟩
  | none =>
    rcases Nat.eq_zero_or_pos anchor with h0 | hpos
    · exact Or.inr (Or.inr ⟨rfl, h0, by simp [h0]⟩)
    · exact Or.inr (Or.inl ⟨rfl, hpos, by simp [hpos]⟩)

theorem replayPage_cases (sealer : SecretsSealer) (w : Watch) (next : Option StoreKey)
    (t : Tables) :
    (∃ e, list sealer (snapshotSelect w next) t = .error e ∧
        replayPage sealer w next t = .done (.watchEnded w w.anchor e)) ∨
      ∃ page, list sealer (snapshotSelect w next) t = .ok page ∧
        ((∃ key, page.nextAfter = some key ∧
          replayPage sealer w next t = .replaying (w.showPage page.items) (some key)) ∨
          (page.nextAfter = none ∧ replayPage sealer w next t =
            .tailing ((w.showPage page.items).bookmark w.anchor) w.anchor)) := by
  unfold replayPage
  cases hlist : list sealer (snapshotSelect w next) t with
  | error e => exact Or.inl ⟨e, rfl, rfl⟩
  | ok page =>
    refine Or.inr ⟨page, rfl, ?_⟩
    cases hnext : page.nextAfter with
    | some key => exact Or.inl ⟨key, rfl, by simp [hnext]⟩
    | none => exact Or.inr ⟨rfl, by simp [hnext]⟩

theorem poll_cases (sealer : SecretsSealer) (w : Watch) (cursor : ℕ) (elapsed : Bool) (t : Tables) :
    (∃ e, changes sealer w.sel.selected cursor t = .error e ∧
        poll sealer w cursor elapsed t = .done (.watchEnded w cursor e)) ∨
      ∃ events next, changes sealer w.sel.selected cursor t = .ok (events, next) ∧
        poll sealer w cursor elapsed t =
          .tailing (if elapsed then (w.deliver events).bookmark next else w.deliver events) next := by
  unfold poll
  cases h : changes sealer w.sel.selected cursor t with
  | error e => exact Or.inl ⟨e, rfl, rfl⟩
  | ok r => exact Or.inr ⟨r.1, r.2, rfl, rfl⟩

/-- Everything one transaction can do: from the tables and a connection's session,
on an action, to the tables, the commit and the session after it. -/
inductive Moves (sealer : SecretsSealer) (t : Tables) :
    Action → Session → Tables → Option Commit → Session → Prop
  | abort {session : Session} : Moves sealer t .abort session t none .idle
  | refused {a : Action} {session : Session} {e : Error} :
      Moves sealer t a session t none (.done (.failed e))
  | write {draw : ℕ} {m : Mutation} {session : Session} {t' : Tables} {row : Row}
      {returned : Bytes} : mutateTx sealer draw m t = .ok (t', row, returned) →
      Moves sealer t (.begin (.mutate draw m)) session t' (some ⟨m, row⟩) (.reporting row returned)
  | compact {rev : ℕ} {session : Session} {t' : Tables} : compactTx rev t = .ok t' →
      Moves sealer t (.begin (.compact rev)) session t' none (.done .compacted)
  | observe {window target : ℕ} {session : Session} :
      maintenanceRevision t.revision t.compacted window = some target →
      Moves sealer t (.begin (.maintain window)) session t none
        (.maintaining window t.revision target)
  | skip {window : ℕ} {session : Session} :
      Moves sealer t (.begin (.maintain window)) session t none .sweeping
  | register {sel : WatchSelect} {session : Session} {anchor : ℕ} :
      watchAnchor sel t = .ok anchor →
      Moves sealer t (.begin (.watch sel)) session t none (openStream sel anchor)
  | report {now : ℕ} {elapsed : Bool} {row : Row} {returned : Bytes} {obj : StoredObject} :
      reportTx row returned t = .ok obj →
      Moves sealer t (.advance now elapsed) (.reporting row returned) t none
        (.done (.wrote row obj))
  | maintain {now : ℕ} {elapsed : Bool} {window observed target : ℕ} {t' : Tables} :
      compactTx target t = .ok t' →
      Moves sealer t (.advance now elapsed) (.maintaining window observed target) t' none .sweeping
  | sweep {now : ℕ} {elapsed : Bool} :
      Moves sealer t (.advance now elapsed) .sweeping (sweepLeases now t).1 none
        (.done (.maintained (sweepLeases now t).2))
  | replay {now : ℕ} {elapsed : Bool} {w : Watch} {next : Option StoreKey} :
      Moves sealer t (.advance now elapsed) (.replaying w next) t none (replayPage sealer w next t)
  | poll {now : ℕ} {elapsed : Bool} {w : Watch} {cursor : ℕ} :
      Moves sealer t (.advance now elapsed) (.tailing w cursor) t none
        (poll sealer w cursor elapsed t)

theorem startCall_moves (sealer : SecretsSealer) (call : Call) (session : Session) (t : Tables) :
    Moves sealer t (.begin call) session (startCall sealer call t).1
      (startCall sealer call t).2.1 (startCall sealer call t).2.2 := by
  cases call with
  | mutate draw m =>
    cases htx : mutateTx sealer draw m t <;> simp only [startCall, htx]
    · exact .refused
    · exact .write htx
  | compact rev =>
    cases htx : compactTx rev t <;> simp only [startCall, htx]
    · exact .refused
    · exact .compact htx
  | maintain window =>
    cases htarget : maintenanceRevision t.revision t.compacted window <;>
      simp only [startCall, htarget]
    · exact .skip
    · exact .observe htarget
  | watch sel =>
    cases hanchor : watchAnchor sel t <;> simp only [startCall, hanchor]
    · exact .refused
    · exact .register hanchor

theorem continueCall_moves {sealer : SecretsSealer} {now : ℕ} {elapsed : Bool} {session : Session}
    {t : Tables} {result : Tables × Session}
    (h : continueCall sealer now elapsed session t = some result) :
    Moves sealer t (.advance now elapsed) session result.1 none result.2 := by
  cases session with
  | idle => cases h
  | done outcome => cases h
  | reporting row returned =>
    cases hreport : reportTx row returned t <;>
      simp only [continueCall, hreport, Option.some.injEq] at h <;> subst h
    · exact .refused
    · exact .report hreport
  | maintaining window observed target =>
    cases htx : compactTx target t <;>
      simp only [continueCall, htx, Option.some.injEq] at h <;> subst h
    · exact .refused
    · exact .maintain htx
  | sweeping =>
    cases h
    exact .sweep
  | replaying w next =>
    cases h
    exact .replay
  | tailing w cursor =>
    cases h
    exact .poll

/-- A finished mutation comes from a report. -/
theorem Moves.wrote_inv {sealer : SecretsSealer} {t t' : Tables} {a : Action}
    {session session' : Session} {commit : Option Commit} {row : Row} {obj : StoredObject}
    (h : Moves sealer t a session t' commit session') (hw : session' = .done (.wrote row obj)) :
    ∃ now elapsed returned, a = .advance now elapsed ∧ session = .reporting row returned ∧
      reportTx row returned t = .ok obj := by
  cases h with
  | report hreport =>
    cases hw
    exact ⟨_, _, _, rfl, rfl, hreport⟩
  | @register sel _ anchor _ =>
    rcases openStream_cases sel anchor with ⟨_, he⟩ | ⟨_, _, he⟩ | ⟨_, _, he⟩ <;>
      (rw [he] at hw; cases hw)
  | @replay _ _ w next =>
    rcases replayPage_cases sealer w next t with ⟨_, _, he⟩ | ⟨_, _, ⟨_, _, he⟩ | ⟨_, he⟩⟩ <;>
      (rw [he] at hw; cases hw)
  | @poll _ elapsed w cursor =>
    rcases poll_cases sealer w cursor elapsed t with ⟨_, _, he⟩ | ⟨_, _, _, he⟩ <;>
      (rw [he] at hw; cases hw)
  | _ => cases hw

/-- Every step is one move of one connection. -/
theorem step_cases {sealer : SecretsSealer} {s s' : State} {i : ℕ} {a : Action}
    (h : step sealer s (i, a) = some s') :
    ∃ t' commit session', Moves sealer s.tables a (s.sessions i) t' commit session' ∧
      s' = ⟨t', s.log ++ commit.toList, Function.update s.sessions i session'⟩ := by
  cases a with
  | abort =>
    cases h
    exact ⟨_, none, _, .abort, by simp⟩
  | begin call =>
    simp only [step] at h
    split_ifs at h
    cases h
    exact ⟨_, _, _, startCall_moves sealer call (s.sessions i) s.tables, rfl⟩
  | advance now elapsed =>
    obtain ⟨result, hresult, rfl⟩ := Option.map_eq_some_iff.mp h
    exact ⟨_, none, _, continueCall_moves hresult, by simp⟩

/-- The three things a move can do to the registry. -/
inductive Touches (sealer : SecretsSealer) (t t' : Tables) : Option Commit → Prop
  | write (draw : ℕ) (m : Mutation) (row : Row) (returned : Bytes) :
      mutateTx sealer draw m t = .ok (t', row, returned) → Touches sealer t t' (some ⟨m, row⟩)
  | compact (rev : ℕ) : compactTx rev t = .ok t' → Touches sealer t t' none
  | frame : t'.revision = t.revision → t'.compacted = t.compacted → t'.versions = t.versions →
      Touches sealer t t' none

theorem Moves.touches {sealer : SecretsSealer} {t t' : Tables} {a : Action}
    {session session' : Session} {commit : Option Commit}
    (h : Moves sealer t a session t' commit session') : Touches sealer t t' commit := by
  cases h with
  | write htx => exact .write _ _ _ _ htx
  | compact htx => exact .compact _ htx
  | maintain htx => exact .compact _ htx
  | _ => exact .frame rfl rfl rfl

end Hedronetes.Storage.Sqlite
