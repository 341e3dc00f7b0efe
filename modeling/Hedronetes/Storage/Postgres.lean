import Hedronetes.Foundations.Runs
import Hedronetes.Storage.Stream

/-!
# The Postgres backend

Under READ COMMITTED each statement reads what is committed when it starts, so the
machine here steps from statement to statement. Only the meta row is locked, from
the `UPDATE` that takes it to the end of its transaction; what a transaction has
written is visible from its `COMMIT` on. Deletes that meet each other's rows wait
on a real server; here they need not, which only adds runs.
-/

namespace Hedronetes.Storage.Postgres

open VersionLog CursorScan Fallible

def overflow : Error := .worker "postgres registry: bigint out of range (22003)"

def clash : Error :=
  .worker "postgres registry: duplicate key value violates unique constraint (23505)"

/-- How the changes query opens a predecessor: like any other value. -/
abbrev openPrevious (sealer : SecretsSealer) : StoreKey → Bytes → Result Bytes :=
  fun _ => openRowValue sealer

def get (sealer : SecretsSealer) (key : StoreKey) (t : Tables) : Result (Option StoredObject) :=
  getObject (openRowValue sealer) key t.versions

/-- The checks of `list` and its first statement, which fixes the revision. -/
def listHead (sel : ListSelect) (t : Tables) : Result ℕ := do
  checkList sel
  let revision := listRevision sel.atRevision t.revision
  validateRevision revision t.revision t.compacted
  revisionI64 revision

/-- The first statement of `changes`, which reads the head. -/
def changesHead (after : ℕ) (t : Tables) : Result ℕ := do
  validateRevision after t.revision t.compacted
  let _ ← revisionI64 after
  pure t.revision

/-- The second statement of `changes`. -/
def changesRows (sealer : SecretsSealer) (selected : String) (after : ℕ) (t : Tables) :
    Result (List WatchEvent) :=
  (changeRows selected after t.versions).mapM (toEvent (openRowValue sealer) (openPrevious sealer))

/-- The `INSERT` of `mutate`, after the value has been read back. -/
def insertEvent (sealer : SecretsSealer) (m : Mutation) (draft : Draft) (newRevision : ℕ)
    (t : Tables) : Result (Row × Bytes) := do
  let returned ← returnedValue (openRowValue sealer) m draft
  let stored ← revisionI64 newRevision
  let _ ← insertRow clash (draft.row stored) t.versions
  pure (draft.row stored, returned)

inductive Outcome where
  | wrote (row : Row) (obj : StoredObject)
  | listed (sel : ListSelect) (page : ObjectList)
  | compacted
  | maintained (deleted : ℕ)
  | watchEnded (w : Watch) (cursor : ℕ) (e : Error)
  | failed (e : Error)
  deriving DecidableEq

/-- Where a call stands, named by the statement it makes next. `maintains` tells a
compaction inside `maintain` from one of its own. -/
inductive Session where
  | idle
  | checked (m : Mutation) (draft : Draft)
  | bumped (m : Mutation) (draft : Draft) (newRevision : ℕ)
  | inserted (m : Mutation) (row : Row) (returned : Bytes)
  | listing (sel : ListSelect) (revision : ℕ)
  | compacting (rev : ℕ)
  | deleting (rev : ℕ) (maintains : Bool)
  | flooring (rev : ℕ) (gone : List ℕ) (maintains : Bool)
  | floored (rev : ℕ) (gone : List ℕ) (maintains : Bool)
  | sweeping
  | paging (w : Watch) (snapshot : Option ℕ) (next : Option StoreKey)
  | pageRows (w : Watch) (snapshot : Option ℕ) (next : Option StoreKey) (revision : ℕ)
  | tailing (w : Watch) (cursor : ℕ)
  | polling (w : Watch) (cursor current : ℕ)
  | done (outcome : Outcome)
  deriving DecidableEq

def Session.ready : Session → Bool
  | idle => true
  | done _ => true
  | _ => false

inductive Call where
  | mutate (draw : ℕ) (m : Mutation)
  | list (sel : ListSelect)
  | compact (rev : ℕ)
  | maintain (window : ℕ)
  | watch (sel : WatchSelect)

/-- What is committed, who has locked the meta row, and the history: every row ever
committed and the greatest revision any compaction has committed at. -/
structure Database where
  tables : Tables
  lock : Option ℕ
  log : List Commit
  horizon : ℕ

namespace Database

def fresh : Database := ⟨.fresh, none, [], 0⟩

/-- The end of the transaction of connection `i`. -/
def unlock (d : Database) (i : ℕ) : Database :=
  { d with lock := if d.lock = some i then none else d.lock }

/-- `COMMIT` of a mutation. -/
def commitRow (d : Database) (m : Mutation) (row : Row) : Database where
  tables := { d.tables with revision := row.revision, versions := d.tables.versions ++ [row] }
  lock := none
  log := d.log ++ [⟨m, row⟩]
  horizon := d.horizon

/-- `COMMIT` of a compaction. -/
def commitFloor (d : Database) (rev : ℕ) (gone : List ℕ) : Database where
  tables :=
    { d.tables with
      compacted := rev
      versions := d.tables.versions.filter fun v => v.revision ∉ gone }
  lock := none
  log := d.log
  horizon := max d.horizon rev

end Database

/-- The stream of a new watch. -/
def openStream (sel : WatchSelect) (anchor : ℕ) : Session :=
  match requestedRevision sel with
  | some _ => .tailing (.register sel anchor) anchor
  | none => .paging (.register sel anchor) none none

/-- A compaction that is over, or that had nothing to do. -/
def afterCompaction (maintains : Bool) : Session :=
  if maintains then .sweeping else .done .compacted

/-- The first statement of `compact`. -/
def compactHead (rev : ℕ) (maintains : Bool) (t : Tables) : Session :=
  if t.revision < rev then .done (.failed (.futureRevision rev t.revision))
  else if rev ≤ t.compacted then afterCompaction maintains
  else .deleting rev maintains

/-- The first statement of a call. -/
def startCall (sealer : SecretsSealer) (call : Call) (t : Tables) : Session :=
  match call with
  | .mutate draw m =>
    match prepare sealer draw m (currentObject m.obj.key t.versions) with
    | .error e => .done (.failed e)
    | .ok draft => .checked m draft
  | .list sel =>
    match listHead sel t with
    | .error e => .done (.failed e)
    | .ok revision => .listing sel revision
  | .compact rev => compactHead rev false t
  | .maintain window =>
    match maintenanceRevision t.revision t.compacted window with
    | some target => .compacting target
    | none => .sweeping
  | .watch sel =>
    match watchAnchor sel t with
    | .error e => .done (.failed e)
    | .ok anchor => openStream sel anchor

/-- The rows of a snapshot page; after the last one the bookmark at the revision of
the first page, and on to the log after the anchor. -/
def showRows (sealer : SecretsSealer) (w : Watch) (snapshot : Option ℕ) (next : Option StoreKey)
    (revision : ℕ) (t : Tables) : Session :=
  match listPage (openRowValue sealer) (snapshotSelect w next) revision t.versions with
  | .error e => .done (.watchEnded w w.anchor e)
  | .ok page =>
    let snapshot := snapshot.getD page.revision
    match page.nextAfter with
    | some key => .paging (w.showPage page.items) (some snapshot) (some key)
    | none => .tailing ((w.showPage page.items).bookmark snapshot) w.anchor

/-- The rows of a poll, and a bookmark when its interval has `elapsed`. -/
def deliverRows (sealer : SecretsSealer) (w : Watch) (cursor current : ℕ) (elapsed : Bool)
    (t : Tables) : Session :=
  match changesRows sealer w.sel.selected cursor t with
  | .error e => .done (.watchEnded w cursor e)
  | .ok events =>
    let next := nextCursor current events
    .tailing (if elapsed then (w.deliver events).bookmark next else w.deliver events) next

/-- The next statement of an open call of connection `i`. An `UPDATE` of the meta row
waits while another transaction holds it. -/
def continueCall (sealer : SecretsSealer) (i now : ℕ) (elapsed : Bool) (session : Session)
    (d : Database) : Option (Database × Session) :=
  match session with
  | .idle => none
  | .checked m draft =>
    if d.lock = none then
      match bumpRevision overflow d.tables with
      | .error e => some (d, .done (.failed e))
      | .ok newRevision => some ({ d with lock := some i }, .bumped m draft newRevision)
    else none
  | .bumped m draft newRevision =>
    match insertEvent sealer m draft newRevision d.tables with
    | .error e => some (d.unlock i, .done (.failed e))
    | .ok (row, returned) => some (d, .inserted m row returned)
  | .inserted m row returned =>
    some (d.commitRow m row, .done (.wrote row ⟨row.key, returned, row.revision⟩))
  | .listing sel revision =>
    match listPage (openRowValue sealer) sel revision d.tables.versions with
    | .error e => some (d, .done (.failed e))
    | .ok page => some (d, .done (.listed sel page))
  | .compacting rev => some (d, compactHead rev true d.tables)
  | .deleting rev maintains => some (d, .flooring rev (doomed rev d.tables.versions) maintains)
  | .flooring rev gone maintains =>
    if d.lock = none then some ({ d with lock := some i }, .floored rev gone maintains) else none
  | .floored rev gone maintains => some (d.commitFloor rev gone, afterCompaction maintains)
  | .sweeping =>
    some ({ d with tables := (sweepLeases now d.tables).1 },
      .done (.maintained (sweepLeases now d.tables).2))
  | .paging w snapshot next =>
    match listHead (snapshotSelect w next) d.tables with
    | .error e => some (d, .done (.watchEnded w w.anchor e))
    | .ok revision => some (d, .pageRows w snapshot next revision)
  | .pageRows w snapshot next revision =>
    some (d, showRows sealer w snapshot next revision d.tables)
  | .tailing w cursor =>
    match changesHead cursor d.tables with
    | .error e => some (d, .done (.watchEnded w cursor e))
    | .ok current => some (d, .polling w cursor current)
  | .polling w cursor current => some (d, deliverRows sealer w cursor current elapsed d.tables)
  | .done _ => none

/-- The database and the calls of any number of servers. -/
structure State where
  db : Database
  sessions : ℕ → Session

def State.initial : State := ⟨.fresh, fun _ => .idle⟩

/-- A connection begins a call, makes its next statement, or is cut off. -/
inductive Action where
  | begin (call : Call)
  | advance (now : ℕ) (elapsed : Bool)
  | abort

def step (sealer : SecretsSealer) (s : State) (label : ℕ × Action) : Option State :=
  match label.2 with
  | .begin call =>
    if (s.sessions label.1).ready then
      some { s with
        sessions := Function.update s.sessions label.1 (startCall sealer call s.db.tables) }
    else none
  | .advance now elapsed =>
    (continueCall sealer label.1 now elapsed (s.sessions label.1) s.db).map fun result =>
      ⟨result.1, Function.update s.sessions label.1 result.2⟩
  | .abort =>
    some ⟨s.db.unlock label.1, Function.update s.sessions label.1 .idle⟩

/-- The statements of a mutation on one connection, one after the other. -/
def mutating (i : ℕ) (m : Mutation) : List (ℕ × Action) :=
  [(i, .begin (.mutate 0 m)), (i, .advance 0 false), (i, .advance 0 false), (i, .advance 0 false)]

/-- The sessions whose transaction has locked the meta row. -/
def Session.holds : Session → Bool
  | bumped _ _ _ => true
  | inserted _ _ _ => true
  | floored _ _ _ => true
  | _ => false

theorem Session.holds_of_ready {session : Session} (h : session.ready = true) :
    session.holds = false := by
  cases session <;> first | rfl | cases h

@[simp] theorem afterCompaction_holds (maintains : Bool) :
    (afterCompaction maintains).holds = false := by
  cases maintains <;> rfl

@[simp] theorem openStream_holds (sel : WatchSelect) (anchor : ℕ) :
    (openStream sel anchor).holds = false := by
  unfold openStream
  split <;> rfl

theorem showRows_cases (sealer : SecretsSealer) (w : Watch) (snapshot : Option ℕ)
    (next : Option StoreKey) (revision : ℕ) (t : Tables) :
    (∃ e, listPage (openRowValue sealer) (snapshotSelect w next) revision t.versions = .error e ∧
        showRows sealer w snapshot next revision t = .done (.watchEnded w w.anchor e)) ∨
      ∃ page, listPage (openRowValue sealer) (snapshotSelect w next) revision t.versions =
          .ok page ∧
        ((∃ key, page.nextAfter = some key ∧ showRows sealer w snapshot next revision t =
            .paging (w.showPage page.items) (some (snapshot.getD page.revision)) (some key)) ∨
          (page.nextAfter = none ∧ showRows sealer w snapshot next revision t =
            .tailing ((w.showPage page.items).bookmark (snapshot.getD page.revision)) w.anchor)) := by
  unfold showRows
  cases hpage : listPage (openRowValue sealer) (snapshotSelect w next) revision t.versions with
  | error e => exact Or.inl ⟨e, rfl, rfl⟩
  | ok page =>
    refine Or.inr ⟨page, rfl, ?_⟩
    cases hnext : page.nextAfter with
    | some key => exact Or.inl ⟨key, rfl, by simp [hnext]⟩
    | none => exact Or.inr ⟨rfl, by simp [hnext]⟩

theorem deliverRows_cases (sealer : SecretsSealer) (w : Watch) (cursor current : ℕ)
    (elapsed : Bool) (t : Tables) :
    (∃ e, changesRows sealer w.sel.selected cursor t = .error e ∧
        deliverRows sealer w cursor current elapsed t = .done (.watchEnded w cursor e)) ∨
      ∃ events, changesRows sealer w.sel.selected cursor t = .ok events ∧
        deliverRows sealer w cursor current elapsed t =
          .tailing (if elapsed then (w.deliver events).bookmark (nextCursor current events)
            else w.deliver events) (nextCursor current events) := by
  unfold deliverRows
  cases h : changesRows sealer w.sel.selected cursor t with
  | error e => exact Or.inl ⟨e, rfl, rfl⟩
  | ok events => exact Or.inr ⟨events, rfl, rfl⟩

@[simp] theorem showRows_holds (sealer : SecretsSealer) (w : Watch) (snapshot : Option ℕ)
    (next : Option StoreKey) (revision : ℕ) (t : Tables) :
    (showRows sealer w snapshot next revision t).holds = false := by
  rcases showRows_cases sealer w snapshot next revision t with
    ⟨_, _, he⟩ | ⟨_, _, ⟨_, _, he⟩ | ⟨_, he⟩⟩ <;> (rw [he]; rfl)

@[simp] theorem deliverRows_holds (sealer : SecretsSealer) (w : Watch) (cursor current : ℕ)
    (elapsed : Bool) (t : Tables) :
    (deliverRows sealer w cursor current elapsed t).holds = false := by
  rcases deliverRows_cases sealer w cursor current elapsed t with ⟨_, _, he⟩ | ⟨_, _, he⟩ <;>
    (rw [he]; rfl)

/-- Everything one statement can do: from the database and a connection's session, on
an action, to the database and the session after it. -/
inductive Moves (sealer : SecretsSealer) (i : ℕ) (d : Database) :
    Action → Session → Database → Session → Prop
  | abort {session : Session} : Moves sealer i d .abort session (d.unlock i) .idle
  | refuse {a : Action} {session : Session} {e : Error} : session.holds = false →
      Moves sealer i d a session d (.done (.failed e))
  | drop {now : ℕ} {elapsed : Bool} {m : Mutation} {draft : Draft} {newRevision : ℕ} {e : Error} :
      Moves sealer i d (.advance now elapsed) (.bumped m draft newRevision) (d.unlock i)
        (.done (.failed e))
  | check {draw : ℕ} {m : Mutation} {draft : Draft} {session : Session} :
      session.holds = false →
      prepare sealer draw m (currentObject m.obj.key d.tables.versions) = .ok draft →
      Moves sealer i d (.begin (.mutate draw m)) session d (.checked m draft)
  | bump {now : ℕ} {elapsed : Bool} {m : Mutation} {draft : Draft} {newRevision : ℕ} :
      d.lock = none → bumpRevision overflow d.tables = .ok newRevision →
      Moves sealer i d (.advance now elapsed) (.checked m draft) { d with lock := some i }
        (.bumped m draft newRevision)
  | insert {now : ℕ} {elapsed : Bool} {m : Mutation} {draft : Draft} {newRevision : ℕ} {row : Row}
      {returned : Bytes} : insertEvent sealer m draft newRevision d.tables = .ok (row, returned) →
      Moves sealer i d (.advance now elapsed) (.bumped m draft newRevision) d
        (.inserted m row returned)
  | commit {now : ℕ} {elapsed : Bool} {m : Mutation} {row : Row} {returned : Bytes} :
      Moves sealer i d (.advance now elapsed) (.inserted m row returned) (d.commitRow m row)
        (.done (.wrote row ⟨row.key, returned, row.revision⟩))
  | select {sel : ListSelect} {revision : ℕ} {session : Session} : session.holds = false →
      listHead sel d.tables = .ok revision →
      Moves sealer i d (.begin (.list sel)) session d (.listing sel revision)
  | page {now : ℕ} {elapsed : Bool} {sel : ListSelect} {revision : ℕ} {page : ObjectList} :
      listPage (openRowValue sealer) sel revision d.tables.versions = .ok page →
      Moves sealer i d (.advance now elapsed) (.listing sel revision) d (.done (.listed sel page))
  | observe {window target : ℕ} {session : Session} : session.holds = false →
      maintenanceRevision d.tables.revision d.tables.compacted window = some target →
      Moves sealer i d (.begin (.maintain window)) session d (.compacting target)
  | skip {a : Action} {session : Session} {maintains : Bool} : session.holds = false →
      Moves sealer i d a session d (afterCompaction maintains)
  | allow {a : Action} {session : Session} {rev : ℕ} {maintains : Bool} : session.holds = false →
      a = .begin (.compact rev) ∨ session = .compacting rev →
      rev ≤ d.tables.revision → d.tables.compacted < rev →
      Moves sealer i d a session d (.deleting rev maintains)
  | delete {now : ℕ} {elapsed : Bool} {rev : ℕ} {maintains : Bool} :
      Moves sealer i d (.advance now elapsed) (.deleting rev maintains) d
        (.flooring rev (doomed rev d.tables.versions) maintains)
  | take {now : ℕ} {elapsed : Bool} {rev : ℕ} {gone : List ℕ} {maintains : Bool} : d.lock = none →
      Moves sealer i d (.advance now elapsed) (.flooring rev gone maintains)
        { d with lock := some i } (.floored rev gone maintains)
  | compact {now : ℕ} {elapsed : Bool} {rev : ℕ} {gone : List ℕ} {maintains : Bool} :
      Moves sealer i d (.advance now elapsed) (.floored rev gone maintains) (d.commitFloor rev gone)
        (afterCompaction maintains)
  | sweep {now : ℕ} {elapsed : Bool} :
      Moves sealer i d (.advance now elapsed) .sweeping
        { d with tables := (sweepLeases now d.tables).1 }
        (.done (.maintained (sweepLeases now d.tables).2))
  | register {sel : WatchSelect} {session : Session} {anchor : ℕ} : session.holds = false →
      watchAnchor sel d.tables = .ok anchor →
      Moves sealer i d (.begin (.watch sel)) session d (openStream sel anchor)
  | turn {now : ℕ} {elapsed : Bool} {w : Watch} {snapshot : Option ℕ} {next : Option StoreKey}
      {revision : ℕ} : listHead (snapshotSelect w next) d.tables = .ok revision →
      Moves sealer i d (.advance now elapsed) (.paging w snapshot next) d
        (.pageRows w snapshot next revision)
  | breakOff {now : ℕ} {elapsed : Bool} {w : Watch} {snapshot : Option ℕ} {next : Option StoreKey}
      {e : Error} : listHead (snapshotSelect w next) d.tables = .error e →
      Moves sealer i d (.advance now elapsed) (.paging w snapshot next) d
        (.done (.watchEnded w w.anchor e))
  | reveal {now : ℕ} {elapsed : Bool} {w : Watch} {snapshot : Option ℕ} {next : Option StoreKey}
      {revision : ℕ} :
      Moves sealer i d (.advance now elapsed) (.pageRows w snapshot next revision) d
        (showRows sealer w snapshot next revision d.tables)
  | head {now : ℕ} {elapsed : Bool} {w : Watch} {cursor current : ℕ} :
      changesHead cursor d.tables = .ok current →
      Moves sealer i d (.advance now elapsed) (.tailing w cursor) d (.polling w cursor current)
  | expire {now : ℕ} {elapsed : Bool} {w : Watch} {cursor : ℕ} {e : Error} :
      changesHead cursor d.tables = .error e →
      Moves sealer i d (.advance now elapsed) (.tailing w cursor) d
        (.done (.watchEnded w cursor e))
  | deliver {now : ℕ} {elapsed : Bool} {w : Watch} {cursor current : ℕ} :
      Moves sealer i d (.advance now elapsed) (.polling w cursor current) d
        (deliverRows sealer w cursor current elapsed d.tables)

theorem compactHead_moves (sealer : SecretsSealer) (i : ℕ) (d : Database) {a : Action}
    {session : Session} (h : session.holds = false) {rev : ℕ}
    (hcall : a = .begin (.compact rev) ∨ session = .compacting rev) (maintains : Bool) :
    Moves sealer i d a session d (compactHead rev maintains d.tables) := by
  unfold compactHead
  split_ifs with hfuture hfloor
  · exact .refuse h
  · exact .skip h
  · exact .allow h hcall (not_lt.mp hfuture) (not_le.mp hfloor)

theorem startCall_moves (sealer : SecretsSealer) (i : ℕ) (d : Database) (call : Call)
    {session : Session} (h : session.holds = false) :
    Moves sealer i d (.begin call) session d (startCall sealer call d.tables) := by
  cases call with
  | mutate draw m =>
    cases hdraft : prepare sealer draw m (currentObject m.obj.key d.tables.versions) <;>
      simp only [startCall, hdraft]
    · exact .refuse h
    · exact .check h hdraft
  | list sel =>
    cases hhead : listHead sel d.tables <;> simp only [startCall, hhead]
    · exact .refuse h
    · exact .select h hhead
  | compact rev => exact compactHead_moves sealer i d h (Or.inl rfl) false
  | maintain window =>
    cases htarget : maintenanceRevision d.tables.revision d.tables.compacted window <;>
      simp only [startCall, htarget]
    · exact @Moves.skip sealer i d _ session true h
    · exact .observe h htarget
  | watch sel =>
    cases hanchor : watchAnchor sel d.tables <;> simp only [startCall, hanchor]
    · exact .refuse h
    · exact .register h hanchor

theorem continueCall_moves {sealer : SecretsSealer} {i now : ℕ} {elapsed : Bool} {session : Session}
    {d : Database} {result : Database × Session}
    (h : continueCall sealer i now elapsed session d = some result) :
    Moves sealer i d (.advance now elapsed) session result.1 result.2 := by
  cases session with
  | idle => cases h
  | done outcome => cases h
  | checked m draft =>
    unfold continueCall at h
    split_ifs at h with hlock
    cases hbump : bumpRevision overflow d.tables <;>
      simp only [hbump, Option.some.injEq] at h <;> subst h
    · exact .refuse rfl
    · exact .bump hlock hbump
  | bumped m draft newRevision =>
    cases hinsert : insertEvent sealer m draft newRevision d.tables <;>
      simp only [continueCall, hinsert, Option.some.injEq] at h <;> subst h
    · exact .drop
    · exact .insert hinsert
  | inserted m row returned =>
    cases h
    exact .commit
  | listing sel revision =>
    cases hpage : listPage (openRowValue sealer) sel revision d.tables.versions <;>
      simp only [continueCall, hpage, Option.some.injEq] at h <;> subst h
    · exact .refuse rfl
    · exact .page hpage
  | compacting rev =>
    cases h
    exact compactHead_moves sealer i d rfl (Or.inr rfl) true
  | deleting rev maintains =>
    cases h
    exact .delete
  | flooring rev gone maintains =>
    unfold continueCall at h
    split_ifs at h with hlock
    cases h
    exact .take hlock
  | floored rev gone maintains =>
    cases h
    exact .compact
  | sweeping =>
    cases h
    exact .sweep
  | paging w snapshot next =>
    cases hhead : listHead (snapshotSelect w next) d.tables <;>
      simp only [continueCall, hhead, Option.some.injEq] at h <;> subst h
    · exact .breakOff hhead
    · exact .turn hhead
  | pageRows w snapshot next revision =>
    cases h
    exact .reveal
  | tailing w cursor =>
    cases hhead : changesHead cursor d.tables <;>
      simp only [continueCall, hhead, Option.some.injEq] at h <;> subst h
    · exact .expire hhead
    · exact .head hhead
  | polling w cursor current =>
    cases h
    exact .deliver

/-- Every step is one move of one connection. -/
theorem step_cases {sealer : SecretsSealer} {s s' : State} {i : ℕ} {a : Action}
    (h : step sealer s (i, a) = some s') :
    ∃ d' session', Moves sealer i s.db a (s.sessions i) d' session' ∧
      s' = ⟨d', Function.update s.sessions i session'⟩ := by
  cases a with
  | abort =>
    cases h
    exact ⟨_, _, .abort, rfl⟩
  | begin call =>
    simp only [step] at h
    split_ifs at h with hready
    cases h
    exact ⟨_, _, startCall_moves sealer i s.db call (Session.holds_of_ready hready), rfl⟩
  | advance now elapsed =>
    obtain ⟨result, hresult, rfl⟩ := Option.map_eq_some_iff.mp h
    exact ⟨_, _, continueCall_moves hresult, rfl⟩

/-- The three things a move can do to what is committed. -/
inductive Touches (d : Database) (session : Session) : Database → Prop
  | frame {d' : Database} : d'.tables.revision = d.tables.revision →
      d'.tables.compacted = d.tables.compacted → d'.tables.versions = d.tables.versions →
      d'.log = d.log → d'.horizon = d.horizon → Touches d session d'
  | row {m : Mutation} {row : Row} {returned : Bytes} : session = .inserted m row returned →
      Touches d session (d.commitRow m row)
  | floor {rev : ℕ} {gone : List ℕ} {maintains : Bool} : session = .floored rev gone maintains →
      Touches d session (d.commitFloor rev gone)

theorem Moves.touches {sealer : SecretsSealer} {i : ℕ} {d d' : Database} {a : Action}
    {session session' : Session} (h : Moves sealer i d a session d' session') :
    Touches d session d' := by
  cases h with
  | commit => exact .row rfl
  | compact => exact .floor rfl
  | _ => exact .frame rfl rfl rfl rfl rfl

end Hedronetes.Storage.Postgres
