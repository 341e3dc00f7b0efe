import Hedronetes.Storage.SqliteInvariant

/-!
# SQLite watches replay the log

The invariant of a watch says what it has emitted: the pages of the snapshot at
its anchor, the bookmark there, and then the log up to its cursor. Each
transaction reads one state, so a poll either extends what was delivered or, when
compaction has passed the cursor, ends the watch.
-/

namespace Hedronetes.Storage.Sqlite

open VersionLog CursorScan Fallible Runs

variable {sealer : SecretsSealer}

/-- What SQLite delivers: the log with the backend's way of opening values. -/
abbrev Delivers (sealer : SecretsSealer) : List Row → Watch → ℕ → List WatchEvent → Prop :=
  Delivered (decodeRowValue sealer) (decodePrevious sealer)

/-- The events before the log: the initial snapshot and its bookmark, or nothing
when the watch resumes from the revision that is its anchor. -/
def Opening (sealer : SecretsSealer) (log : List Row) (w : Watch) (opening : List WatchEvent) :
    Prop :=
  match requestedRevision w.sel with
  | some r => w.anchor = r ∧ opening = []
  | none => ∃ initial,
      initialEvents (decodeRowValue sealer) w.sel.selected w.anchor log = .ok initial ∧
        opening = initial ++ [bookmarkAt w.anchor]

/-- A watch that tails the log has delivered it up to its cursor. -/
def Tails (sealer : SecretsSealer) (log : List Row) (t : Tables) (w : Watch) (cursor : ℕ) : Prop :=
  cursor ≤ t.revision ∧ ∃ opening, Opening sealer log w opening ∧ Delivers sealer log w cursor opening

/-- A watch that replays has shown the snapshot at its anchor up to `next`. -/
structure Replays (sealer : SecretsSealer) (log : List Row) (t : Tables) (w : Watch)
    (next : Option StoreKey) : Prop where
  snapshot : requestedRevision w.sel = none
  anchor_pos : 0 < w.anchor
  anchor_le : w.anchor ≤ t.revision
  selects : checkList (snapshotSelect w next) = .ok ()
  shown : Shown (decodeRowValue sealer) log w.anchor w next

/-- A watch ends only because compaction has passed the revision it needs. -/
def Ends (t : Tables) (cursor : ℕ) (e : Error) : Prop :=
  ∃ floor, e = .compacted cursor floor ∧ cursor < floor ∧ floor ≤ t.compacted

/-- The invariant of a connection's watch. -/
def WatchInv (sealer : SecretsSealer) (log : List Row) (t : Tables) : Session → Prop
  | .replaying w next => Replays sealer log t w next
  | .tailing w cursor => Tails sealer log t w cursor
  | .done (.watchEnded w cursor e) => Ends t cursor e ∧
      (Tails sealer log t w cursor ∨ ∃ next, cursor = w.anchor ∧ Replays sealer log t w next)
  | _ => True

section Mono

variable {log new : List Row} {t t' : Tables}

theorem Tails.mono {w : Watch} {cursor : ℕ} (h : Tails sealer log t w cursor)
    (hpos : ∀ v ∈ log, 0 < v.revision) (hnew : ∀ v ∈ new, t.revision < v.revision)
    (hrev : t.revision ≤ t'.revision) : Tails sealer (log ++ new) t' w cursor := by
  obtain ⟨hcursor, opening, hopen, hdel⟩ := h
  have hpast : ∀ v ∈ new, cursor < v.revision := fun v hv => hcursor.trans_lt (hnew v hv)
  refine ⟨hcursor.trans hrev, opening, ?_, hdel.grow hpos hpast⟩
  unfold Opening at hopen ⊢
  split
  · rename_i r hr
    simpa [hr] using hopen
  · rename_i hr
    rw [hr] at hopen
    rwa [initialEvents_append fun v hv => hdel.anchor_le.trans_lt (hpast v hv)]

theorem Replays.mono {w : Watch} {next : Option StoreKey} (h : Replays sealer log t w next)
    (hnew : ∀ v ∈ new, t.revision < v.revision) (hrev : t.revision ≤ t'.revision) :
    Replays sealer (log ++ new) t' w next where
  snapshot := h.snapshot
  anchor_pos := h.anchor_pos
  anchor_le := h.anchor_le.trans hrev
  selects := h.selects
  shown := h.shown.grow fun v hv => h.anchor_le.trans_lt (hnew v hv)

theorem Ends.mono {cursor : ℕ} {e : Error} (h : Ends t cursor e)
    (hfloor : t.compacted ≤ t'.compacted) : Ends t' cursor e := by
  obtain ⟨floor, he, hlt, hle⟩ := h
  exact ⟨floor, he, hlt, hle.trans hfloor⟩

/-- What other connections commit leaves a watch's invariant intact. -/
theorem WatchInv.mono {session : Session} (h : WatchInv sealer log t session)
    (hpos : ∀ v ∈ log, 0 < v.revision) (hnew : ∀ v ∈ new, t.revision < v.revision)
    (hrev : t.revision ≤ t'.revision) (hfloor : t.compacted ≤ t'.compacted) :
    WatchInv sealer (log ++ new) t' session := by
  cases session with
  | replaying w next => exact Replays.mono h hnew hrev
  | tailing w cursor => exact Tails.mono h hpos hnew hrev
  | done outcome =>
    cases outcome with
    | watchEnded w cursor e =>
      obtain ⟨hends, htails | ⟨next, hanchor, hreplays⟩⟩ := h
      · exact ⟨hends.mono hfloor, Or.inl (htails.mono hpos hnew hrev)⟩
      · exact ⟨hends.mono hfloor, Or.inr ⟨next, hanchor, hreplays.mono hnew hrev⟩⟩
    | _ => trivial
  | _ => trivial

end Mono

/-- What a poll reads: the events after the cursor, or the compaction error. -/
theorem changes_eq {s : State} (h : Sound s) (hr : Readable sealer s) (selected : String)
    {cursor : ℕ} (hcursor : cursor ≤ s.tables.revision) :
    (cursor < s.tables.compacted ∧ changes sealer selected cursor s.tables =
        .error (.compacted cursor s.tables.compacted)) ∨
      ∃ events, s.tables.compacted ≤ cursor ∧
        (scan Version.revision 256 cursor (rowsUnder selected (rowsOf s.log))).mapM
          (logEvent (decodeRowValue sealer) (decodePrevious sealer) (rowsOf s.log)) = .ok events ∧
        changes sealer selected cursor s.tables =
          .ok (events, nextCursor s.tables.revision events) := by
  by_cases hfloor : cursor < s.tables.compacted
  · refine Or.inl ⟨hfloor, ?_⟩
    simp [changes, validateRevision, hfloor, bind, Except.bind]
  · have hle := not_lt.mp hfloor
    obtain ⟨events, hevents⟩ := mapM_exists_ok
      (l := scan Version.revision 256 cursor (rowsUnder selected (rowsOf s.log)))
      fun v hv => logEvent_exists hr (fun key _ _ => decodePrevious_exists key)
        (List.mem_of_mem_filter (scan_subset hv).1)
    refine Or.inr ⟨events, hle, hevents, ?_⟩
    have hfits : cursor ≤ maxRevision := hcursor.trans h.fits
    have hread := h.changeRows_mapM selected hle (decodeRowValue sealer) (decodePrevious sealer)
    simp [changes, validateRevision, hfloor, not_lt.mpr hcursor, revisionI64, hfits, hread,
      hevents, bind, Except.bind, pure, Except.pure]

/-- What a poll does: it ends the watch when compaction has passed the cursor, and
else appends one batch and moves to the head, or past a full batch. -/
theorem poll_spec {s : State} (h : Sound s) (hr : Readable sealer s) {w : Watch} {cursor : ℕ}
    (hw : Tails sealer (rowsOf s.log) s.tables w cursor) (elapsed : Bool) :
    (cursor < s.tables.compacted ∧ poll sealer w cursor elapsed s.tables =
        .done (.watchEnded w cursor (.compacted cursor s.tables.compacted))) ∨
      ∃ w' cursor' batch, s.tables.compacted ≤ cursor ∧
        poll sealer w cursor elapsed s.tables = .tailing w' cursor' ∧
        w'.sel = w.sel ∧ w'.anchor = w.anchor ∧ w'.batches = w.batches ++ [batch] ∧
        Tails sealer (rowsOf s.log) s.tables w' cursor' ∧
        (cursor' = s.tables.revision ∨ batch.length = 256 ∧ cursor < cursor') := by
  obtain ⟨hcursor, opening, hopen, hdel⟩ := hw
  rcases changes_eq h hr w.sel.selected hcursor with ⟨hlt, he⟩ | ⟨events, hle, hevents, hok⟩
  · exact Or.inl ⟨hlt, by rw [poll, he]⟩
  · obtain ⟨_, hdel'⟩ := hdel.poll h.ordered hcursor hevents
      (Or.inr fun v hv _ => h.rowsUnder_le_head _ v hv)
    have hbound : nextCursor s.tables.revision events ≤ s.tables.revision ∧
        (nextCursor s.tables.revision events = s.tables.revision ∨
          events.length = 256 ∧ cursor < nextCursor s.tables.revision events) := by
      rcases nextCursor_cases s.tables.revision events with ⟨_, he⟩ | ⟨hfull, event, hevent, he⟩ <;>
        rw [he]
      · exact ⟨le_rfl, Or.inl rfl⟩
      · obtain ⟨v, hv, hrev, hlt⟩ := batch_revision hevents hevent
        rw [hrev]
        exact ⟨h.rowsUnder_le_head _ v hv, Or.inr ⟨hfull, hlt⟩⟩
    cases elapsed with
    | true =>
      exact Or.inr ⟨(w.deliver events).bookmark _, _, events, hle, by rw [poll, hok]; rfl, rfl, rfl,
        rfl, ⟨hbound.1, opening, hopen, hdel'.bookmark _⟩, hbound.2⟩
    | false =>
      exact Or.inr ⟨w.deliver events, _, events, hle, by rw [poll, hok]; rfl, rfl, rfl, rfl,
        ⟨hbound.1, opening, hopen, hdel'⟩, hbound.2⟩

/-- A poll keeps the invariant. -/
theorem poll_inv {s : State} (h : Sound s) (hr : Readable sealer s) {w : Watch} {cursor : ℕ}
    (hw : Tails sealer (rowsOf s.log) s.tables w cursor) (elapsed : Bool) :
    WatchInv sealer (rowsOf s.log) s.tables (poll sealer w cursor elapsed s.tables) := by
  rcases poll_spec h hr hw elapsed with ⟨hlt, he⟩ | ⟨w', cursor', _, _, he, _, _, _, hw', _⟩
  · rw [he]
    exact ⟨⟨_, rfl, hlt, le_rfl⟩, Or.inl hw⟩
  · rw [he]
    exact hw'

/-- A new watch satisfies the invariant. -/
theorem register_inv {s : State} (h : Sound s) {sel : WatchSelect} {anchor : ℕ}
    (hanchor : watchAnchor sel s.tables = .ok anchor) :
    WatchInv sealer (rowsOf s.log) s.tables (openStream sel anchor) := by
  obtain ⟨_, _, hle⟩ := watchAnchor_ok hanchor
  rcases openStream_cases sel anchor with ⟨hreq, he⟩ | ⟨hreq, hpos, he⟩ | ⟨hreq, h0, he⟩ <;> rw [he]
  · obtain ⟨r, hr⟩ := Option.ne_none_iff_exists'.mp hreq
    refine ⟨hle, [], ?_, Delivered.unpolled _ rfl⟩
    have hanchor := (watchAnchor_ok hanchor).1
    simp [Opening, Watch.register, hr, hanchor]
  · exact ⟨hreq, hpos, hle, checkList_snapshot (watchAnchor_selects hanchor), Shown.start _ _ _ _⟩
  · subst h0
    refine ⟨hle, [bookmarkAt 0], ?_, Delivered.unpolled _ rfl⟩
    have hnone : visible sel.selected 0 (rowsOf s.log) = [] := visible_zero h.positive
    simp [Opening, Watch.register, Watch.bookmark, hreq, initialEvents, hnone, pure, Except.pure]

/-- What a snapshot page reads: the next objects, or the compaction error. -/
theorem list_eq {s : State} (h : Sound s) (hr : Readable sealer s) {w : Watch}
    {next : Option StoreKey} (hw : Replays sealer (rowsOf s.log) s.tables w next) :
    (w.anchor < s.tables.compacted ∧ list sealer (snapshotSelect w next) s.tables =
        .error (.compacted w.anchor s.tables.compacted)) ∨
      ∃ page, listPage (decodeRowValue sealer) (snapshotSelect w next) w.anchor (rowsOf s.log) =
          .ok page ∧ list sealer (snapshotSelect w next) s.tables = .ok page :=
  list_at h hr hw.selects (listRevision_some hw.anchor_pos) hw.anchor_le

/-- A page of the snapshot keeps the invariant. -/
theorem replay_inv {s : State} (h : Sound s) (hr : Readable sealer s) {w : Watch}
    {next : Option StoreKey} (hw : Replays sealer (rowsOf s.log) s.tables w next) :
    WatchInv sealer (rowsOf s.log) s.tables (replayPage sealer w next s.tables) := by
  rcases list_eq h hr hw with ⟨hlt, he⟩ | ⟨page, hpage, hok⟩
  · rw [replayPage, he]
    exact ⟨⟨_, rfl, hlt, le_rfl⟩, Or.inr ⟨next, rfl, hw⟩⟩
  · obtain ⟨hmore, hlast⟩ := hw.shown.page h.ordered rfl rfl rfl hpage
    cases hnext : page.nextAfter with
    | some key =>
      simp only [replayPage, hok, hnext]
      exact ⟨hw.snapshot, hw.anchor_pos, hw.anchor_le,
        checkList_continue hw.selects (listPage_nextAfter h.ordered hpage hnext), hmore key hnext⟩
    | none =>
      simp only [replayPage, hok, hnext]
      refine ⟨hw.anchor_le, (w.showPage page.items).emitted ++ [bookmarkAt w.anchor], ?_,
        Delivered.unpolled _ hw.shown.batches⟩
      have hnone : requestedRevision w.sel = none := hw.snapshot
      simp only [Opening, Watch.bookmark, Watch.showPage, hnone]
      exact ⟨_, hlast hnext, rfl⟩

/-- A move of a connection keeps the invariant of its watch. -/
theorem Moves.watchInv {s : State} (h : Sound s) (hr : Readable sealer s) {a : Action}
    {session session' : Session} {t' : Tables} {commit : Option Commit}
    (hmove : Moves sealer s.tables a session t' commit session')
    (hw : WatchInv sealer (rowsOf s.log) s.tables session) :
    WatchInv sealer (rowsOf (s.log ++ commit.toList)) t' session' := by
  cases hmove with
  | register hanchor => simpa using register_inv h hanchor
  | replay => simpa using replay_inv h hr hw
  | poll => simpa using poll_inv h hr hw _
  | _ => trivial

theorem reachable_watchInv {s : State} {ls : List (ℕ × Action)}
    (h : AnyRun (step sealer) .initial ls s) (i : ℕ) :
    WatchInv sealer (rowsOf s.log) s.tables (s.sessions i) := by
  induction h generalizing i with
  | nil => trivial
  | @snoc ls s s' l hrun _ hstep ih =>
    have hsound := reachable_sound hrun
    obtain ⟨t', commit, session', hmove, rfl⟩ := step_cases hstep
    by_cases hi : i = l.1
    · subst hi
      simpa using hmove.watchInv hsound (reachable_readable hrun) (ih _)
    · have hnext := hmove.touches.log
      have hmono : WatchInv sealer (rowsOf s.log ++ rowsOf commit.toList) t' (s.sessions i) :=
        (ih i).mono hsound.positive (fun v hv => by
          rw [hnext.1 v hv]
          exact Nat.lt_succ_self _)
        (by rw [hnext.2]; exact Nat.le_add_right _ _) hmove.touches.floor
      simpa [hi] using hmono

/-- The batches of a watch report the committed rows from its anchor to its cursor. -/
abbrev ReplaysLog (sealer : SecretsSealer) (s : State) (w : Watch) (cursor : ℕ) : Prop :=
  Replayed (decodeRowValue sealer) (decodePrevious sealer) (rowsOf s.log) w cursor

theorem Tails.replaysLog {s : State} (h : Sound s) {w : Watch} {cursor : ℕ}
    (hw : Tails sealer (rowsOf s.log) s.tables w cursor) : ReplaysLog sealer s w cursor := by
  obtain ⟨_, _, _, hdel⟩ := hw
  exact hdel.replayed h.ordered

theorem Replays.replaysLog {s : State} {w : Watch} {next : Option StoreKey}
    (hw : Replays sealer (rowsOf s.log) s.tables w next) : ReplaysLog sealer s w w.anchor := by
  have hnone := hw.shown.batches
  refine ⟨by simp [hnone], ?_, by simp [hnone]⟩
  rw [window_eq_nil le_rfl, hnone]
  exact .nil

theorem Tails.anchor_eq {log : List Row} {t : Tables} {w : Watch} {cursor r : ℕ}
    (hw : Tails sealer log t w cursor) (hr : requestedRevision w.sel = some r) : w.anchor = r := by
  obtain ⟨_, opening, hopen, _⟩ := hw
  rw [Opening, hr] at hopen
  exact hopen.1

/-- The next poll of a watch fails when compaction has passed its cursor; else it
appends one batch, and leaves the cursor at the head or behind a full batch. -/
def PollsLog (sealer : SecretsSealer) (s : State) (i : ℕ) (w : Watch) (cursor : ℕ) : Prop :=
  ∀ now elapsed, ∃ s', step sealer s (i, .advance now elapsed) = some s' ∧ s'.log = s.log ∧
    (cursor < s.tables.compacted ∧
        s'.sessions i = .done (.watchEnded w cursor (.compacted cursor s.tables.compacted)) ∨
      s.tables.compacted ≤ cursor ∧ ∃ w' cursor' batch, s'.sessions i = .tailing w' cursor' ∧
        w'.batches = w.batches ++ [batch] ∧ ReplaysLog sealer s' w' cursor' ∧
        (cursor' = s.tables.revision ∨ batch.length = 256 ∧ cursor < cursor'))

/-- Finitely many polls of a watch report every committed row after its anchor. -/
def CatchesUp (sealer : SecretsSealer) (s : State) (i : ℕ) (w : Watch) : Prop :=
  ∃ n s' w', AnyRun (step sealer) s (List.replicate n (i, .advance 0 false)) s' ∧
    s'.log = s.log ∧ s'.sessions i = .tailing w' s.tables.revision ∧
    List.Forall₂ (Reports (decodeRowValue sealer) (decodePrevious sealer) (rowsOf s.log))
      (beyond Version.revision w.anchor (rowsUnder w.sel.selected (rowsOf s.log)))
      w'.batches.flatten

theorem step_poll {s : State} {i : ℕ} {w : Watch} {cursor : ℕ} (hs : s.sessions i = .tailing w cursor)
    (now : ℕ) (elapsed : Bool) :
    step sealer s (i, .advance now elapsed) = some ⟨s.tables, s.log,
      Function.update s.sessions i (poll sealer w cursor elapsed s.tables)⟩ := by
  simp [step, continueCall, hs]

theorem Tails.pollsLog {s : State} (h : Sound s) (hr : Readable sealer s) {i : ℕ} {w : Watch}
    {cursor : ℕ} (hs : s.sessions i = .tailing w cursor)
    (hw : Tails sealer (rowsOf s.log) s.tables w cursor) : PollsLog sealer s i w cursor := by
  intro now elapsed
  refine ⟨_, step_poll hs now elapsed, rfl, ?_⟩
  rcases poll_spec h hr hw elapsed with
    ⟨hlt, he⟩ | ⟨w', cursor', batch, hle, he, _, _, hbatch, hw', hnext⟩
  · exact Or.inl ⟨hlt, by simp [he]⟩
  · exact Or.inr ⟨hle, w', cursor', batch, by simp [he], hbatch, hw'.replaysLog h, hnext⟩

/-- Each full batch moves the cursor towards the head, so the polls reach it. -/
theorem Tails.catchesUp {s : State} (h : Sound s) (hr : Readable sealer s) {i : ℕ} {w : Watch}
    {cursor : ℕ} (hs : s.sessions i = .tailing w cursor)
    (hw : Tails sealer (rowsOf s.log) s.tables w cursor) (hfloor : s.tables.compacted ≤ cursor) :
    CatchesUp sealer s i w := by
  induction hgap : s.tables.revision - cursor using Nat.strong_induction_on generalizing s w cursor with
  | _ gap ih =>
    obtain ⟨w', cursor', batch, _, he, hsel, hanchor, _, hw', hnext⟩ :=
      (poll_spec h hr hw false).resolve_left fun hend => absurd hend.1 (not_lt.mpr hfloor)
    set s₁ : State := ⟨s.tables, s.log, Function.update s.sessions i (.tailing w' cursor')⟩ with hs₁
    have hstep : step sealer s (i, .advance 0 false) = some s₁ := by
      rw [step_poll hs, he]
    have hrun : AnyRun (step sealer) s [(i, .advance 0 false)] s₁ := Run.snoc .nil trivial hstep
    by_cases hhead : cursor' = s.tables.revision
    · refine ⟨1, s₁, w', hrun, rfl, by simp [hs₁, hhead], ?_⟩
      have hrows := (hw'.replaysLog h).rows
      rw [hsel, hanchor, hhead] at hrows
      rwa [beyond_eq_window (d := s.tables.revision) (h.rowsUnder_le_head _)]
    · obtain ⟨_, hlt⟩ := hnext.resolve_left hhead
      have hle := hw'.1
      obtain ⟨n, s₂, w₂, hrun₂, hlog, hs₂, hrows⟩ := ih (s.tables.revision - cursor') (by omega)
        (s := s₁) (w := w') h hr (by simp [hs₁]) hw' (by
          change s.tables.compacted ≤ cursor'
          omega) rfl
      rw [hsel, hanchor] at hrows
      refine ⟨n + 1, s₂, w₂, ?_, hlog, hs₂, hrows⟩
      rw [List.replicate_succ]
      exact hrun.trans hrun₂

/-- A watch that tails the log has delivered exactly the rows under its prefix from
its anchor to its cursor, in batches of at most 256, each row once, in revision
order and with its predecessor; its polls reach the head, and only a compaction
past its cursor ends it, with the error that says so. -/
theorem watch_replays_log (sealer : SecretsSealer) {s : State} {ls : List (ℕ × Action)}
    (h : AnyRun (step sealer) .initial ls s) (i : ℕ) :
    (∀ w cursor, s.sessions i = .tailing w cursor →
      ReplaysLog sealer s w cursor ∧ (∀ r, requestedRevision w.sel = some r → w.anchor = r) ∧
        PollsLog sealer s i w cursor ∧
        (s.tables.compacted ≤ cursor → CatchesUp sealer s i w)) ∧
      ∀ w cursor e, s.sessions i = .done (.watchEnded w cursor e) →
        ReplaysLog sealer s w cursor ∧
          ∃ floor, e = .compacted cursor floor ∧ cursor < floor ∧ floor ≤ s.tables.compacted := by
  have hsound := reachable_sound h
  have hreadable := reachable_readable h
  have hinv := reachable_watchInv h i
  refine ⟨fun w cursor hs => ?_, fun w cursor e hs => ?_⟩ <;> rw [hs] at hinv
  · have hw : Tails sealer (rowsOf s.log) s.tables w cursor := hinv
    exact ⟨hw.replaysLog hsound, fun r hr => hw.anchor_eq hr, hw.pollsLog hsound hreadable hs,
      hw.catchesUp hsound hreadable hs⟩
  · obtain ⟨hends, hw | ⟨next, rfl, hw⟩⟩ := hinv
    · exact ⟨hw.replaysLog hsound, hends⟩
    · exact ⟨hw.replaysLog, hends⟩

/-- A create, an update, a compaction and a poll beside a watch of the pods. -/
def polledPods : List (ℕ × Action) :=
  [(0, .begin (.mutate 0 (.create ⟨podA, [1], 0⟩))), (1, .begin (.watch ⟨"/registry/", some 1, 1⟩)),
    (2, .begin (.mutate 0 (.update ⟨podA, [2], 0⟩ 1))), (1, .advance 0 false),
    (3, .begin (.compact 2))]

theorem polled_pods_replay_log :
    ∃ s w, AnyRun (step unsealed) .initial polledPods s ∧ s.sessions 1 = .tailing w 2 ∧
      ReplaysLog unsealed s w 2 := by
  have hexec : (Runs.exec (step unsealed) .initial polledPods).map (fun s => s.sessions 1) =
      some (.tailing ⟨⟨"/registry/", some 1, 1⟩, 1,
        [⟨some ⟨podA, [1], 1⟩, .modified, 2, some ⟨podA, [2], 2⟩⟩],
        [[⟨some ⟨podA, [1], 1⟩, .modified, 2, some ⟨podA, [2], 2⟩⟩]]⟩ 2) := by decide
  obtain ⟨s, hrun, hs⟩ := run_of_exec_map hexec
  exact ⟨s, _, hrun, hs, ((watch_replays_log unsealed hrun 1).1 _ _ hs).1⟩

end Hedronetes.Storage.Sqlite
