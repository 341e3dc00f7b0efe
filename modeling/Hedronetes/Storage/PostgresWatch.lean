import Hedronetes.Storage.PostgresCompaction

/-!
# Watches over the shared registry

A poll reads the head in one statement and the rows in the next. A short batch sends
the cursor to that head, so a row committed in between is delivered now and again by
the next poll; a compaction in between takes rows the poll has not read. A poll that
meets neither extends what was delivered like a poll of one snapshot does.
-/

namespace Hedronetes.Storage.Postgres

open VersionLog CursorScan Fallible Runs

variable {sealer : SecretsSealer}

/-- What Postgres delivers: the log with the backend's way of opening values. -/
abbrev Delivers (sealer : SecretsSealer) : List Row → Watch → ℕ → List WatchEvent → Prop :=
  Delivered (openRowValue sealer) (openPrevious sealer)

/-- The rows a poll is about to read: the floor has not passed the cursor, and a batch
that is not full has no row that the head read before it does not cover. -/
def ReadsUpTo (t : Tables) (selected : String) (cursor current : ℕ) : Prop :=
  t.compacted ≤ cursor ∧ ((changeRows selected cursor t.versions).length = 256 ∨
    ∀ v ∈ rowsUnder selected t.versions, v.revision ≤ current)

/-- The first statement of a poll: the head, or the compaction error. -/
theorem changesHead_eq {t : Tables} (hfits : t.revision ≤ maxRevision) {cursor : ℕ}
    (h : cursor ≤ t.revision) :
    (cursor < t.compacted ∧ changesHead cursor t = .error (.compacted cursor t.compacted)) ∨
      (t.compacted ≤ cursor ∧ changesHead cursor t = .ok t.revision) := by
  have hcursor : cursor ≤ maxRevision := h.trans hfits
  by_cases hfloor : cursor < t.compacted
  · exact Or.inl ⟨hfloor, by simp [changesHead, validateRevision, hfloor, bind, Except.bind]⟩
  · refine Or.inr ⟨not_lt.mp hfloor, ?_⟩
    simp [changesHead, validateRevision, hfloor, not_lt.mpr h, revisionI64, hcursor, bind,
      Except.bind, pure, Except.pure]

/-- The second statement of a poll extends what was delivered, if it reads what the
head promised. -/
theorem deliverRows_spec {s : State} (h : Coherent sealer s)
    (hfloor : s.db.tables.compacted = s.db.horizon) {w : Watch} {cursor current : ℕ}
    {opening : List WatchEvent} (hdel : Delivers sealer (rowsOf s.db.log) w cursor opening)
    (hcursor : cursor ≤ current) (hcurrent : current ≤ s.db.tables.revision)
    (hreads : ReadsUpTo s.db.tables w.sel.selected cursor current) (elapsed : Bool) :
    ∃ w' cursor', deliverRows sealer w cursor current elapsed s.db.tables = .tailing w' cursor' ∧
      w'.sel = w.sel ∧ w'.anchor = w.anchor ∧ cursor' ≤ s.db.tables.revision ∧
      Delivers sealer (rowsOf s.db.log) w' cursor' opening ∧ (cursor' = current ∨ cursor < cursor') := by
  obtain ⟨hle, hhead⟩ := hreads
  have hhorizon : s.db.horizon ≤ cursor := hfloor ▸ hle
  obtain ⟨events, hevents⟩ := mapM_exists_ok
    (f := logEvent (openRowValue sealer) (openPrevious sealer) (rowsOf s.db.log))
    (l := scan Version.revision 256 cursor (rowsUnder w.sel.selected (rowsOf s.db.log)))
    fun v hv => logEvent_exists h.opens (fun _ _ opened ho => ⟨opened, ho⟩)
      (List.mem_of_mem_filter (scan_subset hv).1)
  have hread := h.consistent.changeRows_mapM w.sel.selected hhorizon (openRowValue sealer)
    (openPrevious sealer)
  have hrows : changesRows sealer w.sel.selected cursor s.db.tables = .ok events :=
    hread.trans hevents
  have hcover : events.length = 256 ∨ ∀ v ∈ rowsUnder w.sel.selected (rowsOf s.db.log),
      cursor < v.revision → v.revision ≤ current := by
    refine hhead.imp (fun hfull => ?_) fun hall v hv hlt => ?_
    · rw [mapM_length (hread ▸ hevents : _ = Except.ok events), hfull]
    · have hbeyond := h.consistent.rowsUnder_beyond w.sel.selected hhorizon
      exact hall v (mem_beyond.mp (hbeyond ▸ mem_beyond.mpr ⟨hv, hlt⟩)).1
  obtain ⟨_, hdel'⟩ := hdel.poll h.consistent.ordered hcursor hevents hcover
  have hbound : nextCursor current events ≤ s.db.tables.revision ∧
      (nextCursor current events = current ∨ cursor < nextCursor current events) := by
    rcases nextCursor_cases current events with ⟨_, he⟩ | ⟨_, event, hevent, he⟩ <;> rw [he]
    · exact ⟨hcurrent, Or.inl rfl⟩
    · obtain ⟨v, hv, hrev, hlt⟩ := batch_revision hevents hevent
      rw [hrev]
      exact ⟨h.consistent.rowsUnder_le_head _ v hv, Or.inr hlt⟩
  cases elapsed with
  | true =>
    exact ⟨(w.deliver events).bookmark _, _, by rw [deliverRows, hrows]; rfl, rfl, rfl, hbound.1,
      hdel'.bookmark _, hbound.2⟩
  | false =>
    exact ⟨w.deliver events, _, by rw [deliverRows, hrows]; rfl, rfl, rfl, hbound.1, hdel', hbound.2⟩

/-- A watch that tails the log has delivered it from its anchor to its cursor. -/
def Tails (sealer : SecretsSealer) (d : Database) (w : Watch) (cursor : ℕ) : Prop :=
  cursor ≤ d.tables.revision ∧ ∃ opening, Delivers sealer (rowsOf d.log) w cursor opening ∧
    ∀ r, requestedRevision w.sel = some r → w.anchor = r ∧ opening = []

/-- A poll fails only because compaction has passed its cursor. -/
def Ends (cursor : ℕ) (e : Error) : Prop := ∃ floor, e = .compacted cursor floor ∧ cursor < floor

/-- The invariant of a connection's watch, as far as resumed watches need it. -/
def WatchInv (sealer : SecretsSealer) (d : Database) : Session → Prop
  | .paging w _ _ =>
    requestedRevision w.sel = none ∧ w.batches = [] ∧ w.anchor ≤ d.tables.revision
  | .pageRows w _ _ _ =>
    requestedRevision w.sel = none ∧ w.batches = [] ∧ w.anchor ≤ d.tables.revision
  | .tailing w cursor => Tails sealer d w cursor
  | .polling w cursor current =>
    Tails sealer d w cursor ∧ cursor ≤ current ∧ current ≤ d.tables.revision
  | .done (.watchEnded w cursor e) =>
    requestedRevision w.sel ≠ none → Tails sealer d w cursor ∧ Ends cursor e
  | _ => True

theorem Tails.mono {d d' : Database} {w : Watch} {cursor : ℕ} (h : Tails sealer d w cursor)
    (hpos : ∀ v ∈ rowsOf d.log, 0 < v.revision) (hle : d.tables.revision ≤ d'.tables.revision)
    {new : List Row} (hrows : rowsOf d'.log = rowsOf d.log ++ new)
    (hnew : ∀ v ∈ new, d.tables.revision < v.revision) : Tails sealer d' w cursor := by
  obtain ⟨hcursor, opening, hdel, hopen⟩ := h
  refine ⟨hcursor.trans hle, opening, ?_, hopen⟩
  rw [hrows]
  exact hdel.grow hpos fun v hv => hcursor.trans_lt (hnew v hv)

/-- A connection that does not move keeps its invariant. -/
theorem WatchInv.other {d d' : Database} {session mover : Session} (h : WatchInv sealer d session)
    (hc : Consistent (rowsOf d.log) d.horizon d.tables) (ht : Touches d mover d')
    (hm : SessionInv sealer d mover) : WatchInv sealer d' session := by
  obtain ⟨hle, new, hrows, hnew⟩ := ht.extends hm
  cases session with
  | paging w snapshot next => exact ⟨h.1, h.2.1, h.2.2.trans hle⟩
  | pageRows w snapshot next revision => exact ⟨h.1, h.2.1, h.2.2.trans hle⟩
  | tailing w cursor => exact Tails.mono h hc.positive hle hrows hnew
  | polling w cursor current =>
    exact ⟨h.1.mono hc.positive hle hrows hnew, h.2.1, h.2.2.trans hle⟩
  | done outcome =>
    cases outcome with
    | watchEnded w cursor e =>
      intro hresumed
      obtain ⟨htails, hends⟩ := h hresumed
      exact ⟨htails.mono hc.positive hle hrows hnew, hends⟩
    | _ => trivial
  | _ => trivial

/-- A guarded move keeps the invariant of its watch. -/
theorem Moves.watchInv {s : State} (h : Coherent sealer s)
    (hfloor : s.db.tables.compacted = s.db.horizon) {i : ℕ} {d' : Database} {a : Action}
    {session session' : Session} (hmove : Moves sealer i s.db a session d' session')
    (hw : WatchInv sealer s.db session)
    (hguard : ∀ w cursor current, session = .polling w cursor current →
      (∃ now elapsed, a = .advance now elapsed) →
        ReadsUpTo s.db.tables w.sel.selected cursor current) : WatchInv sealer d' session' := by
  cases hmove with
  | @register sel _ anchor _ hanchor =>
    obtain ⟨heq, _, hle⟩ := watchAnchor_ok hanchor
    unfold openStream
    split
    · rename_i r hr
      refine ⟨hle, [], Delivered.unpolled _ rfl, fun r' hr' => ⟨?_, rfl⟩⟩
      rw [heq, show requestedRevision sel = some r' from hr']
      rfl
    · rename_i hnone
      exact ⟨hnone, rfl, hle⟩
  | turn _ => exact hw
  | breakOff _ => exact fun hresumed => absurd hw.1 hresumed
  | @reveal _ _ w snapshot next revision =>
    obtain ⟨hnone, hbatches, hle⟩ := hw
    rcases showRows_cases sealer w snapshot next revision s.db.tables with
      ⟨_, _, he⟩ | ⟨page, _, ⟨_, _, he⟩ | ⟨_, he⟩⟩ <;> rw [he]
    · exact fun hresumed => absurd hnone hresumed
    · exact ⟨hnone, hbatches, hle⟩
    · refine ⟨hle, _, Delivered.unpolled _ hbatches, fun r hr => ?_⟩
      have hsome : requestedRevision w.sel = some r := hr
      simp [hnone] at hsome
  | @head _ _ w cursor current hhead =>
    rcases changesHead_eq h.consistent.fits hw.1 with ⟨_, he⟩ | ⟨_, he⟩
    · rw [he] at hhead
      cases hhead
    · rw [he] at hhead
      cases Except.ok.inj hhead
      exact ⟨hw, hw.1, le_rfl⟩
  | @expire _ _ w cursor e hhead =>
    intro _
    rcases changesHead_eq h.consistent.fits hw.1 with ⟨hlt, he⟩ | ⟨_, he⟩
    · rw [he] at hhead
      cases Except.error.inj hhead
      exact ⟨hw, _, rfl, hlt⟩
    · rw [he] at hhead
      cases hhead
  | @deliver _ elapsed w cursor current =>
    obtain ⟨⟨_, opening, hdel, hopen⟩, hcursor, hcurrent⟩ := hw
    obtain ⟨w', cursor', he, hsel, hanchor, hle, hdel', _⟩ := deliverRows_spec h hfloor hdel hcursor
      hcurrent (hguard _ _ _ rfl ⟨_, _, rfl⟩) elapsed
    rw [he]
    exact ⟨hle, opening, hdel', fun r hr => by rw [hanchor]; exact hopen r (hsel ▸ hr)⟩
  | @skip _ _ maintains _ => cases maintains <;> trivial
  | @compact _ _ _ _ maintains => cases maintains <;> trivial
  | _ => trivial

/-- Finitely many polls that meet nobody else deliver every committed row after the anchor. -/
def CatchesUp (sealer : SecretsSealer) (s : State) (i : ℕ) (w : Watch) : Prop :=
  ∃ n s' w', AnyRun (step sealer) s (List.replicate n (i, .advance 0 false)) s' ∧
    s'.db = s.db ∧ s'.sessions i = .tailing w' s.db.tables.revision ∧
    List.Forall₂ (Reports (openRowValue sealer) (openPrevious sealer) (rowsOf s.db.log))
      (beyond Version.revision w.anchor (rowsUnder w.sel.selected (rowsOf s.db.log)))
      w'.batches.flatten

/-- A poll that meets nobody else: two statements that extend what was delivered. -/
theorem poll_alone {s : State} (h : Coherent sealer s)
    (hfloor : s.db.tables.compacted = s.db.horizon) {i : ℕ} {w : Watch} {cursor : ℕ}
    {opening : List WatchEvent} (hs : s.sessions i = .tailing w cursor)
    (hcursor : cursor ≤ s.db.tables.revision)
    (hdel : Delivers sealer (rowsOf s.db.log) w cursor opening)
    (hle : s.db.tables.compacted ≤ cursor) :
    ∃ s' w' cursor', AnyRun (step sealer) s [(i, .advance 0 false), (i, .advance 0 false)] s' ∧
      s'.db = s.db ∧ s'.sessions i = .tailing w' cursor' ∧ w'.sel = w.sel ∧ w'.anchor = w.anchor ∧
      cursor' ≤ s.db.tables.revision ∧ Delivers sealer (rowsOf s.db.log) w' cursor' opening ∧
      (cursor' = s.db.tables.revision ∨ cursor < cursor') := by
  have hhead := ((changesHead_eq h.consistent.fits hcursor).resolve_left
    fun hlt => absurd hlt.1 (not_lt.mpr hle)).2
  have hreads : ReadsUpTo s.db.tables w.sel.selected cursor s.db.tables.revision := by
    refine ⟨hle, Or.inr fun v hv => ?_⟩
    exact h.consistent.bounded v (h.consistent.retains.sublist.subset (List.mem_of_mem_filter hv))
  obtain ⟨w', cursor', hrows, hsel, hanchor, hbound, hdel', hnext⟩ :=
    deliverRows_spec h hfloor hdel hcursor le_rfl hreads false
  set s₁ : State :=
    ⟨s.db, Function.update s.sessions i (.polling w cursor s.db.tables.revision)⟩ with hs₁
  have hfirst : step sealer s (i, .advance 0 false) = some s₁ := by
    simp [step, continueCall, hs, hhead, hs₁]
  have hsecond : step sealer s₁ (i, .advance 0 false) =
      some ⟨s.db, Function.update s₁.sessions i (.tailing w' cursor')⟩ := by
    simp [step, continueCall, hs₁, hrows]
  have hrun : AnyRun (step sealer) s [(i, .advance 0 false)] s₁ := Run.nil.snoc trivial hfirst
  exact ⟨_, w', cursor', hrun.snoc trivial hsecond, rfl, by simp, hsel, hanchor, hbound, hdel', hnext⟩

theorem Tails.catchesUp {s : State} (h : Coherent sealer s)
    (hfloor : s.db.tables.compacted = s.db.horizon) {i : ℕ} {w : Watch} {cursor : ℕ}
    (hs : s.sessions i = .tailing w cursor) (hw : Tails sealer s.db w cursor)
    (hle : s.db.tables.compacted ≤ cursor) : CatchesUp sealer s i w := by
  obtain ⟨hcursor, opening, hdel, -⟩ := hw
  induction hgap : s.db.tables.revision - cursor using Nat.strong_induction_on
    generalizing s w cursor with
  | _ gap ih =>
    obtain ⟨s₁, w₁, cursor₁, hrun, hdb, hs₁, hsel, hanchor, hbound, hdel₁, hnext⟩ :=
      poll_alone h hfloor hs hcursor hdel hle
    by_cases hhead : cursor₁ = s.db.tables.revision
    · refine ⟨2, s₁, w₁, hrun, hdb, by rw [hs₁, hhead], ?_⟩
      have hrows := (hdel₁.replayed h.consistent.ordered).rows
      rw [hsel, hanchor, hhead] at hrows
      rwa [beyond_eq_window (d := s.db.tables.revision) (h.consistent.rowsUnder_le_head _)]
    · have hlt := hnext.resolve_left hhead
      have hcoherent : Coherent sealer s₁ :=
        hrun.invariant h fun _ _ _ hs _ hstep => step_coherent hs hstep
      obtain ⟨n, s₂, w₂, hrun₂, hdb₂, hs₂, hrows⟩ := ih (s.db.tables.revision - cursor₁) (by omega)
        (s := s₁) (w := w₁) hcoherent (by rw [hdb]; exact hfloor) hs₁
        (by rw [hdb]; omega) (by rw [hdb]; exact hbound) (by rw [hdb]; exact hdel₁) (by rw [hdb])
      rw [hsel, hanchor] at hrows
      refine ⟨n + 2, s₂, w₂, ?_, hdb₂.trans hdb, by rw [hs₂, hdb], by rwa [hdb] at hrows⟩
      rw [Nat.add_comm, List.replicate_add]
      exact hrun.trans hrun₂

end Hedronetes.Storage.Postgres
