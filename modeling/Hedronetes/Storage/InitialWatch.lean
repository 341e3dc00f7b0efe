import Hedronetes.Storage.PostgresWatch
import Hedronetes.Storage.SqliteWatch

/-!
# The initial watch of both backends

SQLite shows the snapshot at the anchor, and none at all when the registry was empty
then. Postgres asks LIST for the anchor's revision, where zero means the current one:
a watch that starts on an empty registry shows whatever has been committed by its
first page, and then tails the log from zero.
-/

namespace Hedronetes.Storage

open VersionLog CursorScan Fallible Runs

variable {sealer : SecretsSealer}

namespace Sqlite

/-- Nothing has been compacted and no maintenance is under way. -/
def Uncompacted (t : Tables) (sessions : ℕ → Session) : Prop :=
  t.compacted = 0 ∧ ∀ i window observed target, sessions i ≠ .maintaining window observed target

end Sqlite

namespace Postgres

/-- The sessions that compact. -/
def compacts : Session → Bool
  | .compacting _ => true
  | .deleting _ _ => true
  | .flooring _ _ _ => true
  | .floored _ _ _ => true
  | _ => false

/-- Nothing has been compacted and no compaction is under way. -/
structure Uncompacted (s : State) : Prop where
  floor : s.db.tables.compacted = 0
  horizon : s.db.horizon = 0
  calm : ∀ i, compacts (s.sessions i) = false

/-- What a watch shows while it replays: at a positive anchor the snapshot there. -/
structure Replays (sealer : SecretsSealer) (d : Database) (w : Watch) (snapshot : Option ℕ)
    (next : Option StoreKey) : Prop where
  initial : requestedRevision w.sel = none
  anchor_le : w.anchor ≤ d.tables.revision
  selects : checkList (snapshotSelect w next) = .ok ()
  shown : 0 < w.anchor → Shown (openRowValue sealer) (rowsOf d.log) w.anchor w next
  unshown : w.anchor = 0 → next = none ∧ w.emitted = [] ∧ w.batches = []
  snapshot_eq : ∀ r, snapshot = some r → r = w.anchor ∧ 0 < w.anchor

/-- The revision that the rows of a page are read at. -/
structure PageAt (d : Database) (w : Watch) (revision : ℕ) : Prop where
  revision_le : revision ≤ d.tables.revision
  anchored : 0 < w.anchor → revision = w.anchor
  nothing : w.anchor = 0 → ∀ v ∈ rowsUnder w.sel.selected (rowsOf d.log), revision < v.revision

/-- A watch that tails the log after its snapshot. -/
def Follows (sealer : SecretsSealer) (d : Database) (w : Watch) (cursor : ℕ) : Prop :=
  cursor ≤ d.tables.revision ∧ ∃ revision initial, w.anchor ≤ revision ∧
    revision ≤ d.tables.revision ∧
    initialEvents (openRowValue sealer) w.sel.selected revision (rowsOf d.log) = .ok initial ∧
    (∀ v ∈ rowsUnder w.sel.selected (rowsOf d.log), w.anchor < v.revision → revision < v.revision) ∧
    Delivers sealer (rowsOf d.log) w cursor (initial ++ [bookmarkAt revision])

/-- The invariant of an initial watch. -/
def InitialInv (sealer : SecretsSealer) (d : Database) : Session → Prop
  | .paging w snapshot next => Replays sealer d w snapshot next
  | .pageRows w snapshot next revision => Replays sealer d w snapshot next ∧ PageAt d w revision
  | .tailing w cursor => requestedRevision w.sel = none → Follows sealer d w cursor
  | .polling w cursor current => requestedRevision w.sel = none →
      Follows sealer d w cursor ∧ cursor ≤ current ∧ current ≤ d.tables.revision
  | .done (.watchEnded w _ _) => requestedRevision w.sel ≠ none
  | _ => True

section Mono

variable {d d' : Database} {w : Watch} {new : List Row}

theorem Replays.mono {snapshot : Option ℕ} {next : Option StoreKey}
    (h : Replays sealer d w snapshot next) (hle : d.tables.revision ≤ d'.tables.revision)
    (hrows : rowsOf d'.log = rowsOf d.log ++ new)
    (hnew : ∀ v ∈ new, d.tables.revision < v.revision) : Replays sealer d' w snapshot next where
  initial := h.initial
  anchor_le := h.anchor_le.trans hle
  selects := h.selects
  shown hpos := by
    rw [hrows]
    exact (h.shown hpos).grow fun v hv => h.anchor_le.trans_lt (hnew v hv)
  unshown := h.unshown
  snapshot_eq := h.snapshot_eq

/-- A property of the rows under a prefix survives growth if the new rows have it. -/
theorem forall_rowsUnder_append {selected : String} {log : List Row} {p : Row → Prop}
    (h : ∀ v ∈ rowsUnder selected log, p v) (hnew : ∀ v ∈ new, p v) :
    ∀ v ∈ rowsUnder selected (log ++ new), p v := by
  intro v hv
  rw [rowsUnder_append] at hv
  rcases List.mem_append.mp hv with hv | hv
  · exact h v hv
  · exact hnew v (List.mem_of_mem_filter hv)

theorem PageAt.mono {revision : ℕ} (h : PageAt d w revision)
    (hle : d.tables.revision ≤ d'.tables.revision) (hrows : rowsOf d'.log = rowsOf d.log ++ new)
    (hnew : ∀ v ∈ new, d.tables.revision < v.revision) : PageAt d' w revision where
  revision_le := h.revision_le.trans hle
  anchored := h.anchored
  nothing hzero := by
    rw [hrows]
    exact forall_rowsUnder_append (h.nothing hzero) fun v hv => h.revision_le.trans_lt (hnew v hv)

theorem Follows.mono {cursor : ℕ} (h : Follows sealer d w cursor)
    (hpos : ∀ v ∈ rowsOf d.log, 0 < v.revision) (hle : d.tables.revision ≤ d'.tables.revision)
    (hrows : rowsOf d'.log = rowsOf d.log ++ new)
    (hnew : ∀ v ∈ new, d.tables.revision < v.revision) : Follows sealer d' w cursor := by
  obtain ⟨hcursor, revision, initial, hanchor, hrev, hinitial, hgap, hdel⟩ := h
  refine ⟨hcursor.trans hle, revision, initial, hanchor, hrev.trans hle, ?_, ?_, ?_⟩ <;> rw [hrows]
  · rwa [initialEvents_append fun v hv => hrev.trans_lt (hnew v hv)]
  · exact forall_rowsUnder_append hgap fun v hv _ => hrev.trans_lt (hnew v hv)
  · exact hdel.grow hpos fun v hv => hcursor.trans_lt (hnew v hv)

/-- A connection that does not move keeps its invariant. -/
theorem InitialInv.other {session mover : Session} (h : InitialInv sealer d session)
    (hc : Consistent (rowsOf d.log) d.horizon d.tables) (ht : Touches d mover d')
    (hm : SessionInv sealer d mover) : InitialInv sealer d' session := by
  obtain ⟨hle, new, hrows, hnew⟩ := ht.extends hm
  cases session with
  | paging w snapshot next => exact Replays.mono h hle hrows hnew
  | pageRows w snapshot next revision => exact ⟨h.1.mono hle hrows hnew, h.2.mono hle hrows hnew⟩
  | tailing w cursor => exact fun hnone => (h hnone).mono hc.positive hle hrows hnew
  | polling w cursor current =>
    intro hnone
    obtain ⟨hfollows, hcursor, hcurrent⟩ := h hnone
    exact ⟨hfollows.mono hc.positive hle hrows hnew, hcursor, hcurrent.trans hle⟩
  | done outcome =>
    cases outcome with
    | watchEnded w cursor e => exact h
    | _ => trivial
  | _ => trivial

end Mono

/-- The first statement of a snapshot page goes through. -/
theorem Replays.listHead_eq {s : State} (h : Coherent sealer s) (hu : Uncompacted s) {w : Watch}
    {snapshot : Option ℕ} {next : Option StoreKey} (hw : Replays sealer s.db w snapshot next) :
    listHead (snapshotSelect w next) s.db.tables =
      .ok (listRevision (some w.anchor) s.db.tables.revision) := by
  have hle : listRevision (some w.anchor) s.db.tables.revision ≤ s.db.tables.revision := by
    rcases Nat.eq_zero_or_pos w.anchor with hzero | hpos
    · rw [hzero, listRevision_zero]
    · rw [listRevision_some hpos]
      exact hw.anchor_le
  have hfits := hle.trans h.consistent.fits
  refine bind_eq_ok.mpr ⟨(), hw.selects, bind_eq_ok.mpr ⟨(), ?_, ?_⟩⟩
  · exact validateRevision_ok.mpr ⟨by rw [hu.floor]; exact Nat.zero_le _, hle⟩
  · exact if_pos hfits

/-- Nothing is missing from an uncompacted registry. -/
theorem rowsUnder_stored {s : State} (h : Coherent sealer s) (hu : Uncompacted s)
    (selected : String) :
    rowsUnder selected s.db.tables.versions = rowsUnder selected (rowsOf s.db.log) := by
  have hall : ∀ l : List Row, l ⊆ rowsOf s.db.log →
      beyond Version.revision 0 (rowsUnder selected l) = rowsUnder selected l := fun l hl =>
    List.filter_eq_self.mpr fun v hv => by
      simpa using h.consistent.positive v (hl (List.mem_of_mem_filter hv))
  have hbeyond := h.consistent.rowsUnder_beyond selected hu.horizon.le
  rwa [hall _ h.consistent.retains.sublist.subset, hall _ (List.Subset.refl _)] at hbeyond

theorem Replays.turn {s : State} (h : Coherent sealer s) (hu : Uncompacted s) {w : Watch}
    {snapshot : Option ℕ} {next : Option StoreKey} {revision : ℕ}
    (hw : Replays sealer s.db w snapshot next)
    (hhead : listHead (snapshotSelect w next) s.db.tables = .ok revision)
    (hempty : w.anchor = 0 → rowsUnder w.sel.selected s.db.tables.versions = []) :
    PageAt s.db w revision := by
  obtain ⟨_, _, hle⟩ := listHead_ok hhead
  have heq := Except.ok.inj (hhead.symm.trans (hw.listHead_eq h hu))
  refine ⟨hle, fun hpos => heq.trans (listRevision_some hpos), fun hzero => ?_⟩
  rw [← rowsUnder_stored h hu, hempty hzero]
  simp

/-- The rows of a snapshot page can be read, from the history. -/
theorem Replays.listPage_exists {s : State} (h : Coherent sealer s) (hu : Uncompacted s)
    (w : Watch) (next : Option StoreKey) (revision : ℕ) :
    ∃ page, listPage (openRowValue sealer) (snapshotSelect w next) revision s.db.tables.versions =
        .ok page ∧
      listPage (openRowValue sealer) (snapshotSelect w next) revision (rowsOf s.db.log) =
        .ok page := by
  have hfrom : s.db.horizon ≤ revision := hu.horizon ▸ Nat.zero_le revision
  have heq := h.consistent.listPage_eq (openRowValue sealer) (snapshotSelect w next) hfrom
  obtain ⟨items, hitems⟩ := mapM_exists_ok (f := openRow (openRowValue sealer))
    (l := listRows w.sel.selected (startText next) revision 257 (rowsOf s.db.log)) fun v hv => by
      rw [listRows_eq_scan h.consistent.ordered] at hv
      have hsnap := (mem_visible.mp (scan_subset hv).1).1
      exact openRow_exists (h.opens v (List.mem_of_mem_filter hsnap))
  have hpage : listPage (openRowValue sealer) (snapshotSelect w next) revision (rowsOf s.db.log) =
      .ok (pageOf 256 revision items) := bind_eq_ok.mpr ⟨items, hitems, rfl⟩
  exact ⟨_, heq.trans hpage, hpage⟩

/-- A page read below every row of its prefix is empty and the last one. -/
theorem page_of_nothing {log : List Row} (ho : Ordered log) {sel : ListSelect} {revision : ℕ}
    (hnothing : ∀ v ∈ rowsUnder sel.selected log, revision < v.revision) :
    visible sel.selected revision log = [] ∧ ∀ page,
      listPage (openRowValue sealer) sel revision log = .ok page →
        page.items = [] ∧ page.nextAfter = none := by
  have hvisible : visible sel.selected revision log = [] := by
    rw [List.eq_nil_iff_forall_not_mem]
    intro v hv
    obtain ⟨hsnap, _, hunder⟩ := mem_visible.mp hv
    have hlt := hnothing v (List.mem_filter.mpr ⟨List.mem_of_mem_filter hsnap, hunder⟩)
    exact absurd (snapshot_le ho hsnap) (not_le.mpr hlt)
  refine ⟨hvisible, fun page hpage => ?_⟩
  obtain ⟨_, hitems, hnext⟩ := listPage_ok ho hpage
  rw [hvisible] at hitems hnext
  have hscan : scan keyText sel.limit (startText sel.startAfter) ([] : List Row) = [] := by
    simp [scan, beyond]
  rw [hscan] at hitems
  exact ⟨(Except.ok.inj hitems).symm, by simpa [beyond] using hnext⟩

/-- The rows of a snapshot page keep the invariant. -/
theorem Replays.showRows {s : State} (h : Coherent sealer s) (hu : Uncompacted s) {w : Watch}
    {snapshot : Option ℕ} {next : Option StoreKey} {revision : ℕ}
    (hw : Replays sealer s.db w snapshot next) (hat : PageAt s.db w revision) :
    InitialInv sealer s.db (showRows sealer w snapshot next revision s.db.tables) := by
  obtain ⟨page, hread, hpage⟩ := Replays.listPage_exists h hu w next revision
  obtain ⟨hrev, _, _⟩ := listPage_ok h.consistent.ordered hpage
  rcases Nat.eq_zero_or_pos w.anchor with hzero | hpos
  · -- The registry was empty: one page without objects, at the head the page read.
    obtain ⟨hnext, hemitted, hbatches⟩ := hw.unshown hzero
    have hnothing : ∀ v ∈ rowsUnder (snapshotSelect w next).selected (rowsOf s.db.log),
        revision < v.revision := hat.nothing hzero
    obtain ⟨hvisible, hall⟩ := page_of_nothing h.consistent.ordered hnothing
    obtain ⟨hitems, hlast⟩ := hall page hpage
    have hsnapshot : snapshot = none := by
      cases snapshot with
      | none => rfl
      | some r => exact absurd hzero (hw.snapshot_eq r rfl).2.ne'
    have hevents : initialEvents (openRowValue sealer) w.sel.selected revision (rowsOf s.db.log) =
        .ok [] := by
      change (visible (snapshotSelect w next).selected revision (rowsOf s.db.log)).mapM _ = _
      rw [hvisible]
      rfl
    rw [Postgres.showRows, hread]
    simp only [hlast, hsnapshot, Option.getD_none, hrev, hitems]
    refine fun _ => ⟨hw.anchor_le, revision, [], hzero.trans_le (Nat.zero_le _), hat.revision_le, hevents,
      fun v hv _ => hat.nothing hzero v hv, ?_⟩
    have hdel : Delivered (openRowValue sealer) (openPrevious sealer) (rowsOf s.db.log)
        ((w.showPage []).bookmark revision) w.anchor ((w.showPage []).bookmark revision).emitted :=
      .unpolled _ hbatches
    simpa [Watch.showPage, Watch.bookmark, hemitted] using hdel
  · obtain rfl := hat.anchored hpos
    obtain ⟨hmore, hlast⟩ := (hw.shown hpos).page h.consistent.ordered rfl rfl rfl hpage
    have hsnapshot : snapshot.getD w.anchor = w.anchor := by
      cases hs : snapshot with
      | none => rfl
      | some r => exact (hw.snapshot_eq r hs).1
    rw [Postgres.showRows, hread]
    cases hnext : page.nextAfter with
    | some key =>
      simp only [hnext, hrev, hsnapshot]
      exact ⟨hw.initial, hw.anchor_le,
        checkList_continue hw.selects (listPage_nextAfter h.consistent.ordered hpage hnext),
        fun _ => hmore key hnext, fun hzero => absurd hzero hpos.ne',
        fun r hr => ⟨(Option.some.inj hr).symm, hpos⟩⟩
    | none =>
      simp only [hnext, hrev, hsnapshot]
      exact fun _ => ⟨hw.anchor_le, w.anchor, _, le_rfl, hw.anchor_le, hlast hnext,
        fun _ _ hlt => hlt, Delivered.unpolled _ (hw.shown hpos).batches⟩

end Postgres

end Hedronetes.Storage
