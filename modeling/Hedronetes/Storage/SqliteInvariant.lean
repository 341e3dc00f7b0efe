import Hedronetes.Storage.Sqlite

/-!
# Invariants of the SQLite registry

In every reachable state the stored rows are the log less what was superseded at
the compaction floor, and every stored value can be opened again: a mutation
reads back its own value before it commits.
-/

namespace Hedronetes.Storage.Sqlite

open VersionLog CursorScan Fallible Runs

variable {sealer : SecretsSealer}

/-- The invariant of the tables against the history. -/
def Sound (s : State) : Prop := Consistent (rowsOf s.log) s.tables.compacted s.tables

/-- Every row's value opens, and a tombstone has kept an openable value. -/
def Readable (sealer : SecretsSealer) (s : State) : Prop :=
  ∀ v ∈ rowsOf s.log, ∃ opened, decodeRowValue sealer v.value.bytes = .ok opened

theorem sound_initial : Sound .initial := Consistent.fresh

theorem readable_initial (sealer : SecretsSealer) : Readable sealer .initial := by
  intro v hv
  simp [State.initial] at hv

theorem consistent_of_tables {log : List Row} {t t' : Tables} (h : Consistent log t.compacted t)
    (hrev : t'.revision = t.revision) (hfloor : t'.compacted = t.compacted)
    (hversions : t'.versions = t.versions) : Consistent log t'.compacted t' := by
  refine ⟨h.ordered, h.positive, ?_, ?_, ?_, ?_⟩ <;> simp only [hrev, hfloor, hversions]
  · exact h.bounded
  · exact h.retains
  · exact h.horizon_le
  · exact h.fits

/-- A compaction that goes through leaves the tables consistent with the same log. -/
theorem compactTx_consistent {log : List Row} {t t' : Tables} {rev : ℕ}
    (h : Consistent log t.compacted t) (htx : compactTx rev t = .ok t') :
    Consistent log t'.compacted t' := by
  obtain ⟨hhead, ⟨_, rfl⟩ | ⟨hlt, rfl⟩⟩ := compactTx_ok htx
  · exact h
  · have hdoomed : ∀ v ∈ log, v.revision ∈ doomed rev t.versions → Superseded log rev v :=
      fun v hv hd => h.doomed_superseded hv hd
    have hc : Consistent log (max t.compacted rev)
        { t with
          compacted := rev
          versions := t.versions.filter fun v => v.revision ∉ doomed rev t.versions } :=
      h.compacts hhead hdoomed
    rw [max_eq_right hlt.le] at hc
    exact hc

/-- What a move leaves in the tables is consistent with the log it leaves. -/
theorem Touches.consistent {log : List Commit} {t t' : Tables} {commit : Option Commit}
    (h : Consistent (rowsOf log) t.compacted t) (ht : Touches sealer t t' commit) :
    Consistent (rowsOf (log ++ commit.toList)) t'.compacted t' := by
  cases ht with
  | write draw m row returned tx =>
    obtain ⟨draft, _, _, hrow, hfits, htables⟩ := mutateTx_ok tx
    have hnext : row.revision = t.revision + 1 := by rw [hrow]; rfl
    rw [htables, rowsOf, List.map_append]
    exact h.commit hnext hfits
  | compact rev tx => simpa using compactTx_consistent h tx
  | frame hrev hfloor hversions => simpa using consistent_of_tables h hrev hfloor hversions

/-- A list the floor allows reads the history, up to the head. -/
theorem list_eq_log {log : List Row} {t : Tables} (h : Consistent log t.compacted t)
    (sel : ListSelect) (hfloor : t.compacted ≤ listRevision sel.atRevision t.revision) :
    list sealer sel t = (do
      checkList sel
      if t.revision < listRevision sel.atRevision t.revision then
        .error (.futureRevision (listRevision sel.atRevision t.revision) t.revision)
      else
        listPage (decodeRowValue sealer) sel (listRevision sel.atRevision t.revision) log) := by
  rw [list]
  cases checkList sel with
  | error e => rfl
  | ok _ =>
    by_cases hhead : t.revision < listRevision sel.atRevision t.revision
    · simp [validateRevision, not_lt.mpr hfloor, hhead, bind, Except.bind]
    · have hfits : listRevision sel.atRevision t.revision ≤ maxRevision :=
        (not_lt.mp hhead).trans h.fits
      simp [validateRevision, not_lt.mpr hfloor, hhead, revisionI64, hfits,
        h.listPage_eq (decodeRowValue sealer) sel hfloor, bind, Except.bind]

/-- A list below the floor fails, if its selection is valid, with the compaction error. -/
theorem list_below_floor (sel : ListSelect) {t : Tables}
    (hfloor : listRevision sel.atRevision t.revision < t.compacted) :
    list sealer sel t = (do
      checkList sel
      .error (.compacted (listRevision sel.atRevision t.revision) t.compacted)) := by
  simp [list, validateRevision, hfloor, bind, Except.bind]

/-- A valid list of a revision that is not ahead of the head reads the page of the history, or
fails because the revision is compacted. -/
theorem list_at {s : State} (h : Sound s) (hr : Readable sealer s) {sel : ListSelect} {revision : ℕ}
    (hsel : checkList sel = .ok ()) (hrev : listRevision sel.atRevision s.tables.revision = revision)
    (hhead : revision ≤ s.tables.revision) :
    (revision < s.tables.compacted ∧
        list sealer sel s.tables = .error (.compacted revision s.tables.compacted)) ∨
      ∃ page, listPage (decodeRowValue sealer) sel revision (rowsOf s.log) = .ok page ∧
        list sealer sel s.tables = .ok page := by
  by_cases hfloor : revision < s.tables.compacted
  · refine Or.inl ⟨hfloor, ?_⟩
    rw [list_below_floor _ (by rwa [hrev]), hsel, hrev]
    rfl
  · obtain ⟨items, hitems⟩ := mapM_exists_ok
      (l := listRows sel.selected (startText sel.startAfter) revision (sel.limit + 1) (rowsOf s.log))
      fun v hv => by
        rw [listRows_eq_scan h.ordered] at hv
        have hsnap := (mem_visible.mp (scan_subset hv).1).1
        exact openRow_exists (hr v (List.mem_of_mem_filter hsnap))
    have hpage : listPage (decodeRowValue sealer) sel revision (rowsOf s.log) =
        .ok (pageOf sel.limit revision items) := bind_eq_ok.mpr ⟨items, hitems, rfl⟩
    refine Or.inr ⟨_, hpage, ?_⟩
    rw [list_eq_log h _ (by rwa [hrev, ← not_lt]), hsel, hrev]
    simp [not_lt.mpr hhead, hpage, bind, Except.bind]

/-- A list that went through passed its checks. -/
theorem list_checked {sel : ListSelect} {t : Tables} {page : ObjectList}
    (h : list sealer sel t = .ok page) :
    checkList sel = .ok () ∧ t.compacted ≤ listRevision sel.atRevision t.revision ∧
      listRevision sel.atRevision t.revision ≤ t.revision := by
  obtain ⟨⟨⟩, hsel, h⟩ := bind_eq_ok.mp h
  obtain ⟨⟨⟩, hvalid, _⟩ := bind_eq_ok.mp h
  exact ⟨hsel, validateRevision_ok.mp hvalid⟩

theorem step_sound {s s' : State} {l : ℕ × Action} (h : Sound s)
    (hstep : step sealer s l = some s') : Sound s' := by
  obtain ⟨t', commit, session', hmove, rfl⟩ := step_cases hstep
  exact hmove.touches.consistent h

theorem reachable_sound {s : State} {ls : List (ℕ × Action)}
    (h : AnyRun (step sealer) .initial ls s) : Sound s :=
  h.invariant sound_initial fun _ _ _ hs _ hstep => step_sound hs hstep

/-- The draft of a mutation opens: a write was read back, a delete copies a stored value. -/
theorem draft_readable {s : State} (h : Sound s) (hr : Readable sealer s) {draw : ℕ} {m : Mutation}
    {draft : Draft} {returned : Bytes}
    (hdraft : prepare sealer draw m (currentObject m.obj.key s.tables.versions) = .ok draft)
    (hret : returnedValue (decodeRowValue sealer) m draft = .ok returned) :
    ∃ opened, decodeRowValue sealer draft.bytes = .ok opened := by
  obtain ⟨_, _, _, hdel, _⟩ := prepare_ok hdraft
  cases hm : m.deletes with
  | false => exact ⟨returned, by simpa [returnedValue, hm] using hret⟩
  | true =>
    obtain ⟨old, hold, hbytes⟩ := hdel hm
    obtain ⟨row, hrow, _, rfl⟩ := currentObject_eq_some.mp hold
    rw [hbytes]
    exact hr row (h.retains.sublist.subset (latest_mem hrow).1)

theorem step_readable {s s' : State} {l : ℕ × Action} (h : Sound s) (hr : Readable sealer s)
    (hstep : step sealer s l = some s') : Readable sealer s' := by
  obtain ⟨t', commit, session', hmove, rfl⟩ := step_cases hstep
  intro v hv
  rw [rowsOf, List.map_append] at hv
  rcases List.mem_append.mp hv with hv | hv
  · exact hr v hv
  · cases hmove.touches with
    | write draw m row returned tx =>
      obtain ⟨draft, hdraft, hret, rfl, _, _⟩ := mutateTx_ok tx
      rw [List.mem_singleton.mp hv]
      exact draft_readable h hr hdraft hret
    | compact rev tx => simp at hv
    | frame _ _ _ => simp at hv

theorem reachable_readable {s : State} {ls : List (ℕ × Action)}
    (h : AnyRun (step sealer) .initial ls s) : Readable sealer s := by
  have hboth : Sound s ∧ Readable sealer s :=
    h.invariant (I := fun s => Sound s ∧ Readable sealer s)
      ⟨sound_initial, readable_initial sealer⟩ fun _ _ _ hs _ hstep =>
        ⟨step_sound hs.1 hstep, step_readable hs.1 hs.2 hstep⟩
  exact hboth.2

/-- Every commit stores what its mutation asked for. -/
theorem reachable_written {s : State} {ls : List (ℕ × Action)}
    (h : AnyRun (step sealer) .initial ls s) :
    ∀ c ∈ s.log, Written sealer (rowsOf s.log) c.mutation c.row := by
  induction h with
  | nil => simp [State.initial]
  | @snoc ls s s' l hrun _ hstep ih =>
    have hsound := reachable_sound hrun
    obtain ⟨t', commit, session', hmove, rfl⟩ := step_cases hstep
    intro c hc
    rcases List.mem_append.mp hc with hc | hc
    · exact (ih c hc).mono (by simp)
    · cases hmove.touches with
      | write draw m row returned tx =>
        obtain ⟨draft, hdraft, _, rfl, _, _⟩ := mutateTx_ok tx
        rw [List.mem_singleton.mp hc]
        exact (prepare_written hdraft hsound.retains.sublist.subset _).mono (by simp)
      | compact rev tx => simp at hc
      | frame _ _ _ => simp at hc

/-- A move grows the log by at most one row, which takes the next revision. -/
theorem Touches.log {t t' : Tables} {commit : Option Commit} (ht : Touches sealer t t' commit) :
    (∀ v ∈ rowsOf commit.toList, v.revision = t.revision + 1) ∧
      t'.revision = t.revision + commit.toList.length := by
  cases ht with
  | write draw m row returned tx =>
    obtain ⟨draft, _, _, rfl, _, rfl⟩ := mutateTx_ok tx
    exact ⟨by simp [Draft.row], rfl⟩
  | compact rev tx =>
    refine ⟨by simp, ?_⟩
    obtain ⟨_, ⟨_, rfl⟩ | ⟨_, rfl⟩⟩ := compactTx_ok tx <;> rfl
  | frame hrev _ _ => exact ⟨by simp, by simpa using hrev⟩

/-- The compaction floor never falls. -/
theorem Touches.floor {t t' : Tables} {commit : Option Commit} (ht : Touches sealer t t' commit) :
    t.compacted ≤ t'.compacted := by
  cases ht with
  | write draw m row returned tx =>
    obtain ⟨_, _, _, _, _, rfl⟩ := mutateTx_ok tx
    exact le_rfl
  | compact rev tx =>
    obtain ⟨_, ⟨_, rfl⟩ | ⟨hlt, rfl⟩⟩ := compactTx_ok tx
    · exact le_rfl
    · exact hlt.le
  | frame _ hfloor _ => exact hfloor.ge

end Hedronetes.Storage.Sqlite
