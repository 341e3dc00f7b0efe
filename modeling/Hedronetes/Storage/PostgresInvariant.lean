import Hedronetes.Storage.Postgres

/-!
# Invariants of the shared registry

Whatever the servers interleave, the meta row has at most one holder, revisions are
handed out in order, and a compaction deletes rows that were superseded at its
revision. So the stored rows are the history less what was superseded at the
greatest revision compacted at, whatever the floor says.
-/

namespace Hedronetes.Storage.Postgres

open VersionLog CursorScan Fallible Runs

variable {sealer : SecretsSealer}

/-- What a compaction at `rev` may delete. -/
structure Doomed (d : Database) (rev : ℕ) (gone : List ℕ) : Prop where
  rev_le : rev ≤ d.tables.revision
  lt_rev : ∀ g ∈ gone, g < rev
  superseded : ∀ v ∈ rowsOf d.log, v.revision ∈ gone → Superseded (rowsOf d.log) rev v

/-- What an open transaction relies on. -/
def SessionInv (sealer : SecretsSealer) (d : Database) : Session → Prop
  | .checked m draft => ∀ n, Written sealer (rowsOf d.log) m (draft.row n)
  | .bumped m draft newRevision => (∀ n, Written sealer (rowsOf d.log) m (draft.row n)) ∧
      newRevision = d.tables.revision + 1 ∧ newRevision ≤ maxRevision
  | .inserted m row returned => Written sealer (rowsOf d.log) m row ∧
      row.revision = d.tables.revision + 1 ∧ row.revision ≤ maxRevision ∧
      (m.deletes = false → decodeRowValue sealer row.value.bytes = .ok returned)
  | .deleting rev _ => rev ≤ d.tables.revision
  | .flooring rev gone _ => Doomed d rev gone
  | .floored rev gone _ => Doomed d rev gone
  | _ => True

/-- The invariant of the shared registry. -/
structure Coherent (sealer : SecretsSealer) (s : State) : Prop where
  consistent : Consistent (rowsOf s.db.log) s.db.horizon s.db.tables
  lock : ∀ i, s.db.lock = some i ↔ (s.sessions i).holds = true
  sessions : ∀ i, SessionInv sealer s.db (s.sessions i)
  written : ∀ c ∈ s.db.log, Written sealer (rowsOf s.db.log) c.mutation c.row
  readable : ∀ v ∈ rowsOf s.db.log, ∃ opened, decodeRowValue sealer v.value.bytes = .ok opened

theorem coherent_initial (sealer : SecretsSealer) : Coherent sealer .initial where
  consistent := Consistent.fresh
  lock := fun i => by simp [State.initial, Database.fresh, Session.holds]
  sessions := fun i => by simp [State.initial, SessionInv]
  written := by simp [State.initial, Database.fresh]
  readable := by simp [State.initial, Database.fresh]

/-- Everything a successful insert did. -/
theorem insertEvent_ok {m : Mutation} {draft : Draft} {newRevision : ℕ} {t : Tables} {row : Row}
    {returned : Bytes} (h : insertEvent sealer m draft newRevision t = .ok (row, returned)) :
    row = draft.row newRevision ∧ newRevision ≤ maxRevision ∧
      returnedValue (openRowValue sealer) m draft = .ok returned := by
  obtain ⟨value, hvalue, h⟩ := bind_eq_ok.mp h
  obtain ⟨stored, hstored, h⟩ := bind_eq_ok.mp h
  obtain ⟨_, _, h⟩ := bind_eq_ok.mp h
  have he := Except.ok.inj h
  simp only [Prod.mk.injEq] at he
  unfold revisionI64 at hstored
  split_ifs at hstored with hfits
  cases Except.ok.inj hstored
  exact ⟨he.1.symm, hfits, he.2 ▸ hvalue⟩

/-- The lock goes to the connection that takes it and back when its transaction ends. -/
theorem Moves.lock {i : ℕ} {d d' : Database} {a : Action} {session session' : Session}
    (h : Moves sealer i d a session d' session')
    (hlock : d.lock = some i ↔ session.holds = true) :
    (d'.lock = some i ↔ session'.holds = true) ∧
      ∀ j, j ≠ i → (d'.lock = some j ↔ d.lock = some j) := by
  have hne : ∀ {j}, j ≠ i → d.lock = some i → d.lock ≠ some j := fun hj hi he =>
    hj (Option.some.inj (he.symm.trans hi))
  have hunlock : (d.unlock i).lock ≠ some i ∧
      ∀ j, j ≠ i → ((d.unlock i).lock = some j ↔ d.lock = some j) := by
    unfold Database.unlock
    by_cases hi : d.lock = some i
    · simpa [hi] using fun j hj he => hj he.symm
    · simp [hi]
  cases h with
  | abort => exact ⟨by simpa [Session.holds] using hunlock.1, hunlock.2⟩
  | drop => exact ⟨by simpa [Session.holds] using hunlock.1, hunlock.2⟩
  | bump hfree => simpa [Session.holds, hfree] using fun j hj he => hj he.symm
  | take hfree => simpa [Session.holds, hfree] using fun j hj he => hj he.symm
  | commit =>
    refine ⟨by simp [Database.commitRow, Session.holds], fun j hj => ?_⟩
    simpa [Database.commitRow] using hne hj (hlock.mpr rfl)
  | compact =>
    refine ⟨by simp [Database.commitFloor], fun j hj => ?_⟩
    simpa [Database.commitFloor] using hne hj (hlock.mpr rfl)
  | insert => exact ⟨hlock, fun _ _ => Iff.rfl⟩
  | skip hcalm => exact ⟨by rw [hlock, hcalm, afterCompaction_holds], fun _ _ => Iff.rfl⟩
  | register hcalm _ => exact ⟨by rw [hlock, hcalm, openStream_holds], fun _ _ => Iff.rfl⟩
  | reveal => exact ⟨by rw [hlock, showRows_holds]; rfl, fun _ _ => Iff.rfl⟩
  | deliver => exact ⟨by rw [hlock, deliverRows_holds]; rfl, fun _ _ => Iff.rfl⟩
  | _ => exact ⟨by simp_all [Session.holds], fun _ _ => Iff.rfl⟩

theorem Doomed.mono {d d' : Database} {rev : ℕ} {gone : List ℕ} (h : Doomed d rev gone)
    (hrev : d.tables.revision ≤ d'.tables.revision) {new : List Row}
    (hlog : rowsOf d'.log = rowsOf d.log ++ new) (hnew : ∀ v ∈ new, d.tables.revision < v.revision) :
    Doomed d' rev gone where
  rev_le := h.rev_le.trans hrev
  lt_rev := h.lt_rev
  superseded := by
    intro v hv hgone
    rw [hlog] at hv ⊢
    rcases List.mem_append.mp hv with hv | hv
    · exact (h.superseded v hv hgone).mono (List.subset_append_left _ _) le_rfl
    · have hlt := hnew v hv
      have hle := (h.lt_rev _ hgone).le.trans h.rev_le
      omega

/-- What is committed grows by at most one row, at the next revision, and only the
holder of the meta row commits it. -/
theorem Touches.grows {d d' : Database} {session : Session} (h : Touches d session d')
    (hs : SessionInv sealer d session) :
    d'.tables.revision = d.tables.revision ∧ d'.log = d.log ∨
      session.holds = true ∧ ∃ m row, row.revision = d.tables.revision + 1 ∧
        d'.tables.revision = row.revision ∧ d'.log = d.log ++ [⟨m, row⟩] := by
  cases h with
  | frame hrev _ _ hlog _ => exact Or.inl ⟨hrev, hlog⟩
  | floor _ => exact Or.inl ⟨rfl, rfl⟩
  | row hsession =>
    subst hsession
    exact Or.inr ⟨rfl, _, _, hs.2.1, rfl, rfl⟩

/-- The history is extended past the head, which does not move back. -/
theorem Touches.extends {d d' : Database} {session : Session} (h : Touches d session d')
    (hs : SessionInv sealer d session) :
    d.tables.revision ≤ d'.tables.revision ∧ ∃ new, rowsOf d'.log = rowsOf d.log ++ new ∧
      ∀ v ∈ new, d.tables.revision < v.revision := by
  rcases h.grows hs with ⟨hrev, hlog⟩ | ⟨_, m, row, hrow, hrev, hlog⟩
  · exact ⟨hrev.ge, [], by simp [hlog], by simp⟩
  · exact ⟨by omega, [row], by simp [hlog], by simp [hrow]⟩

/-- A connection that does not move keeps its invariant. -/
theorem SessionInv.other {d d' : Database} {session mover : Session}
    (h : SessionInv sealer d session) (ht : Touches d mover d') (hm : SessionInv sealer d mover)
    (hlock : mover.holds = true → session.holds = false) : SessionInv sealer d' session := by
  obtain ⟨hle, new, hrows, hnew⟩ := ht.extends hm
  have hsub : rowsOf d.log ⊆ rowsOf d'.log := by simp [hrows]
  have hheld : session.holds = true → d'.tables.revision = d.tables.revision := by
    intro hholds
    rcases ht.grows hm with ⟨hrev, _⟩ | ⟨hmover, _⟩
    · exact hrev
    · simp [hlock hmover] at hholds
  cases session with
  | checked m draft => exact fun n => (h n).mono hsub
  | bumped m draft newRevision => exact ⟨fun n => (h.1 n).mono hsub, hheld rfl ▸ h.2⟩
  | inserted m row returned => exact ⟨h.1.mono hsub, hheld rfl ▸ h.2⟩
  | deleting rev maintains => exact le_trans h hle
  | flooring rev gone maintains => exact Doomed.mono h hle hrows hnew
  | floored rev gone maintains => exact Doomed.mono h hle hrows hnew
  | _ => trivial

/-- What is committed stays consistent with the history. -/
theorem Touches.consistent {d d' : Database} {session : Session}
    (h : Consistent (rowsOf d.log) d.horizon d.tables) (hs : SessionInv sealer d session)
    (ht : Touches d session d') : Consistent (rowsOf d'.log) d'.horizon d'.tables := by
  cases ht with
  | frame hrev hfloor hversions hlog hhorizon =>
    refine ⟨?_, ?_, ?_, ?_, ?_, ?_⟩ <;> simp only [hrev, hversions, hlog, hhorizon]
    · exact h.ordered
    · exact h.positive
    · exact h.bounded
    · exact h.retains
    · exact h.horizon_le
    · exact h.fits
  | row hsession =>
    subst hsession
    have hcommit := h.commit hs.2.1 hs.2.2.1
    simpa [Database.commitRow, rowsOf] using hcommit
  | floor hsession =>
    subst hsession
    exact h.compacts hs.rev_le hs.superseded

/-- Every commit stores what its mutation asked for. -/
theorem Touches.written {d d' : Database} {session : Session}
    (h : ∀ c ∈ d.log, Written sealer (rowsOf d.log) c.mutation c.row)
    (hs : SessionInv sealer d session) (ht : Touches d session d') :
    ∀ c ∈ d'.log, Written sealer (rowsOf d'.log) c.mutation c.row := by
  cases ht with
  | frame _ _ _ hlog _ => rwa [hlog]
  | floor _ => exact h
  | row hsession =>
    subst hsession
    intro c hc
    rcases List.mem_append.mp hc with hc | hc
    · exact (h c hc).mono (by simp [Database.commitRow])
    · rw [List.mem_singleton.mp hc]
      exact hs.1.mono (by simp [Database.commitRow])

/-- Every stored value opens: a write was read back, a delete copies a stored value. -/
theorem Touches.readable {d d' : Database} {session : Session}
    (h : ∀ v ∈ rowsOf d.log, ∃ opened, decodeRowValue sealer v.value.bytes = .ok opened)
    (hs : SessionInv sealer d session) (ht : Touches d session d') :
    ∀ v ∈ rowsOf d'.log, ∃ opened, decodeRowValue sealer v.value.bytes = .ok opened := by
  cases ht with
  | frame _ _ _ hlog _ => rwa [hlog]
  | floor _ => exact h
  | @row m row returned hsession =>
    subst hsession
    obtain ⟨hwritten, _, _, hopened⟩ := hs
    intro v hv
    simp only [Database.commitRow, rowsOf, List.map_append] at hv
    rcases List.mem_append.mp hv with hv | hv
    · exact h v hv
    · rw [List.mem_singleton.mp hv]
      cases hm : m.deletes with
      | false => exact ⟨returned, hopened hm⟩
      | true =>
        obtain ⟨u, hu, _, _, hbytes⟩ := hwritten.copied hm
        rw [hbytes]
        exact h u hu

/-- A move leaves its own session with what it relies on. -/
theorem Moves.sessionInv {i : ℕ} {d d' : Database} {a : Action} {session session' : Session}
    (h : Moves sealer i d a session d' session')
    (hc : Consistent (rowsOf d.log) d.horizon d.tables) (hs : SessionInv sealer d session) :
    SessionInv sealer d' session' := by
  cases h with
  | check _ hdraft => exact fun n => prepare_written hdraft hc.retains.sublist.subset n
  | bump _ hbump => exact ⟨hs, bumpRevision_ok hbump⟩
  | insert hinsert =>
    obtain ⟨rfl, hfits, hret⟩ := insertEvent_ok hinsert
    refine ⟨hs.1 _, hs.2.1, hfits, fun hm => ?_⟩
    rw [returnedValue, if_neg (by simp [hm])] at hret
    exact openRowValue_ok.mp hret
  | allow _ _ hrev _ => exact hrev
  | delete =>
    refine ⟨hs, fun g hg => ?_, fun v hv hd => hc.doomed_superseded hv hd⟩
    obtain ⟨v, hv, rfl⟩ := List.mem_map.mp hg
    exact (of_decide_eq_true (List.mem_filter.mp hv).2).1
  | take _ => exact Doomed.mono hs le_rfl (rowsOf d.log).append_nil.symm (by simp)
  | @skip _ _ maintains _ => cases maintains <;> trivial
  | @compact _ _ _ _ maintains => cases maintains <;> trivial
  | @register sel _ anchor _ _ =>
    unfold openStream
    split <;> trivial
  | @reveal _ _ w snapshot next revision =>
    rcases showRows_cases sealer w snapshot next revision d.tables with
      ⟨_, _, he⟩ | ⟨_, _, ⟨_, _, he⟩ | ⟨_, he⟩⟩ <;> (rw [he]; trivial)
  | @deliver _ elapsed w cursor current =>
    rcases deliverRows_cases sealer w cursor current elapsed d.tables with
      ⟨_, _, he⟩ | ⟨_, _, he⟩ <;> (rw [he]; trivial)
  | _ => trivial

theorem Coherent.opens {s : State} (h : Coherent sealer s) :
    ∀ v ∈ rowsOf s.db.log, ∃ opened, openRowValue sealer v.value.bytes = .ok opened := by
  intro v hv
  obtain ⟨opened, hopened⟩ := h.readable v hv
  exact ⟨opened, openRowValue_ok.mpr hopened⟩

/-- The meta row has one holder. -/
theorem Coherent.holder {s : State} (h : Coherent sealer s) {i j : ℕ} (hij : j ≠ i)
    (hi : (s.sessions i).holds = true) : (s.sessions j).holds = false := by
  by_contra hcontra
  have hi' := (h.lock i).mpr hi
  have hj' := (h.lock j).mpr (by simpa using hcontra)
  exact hij (Option.some.inj (hj'.symm.trans hi'))

theorem step_coherent {s s' : State} {l : ℕ × Action} (h : Coherent sealer s)
    (hstep : step sealer s l = some s') : Coherent sealer s' := by
  obtain ⟨i, a⟩ := l
  obtain ⟨d', session', hmove, rfl⟩ := step_cases hstep
  obtain ⟨hown, hothers⟩ := hmove.lock (h.lock i)
  refine ⟨hmove.touches.consistent h.consistent (h.sessions i), fun j => ?_, fun j => ?_,
    hmove.touches.written h.written (h.sessions i),
    hmove.touches.readable h.readable (h.sessions i)⟩
  · by_cases hj : j = i
    · subst hj
      simpa using hown
    · simpa [hj] using (hothers j hj).trans (h.lock j)
  · by_cases hj : j = i
    · subst hj
      simpa using hmove.sessionInv h.consistent (h.sessions j)
    · have hother := (h.sessions j).other hmove.touches (h.sessions i) (h.holder hj)
      simpa [hj] using hother

theorem reachable_coherent {s : State} {ls : List (ℕ × Action)}
    (h : AnyRun (step sealer) .initial ls s) : Coherent sealer s :=
  h.invariant (coherent_initial sealer) fun _ _ _ hs _ hstep => step_coherent hs hstep

end Hedronetes.Storage.Postgres
