import Hedronetes.Storage.PostgresInvariant

/-!
# Compare-and-swap across servers

`mutate` checks the version it expects in one statement and locks the meta row in a
later one, without checking again. From the lock to the commit nobody else commits,
so a commit is a compare-and-swap exactly when the check still holds at the lock.
-/

namespace Hedronetes.Storage.Postgres

open VersionLog CursorScan Fallible Runs

variable {sealer : SecretsSealer}

/-- What a commit after `before` must find: an update or delete the row it expects as
the latest one of its key, a create no live one. -/
def Swaps (before : List Row) (m : Mutation) : Prop :=
  match m.expected with
  | some rv => ∃ row, latest m.obj.key before = some row ∧ row.revision = rv
  | none => ∀ row, latest m.obj.key before = some row → isLive row = false

/-- Every commit of the history found what it must. -/
def CompareAndSwap (log : List Commit) : Prop :=
  ∀ before c after, log = before ++ c :: after → Swaps (rowsOf before) c.mutation

/-- Of the writers that named the same version of a key at most one committed. -/
def OneWinner (log : List Commit) : Prop :=
  ∀ c ∈ log, ∀ c' ∈ log, ∀ rv, c.mutation.obj.key = c'.mutation.obj.key →
    c.mutation.expected = some rv → c'.mutation.expected = some rv → c = c'

/-- The check of a mutation against what is stored. -/
def StillCurrent (versions : List Row) (m : Mutation) : Prop :=
  checkExpected m.obj.key m.expected (currentObject m.obj.key versions) = .ok ()

/-- A step that locks the meta row for a mutation finds its check still true. -/
def LocksCurrent (s : State) (label : ℕ × Action) : Prop :=
  match label.2, s.sessions label.1 with
  | .advance _ _, .checked m _ => StillCurrent s.db.tables.versions m
  | _, _ => True

/-- A mutation whose check holds may commit. -/
theorem StillCurrent.swaps {versions : List Row} {m : Mutation} (h : StillCurrent versions m) :
    Swaps versions m := by
  unfold StillCurrent at h
  unfold Swaps
  split
  · rename_i rv hrv
    rw [hrv] at h
    obtain ⟨old, hold, hrev⟩ := checkExpected_some.mp h
    obtain ⟨row, hrow, _, rfl⟩ := currentObject_eq_some.mp hold
    exact ⟨row, hrow, hrev⟩
  · rename_i hnone
    rw [hnone] at h
    exact currentObject_eq_none.mp (checkExpected_none.mp h)

/-- And only such a mutation: the version it expects was live when it was checked. -/
theorem Swaps.stillCurrent {log : List Row} (ho : Ordered log) {m : Mutation} {row : Row}
    (hw : Written sealer log m row) (h : Swaps log m) : StillCurrent log m := by
  unfold Swaps at h
  unfold StillCurrent
  split at h
  · rename_i rv hrv
    obtain ⟨v, hlatest, hrev⟩ := h
    obtain ⟨u, hu, _, hlive, hurev⟩ := hw.seen rv hrv
    have huv : u = v := ho.eq_of_key hu (latest_mem hlatest).1 (hurev.trans hrev.symm)
    rw [hrv]
    exact checkExpected_some.mpr
      ⟨_, currentObject_eq_some.mpr ⟨v, hlatest, huv ▸ hlive, rfl⟩, hrev⟩
  · rename_i hnone
    rw [hnone]
    exact checkExpected_none.mpr (currentObject_eq_none.mpr h)

theorem CompareAndSwap.snoc {log : List Commit} (h : CompareAndSwap log) {c : Commit}
    (hc : Swaps (rowsOf log) c.mutation) : CompareAndSwap (log ++ [c]) := by
  intro before c' after heq
  rcases List.append_eq_append_iff.mp heq with ⟨mid, hbefore, hrest⟩ | ⟨mid, hlog, hrest⟩
  · cases mid with
    | nil =>
      obtain ⟨rfl, _⟩ := List.cons.inj hrest
      simpa [hbefore] using hc
    | cons x xs => simp at hrest
  · cases mid with
    | nil =>
      obtain ⟨rfl, _⟩ := List.cons.inj hrest
      simpa [hlog] using hc
    | cons x xs =>
      obtain ⟨rfl, _⟩ := List.cons.inj hrest
      exact h before c' xs hlog

/-- Two commits cannot both have found the same version of a key. -/
theorem CompareAndSwap.no_second {log before mid after : List Commit} {c c' : Commit}
    (h : CompareAndSwap log) (ho : Ordered (rowsOf log))
    (hw : ∀ c ∈ log, Written sealer (rowsOf log) c.mutation c.row)
    (heq : log = before ++ c :: (mid ++ c' :: after)) {rv : ℕ}
    (hkey : c.mutation.obj.key = c'.mutation.obj.key) (hc : c.mutation.expected = some rv)
    (hc' : c'.mutation.expected = some rv) : False := by
  have hfirst := h before c _ heq
  have hsecond := h (before ++ c :: mid) c' after (by simp [heq])
  simp only [Swaps, hc] at hfirst
  simp only [Swaps, hc'] at hsecond
  obtain ⟨u, hu, hurev⟩ := hfirst
  obtain ⟨v, hv, hvrev⟩ := hsecond
  -- The row of the first commit is newer than what it found and still older than the second.
  have hlt : u.revision < c.row.revision := by
    rw [heq, rowsOf, List.map_append, List.map_cons] at ho
    exact (List.pairwise_append.mp ho).2.2 u (latest_mem hu).1 c.row (by simp)
  have hckey : c.row.key = c'.mutation.obj.key := (hw c (by simp [heq])).key.trans hkey
  have hle : c.row.revision ≤ v.revision := newest_le hv (by simp) (by simpa using hckey)
  omega

theorem CompareAndSwap.oneWinner {log : List Commit} (h : CompareAndSwap log)
    (ho : Ordered (rowsOf log)) (hw : ∀ c ∈ log, Written sealer (rowsOf log) c.mutation c.row) :
    OneWinner log := by
  intro c hc c' hc' rv hkey hexp hexp'
  obtain ⟨before, after, heq⟩ := List.append_of_mem hc
  rw [heq] at hc'
  rcases List.mem_append.mp hc' with hbefore | hafter
  · obtain ⟨front, mid, rfl⟩ := List.append_of_mem hbefore
    exact (h.no_second ho hw (by simpa using heq) hkey.symm hexp' hexp).elim
  · rcases List.mem_cons.mp hafter with rfl | hafter
    · rfl
    · obtain ⟨mid, rest, rfl⟩ := List.append_of_mem hafter
      exact (h.no_second ho hw heq hkey hexp hexp').elim

/-- Between the lock and the commit the check of a mutation stays true. -/
def LockedCurrent (d : Database) : Session → Prop
  | .bumped m _ _ => StillCurrent (rowsOf d.log) m
  | .inserted m _ _ => StillCurrent (rowsOf d.log) m
  | _ => True

theorem LockedCurrent.of_not_holds {d : Database} {session : Session}
    (h : session.holds = false) : LockedCurrent d session := by
  cases session <;> trivial

/-- A guarded move keeps the commits compare-and-swaps, and the open ones ready to be. -/
theorem Moves.lockedCurrent {i : ℕ} {d d' : Database} {a : Action} {session session' : Session}
    (h : Moves sealer i d a session d' session')
    (hc : Consistent (rowsOf d.log) d.horizon d.tables) (hlocked : LockedCurrent d session)
    (hguard : ∀ m draft, session = .checked m draft → (∃ now elapsed, a = .advance now elapsed) →
      StillCurrent d.tables.versions m) : LockedCurrent d' session' := by
  cases h with
  | bump _ _ =>
    have hcurrent := hguard _ _ rfl ⟨_, _, rfl⟩
    unfold StillCurrent at hcurrent
    rwa [hc.currentObject_eq] at hcurrent
  | insert _ => exact hlocked
  | skip _ => exact .of_not_holds (by simp)
  | compact => exact .of_not_holds (by simp)
  | register _ _ => exact .of_not_holds (by simp)
  | reveal => exact .of_not_holds (by simp)
  | deliver => exact .of_not_holds (by simp)
  | _ => trivial

/-- A connection that does not move keeps its check: only a holder could spoil it. -/
theorem LockedCurrent.other {d d' : Database} {session mover : Session}
    (h : LockedCurrent d session) (ht : Touches d mover d') (hm : SessionInv sealer d mover)
    (hlock : mover.holds = true → session.holds = false) : LockedCurrent d' session := by
  rcases ht.grows hm with ⟨_, hlog⟩ | ⟨hholds, _⟩
  · cases session <;> simp only [LockedCurrent, hlog] at h ⊢ <;> exact h
  · exact .of_not_holds (hlock hholds)

theorem Touches.compareAndSwap {d d' : Database} {session : Session}
    (ht : Touches d session d') (h : CompareAndSwap d.log) (hlocked : LockedCurrent d session) :
    CompareAndSwap d'.log := by
  cases ht with
  | frame _ _ _ hlog _ => rwa [hlog]
  | floor _ => exact h
  | row hsession =>
    subst hsession
    exact h.snoc (StillCurrent.swaps hlocked)

/-- On a run that locks the meta row only for checks that still hold, every commit is a
compare-and-swap. -/
theorem guarded_compareAndSwap {s : State} {ls : List (ℕ × Action)}
    (h : Run (step sealer) LocksCurrent .initial ls s) :
    CompareAndSwap s.db.log ∧ ∀ i, LockedCurrent s.db (s.sessions i) := by
  induction h with
  | nil =>
    refine ⟨fun before c after heq => ?_, fun _ => trivial⟩
    simp [State.initial, Database.fresh] at heq
  | @snoc ls s s' l hrun hguard hstep ih =>
    obtain ⟨hswap, hlocked⟩ := ih
    have hcoherent := reachable_coherent hrun.any
    obtain ⟨i, a⟩ := l
    obtain ⟨d', session', hmove, rfl⟩ := step_cases hstep
    refine ⟨hmove.touches.compareAndSwap hswap (hlocked i), fun j => ?_⟩
    by_cases hj : j = i
    · subst hj
      have hown : LockedCurrent d' session' := by
        refine hmove.lockedCurrent hcoherent.consistent (hlocked j) fun m draft hs ha => ?_
        obtain ⟨now, elapsed, rfl⟩ := ha
        simpa [LocksCurrent, hs] using hguard
      simpa using hown
    · have hother := (hlocked j).other hmove.touches (hcoherent.sessions i) (hcoherent.holder hj)
      simpa [hj] using hother

/-- On every run whose meta row is locked only for checks that still hold, each commit
finds the row it expects (or, for a create, no live one), so one of the writers naming
a version wins; and a transaction about to commit is such a commit exactly when its
check still holds. -/
theorem commits_compare_and_swap (sealer : SecretsSealer) :
    (∀ ls s, Run (step sealer) LocksCurrent .initial ls s →
      CompareAndSwap s.db.log ∧ OneWinner s.db.log) ∧
      ∀ ls s, AnyRun (step sealer) .initial ls s → ∀ i m row returned now elapsed,
        s.sessions i = .inserted m row returned →
        ∃ s', step sealer s (i, .advance now elapsed) = some s' ∧
          s'.db.log = s.db.log ++ [⟨m, row⟩] ∧
          (Swaps (rowsOf s.db.log) m ↔ StillCurrent s.db.tables.versions m) := by
  refine ⟨fun ls s h => ?_, fun ls s h i m row returned now elapsed hs => ?_⟩
  · have hcoherent := reachable_coherent h.any
    have hswap := (guarded_compareAndSwap h).1
    exact ⟨hswap, hswap.oneWinner hcoherent.consistent.ordered hcoherent.written⟩
  · have hcoherent := reachable_coherent h
    have hwritten := hcoherent.sessions i
    rw [hs] at hwritten
    refine ⟨_, by simp only [step, continueCall, hs, Option.map_some]; rfl, rfl, ?_⟩
    have hstored : StillCurrent s.db.tables.versions m ↔ StillCurrent (rowsOf s.db.log) m := by
      rw [StillCurrent, StillCurrent, hcoherent.consistent.currentObject_eq]
    rw [hstored]
    exact ⟨fun h => h.stillCurrent hcoherent.consistent.ordered hwritten.1, fun h => h.swaps⟩

/-- Two servers update revision 1 of a pod; the second checks before the first commits. -/
def racedUpdates : List (ℕ × Action) :=
  mutating 0 (.create ⟨podA, [1], 0⟩) ++ [(2, .begin (.mutate 0 (.update ⟨podA, [3], 0⟩ 1)))] ++
    mutating 1 (.update ⟨podA, [2], 0⟩ 1) ++
    [(2, .advance 0 false), (2, .advance 0 false), (2, .advance 0 false)]

/-- Both updates of revision 1 commit. -/
theorem raced_updates_both_commit :
    ¬ ∀ ls s, AnyRun (step unsealed) .initial ls s → CompareAndSwap s.db.log := by
  intro h
  have hexec : (Runs.exec (step unsealed) .initial racedUpdates).map (fun s => s.db.log) =
      some [⟨.create ⟨podA, [1], 0⟩, ⟨podA, 1, ⟨[1], 0⟩⟩⟩,
        ⟨.update ⟨podA, [2], 0⟩ 1, ⟨podA, 2, ⟨[2], 1⟩⟩⟩,
        ⟨.update ⟨podA, [3], 0⟩ 1, ⟨podA, 3, ⟨[3], 1⟩⟩⟩] := by decide
  obtain ⟨s, hrun, hs⟩ := run_of_exec_map hexec
  obtain ⟨row, hrow, hrev⟩ := h _ _ hrun [_, _] _ [] hs
  have hlatest : latest podA [⟨podA, 1, ⟨[1], 0⟩⟩, ⟨podA, 2, ⟨[2], 1⟩⟩] =
      some (⟨podA, 2, ⟨[2], 1⟩⟩ : Row) := by decide
  rw [← Option.some.inj (hlatest.symm.trans hrow)] at hrev
  exact absurd hrev (by decide)

/-- A create that meets nobody else is a compare-and-swap. -/
theorem lone_create_swaps :
    ∃ s, Run (step unsealed) LocksCurrent .initial (mutating 0 (.create ⟨podA, [1], 0⟩)) s ∧
      CompareAndSwap s.db.log ∧ OneWinner s.db.log := by
  have hcheck : Run (step unsealed) LocksCurrent .initial
      [(0, .begin (.mutate 0 (.create ⟨podA, [1], 0⟩)))] _ := Run.nil.snoc trivial rfl
  have hbump := hcheck.snoc (l := (0, Action.advance 0 false)) (by exact rfl) rfl
  have hinsert := hbump.snoc (l := (0, Action.advance 0 false)) trivial rfl
  have hcommit := hinsert.snoc (l := (0, Action.advance 0 false)) trivial rfl
  exact ⟨_, hcommit, (commits_compare_and_swap unsealed).1 _ _ hcommit⟩

end Hedronetes.Storage.Postgres
