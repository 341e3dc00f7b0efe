import Hedronetes.Server.Registry
import Hedronetes.Storage.PostgresWrites
import Hedronetes.Storage.Transparency

/-!
# The registry a backend keeps

The server reads and writes its store as a registry of live objects with
compare-and-set writes. Each backend keeps that registry in its tables: its log
replays on the empty registry, write by write, and every read of the tables is
the read of the registry that comes out.
-/

namespace Hedronetes.Server

open FirstMatch VersionLog CursorScan Fallible Runs
open Storage (StoreKey StoredObject SecretsSealer Mutation Row Commit Tables ListSelect ObjectList
  startsWith hasEnvelope decodeRowValue openRow rowsOf isLive rowObject currentObject
  checkExpected Written Lawful Consistent)

/-- A storage call of the server that writes. -/
inductive StoreWrite where
  | create (k : StoreKey) (value : Json)
  | update (k : StoreKey) (value : Json) (expected : ℕ)
  | delete (k : StoreKey) (expected : ℕ)

namespace StoreWrite

def key : StoreWrite → StoreKey
  | create k _ => k
  | update k _ _ => k
  | delete k _ => k

/-- The call on the registry. -/
def perform : StoreWrite → Server.Action Unit
  | create k value => Server.create k value >>= fun _ => pure ()
  | update k value expected => Server.update k value expected >>= fun _ => pure ()
  | delete k expected => Server.delete k expected

/-- The registry after a call that is accepted. -/
def apply : StoreWrite → Registry → Registry
  | create k value, reg => reg.put k value
  | update k value _, reg => reg.put k value
  | delete k _, reg => reg.drop k

/-- The value an accepted call leaves at its key. -/
def result : StoreWrite → Option Json
  | create _ value => some value
  | update _ value _ => some value
  | delete _ _ => none

end StoreWrite

/-- The calls one after the other, each of them accepted. -/
def performAll : List StoreWrite → Server.Action Unit
  | [] => pure ()
  | w :: ws => w.perform >>= fun _ => performAll ws

section

variable (print : Json → Storage.Bytes)

/-- `stored`: what the server hands to the store. The revision is not read. -/
def stored (k : StoreKey) (value : Json) : StoredObject := ⟨k, print value, 0⟩

/-- The call as the backends see it. -/
def StoreWrite.mutation : StoreWrite → Mutation
  | .create k value => .create (stored print k value)
  | .update k value expected => .update (stored print k value) expected
  | .delete k expected => .delete k expected

/-- What a read of the key returns. -/
def Registry.shown (reg : Registry) (k : StoreKey) : Option StoredObject :=
  (reg.get k).map fun o => ⟨k, print o.value, o.revision⟩

/-- The page of a list of the current objects. -/
def Registry.page (reg : Registry) (sel : ListSelect) : ObjectList :=
  let rest := ((reg.list sel.selected).map fun e => (⟨e.1, print e.2.value, e.2.revision⟩ :
    StoredObject)).filter fun obj => Storage.startText sel.startAfter < obj.key.value
  ⟨rest.take sel.limit, reg.revision,
    if sel.limit < rest.length then (rest.take sel.limit).getLast?.map StoredObject.key else none⟩

/-- A history of commits that replays on the empty registry: the calls it came from
end in `reg`, and a key reads in its rows as in `reg`. -/
structure Replays (sealer : SecretsSealer) (log : List Commit) (head : ℕ) (reg : Registry) :
    Prop where
  calls : ∃ ws : List StoreWrite, log.map Commit.mutation = ws.map (StoreWrite.mutation print) ∧
    performAll ws Registry.empty = .ok () reg
  head : head = reg.revision
  reads : ∀ k, Storage.getObject (decodeRowValue sealer) k (rowsOf log) = .ok (reg.shown print k)

end

variable {print : Json → Storage.Bytes} {sealer : SecretsSealer} {reg : Registry} {w : StoreWrite}

namespace StoreWrite

@[simp] theorem mutation_key (w : StoreWrite) : (w.mutation print).obj.key = w.key := by
  cases w <;> rfl

theorem mutation_live : (w.mutation print).deletes = w.result.isNone := by
  cases w <;> rfl

theorem mutation_value {value : Json} (h : w.result = some value) :
    (w.mutation print).obj.value = print value := by
  cases w with
  | create k v => rw [← Option.some.inj h]; rfl
  | update k v expected => rw [← Option.some.inj h]; rfl
  | delete k expected => cases h

@[simp] theorem apply_revision (w : StoreWrite) (reg : Registry) :
    (w.apply reg).revision = reg.revision + 1 := by
  cases w <;> rfl

theorem shown_apply (w : StoreWrite) (reg : Registry) :
    (w.apply reg).shown print w.key =
      w.result.map fun value => ⟨w.key, print value, reg.revision + 1⟩ := by
  unfold Registry.shown
  cases w <;> simp [apply, key, result]

theorem shown_apply_ne {k : StoreKey} (h : k ≠ w.key) :
    (w.apply reg).shown print k = reg.shown print k := by
  unfold Registry.shown
  cases w with
  | create k' value => exact congrArg _ (Registry.get_put_ne h value)
  | update k' value expected => exact congrArg _ (Registry.get_put_ne h value)
  | delete k' expected => exact congrArg _ (Registry.get_drop_ne h)

/-- A call is accepted when the check of the backends lets it through, and refused with
the answer to the error of the check. -/
theorem perform_eq (print : Json → Storage.Bytes) (w : StoreWrite) (reg : Registry) :
    w.perform reg =
      match checkExpected w.key (w.mutation print).expected (reg.shown print w.key) with
      | .ok () => .ok () (w.apply reg)
      | .error e => .error (storageFailure e) reg := by
  unfold Registry.shown
  cases w with
  | create k value =>
    change (Server.create k value >>= fun _ => pure ()) reg = _
    cases hget : reg.get k <;> simp [Bind.bind, EStateM.bind, Server.create, hget, key, mutation,
      Mutation.expected, checkExpected, apply, pure, EStateM.pure]
  | update k value expected =>
    change (Server.update k value expected >>= fun _ => pure ()) reg = _
    cases hget : reg.get k with
    | none => simp [Bind.bind, EStateM.bind, Server.update, hget, key, mutation, Mutation.expected,
        checkExpected]
    | some o =>
      by_cases he : o.revision = expected
      · simp [Bind.bind, EStateM.bind, Server.update, hget, key, mutation, Mutation.expected,
          checkExpected, he, apply, pure, EStateM.pure]
      · simp [Bind.bind, EStateM.bind, Server.update, hget, key, mutation, Mutation.expected,
          checkExpected, he, Ne.symm he]
  | delete k expected =>
    change Server.delete k expected reg = _
    cases hget : reg.get k with
    | none => simp [Server.delete, hget, key, mutation, Mutation.expected, checkExpected]
    | some o =>
      by_cases he : o.revision = expected
      · simp [Server.delete, hget, key, mutation, Mutation.expected, checkExpected, he, apply]
      · simp [Server.delete, hget, key, mutation, Mutation.expected, checkExpected, he,
          Ne.symm he]

end StoreWrite

theorem performAll_append {ws : List StoreWrite} {start reg' : Registry}
    (h : performAll ws start = .ok () reg) (hw : w.perform reg = .ok () reg') :
    performAll (ws ++ [w]) start = .ok () reg' := by
  induction ws generalizing start with
  | nil =>
    obtain ⟨_, rfl⟩ := Effects.pure_eq_ok.mp h
    exact Effects.bind_eq_ok.mpr ⟨(), reg', hw, rfl⟩
  | cons v ws ih =>
    obtain ⟨_, next, hv, h⟩ := Effects.bind_eq_ok.mp h
    exact Effects.bind_eq_ok.mpr ⟨(), next, hv, ih h⟩

/-- The check reads the revision of the object alone. -/
theorem checkExpected_congr {k : StoreKey} {expected : Option ℕ} {p q : Option StoredObject}
    (h : p.map StoredObject.revision = q.map StoredObject.revision) :
    checkExpected k expected p = checkExpected k expected q := by
  cases p with
  | none => rw [Option.map_eq_none_iff.mp h.symm]
  | some old =>
    obtain ⟨new, rfl, hrev⟩ := Option.map_eq_some_iff.mp h.symm
    cases expected with
    | none => rfl
    | some rv => simp only [checkExpected, hrev]

theorem getObject_revision
    {openValue : Storage.Bytes → Storage.Result Storage.Bytes} {k : StoreKey}
    {versions : List Row} {obj : Option StoredObject}
    (h : Storage.getObject openValue k versions = .ok obj) :
    (currentObject k versions).map StoredObject.revision = obj.map StoredObject.revision := by
  unfold Storage.getObject at h
  cases hold : currentObject k versions with
  | none =>
    rw [hold] at h
    rw [← Except.ok.inj h]
  | some old =>
    simp only [hold] at h
    cases hvalue : openValue old.value with
    | error e => simp [hvalue, Except.map] at h
    | ok value =>
      simp only [hvalue, Except.map, Except.ok.injEq] at h
      rw [← h]
      rfl

theorem currentObject_append_ne {rows : List Row} {row : Row} {k : StoreKey} (h : k ≠ row.key) :
    currentObject k (rows ++ [row]) = currentObject k rows := by
  have hlatest : latest k (rows ++ [row]) = latest k rows := by
    apply newest_append_of_false
    intro v hv
    rw [List.mem_singleton.mp hv]
    simpa using h.symm
  rw [currentObject, hlatest, currentObject]

namespace Replays

variable {log : List Commit} {head : ℕ}

theorem initial (print : Json → Storage.Bytes) (sealer : SecretsSealer) :
    Replays print sealer [] 0 Registry.empty where
  calls := ⟨[], rfl, rfl⟩
  head := rfl
  reads _ := rfl

/-- The check of a backend and the check of the registry are one. -/
theorem check (h : Replays print sealer log head reg) (k : StoreKey) (expected : Option ℕ) :
    checkExpected k expected (currentObject k (rowsOf log)) =
      checkExpected k expected (reg.shown print k) :=
  checkExpected_congr (getObject_revision (h.reads k))

/-- A commit whose check held is an accepted call on the registry. -/
theorem snoc (hl : Lawful sealer) (hplain : ∀ value, hasEnvelope (print value) = false)
    (h : Replays print sealer log head reg) {c : Commit} (ho : Ordered (rowsOf (log ++ [c])))
    (hw : Written sealer (rowsOf log) c.mutation c.row)
    (hcheck : checkExpected c.mutation.obj.key c.mutation.expected
      (currentObject c.mutation.obj.key (rowsOf log)) = .ok ())
    (hrow : c.row.revision = head + 1) (hasked : c.mutation = w.mutation print) :
    Replays print sealer (log ++ [c]) (head + 1) (w.apply reg) where
  calls := by
    obtain ⟨ws, hlog, hperformed⟩ := h.calls
    refine ⟨ws ++ [w], by simp [hlog, hasked], performAll_append hperformed ?_⟩
    rw [h.check, hasked, StoreWrite.mutation_key] at hcheck
    rw [StoreWrite.perform_eq print, hcheck]
  head := by rw [StoreWrite.apply_revision, h.head]
  reads k := by
    rw [rowsOf, List.map_append, List.map_singleton] at ho ⊢
    by_cases hk : k = w.key
    · subst hk
      have hkey : c.row.key = w.key := by rw [hw.key, hasked, StoreWrite.mutation_key]
      have hlatest := latest_snoc ho
      rw [hkey] at hlatest
      rw [StoreWrite.shown_apply, ← h.head]
      cases hresult : w.result with
      | none =>
        have hdead : isLive c.row = false := by
          rw [hw.live, hasked, StoreWrite.mutation_live, hresult]
          rfl
        rw [Storage.getObject, currentObject, hlatest]
        simp [hdead]
      | some value =>
        have hkeeps : c.mutation.deletes = false := by
          rw [hasked, StoreWrite.mutation_live, hresult]
          rfl
        have hlive : isLive c.row = true := by simp [hw.live, hkeeps]
        have hvalue : c.mutation.obj.value = print value := by
          rw [hasked, StoreWrite.mutation_value hresult]
        have hopen := (hw.decode_iff hl hkeeps).mpr (Or.inr (Or.inl (hvalue ▸ hplain value)))
        rw [Storage.getObject, currentObject, hlatest]
        simp [hlive, rowObject, hopen, hvalue, hkey, hrow, Except.map]
    · have hne : k ≠ c.row.key := by rwa [hw.key, hasked, StoreWrite.mutation_key]
      rw [Storage.getObject, currentObject_append_ne hne, StoreWrite.shown_apply_ne hk]
      exact h.reads k

/-- A row that a list of the current objects sees is an object of the registry. -/
theorem object_of_row (h : Replays print sealer log head reg) (ho : Ordered (rowsOf log))
    (hle : ∀ v ∈ rowsOf log, v.revision ≤ head) {selected : String} {v : Row}
    (hv : v ∈ Storage.visible selected head (rowsOf log)) :
    ∃ o, (v.key, o) ∈ reg.list selected ∧
      openRow (decodeRowValue sealer) v = .ok ⟨v.key, print o.value, o.revision⟩ := by
  obtain ⟨hsnap, hlive, hunder⟩ := Storage.mem_visible.mp hv
  rw [mem_snapshot ho, latestAt_of_le hle] at hsnap
  have hread := h.reads v.key
  rw [Storage.getObject, Storage.currentObject_eq_some.mpr ⟨v, hsnap, hlive, rfl⟩] at hread
  cases hopen : decodeRowValue sealer v.value.bytes with
  | error e => simp [rowObject, hopen, Except.map] at hread
  | ok value =>
    simp only [rowObject, hopen, Except.map, Except.ok.injEq, Registry.shown] at hread
    obtain ⟨o, ho, hobj⟩ := Option.map_eq_some_iff.mp hread.symm
    refine ⟨o, Registry.mem_list.mpr ⟨ho, ?_⟩, bind_eq_ok.mpr ⟨value, hopen, ?_⟩⟩
    · rwa [Storage.startsWith_eq_underPrefix]
    · rw [hobj]
      rfl

/-- And every object of the registry is such a row. -/
theorem row_of_object (h : Replays print sealer log head reg) (ho : Ordered (rowsOf log))
    (hle : ∀ v ∈ rowsOf log, v.revision ≤ head) {selected : String} {k : StoreKey} {o : Stored}
    (hmem : (k, o) ∈ reg.list selected) :
    ∃ v ∈ Storage.visible selected head (rowsOf log),
      openRow (decodeRowValue sealer) v = .ok ⟨k, print o.value, o.revision⟩ := by
  obtain ⟨hget, hunder⟩ := Registry.mem_list.mp hmem
  have hread := h.reads k
  rw [Registry.shown, hget, Storage.getObject] at hread
  cases hold : currentObject k (rowsOf log) with
  | none => simp [hold] at hread
  | some old =>
    obtain ⟨v, hlatest, hlive, rfl⟩ := Storage.currentObject_eq_some.mp hold
    have hkey : v.key = k := (latest_mem hlatest).2
    subst hkey
    cases hopen : decodeRowValue sealer v.value.bytes with
    | error e => simp [hold, rowObject, hopen, Except.map] at hread
    | ok value =>
      simp only [hold, rowObject, hopen, Except.map, Except.ok.injEq, Option.map_some,
        Option.some.injEq] at hread
      refine ⟨v, Storage.mem_visible.mpr ⟨?_, hlive, ?_⟩, bind_eq_ok.mpr ⟨value, hopen, ?_⟩⟩
      · rwa [mem_snapshot ho, latestAt_of_le hle]
      · rwa [← Storage.startsWith_eq_underPrefix]
      · rw [← hread]
        rfl

/-- The rows a list of the current objects goes through are the objects of the registry,
in their order. -/
theorem items (h : Replays print sealer log head reg) (ho : Ordered (rowsOf log))
    (hle : ∀ v ∈ rowsOf log, v.revision ≤ head) (selected : String) :
    (Storage.visible selected head (rowsOf log)).mapM (openRow (decodeRowValue sealer)) =
      .ok ((reg.list selected).map fun e => ⟨e.1, print e.2.value, e.2.revision⟩) := by
  obtain ⟨found, hfound⟩ := mapM_exists_ok
    (l := Storage.visible selected head (rowsOf log)) (f := openRow (decodeRowValue sealer))
    fun v hv => by
      obtain ⟨o, _, hopen⟩ := h.object_of_row ho hle hv
      exact ⟨_, hopen⟩
  have hkeys : found.map (fun obj => obj.key.value) =
      (Storage.visible selected head (rowsOf log)).map Storage.keyText :=
    mapM_map_eq (fun _ _ hopen => congrArg StoreKey.value (Storage.openRow_ok hopen).1) hfound
  have hfoundAsc : Ascending (fun obj : StoredObject => obj.key.value) found := by
    have hvisible : Ascending Storage.keyText (Storage.visible selected head (rowsOf log)) :=
      Storage.visible_ascending ho
    have hrows := List.pairwise_map.mpr hvisible
    rw [← hkeys] at hrows
    exact List.pairwise_map.mp hrows
  have hlistAsc : Ascending (fun obj : StoredObject => obj.key.value)
      ((reg.list selected).map fun e => ⟨e.1, print e.2.value, e.2.revision⟩) :=
    List.pairwise_map.mpr (reg.sorted.filter _)
  rw [hfound]
  refine congrArg Except.ok (hfoundAsc.eq_of_mem_iff hlistAsc fun obj => ?_)
  rw [List.mem_map]
  constructor
  · intro hobj
    obtain ⟨v, hv, hopen⟩ := mapM_mem hfound hobj
    obtain ⟨o, hmem, hshown⟩ := h.object_of_row ho hle hv
    exact ⟨_, hmem, Except.ok.inj (hshown.symm.trans hopen)⟩
  · rintro ⟨⟨k, o⟩, hmem, rfl⟩
    obtain ⟨v, hv, hopen⟩ := h.row_of_object ho hle hmem
    obtain ⟨obj, hobj, hshown⟩ := mapM_mem_of_mem hfound hv
    rwa [Except.ok.inj (hopen.symm.trans hshown)]

/-- A page of the current rows is the page of the registry. -/
theorem listPage (h : Replays print sealer log head reg) (ho : Ordered (rowsOf log))
    (hle : ∀ v ∈ rowsOf log, v.revision ≤ head) (sel : ListSelect) :
    Storage.listPage (decodeRowValue sealer) sel head (rowsOf log) = .ok (reg.page print sel) := by
  have hrest := mapM_filter
    (p := fun v : Row => decide (Storage.startText sel.startAfter < v.key.value))
    (q := fun obj : StoredObject => decide (Storage.startText sel.startAfter < obj.key.value))
    (fun v obj hopen => by rw [(Storage.openRow_ok hopen).1]) (h.items ho hle sel.selected)
  have hall := mapM_eq_ok_iff.mp hrest
  obtain ⟨page, hpage⟩ : ∃ page,
      Storage.listPage (decodeRowValue sealer) sel head (rowsOf log) = .ok page := by
    unfold Storage.listPage
    rw [Storage.listRows_eq_scan ho]
    have hrows := mapM_eq_ok_iff.mpr (List.forall₂_take (sel.limit + 1) hall)
    exact ⟨_, bind_eq_ok.mpr ⟨_, hrows, rfl⟩⟩
  obtain ⟨hrev, hitems, hnext⟩ := Storage.listPage_ok ho hpage
  have htaken := Except.ok.inj
    (hitems.symm.trans (mapM_eq_ok_iff.mpr (List.forall₂_take sel.limit hall)))
  rw [hpage]
  cases page with
  | mk pageItems revision nextAfter =>
    dsimp only at hrev htaken hnext
    have hlength : (beyond Storage.keyText (Storage.startText sel.startAfter)
        (Storage.visible sel.selected head (rowsOf log))).length = _ := hall.length_eq
    rw [htaken, hlength] at hnext
    rw [htaken, hrev, hnext, h.head]
    rfl

end Replays

/-- A mutation that a write of the server has asked for. -/
def FromServer (print : Json → Storage.Bytes) (m : Mutation) : Prop :=
  ∃ w : StoreWrite, m = w.mutation print

/-! ## SQLite -/

/-- The SQLite tables answer as the registry does: reads and lists of the current objects
return the same, and a write that the registry refuses is refused for the same reason.
An accepted write commits at the same revision, unless revisions have run out or
sealing the value fails. -/
structure Serves (print : Json → Storage.Bytes) (sealer : SecretsSealer) (t : Tables)
    (reg : Registry) : Prop where
  head : t.revision = reg.revision
  got : ∀ k, Storage.Sqlite.get sealer k t = .ok (reg.shown print k)
  listed : ∀ sel, Storage.listRevision sel.atRevision t.revision = t.revision →
    Storage.Sqlite.list sealer sel t = (Storage.checkList sel).map fun _ => reg.page print sel
  refused : ∀ (w : StoreWrite) stop reg', w.perform reg = .error stop reg' → reg' = reg ∧
    ∃ e, stop = storageFailure e ∧
      ∀ draw, Storage.Sqlite.mutateTx sealer draw (w.mutation print) t = .error e
  accepted : ∀ (w : StoreWrite) reg', w.perform reg = .ok () reg' → ∀ draw,
    (∃ t' row returned, Storage.Sqlite.mutateTx sealer draw (w.mutation print) t =
        .ok (t', row, returned) ∧ row.revision = reg'.revision ∧
          ∀ value, w.result = some value → returned = print value) ∨
      t.revision = Storage.maxRevision ∨
        ∃ value e, w.result = some value ∧ sealer.sealBytes draw (print value) = .error e

theorem getObject_tables {rows : List Row} {horizon : ℕ} {t : Tables}
    (hc : Consistent rows horizon t)
    (openValue : Storage.Bytes → Storage.Result Storage.Bytes) (k : StoreKey) :
    Storage.getObject openValue k t.versions = Storage.getObject openValue k rows := by
  rw [Storage.getObject, hc.currentObject_eq, Storage.getObject]

section

variable {log : List Commit} {t : Tables}

/-- A backend stores the value of a write that passes its check, unless sealing it fails. -/
theorem stored_value (hl : Lawful sealer) (hplain : ∀ value, hasEnvelope (print value) = false)
    (draw : ℕ) {previous : Option StoredObject}
    (hcheck : checkExpected w.key (w.mutation print).expected previous = .ok ()) :
    (∃ draft returned, Storage.prepare sealer draw (w.mutation print) previous = .ok draft ∧
      Storage.returnedValue (decodeRowValue sealer) (w.mutation print) draft = .ok returned ∧
        ∀ value, w.result = some value → returned = print value) ∨
      ∃ value e, w.result = some value ∧ sealer.sealBytes draw (print value) = .error e := by
  have hprepare : ∀ bytes, Storage.storedValue sealer draw (w.mutation print) previous = .ok bytes →
      ∃ draft, Storage.prepare sealer draw (w.mutation print) previous = .ok draft ∧
        draft.bytes = bytes := by
    intro bytes hbytes
    have hown : w.key = (w.mutation print).obj.key := w.mutation_key.symm
    rw [hown] at hcheck
    exact ⟨_, bind_eq_ok.mpr ⟨(), hcheck, bind_eq_ok.mpr ⟨bytes, hbytes, rfl⟩⟩, rfl⟩
  unfold Storage.storedValue at hprepare
  unfold Storage.returnedValue
  rw [StoreWrite.mutation_key, StoreWrite.mutation_live] at hprepare
  rw [StoreWrite.mutation_live]
  cases hresult : w.result with
  | none =>
    rw [hresult] at hprepare
    obtain ⟨draft, hdraft, _⟩ := hprepare _ (if_pos rfl)
    exact Or.inl ⟨draft, _, hdraft, if_pos rfl, fun _ h => by cases h⟩
  | some value =>
    rw [hresult, StoreWrite.mutation_value hresult] at hprepare
    cases hseal : Storage.sealValue sealer draw w.key (print value) with
    | error e =>
      unfold Storage.sealValue at hseal
      split_ifs at hseal
      exact Or.inr ⟨value, e, rfl, hseal⟩
    | ok bytes =>
      have hopen : decodeRowValue sealer bytes = .ok (print value) := by
        unfold Storage.sealValue at hseal
        unfold decodeRowValue
        split_ifs at hseal with hkey
        · obtain ⟨hmark, hopen⟩ := hl _ _ _ hseal
          rw [if_pos hmark, hopen]
        · rw [← Except.ok.inj hseal, hplain]
          rfl
      obtain ⟨draft, hdraft, rfl⟩ := hprepare bytes ((if_neg Bool.false_ne_true).trans hseal)
      refine Or.inl ⟨draft, print value, hdraft, (if_neg Bool.false_ne_true).trans hopen, ?_⟩
      intro v h
      rw [Option.some.inj h]

theorem Replays.serves (hl : Lawful sealer) (hplain : ∀ value, hasEnvelope (print value) = false)
    (h : Replays print sealer log t.revision reg) (hc : Consistent (rowsOf log) t.compacted t) :
    Serves print sealer t reg where
  head := h.head
  got k := (getObject_tables hc _ k).trans (h.reads k)
  listed sel hcurrent := by
    rw [Storage.Sqlite.list_eq_log hc sel (by rw [hcurrent]; exact hc.horizon_le), hcurrent,
      h.listPage hc.ordered hc.bounded sel, if_neg (lt_irrefl _)]
    cases Storage.checkList sel <;> rfl
  refused w stop reg' hperform := by
    rw [StoreWrite.perform_eq print] at hperform
    cases hcheck : checkExpected w.key (w.mutation print).expected (reg.shown print w.key) with
    | ok u =>
      rw [hcheck] at hperform
      cases hperform
    | error e =>
      rw [hcheck] at hperform
      injection hperform with hstop hreg
      refine ⟨hreg.symm, e, hstop.symm, fun draw => ?_⟩
      rw [Storage.Sqlite.mutateTx, Storage.prepare, hc.currentObject_eq, StoreWrite.mutation_key,
        h.check, hcheck]
      rfl
  accepted w reg' hperform draw := by
    rw [StoreWrite.perform_eq print] at hperform
    cases hcheck : checkExpected w.key (w.mutation print).expected (reg.shown print w.key) with
    | error e =>
      rw [hcheck] at hperform
      cases hperform
    | ok u =>
      rw [hcheck] at hperform
      injection hperform with _ hreg
      rw [← h.check, ← hc.currentObject_eq] at hcheck
      rcases stored_value hl hplain draw hcheck with ⟨draft, returned, hdraft, hreturned, hvalue⟩ | hseal
      · rcases hc.fits.eq_or_lt with hmax | hlt
        · exact Or.inr (Or.inl hmax)
        · have hbump : Storage.bumpRevision Storage.Sqlite.overflow t = .ok (t.revision + 1) :=
            if_pos hlt
          have hfresh : (draft.row (t.revision + 1)).revision = t.revision + 1 := rfl
          have hinsert := hc.insertRow_eq Storage.Sqlite.clash hfresh
          have hown : w.key = (w.mutation print).obj.key := w.mutation_key.symm
          rw [hown] at hdraft
          have htx : ∃ t', Storage.Sqlite.mutateTx sealer draw (w.mutation print) t =
              .ok (t', draft.row (t.revision + 1), returned) :=
            ⟨_, bind_eq_ok.mpr ⟨draft, hdraft, bind_eq_ok.mpr ⟨_, hbump,
              bind_eq_ok.mpr ⟨returned, hreturned, bind_eq_ok.mpr ⟨_, if_pos hlt,
                bind_eq_ok.mpr ⟨_, hinsert, rfl⟩⟩⟩⟩⟩⟩
          obtain ⟨t', htx⟩ := htx
          refine Or.inl ⟨t', _, returned, htx, ?_, hvalue⟩
          rw [← hreg, StoreWrite.apply_revision, ← h.head]
          rfl
      · exact Or.inr (Or.inr hseal)

end

/-- The writes of the SQLite calls come from the server. -/
def SqliteAsks (print : Json → Storage.Bytes) (a : Storage.Sqlite.Action) : Prop :=
  ∀ draw m, a = .begin (.mutate draw m) → FromServer print m

/-- One step of SQLite is an accepted call on the registry, or leaves it as it is. -/
theorem sqlite_step_replays (hl : Lawful sealer)
    (hplain : ∀ value, hasEnvelope (print value) = false) {s s' : Storage.Sqlite.State}
    {l : ℕ × Storage.Sqlite.Action} (hs : Storage.Sqlite.Sound s) (hasks : SqliteAsks print l.2)
    (hstep : Storage.Sqlite.step sealer s l = some s')
    (h : Replays print sealer s.log s.tables.revision reg) :
    ∃ reg', Replays print sealer s'.log s'.tables.revision reg' := by
  have hsound := Storage.Sqlite.step_sound hs hstep
  obtain ⟨i, a⟩ := l
  obtain ⟨t', commit, session', hmove, rfl⟩ := Storage.Sqlite.step_cases hstep
  cases commit with
  | none =>
    have hrevision : t'.revision = s.tables.revision := hmove.touches.log.2
    exact ⟨reg, by simpa [hrevision] using h⟩
  | some c =>
    generalize s.sessions i = session at hmove
    cases hmove with
    | @write draw m _ _ row returned htx =>
      obtain ⟨w, rfl⟩ := hasks draw m rfl
      obtain ⟨draft, hdraft, _, rfl, _, rfl⟩ := Storage.Sqlite.mutateTx_ok htx
      have hwritten := Storage.prepare_written hdraft hs.retains.sublist.subset
        (s.tables.revision + 1)
      have hcheck := (Storage.prepare_ok hdraft).1
      rw [hs.currentObject_eq] at hcheck
      exact ⟨_, h.snoc hl hplain hsound.ordered hwritten hcheck rfl rfl⟩

theorem sqlite_replays (hl : Lawful sealer) (hplain : ∀ value, hasEnvelope (print value) = false)
    {ls : List (ℕ × Storage.Sqlite.Action)} {s : Storage.Sqlite.State}
    (h : AnyRun (Storage.Sqlite.step sealer) .initial ls s) (hasks : ∀ l ∈ ls, SqliteAsks print l.2) :
    ∃ reg, Replays print sealer s.log s.tables.revision reg := by
  have hboth : Storage.Sqlite.Sound s ∧ ∃ reg, Replays print sealer s.log s.tables.revision reg :=
    (Run.of_labels (p := fun l => SqliteAsks print l.2) h hasks).invariant
      (I := fun s => Storage.Sqlite.Sound s ∧
        ∃ reg, Replays print sealer s.log s.tables.revision reg)
      ⟨Storage.Sqlite.sound_initial, Registry.empty, Replays.initial print sealer⟩
      fun _ _ _ hs hasks hstep => by
        obtain ⟨hsound, reg, hreg⟩ := hs
        exact ⟨Storage.Sqlite.step_sound hsound hstep,
          sqlite_step_replays hl hplain hsound hasks hstep hreg⟩
  exact hboth.2

/-- Whatever the connections of a SQLite database interleave, its committed writes replay
as accepted calls on the empty registry, and the registry that comes out is the one its
reads, lists and next writes show. -/
theorem sqlite_keeps_registry (hl : Lawful sealer)
    (hplain : ∀ value, hasEnvelope (print value) = false)
    {ls : List (ℕ × Storage.Sqlite.Action)} {s : Storage.Sqlite.State}
    (h : AnyRun (Storage.Sqlite.step sealer) .initial ls s) (hasks : ∀ l ∈ ls, SqliteAsks print l.2) :
    ∃ reg, Replays print sealer s.log s.tables.revision reg ∧
      Serves print sealer s.tables reg := by
  obtain ⟨reg, hreg⟩ := sqlite_replays hl hplain h hasks
  exact ⟨reg, hreg, hreg.serves hl hplain (Storage.Sqlite.reachable_sound h)⟩

/-- What `serde_json` writes for the empty object. -/
def braces : Json → Storage.Bytes := fun _ => [123, 125]

theorem braces_plain (value : Json) : hasEnvelope (braces value) = false := by
  change hasEnvelope [123, 125] = false
  decide

/-- A pod is created and written again, then read back. -/
theorem written_pod_kept :
    ∃ s, AnyRun (Storage.Sqlite.step Storage.marking) .initial
        [(0, .begin (.mutate 0 ((StoreWrite.create Storage.podA (.object [])).mutation braces))),
          (1, .begin (.mutate 0 ((StoreWrite.update Storage.podA (.object []) 1).mutation braces)))]
        s ∧
      s.log.length = 2 ∧
      ∃ reg, Replays braces Storage.marking s.log s.tables.revision reg ∧
        Serves braces Storage.marking s.tables reg := by
  have hexec : (exec (Storage.Sqlite.step Storage.marking) .initial
      [(0, .begin (.mutate 0 ((StoreWrite.create Storage.podA (.object [])).mutation braces))),
        (1, .begin (.mutate 0 ((StoreWrite.update Storage.podA (.object []) 1).mutation
          braces)))]).map (fun s => s.log.length) = some 2 := by decide
  obtain ⟨s, hrun, hlength⟩ := run_of_exec_map hexec
  refine ⟨s, hrun, hlength, sqlite_keeps_registry Storage.marking_lawful braces_plain hrun ?_⟩
  intro l hmem draw m hcall
  simp only [List.mem_cons, List.not_mem_nil, or_false] at hmem
  rcases hmem with rfl | rfl
  · cases hcall
    exact ⟨_, rfl⟩
  · cases hcall
    exact ⟨_, rfl⟩

/-! ## Postgres -/

theorem getObject_openRow {k : StoreKey} {versions : List Row} {obj : Option StoredObject}
    (h : Storage.getObject (decodeRowValue sealer) k versions = .ok obj) :
    Storage.getObject (Storage.openRowValue sealer) k versions = .ok obj := by
  unfold Storage.getObject at h ⊢
  cases hold : currentObject k versions with
  | none => rwa [hold] at h
  | some old =>
    simp only [hold] at h ⊢
    cases hopen : decodeRowValue sealer old.value with
    | error e => simp [hopen, Except.map] at h
    | ok value => rwa [Storage.openRowValue_ok.mpr hopen, ← hopen]

theorem listPage_openRow {sel : ListSelect} {revision : ℕ} {versions : List Row} {page : ObjectList}
    (h : Storage.listPage (decodeRowValue sealer) sel revision versions = .ok page) :
    Storage.listPage (Storage.openRowValue sealer) sel revision versions = .ok page := by
  obtain ⟨found, hfound, h⟩ := bind_eq_ok.mp h
  refine bind_eq_ok.mpr ⟨found, mapM_eq_ok_iff.mpr ?_, h⟩
  refine (mapM_eq_ok_iff.mp hfound).imp fun v obj hopen => ?_
  obtain ⟨value, hvalue, hobj⟩ := bind_eq_ok.mp hopen
  exact bind_eq_ok.mpr ⟨value, Storage.openRowValue_ok.mpr hvalue, hobj⟩

namespace SharedRegistry

open Storage.Postgres

/-- The writes of the Postgres calls come from the server. -/
def Asks (print : Json → Storage.Bytes) (a : Storage.Postgres.Action) : Prop :=
  ∀ draw m, a = .begin (.mutate draw m) → FromServer print m

/-- The mutation of an open transaction comes from the server. -/
def AskedSession (print : Json → Storage.Bytes) : Session → Prop
  | .checked m _ => FromServer print m
  | .bumped m _ _ => FromServer print m
  | .inserted m _ _ => FromServer print m
  | _ => True

theorem AskedSession.move {i : ℕ} {d d' : Database} {a : Storage.Postgres.Action}
    {session session' : Session} (h : AskedSession print session) (hasks : Asks print a)
    (hmove : Moves sealer i d a session d' session') : AskedSession print session' := by
  cases hmove with
  | check _ _ => exact hasks _ _ rfl
  | bump _ _ => exact h
  | insert _ => exact h
  | @skip _ _ maintains _ => cases maintains <;> trivial
  | @compact _ _ _ _ maintains => cases maintains <;> trivial
  | @register sel _ anchor _ _ =>
    unfold openStream
    split <;> trivial
  | @reveal _ _ w snapshot next revision =>
    rcases showRows_cases sealer w snapshot next revision d.tables with
      ⟨_, _, he⟩ | ⟨_, _, ⟨_, _, he⟩ | ⟨_, he⟩⟩ <;> (rw [he]; trivial)
  | @deliver _ elapsed w cursor current =>
    rcases deliverRows_cases sealer w cursor current elapsed d.tables with
      ⟨_, _, he⟩ | ⟨_, _, he⟩ <;> (rw [he]; trivial)
  | _ => trivial

/-- The committed tables answer as the registry does; the statement that begins a write
refuses it for the reason of the registry, or goes on unless sealing the value fails. -/
structure Serves (print : Json → Storage.Bytes) (sealer : SecretsSealer) (t : Tables)
    (reg : Registry) : Prop where
  head : t.revision = reg.revision
  got : ∀ k, Storage.Postgres.get sealer k t = .ok (reg.shown print k)
  listed : ∀ sel, Storage.listPage (Storage.openRowValue sealer) sel t.revision t.versions =
    .ok (reg.page print sel)
  refused : ∀ (w : StoreWrite) stop reg', w.perform reg = .error stop reg' → reg' = reg ∧
    ∃ e, stop = storageFailure e ∧
      ∀ draw, startCall sealer (.mutate draw (w.mutation print)) t = .done (.failed e)
  accepted : ∀ (w : StoreWrite) reg', w.perform reg = .ok () reg' → ∀ draw,
    (∃ draft, startCall sealer (.mutate draw (w.mutation print)) t =
        .checked (w.mutation print) draft) ∨
      ∃ value e, w.result = some value ∧ sealer.sealBytes draw (print value) = .error e

theorem serves_of_replays (hl : Lawful sealer)
    (hplain : ∀ value, hasEnvelope (print value) = false) {log : List Commit} {horizon : ℕ}
    {t : Tables} (h : Replays print sealer log t.revision reg)
    (hc : Consistent (rowsOf log) horizon t) : Serves print sealer t reg where
  head := h.head
  got k := getObject_openRow ((getObject_tables hc _ k).trans (h.reads k))
  listed sel := by
    apply listPage_openRow
    rw [hc.listPage_eq _ sel hc.horizon_le]
    exact h.listPage hc.ordered hc.bounded sel
  refused w stop reg' hperform := by
    rw [StoreWrite.perform_eq print] at hperform
    cases hcheck : checkExpected w.key (w.mutation print).expected (reg.shown print w.key) with
    | ok u =>
      rw [hcheck] at hperform
      cases hperform
    | error e =>
      rw [hcheck] at hperform
      injection hperform with hstop hreg
      refine ⟨hreg.symm, e, hstop.symm, fun draw => ?_⟩
      have hprepare : Storage.prepare sealer draw (w.mutation print)
          (currentObject (w.mutation print).obj.key t.versions) = .error e := by
        rw [Storage.prepare, hc.currentObject_eq, StoreWrite.mutation_key, h.check, hcheck]
        rfl
      rw [startCall, hprepare]
  accepted w reg' hperform draw := by
    rw [StoreWrite.perform_eq print] at hperform
    cases hcheck : checkExpected w.key (w.mutation print).expected (reg.shown print w.key) with
    | error e =>
      rw [hcheck] at hperform
      cases hperform
    | ok u =>
      rw [← h.check, ← hc.currentObject_eq] at hcheck
      rcases stored_value hl hplain draw hcheck with ⟨draft, _, hdraft, _⟩ | hseal
      · have hown : w.key = (w.mutation print).obj.key := w.mutation_key.symm
        rw [hown] at hdraft
        exact Or.inl ⟨draft, by rw [startCall, hdraft]⟩
      · exact Or.inr hseal

/-- A guarded step is an accepted call on the registry, or leaves it as it is. -/
theorem step_replays (hl : Lawful sealer) (hplain : ∀ value, hasEnvelope (print value) = false)
    {d d' : Database} {session : Session} (hc : Consistent (rowsOf d.log) d.horizon d.tables)
    (hinv : SessionInv sealer d session) (hlocked : LockedCurrent d session) (hasked : AskedSession print session)
    (ht : Touches d session d') (h : Replays print sealer d.log d.tables.revision reg) :
    ∃ reg', Replays print sealer d'.log d'.tables.revision reg' := by
  have hconsistent := ht.consistent hc hinv
  cases ht with
  | frame hrev _ _ hlog _ => exact ⟨reg, by rwa [hlog, hrev]⟩
  | floor _ => exact ⟨reg, h⟩
  | @row m row returned hsession =>
    subst hsession
    obtain ⟨w, rfl⟩ := hasked
    obtain ⟨hwritten, hrow, _, _⟩ := hinv
    have hreg : Replays print sealer (d.log ++ [⟨w.mutation print, row⟩]) (d.tables.revision + 1)
        (w.apply reg) := h.snoc hl hplain hconsistent.ordered hwritten hlocked hrow rfl
    exact ⟨_, by rwa [← hrow] at hreg⟩

/-- As long as every transaction that takes the meta row finds its check still true, the
committed writes replay as accepted calls on the empty registry, and the registry that
comes out is the one that reads, lists and the next writes show. -/
theorem keeps_registry (hl : Lawful sealer) (hplain : ∀ value, hasEnvelope (print value) = false)
    {ls : List (ℕ × Storage.Postgres.Action)} {s : Storage.Postgres.State}
    (h : Run (Storage.Postgres.step sealer) LocksCurrent .initial ls s) (hasks : ∀ l ∈ ls, Asks print l.2) :
    ∃ reg, Replays print sealer s.db.log s.db.tables.revision reg ∧
      Serves print sealer s.db.tables reg := by
  have hboth : (∃ reg, Replays print sealer s.db.log s.db.tables.revision reg) ∧
      ∀ i, AskedSession print (s.sessions i) := by
    induction h with
    | nil => exact ⟨⟨Registry.empty, Replays.initial print sealer⟩, fun _ => trivial⟩
    | @snoc ls s s' l hrun hguard hstep ih =>
      obtain ⟨⟨reg, hreg⟩, hasked⟩ := ih fun l hmem => hasks l (by simp [hmem])
      have hcoherent := reachable_coherent hrun.any
      have hlocked := (guarded_compareAndSwap hrun).2
      obtain ⟨i, a⟩ := l
      obtain ⟨d', session', hmove, rfl⟩ := step_cases hstep
      refine ⟨step_replays hl hplain hcoherent.consistent (hcoherent.sessions i) (hlocked i)
        (hasked i) hmove.touches hreg, fun j => ?_⟩
      by_cases hj : j = i
      · subst hj
        simpa using (hasked j).move (hasks (j, a) (by simp)) hmove
      · simpa [hj] using hasked j
  obtain ⟨reg, hreg⟩ := hboth.1
  exact ⟨reg, hreg, serves_of_replays hl hplain hreg (reachable_coherent h.any).consistent⟩

/-- A pod is created by a transaction that nobody meets. -/
theorem lone_create_kept :
    ∃ s, Run (Storage.Postgres.step Storage.marking) LocksCurrent .initial
        (mutating 0 ((StoreWrite.create Storage.podA (.object [])).mutation braces)) s ∧
      ∃ reg, Replays braces Storage.marking s.db.log s.db.tables.revision reg ∧
        Serves braces Storage.marking s.db.tables reg := by
  have hcheck : Run (Storage.Postgres.step Storage.marking) LocksCurrent .initial
      [(0, .begin (.mutate 0 ((StoreWrite.create Storage.podA (.object [])).mutation braces)))] _ :=
    Run.nil.snoc trivial rfl
  have hbump := hcheck.snoc (l := (0, Action.advance 0 false)) (by exact rfl) rfl
  have hinsert := hbump.snoc (l := (0, Action.advance 0 false)) trivial rfl
  have hcommit := hinsert.snoc (l := (0, Action.advance 0 false)) trivial rfl
  refine ⟨_, hcommit, keeps_registry Storage.marking_lawful braces_plain hcommit ?_⟩
  intro l hmem draw m hcall
  simp only [List.nil_append, List.cons_append, List.mem_cons, List.not_mem_nil, or_false] at hmem
  rcases hmem with rfl | rfl | rfl | rfl
  · cases hcall
    exact ⟨_, rfl⟩
  all_goals cases hcall

end SharedRegistry

end Hedronetes.Server
