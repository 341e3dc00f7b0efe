import Hedronetes.Storage.Tables

/-!
# Lists and changes over the registry tables

The LIST query pages through the live rows of one revision in key order; the
changes query returns the rows after a cursor with their predecessors, 256 at a
time. Both are bounded scans, so pages and batches join into the whole
selection, and both give what the full log gives while the floor allows it.
-/

namespace Hedronetes.Storage

open VersionLog CursorScan Fallible

/-- The row of GET, opened. -/
def getObject (openValue : Bytes → Result Bytes) (key : StoreKey) (versions : List Row) :
    Result (Option StoredObject) :=
  match currentObject key versions with
  | some old => (openValue old.value).map fun value => some { old with value := value }
  | none => .ok none

/-- Text order of keys. -/
abbrev keyText (row : Row) : String := row.key.value

/-- The LIST query at `revision`, after the key `start`. -/
def listRows (selected start : String) (revision n : ℕ) (versions : List Row) : List Row :=
  (orderBy keyText (versions.filter fun v =>
    underPrefix selected v.key && start < v.key.value && isLive v &&
      (latestAt v.key revision versions).map Version.revision = some v.revision)).take n

/-- The live rows at a revision under a prefix, in key order. -/
def visible (selected : String) (revision : ℕ) (versions : List Row) : List Row :=
  orderBy keyText ((snapshot revision versions).filter fun v =>
    isLive v && underPrefix selected v.key)

theorem visible_keys {selected : String} {revision : ℕ} {versions : List Row}
    (ho : Ordered versions) :
    ((snapshot revision versions).filter fun v => isLive v && underPrefix selected v.key).Pairwise
      fun a b => keyText a ≠ keyText b := by
  have hasc : Ascending Version.revision ((snapshot revision versions).filter fun v =>
      isLive v && underPrefix selected v.key) := (ho.filter _).filter _
  refine List.Pairwise.imp_of_mem ?_ hasc
  intro a b ha hb hlt heq
  have hab := snapshot_keys ho (List.mem_of_mem_filter ha) (List.mem_of_mem_filter hb)
    (StoreKey.value_injective heq)
  rw [hab] at hlt
  exact hlt.false

theorem visible_ascending {selected : String} {revision : ℕ} {versions : List Row}
    (ho : Ordered versions) : Ascending keyText (visible selected revision versions) :=
  orderBy_ascending (visible_keys ho)

theorem mem_visible {selected : String} {revision : ℕ} {versions : List Row} {v : Row} :
    v ∈ visible selected revision versions ↔
      v ∈ snapshot revision versions ∧ isLive v = true ∧ underPrefix selected v.key = true := by
  simp [visible]

/-- A LIST page is a bounded scan of the live rows. -/
theorem listRows_eq_scan {selected start : String} {revision n : ℕ} {versions : List Row}
    (ho : Ordered versions) :
    listRows selected start revision n versions =
      scan keyText n start (visible selected revision versions) := by
  have hfilter : (versions.filter fun v =>
      underPrefix selected v.key && start < v.key.value && isLive v &&
        (latestAt v.key revision versions).map Version.revision = some v.revision) =
      ((snapshot revision versions).filter fun v => isLive v && underPrefix selected v.key).filter
        fun v => start < v.key.value := by
    simp only [snapshot, List.filter_filter]
    apply List.filter_congr
    intro v _
    cases underPrefix selected v.key <;> cases isLive v <;> simp
  rw [listRows, hfilter, orderBy_filter (visible_keys ho)]
  rfl

/-- Rows after a revision leave the live rows at it as they were. -/
theorem visible_append {selected : String} {revision : ℕ} {versions new : List Row}
    (h : ∀ v ∈ new, revision < v.revision) :
    visible selected revision (versions ++ new) = visible selected revision versions := by
  rw [visible, visible, snapshot_append h]

/-- No row has revision zero, so the registry is empty there. -/
theorem visible_zero {selected : String} {versions : List Row}
    (h : ∀ v ∈ versions, 0 < v.revision) : visible selected 0 versions = [] := by
  have hnil : snapshot 0 versions = [] := by
    refine List.filter_eq_nil_iff.mpr fun v _ he => ?_
    obtain ⟨w, hw, _⟩ := Option.map_eq_some_iff.mp (of_decide_eq_true he)
    obtain ⟨hmem, _, hle⟩ := latestAt_mem hw
    have := h w hmem
    omega
  rw [visible, hnil]
  rfl

/-- The checks of `list` before it reads. -/
def checkList (sel : ListSelect) : Result Unit := do
  validatePrefix sel.selected
  if sel.limit = 0 || 4096 < sel.limit then .error (.invalid "LIST limit must be 1..4096")
  else if sel.startAfter.any fun key => !startsWith sel.selected key then
    .error (.invalid "continuation key is outside the selection")
  else .ok ()

/-- The key after which a page starts. -/
def startText (start : Option StoreKey) : String := (start.map StoreKey.value).getD ""

/-- The revision of a page: none or zero selects the current one. -/
def listRevision (atRevision : Option ℕ) (current : ℕ) : ℕ :=
  (atRevision.filter fun r => r ≠ 0).getD current

theorem listRevision_some {revision current : ℕ} (h : 0 < revision) :
    listRevision (some revision) current = revision := by
  rw [listRevision, Option.filter_some, if_pos (by simpa using h.ne')]
  rfl

theorem listRevision_zero (current : ℕ) : listRevision (some 0) current = current := rfl

/-- A row with its value opened. -/
def openRow (openValue : Bytes → Result Bytes) (row : Row) : Result StoredObject := do
  let value ← openValue row.value.bytes
  pure ⟨row.key, value, row.revision⟩

/-- A page from one row more than it may hold. -/
def pageOf (limit revision : ℕ) (items : List StoredObject) : ObjectList :=
  if limit < items.length then
    ⟨items.dropLast, revision, items.dropLast.getLast?.map StoredObject.key⟩
  else ⟨items, revision, none⟩

/-- The rows of a LIST query as a page. -/
def listPage (openValue : Bytes → Result Bytes) (sel : ListSelect) (revision : ℕ)
    (versions : List Row) : Result ObjectList := do
  let items ← (listRows sel.selected (startText sel.startAfter) revision (sel.limit + 1)
    versions).mapM (openRow openValue)
  pure (pageOf sel.limit revision items)

theorem openRow_ok {openValue : Bytes → Result Bytes} {row : Row} {obj : StoredObject}
    (h : openRow openValue row = .ok obj) :
    obj.key = row.key ∧ obj.revision = row.revision ∧ openValue row.value.bytes = .ok obj.value := by
  obtain ⟨value, hvalue, h⟩ := bind_eq_ok.mp h
  cases Except.ok.inj h
  exact ⟨rfl, rfl, hvalue⟩

theorem openRow_exists {openValue : Bytes → Result Bytes} {row : Row}
    (h : ∃ opened, openValue row.value.bytes = .ok opened) :
    ∃ obj, openRow openValue row = .ok obj := by
  obtain ⟨opened, hopened⟩ := h
  exact ⟨_, bind_eq_ok.mpr ⟨opened, hopened, rfl⟩⟩

/-- A page depends on the rows through the live rows at its revision only. -/
theorem listPage_congr {openValue : Bytes → Result Bytes} {sel : ListSelect} {revision : ℕ}
    {versions versions' : List Row} (ho : Ordered versions) (ho' : Ordered versions')
    (h : visible sel.selected revision versions = visible sel.selected revision versions') :
    listPage openValue sel revision versions = listPage openValue sel revision versions' := by
  rw [listPage, listPage, listRows_eq_scan ho, listRows_eq_scan ho', h]

/-- The page that the live rows `rows` have after `start`: at most `limit` of them,
and where to go on when there are more. -/
theorem listPage_ok {openValue : Bytes → Result Bytes} {sel : ListSelect} {revision : ℕ}
    {versions : List Row} (ho : Ordered versions) {page : ObjectList}
    (h : listPage openValue sel revision versions = .ok page) :
    page.revision = revision ∧
      (scan keyText sel.limit (startText sel.startAfter)
        (visible sel.selected revision versions)).mapM (openRow openValue) = .ok page.items ∧
      page.nextAfter =
        if sel.limit < (beyond keyText (startText sel.startAfter)
          (visible sel.selected revision versions)).length then
          page.items.getLast?.map StoredObject.key
        else none := by
  obtain ⟨items, hitems, h⟩ := bind_eq_ok.mp h
  rw [listRows_eq_scan ho] at hitems
  have hpage := (Except.ok.inj h).symm
  set rest := beyond keyText (startText sel.startAfter)
    (visible sel.selected revision versions) with hrest
  have hscan : ∀ n, scan keyText n (startText sel.startAfter)
      (visible sel.selected revision versions) = rest.take n := fun _ => rfl
  rw [hscan] at hitems ⊢
  have hlen : items.length = min (sel.limit + 1) rest.length := by
    rw [mapM_length hitems, List.length_take]
  by_cases hmore : sel.limit < rest.length
  · have hgt : sel.limit < items.length := by omega
    have htake : (rest.take sel.limit).mapM (openRow openValue) = .ok items.dropLast := by
      have hall := mapM_eq_ok_iff.mp hitems
      have hdrop := List.forall₂_take sel.limit hall
      rw [List.take_take, min_eq_left (Nat.le_succ _)] at hdrop
      rw [List.dropLast_eq_take, show items.length - 1 = sel.limit by omega]
      exact mapM_eq_ok_iff.mpr hdrop
    rw [hpage, pageOf, if_pos hgt, if_pos hmore]
    exact ⟨rfl, htake, rfl⟩
  · have hle : ¬ sel.limit < items.length := by omega
    rw [hpage, pageOf, if_neg hle, if_neg hmore]
    refine ⟨rfl, ?_, rfl⟩
    rw [List.take_of_length_le (by omega)] at hitems ⊢
    exact hitems

/-- A page goes on after a key of the selection. -/
theorem listPage_nextAfter {openValue : Bytes → Result Bytes} {sel : ListSelect} {revision : ℕ}
    {versions : List Row} (ho : Ordered versions) {page : ObjectList}
    (h : listPage openValue sel revision versions = .ok page) {key : StoreKey}
    (hnext : page.nextAfter = some key) : startsWith sel.selected key = true := by
  obtain ⟨_, hitems, hafter⟩ := listPage_ok ho h
  rw [hnext] at hafter
  split_ifs at hafter
  have hkeys := mapM_map_eq (g := StoredObject.key) (k := fun row : Row => row.key)
    (fun _ _ h => (openRow_ok h).1) hitems
  obtain ⟨obj, hobj, rfl⟩ := Option.map_eq_some_iff.mp hafter.symm
  obtain ⟨v, hv, hkey⟩ := List.mem_map.mp
    (hkeys ▸ List.mem_map_of_mem (f := StoredObject.key) (List.mem_of_getLast? hobj))
  rw [startsWith_eq_underPrefix, ← hkey]
  exact (mem_visible.mp (scan_subset hv).1).2.2

/-- A page with nothing after it ends the selection; any other page goes on after its last row. -/
theorem listPage_last {openValue : Bytes → Result Bytes} {sel : ListSelect} {revision : ℕ}
    {versions : List Row} (ho : Ordered versions) (hlimit : 0 < sel.limit) {page : ObjectList}
    (h : listPage openValue sel revision versions = .ok page) :
    (page.nextAfter = none →
      scan keyText sel.limit (startText sel.startAfter) (visible sel.selected revision versions) =
        beyond keyText (startText sel.startAfter) (visible sel.selected revision versions)) ∧
    ∀ key, page.nextAfter = some key → ∃ z,
      (scan keyText sel.limit (startText sel.startAfter)
        (visible sel.selected revision versions)).getLast? = some z ∧ z.key = key := by
  obtain ⟨_, hitems, hnext⟩ := listPage_ok ho h
  have hkeys := mapM_map_eq (g := StoredObject.key) (k := fun row : Row => row.key)
    (fun _ _ h => (openRow_ok h).1) hitems
  constructor
  · intro hnone
    rw [hnone] at hnext
    split_ifs at hnext with hmore
    · -- There are more rows, so the page is full and has a last key.
      have hlen : page.items.length = sel.limit := by
        rw [mapM_length hitems, scan, List.length_take]
        omega
      have hnil : page.items = [] := by
        cases hl : page.items.getLast? with
        | none => exact List.getLast?_eq_none_iff.mp hl
        | some z => simp [hl] at hnext
      simp only [hnil, List.length_nil] at hlen
      omega
    · exact List.take_of_length_le (by omega)
  · intro key hkey
    rw [hkey] at hnext
    split_ifs at hnext
    have hlast : (scan keyText sel.limit (startText sel.startAfter)
        (visible sel.selected revision versions)).getLast?.map (fun row => row.key) = some key := by
      rw [← List.getLast?_map, ← hkeys, List.getLast?_map]
      exact hnext.symm
    exact Option.map_eq_some_iff.mp hlast

/-- The changes query: the rows after a cursor under a prefix, with the rows they replaced. -/
def changeRows (selected : String) (after : ℕ) (versions : List Row) : List (Row × Option Row) :=
  ((orderBy Version.revision (versions.filter fun v =>
    after < v.revision && underPrefix selected v.key)).take 256).map fun v =>
      (v, preceding v versions)

/-- The rows under a prefix, in log order. -/
def rowsUnder (selected : String) (versions : List Row) : List Row :=
  versions.filter fun v => underPrefix selected v.key

theorem rowsUnder_ordered {selected : String} {versions : List Row} (ho : Ordered versions) :
    Ordered (rowsUnder selected versions) := ho.filter _

@[simp] theorem rowsUnder_append (selected : String) (versions new : List Row) :
    rowsUnder selected (versions ++ new) = rowsUnder selected versions ++ rowsUnder selected new :=
  List.filter_append _ _

theorem changeRows_eq_scan {selected : String} {after : ℕ} {versions : List Row}
    (ho : Ordered versions) :
    changeRows selected after versions =
      (scan Version.revision 256 after (rowsUnder selected versions)).map fun v =>
        (v, preceding v versions) := by
  have hfilter : (versions.filter fun v => after < v.revision && underPrefix selected v.key) =
      beyond Version.revision after (rowsUnder selected versions) := by
    rw [beyond, rowsUnder, List.filter_filter]
  have hasc : Ordered (beyond Version.revision after (rowsUnder selected versions)) :=
    (rowsUnder_ordered ho).filter _
  rw [changeRows, hfilter, hasc.orderBy_eq]
  rfl

/-- The version a change replaced, when there is one and it was live. -/
def priorObject (openPrevious : StoreKey → Bytes → Result Bytes) (key : StoreKey) :
    Option Row → Result (Option StoredObject)
  | some prior =>
    if isLive prior then
      (openPrevious key prior.value.bytes).map fun bytes => some ⟨key, bytes, prior.revision⟩
    else .ok none
  | none => .ok none

theorem priorObject_eq_some {openPrevious : StoreKey → Bytes → Result Bytes} {key : StoreKey}
    {prior : Option Row} {obj : StoredObject} (h : priorObject openPrevious key prior = .ok (some obj)) :
    ∃ row, prior = some row ∧ isLive row = true ∧ obj.key = key ∧ obj.revision = row.revision ∧
      openPrevious key row.value.bytes = .ok obj.value := by
  cases prior with
  | none => simp [priorObject] at h
  | some row =>
    simp only [priorObject] at h
    split_ifs at h with hlive
    · cases hbytes : openPrevious key row.value.bytes with
      | error e => simp [hbytes, Except.map] at h
      | ok bytes =>
        obtain rfl : ⟨key, bytes, row.revision⟩ = obj := by simpa [hbytes, Except.map] using h
        exact ⟨row, rfl, hlive, rfl, rfl, hbytes⟩
    · simp at h

/-- A row and its predecessor as an event. The two openings are the backend's. -/
def toEvent (openValue : Bytes → Result Bytes) (openPrevious : StoreKey → Bytes → Result Bytes)
    (change : Row × Option Row) : Result WatchEvent := do
  let value ← openValue change.1.value.bytes
  let previous ← priorObject openPrevious change.1.key change.2
  pure ⟨previous, kindOf change.1.value.kind, change.1.revision,
    some ⟨change.1.key, value, change.1.revision⟩⟩

/-- Where the next poll goes on: after a full batch at its last event, else at the head. -/
def nextCursor (current : ℕ) (events : List WatchEvent) : ℕ :=
  if events.length = 256 then (events.getLast?.map WatchEvent.revision).getD current else current

section Events

variable {openValue : Bytes → Result Bytes} {openPrevious : StoreKey → Bytes → Result Bytes}

theorem toEvent_ok {change : Row × Option Row} {event : WatchEvent}
    (h : toEvent openValue openPrevious change = .ok event) :
    event.revision = change.1.revision ∧ event.kind = kindOf change.1.value.kind ∧
      ∃ value, openValue change.1.value.bytes = .ok value ∧
        event.object = some ⟨change.1.key, value, change.1.revision⟩ := by
  obtain ⟨value, hvalue, h⟩ := bind_eq_ok.mp h
  obtain ⟨previous, _, h⟩ := bind_eq_ok.mp h
  cases Except.ok.inj h
  exact ⟨rfl, rfl, value, hvalue, rfl⟩

/-- The event of a row of the log, with the version it replaced when that was live. -/
def logEvent (openValue : Bytes → Result Bytes) (openPrevious : StoreKey → Bytes → Result Bytes)
    (log : List Row) (v : Row) : Result WatchEvent :=
  toEvent openValue openPrevious (v, latestAt v.key (v.revision - 1) log)

theorem logEvent_revision {log : List Row} {v : Row} {event : WatchEvent}
    (h : logEvent openValue openPrevious log v = .ok event) : event.revision = v.revision :=
  (toEvent_ok h).1

/-- The event of a row can be read when every stored value opens. -/
theorem logEvent_exists {log : List Row}
    (hvalue : ∀ v ∈ log, ∃ opened, openValue v.value.bytes = .ok opened)
    (hprevious : ∀ key bytes opened, openValue bytes = .ok opened →
      ∃ previous, openPrevious key bytes = .ok previous) {v : Row} (hv : v ∈ log) :
    ∃ event, logEvent openValue openPrevious log v = .ok event := by
  obtain ⟨value, hopened⟩ := hvalue v hv
  obtain ⟨previous, hprior⟩ : ∃ previous, priorObject openPrevious v.key
      (latestAt v.key (v.revision - 1) log) = .ok previous := by
    cases hprior : latestAt v.key (v.revision - 1) log with
    | none => exact ⟨none, rfl⟩
    | some prior =>
      obtain ⟨opened, hread⟩ := hvalue prior (latestAt_mem hprior).1
      obtain ⟨bytes, hbytes⟩ := hprevious v.key _ _ hread
      by_cases hlive : isLive prior = true
      · exact ⟨_, by rw [priorObject, if_pos hlive, hbytes]; rfl⟩
      · exact ⟨none, by rw [priorObject, if_neg hlive]⟩
  exact ⟨_, bind_eq_ok.mpr ⟨value, hopened, bind_eq_ok.mpr ⟨previous, hprior, rfl⟩⟩⟩

/-- `event` reports `row`: its change, and the version it replaced when that was live. -/
structure Reports (openValue : Bytes → Result Bytes)
    (openPrevious : StoreKey → Bytes → Result Bytes) (log : List Row) (row : Row)
    (event : WatchEvent) : Prop where
  revision : event.revision = row.revision
  kind : event.kind = kindOf row.value.kind
  object : ∃ value, openValue row.value.bytes = .ok value ∧
    event.object = some ⟨row.key, value, row.revision⟩
  previous_live : ∀ prior, latestAt row.key (row.revision - 1) log = some prior →
    isLive prior = true → ∃ bytes, openPrevious row.key prior.value.bytes = .ok bytes ∧
      event.previous = some ⟨row.key, bytes, prior.revision⟩
  previous_absent : (∀ prior, latestAt row.key (row.revision - 1) log = some prior →
    isLive prior = false) → event.previous = none

theorem logEvent_reports {log : List Row} {v : Row} {event : WatchEvent}
    (h : logEvent openValue openPrevious log v = .ok event) :
    Reports openValue openPrevious log v event := by
  obtain ⟨hrevision, hkind, hobject⟩ := toEvent_ok h
  obtain ⟨value, _, h⟩ := bind_eq_ok.mp h
  obtain ⟨previous, hprevious, h⟩ := bind_eq_ok.mp h
  cases Except.ok.inj h
  refine ⟨hrevision, hkind, hobject, fun prior hprior hlive => ?_, fun hdead => ?_⟩
  · rw [hprior, priorObject, if_pos hlive] at hprevious
    cases hbytes : openPrevious v.key prior.value.bytes with
    | error e => simp [hbytes, Except.map] at hprevious
    | ok bytes => exact ⟨bytes, rfl, by simpa [hbytes, Except.map] using hprevious.symm⟩
  · cases hprior : latestAt v.key (v.revision - 1) log with
    | none => simpa [hprior, priorObject] using hprevious.symm
    | some prior => simpa [hprior, priorObject, hdead prior hprior] using hprevious.symm

/-- The events of a batch have the revisions of the rows it read. -/
theorem batch_revision {log : List Row} {selected : String} {after : ℕ} {events : List WatchEvent}
    (hevents : (scan Version.revision 256 after (rowsUnder selected log)).mapM
      (logEvent openValue openPrevious log) = .ok events) {event : WatchEvent}
    (he : event ∈ events) :
    ∃ v ∈ rowsUnder selected log, event.revision = v.revision ∧ after < v.revision := by
  have hrevs := mapM_map_eq (g := WatchEvent.revision) (k := Version.revision)
    (fun _ _ h => logEvent_revision h) hevents
  obtain ⟨v, hv, hrev⟩ := List.mem_map.mp
    (hrevs ▸ List.mem_map_of_mem (f := WatchEvent.revision) he)
  exact ⟨v, (scan_subset hv).1, hrev.symm, (scan_subset hv).2⟩

/-- Where a batch leaves the cursor: at the head, or at its last event when it is full. -/
theorem nextCursor_cases (current : ℕ) (events : List WatchEvent) :
    (events.length ≠ 256 ∧ nextCursor current events = current) ∨
      (events.length = 256 ∧ ∃ event ∈ events, nextCursor current events = event.revision) := by
  by_cases hfull : events.length = 256
  · refine Or.inr ⟨hfull, ?_⟩
    cases hz : events.getLast? with
    | none => simp [List.getLast?_eq_none_iff.mp hz] at hfull
    | some event => exact ⟨event, List.mem_of_getLast? hz, by simp [nextCursor, hfull, hz]⟩
  · exact Or.inl ⟨hfull, by simp [nextCursor, hfull]⟩

/-- Later rows change no earlier event. -/
theorem logEvent_append {log new : List Row} {v : Row} (hpos : 0 < v.revision)
    (h : ∀ u ∈ new, v.revision ≤ u.revision) :
    logEvent openValue openPrevious (log ++ new) v = logEvent openValue openPrevious log v := by
  rw [logEvent, logEvent, latestAt_append]
  intro u hu
  have := h u hu
  omega

/-- One poll: a batch of events covers the log from the cursor to the next cursor,
unless it is short and rows past the head it read were there to see. -/
theorem batch_window {log : List Row} (ho : Ordered log) {selected : String} {after current : ℕ}
    {events : List WatchEvent}
    (hevents : (scan Version.revision 256 after (rowsUnder selected log)).mapM
      (logEvent openValue openPrevious log) = .ok events)
    (hhead : events.length = 256 ∨ ∀ v ∈ rowsUnder selected log, after < v.revision →
      v.revision ≤ current) :
    scan Version.revision 256 after (rowsUnder selected log) =
      window Version.revision after (nextCursor current events) (rowsUnder selected log) := by
  have hlen := mapM_length hevents
  by_cases hfull : events.length = 256
  · obtain ⟨last, hlast⟩ : ∃ z, (scan Version.revision 256 after (rowsUnder selected log)).getLast?
        = some z := by
      refine Option.isSome_iff_exists.mp (List.getLast?_isSome.mpr fun hnil => ?_)
      rw [hnil, hfull] at hlen
      simp at hlen
    have hrev : events.getLast?.map WatchEvent.revision = some last.revision := by
      have hmap := mapM_map_eq (g := WatchEvent.revision) (k := Version.revision)
        (fun _ _ h => logEvent_revision h) hevents
      rw [← List.getLast?_map, hmap, List.getLast?_map, hlast, Option.map_some]
    rw [nextCursor, if_pos hfull, hrev]
    exact scan_eq_window (rowsUnder_ordered ho) hlast
  · rw [nextCursor, if_neg hfull, scan_of_short (by rw [← hlen]; exact hfull)]
    apply List.filter_congr
    intro v hv
    by_cases hlt : after < v.revision
    · have hle := (hhead.resolve_left hfull) v hv hlt
      simp [hlt, hle]
    · simp [hlt]

end Events

namespace Consistent

variable {log : List Row} {horizon : ℕ} {t : Tables}

theorem visible_eq (h : Consistent log horizon t) (selected : String) {revision : ℕ}
    (hr : horizon ≤ revision) :
    visible selected revision t.versions = visible selected revision log := by
  rw [visible, visible, h.retains.snapshot_eq h.ordered hr]

/-- A page read at or above the horizon is the page of the full log. -/
theorem listPage_eq (h : Consistent log horizon t) (openValue : Bytes → Result Bytes)
    (sel : ListSelect) {revision : ℕ} (hr : horizon ≤ revision) :
    listPage openValue sel revision t.versions = listPage openValue sel revision log :=
  listPage_congr h.versions_ordered h.ordered (h.visible_eq sel.selected hr)

/-- Nothing has been committed past the head. -/
theorem rowsUnder_le_head (h : Consistent log horizon t) (selected : String) :
    ∀ v ∈ rowsUnder selected log, v.revision ≤ t.revision :=
  fun v hv => h.bounded v (List.mem_of_mem_filter hv)

theorem rowsUnder_beyond (h : Consistent log horizon t) (selected : String) {after : ℕ}
    (ha : horizon ≤ after) :
    beyond Version.revision after (rowsUnder selected t.versions) =
      beyond Version.revision after (rowsUnder selected log) := by
  have hbeyond := h.retains.beyond_eq h.ordered ha
  have hswap : ∀ l : List Row, beyond Version.revision after (rowsUnder selected l) =
      rowsUnder selected (beyond Version.revision after l) := fun l => by
    rw [beyond, rowsUnder, rowsUnder, beyond, List.filter_filter, List.filter_filter]
    exact List.filter_congr fun v _ => Bool.and_comm _ _
  rw [hswap, hswap, hbeyond]

/-- A batch read at or above the horizon has the events of the full log. -/
theorem changeRows_mapM (h : Consistent log horizon t) (selected : String) {after : ℕ}
    (ha : horizon ≤ after) (openValue : Bytes → Result Bytes)
    (openPrevious : StoreKey → Bytes → Result Bytes) :
    (changeRows selected after t.versions).mapM (toEvent openValue openPrevious) =
      (scan Version.revision 256 after (rowsUnder selected log)).mapM
        (logEvent openValue openPrevious log) := by
  have hscan : scan Version.revision 256 after (rowsUnder selected t.versions) =
      scan Version.revision 256 after (rowsUnder selected log) := by
    rw [scan, scan, h.rowsUnder_beyond selected ha]
  rw [changeRows_eq_scan h.versions_ordered, hscan, List.mapM_map]
  apply mapM_congr
  intro v hv
  obtain ⟨hv, hlt⟩ := scan_subset hv
  have hprior : preceding v t.versions = latestAt v.key (v.revision - 1) log := by
    rw [h.retains.preceding_eq h.ordered (lt_of_le_of_lt ha hlt),
      preceding_eq_latestAt (by omega)]
  simp only [Function.comp_apply, hprior, logEvent]

end Consistent

end Hedronetes.Storage
