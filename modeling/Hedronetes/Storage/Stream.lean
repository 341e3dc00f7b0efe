import Hedronetes.Storage.Reads

/-!
# Watch streams

A watch fixes its anchor revision when it is registered. Its stream first shows
the snapshot at the anchor when no start revision was named, then a bookmark,
and then tails the log in batches. `Delivered` says what the batches so far have
covered, `Shown` what the snapshot pages have.
-/

namespace Hedronetes.Storage

open VersionLog CursorScan Fallible

/-- A registered watch: what it was asked for, what it has emitted, and the
batches its polls have returned. -/
structure Watch where
  sel : WatchSelect
  anchor : ℕ
  emitted : List WatchEvent
  batches : List (List WatchEvent)
  deriving DecidableEq

/-- The event that shows an object of the initial snapshot. -/
def addedEvent (obj : StoredObject) : WatchEvent := ⟨none, .added, obj.revision, some obj⟩

namespace Watch

def register (sel : WatchSelect) (anchor : ℕ) : Watch := ⟨sel, anchor, [], []⟩

def showPage (w : Watch) (items : List StoredObject) : Watch :=
  { w with emitted := w.emitted ++ items.map addedEvent }

def bookmark (w : Watch) (revision : ℕ) : Watch :=
  { w with emitted := w.emitted ++ [bookmarkAt revision] }

def deliver (w : Watch) (events : List WatchEvent) : Watch :=
  { w with emitted := w.emitted ++ events, batches := w.batches ++ [events] }

end Watch

/-- The start revision of a watch; zero asks for the initial snapshot. -/
def requestedRevision (sel : WatchSelect) : Option ℕ := sel.afterRevision.filter fun r => r ≠ 0

/-- The registration of a watch: its checks, and the anchor it reads. -/
def watchAnchor (sel : WatchSelect) (t : Tables) : Result ℕ := do
  validatePrefix sel.selected
  if sel.bookmarkInterval = 0 then .error (.invalid "bookmark interval must be positive")
  else
    let revision := (requestedRevision sel).getD t.revision
    validateRevision revision t.revision t.compacted
    pure revision

theorem watchAnchor_ok {sel : WatchSelect} {t : Tables} {anchor : ℕ}
    (h : watchAnchor sel t = .ok anchor) :
    anchor = (requestedRevision sel).getD t.revision ∧ t.compacted ≤ anchor ∧
      anchor ≤ t.revision := by
  obtain ⟨⟨⟩, _, h⟩ := bind_eq_ok.mp h
  split_ifs at h
  obtain ⟨⟨⟩, hvalid, h⟩ := bind_eq_ok.mp h
  have hanchor := Except.ok.inj h
  obtain ⟨hfloor, hhead⟩ := validateRevision_ok.mp hvalid
  exact ⟨hanchor.symm, hanchor ▸ hfloor, hanchor ▸ hhead⟩

theorem watchAnchor_selects {sel : WatchSelect} {t : Tables} {anchor : ℕ}
    (h : watchAnchor sel t = .ok anchor) : validatePrefix sel.selected = .ok () := by
  obtain ⟨⟨⟩, hprefix, _⟩ := bind_eq_ok.mp h
  exact hprefix

/-- The LIST call of a snapshot page. -/
def snapshotSelect (w : Watch) (next : Option StoreKey) : ListSelect :=
  ⟨w.sel.selected, some w.anchor, next, 256⟩

/-- The first page of a registered watch passes the checks of LIST. -/
theorem checkList_snapshot {sel : WatchSelect} {anchor : ℕ}
    (h : validatePrefix sel.selected = .ok ()) :
    checkList (snapshotSelect (.register sel anchor) none) = .ok () := by
  simp [checkList, snapshotSelect, Watch.register, h, bind, Except.bind]

/-- So does every later page, which starts at a key of the page before it. -/
theorem checkList_continue {w : Watch} {next : Option StoreKey} {items : List StoredObject}
    {key : StoreKey} (h : checkList (snapshotSelect w next) = .ok ())
    (hkey : startsWith w.sel.selected key = true) :
    checkList (snapshotSelect (w.showPage items) (some key)) = .ok () := by
  obtain ⟨⟨⟩, hprefix, _⟩ := bind_eq_ok.mp h
  refine bind_eq_ok.mpr ⟨(), hprefix, ?_⟩
  simp [snapshotSelect, Watch.showPage, hkey]

/-- The events that are no bookmarks. -/
def changesOf (events : List WatchEvent) : List WatchEvent :=
  events.filter fun e => e.kind ≠ .bookmark

@[simp] theorem changesOf_append (es fs : List WatchEvent) :
    changesOf (es ++ fs) = changesOf es ++ changesOf fs := List.filter_append _ _

@[simp] theorem changesOf_bookmark (revision : ℕ) : changesOf [bookmarkAt revision] = [] := rfl

section Streams

variable {openValue : Bytes → Result Bytes} {openPrevious : StoreKey → Bytes → Result Bytes}

theorem changesOf_events {changes : List (Row × Option Row)} {events : List WatchEvent}
    (h : changes.mapM (toEvent openValue openPrevious) = .ok events) : changesOf events = events := by
  refine List.filter_eq_self.mpr fun e he => ?_
  have hkinds := mapM_map_eq (g := WatchEvent.kind) (k := fun c => kindOf c.1.value.kind)
    (fun _ _ h => (toEvent_ok h).2.1) h
  obtain ⟨c, _, hc⟩ := List.mem_map.mp (hkinds ▸ List.mem_map_of_mem (f := WatchEvent.kind) he)
  simp [← hc, kindOf_ne_bookmark]

/-- After the events `opening`, the stream has emitted exactly the log of the
watched prefix from the anchor up to `cursor`, in batches of at most 256. -/
structure Delivered (openValue : Bytes → Result Bytes)
    (openPrevious : StoreKey → Bytes → Result Bytes) (log : List Row) (w : Watch) (cursor : ℕ)
    (opening : List WatchEvent) : Prop where
  anchor_le : w.anchor ≤ cursor
  events : (window Version.revision w.anchor cursor (rowsUnder w.sel.selected log)).mapM
    (logEvent openValue openPrevious log) = .ok w.batches.flatten
  sizes : ∀ b ∈ w.batches, b.length ≤ 256
  emitted : ∃ tail, w.emitted = opening ++ tail ∧ changesOf tail = w.batches.flatten

namespace Delivered

variable {log : List Row} {w : Watch} {cursor : ℕ} {opening : List WatchEvent}

/-- A stream that has polled nothing has delivered the empty window. -/
theorem unpolled (log : List Row) (h : w.batches = []) :
    Delivered openValue openPrevious log w w.anchor w.emitted where
  anchor_le := le_rfl
  events := by rw [window_eq_nil le_rfl, h]; rfl
  sizes := by simp [h]
  emitted := ⟨[], by simp, by rw [h]; rfl⟩

theorem bookmark (h : Delivered openValue openPrevious log w cursor opening) (revision : ℕ) :
    Delivered openValue openPrevious log (w.bookmark revision) cursor opening where
  anchor_le := h.anchor_le
  events := h.events
  sizes := h.sizes
  emitted := by
    obtain ⟨tail, htail, hchanges⟩ := h.emitted
    refine ⟨tail ++ [bookmarkAt revision], ?_, ?_⟩
    · simp [Watch.bookmark, htail]
    · rw [changesOf_append, changesOf_bookmark, List.append_nil, hchanges]
      rfl

/-- Rows past the cursor leave what was delivered as it was. -/
theorem grow (h : Delivered openValue openPrevious log w cursor opening) (hpos : ∀ v ∈ log, 0 < v.revision)
    {new : List Row} (hnew : ∀ v ∈ new, cursor < v.revision) :
    Delivered openValue openPrevious (log ++ new) w cursor opening where
  anchor_le := h.anchor_le
  events := by
    have hwin := window_of_append (l := rowsUnder w.sel.selected log) (c := w.anchor)
      (m := rowsUnder w.sel.selected new) fun v hv => hnew v (List.mem_of_mem_filter hv)
    rw [rowsUnder_append, hwin, ← h.events]
    apply mapM_congr
    intro v hv
    obtain ⟨hv, _, hle⟩ := mem_window.mp hv
    exact logEvent_append (hpos v (List.mem_of_mem_filter hv)) fun u hu => (hle.trans (hnew u hu).le)
  sizes := h.sizes
  emitted := h.emitted

/-- A poll extends the window to its next cursor. -/
theorem poll (h : Delivered openValue openPrevious log w cursor opening) (ho : Ordered log)
    {current : ℕ} (hcurrent : cursor ≤ current) {events : List WatchEvent}
    (hevents : (scan Version.revision 256 cursor (rowsUnder w.sel.selected log)).mapM
      (logEvent openValue openPrevious log) = .ok events)
    (hhead : events.length = 256 ∨ ∀ v ∈ rowsUnder w.sel.selected log, cursor < v.revision →
      v.revision ≤ current) :
    cursor ≤ nextCursor current events ∧
      Delivered openValue openPrevious log (w.deliver events) (nextCursor current events) opening := by
  have hscan := batch_window ho hevents hhead
  have hnext : cursor ≤ nextCursor current events := by
    rcases nextCursor_cases current events with ⟨_, he⟩ | ⟨_, event, hevent, he⟩ <;> rw [he]
    · exact hcurrent
    · obtain ⟨v, _, hrev, hlt⟩ := batch_revision hevents hevent
      exact hrev ▸ hlt.le
  refine ⟨hnext, h.anchor_le.trans hnext, ?_, ?_, ?_⟩
  · rw [hscan] at hevents
    have hordered : Ordered (rowsUnder w.sel.selected log) := rowsUnder_ordered ho
    have hjoin := window_append hordered h.anchor_le hnext
    simp only [Watch.deliver, List.flatten_append, List.flatten_singleton]
    rw [← hjoin]
    exact mapM_append_ok h.events hevents
  · intro b hb
    rcases List.mem_append.mp hb with hb | hb
    · exact h.sizes b hb
    · rw [List.mem_singleton.mp hb, mapM_length hevents]
      exact scan_length_le _ _ _
  · obtain ⟨tail, htail, hchanges⟩ := h.emitted
    have hself : changesOf events = events := by
      have hmap : ((scan Version.revision 256 cursor (rowsUnder w.sel.selected log)).map fun v =>
          (v, latestAt v.key (v.revision - 1) log)).mapM (toEvent openValue openPrevious) =
          .ok events := by
        rw [List.mapM_map]
        exact hevents
      exact changesOf_events hmap
    refine ⟨tail ++ events, by simp [Watch.deliver, htail], ?_⟩
    simp [Watch.deliver, hchanges, hself]

/-- The revisions delivered are those of the window, in strictly increasing order. -/
theorem revisions (h : Delivered openValue openPrevious log w cursor opening) (ho : Ordered log) :
    w.batches.flatten.map WatchEvent.revision =
        (window Version.revision w.anchor cursor (rowsUnder w.sel.selected log)).map
          Version.revision ∧
      (w.batches.flatten.map WatchEvent.revision).Pairwise (· < ·) := by
  have hrevs := mapM_map_eq (g := WatchEvent.revision) (k := Version.revision)
    (fun _ _ h => logEvent_revision h) h.events
  refine ⟨hrevs, ?_⟩
  rw [hrevs]
  exact List.pairwise_map.mpr ((rowsUnder_ordered ho).filter _)

end Delivered

/-- The batches of a stream report the rows from its anchor to its cursor, each once. -/
structure Replayed (openValue : Bytes → Result Bytes)
    (openPrevious : StoreKey → Bytes → Result Bytes) (log : List Row) (w : Watch) (cursor : ℕ) :
    Prop where
  sizes : ∀ b ∈ w.batches, b.length ≤ 256
  rows : List.Forall₂ (Reports openValue openPrevious log)
    (window Version.revision w.anchor cursor (rowsUnder w.sel.selected log)) w.batches.flatten
  increasing : (w.batches.flatten.map WatchEvent.revision).Pairwise (· < ·)

theorem Delivered.replayed {log : List Row} {w : Watch} {cursor : ℕ} {opening : List WatchEvent}
    (h : Delivered openValue openPrevious log w cursor opening) (ho : Ordered log) :
    Replayed openValue openPrevious log w cursor where
  sizes := h.sizes
  rows := (mapM_eq_ok_iff.mp h.events).imp fun _ _ hevent => logEvent_reports hevent
  increasing := (h.revisions ho).2

/-- The initial events: every live object under the prefix at `revision`, in key order. -/
def initialEvents (openValue : Bytes → Result Bytes) (selected : String) (revision : ℕ)
    (log : List Row) : Result (List WatchEvent) :=
  (visible selected revision log).mapM fun row => (openRow openValue row).map addedEvent

theorem initialEvents_append {selected : String} {revision : ℕ}
    {log new : List Row} (h : ∀ v ∈ new, revision < v.revision) :
    initialEvents openValue selected revision (log ++ new) =
      initialEvents openValue selected revision log := by
  rw [initialEvents, visible_append h, initialEvents]

/-- The pages before `next` have shown the snapshot up to that key. -/
structure Shown (openValue : Bytes → Result Bytes) (log : List Row) (revision : ℕ) (w : Watch)
    (next : Option StoreKey) : Prop where
  items : ∃ objs, (window keyText "" (startText next) (visible w.sel.selected revision log)).mapM
    (openRow openValue) = .ok objs ∧ w.emitted = objs.map addedEvent
  batches : w.batches = []

theorem empty_le_text (s : String) : "" ≤ s := by
  rw [String.le_iff_toList_le]
  exact not_lt.mp (List.not_lt_nil s.toList)

/-- No key sorts at or before the start of the first page. -/
theorem StoreKey.text_pos (key : StoreKey) : "" < key.value := by
  refine lt_of_le_of_ne (empty_le_text _) fun he => ?_
  have hv := key.valid
  rw [← he] at hv
  revert hv
  decide

theorem beyond_empty (rows : List Row) : beyond keyText "" rows = rows :=
  List.filter_eq_self.mpr fun v _ => by simpa using v.key.text_pos

theorem mapM_addedEvent {rows : List Row} {objs : List StoredObject}
    (h : rows.mapM (openRow openValue) = .ok objs) :
    rows.mapM (fun row => (openRow openValue row).map addedEvent) = .ok (objs.map addedEvent) := by
  have hall := mapM_eq_ok_iff.mp h
  rw [mapM_eq_ok_iff, List.forall₂_map_right_iff]
  exact hall.imp fun row obj hobj => by rw [hobj]; rfl

namespace Shown

variable {log : List Row} {revision : ℕ} {w : Watch}

theorem start (log : List Row) (revision : ℕ) (sel : WatchSelect) (anchor : ℕ) :
    Shown openValue log revision (.register sel anchor) none where
  items := ⟨[], by rw [window_eq_nil (by exact le_rfl)]; rfl, rfl⟩
  batches := rfl

theorem grow {next : Option StoreKey} (h : Shown openValue log revision w next) {new : List Row}
    (hnew : ∀ v ∈ new, revision < v.revision) : Shown openValue (log ++ new) revision w next where
  items := by
    rw [visible_append hnew]
    exact h.items
  batches := h.batches

/-- A page of the snapshot shows the next objects, and the last page the rest. -/
theorem page {next : Option StoreKey} (h : Shown openValue log revision w next)
    (ho : Ordered log) {page : ObjectList} {sel : ListSelect} (hsel : sel.selected = w.sel.selected)
    (hlimit : sel.limit = 256) (hstart : sel.startAfter = next)
    (hpage : listPage openValue sel revision log = .ok page) :
    (∀ key, page.nextAfter = some key →
      Shown openValue log revision (w.showPage page.items) (some key)) ∧
      (page.nextAfter = none →
        initialEvents openValue w.sel.selected revision log =
          .ok (w.showPage page.items).emitted) := by
  obtain ⟨_, hitems, _⟩ := listPage_ok ho hpage
  obtain ⟨hend, hlast⟩ := listPage_last ho (by omega) hpage
  rw [hsel, hlimit, hstart] at hitems hend hlast
  obtain ⟨objs, hobjs, hemitted⟩ := h.items
  set rows := visible w.sel.selected revision log with hrows
  have hasc : Ascending keyText rows := visible_ascending ho
  refine ⟨fun key hkey => ⟨⟨objs ++ page.items, ?_, ?_⟩, h.batches⟩, fun hnone => ?_⟩
  · -- The page is the window up to its last key.
    obtain ⟨z, hz, hzkey⟩ := hlast key hkey
    have hscan := scan_eq_window hasc hz
    have hle : startText next ≤ keyText z := (scan_last_gt hz).2.le
    have hstop : startText (some key) = keyText z := by
      rw [← hzkey]
      rfl
    change (window keyText "" (startText (some key)) rows).mapM _ = _
    rw [hstop, ← window_append hasc (empty_le_text _) hle]
    rw [hscan] at hitems
    exact mapM_append_ok hobjs hitems
  · simp [Watch.showPage, hemitted]
  · rw [hend hnone] at hitems
    have hjoin := window_append_beyond hasc (c := "") (d := startText next) (empty_le_text _)
    rw [beyond_empty] at hjoin
    rw [initialEvents, ← hrows, ← hjoin]
    have htotal := mapM_addedEvent (mapM_append_ok hobjs hitems)
    rw [htotal]
    simp [Watch.showPage, hemitted]

end Shown

end Streams

end Hedronetes.Storage
