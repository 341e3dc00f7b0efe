import Hedronetes.Server.Lists
import Hedronetes.Storage.SqliteCreates
import Hedronetes.Storage.SqliteWatch

/-!
# The pages of a list are one snapshot

A response covers a window of the live rows at its revision, from the key of its token to the
next one. Every store page it reads belongs to that revision or fails, so the windows of the
pages join.
-/

namespace Hedronetes.Server.Lists

open Apply Storage VersionLog CursorScan Fallible Runs

variable {codec : Codec} {lib : Libraries} {grant : Grant} {sealer : SecretsSealer}
  {target : Target} {labels fields : String}

/-- A row of the store as the list shows it. -/
def shown (codec : Codec) (sealer : SecretsSealer) (row : Row) : Outcome Json := do
  let obj ← (openRow (decodeRowValue sealer) row).mapError storageFailure
  object (← codec.stored obj)

/-- `items` are the objects of the rows that the selection keeps. -/
def Matching (codec : Codec) (lib : Libraries) (selection : Selection) (sealer : SecretsSealer)
    (rows : List Row) (items : List Json) : Prop :=
  ∃ values, rows.mapM (shown codec sealer) = .ok values ∧
    items = values.filter (selection.isMatch lib.text.print)

theorem Matching.nil {selection : Selection} : Matching codec lib selection sealer [] [] :=
  ⟨[], rfl, rfl⟩

theorem Matching.append {selection : Selection} {rows more : List Row} {items new : List Json}
    (h : Matching codec lib selection sealer rows items)
    (hmore : Matching codec lib selection sealer more new) :
    Matching codec lib selection sealer (rows ++ more) (items ++ new) := by
  obtain ⟨values, hvalues, rfl⟩ := h
  obtain ⟨next, hnext, rfl⟩ := hmore
  exact ⟨values ++ next, mapM_append_ok hvalues hnext, by rw [List.filter_append]⟩

theorem shown_eq {row : Row} {obj : StoredObject}
    (h : openRow (decodeRowValue sealer) row = .ok obj) :
    shown codec sealer row = (do object (← codec.stored obj)) := by
  rw [shown, h]
  rfl

/-- What is sent of a row is the object it shows, if the selection keeps it. -/
theorem sendItem_ok {now : Registry} {row : Row} {obj : StoredObject} {item : Option Json}
    (hrow : openRow (decodeRowValue sealer) row = .ok obj)
    (h : sendItem codec lib grant now obj = .ok item) :
    Matching codec lib grant.selection sealer [row] item.toList := by
  obtain ⟨stored, hstored, h⟩ := bind_eq_ok.mp h
  obtain ⟨value, hvalue, h⟩ := bind_eq_ok.mp h
  have hshown : shown codec sealer row = .ok value := by
    rw [shown_eq hrow]
    exact bind_eq_ok.mpr ⟨stored, hstored, hvalue⟩
  refine ⟨[value], mapM_cons_eq_ok.mpr ⟨value, [], hshown, rfl, rfl⟩, ?_⟩
  by_cases hmatch : grant.selection.isMatch lib.text.print value = true
  · have hitem : item = some value := by
      rw [if_pos hmatch] at h
      cases hguard : grant.readGuard with
      | none =>
        rw [hguard] at h
        exact (Except.ok.inj h).symm
      | some guard =>
        rw [hguard] at h
        obtain ⟨⟨⟩, _, h⟩ := bind_eq_ok.mp h
        exact (Except.ok.inj h).symm
    simp [hitem, hmatch]
  · rw [if_neg hmatch] at h
    cases Except.ok.inj h
    simp [hmatch]

/-- What a store page adds to a response: the objects of its first rows, up to the row where the
response stops. -/
theorem send_ok {now : StoreKey → Registry} {limit : ℕ} {more : Bool} {rows : List Row}
    {objs : List StoredObject} (hrows : rows.mapM (openRow (decodeRowValue sealer)) = .ok objs)
    {sent sent' : Sent} {stopping : Stopping}
    (h : send codec lib grant now limit more objs sent = .ok (sent', stopping)) :
    ∃ n new, n ≤ rows.length ∧ Matching codec lib grant.selection sealer (rows.take n) new ∧
      sent'.items = sent.items ++ new ∧
      match stopping with
      | .goesOn => n = rows.length
      | .stops next => ∃ row, (rows.take n).getLast? = some row ∧
          next = if n < rows.length ∨ more = true then some row.key else none := by
  induction rows generalizing objs sent with
  | nil =>
    cases Except.ok.inj hrows
    cases Except.ok.inj h
    exact ⟨0, [], le_rfl, .nil, by simp, rfl⟩
  | cons row rows ih =>
    obtain ⟨obj, rest, hobj, hrest, rfl⟩ := mapM_cons_eq_ok.mp hrows
    obtain ⟨item, hitem, h⟩ := bind_eq_ok.mp h
    have hone := sendItem_ok hobj hitem
    have hlength := mapM_length hrest
    dsimp only at h
    split_ifs at h with hstop hmore
    · cases Except.ok.inj h
      refine ⟨1, item.toList, by simp, by simpa using hone, rfl, row, rfl, ?_⟩
      have hpos : rows ≠ [] ∨ more = true := by
        refine hmore.imp_left fun hne hnil => hne ?_
        rw [← List.length_eq_zero_iff, hlength, hnil]
        rfl
      rw [if_pos (hpos.imp_left fun hne => by simpa using List.length_pos_iff.mpr hne),
        (openRow_ok hobj).1]
    · cases Except.ok.inj h
      refine ⟨1, item.toList, by simp, by simpa using hone, rfl, row, rfl, ?_⟩
      rw [if_neg]
      rintro (hlt | hm)
      · refine hmore (Or.inl fun hnil => ?_)
        rw [hnil, List.length_nil] at hlength
        simp only [List.length_cons] at hlt
        omega
      · exact hmore (Or.inr hm)
    · obtain ⟨n, new, hn, hnew, hitems, hstops⟩ := ih hrest h
      refine ⟨n + 1, item.toList ++ new, by simpa using hn, hone.append hnew, ?_, ?_⟩
      · rw [hitems, List.append_assoc]
      · cases stopping with
        | goesOn => simpa using hstops
        | stops next =>
          obtain ⟨last, hlast, hnext⟩ := hstops
          refine ⟨last, ?_, by simpa using hnext⟩
          rw [List.take_succ_cons, List.getLast?_cons, hlast]
          rfl

/-- An object that cannot be sent cannot be shown, or its reader has lost the right to it. -/
def Unsendable (codec : Codec) (grant : Grant) (sealer : SecretsSealer) (row : Row) (e : Stop) :
    Prop :=
  shown codec sealer row = .error e ∨
    ∃ guard now, grant.readGuard = some guard ∧ guard.check now = .error e

theorem sendItem_error {now : Registry} {row : Row} {obj : StoredObject} {e : Stop}
    (hrow : openRow (decodeRowValue sealer) row = .ok obj)
    (h : sendItem codec lib grant now obj = .error e) : Unsendable codec grant sealer row e := by
  rw [Unsendable, shown_eq hrow]
  rcases bind_eq_error.mp h with hstored | ⟨stored, hstored, h⟩
  · exact .inl (bind_eq_error.mpr (.inl hstored))
  · rcases bind_eq_error.mp h with hobject | ⟨value, _, h⟩
    · exact .inl (bind_eq_error.mpr (.inr ⟨stored, hstored, hobject⟩))
    · by_cases hmatch : grant.selection.isMatch lib.text.print value = true
      · rw [if_pos hmatch] at h
        cases hguard : grant.readGuard with
        | none =>
          rw [hguard] at h
          cases h
        | some guard =>
          rw [hguard] at h
          rcases bind_eq_error.mp h with hcheck | ⟨_, _, h⟩
          · exact .inr ⟨guard, now, rfl, hcheck⟩
          · cases h
      · rw [if_neg hmatch] at h
        cases h

/-- A response breaks off at an object that could not be sent. -/
theorem send_error {now : StoreKey → Registry} {limit : ℕ} {more : Bool} {rows : List Row}
    {objs : List StoredObject} (hrows : rows.mapM (openRow (decodeRowValue sealer)) = .ok objs)
    {sent : Sent} {e : Stop} (h : send codec lib grant now limit more objs sent = .error e) :
    ∃ row ∈ rows, Unsendable codec grant sealer row e := by
  induction rows generalizing objs sent with
  | nil =>
    cases Except.ok.inj hrows
    cases h
  | cons row rows ih =>
    obtain ⟨obj, rest, hobj, hrest, rfl⟩ := mapM_cons_eq_ok.mp hrows
    rcases bind_eq_error.mp h with hitem | ⟨item, _, h⟩
    · exact ⟨row, by simp, sendItem_error hobj hitem⟩
    · by_cases hstop : limit ≤ (sent.items ++ item.toList).length ∨ 4096 ≤ sent.scanned + 1
      · rw [if_pos hstop] at h
        cases h
      · rw [if_neg hstop] at h
        obtain ⟨last, hlast, hfound⟩ := ih hrest h
        exact ⟨last, by simp [hlast], hfound⟩

/-! ## What a response covers -/

/-- The live rows of the listed prefix at a revision. -/
abbrev live (target : Target) (revision : ℕ) (log : List Row) : List Row :=
  visible target.pathPrefix revision log

/-- The rows of a snapshot up to a key. -/
abbrev upTo (key : StoreKey) (rows : List Row) : List Row := window keyText "" key.value rows

/-- The revision of a response with more to come, and where it goes on. -/
structure Position (target : Target) (s : Sqlite.State) (revision : ℕ) (key : StoreKey) : Prop where
  positive : 0 < revision
  head : revision ≤ s.tables.revision
  selected : validatePrefix target.pathPrefix = .ok ()
  within : startsWith target.pathPrefix key = true

/-- A store page of such a response is a page of the history, unless compaction has passed it. -/
theorem Position.list {s : Sqlite.State} {revision : ℕ} {next : StoreKey}
    (h : Position target s revision next) (hs : Sqlite.Sound s) (hr : Sqlite.Readable sealer s)
    {sel : ListSelect} (hsel : sel = ⟨target.pathPrefix, some revision, some next, 256⟩) :
    (revision < s.tables.compacted ∧
        Sqlite.list sealer sel s.tables = .error (.compacted revision s.tables.compacted)) ∨
      ∃ page, listPage (decodeRowValue sealer) sel revision (rowsOf s.log) = .ok page ∧
        Sqlite.list sealer sel s.tables = .ok page := by
  subst hsel
  have hcheck : checkList ⟨target.pathPrefix, some revision, some next, 256⟩ = .ok () := by
    simp [checkList, h.selected, h.within, Bind.bind, Except.bind]
  exact Sqlite.list_at hs hr hcheck (listRevision_some h.positive) h.head

/-- `items` are the objects of the first `n` rows of a snapshot, up to `key`, that match. -/
structure Reached (codec : Codec) (lib : Libraries) (grant : Grant) (sealer : SecretsSealer)
    (rows : List Row) (n : ℕ) (key : StoreKey) (items : List Json) : Prop where
  matching : Matching codec lib grant.selection sealer (upTo key rows) items
  count : n ≤ (upTo key rows).length

/-- A client's pages are of one revision. -/
def SameRevision (revision : ℕ) (pages : List Page) : Prop := ∀ p ∈ pages, p.revision = revision

/-- The objects of all pages. -/
abbrev itemsOf (pages : List Page) : List Json := pages.flatMap Page.items

/-- What a client holds, or why it gets no more, with the pages it has. `n` counts the store pages
that were read for it. -/
inductive Standing (codec : Codec) (lib : Libraries) (grant : Grant) (sealer : SecretsSealer)
    (target : Target) (labels fields : String) (s : Sqlite.State) (revision n : ℕ) : Listing → Prop
  | complete {pages : List Page} {last : Page} : pages.getLast? = some last → last.token = "" →
      Matching codec lib grant.selection sealer (live target revision (rowsOf s.log))
        (itemsOf pages) →
      Standing codec lib grant sealer target labels fields s revision n (.paged pages)
  | token {pages : List Page} {last : Page} {key : StoreKey} : pages.getLast? = some last →
      last.token = codec.write ⟨revision, key.value, target.pathPrefix, labels, fields⟩ →
      Position target s revision key →
      Reached codec lib grant sealer (live target revision (rowsOf s.log)) n key (itemsOf pages) →
      Standing codec lib grant sealer target labels fields s revision n (.paged pages)
  | streaming {request : Asked} {next : StoreKey} {sent : Sent} {pages : List Page} :
      Position target s revision next → request.sel.selected = target.pathPrefix →
      request.sel.limit = 256 → request.labels = labels → request.fields = fields →
      Reached codec lib grant sealer (live target revision (rowsOf s.log)) n next
        (itemsOf pages ++ sent.items) →
      Standing codec lib grant sealer target labels fields s revision n
        (.streaming request revision next sent pages)
  | expired {pages : List Page} {floor : ℕ} : revision < floor → floor ≤ s.tables.compacted →
      Standing codec lib grant sealer target labels fields s revision n
        (.refused (storageFailure (.compacted revision floor)) pages)
  | overtaken {pages : List Page} {floor : ℕ} : revision < floor → floor ≤ s.tables.compacted →
      Standing codec lib grant sealer target labels fields s revision n
        (.cut (.snapshot (.compacted revision floor)) pages)
  | unsent {pages : List Page} {e : Stop} {row : Row} :
      row ∈ live target revision (rowsOf s.log) → Unsendable codec grant sealer row e →
      Standing codec lib grant sealer target labels fields s revision n (.cut (.item e) pages)

/-- A list whose first response has named its revision. -/
structure Stands (codec : Codec) (lib : Libraries) (grant : Grant) (sealer : SecretsSealer)
    (target : Target) (labels fields : String) (s : Sqlite.State) (revision n : ℕ)
    (listing : Listing) : Prop where
  same : SameRevision revision listing.pages
  head : revision ≤ s.tables.revision
  count : n ≤ (live target revision (rowsOf s.log)).length + 1
  standing : Standing codec lib grant sealer target labels fields s revision n listing

theorem Reached.count_le {rows : List Row} {n : ℕ} {key : StoreKey} {items : List Json}
    (h : Reached codec lib grant sealer rows n key items) : n ≤ rows.length :=
  h.count.trans (List.length_filter_le _ _)

section Deliver

variable {s : Sqlite.State} {revision n : ℕ} {request : Asked} {start : Option StoreKey}
  {pages : List Page} {sent : Sent}

/-- Reading on from `start`: the rows before it are done, and the next store page is at hand. -/
structure Reads (codec : Codec) (lib : Libraries) (grant : Grant) (sealer : SecretsSealer)
    (target : Target) (s : Sqlite.State) (revision n : ℕ) (start : Option StoreKey)
    (items : List Json) (page : ObjectList) : Prop where
  head : revision ≤ s.tables.revision
  selected : validatePrefix target.pathPrefix = .ok ()
  matching : Matching codec lib grant.selection sealer
    (window keyText "" (startText start) (live target revision (rowsOf s.log))) items
  count : n ≤ (window keyText "" (startText start) (live target revision (rowsOf s.log))).length
  page : listPage (decodeRowValue sealer)
    ⟨target.pathPrefix, some revision, start, 256⟩ revision (rowsOf s.log) = .ok page

/-- The rows up to the last of those just sent. -/
theorem Reads.reached {items new : List Json} {page : ObjectList}
    (h : Reads codec lib grant sealer target s revision n start items page)
    (hs : Sqlite.Sound s) {m : ℕ} {z : Row}
    (hnew : Matching codec lib grant.selection sealer
      (scan keyText m (startText start) (live target revision (rowsOf s.log))) new)
    (hz : (scan keyText m (startText start) (live target revision (rowsOf s.log))).getLast? = some z) :
    Position target s revision z.key ∧
      Reached codec lib grant sealer (live target revision (rowsOf s.log)) (n + 1) z.key
        (items ++ new) := by
  have hasc : Ascending keyText (live target revision (rowsOf s.log)) :=
    visible_ascending hs.ordered
  have hscan := scan_eq_window hasc hz
  obtain ⟨hlive, hlt⟩ := scan_last_gt hz
  have hjoin : window keyText "" (startText start) (live target revision (rowsOf s.log)) ++
      scan keyText m (startText start) (live target revision (rowsOf s.log)) =
        upTo z.key (live target revision (rowsOf s.log)) := by
    rw [hscan, window_append hasc (empty_le_text _) hlt.le]
  obtain ⟨hsnap, _, hunder⟩ := mem_visible.mp hlive
  have hpos : 0 < (scan keyText m (startText start)
      (live target revision (rowsOf s.log))).length :=
    List.length_pos_of_mem (List.mem_of_getLast? hz)
  refine ⟨⟨?_, h.head, h.selected, by rw [startsWith_eq_underPrefix]; exact hunder⟩, ?_, ?_⟩
  · have hrow := hs.positive z (List.mem_of_mem_filter hsnap)
    exact hrow.trans_le (snapshot_le hs.ordered hsnap)
  · rw [← hjoin]
    exact h.matching.append hnew
  · rw [← hjoin, List.length_append]
    have := h.count
    omega

/-- A response that read one more store page stands where its last object is, or is complete. -/
theorem Reads.delivered {page : ObjectList}
    (h : Reads codec lib grant sealer target s revision n start (itemsOf pages ++ sent.items) page)
    (hs : Sqlite.Sound s) (hsame : SameRevision revision pages)
    (hselected : request.sel.selected = target.pathPrefix) (hlimit : request.sel.limit = 256)
    (hlabels : request.labels = labels) (hfields : request.fields = fields)
    (now : StoreKey → Registry) :
    Stands codec lib grant sealer target labels fields s revision (n + 1)
      (deliver codec lib grant target request revision now sent pages page) := by
  have hasc : Ascending keyText (live target revision (rowsOf s.log)) :=
    visible_ascending hs.ordered
  obtain ⟨_, hitems, _⟩ := listPage_ok hs.ordered h.page
  obtain ⟨hend, hlast⟩ := listPage_last hs.ordered (Nat.succ_pos 255) h.page
  have hcount : n + 1 ≤ (live target revision (rowsOf s.log)).length + 1 := by
    have := h.count.trans (List.length_filter_le _ _)
    omega
  have hjoined : ∀ (items : List Json) (next : Option StoreKey),
      SameRevision revision (pages ++ [closed codec target request revision items next]) := by
    intro items next p hp
    rcases List.mem_append.mp hp with hp | hp
    · exact hsame p hp
    · rw [List.mem_singleton.mp hp]
      rfl
  -- What a response that ends here holds in all.
  have hall : ∀ new, Matching codec lib grant.selection sealer
      (scan keyText 256 (startText start) (live target revision (rowsOf s.log))) new →
      page.nextAfter = none → Matching codec lib grant.selection sealer
        (live target revision (rowsOf s.log)) (itemsOf pages ++ sent.items ++ new) := by
    intro new hnew hnone
    have hjoin := window_append_beyond hasc (empty_le_text (startText start))
    rw [beyond_empty] at hjoin
    rw [← hjoin]
    exact h.matching.append (hend hnone ▸ hnew)
  cases hsend : send codec lib grant now request.limit page.nextAfter.isSome page.items sent with
  | error e =>
    obtain ⟨row, hrow, he⟩ := send_error hitems hsend
    simp only [deliver, hsend]
    exact ⟨hsame, h.head, hcount, .unsent (scan_subset hrow).1 he⟩
  | ok result =>
    obtain ⟨sent', stopping⟩ := result
    obtain ⟨m, new, hm, hnew, hsent, hstops⟩ := send_ok hitems hsend
    simp only [deliver, hsend]
    cases stopping with
    | stops next =>
      obtain ⟨row, hrow, rfl⟩ := hstops
      have hscan : (scan keyText 256 (startText start)
          (live target revision (rowsOf s.log))).take m =
            scan keyText m (startText start) (live target revision (rowsOf s.log)) := by
        have hle := hm.trans (scan_length_le 256 _ _)
        rw [scan, List.take_take, min_eq_left hle]
        rfl
      have hnew' := hnew
      rw [hscan] at hnew' hrow
      by_cases hmore : m < (scan keyText 256 (startText start)
          (live target revision (rowsOf s.log))).length ∨ page.nextAfter.isSome = true
      · obtain ⟨hposition, hreached⟩ := h.reached hs hnew' hrow
        rw [if_pos hmore]
        refine ⟨hjoined _ _, h.head, hcount, .token List.getLast?_concat ?_ hposition ?_⟩
        · simp [closed, hlabels, hfields]
        · simpa [itemsOf, closed, hsent] using hreached
      · obtain ⟨hnlt, hnone⟩ := not_or.mp hmore
        rw [if_neg hmore]
        rw [List.take_of_length_le (not_lt.mp hnlt)] at hnew
        have hmatch := hall new hnew (by simpa using hnone)
        refine ⟨hjoined _ _, h.head, hcount, .complete List.getLast?_concat rfl ?_⟩
        simpa [itemsOf, closed, hsent] using hmatch
    | goesOn =>
      obtain rfl : m = _ := hstops
      rw [List.take_length] at hnew
      cases hnext : page.nextAfter with
      | none =>
        have hmatch := hall new hnew hnext
        refine ⟨hjoined _ _, h.head, hcount, .complete List.getLast?_concat rfl ?_⟩
        simpa [itemsOf, closed, hsent] using hmatch
      | some key =>
        obtain ⟨z, hz, rfl⟩ := hlast key hnext
        obtain ⟨hposition, hreached⟩ := h.reached hs hnew hz
        refine ⟨hsame, h.head, hcount,
          .streaming hposition hselected hlimit hlabels hfields ?_⟩
        rw [hsent, ← List.append_assoc]
        exact hreached

end Deliver

/-! ## What other connections leave alone -/

section Mono

variable {s s' : Sqlite.State} {revision n : ℕ} {listing : Listing}

theorem Position.mono {key : StoreKey} (h : Position target s revision key)
    (hrev : s.tables.revision ≤ s'.tables.revision) : Position target s' revision key where
  positive := h.positive
  head := h.head.trans hrev
  selected := h.selected
  within := h.within

/-- Commits and compactions do not change what a list has read. -/
theorem Stands.mono
    (h : Stands codec lib grant sealer target labels fields s revision n listing)
    {new : List Row} (hlog : rowsOf s'.log = rowsOf s.log ++ new)
    (hnew : ∀ v ∈ new, s.tables.revision < v.revision)
    (hrev : s.tables.revision ≤ s'.tables.revision)
    (hfloor : s.tables.compacted ≤ s'.tables.compacted) :
    Stands codec lib grant sealer target labels fields s' revision n listing := by
  have hlive : live target revision (rowsOf s'.log) = live target revision (rowsOf s.log) := by
    rw [hlog]
    exact visible_append fun v hv => h.head.trans_lt (hnew v hv)
  refine ⟨h.same, h.head.trans hrev, hlive ▸ h.count, ?_⟩
  cases h.standing with
  | complete hlast htoken hmatch => exact .complete hlast htoken (hlive ▸ hmatch)
  | token hlast htoken hposition hreached =>
    exact .token hlast htoken (hposition.mono hrev) (hlive ▸ hreached)
  | streaming hposition hselected hlimit hlabels hfields hreached =>
    exact .streaming (hposition.mono hrev) hselected hlimit hlabels hfields (hlive ▸ hreached)
  | expired hlt hle => exact .expired hlt (hle.trans hfloor)
  | overtaken hlt hle => exact .overtaken hlt (hle.trans hfloor)
  | unsent hrow he => exact .unsent (hlive ▸ hrow) he

end Mono

/-! ## The requests of the client -/

section Requests

variable {s : Sqlite.State} {revision n : ℕ} {query : Query} {pages : List Page}

/-- A request that follows a token reads on after its key, at its revision. -/
theorem asked_token {key : StoreKey} {limit rv : Option ℕ}
    (hlabels : labelsOf query = labels) (hfields : fieldsOf query = fields)
    (htoken : tokenOf query =
      some (codec.write ⟨revision, key.value, target.pathPrefix, labels, fields⟩))
    (hlimit : number query "limit" = .ok limit)
    (hrv : number query "resourceVersion" = .ok rv)
    (hagree : ∀ r, rv = some r → r = 0 ∨ r = revision) :
    asked codec target query = .ok ⟨⟨target.pathPrefix, some revision, some key, 256⟩,
      responseLimit limit, labels, fields⟩ := by
  have hkey : Server.key key.value = .ok key := key_ok.mpr rfl
  have hany : (rv.any fun r => decide (r ≠ 0 ∧ r ≠ revision)) = false := by
    cases rv with
    | none => rfl
    | some r => simpa [imp_iff_not_or, or_comm, not_or] using hagree r rfl
  refine bind_eq_ok.mpr ⟨rv, hrv, bind_eq_ok.mpr ⟨limit, hlimit, ?_⟩⟩
  dsimp only
  rw [htoken, hlabels, hfields]
  refine bind_eq_ok.mpr ⟨_, codec.read_write _, ?_⟩
  rw [if_neg (by simp), if_neg (by rw [hany]; simp)]
  exact bind_eq_ok.mpr ⟨key, hkey, rfl⟩

/-- A request without a token starts at the first key. -/
theorem asked_first {request : Asked} (htoken : tokenOf query = none)
    (h : asked codec target query = .ok request) :
    ∃ rv, request.sel = ⟨target.pathPrefix, rv, none, 256⟩ ∧ request.labels = labelsOf query ∧
      request.fields = fieldsOf query := by
  obtain ⟨rv, _, h⟩ := bind_eq_ok.mp h
  obtain ⟨limit, _, h⟩ := bind_eq_ok.mp h
  dsimp only at h
  rw [htoken] at h
  cases Except.ok.inj h
  exact ⟨rv, rfl, rfl, rfl⟩

/-- Following a token reads on, or finds the revision compacted. -/
theorem Stands.asked {now : StoreKey → Registry}
    (h : Stands codec lib grant sealer target labels fields s revision n (.paged pages))
    (hs : Sqlite.Sound s) (hr : Sqlite.Readable sealer s)
    (hfollows : Follows labels fields ⟨s, .paged pages⟩ (.ask query now)) :
    Stands codec lib grant sealer target labels fields s revision (n + 1)
      (ask codec lib grant sealer target query now pages s.tables) := by
  obtain ⟨hlabels, hfields, hnext⟩ := hfollows
  cases h.standing with
  | complete hlast hempty _ =>
    simp only [Listing.pages, hlast] at hnext
    exact absurd hempty hnext.1
  | @token _ last key hlast htoken hposition hreached =>
    simp only [Listing.pages, hlast] at hnext
    obtain ⟨hne, hcontinue, ⟨rv, hrv, hagree⟩, limit, hlimit⟩ := hnext
    have hcount : n + 1 ≤ (live target revision (rowsOf s.log)).length + 1 := by
      have := hreached.count_le
      omega
    have hquery : tokenOf query =
        some (codec.write ⟨revision, key.value, target.pathPrefix, labels, fields⟩) := by
      rw [tokenOf, hcontinue, ← htoken]
      simp [hne]
    rw [h.same last (List.mem_of_getLast? hlast)] at hagree
    have hasked : Lists.asked codec target query = .ok ⟨⟨target.pathPrefix, some revision, some key, 256⟩,
        responseLimit limit, labels, fields⟩ :=
      asked_token hlabels hfields hquery hlimit hrv hagree
    rcases hposition.list hs hr rfl with ⟨hlt, he⟩ | ⟨page, hpage, hok⟩
    · simp only [ask, hasked, he]
      exact ⟨h.same, h.head, hcount, .expired hlt le_rfl⟩
    · simp only [ask, hasked, hok]
      have hreads : Reads codec lib grant sealer target s revision n (some key)
          (itemsOf pages ++ []) page := by
        refine ⟨h.head, hposition.selected, ?_, hreached.count, hpage⟩
        rw [List.append_nil]
        exact hreached.matching
      rw [(listPage_ok hs.ordered hpage).1]
      refine hreads.delivered hs h.same ?_ ?_ ?_ ?_ now <;> rfl

/-- An open response reads on, or breaks off because its revision was compacted. -/
theorem Stands.resumed {now : StoreKey → Registry} {request : Asked} {next : StoreKey} {sent : Sent}
    (h : Stands codec lib grant sealer target labels fields s revision n
      (.streaming request revision next sent pages))
    (hs : Sqlite.Sound s) (hr : Sqlite.Readable sealer s) :
    Stands codec lib grant sealer target labels fields s revision (n + 1)
      (resume codec lib grant sealer target request revision next now sent pages s.tables) := by
  cases h.standing with
  | streaming hposition hselected hlimit hlabels hfields hreached =>
    have hcount : n + 1 ≤ (live target revision (rowsOf s.log)).length + 1 := by
      have := hreached.count_le
      omega
    have hsel : { request.sel with atRevision := some revision, startAfter := some next } =
        (⟨target.pathPrefix, some revision, some next, 256⟩ : ListSelect) := by
      dsimp only
      rw [hselected, hlimit]
    rcases hposition.list hs hr hsel with ⟨hlt, he⟩ | ⟨page, hpage, hok⟩
    · simp only [resume, he]
      exact ⟨h.same, h.head, hcount, .overtaken hlt le_rfl⟩
    · simp only [resume, hok]
      rw [hsel] at hpage
      have hreads : Reads codec lib grant sealer target s revision n (some next)
          (itemsOf pages ++ sent.items) page :=
        ⟨h.head, hposition.selected, hreached.matching, hreached.count, hpage⟩
      exact hreads.delivered hs h.same hselected hlimit hlabels hfields now

/-- The first request names the revision of the list, or is refused. -/
theorem asked_stands {now : StoreKey → Registry} (hs : Sqlite.Sound s)
    (hr : Sqlite.Readable sealer s) (hlabels : labelsOf query = labels)
    (hfields : fieldsOf query = fields) (htoken : tokenOf query = none) :
    (∃ e, ask codec lib grant sealer target query now [] s.tables = .refused e []) ∨
      ∃ revision, Stands codec lib grant sealer target labels fields s revision 1
        (ask codec lib grant sealer target query now [] s.tables) := by
  cases hasked : asked codec target query with
  | error e => exact .inl ⟨e, by rw [ask, hasked]⟩
  | ok request =>
    obtain ⟨rv, hsel, hrequest⟩ := asked_first htoken hasked
    cases hlist : Sqlite.list sealer request.sel s.tables with
    | error e => exact .inl ⟨storageFailure e, by simp only [ask, hasked, hlist]⟩
    | ok page =>
      rw [hsel] at hlist
      obtain ⟨hcheck, _, hhead⟩ := Sqlite.list_checked hlist
      obtain ⟨⟨⟩, hselected, _⟩ := bind_eq_ok.mp hcheck
      rcases Sqlite.list_at hs hr hcheck rfl hhead with ⟨_, he⟩ | ⟨page', hpage, hok⟩
      · rw [he] at hlist
        cases hlist
      · cases hok.symm.trans hlist
        refine .inr ⟨page.revision, ?_⟩
        have hrevision := (listPage_ok hs.ordered hpage).1
        have hreads : Reads codec lib grant sealer target s page.revision 0 none
            (itemsOf [] ++ []) page := by
          refine ⟨by rw [hrevision]; exact hhead, hselected, ?_, Nat.zero_le _, ?_⟩
          · rw [startText, Option.map_none, Option.getD_none, window_eq_nil le_rfl]
            exact .nil
          · rw [← hrevision] at hpage
            exact hpage
        simp only [ask, hasked, hsel, hlist]
        refine hreads.delivered hs (by simp [SameRevision]) ?_ ?_ ?_ ?_ now
        · rw [hsel]
        · rw [hsel]
        · rw [hrequest.1, hlabels]
        · rw [hrequest.2, hfields]

end Requests

/-! ## Whole runs -/

/-- How many store pages were read for the client. -/
def reads (ls : List Label) : ℕ := ls.countP Label.lists

/-- Where a client that follows the tokens can be. -/
inductive Reachable (codec : Codec) (lib : Libraries) (grant : Grant) (sealer : SecretsSealer)
    (target : Target) (labels fields : String) (s : System) (n : ℕ) : Prop
  | unasked : s.listing = .paged [] → n = 0 →
      Reachable codec lib grant sealer target labels fields s n
  | turnedAway (e : Stop) : s.listing = .refused e [] →
      Reachable codec lib grant sealer target labels fields s n
  | stands (revision : ℕ) :
      Stands codec lib grant sealer target labels fields s.store revision n s.listing →
      Reachable codec lib grant sealer target labels fields s n

/-- The steps of the storage are those of its own machine. -/
theorem run_store {guard : System → Label → Prop} {s : System} {ls : List Label}
    (h : Run (step codec lib grant sealer target) guard .initial ls s) :
    ∃ ms, AnyRun (Sqlite.step sealer) .initial ms s.store := by
  induction h with
  | nil => exact ⟨[], .nil⟩
  | @snoc ls s s' l _ _ hstep ih =>
    obtain ⟨ms, hrun⟩ := ih
    cases l with
    | storage l =>
      obtain ⟨store, hstore, rfl⟩ := Option.map_eq_some_iff.mp hstep
      exact ⟨ms ++ [l], hrun.snoc trivial hstore⟩
    | ask query now =>
      simp only [step] at hstep
      split at hstep <;> cases hstep
      exact ⟨ms, hrun⟩
    | resume now =>
      simp only [step] at hstep
      split at hstep <;> cases hstep
      exact ⟨ms, hrun⟩

theorem run_stands {s : System} {ls : List Label}
    (h : Run (step codec lib grant sealer target) (Follows labels fields) .initial ls s) :
    Reachable codec lib grant sealer target labels fields s (reads ls) := by
  induction h with
  | nil => exact .unasked rfl rfl
  | @snoc ls s s' l hrun hfollows hstep ih =>
    obtain ⟨ms, hstore⟩ := run_store hrun
    have hs := Sqlite.reachable_sound hstore
    have hr := Sqlite.reachable_readable hstore
    cases l with
    | storage l =>
      obtain ⟨store, hstore, rfl⟩ := Option.map_eq_some_iff.mp hstep
      have hreads : reads (ls ++ [.storage l]) = reads ls := by
        simp [reads, Label.lists]
      rw [hreads]
      cases ih with
      | unasked hlisting hzero => exact .unasked hlisting hzero
      | turnedAway e hlisting => exact .turnedAway e hlisting
      | stands revision hstands =>
        obtain ⟨t', commit, session', hmove, rfl⟩ := Sqlite.step_cases hstore
        obtain ⟨hnew, hrev⟩ := hmove.touches.log
        refine .stands revision (hstands.mono (List.map_append ..) (fun v hv => ?_) ?_
          hmove.touches.floor)
        · rw [hnew v hv]
          exact Nat.lt_succ_self _
        · rw [hrev]
          exact Nat.le_add_right _ _
    | ask query now =>
      have hreads : reads (ls ++ [.ask query now]) = reads ls + 1 := by
        simp [reads, Label.lists]
      rw [hreads]
      cases hlisting : s.listing with
      | paged pages =>
        simp only [step, hlisting] at hstep
        cases hstep
        cases ih with
        | unasked hnone hzero =>
          rw [hlisting] at hnone
          cases hnone
          simp only [Follows, hlisting, Listing.pages, List.getLast?_nil] at hfollows
          obtain ⟨hlabels, hfields, htoken⟩ := hfollows
          rw [hzero]
          have hfirst : (∃ e, ask codec lib grant sealer target query now [] s.store.tables =
                .refused e []) ∨
              ∃ revision, Stands codec lib grant sealer target labels fields s.store revision 1
                (ask codec lib grant sealer target query now [] s.store.tables) :=
            asked_stands hs hr hlabels hfields htoken
          rcases hfirst with ⟨e, he⟩ | ⟨revision, hstands⟩
          · exact .turnedAway e he
          · exact .stands revision hstands
        | turnedAway e hrefused =>
          rw [hlisting] at hrefused
          cases hrefused
        | stands revision hstands =>
          rw [hlisting] at hstands
          refine .stands revision (hstands.asked hs hr ?_)
          simpa only [Follows, hlisting] using hfollows
      | _ =>
        simp only [step, hlisting] at hstep
        cases hstep
    | resume now =>
      have hreads : reads (ls ++ [.resume now]) = reads ls + 1 := by
        simp [reads, Label.lists]
      rw [hreads]
      cases hlisting : s.listing with
      | streaming request revision next sent pages =>
        simp only [step, hlisting] at hstep
        cases hstep
        cases ih with
        | unasked hnone _ =>
          rw [hlisting] at hnone
          cases hnone
        | turnedAway e hrefused =>
          rw [hlisting] at hrefused
          cases hrefused
        | stands revision' hstands =>
          rw [hlisting] at hstands
          cases hstands.standing with
          | streaming => exact .stands revision (hstands.resumed hs hr)
      | _ =>
        simp only [step, hlisting] at hstep
        cases hstep

theorem run_of_store {s : Sqlite.State} {ms : List (ℕ × Sqlite.Action)}
    (h : AnyRun (Sqlite.step sealer) .initial ms s) :
    Run (step codec lib grant sealer target) (Follows labels fields) .initial
      (ms.map .storage) ⟨s, .paged []⟩ := by
  induction h with
  | nil => exact .nil
  | snoc _ _ hstep ih =>
    rw [List.map_append]
    exact ih.snoc trivial (by simp [step, hstep])

/-- The objects that are live at the revision and match: each once, in key order. -/
def IsSnapshot (codec : Codec) (lib : Libraries) (selection : Selection) (sealer : SecretsSealer)
    (target : Target) (revision : ℕ) (log : List Row) (items : List Json) : Prop :=
  ∃ rows, Ascending keyText rows ∧
    (∀ v, v ∈ rows ↔ latestAt v.key revision log = some v ∧ isLive v = true ∧
      underPrefix target.pathPrefix v.key = true) ∧
    Matching codec lib selection sealer rows items

/-- Where following the tokens of a list at `revision` can end: with the whole snapshot, with the
answer that the revision is compacted, or with a response that breaks off because compaction
passed the revision while it was sent, or because one of its objects could not be sent. -/
def Ends (codec : Codec) (lib : Libraries) (grant : Grant) (sealer : SecretsSealer)
    (target : Target) (revision : ℕ) (s : Sqlite.State) : Listing → Prop
  | .paged pages => ∀ last, pages.getLast? = some last → last.token = "" →
      IsSnapshot codec lib grant.selection sealer target revision (rowsOf s.log) (itemsOf pages)
  | .streaming _ _ _ _ _ => True
  | .refused e _ => ∃ floor, e = storageFailure (.compacted revision floor) ∧ revision < floor ∧
      floor ≤ s.tables.compacted
  | .cut (.snapshot e) _ => ∃ floor, e = .compacted revision floor ∧ revision < floor ∧
      floor ≤ s.tables.compacted
  | .cut (.item e) _ => ∃ row ∈ live target revision (rowsOf s.log),
      Unsendable codec grant sealer row e

theorem live_isSnapshot {revision : ℕ} {log : List Row} (ho : Ordered log) {items : List Json}
    {selection : Selection}
    (h : Matching codec lib selection sealer (live target revision log) items) :
    IsSnapshot codec lib selection sealer target revision log items := by
  refine ⟨_, visible_ascending ho, fun v => ?_, h⟩
  rw [mem_visible, mem_snapshot ho]

theorem Standing.ends {s : Sqlite.State} {revision n : ℕ} {listing : Listing}
    (h : Standing codec lib grant sealer target labels fields s revision n listing)
    (ho : Ordered (rowsOf s.log)) : Ends codec lib grant sealer target revision s listing := by
  cases h with
  | complete _ _ hmatch => exact fun _ _ _ => live_isSnapshot ho hmatch
  | token hlast htoken _ _ =>
    intro last hlast' hempty
    cases hlast.symm.trans hlast'
    exact absurd (htoken.symm.trans hempty) (codec.write_ne _)
  | streaming => trivial
  | expired hlt hle => exact ⟨_, rfl, hlt, hle⟩
  | overtaken hlt hle => exact ⟨_, rfl, hlt, hle⟩
  | unsent hrow he => exact ⟨_, hrow, he⟩

/-- An object without a name, which the examples store everywhere. -/
def nameless : Json := .object [("metadata", .object [])]

def podsTarget : Target := ⟨⟨"", "v1", "pods", "Pod", true⟩, some "test", none, none⟩

/-- Pods in one namespace, all nameless. -/
def somePods (n : ℕ) : List StoredObject := Sqlite.batch "pods" (by decide) [1] n

theorem somePods_keys (n : ℕ) : ((somePods n).map StoredObject.key).Nodup :=
  Sqlite.batch_keys _ _ _ _

theorem length_somePods (n : ℕ) : (somePods n).length = n := by simp [somePods, Sqlite.batch]

theorem somePods_created {n : ℕ} (hn : n ≤ maxRevision) :
    ∃ s ms, AnyRun (Sqlite.step unsealed) .initial ms s ∧
      s.tables = ⟨n, 0, Sqlite.createdRows (somePods n), []⟩ ∧
      rowsOf s.log = Sqlite.createdRows (somePods n) ∧ ∀ i, n ≤ i → s.sessions i = .idle := by
  have hplain : ∀ obj ∈ somePods n, isSecretKey obj.key = false ∧ hasEnvelope obj.value = false := by
    intro obj hobj
    obtain ⟨i, _, rfl⟩ := List.mem_map.mp hobj
    exact ⟨Sqlite.isSecretKey_nthKey (h := by decide) (by decide) i, rfl⟩
  obtain ⟨s, hrun, htables, hlog, hidle⟩ := Sqlite.creates_run (somePods n) (somePods_keys n) hplain
    (by rwa [length_somePods])
  rw [length_somePods] at htables hidle
  exact ⟨s, _, hrun, htables, hlog, hidle⟩

/-- A client that follows the tokens of a first page gets pages of one revision. The store is read
for it at most once more than there are live objects at that revision, and at the end it holds
them all, once each and in key order, unless the revision was compacted or an object could not be
sent. -/
theorem pages_join_to_snapshot (codec : Codec) (lib : Libraries) (grant : Grant)
    (sealer : SecretsSealer) (target : Target) (labels fields : String) {s : System}
    {ls : List Label}
    (h : Run (step codec lib grant sealer target) (Follows labels fields) .initial ls s) :
    s.listing = .paged [] ∨ (∃ e, s.listing = .refused e []) ∨
      ∃ revision, (∀ page ∈ s.listing.pages, page.revision = revision) ∧
        reads ls ≤ (live target revision (rowsOf s.store.log)).length + 1 ∧
        Ends codec lib grant sealer target revision s.store s.listing := by
  obtain ⟨ms, hstore⟩ := run_store h
  have hs := Sqlite.reachable_sound hstore
  cases run_stands h with
  | unasked hlisting _ => exact .inl hlisting
  | turnedAway e hlisting => exact .inr (.inl ⟨e, hlisting⟩)
  | stands revision hstands =>
    exact .inr (.inr ⟨revision, hstands.same, hstands.count, hstands.standing.ends hs.ordered⟩)

theorem two_pods_listed : ∃ (s : System) (ls : List Label),
    s.listing.pages.map (fun page => (page.items.length, page.revision)) = [(2, 2)] ∧
      (s.listing = .paged [] ∨ (∃ e, s.listing = .refused e []) ∨
        ∃ revision, (∀ page ∈ s.listing.pages, page.revision = revision) ∧
          reads ls ≤ (live podsTarget revision (rowsOf s.store.log)).length + 1 ∧
          Ends (.plain [.null, nameless]) (.plain []) ⟨⟨[], []⟩, none⟩ unsealed podsTarget revision
            s.store s.listing) := by
  let now : StoreKey → Registry := fun _ => .empty
  obtain ⟨s, ms, hrun, htables, _, _⟩ := somePods_created (show 2 ≤ maxRevision by decide)
  have hrun₀ : Run (step (.plain [.null, nameless]) (.plain []) ⟨⟨[], []⟩, none⟩ unsealed podsTarget)
      (Follows "" "") .initial _ ⟨s, .paged []⟩ := run_of_store hrun
  have hfollows : Follows "" "" ⟨s, .paged []⟩ (.ask ⟨[], []⟩ now) := ⟨rfl, rfl, rfl⟩
  have hrun₁ := hrun₀.snoc hfollows rfl
  refine ⟨_, _, ?_, pages_join_to_snapshot _ _ _ _ _ _ _ hrun₁⟩
  rw [htables]
  rfl

/-! ## A list that compaction overtakes -/

/-- A response that has room for a whole store page reads on. -/
theorem send_goesOn {now : StoreKey → Registry} {limit : ℕ} {more : Bool} {objs : List StoredObject}
    {sent : Sent} (hitems : ∀ obj ∈ objs, ∃ item, sendItem codec lib grant (now obj.key) obj = .ok item)
    (hroom : sent.items.length + objs.length < limit) (hscan : sent.scanned + objs.length < 4096) :
    ∃ sent', send codec lib grant now limit more objs sent = .ok (sent', .goesOn) := by
  induction objs generalizing sent with
  | nil => exact ⟨sent, rfl⟩
  | cons obj rest ih =>
    obtain ⟨item, hitem⟩ := hitems obj (by simp)
    rw [List.length_cons] at hroom hscan
    have hone : item.toList.length ≤ 1 := by cases item <;> simp
    have hlength : (sent.items ++ item.toList).length = sent.items.length + item.toList.length :=
      List.length_append
    have hgo : ¬ (limit ≤ (sent.items ++ item.toList).length ∨ 4096 ≤ sent.scanned + 1) := by
      omega
    obtain ⟨sent', hsent⟩ : ∃ sent', send codec lib grant now limit more rest
        ⟨sent.items ++ item.toList, sent.scanned + 1⟩ = .ok (sent', .goesOn) := by
      refine ih (fun o ho => hitems o (by simp [ho])) ?_ ?_
      · rw [hlength]
        omega
      · change sent.scanned + 1 + rest.length < 4096
        omega
    refine ⟨sent', bind_eq_ok.mpr ⟨item, hitem, ?_⟩⟩
    dsimp only
    rw [if_neg hgo]
    exact hsent

/-- The pods of the example are shown. -/
theorem send_batch {n : ℕ} {row : Row}
    (hrow : row ∈ Sqlite.createdRows (somePods n)) {obj : StoredObject}
    (hobj : openRow (decodeRowValue unsealed) row = .ok obj) (now : Registry) :
    ∃ item, sendItem (.plain [.null, nameless]) (.plain []) ⟨⟨[], []⟩, none⟩ now obj = .ok item := by
  obtain ⟨_, _, o, ho, _, hbytes⟩ := Sqlite.mem_createdRows hrow
  obtain ⟨i, _, rfl⟩ := List.mem_map.mp ho
  obtain ⟨_, _, hvalue⟩ := openRow_ok hobj
  rw [hbytes] at hvalue
  obtain ⟨key, value, revision⟩ := obj
  cases Except.ok.inj hvalue
  exact ⟨_, rfl⟩

theorem batch_under (n : ℕ) : ∀ obj ∈ somePods n,
    underPrefix podsTarget.pathPrefix obj.key = true := by
  intro obj hobj
  obtain ⟨i, _, rfl⟩ := List.mem_map.mp hobj
  rw [← startsWith_eq_underPrefix, startsWith, List.isPrefixOf_iff_prefix]
  refine ⟨List.replicate (i + 1) 'a', ?_⟩
  simp [Sqlite.nthKey, podsTarget, Target.pathPrefix, String.toList_append]

/-- A list with room for everything reads the first 256 pods and has more to read. -/
theorem first_pods_streaming {s : Sqlite.State} {ms : List (ℕ × Sqlite.Action)}
    (hrun : AnyRun (Sqlite.step unsealed) .initial ms s)
    (htables : s.tables = ⟨257, 0, Sqlite.createdRows (somePods 257), []⟩)
    (hlog : rowsOf s.log = Sqlite.createdRows (somePods 257))
    (now : StoreKey → Registry) :
    ∃ request next sent, request.sel.selected = podsTarget.pathPrefix ∧ request.sel.limit = 256 ∧
      ask (.plain [.null, nameless]) (.plain []) ⟨⟨[], []⟩, none⟩ unsealed podsTarget
        ⟨[("limit", "4096")], []⟩ now [] s.tables = .streaming request 257 next sent [] := by
  have hs := Sqlite.reachable_sound hrun
  have hasked : asked (.plain [.null, nameless]) podsTarget ⟨[("limit", "4096")], []⟩ =
      .ok ⟨⟨podsTarget.pathPrefix, none, none, 256⟩, 4096, "", ""⟩ := rfl
  have hrev : listRevision none s.tables.revision = 257 := by
    rw [htables]
    rfl
  have hcheck : checkList ⟨podsTarget.pathPrefix, none, none, 256⟩ = .ok () := by decide
  rcases Sqlite.list_at hs (Sqlite.reachable_readable hrun) hcheck hrev (by rw [htables]) with
    ⟨hlt, _⟩ | ⟨page, hpage, hlist⟩
  · rw [htables] at hlt
    exact absurd hlt (by decide)
  · obtain ⟨hrevision, hitems, _⟩ := listPage_ok hs.ordered hpage
    have hperm := Sqlite.visible_created (somePods_keys 257) (batch_under 257) hrun hlog
    rw [length_somePods, ← hlog] at hperm
    have hrest : (beyond keyText "" (live podsTarget 257 (rowsOf s.log))).length = 257 := by
      rw [beyond_empty, hperm.length_eq, hlog, Sqlite.length_createdRows, length_somePods]
    have hfull : page.items.length = 256 := by
      rw [mapM_length hitems]
      change ((beyond keyText "" (live podsTarget 257 (rowsOf s.log))).take 256).length = 256
      rw [List.length_take, hrest]
      rfl
    have hsends : ∀ obj ∈ page.items, ∃ item, sendItem (.plain [.null, nameless]) (.plain [])
        ⟨⟨[], []⟩, none⟩ (now obj.key) obj = .ok item := by
      intro obj hobj
      obtain ⟨row, hrow, hopen⟩ := mapM_mem hitems hobj
      have hmem := hperm.subset (scan_subset hrow).1
      rw [hlog] at hmem
      exact send_batch hmem hopen _
    obtain ⟨sent', hsent⟩ : ∃ sent', send (.plain [.null, nameless]) (.plain []) ⟨⟨[], []⟩, none⟩
        now 4096 page.nextAfter.isSome page.items ⟨[], 0⟩ = .ok (sent', .goesOn) :=
      send_goesOn hsends (by simp [hfull]) (by simp [hfull])
    obtain ⟨next, hnext⟩ : ∃ next, page.nextAfter = some next := by
      cases hnext : page.nextAfter with
      | some next => exact ⟨next, rfl⟩
      | none =>
        have hscan := (listPage_last hs.ordered (Nat.succ_pos 255) hpage).1 hnext
        have hitems' := mapM_length hitems
        rw [hscan] at hitems'
        change _ = (beyond keyText "" (live podsTarget 257 (rowsOf s.log))).length at hitems'
        omega
    refine ⟨⟨⟨podsTarget.pathPrefix, none, none, 256⟩, 4096, "", ""⟩, next, sent', rfl, rfl, ?_⟩
    rw [hnext] at hsent
    simp only [ask, hasked, hlist, deliver, hsent, hnext, hrevision]

/-- One more pod takes the next revision, and the registry can be compacted there. -/
theorem compacts_past_batch {n : ℕ} {s : Sqlite.State} {ms : List (ℕ × Sqlite.Action)}
    (hn : n + 1 < maxRevision) (hrun : AnyRun (Sqlite.step unsealed) .initial ms s)
    (htables : s.tables = ⟨n, 0, Sqlite.createdRows (somePods n), []⟩)
    (hlog : rowsOf s.log = Sqlite.createdRows (somePods n))
    (hidle : ∀ i, n ≤ i → s.sessions i = .idle) :
    ∃ l₁ l₂ s₁ s₂, Sqlite.step unsealed s l₁ = some s₁ ∧ Sqlite.step unsealed s₁ l₂ = some s₂ ∧
      s₂.tables.compacted = n + 1 := by
  let extra : StoredObject := ⟨Sqlite.nthKey "pods" (by decide) n, [1], 0⟩
  let row : Row := ⟨extra.key, n + 1, ⟨[1], 0⟩⟩
  have hnew : ∀ v ∈ rowsOf s.log, v.key ≠ extra.key := by
    intro v hv hkey
    rw [hlog] at hv
    obtain ⟨_, _, obj, hobj, hobjkey, _⟩ := Sqlite.mem_createdRows hv
    obtain ⟨i, hi, rfl⟩ := List.mem_map.mp hobj
    have hsame := Sqlite.nthKey_injective "pods" (by decide) (hobjkey.symm.trans hkey)
    rw [List.mem_range, hsame] at hi
    exact hi.false
  have htx : Sqlite.mutateTx unsealed 0 (.create extra) s.tables =
      .ok (⟨n + 1, 0, Sqlite.createdRows (somePods n) ++ [row], []⟩, row, [1]) := by
    have hs : Consistent (rowsOf s.log) s.tables.compacted s.tables := Sqlite.reachable_sound hrun
    rw [htables] at hs
    have hplain := Sqlite.isSecretKey_nthKey (h := show validSegment "pods".toList = true by decide)
      (by decide) n
    rw [htables]
    exact Sqlite.mutateTx_create hs hnew hplain rfl ((Nat.lt_succ_self n).trans hn)
  have hstep : Sqlite.step unsealed s (n, .begin (.mutate 0 (.create extra))) =
      some ⟨⟨n + 1, 0, Sqlite.createdRows (somePods n) ++ [row], []⟩,
        s.log ++ [⟨.create extra, row⟩], Function.update s.sessions n (.reporting row [1])⟩ := by
    simp only [Sqlite.step, hidle n le_rfl, Sqlite.Session.ready, if_true, Sqlite.startCall, htx]
    rfl
  have hcompact : Sqlite.compactTx (n + 1) ⟨n + 1, 0, Sqlite.createdRows (somePods n) ++ [row], []⟩ =
      .ok ⟨n + 1, n + 1, VersionLog.compact (n + 1) (Sqlite.createdRows (somePods n) ++ [row]), []⟩ := by
    simp [Sqlite.compactTx, revisionI64, hn.le, Bind.bind, Except.bind, pure, Except.pure]
  have hidle' : Function.update s.sessions n (.reporting row [1]) (n + 1) = .idle := by
    rw [Function.update_of_ne (Nat.succ_ne_self n)]
    exact hidle (n + 1) (Nat.le_succ n)
  have hstep' : Sqlite.step unsealed ⟨⟨n + 1, 0, Sqlite.createdRows (somePods n) ++ [row], []⟩,
      s.log ++ [⟨.create extra, row⟩], Function.update s.sessions n (.reporting row [1])⟩
      (n + 1, .begin (.compact (n + 1))) = some
        ⟨⟨n + 1, n + 1, VersionLog.compact (n + 1) (Sqlite.createdRows (somePods n) ++ [row]), []⟩,
          s.log ++ [⟨.create extra, row⟩] ++ [],
          Function.update (Function.update s.sessions n (.reporting row [1])) (n + 1)
            (.done .compacted)⟩ := by
    simp only [Sqlite.step, hidle', Sqlite.Session.ready, if_true, Sqlite.startCall, hcompact]
    rfl
  exact ⟨_, _, _, _, hstep, hstep', rfl⟩

/-- Not every list ends with the whole snapshot or an answer that says it is compacted: compaction
may pass the revision while the second store page of a response is still to be read. -/
theorem overtaken_list_cut : ¬ ∀ (s : System) (ls : List Label),
    Run (step (.plain [.null, nameless]) (.plain []) ⟨⟨[], []⟩, none⟩ unsealed podsTarget)
      (Follows "" "") .initial ls s → ∀ cause pages, s.listing ≠ .cut cause pages := by
  intro hclaim
  let now : StoreKey → Registry := fun _ => .empty
  obtain ⟨s, ms, hrun, htables, hlog, hidle⟩ := somePods_created (show 257 ≤ maxRevision by decide)
  obtain ⟨request, next, sent, _, _, hask⟩ := first_pods_streaming hrun htables hlog now
  obtain ⟨l₁, l₂, s₁, s₂, hstep₁, hstep₂, hfloor⟩ :=
    compacts_past_batch (by decide) hrun htables hlog hidle
  let listing : Listing := .streaming request 257 next sent []
  have hrun₀ : Run (step (.plain [.null, nameless]) (.plain []) ⟨⟨[], []⟩, none⟩ unsealed podsTarget)
      (Follows "" "") .initial _ ⟨s, .paged []⟩ := run_of_store hrun
  have hfollows : Follows "" "" ⟨s, .paged []⟩ (.ask ⟨[("limit", "4096")], []⟩ now) :=
    ⟨rfl, rfl, rfl⟩
  have hrun₁ := hrun₀.snoc (u := ⟨s, listing⟩) hfollows (by simp only [step, hask, listing])
  have hrun₂ := hrun₁.snoc (u := ⟨s₁, listing⟩) (show Follows "" "" _ (.storage l₁) from trivial)
    (by simp only [step, hstep₁, Option.map_some])
  have hrun₃ := hrun₂.snoc (u := ⟨s₂, listing⟩) (show Follows "" "" _ (.storage l₂) from trivial)
    (by simp only [step, hstep₂, Option.map_some])
  have hrun₄ := hrun₃.snoc (show Follows "" "" _ (.resume now) from trivial) rfl
  cases hlist : Sqlite.list unsealed
      { request.sel with atRevision := some 257, startAfter := some next } s₂.tables with
  | ok page =>
    obtain ⟨_, hle, _⟩ := Sqlite.list_checked hlist
    rw [hfloor, listRevision_some (by decide)] at hle
    exact absurd hle (by decide)
  | error e =>
    refine hclaim _ _ hrun₄ (.snapshot e) [] ?_
    simp only [resume, hlist]

end Hedronetes.Server.Lists
