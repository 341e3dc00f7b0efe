import Hedronetes.Storage.PostgresInvariant
import Hedronetes.Storage.SqliteInvariant

/-!
# Custody and what reads return

Writes seal by key and reads open by marker. A version reads back as its payload when
its key is a Secret's, when the payload does not look sealed, or when opening gives it
back; a payload of another resource that looks sealed is opened although nobody sealed
it. Rows of Secrets are sealed in every case.
-/

namespace Hedronetes.Storage

open VersionLog CursorScan Fallible Runs

/-- A sealer that opens what it has sealed, and marks it. -/
def Lawful (sealer : SecretsSealer) : Prop :=
  ∀ draw payload sealed, sealer.sealBytes draw payload = .ok sealed →
    hasEnvelope sealed = true ∧ sealer.openBytes sealed = .ok payload

/-- The payloads that custody leaves as they are. -/
def Transparent (sealer : SecretsSealer) (m : Mutation) : Prop :=
  isSecretKey m.obj.key = true ∨ hasEnvelope m.obj.value = false ∨
    sealer.openBytes m.obj.value = .ok m.obj.value

/-- An object that names the version of a commit has its payload. -/
def Shows (c : Commit) (obj : StoredObject) : Prop :=
  obj.key = c.row.key → obj.revision = c.row.revision → obj.value = c.mutation.obj.value

/-- Both objects of an event do. -/
def ShowsEvent (c : Commit) (e : WatchEvent) : Prop :=
  (∀ obj, e.object = some obj → Shows c obj) ∧ ∀ obj, e.previous = some obj → Shows c obj

/-- An object that is a row of the history with its value opened. -/
def Genuine (openValue : Bytes → Result Bytes) (log : List Row) (obj : StoredObject) : Prop :=
  ∃ v ∈ log, obj.key = v.key ∧ obj.revision = v.revision ∧ openValue v.value.bytes = .ok obj.value

/-- An event whose objects are such rows. -/
def GenuineEvent (openValue : Bytes → Result Bytes)
    (openPrevious : StoreKey → Bytes → Result Bytes) (log : List Row) (e : WatchEvent) : Prop :=
  (∀ obj, e.object = some obj → Genuine openValue log obj) ∧
    ∀ obj, e.previous = some obj → Genuine (openPrevious obj.key) log obj

section Custody

variable {sealer : SecretsSealer}

/-- A write reads back as its payload exactly when custody leaves it as it is. -/
theorem Written.decode_iff (hl : Lawful sealer) {log : List Row} {m : Mutation} {row : Row}
    (h : Written sealer log m row) (hm : m.deletes = false) :
    decodeRowValue sealer row.value.bytes = .ok m.obj.value ↔ Transparent sealer m := by
  obtain ⟨draw, hseal⟩ := h.sealed hm
  unfold sealValue at hseal
  unfold decodeRowValue Transparent
  by_cases hkey : isSecretKey m.obj.key = true
  · rw [if_pos hkey] at hseal
    obtain ⟨hmark, hopen⟩ := hl _ _ _ hseal
    simp [hkey, hmark, hopen]
  · rw [if_neg hkey] at hseal
    rw [← Except.ok.inj hseal]
    by_cases hmark : hasEnvelope m.obj.value = true
    · simp [hkey, hmark]
    · simp [hmark]

/-- As a predecessor SQLite reads every write back: it opens by key and marker. -/
theorem Written.decodePrevious (hl : Lawful sealer) {log : List Row} {m : Mutation} {row : Row}
    (h : Written sealer log m row) (hm : m.deletes = false) :
    decodePrevious sealer row.key row.value.bytes = .ok m.obj.value := by
  obtain ⟨draw, hseal⟩ := h.sealed hm
  unfold sealValue at hseal
  rw [Storage.decodePrevious, h.key]
  by_cases hkey : isSecretKey m.obj.key = true
  · rw [if_pos hkey] at hseal
    obtain ⟨hmark, hopen⟩ := hl _ _ _ hseal
    simp [hkey, hmark, hopen]
  · rw [if_neg hkey] at hseal
    rw [← Except.ok.inj hseal]
    simp [hkey]

/-- A stored row of a Secret is an envelope some call sealed. -/
theorem sealed_at_rest (hl : Lawful sealer) {log : List Commit}
    (hw : ∀ c ∈ log, Written sealer (rowsOf log) c.mutation c.row) {v : Row}
    (hv : v ∈ rowsOf log) (hkey : isSecretKey v.key = true) :
    ∃ draw payload, sealer.sealBytes draw payload = .ok v.value.bytes ∧
      hasEnvelope v.value.bytes = true := by
  have hwrite : ∀ c ∈ log, c.mutation.deletes = false → isSecretKey c.row.key = true →
      ∃ draw payload, sealer.sealBytes draw payload = .ok c.row.value.bytes ∧
        hasEnvelope c.row.value.bytes = true := by
    intro c hc hm hsecret
    obtain ⟨draw, hseal⟩ := (hw c hc).sealed hm
    rw [sealValue, if_pos ((hw c hc).key ▸ hsecret)] at hseal
    exact ⟨draw, _, hseal, (hl _ _ _ hseal).1⟩
  obtain ⟨c, hc, rfl⟩ := List.mem_map.mp hv
  cases hm : c.mutation.deletes with
  | false => exact hwrite c hc hm hkey
  | true =>
    obtain ⟨u, hu, hukey, hlive, hbytes⟩ := (hw c hc).copied hm
    obtain ⟨b, hb, rfl⟩ := List.mem_map.mp hu
    have hb' : b.mutation.deletes = false := by simpa [hlive] using (hw b hb).live.symm
    rw [hbytes]
    refine hwrite b hb hb' ?_
    rw [hukey, ← (hw c hc).key]
    exact hkey

end Custody

section Reads

variable {openValue : Bytes → Result Bytes} {openPrevious : StoreKey → Bytes → Result Bytes}
  {log versions : List Row}

theorem Genuine.mono {log' : List Row} {obj : StoredObject} (h : Genuine openValue log obj)
    (hl : log ⊆ log') : Genuine openValue log' obj := by
  obtain ⟨v, hv, hrest⟩ := h
  exact ⟨v, hl hv, hrest⟩

theorem GenuineEvent.mono {log' : List Row} {e : WatchEvent}
    (h : GenuineEvent openValue openPrevious log e) (hl : log ⊆ log') :
    GenuineEvent openValue openPrevious log' e :=
  ⟨fun obj hobj => (h.1 obj hobj).mono hl, fun obj hobj => (h.2 obj hobj).mono hl⟩

theorem genuine_bookmark (log : List Row) (revision : ℕ) :
    GenuineEvent openValue openPrevious log (bookmarkAt revision) :=
  ⟨by simp [bookmarkAt], by simp [bookmarkAt]⟩

theorem Genuine.added {obj : StoredObject} (h : Genuine openValue log obj) :
    GenuineEvent openValue openPrevious log (addedEvent obj) := by
  refine ⟨fun x hx => ?_, fun x hx => ?_⟩
  · rw [← Option.some.inj hx]
    exact h
  · simp [addedEvent] at hx

/-- The objects of a page are rows. -/
theorem listPage_genuine (hsub : versions ⊆ log) (ho : Ordered versions) {sel : ListSelect}
    {revision : ℕ} {page : ObjectList} (h : listPage openValue sel revision versions = .ok page) :
    ∀ obj ∈ page.items, Genuine openValue log obj := by
  obtain ⟨_, hitems, _⟩ := listPage_ok ho h
  intro obj hobj
  obtain ⟨v, hv, hopen⟩ := mapM_mem hitems hobj
  obtain ⟨hkey, hrev, hvalue⟩ := openRow_ok hopen
  exact ⟨v, hsub (List.mem_of_mem_filter (mem_visible.mp (scan_subset hv).1).1), hkey, hrev, hvalue⟩

/-- The objects of an event are rows. -/
theorem changeRows_genuine (hsub : versions ⊆ log) (ho : Ordered versions) {selected : String}
    {after : ℕ} {events : List WatchEvent}
    (h : (changeRows selected after versions).mapM (toEvent openValue openPrevious) = .ok events) :
    ∀ e ∈ events, GenuineEvent openValue openPrevious log e := by
  intro e he
  obtain ⟨change, hchange, hevent⟩ := mapM_mem h he
  rw [changeRows_eq_scan ho] at hchange
  obtain ⟨v, hv, rfl⟩ := List.mem_map.mp hchange
  have hvlog : v ∈ log := hsub (List.mem_of_mem_filter (scan_subset hv).1)
  obtain ⟨value, hvalue, hevent⟩ := bind_eq_ok.mp hevent
  obtain ⟨previous, hprevious, hevent⟩ := bind_eq_ok.mp hevent
  cases Except.ok.inj hevent
  refine ⟨fun obj hobj => ?_, fun obj hobj => ?_⟩
  · rw [← Option.some.inj hobj]
    exact ⟨v, hvlog, rfl, rfl, hvalue⟩
  · obtain rfl : previous = some obj := hobj
    obtain ⟨prior, hprior, _, hkey, hrev, hbytes⟩ := priorObject_eq_some hprevious
    obtain ⟨hmem, hpkey, _⟩ := preceding_mem hprior
    exact ⟨prior, hsub hmem, hkey.trans hpkey.symm, hrev, by rwa [hkey]⟩

/-- A genuine object names the row of the commit whose version it has. -/
theorem Genuine.shows {commits : List Commit} (ho : Ordered (rowsOf commits)) {obj : StoredObject}
    (h : Genuine openValue (rowsOf commits) obj) {c : Commit} (hc : c ∈ commits)
    (hread : openValue c.row.value.bytes = .ok c.mutation.obj.value) : Shows c obj := by
  intro _ hrev
  obtain ⟨v, hv, _, hvrev, hvalue⟩ := h
  have hvc : v = c.row :=
    ho.eq_of_key hv (List.mem_map_of_mem (f := Commit.row) hc) (hvrev.symm.trans hrev)
  rw [hvc] at hvalue
  exact Except.ok.inj (hvalue.symm.trans hread)

theorem GenuineEvent.shows {commits : List Commit} (ho : Ordered (rowsOf commits)) {e : WatchEvent}
    (h : GenuineEvent openValue openPrevious (rowsOf commits) e) {c : Commit} (hc : c ∈ commits)
    (hread : openValue c.row.value.bytes = .ok c.mutation.obj.value)
    (hprevious : openPrevious c.row.key c.row.value.bytes = .ok c.mutation.obj.value) :
    ShowsEvent c e := by
  refine ⟨fun obj hobj => (h.1 obj hobj).shows ho hc hread, fun obj hobj hkey hrev => ?_⟩
  exact (h.2 obj hobj).shows ho hc (by rwa [hkey]) hkey hrev

/-- The live row of the last commit is what a read of its key finds. -/
theorem currentObject_last {commits before : List Commit} {horizon : ℕ} {t : Tables}
    (h : Consistent (rowsOf commits) horizon t) {c : Commit} (hlog : commits = before ++ [c])
    (hlive : isLive c.row = true) : currentObject c.row.key t.versions = some (rowObject c.row) := by
  have ho := h.ordered
  rw [h.currentObject_eq]
  subst hlog
  rw [rowsOf, List.map_append, List.map_singleton] at ho ⊢
  exact currentObject_eq_some.mpr ⟨c.row, latest_snoc ho, hlive, rfl⟩

theorem getObject_genuine {horizon : ℕ} {t : Tables} (hc : Consistent log horizon t)
    {key : StoreKey} {obj : StoredObject}
    (h : getObject openValue key t.versions = .ok (some obj)) : Genuine openValue log obj := by
  unfold getObject at h
  cases hold : currentObject key t.versions with
  | none => simp [hold] at h
  | some old =>
    obtain ⟨row, hrow, _, rfl⟩ := currentObject_eq_some.mp hold
    cases hvalue : openValue (rowObject row).value with
    | error e => simp [hold, hvalue, Except.map] at h
    | ok value =>
      obtain rfl : { rowObject row with value := value } = obj := by
        simpa [hold, hvalue, Except.map] using h
      exact ⟨row, hc.retains.sublist.subset (latest_mem hrow).1, rfl, rfl, hvalue⟩

/-- GET of the key of the last commit returns its row's value as it opens. -/
theorem getObject_last {commits before : List Commit} {horizon : ℕ} {t : Tables}
    (h : Consistent (rowsOf commits) horizon t) {c : Commit} (hlog : commits = before ++ [c])
    (hlive : isLive c.row = true) {value : Bytes} :
    getObject openValue c.row.key t.versions = .ok (some ⟨c.row.key, value, c.row.revision⟩) ↔
      openValue c.row.value.bytes = .ok value := by
  rw [getObject, currentObject_last h hlog hlive]
  cases hvalue : openValue c.row.value.bytes with
  | error e => simp [rowObject, hvalue, Except.map]
  | ok opened => simp [rowObject, hvalue, Except.map]

/-- What a watch has emitted is genuine. -/
def GenuineWatch (openValue : Bytes → Result Bytes)
    (openPrevious : StoreKey → Bytes → Result Bytes) (log : List Row) (w : Watch) : Prop :=
  ∀ e ∈ w.emitted, GenuineEvent openValue openPrevious log e

namespace GenuineWatch

variable {w : Watch}

theorem register (log : List Row) (sel : WatchSelect) (anchor : ℕ) :
    GenuineWatch openValue openPrevious log (.register sel anchor) := by
  intro e he
  simp [Watch.register] at he

theorem mono {log' : List Row} (h : GenuineWatch openValue openPrevious log w) (hl : log ⊆ log') :
    GenuineWatch openValue openPrevious log' w := fun e he => (h e he).mono hl

theorem showPage (h : GenuineWatch openValue openPrevious log w) {items : List StoredObject}
    (hitems : ∀ obj ∈ items, Genuine openValue log obj) :
    GenuineWatch openValue openPrevious log (w.showPage items) := by
  intro e he
  rcases List.mem_append.mp he with he | he
  · exact h e he
  · obtain ⟨obj, hobj, rfl⟩ := List.mem_map.mp he
    exact (hitems obj hobj).added

theorem bookmark (h : GenuineWatch openValue openPrevious log w) (revision : ℕ) :
    GenuineWatch openValue openPrevious log (w.bookmark revision) := by
  intro e he
  rcases List.mem_append.mp he with he | he
  · exact h e he
  · rw [List.mem_singleton.mp he]
    exact genuine_bookmark log revision

theorem deliver (h : GenuineWatch openValue openPrevious log w) {events : List WatchEvent}
    (hevents : ∀ e ∈ events, GenuineEvent openValue openPrevious log e) :
    GenuineWatch openValue openPrevious log (w.deliver events) := by
  intro e he
  rcases List.mem_append.mp he with he | he
  · exact h e he
  · exact hevents e he

end GenuineWatch

end Reads

namespace Sqlite

variable {sealer : SecretsSealer}

/-- The watch a connection holds. -/
def stream : Session → Option Watch
  | .replaying w _ => some w
  | .tailing w _ => some w
  | .done (.watchEnded w _ _) => some w
  | _ => none

/-- The watch of a connection has emitted genuine events. -/
def Emits (sealer : SecretsSealer) (log : List Row) (session : Session) : Prop :=
  ∀ w, stream session = some w →
    GenuineWatch (decodeRowValue sealer) (decodePrevious sealer) log w

theorem Emits.of_some {log : List Row} {session : Session} {w : Watch} (h : stream session = some w)
    (hw : GenuineWatch (decodeRowValue sealer) (decodePrevious sealer) log w) :
    Emits sealer log session := by
  intro w' hw'
  rwa [← Option.some.inj (h.symm.trans hw')]

theorem list_ok {sel : ListSelect} {t : Tables} {page : ObjectList}
    (h : list sealer sel t = .ok page) :
    ∃ revision, listPage (decodeRowValue sealer) sel revision t.versions = .ok page := by
  obtain ⟨_, _, h⟩ := bind_eq_ok.mp h
  obtain ⟨_, _, h⟩ := bind_eq_ok.mp h
  obtain ⟨revision, _, h⟩ := bind_eq_ok.mp h
  exact ⟨revision, h⟩

theorem changes_ok {selected : String} {after next : ℕ} {t : Tables} {events : List WatchEvent}
    (h : changes sealer selected after t = .ok (events, next)) :
    ∃ revision, (changeRows selected revision t.versions).mapM
      (toEvent (decodeRowValue sealer) (decodePrevious sealer)) = .ok events := by
  obtain ⟨_, _, h⟩ := bind_eq_ok.mp h
  obtain ⟨revision, _, h⟩ := bind_eq_ok.mp h
  obtain ⟨read, hread, h⟩ := bind_eq_ok.mp h
  have he := Except.ok.inj h
  simp only [Prod.mk.injEq] at he
  exact ⟨revision, he.1 ▸ hread⟩

/-- A move emits what it has read. -/
theorem Moves.emits {log : List Commit} {t t' : Tables} {a : Action} {session session' : Session}
    {commit : Option Commit} (h : Moves sealer t a session t' commit session')
    (hc : Consistent (rowsOf log) t.compacted t) (hs : Emits sealer (rowsOf log) session) :
    Emits sealer (rowsOf log) session' := by
  have hsub := hc.retains.sublist.subset
  cases h with
  | @register sel _ anchor _ =>
    have hw : GenuineWatch (decodeRowValue sealer) (decodePrevious sealer) (rowsOf log)
        (.register sel anchor) := .register _ sel anchor
    rcases openStream_cases sel anchor with ⟨_, he⟩ | ⟨_, _, he⟩ | ⟨_, _, he⟩ <;> rw [he]
    · exact .of_some rfl hw
    · exact .of_some rfl hw
    · exact .of_some rfl (hw.bookmark anchor)
  | @replay _ _ w next =>
    have hw := hs w rfl
    rcases replayPage_cases sealer w next t with
      ⟨_, _, he⟩ | ⟨page, hpage, ⟨_, _, he⟩ | ⟨_, he⟩⟩ <;> rw [he]
    · exact .of_some rfl hw
    · obtain ⟨revision, hread⟩ := list_ok hpage
      exact .of_some rfl (hw.showPage (listPage_genuine hsub hc.versions_ordered hread))
    · obtain ⟨revision, hread⟩ := list_ok hpage
      exact .of_some rfl
        ((hw.showPage (listPage_genuine hsub hc.versions_ordered hread)).bookmark _)
  | @poll _ elapsed w cursor =>
    have hw := hs w rfl
    rcases poll_cases sealer w cursor elapsed t with ⟨_, _, he⟩ | ⟨events, next, hpoll, he⟩ <;> rw [he]
    · exact .of_some rfl hw
    · obtain ⟨after, hread⟩ := changes_ok hpoll
      have hdeliver := hw.deliver (changeRows_genuine hsub hc.versions_ordered hread)
      cases elapsed with
      | true => exact .of_some rfl (hdeliver.bookmark next)
      | false => exact .of_some rfl hdeliver
  | _ => exact fun _ => nofun

theorem reachable_emits {s : State} {ls : List (ℕ × Action)}
    (h : AnyRun (step sealer) .initial ls s) (i : ℕ) : Emits sealer (rowsOf s.log) (s.sessions i) := by
  induction h generalizing i with
  | nil => exact fun _ => nofun
  | @snoc ls s s' l hrun _ hstep ih =>
    have hsound := reachable_sound hrun
    obtain ⟨t', commit, session', hmove, rfl⟩ := step_cases hstep
    have hgrows : rowsOf s.log ⊆ rowsOf (s.log ++ commit.toList) := by simp
    intro w hw
    by_cases hi : i = l.1
    · subst hi
      exact (hmove.emits hsound (ih _) w (by simpa using hw)).mono hgrows
    · exact (ih i w (by simpa [hi] using hw)).mono hgrows

/-- Every read of the version of a commit returns its payload. -/
structure ReadsBack (sealer : SecretsSealer) (s : State) (c : Commit) : Prop where
  got : ∀ key obj, get sealer key s.tables = .ok (some obj) → Shows c obj
  listed : ∀ sel page, list sealer sel s.tables = .ok page → ∀ obj ∈ page.items, Shows c obj
  watched : ∀ i w, stream (s.sessions i) = some w → ∀ e ∈ w.emitted, ShowsEvent c e

theorem reachable_readsBack {s : State} {ls : List (ℕ × Action)}
    (h : AnyRun (step sealer) .initial ls s) (hl : Lawful sealer) {c : Commit} (hc : c ∈ s.log)
    (hm : c.mutation.deletes = false) (ht : Transparent sealer c.mutation) :
    ReadsBack sealer s c := by
  have hsound := reachable_sound h
  have hwritten := reachable_written h c hc
  have hread := (hwritten.decode_iff hl hm).mpr ht
  have ho := hsound.ordered
  refine ⟨fun key obj hget => ?_, fun sel page hpage obj hobj => ?_, fun i w hw e he => ?_⟩
  · exact (getObject_genuine hsound hget).shows ho hc hread
  · obtain ⟨revision, hpage⟩ := list_ok hpage
    have hgenuine := listPage_genuine hsound.retains.sublist.subset hsound.versions_ordered hpage
    exact (hgenuine obj hobj).shows ho hc hread
  · exact (reachable_emits h i w hw e he).shows ho hc hread (hwritten.decodePrevious hl hm)

/-- What a read of the key returns after the last commit. -/
theorem get_last {s : State} {ls : List (ℕ × Action)} (h : AnyRun (step sealer) .initial ls s)
    (hl : Lawful sealer) {before : List Commit} {c : Commit} (hlog : s.log = before ++ [c])
    (hm : c.mutation.deletes = false) :
    get sealer c.row.key s.tables =
        .ok (some ⟨c.row.key, c.mutation.obj.value, c.row.revision⟩) ↔
      Transparent sealer c.mutation := by
  have hwritten := reachable_written h c (by simp [hlog])
  have hlive : isLive c.row = true := by simp [hwritten.live, hm]
  rw [← hwritten.decode_iff hl hm]
  exact getObject_last (reachable_sound h) hlog hlive

end Sqlite

namespace Postgres

variable {sealer : SecretsSealer}

/-- The watch a connection holds. -/
def stream : Session → Option Watch
  | .paging w _ _ => some w
  | .pageRows w _ _ _ => some w
  | .tailing w _ => some w
  | .polling w _ _ => some w
  | .done (.watchEnded w _ _) => some w
  | _ => none

/-- The watch of a connection has emitted genuine events. -/
def Emits (sealer : SecretsSealer) (log : List Row) (session : Session) : Prop :=
  ∀ w, stream session = some w →
    GenuineWatch (openRowValue sealer) (openPrevious sealer) log w

/-- The page that a connection's list has returned is genuine. -/
def Lists (sealer : SecretsSealer) (log : List Row) (session : Session) : Prop :=
  ∀ sel page, session = .done (.listed sel page) →
    ∀ obj ∈ page.items, Genuine (openRowValue sealer) log obj

theorem Emits.of_some {log : List Row} {session : Session} {w : Watch} (h : stream session = some w)
    (hw : GenuineWatch (openRowValue sealer) (openPrevious sealer) log w) :
    Emits sealer log session := by
  intro w' hw'
  rwa [← Option.some.inj (h.symm.trans hw')]

/-- A move emits what it has read. -/
theorem Moves.emits {i : ℕ} {d d' : Database} {a : Action} {session session' : Session}
    (h : Moves sealer i d a session d' session')
    (hc : Consistent (rowsOf d.log) d.horizon d.tables) (hs : Emits sealer (rowsOf d.log) session) :
    Emits sealer (rowsOf d.log) session' := by
  have hsub := hc.retains.sublist.subset
  cases h with
  | @register sel _ anchor _ _ =>
    have hw : GenuineWatch (openRowValue sealer) (openPrevious sealer) (rowsOf d.log)
        (.register sel anchor) := .register _ sel anchor
    unfold openStream
    split <;> exact .of_some rfl hw
  | turn _ => exact .of_some rfl (hs _ rfl)
  | breakOff _ => exact .of_some rfl (hs _ rfl)
  | head _ => exact .of_some rfl (hs _ rfl)
  | expire _ => exact .of_some rfl (hs _ rfl)
  | @reveal _ _ w snapshot next revision =>
    have hw := hs w rfl
    rcases showRows_cases sealer w snapshot next revision d.tables with
      ⟨_, _, he⟩ | ⟨page, hpage, ⟨_, _, he⟩ | ⟨_, he⟩⟩ <;> rw [he]
    · exact .of_some rfl hw
    · exact .of_some rfl (hw.showPage (listPage_genuine hsub hc.versions_ordered hpage))
    · exact .of_some rfl
        ((hw.showPage (listPage_genuine hsub hc.versions_ordered hpage)).bookmark _)
  | @deliver _ elapsed w cursor current =>
    have hw := hs w rfl
    rcases deliverRows_cases sealer w cursor current elapsed d.tables with
      ⟨_, _, he⟩ | ⟨events, hread, he⟩ <;> rw [he]
    · exact .of_some rfl hw
    · have hdeliver := hw.deliver (changeRows_genuine hsub hc.versions_ordered hread)
      cases elapsed with
      | true => exact .of_some rfl (hdeliver.bookmark _)
      | false => exact .of_some rfl hdeliver
  | @skip _ _ maintains _ => cases maintains <;> exact fun _ => nofun
  | @compact _ _ _ _ maintains => cases maintains <;> exact fun _ => nofun
  | _ => exact fun _ => nofun

theorem Moves.lists {i : ℕ} {d d' : Database} {a : Action} {session session' : Session}
    (h : Moves sealer i d a session d' session')
    (hc : Consistent (rowsOf d.log) d.horizon d.tables) : Lists sealer (rowsOf d.log) session' := by
  have hsub := hc.retains.sublist.subset
  cases h with
  | page hpage =>
    intro sel page he
    cases he
    exact listPage_genuine hsub hc.versions_ordered hpage
  | @register sel _ anchor _ _ =>
    unfold openStream
    split <;> exact fun _ _ => nofun
  | @reveal _ _ w snapshot next revision =>
    rcases showRows_cases sealer w snapshot next revision d.tables with
      ⟨_, _, he⟩ | ⟨_, _, ⟨_, _, he⟩ | ⟨_, he⟩⟩ <;> (rw [he]; exact fun _ _ => nofun)
  | @deliver _ elapsed w cursor current =>
    rcases deliverRows_cases sealer w cursor current elapsed d.tables with
      ⟨_, _, he⟩ | ⟨_, _, he⟩ <;> (rw [he]; exact fun _ _ => nofun)
  | @skip _ _ maintains _ => cases maintains <;> exact fun _ _ => nofun
  | @compact _ _ _ _ maintains => cases maintains <;> exact fun _ _ => nofun
  | _ => exact fun _ _ => nofun

theorem reachable_genuine {s : State} {ls : List (ℕ × Action)}
    (h : AnyRun (step sealer) .initial ls s) (i : ℕ) :
    Emits sealer (rowsOf s.db.log) (s.sessions i) ∧ Lists sealer (rowsOf s.db.log) (s.sessions i) := by
  induction h generalizing i with
  | nil => exact ⟨fun _ => nofun, fun _ _ => nofun⟩
  | @snoc ls s s' l hrun _ hstep ih =>
    have hcoherent := reachable_coherent hrun
    obtain ⟨j, a⟩ := l
    obtain ⟨d', session', hmove, rfl⟩ := step_cases hstep
    obtain ⟨_, new, hrows, _⟩ := hmove.touches.extends (hcoherent.sessions j)
    have hgrows : rowsOf s.db.log ⊆ rowsOf d'.log := by simp [hrows]
    by_cases hi : i = j
    · subst hi
      refine ⟨fun w hw => ?_, fun sel page hpage obj hobj => ?_⟩
      · exact (hmove.emits hcoherent.consistent (ih i).1 w (by simpa using hw)).mono hgrows
      · exact (hmove.lists hcoherent.consistent sel page (by simpa using hpage) obj hobj).mono hgrows
    · refine ⟨fun w hw => ?_, fun sel page hpage obj hobj => ?_⟩
      · exact ((ih i).1 w (by simpa [hi] using hw)).mono hgrows
      · exact ((ih i).2 sel page (by simpa [hi] using hpage) obj hobj).mono hgrows

/-- Every read of the version of a commit returns its payload. -/
structure ReadsBack (sealer : SecretsSealer) (s : State) (c : Commit) : Prop where
  got : ∀ key obj, get sealer key s.db.tables = .ok (some obj) → Shows c obj
  listed : ∀ i sel page, s.sessions i = .done (.listed sel page) → ∀ obj ∈ page.items, Shows c obj
  watched : ∀ i w, stream (s.sessions i) = some w → ∀ e ∈ w.emitted, ShowsEvent c e

theorem reachable_readsBack {s : State} {ls : List (ℕ × Action)}
    (h : AnyRun (step sealer) .initial ls s) (hl : Lawful sealer) {c : Commit} (hc : c ∈ s.db.log)
    (hm : c.mutation.deletes = false) (ht : Transparent sealer c.mutation) :
    ReadsBack sealer s c := by
  have hcoherent := reachable_coherent h
  have hread := openRowValue_ok.mpr (((hcoherent.written c hc).decode_iff hl hm).mpr ht)
  have ho := hcoherent.consistent.ordered
  refine ⟨fun key obj hget => ?_, fun i sel page hpage obj hobj => ?_, fun i w hw e he => ?_⟩
  · exact (getObject_genuine hcoherent.consistent hget).shows ho hc hread
  · exact ((reachable_genuine h i).2 sel page hpage obj hobj).shows ho hc hread
  · exact ((reachable_genuine h i).1 w hw e he).shows ho hc hread hread

/-- What a read of the key returns after the last commit. -/
theorem get_last {s : State} {ls : List (ℕ × Action)} (h : AnyRun (step sealer) .initial ls s)
    (hl : Lawful sealer) {before : List Commit} {c : Commit} (hlog : s.db.log = before ++ [c])
    (hm : c.mutation.deletes = false) :
    get sealer c.row.key s.db.tables =
        .ok (some ⟨c.row.key, c.mutation.obj.value, c.row.revision⟩) ↔
      Transparent sealer c.mutation := by
  have hcoherent := reachable_coherent h
  have hwritten := hcoherent.written c (by simp [hlog])
  have hlive : isLive c.row = true := by simp [hwritten.live, hm]
  rw [← hwritten.decode_iff hl hm, ← openRowValue_ok]
  exact getObject_last hcoherent.consistent hlog hlive

end Postgres

/-- The stored rows of Secrets are envelopes some call sealed. -/
def SealedAtRest (sealer : SecretsSealer) (versions : List Row) : Prop :=
  ∀ v ∈ versions, isSecretKey v.key = true →
    ∃ draw payload, sealer.sealBytes draw payload = .ok v.value.bytes ∧
      hasEnvelope v.value.bytes = true

/-- In every reachable state of either backend each read of a version that was written
returns its payload if custody leaves that payload as it is, a read right after the
write does so only then, and every row of a Secret is sealed. -/
theorem custody_reads_back (sealer : SecretsSealer) (hl : Lawful sealer) :
    (∀ ls s, AnyRun (Sqlite.step sealer) .initial ls s →
      (∀ c ∈ s.log, c.mutation.deletes = false → Transparent sealer c.mutation →
        Sqlite.ReadsBack sealer s c) ∧
      (∀ before c, s.log = before ++ [c] → c.mutation.deletes = false →
        (Sqlite.get sealer c.row.key s.tables =
            .ok (some ⟨c.row.key, c.mutation.obj.value, c.row.revision⟩) ↔
          Transparent sealer c.mutation)) ∧
      SealedAtRest sealer s.tables.versions) ∧
    ∀ ls s, AnyRun (Postgres.step sealer) .initial ls s →
      (∀ c ∈ s.db.log, c.mutation.deletes = false → Transparent sealer c.mutation →
        Postgres.ReadsBack sealer s c) ∧
      (∀ before c, s.db.log = before ++ [c] → c.mutation.deletes = false →
        (Postgres.get sealer c.row.key s.db.tables =
            .ok (some ⟨c.row.key, c.mutation.obj.value, c.row.revision⟩) ↔
          Transparent sealer c.mutation)) ∧
      SealedAtRest sealer s.db.tables.versions := by
  refine ⟨fun ls s h => ⟨fun c hc hm ht => ?_, fun before c hlog hm => ?_, fun v hv hkey => ?_⟩,
    fun ls s h => ⟨fun c hc hm ht => ?_, fun before c hlog hm => ?_, fun v hv hkey => ?_⟩⟩
  · exact Sqlite.reachable_readsBack h hl hc hm ht
  · exact Sqlite.get_last h hl hlog hm
  · exact sealed_at_rest hl (Sqlite.reachable_written h)
      ((Sqlite.reachable_sound h).retains.sublist.subset hv) hkey
  · exact Postgres.reachable_readsBack h hl hc hm ht
  · exact Postgres.get_last h hl hlog hm
  · have hcoherent := Postgres.reachable_coherent h
    exact sealed_at_rest hl hcoherent.written (hcoherent.consistent.retains.sublist.subset hv) hkey

/-- A sealer that marks a payload and removes the mark again. -/
def marking : SecretsSealer where
  sealBytes _ payload := .ok (geoEnvelope ++ payload)
  openBytes stored := .ok (stored.drop geoEnvelope.length)

theorem marking_lawful : Lawful marking := by
  intro draw payload stored h
  cases Except.ok.inj h
  exact ⟨by simp [hasEnvelope], by simp [marking]⟩

/-- A pod whose payload begins with the marker. -/
def markedPod : List (ℕ × Sqlite.Action) :=
  [(0, .begin (.mutate 0 (.create ⟨podA, geoEnvelope ++ [1], 0⟩)))]

/-- Reading the pod back strips the marker. -/
theorem marked_pod_is_opened :
    ¬ ∀ sealer, Lawful sealer → ∀ ls s, AnyRun (Sqlite.step sealer) .initial ls s →
      ∀ c ∈ s.log, c.mutation.deletes = false → Sqlite.ReadsBack sealer s c := by
  intro h
  have hexec : (Runs.exec (Sqlite.step marking) .initial markedPod).map
      (fun s => (s.log, Sqlite.get marking podA s.tables)) =
      some ([⟨.create ⟨podA, geoEnvelope ++ [1], 0⟩, ⟨podA, 1, ⟨geoEnvelope ++ [1], 0⟩⟩⟩],
        .ok (some ⟨podA, [1], 1⟩)) := by decide
  obtain ⟨s, hrun, hs⟩ := run_of_exec_map hexec
  simp only [Prod.mk.injEq] at hs
  have hback := h marking marking_lawful _ s hrun _ (by rw [hs.1]; exact List.mem_singleton_self _) rfl
  exact absurd (hback.got _ _ hs.2 rfl rfl) (by decide)

/-- The key of a Secret. -/
def secretA : StoreKey := ⟨"/registry/secrets/test/a", by decide⟩

/-- A Secret reads back even when its payload begins with the marker. -/
theorem marked_secret_reads_back :
    ∃ s, AnyRun (Sqlite.step marking) .initial
        [(0, .begin (.mutate 0 (.create ⟨secretA, geoEnvelope ++ [1], 0⟩)))] s ∧
      (∃ c ∈ s.log, c.mutation.obj.value = geoEnvelope ++ [1] ∧ Sqlite.ReadsBack marking s c) ∧
      SealedAtRest marking s.tables.versions := by
  have hexec : (Runs.exec (Sqlite.step marking) .initial
      [(0, .begin (.mutate 0 (.create ⟨secretA, geoEnvelope ++ [1], 0⟩)))]).map
      (fun s => s.log) = some [⟨.create ⟨secretA, geoEnvelope ++ [1], 0⟩,
        ⟨secretA, 1, ⟨geoEnvelope ++ (geoEnvelope ++ [1]), 0⟩⟩⟩] := by decide
  obtain ⟨s, hrun, hs⟩ := run_of_exec_map hexec
  obtain ⟨hback, _, hrest⟩ := (custody_reads_back marking marking_lawful).1 _ s hrun
  have hmem : (⟨.create ⟨secretA, geoEnvelope ++ [1], 0⟩,
      ⟨secretA, 1, ⟨geoEnvelope ++ (geoEnvelope ++ [1]), 0⟩⟩⟩ : Commit) ∈ s.log := by
    rw [hs]
    exact List.mem_singleton_self _
  exact ⟨s, hrun, ⟨_, hmem, rfl, hback _ hmem rfl (Or.inl (by decide))⟩, hrest⟩

end Hedronetes.Storage
