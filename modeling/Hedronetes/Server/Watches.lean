import Hedronetes.Server.Commits
import Hedronetes.Server.Paging

/-!
# Watches of a selection

A watch reports each change of the store by how the object enters, stays in or leaves the
selection. A client that applies the lines to the list it started from holds, after every
revision, the list at that revision.
-/

namespace Hedronetes.Server.Watches

open Apply Storage VersionLog CursorScan Fallible Runs Lists

/-! ## The lines of a watch -/

/-- A line that is sent to the client. A change carries the key of its object, which the client
reads off the metadata, and its revision. -/
inductive Line where
  | change (type : String) (key : Option StoreKey) (revision : ℕ) (object : Json)
  | bookmark (revision : ℕ) (initialEnd : Bool)
  | error (e : Stop)
  deriving DecidableEq

def Line.isBookmark : Line → Bool
  | bookmark _ _ => true
  | _ => false

def Line.isError : Line → Bool
  | error _ => true
  | _ => false

/-- Lines about revisions up to `R`. -/
def Line.upTo (R : ℕ) : Line → Bool
  | change _ _ revision _ => revision ≤ R
  | _ => true

variable (codec : Codec) (lib : Libraries) (grant : Grant)

def storedOption : Option StoredObject → Outcome (Option Stored)
  | none => .ok none
  | some obj => (codec.stored obj).map some

/-- The event with its objects read. -/
def received (event : Storage.WatchEvent) : Outcome Server.WatchEvent := do
  let object ← storedOption codec event.object
  let previous ← storedOption codec event.previous
  return ⟨event.kind, event.revision, object, previous⟩

/-- What a client is told of a change. -/
def told (event : Storage.WatchEvent) : Outcome (Option Line) := do
  match ← change lib grant.selection (← received codec event) with
  | none => return none
  | some (type, value) =>
    let value ← setAt value ["metadata", "resourceVersion"] (.string (toString event.revision))
    return some (.change type ((event.object.or event.previous).map StoredObject.key)
      event.revision value)

/-- The line of one item of the store's stream. The bookmark that ends the initial events is sent
even if the client asked for none. -/
def lineOf (bookmarks pending : Bool) (now : Registry) (item : Storage.Result Storage.WatchEvent) :
    Outcome (Option Line) := do
  match grant.readGuard with
  | some guard => guard.check now
  | none => pure ()
  let event ← item.mapError storageFailure
  if event.kind = .bookmark then
    if !bookmarks && !pending then return none
    else return some (.bookmark event.revision pending)
  else told codec lib grant event

/-- The lines of a watch. The first error ends it. -/
def serve (bookmarks : Bool) : Bool → List (Registry × Storage.Result Storage.WatchEvent) → List Line
  | _, [] => []
  | pending, (now, item) :: rest =>
    match lineOf codec lib grant bookmarks pending now item with
    | .error e => [.error e]
    | .ok none => serve bookmarks pending rest
    | .ok (some line) => line :: serve bookmarks (pending && !line.isBookmark) rest

/-! ## The client -/

/-- The objects that a client holds, by key. -/
abbrev Client := StoreKey → Option Json

/-- A client refuses a line that contradicts what it holds: an object it has is added, or one it
does not have is modified or deleted. -/
def Client.receive (c : Client) : Line → Option Client
  | .change type (some k) _ object =>
    if type = "ADDED" then
      if (c k).isNone then some (Function.update c k (some object)) else none
    else if type = "MODIFIED" then
      if (c k).isSome then some (Function.update c k (some object)) else none
    else if (c k).isSome then some (Function.update c k none) else none
  | .change _ none _ _ => none
  | .bookmark _ _ => some c
  | .error _ => some c

/-- The client that holds the entries of a list. -/
def Client.of (entries : List (StoreKey × Json)) : Client := fun k => entries.lookup k

variable (sealer : SecretsSealer)

/-- The entries of the rows that the selection keeps. -/
def Listed (rows : List Row) (entries : List (StoreKey × Json)) : Prop :=
  ∃ values, rows.mapM (shown codec sealer) = .ok values ∧
    entries = ((rows.map fun row => row.key).zip values).filter fun e =>
      grant.selection.isMatch lib.text.print e.2

/-- What a list of the prefix shows at a revision under a key. -/
def seen (selected : String) (log : List Row) (revision : ℕ) : Client := fun k =>
  (latestAt k revision log).bind fun row =>
    if isLive row && underPrefix selected k then
      (shown codec sealer row).toOption.filter fun v => grant.selection.isMatch lib.text.print v
    else none

variable {codec lib grant sealer} {selected : String} {log : List Row}

/-- The entries are the objects of the paged list, with their keys. -/
theorem Listed.matching {rows : List Row} {entries : List (StoreKey × Json)}
    (h : Listed codec lib grant sealer rows entries) :
    Matching codec lib grant.selection sealer rows (entries.map Prod.snd) := by
  obtain ⟨values, hvalues, rfl⟩ := h
  refine ⟨values, hvalues, ?_⟩
  have hlength : values.length ≤ (rows.map fun row => row.key).length := by
    rw [mapM_length hvalues, List.length_map]
  have hmap := List.map_snd_zip hlength
  conv_rhs => rw [← hmap]
  rw [List.filter_map]
  rfl

/-! ## One change -/

/-- An object that is read off an event is the one its row shows. -/
theorem viewed_ok {obj : StoredObject} {stored : Option Stored} {value : Option Json}
    (hstored : storedOption codec (some obj) = .ok stored) (h : viewed stored = .ok value) :
    ∃ v, value = some v ∧ (do object (← codec.stored obj)) = .ok v := by
  cases hobj : codec.stored obj with
  | error e =>
    rw [storedOption, hobj] at hstored
    cases hstored
  | ok st =>
    rw [storedOption, hobj] at hstored
    cases Except.ok.inj hstored
    obtain ⟨v, hv, h⟩ := bind_eq_ok.mp h
    cases Except.ok.inj h
    exact ⟨v, rfl, hv⟩

/-- A predecessor that can be read is the object that the list showed. -/
theorem shown_previous {row : Row} {bytes : Bytes} {v : Json}
    (hbytes : decodePrevious sealer row.key row.value.bytes = .ok bytes)
    (h : (do object (← codec.stored ⟨row.key, bytes, row.revision⟩)) = .ok v) :
    shown codec sealer row = .ok v := by
  have hopen : decodeRowValue sealer row.value.bytes = .ok bytes := by
    unfold decodePrevious at hbytes
    unfold decodeRowValue
    by_cases henvelope : hasEnvelope row.value.bytes = true
    · rw [if_pos henvelope]
      by_cases hsecret : isSecretKey row.key = true
      · rwa [if_pos (by simp [hsecret, henvelope])] at hbytes
      · -- Outside the Secrets an envelope is handed on as it is, and does not read as an object.
        rw [if_neg (by simp [hsecret])] at hbytes
        cases Except.ok.inj hbytes
        rw [Codec.stored, codec.parse_envelope _ henvelope] at h
        cases h
    · rw [if_neg henvelope]
      rwa [if_neg (by simp [henvelope])] at hbytes
  have hrow : openRow (decodeRowValue sealer) row = .ok ⟨row.key, bytes, row.revision⟩ :=
    bind_eq_ok.mpr ⟨bytes, hopen, rfl⟩
  rw [shown_eq hrow]
  exact h

/-- What a client is told of a row, from what the list showed under its key before and after. -/
def ToldAs (key : StoreKey) (revision : ℕ) : Option Json → Option Json → Option Line → Prop
  | none, some v, out => out = some (.change "ADDED" (some key) revision v)
  | some _, some v, out => out = some (.change "MODIFIED" (some key) revision v)
  | some old, none, out => ∃ v, setAt old ["metadata", "resourceVersion"]
      (.string (toString revision)) = .ok v ∧ out = some (.change "DELETED" (some key) revision v)
  | none, none, out => out = none

/-- Writing an object's own revision into it changes nothing. -/
theorem revision_again {obj : StoredObject} {v : Json}
    (h : (do object (← codec.stored obj)) = .ok v) :
    setAt v ["metadata", "resourceVersion"] (.string (toString obj.revision)) = .ok v := by
  obtain ⟨stored, hstored, h⟩ := bind_eq_ok.mp h
  have hrevision : stored.revision = obj.revision := by
    unfold Codec.stored at hstored
    split at hstored <;> cases hstored
    rfl
  obtain ⟨base, _, hset⟩ := object_ok h
  rw [hrevision] at hset
  exact setAt_again hset

/-- What is told of an event with an object, from its objects as they are viewed. -/
theorem told_ok {event : Storage.WatchEvent} {obj : StoredObject} {out : Option Line}
    (hobject : event.object = some obj) (hrevision : event.revision = obj.revision)
    (h : told codec lib grant event = .ok out) :
    ∃ current previous, (do object (← codec.stored obj)) = .ok current ∧
      (∀ p, event.previous = some p → ∃ v, previous = some v ∧
        (do object (← codec.stored p)) = .ok v) ∧
      (event.previous = none → previous = none) ∧
      ToldAs obj.key event.revision
        (previous.filter (grant.selection.isMatch lib.text.print))
        (if event.kind = .deleted then none
          else (some current).filter (grant.selection.isMatch lib.text.print)) out := by
  obtain ⟨read, hread, h⟩ := bind_eq_ok.mp h
  obtain ⟨result, hchange, h⟩ := bind_eq_ok.mp h
  obtain ⟨stored, hstored, hread⟩ := bind_eq_ok.mp hread
  obtain ⟨storedPrevious, hprevious, hread⟩ := bind_eq_ok.mp hread
  cases Except.ok.inj hread
  obtain ⟨viewedCurrent, hcurrent, hchange⟩ := bind_eq_ok.mp hchange
  obtain ⟨previous, hpreviousView, hchange⟩ := bind_eq_ok.mp hchange
  rw [hobject] at hstored
  obtain ⟨current, rfl, hview⟩ := viewed_ok hstored hcurrent
  refine ⟨current, previous, hview, fun p hp => ?_, fun hnone => ?_, ?_⟩
  · rw [hp] at hprevious
    exact viewed_ok hprevious hpreviousView
  · rw [hnone] at hprevious
    cases Except.ok.inj hprevious
    cases Except.ok.inj hpreviousView
    rfl
  · have hagain := revision_again hview
    rw [← hrevision] at hagain
    have hkey : (event.object.or event.previous).map StoredObject.key = some obj.key := by
      rw [hobject]
      rfl
    have hkept_eq : ∀ value, (if event.kind = .deleted then none
        else (some current).filter (grant.selection.isMatch lib.text.print)) = some value →
          value = current := by
      intro value hvalue
      split_ifs at hvalue
      rw [Option.filter_some] at hvalue
      split_ifs at hvalue
      exact (Option.some.inj hvalue).symm
    cases hbefore : previous.filter (grant.selection.isMatch lib.text.print) with
    | none =>
      cases hkept : (if event.kind = .deleted then none
        else (some current).filter (grant.selection.isMatch lib.text.print)) with
      | none =>
        simp only [hbefore, hkept] at hchange
        cases Except.ok.inj hchange
        exact (Except.ok.inj h).symm
      | some value =>
        obtain rfl := hkept_eq value hkept
        simp only [hbefore, hkept] at hchange
        cases Except.ok.inj hchange
        simp only [hagain, hkey] at h
        exact (Except.ok.inj h).symm
    | some old =>
      cases hkept : (if event.kind = .deleted then none
        else (some current).filter (grant.selection.isMatch lib.text.print)) with
      | none =>
        simp only [hbefore, hkept] at hchange
        cases Except.ok.inj hchange
        obtain ⟨v, hset, h⟩ := bind_eq_ok.mp h
        rw [hkey] at h
        exact ⟨v, hset, (Except.ok.inj h).symm⟩
      | some value =>
        obtain rfl := hkept_eq value hkept
        simp only [hbefore, hkept] at hchange
        cases Except.ok.inj hchange
        simp only [hagain, hkey] at h
        exact (Except.ok.inj h).symm

theorem kindOf_deleted {number : Fin 3} : kindOf number = .deleted ↔ number = 2 := by
  fin_cases number <;> simp [kindOf]

/-- What a client is told of a row of the log. -/
def tellRow (codec : Codec) (lib : Libraries) (grant : Grant) (sealer : SecretsSealer)
    (log : List Row) (v : Row) : Outcome (Option Line) := do
  let event ← (logEvent (decodeRowValue sealer) (decodePrevious sealer) log v).mapError
    storageFailure
  told codec lib grant event

/-- A row takes what the list showed under its key before it to what the list shows since. -/
theorem tellRow_ok {v : Row} {out : Option Line} (ho : Ordered log) (hv : v ∈ log)
    (hunder : underPrefix selected v.key = true)
    (h : tellRow codec lib grant sealer log v = .ok out) :
    (∃ value, shown codec sealer v = .ok value) ∧
      ToldAs v.key v.revision (seen codec lib grant sealer selected log (v.revision - 1) v.key)
        (seen codec lib grant sealer selected log v.revision v.key) out := by
  obtain ⟨event, hevent, h⟩ := bind_eq_ok.mp h
  replace hevent : logEvent (decodeRowValue sealer) (decodePrevious sealer) log v = .ok event := by
    cases he : logEvent (decodeRowValue sealer) (decodePrevious sealer) log v with
    | error e =>
      rw [he] at hevent
      cases hevent
    | ok e =>
      rw [he] at hevent
      cases Except.ok.inj hevent
      rfl
  obtain ⟨hrevision, hkind, ⟨bytes, hbytes, hobject⟩, hlive, habsent⟩ := logEvent_reports hevent
  obtain ⟨current, previous, hcurrent, hprevious, hnone, htold⟩ := told_ok hobject hrevision h
  have hshown : shown codec sealer v = .ok current := by
    rw [shown_eq (bind_eq_ok.mpr ⟨bytes, hbytes, rfl⟩)]
    exact hcurrent
  refine ⟨⟨current, hshown⟩, ?_⟩
  have hafter : seen codec lib grant sealer selected log v.revision v.key =
      if event.kind = .deleted then none
      else (some current).filter (grant.selection.isMatch lib.text.print) := by
    have hlatest : latestAt v.key v.revision log = some v :=
      (newest_eq_some ho).mpr ⟨hv, by simp, fun u _ hp => (of_decide_eq_true hp).2⟩
    have hdeleted : event.kind = .deleted ↔ isLive v = false := by
      rw [hkind, kindOf_deleted]
      simp [isLive]
    unfold seen
    rw [hlatest, Option.bind_some, hunder, Bool.and_true]
    by_cases hdead : isLive v = false
    · rw [if_neg (by simp [hdead]), if_pos (hdeleted.mpr hdead)]
    · rw [if_pos (by simpa using hdead), if_neg (mt hdeleted.mp hdead), hshown]
      rfl
  have hbefore : seen codec lib grant sealer selected log (v.revision - 1) v.key =
      previous.filter (grant.selection.isMatch lib.text.print) := by
    unfold seen
    cases hprior : latestAt v.key (v.revision - 1) log with
    | none =>
      have hnone := hnone (habsent fun p hp => by simp [hprior] at hp)
      rw [hnone]
      rfl
    | some prior =>
      rw [Option.bind_some, hunder, Bool.and_true]
      by_cases hpriorLive : isLive prior = true
      · obtain ⟨old, hold, hevent⟩ := hlive prior hprior hpriorLive
        obtain ⟨value, hvalue, hread⟩ := hprevious _ hevent
        have hkey := (latestAt_mem hprior).2.1
        rw [← hkey] at hold hread
        rw [if_pos hpriorLive, shown_previous hold hread, hvalue]
        rfl
      · have hnone := hnone (habsent fun p hp => by
          rw [hprior, Option.some.injEq] at hp
          simpa [← hp] using hpriorLive)
        rw [if_neg hpriorLive, hnone]
        rfl
  rw [hafter, hbefore, ← hrevision]
  exact htold

/-! ## The client follows the list -/

/-- A client applies the lines one after the other. -/
def Client.run (c : Client) (lines : List Line) : Option Client := lines.foldlM Client.receive c

theorem Client.run_append (c : Client) (lines more : List Line) :
    c.run (lines ++ more) = (c.run lines).bind fun c => c.run more := by
  simp [Client.run, List.foldlM_append]

/-- A client that holds what the list showed before a change holds what it shows since. -/
theorem ToldAs.receive {key : StoreKey} {revision : ℕ} {old new : Option Json} {out : Option Line}
    (h : ToldAs key revision old new out) {c : Client} (hc : c key = old) :
    c.run out.toList = some (Function.update c key new) := by
  cases old with
  | none =>
    cases new with
    | none =>
      have hsame : Function.update c key none = c := by
        rw [← hc, Function.update_eq_self]
      cases h
      rw [hsame]
      rfl
    | some v =>
      cases h
      simp [Client.run, Client.receive, hc]
  | some old =>
    cases new with
    | none =>
      obtain ⟨v, _, rfl⟩ := h
      simp [Client.run, Client.receive, hc]
    | some v =>
      cases h
      simp [Client.run, Client.receive, hc]

/-- A revision without a row of the prefix shows what the one before it shows. -/
theorem seen_succ_of_not_mem {n : ℕ} {k : StoreKey}
    (h : ∀ v ∈ log, v.revision = n + 1 → underPrefix selected v.key = true → v.key ≠ k) :
    seen codec lib grant sealer selected log (n + 1) k =
      seen codec lib grant sealer selected log n k := by
  unfold seen
  by_cases hunder : underPrefix selected k = true
  · have hlatest : latestAt k (n + 1) log = latestAt k n log := by
      refine newest_congr fun v hv => ?_
      by_cases hkey : v.key = k
      · have hne : v.revision ≠ n + 1 := fun hrev => h v hv hrev (hkey ▸ hunder) hkey
        have hiff : v.revision ≤ n + 1 ↔ v.revision ≤ n := by omega
        simp [hiff]
      · simp [hkey]
    rw [hlatest]
  · -- Nothing outside the prefix is shown at any revision.
    have hnone : ∀ row : Option Row, (∀ r, row = some r → r.key = k) → (row.bind fun row =>
        if isLive row && underPrefix selected k then (shown codec sealer row).toOption.filter fun v =>
          grant.selection.isMatch lib.text.print v else none) = none := by
      intro row _
      cases row with
      | none => rfl
      | some r => simp [hunder]
    rw [hnone _ fun r hr => (latestAt_mem hr).2.1, hnone _ fun r hr => (latestAt_mem hr).2.1]

/-- The rows of one revision: none, or one. -/
theorem window_succ {rows : List Row} (ho : Ordered rows) (n : ℕ) :
    window Version.revision n (n + 1) rows = [] ∨
      ∃ v ∈ rows, v.revision = n + 1 ∧ window Version.revision n (n + 1) rows = [v] := by
  have hasc : Ordered (window Version.revision n (n + 1) rows) := ho.filter _
  cases hw : window Version.revision n (n + 1) rows with
  | nil => exact .inl rfl
  | cons v rest =>
    have hv : v ∈ window Version.revision n (n + 1) rows := by simp [hw]
    obtain ⟨hmem, hlo, hhi⟩ := mem_window.mp hv
    refine .inr ⟨v, hmem, by omega, ?_⟩
    cases rest with
    | nil => rfl
    | cons u rest =>
      have hu : u ∈ window Version.revision n (n + 1) rows := by simp [hw]
      obtain ⟨_, _, hle⟩ := mem_window.mp hu
      rw [hw] at hasc
      have hlt := (List.pairwise_cons.mp hasc).1 u (by simp)
      omega

/-- A client that holds the list at a revision holds it at every later one, once it has applied
the changes in between. -/
theorem run_rows (ho : Ordered log) {start n : ℕ} (hn : start ≤ n) {outs : List (Option Line)}
    (h : (window Version.revision start n (rowsUnder selected log)).mapM
      (tellRow codec lib grant sealer log) = .ok outs) :
    Client.run (seen codec lib grant sealer selected log start) outs.reduceOption =
        some (seen codec lib grant sealer selected log n) ∧
      ∀ v ∈ window Version.revision start n (rowsUnder selected log),
        ∃ value, shown codec sealer v = .ok value := by
  induction n, hn using Nat.le_induction generalizing outs with
  | base =>
    rw [window_eq_nil le_rfl] at h ⊢
    cases Except.ok.inj h
    exact ⟨rfl, by simp⟩
  | succ n hn ih =>
    have hrows : Ordered (rowsUnder selected log) := rowsUnder_ordered ho
    rw [← window_append hrows hn (Nat.le_succ n)] at h ⊢
    obtain ⟨before, last, hbefore, hlast, rfl⟩ := mapM_append_eq_ok.mp h
    obtain ⟨hrun, hshown⟩ := ih hbefore
    rcases window_succ hrows n with hnil | ⟨v, hv, hrev, hone⟩
    · rw [hnil] at hlast ⊢
      obtain rfl : [] = last := Except.ok.inj hlast
      have hsame : seen codec lib grant sealer selected log (n + 1) =
          seen codec lib grant sealer selected log n := by
        funext k
        refine seen_succ_of_not_mem fun v hv hrev hunder _ => ?_
        have hmem : v ∈ window Version.revision n (n + 1) (rowsUnder selected log) :=
          mem_window.mpr ⟨List.mem_filter.mpr ⟨hv, hunder⟩, by omega, by omega⟩
        simp [hnil] at hmem
      rw [List.append_nil, List.append_nil, hsame]
      exact ⟨hrun, hshown⟩
    · rw [hone] at hlast ⊢
      obtain ⟨out, rest, hout, hrest, rfl⟩ := mapM_cons_eq_ok.mp hlast
      obtain rfl : [] = rest := Except.ok.inj hrest
      obtain ⟨hlog, hunder⟩ := List.mem_filter.mp hv
      obtain ⟨hvalue, htold⟩ := tellRow_ok ho hlog hunder hout
      refine ⟨?_, fun u hu => ?_⟩
      · have hsucc : seen codec lib grant sealer selected log (n + 1) =
            Function.update (seen codec lib grant sealer selected log n) v.key
              (seen codec lib grant sealer selected log (n + 1) v.key) := by
          funext k
          by_cases hk : k = v.key
          · rw [hk, Function.update_self]
          · rw [Function.update_of_ne hk]
            refine seen_succ_of_not_mem fun u hu hurev _ hkey => hk ?_
            rw [← hkey, ho.eq_of_key hu hlog (hurev.trans hrev.symm)]
        rw [hrev, Nat.add_sub_cancel] at htold
        have hone : (before ++ [out]).reduceOption = before.reduceOption ++ out.toList := by
          cases out <;> simp [List.reduceOption]
        rw [hone, Client.run_append, hrun, Option.bind_some, htold.receive rfl, ← hsucc]
      · rcases List.mem_append.mp hu with hu | hu
        · exact hshown u hu
        · rw [List.mem_singleton.mp hu]
          exact hvalue

/-- The objects of rows with distinct keys, looked up among the entries that were kept. -/
theorem lookup_entries {rows : List Row} {values : List Json} (p : Json → Bool)
    (hkeys : (rows.map fun row => row.key).Nodup)
    (hvalues : rows.mapM (shown codec sealer) = .ok values) (k : StoreKey) :
    (((rows.map fun row => row.key).zip values).filter fun e => p e.2).lookup k =
      (rows.find? fun row => row.key = k).bind fun row =>
        (shown codec sealer row).toOption.filter p := by
  induction rows generalizing values with
  | nil =>
    obtain rfl : [] = values := Except.ok.inj hvalues
    rfl
  | cons row rows ih =>
    obtain ⟨v, rest, hv, hrest, rfl⟩ := mapM_cons_eq_ok.mp hvalues
    rw [List.map_cons, List.nodup_cons] at hkeys
    have ih := ih hkeys.2 hrest
    have htail : k = row.key → (((rows.map fun row => row.key).zip rest).filter
        fun e => p e.2).lookup k = none := by
      rintro rfl
      have hnone : (rows.find? fun r => r.key = row.key) = none := by
        refine List.find?_eq_none.mpr fun r hr hk => hkeys.1 ?_
        exact List.mem_map.mpr ⟨r, hr, of_decide_eq_true hk⟩
      rw [ih, hnone]
      rfl
    rw [List.map_cons, List.zip_cons_cons]
    by_cases hk : k = row.key
    · subst hk
      rw [List.find?_cons_of_pos (by simp), Option.bind_some, hv]
      cases hp : p v with
      | true =>
        rw [List.filter_cons_of_pos (by simpa using hp)]
        simp [List.lookup, Except.toOption, Option.filter_some, hp]
      | false =>
        rw [List.filter_cons_of_neg (by simp [hp]), htail rfl]
        simp [Except.toOption, Option.filter_some, hp]
    · rw [List.find?_cons_of_neg (by simpa using fun h => hk h.symm), ← ih]
      cases hp : p v with
      | true =>
        rw [List.filter_cons_of_pos (by simpa using hp), List.lookup_cons]
        have hne : (k == row.key) = false := by simpa using hk
        rw [hne]
      | false => rw [List.filter_cons_of_neg (by simp [hp])]

theorem visible_keys_nodup (ho : Ordered log) (revision : ℕ) :
    ((visible selected revision log).map fun row : Row => row.key).Nodup := by
  rw [List.Nodup, List.pairwise_map]
  refine (visible_ascending ho).imp fun {a b} hlt heq => ?_
  have hab : keyText a = keyText b := congrArg StoreKey.value heq
  rw [hab] at hlt
  exact lt_irrefl _ hlt

theorem of_mem_visible (ho : Ordered log) {revision : ℕ} {row : Row}
    (h : row ∈ visible selected revision log) : latestAt row.key revision log = some row ∧
      (isLive row && underPrefix selected row.key) = true := by
  obtain ⟨hsnap, hlive, hunder⟩ := mem_visible.mp h
  exact ⟨(mem_snapshot ho).mp hsnap, by simp [hlive, hunder]⟩

/-- The row of a key in a snapshot. -/
theorem find_visible (ho : Ordered log) (revision : ℕ) (k : StoreKey) :
    ((visible selected revision log).find? fun row : Row => row.key = k) =
      (latestAt k revision log).filter fun row => isLive row && underPrefix selected row.key := by
  have hfound : ∀ row ∈ visible selected revision log, row.key = k →
      latestAt k revision log = some row ∧ (isLive row && underPrefix selected row.key) = true := by
    rintro row hrow rfl
    exact of_mem_visible ho hrow
  cases hkept : (latestAt k revision log).filter
    fun row => isLive row && underPrefix selected row.key with
  | none =>
    refine List.find?_eq_none.mpr fun row hrow hkey => ?_
    obtain ⟨hlatest, hshown⟩ := hfound row hrow (of_decide_eq_true hkey)
    rw [hlatest, Option.filter_some, if_pos hshown] at hkept
    cases hkept
  | some row =>
    obtain ⟨hlatest, hshown⟩ := Option.filter_eq_some_iff.mp hkept
    have hkey := (latestAt_mem hlatest).2.1
    rw [Bool.and_eq_true] at hshown
    have hmem : row ∈ visible selected revision log :=
      mem_visible.mpr ⟨(mem_snapshot ho).mpr (hkey ▸ hlatest), hshown⟩
    cases hfind : (visible selected revision log).find? fun row : Row => row.key = k with
    | none => exact absurd (decide_eq_true hkey) (List.find?_eq_none.mp hfind row hmem)
    | some r =>
      have hrkey : r.key = k := by simpa using List.find?_some hfind
      rw [← (hfound r (List.mem_of_find?_eq_some hfind) hrkey).1, hlatest]

/-- The client that starts from a list holds what the list shows. -/
theorem Listed.client (ho : Ordered log) {revision : ℕ} {entries : List (StoreKey × Json)}
    (h : Listed codec lib grant sealer (visible selected revision log) entries) :
    Client.of entries = seen codec lib grant sealer selected log revision := by
  obtain ⟨values, hvalues, rfl⟩ := h
  funext k
  have hlookup := lookup_entries (grant.selection.isMatch lib.text.print)
    (visible_keys_nodup ho revision) hvalues k
  rw [Client.of, hlookup, find_visible ho]
  unfold seen
  cases hlatest : latestAt k revision log with
  | none => rfl
  | some row =>
    have hkey := (latestAt_mem hlatest).2.1
    rw [Option.bind_some, Option.filter_some, hkey]
    cases hshow : (isLive row && underPrefix selected k) <;> simp

/-- Objects that a list showed, and those reported since, can be shown. -/
theorem Listed.extend (ho : Ordered log) {start n : ℕ}
    (hbefore : ∀ row ∈ visible selected start log, ∃ value, shown codec sealer row = .ok value)
    (hsince : ∀ v ∈ window Version.revision start n (rowsUnder selected log),
      ∃ value, shown codec sealer v = .ok value) (hn : start ≤ n) :
    ∃ entries, Listed codec lib grant sealer (visible selected n log) entries := by
  obtain ⟨values, hvalues⟩ : ∃ values, (visible selected n log).mapM (shown codec sealer) =
      .ok values := by
    refine mapM_exists_ok fun row hrow => ?_
    obtain ⟨hsnap, hlive, hunder⟩ := mem_visible.mp hrow
    obtain ⟨hlatest, _⟩ := of_mem_visible ho hrow
    obtain ⟨hmem, _, hle⟩ := latestAt_mem hlatest
    by_cases hold : row.revision ≤ start
    · refine hbefore row (mem_visible.mpr ⟨(mem_snapshot ho).mpr ?_, hlive, hunder⟩)
      refine (newest_eq_some ho).mpr ⟨hmem, by simp [hold], fun u hu hp => ?_⟩
      have hkey : u.key = row.key ∧ u.revision ≤ start := by simpa using hp
      exact newest_le hlatest hu (by simp [hkey.1, hkey.2.trans hn])
    · exact hsince row (mem_window.mpr ⟨List.mem_filter.mpr ⟨hmem, hunder⟩, by omega, hle⟩)
  exact ⟨_, values, hvalues, rfl⟩

/-- The initial events fill a client that holds none of their objects. -/
theorem run_initial {rows : List Row} (hkeys : (rows.map fun row => row.key).Nodup)
    {events : List Storage.WatchEvent} {outs : List (Option Line)}
    (hevents : rows.mapM (fun row => (openRow (decodeRowValue sealer) row).map addedEvent) =
      .ok events) (houts : events.mapM (told codec lib grant) = .ok outs) {c : Client}
    (hc : ∀ row ∈ rows, c row.key = none) :
    (∀ row ∈ rows, ∃ value, shown codec sealer row = .ok value) ∧
      ∃ c', c.run outs.reduceOption = some c' ∧
        ∀ k, c' k = (rows.find? fun row => row.key = k).elim (c k) fun row =>
          (shown codec sealer row).toOption.filter (grant.selection.isMatch lib.text.print) := by
  induction rows generalizing events outs c with
  | nil =>
    obtain rfl : [] = events := Except.ok.inj hevents
    obtain rfl : [] = outs := Except.ok.inj houts
    exact ⟨by simp, c, rfl, fun _ => rfl⟩
  | cons row rows ih =>
    obtain ⟨event, events, hevent, hrest, rfl⟩ := mapM_cons_eq_ok.mp hevents
    obtain ⟨out, outs, hout, htail, rfl⟩ := mapM_cons_eq_ok.mp houts
    rw [List.map_cons, List.nodup_cons] at hkeys
    cases hopen : openRow (decodeRowValue sealer) row with
    | error e =>
      rw [hopen] at hevent
      cases hevent
    | ok obj =>
      rw [hopen] at hevent
      obtain rfl : addedEvent obj = event := Except.ok.inj hevent
      obtain ⟨current, previous, hcurrent, _, hnone, htold⟩ := told_ok rfl rfl hout
      obtain ⟨hkey, _, _⟩ := openRow_ok hopen
      have hshown : shown codec sealer row = .ok current := by
        rw [shown_eq hopen]
        exact hcurrent
      rw [hnone rfl, if_neg (by simp [addedEvent]), hkey] at htold
      have hone := htold.receive (hc row (by simp))
      obtain ⟨hall, c', hrun, hc'⟩ := ih hkeys.2 hrest htail
        (c := Function.update c row.key
          ((some current).filter (grant.selection.isMatch lib.text.print))) fun r hr => by
        have hne : r.key ≠ row.key := fun he => hkeys.1 (List.mem_map.mpr ⟨r, hr, he⟩)
        rw [Function.update_of_ne hne]
        exact hc r (by simp [hr])
      refine ⟨?_, c', ?_, fun k => ?_⟩
      · rintro r hr
        rcases List.mem_cons.mp hr with rfl | hr
        · exact ⟨current, hshown⟩
        · exact hall r hr
      · have hcons : (out :: outs).reduceOption = out.toList ++ outs.reduceOption := by
          cases out <;> simp [List.reduceOption]
        rw [hcons, Client.run_append, hone]
        exact hrun
      · rw [hc' k]
        by_cases hk : row.key = k
        · subst hk
          have hrest : (rows.find? fun r => r.key = row.key) = none := by
            refine List.find?_eq_none.mpr fun r hr he => hkeys.1 ?_
            exact List.mem_map.mpr ⟨r, hr, of_decide_eq_true he⟩
          rw [hrest, List.find?_cons_of_pos (by simp)]
          simp [hshown, Except.toOption]
        · rw [List.find?_cons_of_neg (by simpa using hk), Function.update_of_ne (Ne.symm hk)]

/-- A watch from no revision on fills an empty client with the list at its anchor. -/
theorem run_snapshot (ho : Ordered log) {revision : ℕ} {events : List Storage.WatchEvent}
    {outs : List (Option Line)}
    (hevents : initialEvents (decodeRowValue sealer) selected revision log = .ok events)
    (houts : events.mapM (told codec lib grant) = .ok outs) :
    Client.run (fun _ => none) outs.reduceOption =
        some (seen codec lib grant sealer selected log revision) ∧
      ∀ row ∈ visible selected revision log, ∃ value, shown codec sealer row = .ok value := by
  obtain ⟨hshown, c, hrun, hc⟩ := run_initial (visible_keys_nodup ho revision) hevents houts
    (c := fun _ => none) fun _ _ => rfl
  obtain ⟨values, hvalues⟩ := mapM_exists_ok hshown
  have hlisted : Listed codec lib grant sealer (visible selected revision log) _ :=
    ⟨values, hvalues, rfl⟩
  refine ⟨?_, hshown⟩
  rw [hrun, ← hlisted.client ho]
  congr 1
  funext k
  rw [hc k, Client.of, lookup_entries _ (visible_keys_nodup ho revision) hvalues]
  cases (visible selected revision log).find? fun row : Row => row.key = k <;> rfl

/-! ## The lines of the stream -/

theorem lineOf_ok {bookmarks pending : Bool} {now : Registry}
    {event : Storage.WatchEvent} {out : Option Line}
    (h : lineOf codec lib grant bookmarks pending now (.ok event) = .ok out) :
    if event.kind = .bookmark then ∀ line ∈ out, line.isBookmark = true
    else told codec lib grant event = .ok out := by
  replace h : (if event.kind = .bookmark then
      if !bookmarks && !pending then .ok none else .ok (some (.bookmark event.revision pending))
      else told codec lib grant event) = .ok out := by
    unfold lineOf at h
    cases hguard : grant.readGuard with
    | none =>
      rw [hguard] at h
      exact h
    | some guard =>
      rw [hguard] at h
      obtain ⟨⟨⟩, _, h⟩ := bind_eq_ok.mp h
      exact h
  by_cases hkind : event.kind = .bookmark
  · rw [if_pos hkind] at h ⊢
    split_ifs at h <;> cases Except.ok.inj h
    · simp
    · simp [Line.isBookmark]
  · rw [if_neg hkind] at h ⊢
    exact h

/-- A line that is told of an event is about its revision. -/
theorem told_upTo {event : Storage.WatchEvent} {out : Option Line}
    (h : told codec lib grant event = .ok out) (R : ℕ) :
    out.toList.filter (Line.upTo R) = if event.revision ≤ R then out.toList else [] := by
  obtain ⟨_, _, h⟩ := bind_eq_ok.mp h
  obtain ⟨result, _, h⟩ := bind_eq_ok.mp h
  cases result with
  | none =>
    cases Except.ok.inj h
    simp
  | some r =>
    obtain ⟨value, _, h⟩ := bind_eq_ok.mp h
    cases Except.ok.inj h
    by_cases hle : event.revision ≤ R <;> simp [Line.upTo, hle]

/-- A client that applies the lines of an unbroken stream applies what it is told of the
changes. -/
theorem serve_changes {bookmarks pending : Bool} {items : List (Registry × Storage.WatchEvent)}
    (hfine : ∀ line ∈ serve codec lib grant bookmarks pending (items.map fun e => (e.1, .ok e.2)),
      line.isError = false) (R : ℕ) :
    ∃ outs, ((changesOf (items.map Prod.snd)).filter fun e => e.revision ≤ R).mapM
        (told codec lib grant) = .ok outs ∧
      ∀ c : Client, c.run ((serve codec lib grant bookmarks pending
        (items.map fun e => (e.1, .ok e.2))).filter (Line.upTo R)) = c.run outs.reduceOption := by
  induction items generalizing pending with
  | nil => exact ⟨[], rfl, fun _ => rfl⟩
  | cons item items ih =>
    obtain ⟨now, event⟩ := item
    cases hline : lineOf codec lib grant bookmarks pending now (.ok event) with
    | error e => simp [serve, hline, Line.isError] at hfine
    | ok out =>
      obtain ⟨pending', hserve⟩ : ∃ pending', serve codec lib grant bookmarks pending
          (((now, event) :: items).map fun e => (e.1, .ok e.2)) = out.toList ++
            serve codec lib grant bookmarks pending' (items.map fun e => (e.1, .ok e.2)) := by
        rw [List.map_cons, serve, hline]
        cases out with
        | none => exact ⟨pending, rfl⟩
        | some line => exact ⟨_, rfl⟩
      rw [hserve] at hfine ⊢
      obtain ⟨outs, houts, hrun⟩ := ih fun line hl => hfine line (List.mem_append_right _ hl)
      have hout := lineOf_ok hline
      by_cases hkind : event.kind = .bookmark
      · rw [if_pos hkind] at hout
        refine ⟨outs, by simpa [changesOf, hkind] using houts, fun c => ?_⟩
        have hkeep : c.run (out.toList.filter (Line.upTo R)) = some c := by
          cases out with
          | none => rfl
          | some line =>
            cases line with
            | bookmark _ _ => rfl
            | _ => simp [Line.isBookmark] at hout
        rw [List.filter_append, Client.run_append, hkeep]
        exact hrun c
      · rw [if_neg hkind] at hout
        have hchanges : changesOf (((now, event) :: items).map Prod.snd) =
            event :: changesOf (items.map Prod.snd) := by
          simp [changesOf, hkind]
        rw [hchanges]
        by_cases hle : event.revision ≤ R
        · refine ⟨out :: outs, ?_, fun c => ?_⟩
          · rw [List.filter_cons_of_pos (by simpa using hle)]
            exact mapM_cons_eq_ok.mpr ⟨out, outs, hout, houts, rfl⟩
          · have hcons : (out :: outs).reduceOption = out.toList ++ outs.reduceOption := by
              cases out <;> simp [List.reduceOption]
            rw [List.filter_append, told_upTo hout, if_pos hle, hcons, Client.run_append,
              Client.run_append]
            congr 1
            funext c
            exact hrun c
        · refine ⟨outs, ?_, fun c => ?_⟩
          · rw [List.filter_cons_of_neg (by simpa using hle)]
            exact houts
          · rw [List.filter_append, told_upTo hout, if_neg hle, List.nil_append]
            exact hrun c

/-! ## Every watch -/

/-- Rows of the log, told one by one, are told by their events. -/
theorem mapM_tellRow {rows : List Row} {events : List Storage.WatchEvent} {outs : List (Option Line)}
    (hevents : rows.mapM (logEvent (decodeRowValue sealer) (decodePrevious sealer) log) =
      .ok events) (houts : events.mapM (told codec lib grant) = .ok outs) :
    rows.mapM (tellRow codec lib grant sealer log) = .ok outs := by
  induction rows generalizing events outs with
  | nil =>
    obtain rfl : [] = events := Except.ok.inj hevents
    obtain rfl : [] = outs := Except.ok.inj houts
    rfl
  | cons row rows ih =>
    obtain ⟨event, events, hevent, hrest, rfl⟩ := mapM_cons_eq_ok.mp hevents
    obtain ⟨out, outs, hout, htail, rfl⟩ := mapM_cons_eq_ok.mp houts
    refine mapM_cons_eq_ok.mpr ⟨out, outs, ?_, ih hrest htail, rfl⟩
    rw [tellRow, hevent]
    exact hout

/-- What a client holds before it applies the lines of a watch: the list at the revision that the
watch resumes from, or nothing. -/
def Starts (codec : Codec) (lib : Libraries) (grant : Grant) (sealer : SecretsSealer)
    (target : Target) (log : List Row) (w : Watch) (c : Client) : Prop :=
  match requestedRevision w.sel with
  | some R => ∃ entries, Listed codec lib grant sealer (live target R log) entries ∧
      c = Client.of entries
  | none => c = fun _ => none

/-- The lines up to `R` of a stream take the client to the list at `R`. -/
def Holds (codec : Codec) (lib : Libraries) (grant : Grant) (sealer : SecretsSealer)
    (target : Target) (log : List Row) (R : ℕ) (c : Client) (lines : List Line) : Prop :=
  ∃ entries, Listed codec lib grant sealer (live target R log) entries ∧
    c.run (lines.filter (Line.upTo R)) = some (Client.of entries)

/-- The events up to a revision past the anchor: those that open the stream, and then one for each
row since. -/
theorem delivered_upTo {w : Watch} {cursor R : ℕ} {opening sent rest : List Storage.WatchEvent}
    (hdel : Sqlite.Delivers sealer log w cursor opening) (hsplit : sent ++ rest = w.emitted)
    (hR : R ≤ cursor) (hrest : ∀ e ∈ changesOf rest, R < e.revision)
    (hopening : ∀ e ∈ changesOf opening, e.revision ≤ R) :
    ∃ events, (changesOf sent).filter (fun e => e.revision ≤ R) = changesOf opening ++ events ∧
      (window Version.revision w.anchor R (rowsUnder w.sel.selected log)).mapM
        (logEvent (decodeRowValue sealer) (decodePrevious sealer) log) = .ok events := by
  obtain ⟨tail, htail, hchanges⟩ := hdel.emitted
  have hevents := mapM_filter (p := fun v : Row => v.revision ≤ R) (q := fun e => e.revision ≤ R)
    (fun v e he => by rw [logEvent_revision he]) hdel.events
  have hwindow : (window Version.revision w.anchor cursor (rowsUnder w.sel.selected log)).filter
      (fun v => v.revision ≤ R) = window Version.revision w.anchor R
        (rowsUnder w.sel.selected log) := by
    rw [window, window, List.filter_filter]
    refine List.filter_congr fun v _ => ?_
    have hiff : v.revision ≤ R ∧ w.anchor < v.revision ∧ v.revision ≤ cursor ↔
        w.anchor < v.revision ∧ v.revision ≤ R := by omega
    rw [Bool.eq_iff_iff]
    simpa using hiff
  rw [hwindow] at hevents
  refine ⟨_, ?_, hevents⟩
  have hall : changesOf sent ++ changesOf rest = changesOf opening ++ w.batches.flatten := by
    rw [← changesOf_append, hsplit, htail, changesOf_append, hchanges]
  have hfilter := congrArg (List.filter fun e => decide (e.revision ≤ R)) hall
  have hdrop : (changesOf rest).filter (fun e => e.revision ≤ R) = [] :=
    List.filter_eq_nil_iff.mpr fun e he => by simpa using hrest e he
  have hkeep : (changesOf opening).filter (fun e => e.revision ≤ R) = changesOf opening :=
    List.filter_eq_self.mpr fun e he => by simpa using hopening e he
  rwa [List.filter_append, List.filter_append, hdrop, hkeep, List.append_nil] at hfilter

/-- The events of a snapshot are changes up to its revision. -/
theorem initial_changes (ho : Ordered log) {revision : ℕ} {initial : List Storage.WatchEvent}
    (h : initialEvents (decodeRowValue sealer) selected revision log = .ok initial) :
    changesOf (initial ++ [bookmarkAt revision]) = initial ∧
      ∀ e ∈ initial, e.revision ≤ revision := by
  have hadded : ∀ e ∈ initial, e.kind ≠ .bookmark ∧ e.revision ≤ revision := by
    intro e he
    obtain ⟨row, hrow, hopen⟩ := mapM_mem h he
    cases hobj : openRow (decodeRowValue sealer) row with
    | error e =>
      rw [hobj] at hopen
      cases hopen
    | ok obj =>
      rw [hobj] at hopen
      obtain rfl : addedEvent obj = e := Except.ok.inj hopen
      refine ⟨by simp [addedEvent], ?_⟩
      have hle := (latestAt_mem (of_mem_visible ho hrow).1).2.2
      change obj.revision ≤ revision
      rwa [(openRow_ok hobj).2.1]
  refine ⟨?_, fun e he => (hadded e he).2⟩
  rw [changesOf_append, changesOf_bookmark, List.append_nil]
  exact List.filter_eq_self.mpr fun e he => by simpa using (hadded e he).1

/-- A client that starts a watch from a list holds, once it has applied the lines up to a later
revision, the list at that revision, and no line contradicts what it holds. A watch that names no
revision replays the list at its anchor first. -/
theorem watch_follows_list {codec : Codec} {lib : Libraries} {grant : Grant}
    {sealer : SecretsSealer} {target : Target} {s : Sqlite.State} {ls : List (ℕ × Sqlite.Action)}
    (h : AnyRun (Sqlite.step sealer) .initial ls s) {i : ℕ} {w : Watch} {cursor : ℕ}
    (hw : s.sessions i = .tailing w cursor) (hsel : w.sel.selected = target.pathPrefix)
    {bookmarks pending : Bool} {sent : List (Registry × Storage.WatchEvent)}
    {rest : List Storage.WatchEvent} (hsplit : sent.map Prod.snd ++ rest = w.emitted)
    (hfine : ∀ line ∈ serve codec lib grant bookmarks pending (sent.map fun e => (e.1, .ok e.2)),
      line.isError = false)
    {R : ℕ} (hanchor : w.anchor ≤ R) (hcursor : R ≤ cursor)
    (hrest : ∀ e ∈ changesOf rest, R < e.revision) {c : Client}
    (hstart : Starts codec lib grant sealer target (rowsOf s.log) w c) :
    Holds codec lib grant sealer target (rowsOf s.log) R c
      (serve codec lib grant bookmarks pending (sent.map fun e => (e.1, .ok e.2))) := by
  have hinv := Sqlite.reachable_watchInv h i
  rw [hw] at hinv
  obtain ⟨_, opening, hopen, hdel⟩ := hinv
  have ho : Ordered (rowsOf s.log) := (Sqlite.reachable_sound h).ordered
  obtain ⟨outs, houts, hrun⟩ := serve_changes hfine R
  -- What the client holds when it has applied the opening of the stream.
  have hopened : (∀ e ∈ changesOf opening, e.revision ≤ R) ∧
      ∀ first, (changesOf opening).mapM (told codec lib grant) = .ok first →
        c.run first.reduceOption =
            some (seen codec lib grant sealer target.pathPrefix (rowsOf s.log) w.anchor) ∧
          ∀ row ∈ live target w.anchor (rowsOf s.log), ∃ value, shown codec sealer row = .ok value := by
    unfold Sqlite.Opening at hopen
    unfold Starts at hstart
    cases hreq : requestedRevision w.sel with
    | some r =>
      rw [hreq] at hopen hstart
      obtain ⟨rfl, rfl⟩ := hopen
      obtain ⟨entries, hlisted, rfl⟩ := hstart
      refine ⟨by simp [changesOf], fun first hfirst => ?_⟩
      obtain rfl : [] = first := Except.ok.inj hfirst
      rw [hlisted.client ho]
      obtain ⟨values, hvalues, _⟩ := hlisted
      exact ⟨rfl, fun row hrow => (mapM_mem_of_mem hvalues hrow).imp fun _ hv => hv.2⟩
    | none =>
      rw [hreq] at hopen hstart
      obtain ⟨initial, hinitial, rfl⟩ := hopen
      subst hstart
      obtain ⟨hchanges, hle⟩ := initial_changes ho hinitial
      rw [hchanges]
      rw [hsel] at hinitial
      exact ⟨fun e he => (hle e he).trans hanchor, fun first hfirst => run_snapshot ho hinitial hfirst⟩
  obtain ⟨events, hchanges, hevents⟩ := delivered_upTo hdel hsplit hcursor hrest hopened.1
  rw [hchanges] at houts
  obtain ⟨first, later, hfirst, hlater, rfl⟩ := mapM_append_eq_ok.mp houts
  obtain ⟨hbegin, hbefore⟩ := hopened.2 first hfirst
  rw [hsel] at hevents
  obtain ⟨hend, hsince⟩ := run_rows ho hanchor (mapM_tellRow hevents hlater)
  have hextend : ∃ entries, Listed codec lib grant sealer (live target R (rowsOf s.log)) entries :=
    Listed.extend ho hbefore hsince hanchor
  obtain ⟨entries, hlisted⟩ := hextend
  have hreduce : (first ++ later).reduceOption = first.reduceOption ++ later.reduceOption := by
    simp [List.reduceOption]
  refine ⟨entries, hlisted, ?_⟩
  rw [hrun, hreduce, Client.run_append, hbegin, Option.bind_some, hend, hlisted.client ho]

/-- A pod is created and updated; beside it a watch of the pods starts after revision `r`. -/
def changedPod (r advances : ℕ) : List (ℕ × Sqlite.Action) :=
  [(0, .begin (.mutate 0 (.create ⟨podA, [1], 0⟩))), (1, .begin (.mutate 0 (.update ⟨podA, [1], 0⟩ 1))),
    (2, .begin (.watch ⟨"/registry/pods/test/", some r, 1⟩))] ++
    List.replicate advances (2, .advance 0 false)

theorem changed_pod_followed :
    ∃ s w lines, AnyRun (Sqlite.step unsealed) .initial (changedPod 1 1) s ∧
      s.sessions 2 = .tailing w 2 ∧ Holds (.plain [.null, nameless]) (.plain []) ⟨⟨[], []⟩, none⟩
        unsealed podsTarget (rowsOf s.log) 2
        (Client.of [(podA, .object [("metadata", .object [("resourceVersion", .string "1")])])])
        lines := by
  let w : Watch := ⟨⟨"/registry/pods/test/", some 1, 1⟩, 1,
    [⟨some ⟨podA, [1], 1⟩, .modified, 2, some ⟨podA, [1], 2⟩⟩],
    [[⟨some ⟨podA, [1], 1⟩, .modified, 2, some ⟨podA, [1], 2⟩⟩]]⟩
  have hexec : (Runs.exec (Sqlite.step unsealed) .initial (changedPod 1 1)).map
      (fun s => (s.sessions 2, rowsOf s.log)) =
      some (.tailing w 2, [⟨podA, 1, ⟨[1], 0⟩⟩, ⟨podA, 2, ⟨[1], 1⟩⟩]) := by decide
  obtain ⟨s, hrun, hs⟩ := run_of_exec_map hexec
  obtain ⟨hs, hlog⟩ := Prod.mk.inj hs
  have hlive : live podsTarget 1 (rowsOf s.log) = [⟨podA, 1, ⟨[1], 0⟩⟩] := by
    rw [hlog]
    decide
  have hlines : serve (.plain [.null, nameless]) (.plain []) ⟨⟨[], []⟩, none⟩ false false
      ((w.emitted.map fun e => (Registry.empty, e)).map fun e => (e.1, .ok e.2)) =
      [.change "MODIFIED" (some podA) 2
        (.object [("metadata", .object [("resourceVersion", .string "2")])])] := rfl
  have hsplit : (w.emitted.map fun e => (Registry.empty, e)).map Prod.snd ++ [] = w.emitted := rfl
  have hfine : ∀ line ∈ serve (.plain [.null, nameless]) (.plain []) ⟨⟨[], []⟩, none⟩ false false
      ((w.emitted.map fun e => (Registry.empty, e)).map fun e => (e.1, .ok e.2)),
      line.isError = false := by
    intro line hline
    rw [hlines] at hline
    rw [List.mem_singleton.mp hline]
    rfl
  refine ⟨s, w, _, hrun, hs, watch_follows_list hrun hs rfl hsplit hfine (show 1 ≤ 2 by decide) le_rfl
    (by simp [changesOf]) ⟨_, ?_, rfl⟩⟩
  rw [hlive]
  exact ⟨_, rfl, rfl⟩

/-- A watch that starts at revision zero replays the list at its anchor and tells of no change
before it. -/
theorem zero_watch_skips : ¬ ∀ (s : Sqlite.State) (ls : List (ℕ × Sqlite.Action)),
    AnyRun (Sqlite.step unsealed) .initial ls s →
    ∀ i w cursor, s.sessions i = .tailing w cursor → w.sel.selected = podsTarget.pathPrefix →
    ∀ sent : List (Registry × Storage.WatchEvent), sent.map Prod.snd = w.emitted →
    (∀ line ∈ serve (.plain [.null, nameless]) (.plain []) ⟨⟨[], []⟩, none⟩ false false
      (sent.map fun e => (e.1, .ok e.2)), line.isError = false) →
    ∀ R R', w.sel.afterRevision = some R → R ≤ R' → R' ≤ cursor → ∀ entries,
      Listed (.plain [.null, nameless]) (.plain []) ⟨⟨[], []⟩, none⟩ unsealed
        (live podsTarget R (rowsOf s.log)) entries →
      Holds (.plain [.null, nameless]) (.plain []) ⟨⟨[], []⟩, none⟩ unsealed podsTarget
        (rowsOf s.log) R' (Client.of entries)
        (serve (.plain [.null, nameless]) (.plain []) ⟨⟨[], []⟩, none⟩ false false
          (sent.map fun e => (e.1, .ok e.2))) := by
  intro hclaim
  let w : Watch := ⟨⟨"/registry/pods/test/", some 0, 1⟩, 2,
    [⟨none, .added, 2, some ⟨podA, [1], 2⟩⟩, bookmarkAt 2], []⟩
  have hexec : (Runs.exec (Sqlite.step unsealed) .initial (changedPod 0 1)).map
      (fun s => (s.sessions 2, rowsOf s.log)) =
      some (.tailing w 2, [⟨podA, 1, ⟨[1], 0⟩⟩, ⟨podA, 2, ⟨[1], 1⟩⟩]) := by decide
  obtain ⟨s, hrun, hs⟩ := run_of_exec_map hexec
  obtain ⟨hs, hlog⟩ := Prod.mk.inj hs
  have hlines : serve (.plain [.null, nameless]) (.plain []) ⟨⟨[], []⟩, none⟩ false false
      ((w.emitted.map fun e => (Registry.empty, e)).map fun e => (e.1, .ok e.2)) =
      [.change "ADDED" (some podA) 2
        (.object [("metadata", .object [("resourceVersion", .string "2")])])] := rfl
  have hnothing : live podsTarget 0 (rowsOf s.log) = [] := by
    rw [hlog]
    decide
  have hlive : live podsTarget 1 (rowsOf s.log) = [⟨podA, 1, ⟨[1], 0⟩⟩] := by
    rw [hlog]
    decide
  obtain ⟨entries, ⟨values, hvalues, rfl⟩, hholds⟩ := hclaim s _ hrun 2 w 2 hs rfl
    (w.emitted.map fun e => (.empty, e)) rfl (by
      rw [hlines]
      intro line hline
      rw [List.mem_singleton.mp hline]
      rfl) 0 1 rfl (by decide) (by decide) [] (by
      rw [hnothing]
      exact ⟨[], rfl, rfl⟩)
  rw [hlines] at hholds
  rw [hlive] at hvalues hholds
  obtain rfl : [_] = values := Except.ok.inj hvalues
  have hclient := congrFun (Option.some.inj hholds) podA
  cases hclient

end Hedronetes.Server.Watches
