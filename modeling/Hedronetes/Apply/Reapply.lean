import Hedronetes.Apply.Again
import Hedronetes.Apply.Frame
import Hedronetes.Apply.Transfer

/-!
# Applying the same object again

The second apply reads the ownership the first one wrote, finds its values in place,
drops nothing, prunes and writes again. It makes another object only where the pruning
hides list items that were not the last ones added, and fails only over a path that the
applied object declares without having a value there.
-/

namespace Hedronetes.Apply

open FirstMatch Fallible

variable {text : JsonText} {time : String} {stored applied desired merged result : Json}
  {options : Options} {existing : List Entry}

/-! ## Records under pruning -/

theorem noBare_grown {j : Json} (h : Grown text j) : noBare j = true := by
  induction h with
  | object _ _ _ ih => exact (noBare_object _).mpr ih

theorem noBare_ofPairs {pairs : List (String × Json)} (h : ∀ e ∈ pairs, noBare e.2 = true) :
    noBare (Json.ofPairs pairs) = true := by
  have hfold : ∀ (pairs fields : List (String × Json)), (∀ e ∈ pairs, noBare e.2 = true) →
      (∀ e ∈ fields, noBare e.2 = true) →
        ∀ e ∈ pairs.foldl (fun fields e => insertKey e.1 e.2 fields) fields, noBare e.2 = true := by
    intro pairs
    induction pairs with
    | nil => exact fun fields _ hfields => hfields
    | cons d pairs ih =>
      intro fields hpairs hfields
      apply ih _ fun e he => hpairs e (List.mem_cons_of_mem _ he)
      intro e he
      rcases mem_insertKey he with he | rfl
      · exact hfields e he
      · exact hpairs d List.mem_cons_self
  exact (noBare_object _).mpr (hfold pairs [] h (by simp))

theorem noBare_entryValue (entry : Entry) : noBare (entryValue text time entry) = true := by
  apply noBare_ofPairs
  intro e he
  simp only [List.mem_cons, List.not_mem_nil, or_false] at he
  rcases he with rfl | rfl | rfl | rfl | rfl | rfl
  · rfl
  · rfl
  · rfl
  · rfl
  · rfl
  · exact noBare_grown (grown_fieldsV1 entry.paths grown_empty)

/-- Pruning leaves ownership records alone. -/
theorem prune_records (es : List Entry) :
    prune (.array (es.map (entryValue text time))) = .array (es.map (entryValue text time)) := by
  rw [prune_eq_self_iff, noBare_array]
  intro i hi
  obtain ⟨entry, _, rfl⟩ := List.mem_map.mp hi
  refine ⟨?_, noBare_entryValue entry⟩
  obtain ⟨hmanager, hoperation, _⟩ := @strAt_entryValue text time entry
  apply bare_eq_false (Json.strAt_eq_some.mp hoperation)
  decide

/-- An object with the records set in its metadata. -/
def recorded (managed : List Json) (metadata fields : List (String × Json)) : Json :=
  .object (insertKey "metadata" (.object (insertKey managedFields (.array managed) metadata)) fields)

theorem record_eq_recorded {metadata fields : List (String × Json)} {managed : List Json}
    (hm : lookup "metadata" fields = some (.object metadata)) (hne : managed ≠ []) :
    record (.object fields) managed = .ok (recorded managed metadata fields) := by
  have hread : (Json.object fields).field "metadata" = some (.object metadata) := hm
  have hobject : ((Json.object fields).field "metadata").any Json.isObject = true := by
    rw [hread]
    rfl
  rw [record, if_neg hne]
  dsimp only
  rw [if_pos hobject]
  change (assign _ managedFields _ >>= fun m => assign _ "metadata" m) = _
  rw [hread]
  rfl

theorem record_recorded {metadata fields : List (String × Json)} {managed managed' : List Json}
    (hne : managed' ≠ []) : record (recorded managed metadata fields) managed' =
      .ok (recorded managed' metadata fields) := by
  rw [recorded, record_eq_recorded (lookup_insertKey _ _ _) hne, recorded, insertKey_insertKey,
    insertKey_insertKey]
  rfl

/-! ## Declared paths -/

/-- No declared path ends at a list item. -/
theorem Declares.not_keyed {u : Bool} {j : Json} {c : Path} {key value : String}
    (h : Declares u j (c ++ [.keyed key value])) : False := by
  induction c generalizing u j with
  | nil =>
    cases h with
    | @item _ items item _ hnamed hmem hinside =>
      cases hinside with
      | whole hobject _ =>
        have hname := named_strAt hnamed hmem
        rw [Json.isObject_of_field (Json.strAt_eq_some.mp hname)] at hobject
        cases hobject
  | cons s c ih =>
    cases h with
    | member _ _ hinside => exact ih hinside
    | item _ _ hinside => exact ih hinside

/-- The declared paths that the applied object has a value for. -/
def valued (desired : Json) : List Path :=
  (declared desired).filter fun d => (get desired d).isSome

theorem mem_valued {d : Path} :
    d ∈ valued desired ↔ d ∈ declared desired ∧ (get desired d).isSome := by
  simp [valued]

theorem writes_valued {j : Json} :
    writes desired (declared desired) j = writes desired (valued desired) j := by
  unfold valued
  generalize declared desired = ds
  induction ds generalizing j with
  | nil => rfl
  | cons d ds ih =>
    cases hd : get desired d with
    | none =>
      have hwrite : write desired j d = .ok j := by rw [write, hd]
      rw [writes_cons hwrite, List.filter_cons_of_neg (by simp [hd])]
      exact ih
    | some w =>
      rw [List.filter_cons_of_pos (by simp [hd])]
      unfold writes at ih ⊢
      rw [List.foldlM_cons, List.foldlM_cons]
      apply congrArg
      funext k
      exact ih

section Named

variable {fields metadata : List (String × Json)}

theorem valued_nil (hdesired : dropBookkeeping applied = .ok desired) : [] ∉ valued desired :=
  fun h => nil_not_declared hdesired (mem_valued.mp h).1

/-- A path declared beside the records. -/
theorem declared_apart (hfields : KeysSorted fields)
    (hm : lookup "metadata" fields = some (.object metadata)) {d : Path}
    (hd : d ∈ declared (.object fields)) : Apart [.field "metadata", .field managedFields] d := by
  obtain ⟨name, q, rfl, hbelow⟩ := declared_metadata hfields hm hd
  by_cases hname : name = "metadata"
  · subst hname
    obtain ⟨other, y, rfl, hother⟩ := hbelow rfl
    exact Or.inr ⟨rfl, Or.inl hother.symm⟩
  · exact Or.inl fun he => hname he.symm

/-- What the writes do not reach is what it was, and fixed under pruning if that was. -/
theorem unwritten_fixed {a k m : Json} {ds : List Path} {name : String}
    (hds : ∀ d ∈ ds, ∃ other q, d = .field other :: q) (hk : noBare k = true)
    (h : writes a ds k = .ok m) (hnone : child a (.field name) = none) :
    (m.field name).map prune = m.field name := by
  have hsame : m.field name = k.field name := writes_child_none h (apart_field hds) hnone
  rw [hsame]
  cases hv : k.field name with
  | none => rfl
  | some v => rw [Option.map_some, (prune_eq_self_iff v).mpr (noBare_child (s := .field name) hk hv)]

/-- A child that a run of writes leaves was made from a child that pruning fixes. -/
theorem child_run {a b k m v : Json} {s : Segment} {ds : List Path}
    (hds : ∀ d ∈ ds, ∃ t q, d = t :: q ∧ (t = s ∨ t.Apart s)) (hval : ∀ d ∈ ds, (get a d).isSome)
    (hnil : [] ∉ tails s ds) (hk : noBare k = true) (h : writes a ds k = .ok m)
    (hb : child a s = some b) (hv : child m s = some v) :
    ∃ base, noBare base = true ∧ writes b (tails s ds) base = .ok v := by
  have hread := writes_child h hds hb
  rw [hv] at hread
  cases hbase : child k s with
  | some base =>
    rw [hbase, fills_some, map_some_eq_iff] at hread
    exact ⟨base, noBare_child hk hbase, hread⟩
  | none =>
    rw [hbase] at hread
    have hne : tails s ds ≠ [] := by
      intro he
      rw [he] at hread
      cases hread
    rw [fills_missing hne hnil (tails_val hval hb), map_some_eq_iff] at hread
    exact ⟨_, noBare_seed b s, hread⟩

/-- The records do not matter to pruning and writing again. -/
theorem recorded_again {target mm : List (String × Json)} {k : Json} {es : List Entry}
    {ds : List Path} (hsorted : (Json.object target).sorted = true)
    (hds : ∀ d ∈ ds, ∃ name q, d = .field name :: q ∧
      (name = "metadata" → ∃ other y, q = .field other :: y))
    (hval : ∀ d ∈ ds, (get (.object fields) d).isSome)
    (hm : lookup "metadata" fields = some (.object metadata))
    (hclean : lookup managedFields metadata = none)
    (htm : lookup "metadata" target = some (.object mm)) (hk : noBare k = true)
    (h : writes (.object fields) ds k = .ok (.object target)) :
    writes (.object fields) ds (prune (recorded (es.map (entryValue text time)) mm target)) =
        .ok (recorded (es.map (entryValue text time)) mm target) ↔
      writes (.object fields) ds (prune (.object target)) = .ok (.object target) := by
  have hheads : ∀ d ∈ ds, ∃ name q, d = .field name :: q := by
    intro d hd
    obtain ⟨name, q, he, _⟩ := hds d hd
    exact ⟨name, q, he⟩
  have hbelow : ∀ q ∈ tails (.field "metadata") ds, ∃ other y, q = .field other :: y := by
    intro q hq
    obtain ⟨name, q', he, hfield⟩ := hds _ (mem_tails.mp hq)
    injection he with he he'
    injection he with he
    rw [he']
    exact hfield he.symm
  have hnil : [] ∉ tails (.field "metadata") ds := by
    intro hq
    obtain ⟨_, _, he⟩ := hbelow _ hq
    cases he
  obtain ⟨hkeys, hvalues⟩ := Json.sorted_object.mp hsorted
  have hmm := (Json.sorted_object.mp (hvalues _ (mem_of_lookup htm))).1
  have hb : child (.object fields) (.field "metadata") = some (.object metadata) := hm
  obtain ⟨base, hbase, hrun⟩ := child_run (apart_field hheads) hval hnil hk h hb htm
  have hfixed : ∀ name, child (.object fields) (.field name) = none →
      (lookup name target).map prune = lookup name target :=
    fun name hnone => unwritten_fixed hheads hk h hnone
  have hfixed' : ∀ name, child (.object metadata) (.field name) = none →
      (lookup name mm).map prune = lookup name mm :=
    fun name hnone => unwritten_fixed hbelow hbase hrun hnone
  -- The metadata, with and without the records.
  have hinner : writes (.object metadata) (tails (.field "metadata") ds)
      (prune (.object (insertKey managedFields (.array (es.map (entryValue text time))) mm))) =
        .ok (.object (insertKey managedFields (.array (es.map (entryValue text time))) mm)) ↔
      writes (.object metadata) (tails (.field "metadata") ds) (prune (.object mm)) =
        .ok (.object mm) := by
    rw [writes_pruned_object hbelow hmm.insertKey, writes_pruned_object hbelow hmm hfixed']
    · apply forall_congr'
      intro name
      by_cases hname : name = managedFields
      · subst hname
        have hnone : child (.object metadata) (.field managedFields) = none := hclean
        simp [hnone]
      · rw [lookup_insertKey_ne hname]
    · intro name hnone
      by_cases hname : name = managedFields
      · subst hname
        rw [lookup_insertKey, Option.map_some, prune_records]
      · rw [lookup_insertKey_ne hname]
        exact hfixed' name hnone
  rw [recorded, writes_pruned_object hheads hkeys.insertKey, writes_pruned_object hheads hkeys hfixed]
  · apply forall_congr'
    intro name
    by_cases hname : name = "metadata"
    · subst hname
      apply forall_congr'
      intro b
      apply imp_congr_right
      intro hb'
      obtain rfl := Option.some.inj (hb.symm.trans hb')
      rw [lookup_insertKey, htm, Option.map_some, Option.map_some, fills_some, fills_some,
        map_some_eq_iff, map_some_eq_iff]
      exact hinner
    · rw [lookup_insertKey_ne hname]
  · intro name hnone
    have hname : name ≠ "metadata" := by
      rintro rfl
      rw [hb] at hnone
      cases hnone
    rw [lookup_insertKey_ne hname]
    exact hfixed name hnone

end Named

/-! ## The second conflict check -/

theorem claims_unforced_iff {es es' : List Entry} {ds : List Path} (hforce : options.force = false) :
    ds.foldlM (claim stored desired options) es = .ok es' ↔ es' = es ∧
      ∀ d ∈ ds, ownerOf es d options.manager = none ∨ get stored d = get desired d := by
  constructor
  · intro h
    induction ds generalizing es with
    | nil => exact ⟨(Except.ok.inj h).symm, by simp⟩
    | cons d ds ih =>
      rw [List.foldlM_cons] at h
      obtain ⟨es₁, hclaim, hrest⟩ := bind_eq_ok.mp h
      obtain ⟨rfl, hd⟩ := claim_ok hforce hclaim
      obtain ⟨hsame, hall⟩ := ih hrest
      exact ⟨hsame, List.forall_mem_cons.mpr ⟨hd, hall⟩⟩
  · rintro ⟨rfl, hall⟩
    exact claims_same hall

theorem ownerOf_eq_none_iff {es : List Entry} {d : Path} {manager : String} :
    ownerOf es d manager = none ↔
      ∀ entry ∈ es, entry.Rival manager → ∀ owned ∈ entry.paths, ¬ owned <+: d := by
  constructor
  · intro h entry hentry hrival owned howned
    exact ownerOf_eq_none h ⟨entry, hentry, hrival.1, hrival.2, howned⟩
  · intro h
    cases howner : ownerOf es d manager with
    | none => rfl
    | some owner =>
      obtain ⟨entry, hentry, hrival, _, owned, howned, hthrough⟩ := ownerOf_eq_some howner
      exact absurd hthrough (h entry hentry hrival owned howned)

/-- The entries that are written conflict with the same paths as those they came from. -/
theorem ownerOf_owners {mine : Entry} {d : Path} :
    ownerOf ((owners existing mine).map Entry.reread) d mine.manager = none ↔
      ownerOf (existing.map Entry.reread) d mine.manager = none := by
  rw [ownerOf_eq_none_iff, ownerOf_eq_none_iff]
  constructor
  · intro h entry hentry hrival owned howned
    obtain ⟨old, hold, rfl⟩ := List.mem_map.mp hentry
    have hne : old.paths ≠ [] := List.ne_nil_of_mem (List.mem_of_mem_filter howned)
    exact h _ (List.mem_map_of_mem (mem_owners.mpr ⟨Or.inl ⟨hold, Or.inl hrival.1⟩, hne⟩)) hrival
      owned howned
  · intro h entry hentry hrival owned howned
    obtain ⟨old, hold, rfl⟩ := List.mem_map.mp hentry
    rcases (mem_owners.mp hold).1 with ⟨hold, _⟩ | rfl
    · exact h _ (List.mem_map_of_mem hold) hrival owned howned
    · exact absurd rfl hrival.1

/-- The applier drops nothing of what it has just declared. -/
theorem dropped_owned {mine : Entry} (hmine : mine.operation = "Apply") :
    dropped (previousPaths ((owners existing mine).map Entry.reread) mine.manager) mine.paths =
      [] := by
  rw [dropped, List.filter_eq_nil_iff]
  intro p hp
  unfold previousPaths at hp
  cases hfind : ((owners existing mine).map Entry.reread).find?
      fun entry => entry.manager = mine.manager ∧ entry.operation = "Apply" with
  | none =>
    rw [hfind] at hp
    cases hp
  | some entry =>
    rw [hfind] at hp
    obtain ⟨old, hold, rfl⟩ := List.mem_map.mp (List.mem_of_find?_eq_some hfind)
    have hself := List.find?_some hfind
    rw [decide_eq_true_eq] at hself
    have hp' : p ∈ old.paths := List.mem_of_mem_filter hp
    rcases (mem_owners.mp hold).1 with ⟨_, hforeign⟩ | rfl
    · rcases hforeign with hmanager | hoperation
      · exact absurd hself.1 hmanager
      · exact absurd hself.2 hoperation
    · simp [hp']

/-! ## Both applies -/

/-- What an apply keeps of the stored object before it writes. -/
def keptObject (text : JsonText) (stored desired : Json) (manager : String) : Json :=
  prune ((droppedPaths text stored desired manager).foldl remove stored)

/-- A declared path without a value is absent, or nobody else owns it or a path above it
after the conflict check. -/
def Settled (text : JsonText) (stored desired : Json) (manager : String)
    (existing : List Entry) : Prop :=
  ∀ d ∈ declared desired, get desired d = none → Covered desired d ∨
    get (keptObject text stored desired manager) d = none ∨
      ownerOf (existing.map Entry.reread) d manager = none

/-- The values of a successful first apply. -/
structure Applied (text : JsonText) (stored : Json) (options : Options) (existing : List Entry)
    (fields metadata target mm : List (String × Json)) : Prop where
  source : lookup "metadata" fields = some (.object metadata)
  clean : lookup managedFields metadata = none
  sorted : (Json.object fields).sorted = true
  nonempty : declared (.object fields) ≠ []
  nil : [] ∉ declared (.object fields)
  claims : (declared (.object fields)).foldlM (claim stored (.object fields) options)
    (entries text stored) = .ok existing
  run : (declared (.object fields)).foldlM (settle (.object fields))
    (keptObject text stored (.object fields) options.manager) = .ok (.object target)
  merged : lookup "metadata" target = some (.object mm)
  mergedSorted : (Json.object target).sorted = true

/-- A named object applied with success. -/
theorem applied_of_ok (hstored : stored.sorted = true) (happlied : applied.sorted = true)
    (hname : ((applied.field "metadata").bind (Json.strAt "name")).isSome)
    (h : serverSide text time stored applied options = .ok result) :
    ∃ existing fields metadata target mm, dropBookkeeping applied = .ok (.object fields) ∧
      Applied text stored options existing fields metadata target mm ∧
      record (.object target) ((owners existing (applierEntry options (.object fields))).map
        (entryValue text time)) = .ok result := by
  obtain ⟨desired, existing, merged, hdesired, hclaims, hmerged, hrecord⟩ := serverSide_passes.mp h
  obtain ⟨hmem, hvalue⟩ := name_declared hname hdesired
  have hobject : (applied.field "metadata").any Json.isObject = true := by
    obtain ⟨name, hname⟩ := Option.isSome_iff_exists.mp hname
    obtain ⟨m, hm, hname⟩ := Option.bind_eq_some_iff.mp hname
    rw [hm]
    exact Json.isObject_of_field (Json.strAt_eq_some.mp hname)
  have hsorted := sorted_desired hdesired hobject happlied
  have hnil := nil_not_declared hdesired
  obtain ⟨_, metadata, rfl, _, rfl⟩ := dropBookkeeping_object hdesired hobject
  have hread := get_settles hmem (by simp) hvalue hmerged []
  rw [List.append_nil] at hread
  obtain ⟨w, hw⟩ := Option.isSome_iff_exists.mp hvalue
  rw [hw] at hread
  obtain ⟨target, mm, rfl, hmm⟩ := metadata_object (object_of_get hread)
  refine ⟨existing, _, eraseKey "creationTimestamp" (eraseKey "uid" (eraseKey "resourceVersion"
    (eraseKey managedFields metadata))), target, mm, hdesired, ?_, hrecord⟩
  constructor
  · exact lookup_insertKey _ _ _
  · rw [lookup_eraseKey_ne (by decide), lookup_eraseKey_ne (by decide),
      lookup_eraseKey_ne (by decide), lookup_eraseKey]
  · exact hsorted
  · exact List.ne_nil_of_mem hmem
  · exact hnil
  · exact hclaims
  · exact hmerged
  · exact hmm
  · rw [settles_eq_writes hnil] at hmerged
    exact sorted_writes hsorted (sorted_prune _ (sorted_removals hstored)) hmerged

section Applied

variable {fields metadata target mm : List (String × Json)}

/-- The records of the apply at a time. -/
def recordsAt (text : JsonText) (time : String) (options : Options) (existing : List Entry)
    (desired : Json) : List Json :=
  (owners existing (applierEntry options desired)).map (entryValue text time)

theorem Applied.records_ne_nil (h : Applied text stored options existing fields metadata target mm)
    (time : String) : recordsAt text time options existing (.object fields) ≠ [] := by
  rw [recordsAt, Ne, List.map_eq_nil_iff]
  exact List.ne_nil_of_mem (mem_owners.mpr ⟨Or.inr rfl, h.nonempty⟩)

theorem Applied.result_eq (h : Applied text stored options existing fields metadata target mm)
    (hrecord : record (.object target) ((owners existing (applierEntry options
      (.object fields))).map (entryValue text time)) = .ok result) :
    result = recorded (recordsAt text time options existing (.object fields)) mm target :=
  Except.ok.inj (hrecord.symm.trans (record_eq_recorded h.merged (h.records_ne_nil time)))

/-- The first apply at any time. -/
theorem Applied.first (h : Applied text stored options existing fields metadata target mm)
    (hdesired : dropBookkeeping applied = .ok (.object fields)) (time : String) :
    serverSide text time stored applied options =
      .ok (recorded (recordsAt text time options existing (.object fields)) mm target) :=
  serverSide_passes.mpr ⟨_, _, _, hdesired, h.claims, h.run,
    record_eq_recorded h.merged (h.records_ne_nil time)⟩

theorem Applied.entries_recorded
    (h : Applied text stored options existing fields metadata target mm) (htext : text.Lawful)
    (time : String) :
    entries text (recorded (recordsAt text time options existing (.object fields)) mm target) =
      (owners existing (applierEntry options (.object fields))).map Entry.reread :=
  entries_result htext (claims_sorted (fun _ => sorted_entries) h.claims)
    (sorted_declared _) h.nonempty (record_eq_recorded h.merged (h.records_ne_nil time))

/-- The second apply at any time: a conflict check and a run of writes over the pruned
result of the first. -/
theorem Applied.second (h : Applied text stored options existing fields metadata target mm)
    (htext : text.Lawful) (hdesired : dropBookkeeping applied = .ok (.object fields))
    (time time' : String) (r : Json) :
    serverSide text time' (recorded (recordsAt text time options existing (.object fields)) mm
        target) applied ⟨options.manager, false⟩ = .ok r ↔
      (∀ d ∈ declared (.object fields),
        ownerOf (existing.map Entry.reread) d options.manager = none ∨
          get (recorded (recordsAt text time options existing (.object fields)) mm target) d =
            get (.object fields) d) ∧
      ∃ merged₂, writes (.object fields) (valued (.object fields)) (prune (recorded
          (recordsAt text time options existing (.object fields)) mm target)) = .ok merged₂ ∧
        record merged₂ (recordsAt text time' options existing (.object fields)) = .ok r := by
  have hentries := h.entries_recorded htext time
  have hdropped := @dropped_owned existing (applierEntry options (.object fields)) rfl
  have hmanaged : (owners ((owners existing (applierEntry options (.object fields))).map
      Entry.reread) (applierEntry options (.object fields))).map (entryValue text time') =
        recordsAt text time' options existing (.object fields) :=
    owners_reread htext rfl h.nonempty
  have howner : ∀ d, ownerOf ((owners existing (applierEntry options (.object fields))).map
      Entry.reread) d options.manager = none ↔
        ownerOf (existing.map Entry.reread) d options.manager = none := fun d => ownerOf_owners
  rw [serverSide_passes]
  constructor
  · rintro ⟨_, es, merged₂, hdesired', hclaims, hrun, hrecord⟩
    obtain rfl := Except.ok.inj (hdesired.symm.trans hdesired')
    rw [hentries] at hclaims hrun
    obtain ⟨rfl, hall⟩ := (claims_unforced_iff rfl).mp hclaims
    change List.foldlM _ (prune (List.foldl _ _ (dropped (previousPaths _ (applierEntry options
      (.object fields)).manager) (applierEntry options (.object fields)).paths))) _ = _ at hrun
    rw [hdropped, List.foldl_nil, settles_eq_writes h.nil, writes_valued] at hrun
    refine ⟨fun d hd => (hall d hd).imp (howner d).mp id, merged₂, hrun, ?_⟩
    rw [← hmanaged]
    exact hrecord
  · rintro ⟨hall, merged₂, hrun, hrecord⟩
    refine ⟨_, (owners existing (applierEntry options (.object fields))).map Entry.reread, merged₂,
      hdesired, ?_, ?_, ?_⟩
    · rw [hentries]
      exact (claims_unforced_iff rfl).mpr ⟨rfl, fun d hd => (hall d hd).imp (howner d).mpr id⟩
    · rw [hentries]
      change List.foldlM _ (prune (List.foldl _ _ (dropped (previousPaths _ (applierEntry options
        (.object fields)).manager) (applierEntry options (.object fields)).paths))) _ = _
      rw [hdropped, List.foldl_nil, settles_eq_writes h.nil, writes_valued]
      exact hrun
    · rw [← hmanaged] at hrecord
      exact hrecord

theorem Applied.get_recorded (h : Applied text stored options existing fields metadata target mm)
    {managed : List Json} (hne : managed ≠ []) {d : Path}
    (hd : Apart [.field "metadata", .field managedFields] d) :
    get (recorded managed mm target) d = get (.object target) d := by
  have hobject : ((Json.object target).field "metadata").any Json.isObject = true := by
    rw [Json.field, h.merged]
    rfl
  have hsame := record_unmanaged (record_eq_recorded h.merged hne) hobject
  rw [← get_unmanaged_apart hd, hsame, get_unmanaged_apart hd]

theorem Applied.keysSorted (h : Applied text stored options existing fields metadata target mm) :
    KeysSorted fields := (Json.sorted_object.mp h.sorted).1

/-- The second conflict check passes exactly if every path without a value is settled. -/
theorem Applied.settled_iff (h : Applied text stored options existing fields metadata target mm)
    (hdesired : dropBookkeeping applied = .ok (.object fields)) {managed : List Json}
    (hne : managed ≠ []) :
    (∀ d ∈ declared (.object fields),
      ownerOf (existing.map Entry.reread) d options.manager = none ∨
        get (recorded managed mm target) d = get (.object fields) d) ↔
      Settled text stored (.object fields) options.manager existing := by
  apply forall₂_congr
  intro d hd
  have happart := declared_apart h.keysSorted h.source hd
  rw [h.get_recorded hne happart]
  by_cases hcovered : Covered (.object fields) d
  · have hread := hcovered.get_merged hdesired h.run
    simp [hread, hcovered]
  · cases hvalue : get (.object fields) d with
    | some w => exact absurd ⟨d, hd, by simp [hvalue], List.prefix_refl d⟩ hcovered
    | none =>
      have hbeside : ∀ e ∈ declared (.object fields), (get (.object fields) e).isSome →
          Apart e d := by
        intro e he hsome
        have hekeyed := (mem_declared.mp he).nameKeyed
        rcases hekeyed.apart_or_through (mem_declared.mp hd).nameKeyed with h' | h' | ⟨y, rfl⟩
        · exact h'
        · exact absurd ⟨e, he, hsome, h'⟩ hcovered
        · rw [get_append, hvalue] at hsome
          cases hsome
      rw [get_settles_apart hbeside h.run]
      simp [hcovered, or_comm]

theorem Applied.heads (h : Applied text stored options existing fields metadata target mm) :
    ∀ d ∈ valued (.object fields), ∃ name q, d = .field name :: q ∧
      (name = "metadata" → ∃ other y, q = .field other :: y) := by
  intro d hd
  obtain ⟨name, q, rfl, hbelow⟩ := declared_metadata h.keysSorted h.source (mem_valued.mp hd).1
  refine ⟨name, q, rfl, fun he => ?_⟩
  obtain ⟨other, y, rfl, _⟩ := hbelow he
  exact ⟨other, y, rfl⟩

/-- The second run of writes makes the same object exactly if the items added with
their name only were added last. -/
theorem Applied.stays_iff (h : Applied text stored options existing fields metadata target mm)
    (time : String) :
    writes (.object fields) (valued (.object fields)) (prune (recorded (recordsAt text time options
        existing (.object fields)) mm target)) =
        .ok (recorded (recordsAt text time options existing (.object fields)) mm target) ↔
      Stays (valued (.object fields))
        (some (keptObject text stored (.object fields) options.manager)) := by
  have hkept : noBare (keptObject text stored (.object fields) options.manager) = true :=
    noBare_prune _
  have hval : ∀ d ∈ valued (.object fields), (get (.object fields) d).isSome :=
    fun d hd => (mem_valued.mp hd).2
  have hrun : writes (.object fields) (valued (.object fields)) (keptObject text stored
      (.object fields) options.manager) = .ok (.object target) := by
    rw [← writes_valued, ← settles_eq_writes h.nil]
    exact h.run
  rw [recordsAt, recorded_again h.mergedSorted h.heads hval h.source h.clean h.merged hkept hrun]
  apply restoredFrom (.object fields) _ _ _ ((sorted_declared _).filter _)
  · exact fun d hd => (mem_declared.mp (mem_valued.mp hd).1).nameKeyed
  · exact fun hd => h.nil (mem_valued.mp hd).1
  · exact fun c key value hd => (mem_declared.mp (mem_valued.mp hd).1).not_keyed
  · exact hval
  · exact hkept
  · exact h.mergedSorted
  · exact hrun

/-- A run that records to the first result made it already. -/
theorem Applied.eq_of_record (h : Applied text stored options existing fields metadata target mm)
    {time : String} {merged₂ : Json}
    (hrun : writes (.object fields) (valued (.object fields)) (prune (recorded (recordsAt text time
      options existing (.object fields)) mm target)) = .ok merged₂)
    (hrecord : record merged₂ (recordsAt text time options existing (.object fields)) =
      .ok (recorded (recordsAt text time options existing (.object fields)) mm target)) :
    merged₂ = recorded (recordsAt text time options existing (.object fields)) mm target := by
  have hthere : get (prune (recorded (recordsAt text time options existing (.object fields)) mm
      target)) [.field "metadata", .field managedFields] =
        some (.array (recordsAt text time options existing (.object fields))) := by
    have hpruned := @prune_records text time
      (owners existing (applierEntry options (.object fields)))
    rw [recorded, prune_object, get_cons, child_field, Json.field, lookup_map_prune,
      lookup_insertKey, Option.map_some, Option.bind_some, prune_object, get_cons, child_field,
      Json.field, lookup_map_prune, lookup_insertKey, Option.map_some, recordsAt, hpruned]
    rfl
  rw [← writes_valued, ← settles_eq_writes h.nil] at hrun
  have hread := get_settles_apart (fun d hd _ => (declared_apart h.keysSorted h.source hd).symm) hrun
  rw [hthere] at hread
  obtain ⟨fields₂, metadata₂, rfl, hm⟩ := metadata_object (object_of_get hread)
  have hrecords : lookup managedFields metadata₂ =
      some (.array (recordsAt text time options existing (.object fields))) := by
    rw [get_cons, child_field, Json.field, hm, Option.bind_some, get_cons, child_field] at hread
    obtain ⟨v, hv, he⟩ := Option.bind_eq_some_iff.mp hread
    rw [← Option.some.inj he]
    exact hv
  rw [record_eq_recorded hm (h.records_ne_nil time)] at hrecord
  rw [← Except.ok.inj hrecord, recorded, insertKey_eq_self hrecords, insertKey_eq_self hm]

end Applied

/-- Applying the same object again without force makes the same object, at any time,
exactly if the list items the first apply added with their name only came last, and
every declared path without a value is settled. -/
theorem reapply_same (htext : text.Lawful) (hstored : stored.sorted = true)
    (happlied : applied.sorted = true)
    (hname : ((applied.field "metadata").bind (Json.strAt "name")).isSome)
    (h : serverSide text time stored applied options = .ok result) :
    ∃ desired existing, dropBookkeeping applied = .ok desired ∧
      (declared desired).foldlM (claim stored desired options) (entries text stored) =
        .ok existing ∧
      ((∀ time', serverSide text time' result applied ⟨options.manager, false⟩ =
          serverSide text time' stored applied options) ↔
        Stays (valued desired) (some (keptObject text stored desired options.manager)) ∧
          Settled text stored desired options.manager existing) := by
  obtain ⟨existing, fields, metadata, target, mm, hdesired, hfirst, hrecord⟩ :=
    applied_of_ok hstored happlied hname h
  refine ⟨.object fields, existing, hdesired, hfirst.claims, ?_⟩
  obtain rfl := hfirst.result_eq hrecord
  rw [← hfirst.stays_iff time, ← hfirst.settled_iff hdesired (hfirst.records_ne_nil time)]
  constructor
  · intro hsame
    have hagain := hsame time
    rw [hfirst.first hdesired time] at hagain
    obtain ⟨hall, merged₂, hrun, hrecorded⟩ := (hfirst.second htext hdesired time time _).mp hagain
    refine ⟨?_, hall⟩
    rwa [hfirst.eq_of_record hrun hrecorded] at hrun
  · rintro ⟨hrun, hall⟩ time'
    rw [hfirst.first hdesired time', hfirst.second htext hdesired time time']
    exact ⟨hall, _, hrun, record_recorded (hfirst.records_ne_nil time')⟩

/-- An object with environment variables, each with its value if it has one. -/
def withEnv (vars : List (String × Option String)) : Json :=
  .object [("metadata", .object [("name", .string "web")]),
    ("spec", .object [("env", .array (vars.map fun var =>
      match var.2 with
      | some value => .object [("name", .string var.1), ("value", .string value)]
      | none => .object [("name", .string var.1)]))])]

theorem append_keyed_eq {c x y : Path} {n m : String}
    (h : c ++ .keyed "name" n :: x = .field "spec" :: .field "env" :: .keyed "name" m :: y)
    (hy : ∀ k, .keyed "name" k ∉ y) : c = [.field "spec", .field "env"] ∧ n = m ∧ x = y := by
  match c, h with
  | [], h => cases h
  | [_], h =>
    injection h with _ h
    cases h
  | [_, _], h =>
    simp only [List.cons_append, List.nil_append, List.cons.injEq, Segment.keyed.injEq] at h
    obtain ⟨rfl, rfl, ⟨_, rfl⟩, rfl⟩ := h
    exact ⟨rfl, rfl, rfl⟩
  | _ :: _ :: _ :: c, h =>
    simp only [List.cons_append, List.cons.injEq] at h
    exact absurd (h.2.2.2 ▸ List.mem_append_right c List.mem_cons_self) (hy n)

/-- A variable without a value that was added last stays last. -/
theorem last_variable_stays : ∃ result,
    serverSide keyText "now" namedWeb (withEnv [("MODE", some "fast"), ("TRACE", none)])
        ⟨"a", false⟩ = .ok result ∧
      ∀ time', serverSide keyText time' result (withEnv [("MODE", some "fast"), ("TRACE", none)])
          ⟨"a", false⟩ =
        serverSide keyText time' namedWeb (withEnv [("MODE", some "fast"), ("TRACE", none)])
          ⟨"a", false⟩ := by
  have hrun : (serverSide keyText "now" namedWeb
      (withEnv [("MODE", some "fast"), ("TRACE", none)]) ⟨"a", false⟩).toOption.isSome := by
    decide +kernel
  cases hresult : serverSide keyText "now" namedWeb
      (withEnv [("MODE", some "fast"), ("TRACE", none)]) ⟨"a", false⟩ with
  | error e =>
    rw [hresult] at hrun
    cases hrun
  | ok result =>
    have hkept : dropBookkeeping (withEnv [("MODE", some "fast"), ("TRACE", none)]) =
        .ok (withEnv [("MODE", some "fast"), ("TRACE", none)]) := by decide +kernel
    obtain ⟨desired, existing, hdesired, _, hiff⟩ := reapply_same keyText_lawful (by decide +kernel)
      (by decide +kernel) (by decide +kernel) hresult
    obtain rfl := Except.ok.inj (hkept.symm.trans hdesired)
    refine ⟨result, rfl, hiff.mpr ⟨?_, ?_⟩⟩
    · have hvalued : valued (withEnv [("MODE", some "fast"), ("TRACE", none)]) =
          [[.field "metadata", .field "name"],
            [.field "spec", .field "env", .keyed "name" "MODE", .field "name"],
            [.field "spec", .field "env", .keyed "name" "MODE", .field "value"],
            [.field "spec", .field "env", .keyed "name" "TRACE", .field "name"]] := by
        decide +kernel
      rw [hvalued]
      have hitem : ∀ c n q, c ++ .keyed "name" n :: q ∈
          ([[.field "metadata", .field "name"],
            [.field "spec", .field "env", .keyed "name" "MODE", .field "name"],
            [.field "spec", .field "env", .keyed "name" "MODE", .field "value"],
            [.field "spec", .field "env", .keyed "name" "TRACE", .field "name"]] : List Path) →
          c = [.field "spec", .field "env"] ∧ (n = "MODE" ∨ n = "TRACE") := by
        intro c n q hmem
        simp only [List.mem_cons, List.not_mem_nil, or_false] at hmem
        rcases hmem with h | h | h | h
        · have hkey : Segment.keyed "name" n ∈ [Segment.field "metadata", .field "name"] := by
            rw [← h]
            simp
          simp at hkey
        · obtain ⟨hc, hn, _⟩ := append_keyed_eq h (by simp)
          exact ⟨hc, Or.inl hn⟩
        · obtain ⟨hc, hn, _⟩ := append_keyed_eq h (by simp)
          exact ⟨hc, Or.inl hn⟩
        · obtain ⟨hc, hn, _⟩ := append_keyed_eq h (by simp)
          exact ⟨hc, Or.inr hn⟩
      rintro c m n hmn _ ⟨_, q, hq⟩ ⟨_, q', hq'⟩ honly
      obtain ⟨rfl, hm⟩ := hitem c m q hq
      obtain ⟨_, hn⟩ := hitem _ n q' hq'
      rcases hm with rfl | rfl
      · have hvalue := honly [.field "value"] (by decide)
        exact absurd hvalue (by decide)
      · rcases hn with rfl | rfl
        · exact absurd hmn (by decide +kernel)
        · exact absurd hmn (lt_irrefl _)
    · intro d hd hnone
      have hall : ∀ d ∈ declared (withEnv [("MODE", some "fast"), ("TRACE", none)]),
          get (withEnv [("MODE", some "fast"), ("TRACE", none)]) d ≠ none := by decide +kernel
      exact absurd hnone (hall d hd)

/-- A variable without a value that was added first moves to the end. -/
theorem first_variable_moves : ¬ ∀ (text : JsonText) (time : String)
    (stored applied result : Json) (options : Options), text.Lawful → stored.sorted = true →
    applied.sorted = true → ((applied.field "metadata").bind (Json.strAt "name")).isSome →
    serverSide text time stored applied options = .ok result →
    ∀ time', serverSide text time' result applied ⟨options.manager, false⟩ =
      serverSide text time' stored applied options := by
  intro h
  have hfirst : (serverSide keyText "now" namedWeb
      (withEnv [("DEBUG", none), ("MODE", some "fast")]) ⟨"a", false⟩).map
        (fun r => get r [.field "spec", .field "env"]) =
      .ok (some (.array [.object [("name", .string "DEBUG")],
        .object [("name", .string "MODE"), ("value", .string "fast")]])) := by decide +kernel
  have hsecond : (serverSide keyText "now" namedWeb
      (withEnv [("DEBUG", none), ("MODE", some "fast")]) ⟨"a", false⟩ >>= fun r =>
        serverSide keyText "now" r (withEnv [("DEBUG", none), ("MODE", some "fast")])
          ⟨"a", false⟩).map (fun r => get r [.field "spec", .field "env"]) =
      .ok (some (.array [.object [("name", .string "MODE"), ("value", .string "fast")],
        .object [("name", .string "DEBUG")]])) := by decide +kernel
  cases hresult : serverSide keyText "now" namedWeb
      (withEnv [("DEBUG", none), ("MODE", some "fast")]) ⟨"a", false⟩ with
  | error e =>
    rw [hresult] at hfirst
    cases hfirst
  | ok result =>
    have hsame := h keyText "now" _ _ result ⟨"a", false⟩ keyText_lawful (by decide +kernel)
      (by decide +kernel) (by decide +kernel) hresult "now"
    rw [hresult] at hfirst hsecond hsame
    have hagain : (serverSide keyText "now" result (withEnv [("DEBUG", none), ("MODE", some "fast")])
        ⟨"a", false⟩).map (fun r => get r [.field "spec", .field "env"]) = _ := hsecond
    rw [hsame, hfirst] at hagain
    revert hagain
    decide +kernel

end Hedronetes.Apply
