import Hedronetes.Foundations.StableSort
import Hedronetes.Apply.MergeKeys
import Hedronetes.Apply.PathOrder
import Hedronetes.Apply.ServerSide

/-!
# Ownership records read back

A set of paths is written as a tree of fields and read back as the tips of that
tree. A path that another one of the set continues is no tip and is lost.
-/

namespace Hedronetes.Apply

open FirstMatch Fallible StableSort

variable {text : JsonText} {time : String} {stored : Json}

/-! ## The order of the paths read -/

theorem sorted_treeFields {path : Path} {fields : List (String × Json)}
    (ih : ∀ e ∈ fields, ∀ (c : Path) (out : List Path), Sorted out → Sorted (tree text c e.2 out))
    {out : List Path} (h : Sorted out) : Sorted (treeFields text path fields out) := by
  induction fields generalizing out with
  | nil => exact h
  | cons e fields ihf =>
    have hrest := fun o => @ihf (fun e he => ih e (List.mem_cons_of_mem _ he)) o
    unfold treeFields
    cases segmentOf text e.1 with
    | none => exact hrest out h
    | some s => exact hrest _ (ih e List.mem_cons_self _ out h)

theorem sorted_tree (j : Json) : ∀ (c : Path) (out : List Path), Sorted out →
    Sorted (tree text c j out) := by
  induction j with
  | object fields ih =>
    intro c out h
    cases fields with
    | nil => exact h.insert
    | cons e fields => exact sorted_treeFields ih h
  | _ =>
    intro c out h
    exact h.insert

theorem sorted_entryOf {j : Json} {entry : Entry} (h : entryOf text j = some entry) :
    Sorted entry.paths := by
  obtain ⟨manager, _, rfl⟩ := Option.map_eq_some_iff.mp h
  dsimp only
  split_ifs
  · exact sorted_tree _ _ _ List.Pairwise.nil
  · exact List.Pairwise.nil

theorem sorted_entries {entry : Entry} (h : entry ∈ entries text stored) : Sorted entry.paths := by
  obtain ⟨j, _, hj⟩ := List.mem_filterMap.mp h
  exact sorted_entryOf hj

/-- The key of a segment stands for that segment. -/
theorem segmentOf_keyOf (htext : text.Lawful) (s : Segment) :
    segmentOf text (keyOf text s) = some s := by
  cases s with
  | field name =>
    have hkey : ("f:" ++ name).toList = 'f' :: ':' :: name.toList := by
      rw [String.toList_append]
      rfl
    rw [keyOf, segmentOf, hkey]
    simp only
    rw [String.ofList_toList]
  | keyed key value =>
    have hkey : ("k:" ++ text.print (.object [(key, .string value)])).toList =
        'k' :: ':' :: (text.print (.object [(key, .string value)])).toList := by
      rw [String.toList_append]
      rfl
    rw [keyOf, segmentOf, hkey]
    simp only
    rw [String.ofList_toList, htext]
    rfl

theorem keyOf_inj (htext : text.Lawful) {s t : Segment} : keyOf text s = keyOf text t ↔ s = t := by
  constructor
  · intro h
    have hsame := congrArg (segmentOf text) h
    rw [segmentOf_keyOf htext, segmentOf_keyOf htext] at hsame
    exact Option.some.inj hsame
  · rintro rfl
    rfl

/-! ## The tree of a set of paths -/

/-- What a fields tree has under a path. -/
def branch (text : JsonText) : Json → Path → Option Json
  | root, [] => some root
  | root, segment :: path =>
    (root.field (keyOf text segment)).bind fun current => branch text current path

/-- A tree of nothing but merge keys and field names. -/
inductive Grown (text : JsonText) : Json → Prop
  | object {fields : List (String × Json)} : KeysSorted fields →
      (∀ e ∈ fields, ∃ s, e.1 = keyOf text s) → (∀ e ∈ fields, Grown text e.2) →
      Grown text (.object fields)

theorem grown_empty : Grown text (.object []) :=
  .object List.Pairwise.nil (by simp) (by simp)

theorem Grown.lookup {fields : List (String × Json)} {key : String} {v : Json}
    (h : Grown text (.object fields)) (hv : lookup key fields = some v) : Grown text v := by
  cases h with
  | object _ _ hchildren => exact hchildren _ (mem_of_lookup hv)

theorem Grown.grow {root : Json} (h : Grown text root) (path : Path) :
    Grown text (grow text root path) := by
  induction path generalizing root with
  | nil =>
    cases h with
    | object hkeys hnames hchildren => exact .object hkeys hnames hchildren
  | cons s path ih =>
    cases h with
    | @object fields hkeys hnames hchildren =>
      have hcurrent : Grown text ((FirstMatch.lookup (keyOf text s) fields).getD (.object [])) := by
        cases hv : FirstMatch.lookup (keyOf text s) fields with
        | none => exact grown_empty
        | some v => exact hchildren _ (mem_of_lookup hv)
      apply Grown.object hkeys.insertKey
      · intro e he
        rcases mem_insertKey he with he | rfl
        · exact hnames e he
        · exact ⟨s, rfl⟩
      · intro e he
        rcases mem_insertKey he with he | rfl
        · exact hchildren e he
        · exact ih hcurrent

theorem grown_fieldsV1 (paths : List Path) {root : Json} (h : Grown text root) :
    Grown text (paths.foldl (grow text) root) := by
  induction paths generalizing root with
  | nil => exact h
  | cons p paths ih => exact ih (h.grow p)

theorem branch_empty (p : Path) : (branch text (.object []) p).isSome ↔ p = [] := by
  cases p with
  | nil => simp [branch]
  | cons s p => simp [branch, Json.field, lookup]

/-- A branch grows its path, and every path on the way. -/
theorem branch_grow (htext : text.Lawful) {root : Json} (h : Grown text root) (path p : Path) :
    (branch text (grow text root path) p).isSome ↔ (branch text root p).isSome ∨ p <+: path := by
  induction path generalizing root p with
  | nil =>
    cases h
    cases p with
    | nil => simp [branch]
    | cons s p => simp [grow]
  | cons s path ih =>
    cases p with
    | nil => simp [branch]
    | cons t p =>
      cases h with
      | @object fields hkeys hnames hchildren =>
        rw [grow, branch, branch]
        dsimp only [Json.field]
        by_cases hst : t = s
        · subst hst
          rw [lookup_insertKey, Option.bind_some]
          cases hv : lookup (keyOf text t) fields with
          | none =>
            have hnil : p = [] → p <+: path := by
              rintro rfl
              exact List.nil_prefix
            simp [ih grown_empty, branch_empty, List.cons_prefix_cons, or_iff_right_of_imp hnil]
          | some v => simp [ih (hchildren _ (mem_of_lookup hv)), List.cons_prefix_cons]
        · have hne : keyOf text t ≠ keyOf text s := fun he => hst ((keyOf_inj htext).mp he)
          rw [lookup_insertKey_ne hne]
          simp [List.cons_prefix_cons, hst]

theorem branch_grows (htext : text.Lawful) {root : Json} (h : Grown text root) (paths : List Path)
    (p : Path) : (branch text (paths.foldl (grow text) root) p).isSome ↔
      (branch text root p).isSome ∨ ∃ q ∈ paths, p <+: q := by
  induction paths generalizing root with
  | nil => simp
  | cons q paths ih =>
    rw [List.foldl_cons, ih (h.grow q), branch_grow htext h]
    simp [or_assoc]

theorem branch_fieldsV1 (htext : text.Lawful) (paths : List Path) (p : Path) :
    (branch text (fieldsV1 text paths) p).isSome ↔ p = [] ∨ ∃ q ∈ paths, p <+: q := by
  rw [fieldsV1, branch_grows htext grown_empty, branch_empty]

theorem branch_append (root : Json) (p q : Path) :
    branch text root (p ++ q) = (branch text root p).bind fun v => branch text v q := by
  induction p generalizing root with
  | nil => rfl
  | cons s p ih =>
    rw [List.cons_append, branch, branch, Option.bind_assoc]
    apply congrArg
    funext v
    exact ih v

theorem Grown.branch {root v : Json} {p : Path} (h : Grown text root)
    (hv : branch text root p = some v) : Grown text v := by
  induction p generalizing root with
  | nil => rwa [← Option.some.inj hv]
  | cons s p ih =>
    obtain ⟨u, hu, hrest⟩ := Option.bind_eq_some_iff.mp hv
    cases h with
    | object hkeys hnames hchildren => exact ih (hchildren _ (mem_of_lookup hu)) hrest

/-- A branch ends where nothing continues it. -/
theorem tip_iff {root : Json} {p : Path} (h : Grown text root) :
    branch text root p = some (.object []) ↔
      (branch text root p).isSome ∧ ∀ s, ¬ (branch text root (p ++ [s])).isSome := by
  constructor
  · intro hp
    refine ⟨by simp [hp], fun s => ?_⟩
    rw [branch_append, hp, Option.bind_some, branch_empty]
    simp
  · rintro ⟨hsome, hnone⟩
    obtain ⟨v, hv⟩ := Option.isSome_iff_exists.mp hsome
    cases h.branch hv with
    | @object fields hkeys hnames hchildren =>
      cases fields with
      | nil => exact hv
      | cons e fields =>
        obtain ⟨s, hs⟩ := hnames e List.mem_cons_self
        have hnot := hnone s
        rw [branch_append, hv, Option.bind_some, Apply.branch] at hnot
        dsimp only [Json.field] at hnot
        rw [lookup_cons, if_pos hs] at hnot
        simp [Apply.branch] at hnot

theorem mem_treeFields {path p : Path} {fields : List (String × Json)}
    (ih : ∀ e ∈ fields, ∀ (c : Path) (out : List Path),
      p ∈ tree text c e.2 out ↔ p ∈ out ∨ ∃ q, p = c ++ q ∧ branch text e.2 q = some (.object []))
    (htext : text.Lawful) (hnames : ∀ e ∈ fields, ∃ s, e.1 = keyOf text s) {out : List Path} :
    p ∈ treeFields text path fields out ↔ p ∈ out ∨ ∃ e ∈ fields, ∃ s q, e.1 = keyOf text s ∧
      p = path ++ s :: q ∧ branch text e.2 q = some (.object []) := by
  induction fields generalizing out with
  | nil => simp [treeFields]
  | cons e fields ihf =>
    obtain ⟨key, value⟩ := e
    have hrest := fun o => @ihf (fun e he => ih e (List.mem_cons_of_mem _ he))
      (fun e he => hnames e (List.mem_cons_of_mem _ he)) o
    obtain ⟨s, hs⟩ := hnames _ List.mem_cons_self
    dsimp only at hs
    have hself : (∃ t q, key = keyOf text t ∧ p = path ++ t :: q ∧
        branch text value q = some (.object [])) ↔
          ∃ q, p = path ++ s :: q ∧ branch text value q = some (.object []) := by
      constructor
      · rintro ⟨t, q, ht, hp, hq⟩
        obtain rfl := (keyOf_inj htext).mp (ht.symm.trans hs)
        exact ⟨q, hp, hq⟩
      · rintro ⟨q, hp, hq⟩
        exact ⟨s, q, hs, hp, hq⟩
    rw [treeFields, hs, segmentOf_keyOf htext]
    dsimp only
    rw [hrest, ih _ List.mem_cons_self, ← hs]
    simp only [List.append_assoc, List.singleton_append, List.exists_mem_cons_iff, hself, or_assoc]

/-- The paths read from a tree are its tips. -/
theorem mem_tree (htext : text.Lawful) {p : Path} (j : Json) : Grown text j →
    ∀ (c : Path) (out : List Path), p ∈ tree text c j out ↔
      p ∈ out ∨ ∃ q, p = c ++ q ∧ branch text j q = some (.object []) := by
  induction j with
  | object fields ih =>
    intro h c out
    cases h with
    | object hkeys hnames hchildren =>
      cases fields with
      | nil =>
        have hempty : ∀ q, branch text (.object []) q = some (.object []) ↔ q = [] := by
          intro q
          cases q <;> simp [branch, Json.field, lookup]
        simp only [tree, mem_insertPath, hempty]
        simp [or_comm]
      | cons e fields =>
        rw [tree, mem_treeFields (fun e he => ih e he (hchildren e he)) htext hnames]
        apply or_congr_right
        constructor
        · rintro ⟨e', he', s, q, hs, hp, hq⟩
          refine ⟨s :: q, hp, ?_⟩
          have hread := lookup_of_mem hkeys he'
          rw [branch, ← hs, Json.field, hread]
          exact hq
        · rintro ⟨q, hp, hq⟩
          cases q with
          | nil =>
            injection hq with hq
            injection hq with hq
            cases hq
          | cons s q =>
            obtain ⟨v, hv, hq⟩ := Option.bind_eq_some_iff.mp hq
            exact ⟨_, mem_of_lookup hv, s, q, rfl, hp, hq⟩
  | _ =>
    intro h
    cases h

/-- The paths of a set that no other one continues. -/
def innermost (paths : List Path) : List Path :=
  paths.filter fun p => ∀ q ∈ paths, p <+: q → q = p

theorem Sorted.filter {ds : List Path} (h : Sorted ds) (f : Path → Bool) : Sorted (ds.filter f) :=
  List.Pairwise.filter f h

/-- Ownership is read back without the paths that another one continues. -/
theorem tree_fieldsV1 (htext : text.Lawful) {paths : List Path} (hsorted : Sorted paths)
    (hne : paths ≠ []) : tree text [] (fieldsV1 text paths) [] = innermost paths := by
  apply (sorted_tree _ _ _ List.Pairwise.nil).eq_of_mem_iff (hsorted.filter _)
  intro p
  have hgrown : Grown text (fieldsV1 text paths) := grown_fieldsV1 paths grown_empty
  rw [mem_tree htext _ hgrown]
  simp only [List.not_mem_nil, List.nil_append, false_or, exists_eq_left',
    List.mem_filter, decide_eq_true_eq]
  rw [tip_iff hgrown, branch_fieldsV1 htext]
  simp only [branch_fieldsV1 htext, List.append_eq_nil_iff, List.cons_ne_self, and_false, false_or,
    not_exists, not_and]
  constructor
  · rintro ⟨hp, hlast⟩
    have hmax : ∀ q ∈ paths, p <+: q → q = p := by
      rintro q hq ⟨rest, rfl⟩
      cases rest with
      | nil => simp
      | cons s rest => exact absurd ⟨rest, by simp⟩ (hlast s _ hq)
    refine ⟨?_, hmax⟩
    rcases hp with rfl | ⟨q, hq, hthrough⟩
    · obtain ⟨q, hq⟩ := List.exists_mem_of_ne_nil _ hne
      have hnil := hmax q hq List.nil_prefix
      rwa [hnil] at hq
    · rwa [hmax q hq hthrough] at hq
  · rintro ⟨hp, hmax⟩
    refine ⟨Or.inr ⟨p, hp, List.prefix_refl p⟩, fun s q hq hthrough => ?_⟩
    have hsame := hmax q hq ((List.prefix_append p [s]).trans hthrough)
    rw [hsame] at hthrough
    have hlength := hthrough.length_le
    simp at hlength

/-! ## The entries of a result -/

@[simp] theorem strAt_entryValue (entry : Entry) :
    (entryValue text time entry).strAt "manager" = some entry.manager ∧
    (entryValue text time entry).strAt "operation" = some entry.operation ∧
    (entryValue text time entry).strAt "apiVersion" = some entry.apiVersion ∧
    (entryValue text time entry).strAt "fieldsType" = some "FieldsV1" ∧
    (entryValue text time entry).field "fieldsV1" = some (fieldsV1 text entry.paths) := by
  simp [entryValue, Json.ofPairs, Json.strAt, Json.field, lookup_insertKey_ne, Json.asString]

/-- An entry as it is read back from its record. -/
def Entry.reread (entry : Entry) : Entry := { entry with paths := innermost entry.paths }

theorem entryOf_entryValue (htext : text.Lawful) {entry : Entry} (hsorted : Sorted entry.paths)
    (hne : entry.paths ≠ []) : entryOf text (entryValue text time entry) = some entry.reread := by
  obtain ⟨hmanager, hoperation, hversion, htype, hfields⟩ :=
    @strAt_entryValue text time entry
  rw [entryOf, hmanager, hoperation, hversion, htype, hfields]
  simp [tree_fieldsV1 htext hsorted hne, Entry.reread]

theorem field_assign {root value result : Json} {key : String}
    (h : assign root key value = .ok result) : result.field key = some value := by
  cases root with
  | null =>
    rw [← Except.ok.inj h]
    simp [Json.field, lookup]
  | object fields =>
    rw [← Except.ok.inj h]
    exact lookup_insertKey key value fields
  | _ => cases h

/-- Recording leaves the records where they are looked for. -/
theorem field_record {merged result : Json} {managed : List Json}
    (h : record merged managed = .ok result) (hne : managed ≠ []) :
    (result.field "metadata").bind (fun metadata => metadata.field managedFields) =
      some (.array managed) := by
  rw [record, if_neg hne] at h
  have hassigned : ∀ base, (do
      let metadata ← assign (Option.getD (Json.field "metadata" base) .null) managedFields
        (.array managed)
      assign base "metadata" metadata) = .ok result →
        (result.field "metadata").bind (fun metadata => metadata.field managedFields) =
          some (.array managed) := by
    intro base hbase
    obtain ⟨metadata, hmetadata, hresult⟩ := bind_eq_ok.mp hbase
    rw [field_assign hresult, Option.bind_some, field_assign hmetadata]
  dsimp only at h
  split_ifs at h
  · exact hassigned merged h
  · obtain ⟨base, _, hbase⟩ := bind_eq_ok.mp h
    exact hassigned base hbase

theorem entries_of_records {result : Json} {managed : List Json}
    (h : (result.field "metadata").bind (fun metadata => metadata.field managedFields) =
      some (.array managed)) : entries text result = managed.filterMap (entryOf text) := by
  obtain ⟨metadata, hmetadata, hrecords⟩ := Option.bind_eq_some_iff.mp h
  rw [entries, hmetadata, Option.bind_some, hrecords]
  rfl

theorem filterMap_entryOf (htext : text.Lawful) {es : List Entry}
    (hes : ∀ entry ∈ es, Sorted entry.paths ∧ entry.paths ≠ []) :
    (es.map (entryValue text time)).filterMap (entryOf text) = es.map Entry.reread := by
  rw [List.filterMap_map]
  induction es with
  | nil => rfl
  | cons entry es ih =>
    obtain ⟨hsorted, hne⟩ := hes entry List.mem_cons_self
    have hentry : (entryOf text ∘ entryValue text time) entry = some entry.reread :=
      entryOf_entryValue htext hsorted hne
    rw [List.filterMap_cons_some hentry, List.map_cons,
      ih fun e he => hes e (List.mem_cons_of_mem _ he)]

theorem mem_owners {existing : List Entry} {mine entry : Entry} :
    entry ∈ owners existing mine ↔ (entry ∈ existing ∧
      (entry.manager ≠ mine.manager ∨ entry.operation ≠ "Apply") ∨ entry = mine) ∧
        entry.paths ≠ [] := by
  simp only [owners, List.mem_insertionSort, List.mem_filter, List.mem_append, List.mem_singleton,
    decide_eq_true_eq]

/-- The entries of a result are those that were written, read back. -/
theorem entries_result {merged result : Json} {existing : List Entry} {mine : Entry}
    (htext : text.Lawful) (hexisting : ∀ entry ∈ existing, Sorted entry.paths)
    (hmine : Sorted mine.paths) (hne : mine.paths ≠ [])
    (h : record merged ((owners existing mine).map (entryValue text time)) = .ok result) :
    entries text result = (owners existing mine).map Entry.reread := by
  have hmem : mine ∈ owners existing mine := mem_owners.mpr ⟨Or.inr rfl, hne⟩
  have hmanaged : (owners existing mine).map (entryValue text time) ≠ [] := by
    rw [Ne, List.map_eq_nil_iff]
    exact List.ne_nil_of_mem hmem
  rw [entries_of_records (field_record h hmanaged), filterMap_entryOf htext]
  intro entry hentry
  obtain ⟨hcases, hpaths⟩ := mem_owners.mp hentry
  rcases hcases with ⟨hold, _⟩ | rfl
  · exact ⟨hexisting entry hold, hpaths⟩
  · exact ⟨hmine, hpaths⟩

/-! ## Writing again what was read -/

/-- Every path of a set is continued by one that none continues. -/
theorem exists_innermost {paths : List Path} {p : Path} (hp : p ∈ paths) :
    ∃ q ∈ innermost paths, p <+: q := by
  obtain ⟨q, hq, hmax⟩ := (paths.toFinset.filter fun q => p <+: q).exists_max_image List.length
    ⟨p, by simpa using hp⟩
  simp only [Finset.mem_filter, List.mem_toFinset] at hq hmax
  refine ⟨q, ?_, hq.2⟩
  simp only [innermost, List.mem_filter, decide_eq_true_eq]
  refine ⟨hq.1, fun r hr hthrough => ?_⟩
  exact (hthrough.eq_of_length_le (hmax r ⟨hr, hq.2.trans hthrough⟩)).symm

theorem innermost_eq_nil {paths : List Path} : innermost paths = [] ↔ paths = [] := by
  constructor
  · intro h
    apply List.eq_nil_iff_forall_not_mem.mpr
    intro p hp
    obtain ⟨q, hq, _⟩ := exists_innermost hp
    rw [h] at hq
    cases hq
  · rintro rfl
    rfl

/-- A tree of fields is determined by the paths it has. -/
theorem grown_ext {j k : Json} (hj : Grown text j) (hk : Grown text k)
    (h : ∀ p, (branch text j p).isSome ↔ (branch text k p).isSome) : j = k := by
  induction hj generalizing k with
  | @object fields hkeys hnames _ ih =>
    cases hk with
    | @object fields' hkeys' hnames' hchildren' =>
      apply congrArg Json.object
      apply hkeys.ext hkeys'
      have hlookup : ∀ s, lookup (keyOf text s) fields = lookup (keyOf text s) fields' := by
        intro s
        have hread : ∀ q, (branch text (.object fields) (s :: q)).isSome ↔
            (branch text (.object fields') (s :: q)).isSome := fun q => h (s :: q)
        simp only [branch, Json.field] at hread
        cases hv : lookup (keyOf text s) fields with
        | none =>
          have hnone := hread []
          rw [hv] at hnone
          cases hv' : lookup (keyOf text s) fields' with
          | none => rfl
          | some v' =>
            rw [hv'] at hnone
            simp [branch] at hnone
        | some v =>
          cases hv' : lookup (keyOf text s) fields' with
          | none =>
            have hnone := hread []
            rw [hv, hv'] at hnone
            simp [branch] at hnone
          | some v' =>
            simp only [hv, hv', Option.bind_some] at hread
            exact congrArg some (ih _ (mem_of_lookup hv) (hchildren' _ (mem_of_lookup hv')) hread)
      intro key
      by_cases hkey : ∃ s, key = keyOf text s
      · obtain ⟨s, rfl⟩ := hkey
        exact hlookup s
      · have hnone : ∀ m : List (String × Json), (∀ e ∈ m, ∃ s, e.1 = keyOf text s) →
            lookup key m = none := by
          intro m hm
          apply Option.eq_none_iff_forall_not_mem.mpr
          intro v hv
          exact hkey (hm _ (mem_of_lookup hv))
        rw [hnone fields hnames, hnone fields' hnames']

/-- Writing the innermost paths writes the whole set. -/
theorem fieldsV1_innermost (htext : text.Lawful) (paths : List Path) :
    fieldsV1 text (innermost paths) = fieldsV1 text paths := by
  apply grown_ext (grown_fieldsV1 _ grown_empty) (grown_fieldsV1 _ grown_empty)
  intro p
  change (branch text (fieldsV1 text (innermost paths)) p).isSome ↔
    (branch text (fieldsV1 text paths) p).isSome
  rw [branch_fieldsV1 htext, branch_fieldsV1 htext]
  apply or_congr_right
  constructor
  · rintro ⟨q, hq, hp⟩
    exact ⟨q, List.mem_of_mem_filter hq, hp⟩
  · rintro ⟨q, hq, hp⟩
    obtain ⟨r, hr, hqr⟩ := exists_innermost hq
    exact ⟨r, hr, hp.trans hqr⟩

theorem entryValue_reread (htext : text.Lawful) (entry : Entry) :
    entryValue text time entry.reread = entryValue text time entry := by
  simp only [entryValue, Entry.reread, fieldsV1_innermost htext]

theorem owners_eq_sortBy (existing : List Entry) (mine : Entry) :
    owners existing mine = sortBy Entry.manager
      ((existing.filter fun entry => (entry.manager ≠ mine.manager ∨ entry.operation ≠ "Apply") ∧
        entry.paths ≠ []) ++ [mine].filter fun entry => entry.paths ≠ []) := by
  have hfilter : ((existing.filter fun entry => decide (entry.manager ≠ mine.manager ∨
      entry.operation ≠ "Apply")).filter fun entry => entry.paths ≠ []) =
      existing.filter fun entry => (entry.manager ≠ mine.manager ∨ entry.operation ≠ "Apply") ∧
        entry.paths ≠ [] := by
    rw [List.filter_filter]
    apply List.filter_congr
    intro entry _
    simp [Bool.and_comm]
  rw [owners, List.filter_append, hfilter]
  rfl

/-- The owners of the owners are the owners. -/
theorem owners_owners {existing : List Entry} {mine : Entry} (hmine : mine.operation = "Apply")
    (hne : mine.paths ≠ []) : owners (owners existing mine) mine = owners existing mine := by
  have hself : [mine].filter (fun entry => entry.paths ≠ []) = [mine] := by simp [hne]
  have hkept := sortBy_filter_append Entry.manager (x := mine)
    (l := existing.filter fun entry => (entry.manager ≠ mine.manager ∨ entry.operation ≠ "Apply") ∧
      entry.paths ≠ [])
    (fun entry => (entry.manager ≠ mine.manager ∨ entry.operation ≠ "Apply") ∧ entry.paths ≠ [])
    (fun entry hentry => (List.mem_filter.mp hentry).2) (by simp [hmine])
  rw [owners_eq_sortBy (owners existing mine), owners_eq_sortBy existing, hself]
  exact hkept

/-- The records of entries read back are the records they were read from. -/
theorem owners_reread (htext : text.Lawful) {existing : List Entry} {mine : Entry}
    (hmine : mine.operation = "Apply") (hne : mine.paths ≠ []) :
    (owners ((owners existing mine).map Entry.reread) mine).map (entryValue text time) =
      (owners existing mine).map (entryValue text time) := by
  have hsort : ∀ es : List Entry, (sortBy Entry.manager es).map
      (fun entry => (entry.manager, entryValue text time entry)) =
      (es.map fun entry => (entry.manager, entryValue text time entry)).insertionSort
        fun a b => a.1 ≤ b.1 := by
    intro es
    apply List.map_insertionSort
    intro a _ b _
    exact Iff.rfl
  have hpairs : (owners ((owners existing mine).map Entry.reread) mine).map
      (fun entry => (entry.manager, entryValue text time entry)) =
      (owners (owners existing mine) mine).map
        fun entry => (entry.manager, entryValue text time entry) := by
    rw [owners_eq_sortBy ((owners existing mine).map Entry.reread),
      owners_eq_sortBy (owners existing mine), hsort, hsort]
    apply congrArg
    rw [List.map_append, List.map_append, List.filter_map, List.map_map]
    apply congrArg₂ _ _ rfl
    have hcongr : (owners existing mine).filter ((fun entry : Entry => decide
        ((entry.manager ≠ mine.manager ∨ entry.operation ≠ "Apply") ∧ entry.paths ≠ [])) ∘
          Entry.reread) =
        (owners existing mine).filter fun entry =>
          (entry.manager ≠ mine.manager ∨ entry.operation ≠ "Apply") ∧ entry.paths ≠ [] := by
      apply List.filter_congr
      intro entry _
      simp [Entry.reread, innermost_eq_nil]
      rfl
    rw [hcongr]
    apply List.map_congr_left
    intro entry _
    exact Prod.ext rfl (entryValue_reread htext entry)
  have hvalues := congrArg (List.map Prod.snd) hpairs
  rw [List.map_map, List.map_map, owners_owners hmine hne] at hvalues
  exact hvalues

/-! ## Sets of paths that are read back whole -/

/-- No path of the set continues another one. -/
def PrefixFree (paths : List Path) : Prop := ∀ p ∈ paths, ∀ q ∈ paths, p <+: q → q = p

theorem innermost_eq_self {paths : List Path} (h : PrefixFree paths) : innermost paths = paths := by
  apply List.filter_eq_self.mpr
  intro p hp
  exact decide_eq_true (h p hp)

theorem Entry.reread_eq_self {entry : Entry} (h : PrefixFree entry.paths) :
    entry.reread = entry := by
  rw [Entry.reread, innermost_eq_self h]

/-- A set of paths none of which continues another one is read back from its tree, and so are the
entries of such sets from the records of an object. -/
theorem ownership_round_trip (htext : text.Lawful) :
    (∀ paths, Sorted paths → paths ≠ [] → PrefixFree paths →
      tree text [] (fieldsV1 text paths) [] = paths) ∧
    ∀ (merged result : Json) (es : List Entry), es ≠ [] →
      (∀ entry ∈ es, Sorted entry.paths ∧ entry.paths ≠ [] ∧ PrefixFree entry.paths) →
        record merged (es.map (entryValue text time)) = .ok result → entries text result = es := by
  constructor
  · intro paths hsorted hne hfree
    rw [tree_fieldsV1 htext hsorted hne, innermost_eq_self hfree]
  · intro merged result es hne hes hrecord
    have hmanaged : es.map (entryValue text time) ≠ [] := by
      rwa [Ne, List.map_eq_nil_iff]
    rw [entries_of_records (field_record hrecord hmanaged)]
    rw [filterMap_entryOf htext fun entry hentry => ⟨(hes entry hentry).1, (hes entry hentry).2.1⟩]
    calc es.map Entry.reread
        = es.map id := List.map_congr_left fun entry hentry =>
          Entry.reread_eq_self (hes entry hentry).2.2
      _ = es := List.map_id es

theorem quoted_names_round_trip :
    tree keyText [] (fieldsV1 keyText
      [[.field "f:a", .field "k:b"], [.field "f:a", .keyed "na\"me" "\\"]]) [] =
      [[.field "f:a", .field "k:b"], [.field "f:a", .keyed "na\"me" "\\"]] := by
  apply (@ownership_round_trip keyText "" keyText_lawful).1
  · unfold Sorted Before
    decide
  · decide
  · unfold PrefixFree
    decide

end Hedronetes.Apply
