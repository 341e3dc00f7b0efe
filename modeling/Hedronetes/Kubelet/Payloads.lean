import Hedronetes.Kubelet.Projection

/-!
# Complete trees

A tree holds a payload when its files are exactly those of the payload and its directories exactly
the ones above them. Reading such a tree gives the payload back.
-/

namespace Hedronetes.Kubelet.Projection

open Server FirstMatch Fallible

/-! ## Ancestors -/

section Ancestors

variable {path above : String}

/-- What is above an ancestor are the ancestors before it. -/
theorem prefixes_prefixes {l read a : List Char} {before after : List (List Char)}
    (h : prefixes read l = before ++ a :: after) :
    ∃ own, a = read ++ own ∧ prefixes read own = before := by
  induction l generalizing read before with
  | nil => simp [prefixes] at h
  | cons ch l ih =>
    unfold prefixes at h
    by_cases hslash : ch = '/'
    · rw [if_pos hslash] at h
      cases before with
      | nil =>
        obtain ⟨hread, -⟩ := List.cons_eq_cons.mp h
        exact ⟨[], by simp [hread], rfl⟩
      | cons b before =>
        obtain ⟨hread, htail⟩ := List.cons_eq_cons.mp h
        obtain ⟨own, ha, hown⟩ := ih htail
        refine ⟨ch :: own, by simp [ha], ?_⟩
        unfold prefixes
        rw [if_pos hslash, hown, hread]
    · rw [if_neg hslash] at h
      obtain ⟨own, ha, hown⟩ := ih h
      refine ⟨ch :: own, by simp [ha], ?_⟩
      unfold prefixes
      rw [if_neg hslash, hown]

theorem ancestors_ancestor {before after : List String}
    (h : ancestors path = before ++ above :: after) : ancestors above = before := by
  obtain ⟨front, back, hprefixes, hfront, hback⟩ := List.map_eq_append_iff.mp h
  obtain ⟨a, rest, rfl, rfl, -⟩ := List.map_eq_cons_iff.mp hback
  obtain ⟨own, ha, hown⟩ := prefixes_prefixes hprefixes
  unfold ancestors
  rw [String.toList_ofList, ha, List.nil_append, hown, hfront]

theorem length_prefixes (read l : List Char) : (prefixes read l).length = l.count '/' := by
  induction l generalizing read with
  | nil => rfl
  | cons ch l ih =>
    unfold prefixes
    by_cases hslash : ch = '/' <;> simp [hslash, ih]

theorem length_splitOnP (l : List Char) :
    (l.splitOnP (· == '/')).length = l.count '/' + 1 := by
  induction l with
  | nil => rfl
  | cons ch l ih =>
    rw [List.splitOnP_cons_eq_if_modifyHead]
    by_cases hslash : ch = '/' <;> simp [hslash, ih]

theorem length_ancestors : (ancestors path).length + 1 = (splitOn '/' path).length := by
  unfold ancestors splitOn List.splitOn
  rw [List.length_map, List.length_map, length_prefixes, length_splitOnP]

theorem mem_prefixes {read l a : List Char} (h : a ∈ prefixes read l) :
    ∃ own rest, a = read ++ own ∧ l = own ++ '/' :: rest := by
  induction l generalizing read with
  | nil => exact absurd h List.not_mem_nil
  | cons ch l ih =>
    unfold prefixes at h
    by_cases hslash : ch = '/'
    · rw [if_pos hslash] at h
      rcases List.mem_cons.mp h with rfl | h
      · exact ⟨[], l, by simp, by simp [hslash]⟩
      · obtain ⟨own, rest, ha, hl⟩ := ih h
        exact ⟨ch :: own, rest, by simp [ha], by simp [hl]⟩
    · rw [if_neg hslash] at h
      obtain ⟨own, rest, ha, hl⟩ := ih h
      exact ⟨ch :: own, rest, by simp [ha], by simp [hl]⟩

theorem ancestors_ne (h : above ∈ ancestors path) : above ≠ path := by
  rintro rfl
  obtain ⟨a, ha, hpath⟩ := List.mem_map.mp h
  obtain ⟨own, rest, hown, hl⟩ := mem_prefixes ha
  have habove : above.toList = own := by rw [← hpath, String.toList_ofList, hown, List.nil_append]
  have hlength := congrArg List.length hl
  rw [habove, List.length_append, List.length_cons] at hlength
  omega

end Ancestors

/-! ## Admitted paths -/

section Admitted

variable {files : Payload} {path above : String}

theorem paths_ok {names : List String} (h : paths names = .ok ()) :
    (∀ path ∈ names, relative path = true) ∧ names.Nodup ∧
      ∀ path ∈ names, ∀ above ∈ ancestors path, above ∉ names := by
  unfold paths at h
  by_cases hpaths : names.any (fun path => !relative path) ∨ ¬ names.Nodup
  · rw [if_pos hpaths] at h
    cases h
  rw [if_neg hpaths] at h
  by_cases hconflict : names.any fun path => (ancestors path).any (· ∈ names)
  · rw [if_pos hconflict] at h
    cases h
  push Not at hpaths
  refine ⟨?_, hpaths.2, ?_⟩
  · simpa using hpaths.1
  · simpa using hconflict

theorem relative_ok (h : relative path = true) :
    (splitOn '/' path).length ≤ 32 ∧ "..".toList.isPrefixOf path.toList = false := by
  unfold relative at h
  grind

theorem Admitted.relative (h : Admitted files) {e : String × File} (he : e ∈ files) :
    relative e.1 = true :=
  (paths_ok h.paths).1 e.1 (List.mem_map_of_mem he)

theorem Admitted.ancestor_notMem (h : Admitted files) {e : String × File} (he : e ∈ files)
    (habove : above ∈ ancestors e.1) : above ∉ files.map Prod.fst :=
  (paths_ok h.paths).2.2 e.1 (List.mem_map_of_mem he) above habove

/-! The files of a ConfigMap or Secret are admitted. -/

/-- What is kept while the files are gathered. -/
def Gathered (out : Payload) : Prop := KeysSorted out ∧ ∀ e ∈ out, e.2.mode ≤ 0o777

theorem Gathered.insertKey {out : Payload} (h : Gathered out) {f : File} (hmode : f.mode ≤ 0o777) :
    Gathered (insertKey path f out) := by
  constructor
  · exact h.1.insertKey
  · intro e he
    rcases mem_insertKey he with he | rfl
    · exact h.2 e he
    · exact hmode

theorem fileMode_le {v : Json} {default mode : ℕ} (hdefault : default ≤ 0o777)
    (h : fileMode v default = .ok mode) : mode ≤ 0o777 := by
  unfold fileMode at h
  by_cases hnull : v = .null
  · rw [if_pos hnull] at h
    exact Except.ok.inj h ▸ hdefault
  rw [if_neg hnull] at h
  cases hint : v.asInt with
  | none => simp [hint] at h
  | some n =>
    rw [hint] at h
    change (if 0 ≤ n ∧ n ≤ 0o777 then _ else _) = _ at h
    by_cases hn : 0 ≤ n ∧ n ≤ 0o777
    · rw [if_pos hn] at h
      have hmode := Except.ok.inj h
      omega
    · rw [if_neg hn] at h
      cases h

theorem within_ok {out : Payload} (hout : Gathered out) (h : within out = .ok files) :
    Admitted files := by
  obtain ⟨⟨⟩, hpaths, h⟩ := bind_eq_ok.mp h
  by_cases hlarge : 1024 < out.length ∨ LIMIT < (out.map fun e => e.2.bytes.length).sum
  · rw [if_pos hlarge] at h
    cases h
  rw [if_neg hlarge] at h
  obtain rfl := Except.ok.inj h
  push Not at hlarge
  exact ⟨hout.1, hpaths, hlarge.1, hlarge.2, hout.2⟩

/-- The files of a volume are fit to be projected. -/
theorem payload_admitted {spec : Json} {optional : Bool} {mode : ℕ}
    {data : List (String × List UInt8)} (hmode : mode ≤ 0o777)
    (h : payload spec optional mode data = .ok files) : Admitted files := by
  have hnil : Gathered [] := ⟨List.Pairwise.nil, fun _ he => absurd he List.not_mem_nil⟩
  obtain ⟨items, -, h⟩ := bind_eq_ok.mp h
  by_cases hitems : items = []
  · rw [if_pos hitems] at h
    apply within_ok _ h
    apply List.foldlRecOn data _ hnil
    intro out hout e _
    exact hout.insertKey hmode
  · rw [if_neg hitems] at h
    obtain ⟨out, hout, h⟩ := bind_eq_ok.mp h
    apply within_ok _ h
    apply foldlM_invariant hout hnil
    intro out item next hitem hgathered
    obtain ⟨key, -, hitem⟩ := bind_eq_ok.mp hitem
    cases hkey : lookup key data with
    | some bytes =>
      rw [hkey] at hitem
      obtain ⟨path, -, hitem⟩ := bind_eq_ok.mp hitem
      obtain ⟨m, hm, hitem⟩ := bind_eq_ok.mp hitem
      obtain rfl := Except.ok.inj hitem
      exact hgathered.insertKey (fileMode_le hmode hm)
    | none =>
      rw [hkey] at hitem
      cases optional with
      | true => exact Except.ok.inj hitem ▸ hgathered
      | false => cases hitem

/-- The directories that the files need. -/
def needed (files : Payload) : List String := files.flatMap fun e => ancestors e.1

theorem Admitted.length_needed (h : Admitted files) : (needed files).length ≤ 65536 := by
  have hmany : ∀ n ∈ files.map fun e => (ancestors e.1).length, n ≤ 31 := by
    intro n hn
    obtain ⟨e, he, rfl⟩ := List.mem_map.mp hn
    have hshort := (relative_ok (h.relative he)).1
    have hlength : (ancestors e.1).length + 1 = (splitOn '/' e.1).length := length_ancestors
    omega
  have hsum := List.sum_le_card_nsmul _ 31 hmany
  have hfew := h.few
  rw [List.length_map, smul_eq_mul] at hsum
  unfold needed
  rw [List.length_flatMap]
  omega

end Admitted

/-! ## Trees -/

section Trees

variable {files before : Payload} {dirs : List String} {t : Tree} {path : String} {f : File}

/-- What stands at each path when some files and some directories have been made. -/
def shape (files : Payload) (dirs : List String) (path : String) : Option Node :=
  match lookup path files with
  | some f => some (.file f)
  | none => if path ∈ dirs then some .directory else none

/-- The tree has these files and directories and nothing else. -/
structure Grown (t : Tree) (files : Payload) (dirs : List String) : Prop where
  sorted : KeysSorted t
  entries : ∀ path, lookup path t = shape files dirs path

/-- The tree is complete. -/
def Holds (t : Tree) (files : Payload) : Prop := Grown t files (needed files)

theorem shape_of_notMem (h : path ∉ files.map Prod.fst) :
    shape files dirs path = if path ∈ dirs then some .directory else none := by
  unfold shape
  rw [lookup_eq_none_iff.mpr h]

theorem Grown.nil : Grown [] [] [] := ⟨List.Pairwise.nil, fun _ => rfl⟩

/-- A new directory. -/
theorem Grown.directory (h : Grown t files dirs) (hnew : path ∉ files.map Prod.fst) :
    Grown (insertKey path .directory t) files (dirs ++ [path]) := by
  constructor
  · exact h.sorted.insertKey
  · intro p
    by_cases hp : p = path
    · rw [hp, lookup_insertKey, shape_of_notMem hnew]
      simp
    · rw [lookup_insertKey_ne hp, h.entries]
      unfold shape
      simp [hp]

/-- A new file. -/
theorem Grown.file (h : Grown t files dirs) (hnew : path ∉ files.map Prod.fst) :
    Grown (insertKey path (.file f) t) (files ++ [(path, f)]) dirs := by
  constructor
  · exact h.sorted.insertKey
  · intro p
    unfold shape
    rw [lookup_append]
    by_cases hp : p = path
    · rw [hp, lookup_insertKey, lookup_eq_none_iff.mpr hnew]
      simp [lookup_cons]
    · rw [lookup_insertKey_ne hp, h.entries]
      have hother : FirstMatch.lookup p [(path, f)] = none := by
        rw [lookup_cons, if_neg (Ne.symm hp)]
        rfl
      rw [hother, Option.or_none]
      rfl

/-- Directories that are there already make no difference. -/
theorem Grown.same {dirs' : List String} (h : Grown t files dirs)
    (hsame : ∀ path, path ∈ dirs ↔ path ∈ dirs') : Grown t files dirs' := by
  constructor
  · exact h.sorted
  · intro p
    rw [h.entries]
    unfold shape
    simp only [hsame]

end Trees

/-! ## Reading a tree -/

section Reading

variable {files out : Payload} {t : Tree} {n : ℕ}

def fileOf (e : String × Node) : Option (String × File) :=
  match e.2 with
  | .directory => none
  | .file f => some (e.1, f)

/-- What a tree takes of the budget. -/
def cost (t : Tree) : ℕ :=
  (t.map fun e => match e.2 with
    | .directory => 1
    | .file f => f.bytes.length).sum

theorem cost_directory (path : String) : cost ((path, .directory) :: t) = 1 + cost t := by
  simp [cost]

theorem cost_file (path : String) (f : File) :
    cost ((path, .file f) :: t) = f.bytes.length + cost t := by
  simp [cost]

theorem foldlM_readNode (hbudget : cost t ≤ n)
    (hfew : out.length + (t.filterMap fileOf).length ≤ 1024)
    (hmodes : ∀ e ∈ t.filterMap fileOf, e.2.mode ≤ 0o777) :
    t.foldlM readNode (out, n) =
      .ok ((t.filterMap fileOf).foldl (fun out e => insertKey e.1 e.2 out) out, n - cost t) := by
  induction t generalizing out n with
  | nil => rfl
  | cons e t ih =>
    obtain ⟨path, node⟩ := e
    cases node with
    | directory =>
      rw [cost_directory] at hbudget
      have hread : readNode (out, n) (path, .directory) = .ok (out, n - 1) := if_neg (by omega)
      have hfiles : ((path, Node.directory) :: t).filterMap fileOf = t.filterMap fileOf := rfl
      rw [hfiles] at hfew hmodes
      rw [List.foldlM_cons, hread, hfiles]
      change t.foldlM readNode (out, n - 1) = _
      rw [ih (by omega) hfew hmodes, cost_directory, Nat.sub_sub]
    | file f =>
      rw [cost_file] at hbudget
      have hfiles : ((path, Node.file f) :: t).filterMap fileOf =
        (path, f) :: t.filterMap fileOf := rfl
      rw [hfiles] at hfew hmodes
      rw [List.length_cons] at hfew
      have hmode : f.mode % 0o1000 = f.mode :=
        Nat.mod_eq_of_lt (Nat.lt_succ_of_le (hmodes (path, f) List.mem_cons_self))
      have hread : readNode (out, n) (path, .file f) =
          .ok (insertKey path f out, n - f.bytes.length) := by
        change (if n < f.bytes.length ∨ 1024 ≤ out.length then _ else _) = _
        rw [if_neg (by omega), hmode]
      have hlength := length_insertKey_succ path f out
      rw [List.foldlM_cons, hread, hfiles, List.foldl_cons]
      change t.foldlM readNode (insertKey path f out, n - f.bytes.length) = _
      rw [ih (by omega) (by omega) fun e he => hmodes e (List.mem_cons_of_mem _ he), cost_file,
        Nat.sub_sub]

theorem lookup_filterMap_fileOf (path : String) (h : KeysSorted t) :
    lookup path (t.filterMap fileOf) = (lookup path t).bind fun node => (fileOf (path, node)).map
      Prod.snd := by
  induction t with
  | nil => rfl
  | cons e t ih =>
    obtain ⟨hlt, hsorted⟩ := List.pairwise_cons.mp h
    obtain ⟨p, node⟩ := e
    rw [lookup_cons]
    by_cases hp : p = path
    · subst hp
      cases node with
      | directory =>
        have habsent : lookup p t = none := by
          apply lookup_eq_none_iff.mpr
          intro hmem
          obtain ⟨d, hd, hk⟩ := List.mem_map.mp hmem
          exact (hlt d hd).ne hk.symm
        change lookup p (t.filterMap fileOf) = _
        rw [ih hsorted, habsent]
        simp [fileOf]
      | file f => simp [fileOf, lookup_cons]
    · rw [if_neg hp, ← ih hsorted]
      cases node with
      | directory => rfl
      | file f =>
        change lookup path ((p, f) :: t.filterMap fileOf) = _
        rw [lookup_cons, if_neg hp]

theorem keysSorted_filterMap_fileOf (h : KeysSorted t) : KeysSorted (t.filterMap fileOf) := by
  apply List.Pairwise.filterMap fileOf _ h
  intro e d hlt e' he' d' hd'
  obtain ⟨p, node⟩ := e
  obtain ⟨q, other⟩ := d
  cases node with
  | directory => exact absurd he' (by simp [fileOf])
  | file f =>
    cases other with
    | directory => exact absurd hd' (by simp [fileOf])
    | file g =>
      obtain rfl := Option.some_inj.mp he'
      obtain rfl := Option.some_inj.mp hd'
      exact hlt

/-- The files of a complete tree are those of the payload. -/
theorem Holds.filesOf (h : Holds t files) (hsorted : KeysSorted files) :
    t.filterMap fileOf = files := by
  apply (keysSorted_filterMap_fileOf h.sorted).ext hsorted
  intro path
  rw [lookup_filterMap_fileOf path h.sorted, h.entries]
  unfold shape
  cases lookup path files with
  | none => by_cases hpath : path ∈ needed files <;> simp [hpath, fileOf]
  | some f => rfl

def directoriesOf (t : Tree) : Tree := t.filter fun e => e.2 = .directory

theorem cost_eq (t : Tree) : cost t =
    (directoriesOf t).length + ((t.filterMap fileOf).map fun e => e.2.bytes.length).sum := by
  induction t with
  | nil => rfl
  | cons e t ih =>
    obtain ⟨path, node⟩ := e
    cases node with
    | directory =>
      have hdirs : directoriesOf ((path, .directory) :: t) = (path, .directory) :: directoriesOf t :=
        rfl
      have hfiles : ((path, Node.directory) :: t).filterMap fileOf = t.filterMap fileOf := rfl
      rw [hdirs, hfiles, cost_directory, ih, List.length_cons]
      omega
    | file f =>
      have hdirs : directoriesOf ((path, .file f) :: t) = directoriesOf t := rfl
      have hfiles : ((path, Node.file f) :: t).filterMap fileOf =
        (path, f) :: t.filterMap fileOf := rfl
      rw [hdirs, hfiles, cost_file, ih, List.map_cons, List.sum_cons]
      exact Nat.add_left_comm _ _ _

/-- A complete tree is within the budget. -/
theorem Holds.cost_le (h : Holds t files) (hfiles : Admitted files) : cost t ≤ LIMIT + 65536 := by
  have hnodup : ((directoriesOf t).map Prod.fst).Nodup := by
    apply List.Pairwise.map Prod.fst _ (List.Pairwise.filter _ h.sorted)
    intro e d hlt
    exact hlt.ne
  have hsubset : (directoriesOf t).map Prod.fst ⊆ needed files := by
    intro path hpath
    obtain ⟨⟨p, node⟩, hmem, rfl⟩ := List.mem_map.mp hpath
    obtain ⟨hmem, hnode⟩ := List.mem_filter.mp hmem
    obtain rfl := of_decide_eq_true hnode
    have hentry := h.entries p
    rw [lookup_of_mem h.sorted hmem] at hentry
    unfold shape at hentry
    grind
  have hdirs := (hnodup.subperm hsubset).length_le
  rw [List.length_map] at hdirs
  have hlength := hfiles.length_needed
  have hsmall := hfiles.small
  rw [cost_eq, h.filesOf hfiles.sorted]
  omega

/-- What is read from a complete tree is the payload. -/
theorem Holds.readTree (h : Holds t files) (hfiles : Admitted files) :
    readTree t (LIMIT + 65536) = .ok files := by
  have hown := h.filesOf hfiles.sorted
  unfold Projection.readTree
  rw [foldlM_readNode (h.cost_le hfiles) (by simpa [hown] using hfiles.few)
    (by simpa only [hown] using hfiles.modes), hown]
  rw [foldl_insertKey_sorted (by simpa using hfiles.sorted)]
  rfl

end Reading

end Hedronetes.Kubelet.Projection
