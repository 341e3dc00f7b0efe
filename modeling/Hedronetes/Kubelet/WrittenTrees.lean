import Hedronetes.Kubelet.Payloads

/-!
# Writing a tree

The files of a payload are written one by one, each behind the directories above it. Paths that the
profile has accepted never get in each other's way, whatever the order they are written in.
-/

namespace Hedronetes.Kubelet.Projection

open Server FirstMatch Crashes Steps Fallible

variable {I : Directory → Prop} {M : Tree → Directory → Prop} {fresh path name : String}
  {files before : Payload} {dirs : List String} {t : Tree} {f : File}

/-! ## Files and directories -/

/-- A call below a directory that is there. -/
theorem inTree_ok {u : Tree} {dir : Directory} {call : Tree → Except Failure Tree}
    (hhere : lookup fresh dir = some (.tree t)) (hcall : call t = .ok u) :
    inTree fresh call dir = .ok (insertKey fresh (.tree u) dir) := by
  unfold inTree treeAt
  rw [hhere]
  change (call t >>= fun u => .ok (insertKey fresh (.tree u) dir)) = _
  rw [hcall]
  rfl

/-- A directory holds a tree that the calls change, and a stop between them does no harm. -/
structure Holder (fresh : String) (I : Directory → Prop) (M : Tree → Directory → Prop) : Prop where
  here : ∀ t dir, M t dir → lookup fresh dir = some (.tree t)
  inTree : ∀ t u (call : Tree → Except Failure Tree) dir, M t dir → call t = .ok u →
    ∃ next, inTree fresh call dir = .ok next ∧ M u next
  intact : ∀ t dir, M t dir → I dir

/-- The new directory has these files and directories. -/
def Built (M : Tree → Directory → Prop) (files : Payload) (dirs : List String) (dir : Directory) : Prop :=
  ∃ t, Grown t files dirs ∧ M t dir

/-- The parent of a path is there. -/
theorem parent_there (hgrown : Grown t before dirs)
    (hdirs : ∀ above ∈ ancestors path, above ∈ dirs)
    (hfiles : ∀ above ∈ ancestors path, above ∉ before.map Prod.fst) :
    ((ancestors path).getLast?.all fun parent => lookup parent t = some .directory) = true := by
  cases hlast : (ancestors path).getLast? with
  | none => rfl
  | some parent =>
    have hparent := List.mem_of_getLast? hlast
    have hthere : lookup parent t = some .directory := by
      rw [hgrown.entries, shape_of_notMem (hfiles parent hparent), if_pos (hdirs parent hparent)]
    simp [hthere]

theorem realDirectory_endures (hM : Holder fresh I M) {above : List String} {after : List String}
    (hpath : ancestors path = above ++ name :: after)
    (hfiles : ∀ a ∈ ancestors path, a ∉ before.map Prod.fst) :
    Endures (I) (Built M before (dirs ++ above)) (realDirectory fresh name)
      fun _ => Built M before (dirs ++ (above ++ [name])) := by
  have hname : name ∈ ancestors path := by simp [hpath]
  unfold realDirectory
  apply Endures.bind (Q := fun found dir => Grown found before (dirs ++ above) ∧
    M found dir)
  · apply Endures.look
    rintro dir ⟨t, hgrown, hmaking⟩
    refine ⟨t, ?_, hgrown, hmaking⟩
    unfold treeAt
    rw [hM.here _ _ hmaking]
  · intro found
    apply Endures.known
    rintro dir ⟨hgrown, hmaking⟩
    have hentry := hgrown.entries name
    rw [shape_of_notMem (hfiles name hname)] at hentry
    by_cases hthere : name ∈ dirs ++ above
    · rw [if_pos hthere] at hentry
      rw [hentry]
      apply Endures.pure
      rintro _ rfl
      refine ⟨found, hgrown.same ?_, hmaking⟩
      intro p
      simp only [List.mem_append, List.mem_singleton] at hthere ⊢
      grind
    · rw [if_neg hthere] at hentry
      rw [hentry]
      apply Endures.act
      rintro _ rfl
      have hown := ancestors_ancestor hpath
      have habove : ∀ a ∈ ancestors name, a ∈ dirs ++ above := by
        rw [hown]
        exact fun a ha => List.mem_append_right _ ha
      have hparent := parent_there hgrown habove
        fun a ha => hfiles a (by rw [hpath]; exact List.mem_append_left _ (hown ▸ ha))
      have hcall : create name .directory found = .ok (insertKey name .directory found) := by
        unfold create
        rw [hentry, if_neg (by simp), if_pos hparent]
      obtain ⟨next, hnext, hmade⟩ := hM.inTree _ _ _ _ hmaking hcall
      refine ⟨next, hnext, hM.intact _ _ hmade, _, ?_, hmade⟩
      rw [← List.append_assoc]
      exact hgrown.directory (hfiles name hname)

/-- The file is at work: it has been made, and the rest of the tree is as before. -/
def Writing (M : Tree → Directory → Prop) (before : Payload) (dirs : List String) (path : String)
    (f : File) (dir : Directory) : Prop :=
  ∃ t, Grown t before dirs ∧ M (insertKey path (.file f) t) dir

theorem changeFile_endures (hM : Holder fresh I M) {change : File → File} :
    Endures (I) (Writing M before dirs path f)
      (act (inTree fresh (changeFile path change)))
      fun _ => Writing M before dirs path (change f) := by
  apply Endures.act
  rintro dir ⟨t, hgrown, hmaking⟩
  have hcall : changeFile path change (insertKey path (.file f) t) =
      .ok (insertKey path (.file (change f)) t) := by
    unfold changeFile
    rw [lookup_insertKey]
    change Except.ok _ = _
    rw [insertKey_insertKey]
  obtain ⟨next, hnext, hmade⟩ := hM.inTree _ _ _ _ hmaking hcall
  exact ⟨next, hnext, hM.intact _ _ hmade, t, hgrown, hmade⟩

theorem writeFile_endures (hM : Holder fresh I M) {e : String × File} {after : Payload}
    (hfiles : paths (files.map Prod.fst) = .ok ())
    (hsplit : files = before ++ e :: after) :
    Endures (I) (Built M before (needed before)) (writeFile fresh e)
      fun _ => Built M (before ++ [e]) (needed (before ++ [e])) := by
  have he : e ∈ files := by simp [hsplit]
  have hsubset : ∀ p, p ∈ before.map Prod.fst → p ∈ files.map Prod.fst := by
    intro p hp
    rw [hsplit, List.map_append]
    exact List.mem_append_left _ hp
  have habove : ∀ a ∈ ancestors e.1, a ∉ before.map Prod.fst := fun a ha hmem =>
    (paths_ok hfiles).2.2 e.1 (List.mem_map_of_mem he) a ha (hsubset a hmem)
  have hneeded : needed (before ++ [e]) = needed before ++ ancestors e.1 := by
    simp [needed]
  have hnew : e.1 ∉ before.map Prod.fst := by
    have hnodup := (paths_ok hfiles).2.1
    rw [hsplit, List.map_append] at hnodup
    exact fun hmem => List.disjoint_of_nodup_append hnodup hmem (by simp)
  have hfile : e.1 ∉ needed (before ++ [e]) := by
    intro hmem
    obtain ⟨d, hd, hmem⟩ := List.mem_flatMap.mp hmem
    have hdfiles : d ∈ files := by
      rw [hsplit]
      simp only [List.mem_append, List.mem_cons] at hd ⊢
      tauto
    exact (paths_ok hfiles).2.2 d.1 (List.mem_map_of_mem hdfiles) e.1 hmem (List.mem_map_of_mem he)
  unfold writeFile
  apply Endures.bind (Q := fun _ => Built M before (needed (before ++ [e])))
  · have hloop := Endures.forM (I := I) (f := realDirectory fresh)
      (l := ancestors e.1) (J := fun above => Built M before (needed before ++ above))
      fun above a after hpath => realDirectory_endures hM hpath habove
    rw [List.append_nil, ← hneeded] at hloop
    exact hloop
  intro _
  apply Endures.bind (Q := fun _ => Writing M before (needed (before ++ [e])) e.1
    ⟨[], 0o600⟩)
  · apply Endures.act
    rintro dir ⟨t, hgrown, hmaking⟩
    have habsent : lookup e.1 t = none := by
      rw [hgrown.entries, shape_of_notMem hnew, if_neg hfile]
    have hparent := parent_there hgrown (fun a ha => by
      rw [hneeded]
      exact List.mem_append_right _ ha) habove
    have hcall : create e.1 (.file ⟨[], 0o600⟩) t =
        .ok (insertKey e.1 (.file ⟨[], 0o600⟩) t) := by
      unfold create
      rw [habsent, if_neg (by simp), if_pos hparent]
    obtain ⟨next, hnext, hmade⟩ := hM.inTree _ _ _ _ hmaking hcall
    exact ⟨next, hnext, hM.intact _ _ hmade, t, hgrown, hmade⟩
  intro _
  apply (changeFile_endures hM).bind
  intro _
  apply (changeFile_endures hM).mono (fun _ h => h)
  rintro _ dir ⟨t, hgrown, hmaking⟩
  exact ⟨_, hgrown.file hnew, hmaking⟩

/-! ## Paths that fit together -/

section Paths

variable {names : List String} {above : String}

/-- The one path is a directory above the other. -/
def Under (above path : String) : Prop := ∃ rest, path.toList = above.toList ++ '/' :: rest

/-- Relative paths, each given once and none a directory above another. -/
structure Fitting (names : List String) : Prop where
  isRelative : ∀ path ∈ names, Api.relative path = true
  nodup : names.Nodup
  apart : ∀ above ∈ names, ∀ path ∈ names, ¬ Under above path

theorem prefixes_mem (read own rest : List Char) :
    read ++ own ∈ prefixes read (own ++ '/' :: rest) := by
  induction own generalizing read with
  | nil => simp [prefixes]
  | cons ch own ih =>
    have htail : read ++ ch :: own ∈ prefixes (read ++ [ch]) (own ++ '/' :: rest) := by
      simpa using ih (read ++ [ch])
    rw [List.cons_append, prefixes]
    split_ifs
    · exact List.mem_cons_of_mem _ htail
    · exact htail

theorem mem_ancestors : above ∈ ancestors path ↔ Under above path := by
  constructor
  · intro h
    obtain ⟨a, ha, rfl⟩ := List.mem_map.mp h
    obtain ⟨own, rest, hown, hpath⟩ := mem_prefixes ha
    exact ⟨rest, by rw [String.toList_ofList, hown, hpath, List.nil_append]⟩
  · rintro ⟨rest, hpath⟩
    have hmem := prefixes_mem [] above.toList rest
    rw [List.nil_append, ← hpath] at hmem
    exact List.mem_map.mpr ⟨above.toList, hmem, String.ofList_toList⟩

theorem mem_parents {parent l : List Char} :
    parent ∈ Api.parents l ↔ ∃ rest, l = parent ++ '/' :: rest := by
  unfold Api.parents
  rw [List.mem_filterMap]
  constructor
  · rintro ⟨i, -, hsome⟩
    split_ifs at hsome with hslash
    obtain rfl := Option.some.inj hsome
    obtain ⟨hlt, hget⟩ := List.getElem?_eq_some_iff.mp hslash
    refine ⟨l.drop (i + 1), ?_⟩
    rw [← hget, ← List.drop_eq_getElem_cons hlt, List.take_append_drop]
  · rintro ⟨rest, rfl⟩
    refine ⟨parent.length, ?_, ?_⟩
    · rw [List.mem_range, List.length_append, List.length_cons]
      omega
    · rw [if_pos (by simp), List.take_left]

/-- The profile and the kubelet mean the same by a relative path. -/
theorem relative_eq (path : String) : relative path = Api.relative path := by
  have hstart : ∀ start : String, (stripStart start path).isNone =
      !start.toList.isPrefixOf path.toList := by
    intro start
    unfold stripStart
    cases hread : start.toList.isPrefixOf? path.toList with
    | some rest =>
      have hbegins : start.toList.isPrefixOf path.toList = true := by
        rw [isPrefixOf?_eq_some.mp hread]
        exact List.isPrefixOf_iff_prefix.mpr (List.prefix_append _ _)
      simp [hbegins]
    | none =>
      have hnone : start.toList.isPrefixOf path.toList = false := by
        rw [← Bool.not_eq_true, List.isPrefixOf_iff_prefix]
        rintro ⟨rest, hrest⟩
        rw [isPrefixOf?_eq_some.mpr hrest.symm] at hread
        cases hread
      simp [hnone]
  unfold relative Api.relative
  rw [hstart, hstart]

theorem api_paths_iff : Api.paths names = .ok () ↔ Fitting names := by
  rw [Api.paths_ok, Api.pairwise_not_overlap]
  constructor
  · rintro ⟨hrelative, hnodup, hbelow⟩
    refine ⟨hrelative, hnodup, fun above habove path hpath hunder => ?_⟩
    apply hbelow path hpath above.toList (mem_parents.mpr hunder)
    rwa [String.ofList_toList]
  · rintro ⟨hrelative, hnodup, hapart⟩
    refine ⟨hrelative, hnodup, fun path hpath parent hparent hmem => ?_⟩
    obtain ⟨rest, hrest⟩ := mem_parents.mp hparent
    exact hapart _ hmem path hpath ⟨rest, by rw [hrest, String.toList_ofList]⟩

theorem paths_iff : paths names = .ok () ↔ Fitting names := by
  constructor
  · intro h
    obtain ⟨hrelative, hnodup, habove⟩ := paths_ok h
    refine ⟨fun path hpath => relative_eq path ▸ hrelative path hpath, hnodup, ?_⟩
    exact fun above hmem path hpath hunder => habove path hpath above (mem_ancestors.mpr hunder) hmem
  · intro h
    have hgood : ¬ (names.any (fun path => !relative path) ∨ ¬ names.Nodup) := by
      simp only [List.any_eq_true, Bool.not_eq_true', not_or, not_not, not_exists, not_and]
      refine ⟨fun path hpath => ?_, h.nodup⟩
      rw [relative_eq, h.isRelative path hpath]
      decide
    have hapart : ¬ names.any fun path => (ancestors path).any (· ∈ names) := by
      simp only [List.any_eq_true, decide_eq_true_eq, not_exists, not_and]
      exact fun path hpath above habove hmem => h.apart above hmem path hpath
        (mem_ancestors.mp habove)
    unfold paths
    rw [if_neg hgood, if_neg hapart]

/-! ## Every order -/

theorem Fitting.perm {others : List String} (h : Fitting names) (hperm : others.Perm names) :
    Fitting others :=
  ⟨fun path hpath => h.isRelative path (hperm.subset hpath), hperm.nodup_iff.mpr h.nodup,
    fun above habove path hpath => h.apart above (hperm.subset habove) path (hperm.subset hpath)⟩

/-- A directory that holds the tree, whatever else is around it. -/
theorem here_holder : Holder fresh (fun _ => True)
    fun t dir => lookup fresh dir = some (.tree t) := by
  constructor
  · exact fun _ _ h => h
  · intro t u call dir h hcall
    exact ⟨_, inTree_ok h hcall, lookup_insertKey _ _ _⟩
  · exact fun _ _ _ => trivial

/-- The files of a new tree are written without a file in the place of a directory or a directory in
that of a file. -/
theorem writeFiles_holds (h : Fitting (files.map Prod.fst)) {dir : Directory}
    (hdir : lookup fresh dir = some (.tree [])) :
    ∃ next t, (files.forM (writeFile fresh) dir).2 = .ok ((), next) ∧
      lookup fresh next = some (.tree t) ∧ Holds t files := by
  have hwrites := Endures.forM (I := fun _ => True) (f := writeFile fresh) (l := files)
    (J := fun before => Built (fun t dir => lookup fresh dir = some (.tree t)) before
      (needed before))
    fun before e after hsplit => writeFile_endures here_holder (paths_iff.mpr h) hsplit
  obtain ⟨-, _, next, hresult, t, hholds, hnext⟩ := hwrites dir ⟨[], .nil, hdir⟩
  exact ⟨next, t, hresult, hnext, hholds⟩

/-- The profile and the kubelet accept a list of paths exactly when they fit together, and files at
accepted paths are written in any order. -/
theorem projected_paths_fit (names : List String) :
    (Api.paths names = .ok () ↔ Fitting names) ∧ (paths names = .ok () ↔ Fitting names) ∧
      (Api.paths names = .ok () → ∀ files : Payload, (files.map Prod.fst).Perm names →
        ∀ fresh dir, lookup fresh dir = some (.tree []) →
          ∃ next t, (files.forM (writeFile fresh) dir).2 = .ok ((), next) ∧
            lookup fresh next = some (.tree t) ∧ Holds t files) := by
  refine ⟨api_paths_iff, paths_iff, ?_⟩
  intro haccepted files hperm fresh dir hdir
  exact writeFiles_holds ((api_paths_iff.mp haccepted).perm hperm) hdir

/-- A file below a directory before one beside it. -/
def twoFiles : Payload := [("b/c", ⟨[1], 0o644⟩), ("a", ⟨[], 0o600⟩)]

theorem two_paths_fit : ∃ next t,
    (twoFiles.forM (writeFile "..h3s-aaaaaa") [("..h3s-aaaaaa", .tree [])]).2 = .ok ((), next) ∧
      lookup "..h3s-aaaaaa" next = some (.tree t) ∧ Holds t twoFiles :=
  (projected_paths_fit ["a", "b/c"]).2.2 (toOption_eq_some.mp (by decide +kernel)) twoFiles
    (List.Perm.swap "a" "b/c" []) "..h3s-aaaaaa" _ (by decide)

end Paths

end Hedronetes.Kubelet.Projection
