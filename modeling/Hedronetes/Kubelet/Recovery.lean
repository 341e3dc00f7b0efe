import Hedronetes.Kubelet.WrittenTrees

/-!
# Projections survive a stop

Whenever `project` stops, the published tree is complete: that of before or the new one. The next
run comes to its end and leaves the new files and nothing else.
-/

namespace Hedronetes.Kubelet.Projection

open Server FirstMatch Crashes Steps

variable {dir : Directory} {files : Payload} {fresh name gen path : String} {entry : Entry}
  {t : Tree}

/-! ## What runs leave -/

/-- The tree that `..data` leads to. -/
def resolved (dir : Directory) : Option Tree :=
  match lookup "..data" dir with
  | some (.link target) =>
    match lookup target dir with
    | some (.tree t) => some t
    | _ => none
  | _ => none

/-- `..data` leads to a complete tree of the files. -/
def Shows (dir : Directory) (files : Payload) : Prop := ∃ t, resolved dir = some t ∧ Holds t files

def hidden (name : String) : Bool := "..".toList.isPrefixOf name.toList

/-- What may stand under a name. -/
def Allowed (name : String) : Entry → Prop
  | .tree _ => generation name = true
  | .link target => name = "..data" ∨ name = "..data_tmp" ∨
      hidden name = false ∧ target = "..data/" ++ name

/-- What earlier runs and stops may leave. -/
structure Good (dir : Directory) : Prop where
  sorted : KeysSorted dir
  allowed : ∀ name entry, lookup name dir = some entry → Allowed name entry
  published : ∀ entry, lookup "..data" dir = some entry → ∃ gen t files, entry = .link gen ∧
    generation gen = true ∧ lookup gen dir = some (.tree t) ∧ Admitted files ∧ Holds t files

theorem Good.nil : Good [] :=
  ⟨List.Pairwise.nil, fun _ _ h => (by cases h), fun _ h => (by cases h)⟩

theorem hidden_of_generation (h : generation name = true) : hidden name = true := by
  unfold generation at h
  obtain ⟨h, -⟩ := Bool.and_eq_true_iff.mp h
  obtain ⟨h, -⟩ := Bool.and_eq_true_iff.mp h
  obtain ⟨rest, hrest⟩ := List.isPrefixOf_iff_prefix.mp h
  apply List.isPrefixOf_iff_prefix.mpr
  rw [← hrest]
  exact ⟨"h3s-".toList ++ rest, rfl⟩

theorem generation_ne_data (h : generation name = true) : name ≠ "..data" := by
  rintro rfl
  revert h
  decide

theorem generation_ne_pending (h : generation name = true) : name ≠ "..data_tmp" := by
  rintro rfl
  revert h
  decide

/-- Nothing that is published stands under the name. -/
structure Free (name : String) (dir : Directory) : Prop where
  notData : name ≠ "..data"
  notShown : lookup "..data" dir ≠ some (.link name)

theorem resolved_congr {next : Directory} (hdata : lookup "..data" next = lookup "..data" dir)
    (htarget : ∀ gen, lookup "..data" dir = some (.link gen) → lookup gen next = lookup gen dir) :
    resolved next = resolved dir := by
  unfold resolved
  rw [hdata]
  cases hentry : lookup "..data" dir with
  | none => rfl
  | some entry =>
    cases entry with
    | link gen =>
      have hgen := htarget gen hentry
      simp only [hgen]
    | tree t => rfl

/-- A change of one free name. -/
structure Apart (name : String) (dir next : Directory) : Prop where
  free : Free name dir
  sorted : KeysSorted next
  others : ∀ n, n ≠ name → lookup n next = lookup n dir
  allowed : ∀ entry, lookup name next = some entry → Allowed name entry

theorem Apart.data {next : Directory} (h : Apart name dir next) :
    lookup "..data" next = lookup "..data" dir := h.others _ h.free.notData.symm

theorem Apart.target {next : Directory} (h : Apart name dir next)
    (hgen : lookup "..data" dir = some (.link gen)) : lookup gen next = lookup gen dir := by
  apply h.others
  rintro rfl
  exact h.free.notShown hgen

theorem Apart.resolved {next : Directory} (h : Apart name dir next) :
    resolved next = resolved dir := resolved_congr h.data fun _ hgen => h.target hgen

theorem Good.apart {next : Directory} (h : Good dir) (hnext : Apart name dir next) :
    Good next := by
  constructor
  · exact hnext.sorted
  · intro n entry hentry
    by_cases hn : n = name
    · subst hn
      exact hnext.allowed entry hentry
    · rw [hnext.others n hn] at hentry
      exact h.allowed n entry hentry
  · intro entry hentry
    rw [hnext.data] at hentry
    obtain ⟨gen, t, files, rfl, hgen, ht, hfiles⟩ := h.published entry hentry
    exact ⟨gen, t, files, rfl, hgen, by rw [hnext.target hentry, ht], hfiles⟩

theorem Apart.insert (hfree : Free name dir) (hsorted : KeysSorted dir)
    (hallowed : Allowed name entry) : Apart name dir (insertKey name entry dir) := by
  constructor
  · exact hfree
  · exact hsorted.insertKey
  · intro n hn
    exact lookup_insertKey_ne hn _ _
  · intro other hother
    rw [lookup_insertKey] at hother
    exact Option.some.inj hother ▸ hallowed

theorem Apart.erase (hfree : Free name dir) (hsorted : KeysSorted dir) :
    Apart name dir (eraseKey name dir) := by
  constructor
  · exact hfree
  · exact List.Pairwise.filter _ hsorted
  · intro n hn
    exact lookup_eraseKey_ne hn _
  · intro other hother
    rw [lookup_eraseKey] at hother
    cases hother

/-! ## The free names -/

/-- The name of a new directory. -/
structure Fresh (name : String) (dir : Directory) : Prop where
  generation : generation name = true
  absent : lookup name dir = none

theorem Good.free_fresh (h : Good dir) (hfresh : Fresh fresh dir) : Free fresh dir := by
  constructor
  · exact generation_ne_data hfresh.generation
  · intro hdata
    obtain ⟨gen, t, files, heq, -, ht, -⟩ := h.published _ hdata
    obtain rfl := Entry.link.inj heq
    rw [hfresh.absent] at ht
    cases ht

theorem Good.free_pending (h : Good dir) : Free "..data_tmp" dir := by
  constructor
  · decide
  · intro hdata
    obtain ⟨gen, t, files, heq, hgen, -⟩ := h.published _ hdata
    obtain rfl := Entry.link.inj heq
    exact generation_ne_pending hgen rfl

theorem Good.free_visible (h : Good dir) (hname : hidden name = false) : Free name dir := by
  constructor
  · rintro rfl
    revert hname
    decide
  · intro hdata
    obtain ⟨gen, t, files, heq, hgen, -⟩ := h.published _ hdata
    obtain rfl := Entry.link.inj heq
    rw [hidden_of_generation hgen] at hname
    cases hname

/-! ## The new directory -/

/-- A state in which a stop leaves what was published before. -/
def Intact (old : Option Tree) (files : Payload) (dir : Directory) : Prop :=
  Good dir ∧ (resolved dir = old ∨ Shows dir files)

/-- The new directory is at work and holds the tree. -/
structure Making (old : Option Tree) (fresh : String) (t : Tree) (dir : Directory) : Prop where
  good : Good dir
  same : resolved dir = old
  free : Free fresh dir
  generation : generation fresh = true
  here : lookup fresh dir = some (.tree t)

variable {old : Option Tree} {u : Tree} {before : Payload} {dirs : List String} {f : File}

theorem Making.intact (h : Making old fresh t dir) : Intact old files dir :=
  ⟨h.good, .inl h.same⟩

theorem makeDirectory_fresh (h : Good dir) (hsame : resolved dir = old)
    (hfresh : Fresh fresh dir) :
    ∃ next, makeDirectory fresh dir = .ok next ∧ Making old fresh [] next := by
  have hapart := Apart.insert (h.free_fresh hfresh) h.sorted
    (show Allowed fresh (.tree []) from hfresh.generation)
  refine ⟨insertKey fresh (.tree []) dir, ?_, ?_⟩
  · unfold makeDirectory
    rw [hfresh.absent]
    rfl
  · constructor
    · exact h.apart hapart
    · rw [hapart.resolved, hsame]
    · exact ⟨hapart.free.notData, hapart.data ▸ hapart.free.notShown⟩
    · exact hfresh.generation
    · exact lookup_insertKey _ _ _

/-- A call below the new directory. -/
theorem Making.inTree {call : Tree → Except Failure Tree} (h : Making old fresh t dir)
    (hcall : call t = .ok u) : ∃ next, inTree fresh call dir = .ok next ∧
      Making old fresh u next := by
  have hapart := Apart.insert h.free h.good.sorted
    (show Allowed fresh (.tree u) from h.generation)
  refine ⟨insertKey fresh (.tree u) dir, inTree_ok h.here hcall, ?_⟩
  constructor
  · exact h.good.apart hapart
  · rw [hapart.resolved, h.same]
  · exact ⟨hapart.free.notData, hapart.data ▸ hapart.free.notShown⟩
  · exact h.generation
  · exact lookup_insertKey _ _ _

theorem Making.holder : Holder fresh (Intact old files) (Making old fresh) :=
  ⟨fun _ _ h => h.here, fun _ _ _ _ h hcall => h.inTree hcall, fun _ _ h => h.intact⟩

/-! ## Publication -/

theorem Making.apart {next : Directory} (h : Making old fresh t dir)
    (hnext : Apart name dir next) (hname : name ≠ fresh) : Making old fresh t next := by
  constructor
  · exact h.good.apart hnext
  · rw [hnext.resolved, h.same]
  · exact ⟨h.free.notData, hnext.data ▸ h.free.notShown⟩
  · exact h.generation
  · rw [hnext.others fresh hname.symm, h.here]

/-- The pending link goes, and what does not depend on it stays. -/
theorem clearPending_endures {I K : Directory → Prop} (hgood : ∀ dir, K dir → Good dir)
    (hkeep : ∀ dir next, Apart "..data_tmp" dir next → K dir → K next)
    (hstop : ∀ dir, K dir → I dir) :
    Endures I K clearPending fun _ dir => K dir ∧ lookup "..data_tmp" dir = none := by
  unfold clearPending
  apply Endures.bind (Q := fun found dir => K dir ∧ found = lookup "..data_tmp" dir)
  · apply Endures.look
    intro dir hdir
    exact ⟨_, rfl, hdir, rfl⟩
  intro found
  apply Endures.known
  rintro dir ⟨hdir, rfl⟩
  cases hentry : lookup "..data_tmp" dir with
  | none =>
    apply Endures.pure
    rintro _ rfl
    exact ⟨hdir, hentry⟩
  | some entry =>
    cases entry with
    | tree t => exact absurd rfl (generation_ne_pending ((hgood dir hdir).allowed _ _ hentry))
    | link target =>
      apply Endures.act
      rintro _ rfl
      have hgone := hkeep _ _ (Apart.erase (hgood _ hdir).free_pending (hgood _ hdir).sorted) hdir
      refine ⟨eraseKey "..data_tmp" _, ?_, hstop _ hgone, hgone, lookup_eraseKey _ _⟩
      unfold removeFile
      rw [hentry]

/-- The link comes to lead to the new tree. -/
theorem rename_publishes (h : Making old fresh t dir) (hfiles : Admitted files)
    (hholds : Holds t files) (hpending : lookup "..data_tmp" dir = some (.link fresh)) :
    ∃ next, rename "..data_tmp" "..data" dir = .ok next ∧ Good next ∧ Shows next files := by
  have hothers : ∀ n, n ≠ "..data" → n ≠ "..data_tmp" →
      lookup n (insertKey "..data" (.link fresh) (eraseKey "..data_tmp" dir)) = lookup n dir := by
    intro n hdata htmp
    rw [lookup_insertKey_ne hdata, lookup_eraseKey_ne htmp]
  have hdata : lookup "..data" (insertKey "..data" (.link fresh) (eraseKey "..data_tmp" dir)) =
    some (.link fresh) := lookup_insertKey _ _ _
  have hhere := hothers fresh (generation_ne_data h.generation)
    (generation_ne_pending h.generation)
  rw [h.here] at hhere
  refine ⟨insertKey "..data" (.link fresh) (eraseKey "..data_tmp" dir), ?_, ?_, t, ?_, hholds⟩
  · unfold rename
    rw [hpending]
    cases hentry : lookup "..data" dir with
    | none => rfl
    | some entry =>
      obtain ⟨gen, _, _, rfl, -⟩ := h.good.published _ hentry
      rfl
  · constructor
    · exact KeysSorted.insertKey (List.Pairwise.filter _ h.good.sorted)
    · intro n entry hentry
      by_cases hn : n = "..data"
      · subst hn
        rw [hdata] at hentry
        obtain rfl := Option.some.inj hentry
        exact .inl rfl
      · rw [lookup_insertKey_ne hn] at hentry
        by_cases htmp : n = "..data_tmp"
        · subst htmp
          rw [lookup_eraseKey] at hentry
          cases hentry
        · rw [lookup_eraseKey_ne htmp] at hentry
          exact h.good.allowed n entry hentry
    · intro entry hentry
      rw [hdata] at hentry
      obtain rfl := Option.some.inj hentry
      exact ⟨fresh, t, files, rfl, h.generation, hhere, hfiles, hholds⟩
  · unfold resolved
    rw [hdata]
    simp only [hhere]

theorem publish_endures (hfiles : Admitted files) :
    Endures (Intact old files) (fun dir => Good dir ∧ resolved dir = old ∧ Fresh fresh dir)
      (publish fresh files) fun _ dir => Good dir ∧ Shows dir files := by
  unfold publish
  apply Endures.bind (Q := fun _ => Built (Making old fresh) [] (needed []))
  · apply Endures.act
    rintro dir ⟨hgood, hsame, hfresh⟩
    obtain ⟨next, hnext, hmaking⟩ := makeDirectory_fresh hgood hsame hfresh
    exact ⟨next, hnext, hmaking.intact, [], .nil, hmaking⟩
  intro _
  apply Endures.bind (Q := fun _ => Built (Making old fresh) files (needed files))
  · exact Endures.forM (J := fun before => Built (Making old fresh) before (needed before))
      fun before e after hsplit => writeFile_endures Making.holder hfiles.paths hsplit
  intro _
  apply Endures.known
  rintro built ⟨t, hholds, hbuilt⟩
  apply Endures.bind (Q := fun _ dir => Making old fresh t dir ∧ lookup "..data_tmp" dir = none)
  · apply (clearPending_endures (I := Intact old files) (K := Making old fresh t)
      (fun _ h => h.good) (fun _ _ hnext h => h.apart hnext (generation_ne_pending
        h.generation).symm) fun _ h => h.intact).mono _ fun _ _ h => h
    rintro _ rfl
    exact hbuilt
  intro _
  apply Endures.bind (Q := fun _ dir => Making old fresh t dir ∧
    lookup "..data_tmp" dir = some (.link fresh))
  · apply Endures.act
    rintro dir ⟨hmaking, habsent⟩
    have hapart := Apart.insert hmaking.good.free_pending hmaking.good.sorted
      (show Allowed "..data_tmp" (.link fresh) from .inr (.inl rfl))
    have hmade := hmaking.apart hapart (generation_ne_pending hmaking.generation).symm
    refine ⟨insertKey "..data_tmp" (.link fresh) dir, ?_, hmade.intact, hmade,
      lookup_insertKey _ _ _⟩
    unfold symlink
    rw [habsent]
    rfl
  intro _
  apply Endures.act
  rintro dir ⟨hmaking, hpending⟩
  obtain ⟨next, hnext, hgood, hshows⟩ := rename_publishes hmaking hfiles hholds hpending
  exact ⟨next, hnext, ⟨hgood, .inr hshows⟩, hgood, hshows⟩

/-! ## The links of the top names -/

theorem mem_foldl_top (files : Payload) (top : List (String × Unit)) :
    name ∈ (files.foldl (fun top e => insertKey (firstPart e.1) () top) top).map Prod.fst ↔
      name ∈ top.map Prod.fst ∨ ∃ e ∈ files, firstPart e.1 = name := by
  induction files generalizing top with
  | nil => simp
  | cons e files ih =>
    have hinsert : name ∈ (insertKey (firstPart e.1) () top).map Prod.fst ↔
        name ∈ top.map Prod.fst ∨ firstPart e.1 = name := by
      rw [← not_iff_not, ← lookup_eq_none_iff, not_or, ← lookup_eq_none_iff]
      by_cases he : name = firstPart e.1
      · subst he
        simp
      · rw [lookup_insertKey_ne he]
        exact ⟨fun h => ⟨h, Ne.symm he⟩, fun h => h.1⟩
    rw [List.foldl_cons, ih, hinsert]
    simp [or_assoc]

theorem mem_topNames : name ∈ topNames files ↔ ∃ e ∈ files, firstPart e.1 = name := by
  unfold topNames
  rw [mem_foldl_top]
  simp

theorem Admitted.top_visible (h : Admitted files) (hname : name ∈ topNames files) :
    hidden name = false := by
  obtain ⟨e, he, rfl⟩ := mem_topNames.mp hname
  have hpath := (relative_ok (h.relative he)).2
  have hfirst : (firstPart e.1).toList <+: e.1.toList := by
    unfold firstPart
    rw [String.toList_ofList]
    exact List.takeWhile_prefix _
  rw [← Bool.not_eq_true] at hpath ⊢
  intro hhidden
  apply hpath
  exact List.isPrefixOf_iff_prefix.mpr ((List.isPrefixOf_iff_prefix.mp hhidden).trans hfirst)

/-- The new files are published. -/
structure Published (files : Payload) (dir : Directory) : Prop where
  good : Good dir
  shows : Shows dir files

theorem Published.intact (h : Published files dir) : Intact old files dir := ⟨h.good, .inr h.shows⟩

theorem Published.apart {next : Directory} (h : Published files dir)
    (hnext : Apart name dir next) : Published files next := by
  obtain ⟨t, hresolved, hholds⟩ := h.shows
  exact ⟨h.good.apart hnext, t, hnext.resolved.trans hresolved, hholds⟩

/-- The names lead through the published link. -/
def Linked (names : List String) (dir : Directory) : Prop :=
  ∀ name ∈ names, lookup name dir = some (.link ("..data/" ++ name))

theorem Linked.concat {names : List String} (h : Linked names dir)
    (hname : lookup name dir = some (.link ("..data/" ++ name))) :
    Linked (names ++ [name]) dir := by
  intro n hn
  rcases List.mem_append.mp hn with hn | hn
  · exact h n hn
  · exact List.mem_singleton.mp hn ▸ hname

theorem ensureLink_endures {names : List String} (hname : hidden name = false) :
    Endures (Intact old files) (fun dir => Published files dir ∧ Linked names dir)
      (ensureLink name) fun _ dir => Published files dir ∧ Linked (names ++ [name]) dir := by
  unfold ensureLink
  apply Endures.bind (Q := fun found dir => (Published files dir ∧ Linked names dir) ∧
    found = lookup name dir)
  · apply Endures.look
    intro dir hdir
    exact ⟨_, rfl, hdir, rfl⟩
  intro found
  apply Endures.known
  rintro dir ⟨⟨hpublished, hlinked⟩, rfl⟩
  cases hentry : lookup name dir with
  | none =>
    apply Endures.act
    rintro _ rfl
    have hapart := Apart.insert (hpublished.good.free_visible hname) hpublished.good.sorted
      (show Allowed name (.link ("..data/" ++ name)) from .inr (.inr ⟨hname, rfl⟩))
    refine ⟨insertKey name (.link ("..data/" ++ name)) _, ?_, (hpublished.apart hapart).intact,
      hpublished.apart hapart, ?_⟩
    · unfold symlink
      rw [hentry]
      rfl
    · apply Linked.concat _ (lookup_insertKey _ _ _)
      intro n hn
      by_cases heq : n = name
      · subst heq
        exact lookup_insertKey _ _ _
      · rw [lookup_insertKey_ne heq]
        exact hlinked n hn
  | some entry =>
    have hallowed := hpublished.good.allowed _ _ hentry
    cases entry with
    | tree t =>
      rw [hidden_of_generation hallowed] at hname
      cases hname
    | link target =>
      have htarget : target = "..data/" ++ name := by
        rcases hallowed with rfl | rfl | ⟨-, htarget⟩
        · exact absurd hname (by decide)
        · exact absurd hname (by decide)
        · exact htarget
      subst htarget
      change Endures _ _ (if "..data/" ++ name = "..data/" ++ name then _ else _) _
      rw [if_pos rfl]
      apply Endures.pure
      rintro _ rfl
      exact ⟨hpublished, hlinked.concat hentry⟩

/-! ## What is cleaned up -/

/-- The entries below a directory go one by one, and then the directory. -/
theorem removeDirAll_endures {I : Directory → Prop} (hhere : lookup name dir = some (.tree t))
    (hduring : ∀ t, I (insertKey name (.tree t) dir)) (hafter : I (eraseKey name dir)) :
    Endures I (fun s => s = dir) (removeDirAll name) fun _ s => s = eraseKey name dir := by
  unfold removeDirAll
  apply Endures.bind (Q := fun found s => s = dir ∧ found = t)
  · apply Endures.look
    rintro _ rfl
    refine ⟨t, ?_, rfl, rfl⟩
    unfold treeAt
    rw [hhere]
  intro found
  apply Endures.known
  rintro _ ⟨hs, hfound⟩
  rw [hs, hfound]
  apply Endures.bind (Q := fun _ s => s = insertKey name (.tree []) dir)
  · have hloop := Endures.forM (I := I)
      (f := fun path => act (inTree name fun t => .ok (eraseKey path t)))
      (l := (t.map Prod.fst).reverse)
      (J := fun gone s => s = insertKey name (.tree (t.filter fun e => e.1 ∉ gone)) dir) ?_
    · apply hloop.mono
      · rintro _ rfl
        simp [insertKey_eq_self hhere]
      · rintro _ _ rfl
        congr 2
        apply List.filter_eq_nil_iff.mpr
        intro e he
        simpa using ⟨e.2, he⟩
    · intro gone path after hsplit
      apply Endures.act
      rintro _ rfl
      refine ⟨_, ?_, hduring (t.filter fun e => e.1 ∉ gone ++ [path]), rfl⟩
      unfold inTree treeAt
      rw [lookup_insertKey]
      change Except.ok (insertKey name (Entry.tree (eraseKey path _)) _) = _
      rw [insertKey_insertKey]
      congr 3
      unfold eraseKey
      rw [List.filter_filter]
      apply List.filter_congr
      intro e _
      simp [and_comm]
  · intro _
    apply Endures.act
    rintro _ rfl
    refine ⟨eraseKey name dir, ?_, hafter, rfl⟩
    unfold removeDirectory
    rw [lookup_insertKey, if_pos rfl, eraseKey_insertKey]

/-- What is not cleaned up. -/
def Kept (active : String) (top : List String) (name : String) : Prop :=
  name = "..data" ∨ name = active ∨ name ∈ top

/-- The state of `start` without what has been cleaned up so far. -/
structure Cleaned (start : Directory) (active : String) (top before : List String)
    (dir : Directory) : Prop where
  sorted : KeysSorted dir
  kept : ∀ n, n ∉ before ∨ Kept active top n → lookup n dir = lookup n start
  gone : ∀ n, n ∈ before → ¬ Kept active top n → lookup n dir = none

section Cleaning

variable {start : Directory} {active : String} {top names : List String}

theorem Cleaned.published (h : Cleaned start active top names dir)
    (hdata : lookup "..data" start = some (.link active)) (hstart : Published files start) :
    Published files dir := by
  have hsame : lookup "..data" dir = lookup "..data" start := h.kept _ (.inr (.inl rfl))
  have htarget : lookup active dir = lookup active start := h.kept _ (.inr (.inr (.inl rfl)))
  have hresolved : resolved dir = resolved start := by
    apply resolved_congr hsame
    intro gen hgen
    rw [hdata] at hgen
    obtain rfl := Entry.link.inj (Option.some.inj hgen)
    exact htarget
  constructor
  · constructor
    · exact h.sorted
    · intro n entry hentry
      by_cases hn : n ∈ names ∧ ¬ Kept active top n
      · rw [h.gone n hn.1 hn.2] at hentry
        cases hentry
      · rw [not_and_or, not_not] at hn
        rw [h.kept n hn] at hentry
        exact hstart.good.allowed n entry hentry
    · intro entry hentry
      rw [hsame] at hentry
      obtain ⟨gen, t, files, rfl, hgen, ht, hfiles⟩ := hstart.good.published entry hentry
      rw [hdata] at hentry
      obtain rfl := Entry.link.inj (Option.some.inj hentry)
      exact ⟨active, t, files, rfl, hgen, htarget.trans ht, hfiles⟩
  · obtain ⟨t, ht, hholds⟩ := hstart.shows
    exact ⟨t, hresolved.trans ht, hholds⟩

/-- A name that is kept, or is not there. -/
theorem Cleaned.skip (h : Cleaned start active top names dir)
    (hname : Kept active top name ∨ lookup name start = none) :
    Cleaned start active top (names ++ [name]) dir := by
  constructor
  · exact h.sorted
  · intro n hn
    apply h.kept
    rw [List.mem_append, List.mem_singleton] at hn
    tauto
  · intro n hn hgone
    by_cases hmem : n ∈ names
    · exact h.gone n hmem hgone
    · rw [h.kept n (.inl hmem)]
      rcases List.mem_append.mp hn with hn | hn
      · exact absurd hn hmem
      · obtain rfl := List.mem_singleton.mp hn
        exact hname.resolve_left hgone

theorem Cleaned.erase (h : Cleaned start active top names dir)
    (hname : ¬ Kept active top name) :
    Cleaned start active top (names ++ [name]) (eraseKey name dir) := by
  constructor
  · exact List.Pairwise.filter _ h.sorted
  · intro n hn
    rw [List.mem_append, List.mem_singleton] at hn
    have hne : n ≠ name := by
      rintro rfl
      tauto
    rw [lookup_eraseKey_ne hne]
    exact h.kept n (by tauto)
  · intro n hn hgone
    by_cases hne : n = name
    · subst hne
      exact lookup_eraseKey _ _
    · rw [lookup_eraseKey_ne hne]
      rw [List.mem_append, List.mem_singleton] at hn
      exact h.gone n (by tauto) hgone

theorem clean_endures (hstart : Published files start)
    (hdata : lookup "..data" start = some (.link active)) (hpending : lookup "..data_tmp" start = none)
    (hvisible : ∀ n ∈ top, hidden n = false) (hnew : name ∉ names)
    (hname : lookup name start ≠ none) :
    Endures (Intact old files) (Cleaned start active top names) (clean active top name)
      fun _ => Cleaned start active top (names ++ [name]) := by
  unfold clean
  apply Endures.bind (Q := fun found dir => Cleaned start active top names dir ∧
    found = lookup name dir)
  · apply Endures.look
    intro dir hdir
    exact ⟨_, rfl, hdir, rfl⟩
  intro found
  apply Endures.known
  rintro dir ⟨hcleaned, rfl⟩
  have hpublished := hcleaned.published hdata hstart
  have hsame := hcleaned.kept name (.inl hnew)
  by_cases hstale : generation name = true ∧ name ≠ active
  · -- A generation that is not published.
    rw [if_pos hstale]
    obtain ⟨hgen, hactive⟩ := hstale
    have hgone : ¬ Kept active top name := by
      rintro (hk | hk | hk)
      · exact generation_ne_data hgen hk
      · exact hactive hk
      · have hhidden := hvisible name hk
        rw [hidden_of_generation hgen] at hhidden
        cases hhidden
    cases hentry : lookup name dir with
    | none => exact absurd (hsame ▸ hentry) hname
    | some entry =>
      cases entry with
      | link target =>
        rcases hpublished.good.allowed _ _ hentry with rfl | rfl | ⟨hhidden, -⟩
        · exact absurd rfl (generation_ne_data hgen)
        · exact absurd rfl (generation_ne_pending hgen)
        · rw [hidden_of_generation hgen] at hhidden
          cases hhidden
      | tree t =>
        have hfree : Free name dir := by
          refine ⟨generation_ne_data hgen, ?_⟩
          rw [hcleaned.kept "..data" (.inr (.inl rfl)), hdata]
          intro heq
          exact hactive (Entry.link.inj (Option.some.inj heq)).symm
        have hremoved := removeDirAll_endures (I := Intact old files) hentry
          (fun t => (hpublished.apart (Apart.insert hfree hcleaned.sorted
            (show Allowed name (.tree t) from hgen))).intact)
          (hpublished.apart (Apart.erase hfree hcleaned.sorted)).intact
        apply hremoved.mono fun _ h => h
        rintro _ _ rfl
        exact hcleaned.erase hgone
  · rw [if_neg hstale]
    by_cases hlink : hidden name = false ∧ name ∉ top
    · -- A link to a top name of earlier files.
      obtain ⟨hhidden, htop⟩ := hlink
      rw [if_pos ⟨by simpa [hidden] using hhidden, htop⟩]
      have hgone : ¬ Kept active top name := by
        rintro (rfl | rfl | hk)
        · exact absurd hhidden (by decide)
        · obtain ⟨gen, _, _, heq, hgen, -⟩ := hstart.good.published _ hdata
          obtain rfl := Entry.link.inj heq
          rw [hidden_of_generation hgen] at hhidden
          cases hhidden
        · exact htop hk
      cases hentry : lookup name dir with
      | none => exact absurd (hsame ▸ hentry) hname
      | some entry =>
        cases entry with
        | tree t =>
          rw [hidden_of_generation (hpublished.good.allowed _ _ hentry)] at hhidden
          cases hhidden
        | link target =>
          apply Endures.act
          rintro _ rfl
          refine ⟨eraseKey name _, ?_, (hpublished.apart (Apart.erase
            (hpublished.good.free_visible hhidden) hcleaned.sorted)).intact, hcleaned.erase hgone⟩
          unfold removeFile
          rw [hentry]
    · rw [if_neg (by simpa [hidden] using hlink)]
      apply Endures.pure
      rintro _ rfl
      apply hcleaned.skip
      cases hentry : lookup name start with
      | none => exact .inr rfl
      | some entry =>
        have hallowed := hstart.good.allowed _ _ hentry
        cases entry with
        | tree t =>
          by_cases hactive : name = active
          · exact .inl (.inr (.inl hactive))
          · exact absurd ⟨hallowed, hactive⟩ hstale
        | link target =>
          rcases hallowed with rfl | rfl | ⟨hhidden, -⟩
          · exact .inl (.inl rfl)
          · exact absurd hpending hname
          · by_cases htop : name ∈ top
            · exact .inl (.inr (.inr htop))
            · exact absurd ⟨hhidden, htop⟩ hlink

end Cleaning

/-! ## A whole run -/

/-- The file at a path, by way of the link of its first part. -/
def visible (dir : Directory) (path : String) : Option File :=
  if lookup (firstPart path) dir = some (.link ("..data/" ++ firstPart path)) then
    match (resolved dir).bind (lookup path) with
    | some (.file f) => some f
    | _ => none
  else none

/-- The files are what is seen, and nothing else is left. -/
structure Exact (files : Payload) (dir : Directory) : Prop where
  seen : ∀ path, visible dir path = lookup path files
  left : ∃ gen, lookup "..data" dir = some (.link gen) ∧
    ∀ name ∈ dir.map Prod.fst, name = "..data" ∨ name = gen ∨ name ∈ topNames files

theorem current_none (h : lookup "..data" dir = none) : current dir = .ok none := by
  unfold current
  rw [h]

theorem Good.current_some (h : Good dir) (hdata : lookup "..data" dir = some (.link gen)) :
    current dir = .ok (some gen) := by
  obtain ⟨gen', t, files, heq, hgen, ht, -⟩ := h.published _ hdata
  obtain rfl := Entry.link.inj heq
  unfold current
  rw [hdata]
  change (if generation gen = true then _ else _) = _
  rw [if_pos hgen, ht]

theorem Published.data (h : Published files dir) :
    ∃ active, lookup "..data" dir = some (.link active) := by
  obtain ⟨t, hresolved, -⟩ := h.shows
  unfold resolved at hresolved
  cases hentry : lookup "..data" dir with
  | none => simp [hentry] at hresolved
  | some entry =>
    obtain ⟨gen, _, _, rfl, -⟩ := h.good.published _ hentry
    exact ⟨gen, rfl⟩

theorem Published.exact (h : Published files dir) (hlinked : Linked (topNames files) dir)
    (hdata : lookup "..data" dir = some (.link gen))
    (hleft : ∀ name ∈ dir.map Prod.fst, name = "..data" ∨ name = gen ∨ name ∈ topNames files) :
    Exact files dir := by
  refine ⟨?_, gen, hdata, hleft⟩
  intro path
  unfold visible
  by_cases htop : firstPart path ∈ topNames files
  · obtain ⟨t, hresolved, hholds⟩ := h.shows
    rw [if_pos (hlinked _ htop), hresolved]
    change (match lookup path t with | some (.file f) => some f | _ => none) = _
    rw [hholds.entries]
    unfold shape
    cases lookup path files with
    | none => by_cases hdir : path ∈ needed files <;> simp [hdir]
    | some f => rfl
  · have habsent : lookup path files = none := by
      rw [lookup_eq_none_iff]
      intro hmem
      obtain ⟨e, he, rfl⟩ := List.mem_map.mp hmem
      exact htop (mem_topNames.mpr ⟨e, he, rfl⟩)
    rw [habsent]
    apply if_neg
    intro hlink
    obtain ⟨_, t, _, heq, hgen, ht, -⟩ := h.good.published _ hdata
    obtain rfl := Entry.link.inj heq
    have hmem : firstPart path ∈ dir.map Prod.fst := by
      by_contra hnone
      rw [lookup_eq_none_iff.mpr hnone] at hlink
      cases hlink
    rcases hleft _ hmem with hname | hname | hname
    · rw [hname, hdata] at hlink
      obtain rfl := Entry.link.inj (Option.some.inj hlink)
      revert hgen
      decide
    · rw [hname, ht] at hlink
      cases hlink
    · exact htop hname

theorem tidy_endures : Endures (Intact old files)
    (fun dir => Published files dir ∧ Admitted files ∧ Linked (topNames files) dir)
    (tidy files) fun _ dir => Published files dir ∧ Exact files dir := by
  unfold tidy
  apply Endures.known
  rintro start ⟨hstart, hfiles, hlinked⟩
  obtain ⟨active, hdata⟩ := hstart.data
  apply Endures.bind (Q := fun found dir => found = some active ∧ dir = start)
  · apply Endures.look
    rintro _ rfl
    exact ⟨some active, hstart.good.current_some hdata, rfl, rfl⟩
  intro found
  apply Endures.known
  rintro _ ⟨rfl, rfl⟩
  apply Endures.bind (Q := fun _ dir => (Published files dir ∧
    lookup "..data" dir = some (.link active) ∧ Linked (topNames files) dir) ∧
    lookup "..data_tmp" dir = none)
  · have hclear := clearPending_endures (I := Intact old files)
      (K := fun dir => Published files dir ∧ lookup "..data" dir = some (.link active) ∧
        Linked (topNames files) dir)
      (fun _ h => h.1.good) ?_ fun _ h => h.1.intact
    · apply hclear.mono _ fun _ _ h => h
      rintro _ rfl
      exact ⟨hstart, hdata, hlinked⟩
    · rintro dir next hnext ⟨hpublished, hactive, hlinks⟩
      refine ⟨hpublished.apart hnext, hnext.data.trans hactive, ?_⟩
      intro n hn
      rw [hnext.others n]
      · exact hlinks n hn
      · rintro rfl
        exact absurd (hfiles.top_visible hn) (by decide)
  intro _
  apply Endures.known
  rintro clear ⟨⟨hpublished, hactive, hlinks⟩, hpending⟩
  apply Endures.bind (Q := fun found dir => found = clear.map Prod.fst ∧ dir = clear)
  · apply Endures.look
    rintro _ rfl
    exact ⟨_, rfl, rfl, rfl⟩
  intro found
  apply Endures.known
  rintro _ ⟨hfound, hs⟩
  rw [hfound, hs]
  have hloop := Endures.forM (I := Intact old files)
    (f := clean active (topNames files)) (l := clear.map Prod.fst)
    (J := fun before => Cleaned clear active (topNames files) before) ?_
  · apply hloop.mono
    · rintro _ rfl
      exact ⟨hpublished.good.sorted, fun _ _ => rfl, fun _ h => absurd h List.not_mem_nil⟩
    · intro _ dir hcleaned
      have hdone := hcleaned.published hactive hpublished
      have hlinked : Linked (topNames files) dir := by
        intro n hn
        rw [hcleaned.kept n (.inr (.inr (.inr hn)))]
        exact hlinks n hn
      have hdata : lookup "..data" dir = some (.link active) := by
        rw [hcleaned.kept _ (.inr (.inl rfl)), hactive]
      refine ⟨hdone, hdone.exact hlinked hdata ?_⟩
      · intro n hn
        by_contra hgone
        rw [← not_not (a := n ∈ dir.map Prod.fst), ← lookup_eq_none_iff] at hn
        by_cases hmem : n ∈ clear.map Prod.fst
        · exact hn (hcleaned.gone n hmem hgone)
        · rw [hcleaned.kept n (.inl hmem)] at hn
          exact hn (lookup_eq_none_iff.mpr hmem)
  · intro before n after hsplit
    apply clean_endures hpublished hactive hpending fun n hn => hfiles.top_visible hn
    · have hnodup : (clear.map Prod.fst).Nodup :=
        List.Pairwise.map Prod.fst (fun _ _ hlt => hlt.ne) hpublished.good.sorted
      rw [hsplit] at hnodup
      exact fun hmem => List.disjoint_of_nodup_append hnodup hmem List.mem_cons_self
    · intro hnone
      apply lookup_eq_none_iff.mp hnone
      rw [hsplit]
      simp

/-- What is left to do when the new files are published. -/
theorem finish_endures (hfiles : Admitted files) :
    Endures (Intact old files) (Published files)
      ((topNames files).forM ensureLink >>= fun _ => tidy files)
      fun _ dir => Published files dir ∧ Exact files dir := by
  apply Endures.bind (Q := fun _ dir => Published files dir ∧ Linked (topNames files) dir)
  · have hloop := Endures.forM (I := Intact old files) (f := ensureLink) (l := topNames files)
      (J := fun names dir => Published files dir ∧ Linked names dir)
      fun before name after hsplit => ensureLink_endures (hfiles.top_visible (by simp [hsplit]))
    exact hloop.mono (fun _ h => ⟨h, fun _ hn => absurd hn List.not_mem_nil⟩) fun _ _ h => h
  · intro _
    exact tidy_endures.mono (fun _ h => ⟨h.1, hfiles, h.2⟩) fun _ _ h => h

/-- Whether the published files are others is found out, and if not they are the new ones. -/
theorem Good.changed (h : Good dir) (files : Payload) : ∃ previous flag, current dir = .ok previous ∧
    changed files previous dir = .ok flag ∧ (flag = false → Shows dir files) := by
  cases hentry : lookup "..data" dir with
  | none => exact ⟨none, true, current_none hentry, rfl, fun h => (by cases h)⟩
  | some entry =>
    obtain ⟨gen, t, shown, rfl, hgen, ht, hadmitted, hholds⟩ := h.published _ hentry
    refine ⟨some gen, decide (shown ≠ files), h.current_some hentry, ?_, ?_⟩
    · have htree : treeAt gen dir = .ok t := by
        unfold treeAt
        rw [ht]
      change (treeAt gen dir >>= fun t => readTree t (LIMIT + 65536) >>= fun previous =>
        .ok (decide (previous ≠ files))) = _
      rw [htree]
      change (readTree t (LIMIT + 65536) >>= fun previous => .ok (decide (previous ≠ files))) = _
      rw [hholds.readTree hadmitted]
      rfl
    · intro hsame
      obtain rfl : shown = files := by simpa using hsame
      refine ⟨t, ?_, hholds⟩
      unfold resolved
      rw [hentry]
      simp only [ht]

theorem project_endures (hfiles : Admitted files) :
    Endures (Intact old files) (fun dir => Good dir ∧ resolved dir = old ∧ Fresh fresh dir)
      (project fresh files) fun _ dir => Published files dir ∧ Exact files dir := by
  unfold project
  apply Endures.known
  rintro start ⟨hgood, hsame, hfresh⟩
  obtain ⟨previous, flag, hcurrent, hchanged, hshown⟩ := hgood.changed files
  apply Endures.bind (Q := fun found dir => found = previous ∧ dir = start)
  · apply Endures.look
    rintro _ rfl
    exact ⟨previous, hcurrent, rfl, rfl⟩
  intro found
  apply Endures.known
  rintro _ ⟨rfl, rfl⟩
  apply Endures.bind (Q := fun found dir => found = flag ∧ dir = _)
  · apply Endures.look
    rintro _ rfl
    exact ⟨flag, hchanged, rfl, rfl⟩
  intro found
  apply Endures.known
  rintro _ ⟨hfound, hs⟩
  rw [hfound, hs]
  cases flag with
  | true =>
    change Endures _ _ (publish fresh files >>= fun _ =>
      (topNames files).forM ensureLink >>= fun _ => tidy files) _
    apply Endures.bind ((publish_endures hfiles).mono _ fun _ _ h => h)
    · intro _
      exact (finish_endures hfiles).mono (fun _ h => ⟨h.1, h.2⟩) fun _ _ h => h
    · rintro _ rfl
      exact ⟨hgood, hsame, hfresh⟩
  | false =>
    change Endures _ _ ((topNames files).forM ensureLink >>= fun _ => tidy files) _
    apply (finish_endures hfiles).mono _ fun _ _ h => h
    rintro _ rfl
    exact ⟨hgood, hshown rfl⟩

/-- What runs, and stops of runs, make of an empty directory. -/
inductive Reachable : Directory → Prop
  | empty : Reachable []
  | stopped {dir next : Directory} {files : Payload} {fresh : String} (h : Reachable dir)
      (hfiles : Admitted files) (hfresh : Fresh fresh dir)
      (hnext : next ∈ (project fresh files dir).1) : Reachable next
  | finished {dir next : Directory} {files : Payload} {fresh : String} (h : Reachable dir)
      (hfiles : Admitted files) (hfresh : Fresh fresh dir)
      (hnext : (project fresh files dir).2 = .ok ((), next)) : Reachable next

theorem Reachable.good (h : Reachable dir) : Good dir := by
  induction h with
  | empty => exact Good.nil
  | @stopped dir next files fresh _ hfiles hfresh hnext ih =>
    exact ((project_endures hfiles dir ⟨ih, rfl, hfresh⟩).1 next hnext).1
  | @finished dir next files fresh _ hfiles hfresh hnext ih =>
    obtain ⟨-, _, final, hresult, hpublished, -⟩ := project_endures hfiles dir ⟨ih, rfl, hfresh⟩
    rw [hnext] at hresult
    obtain rfl := (Prod.mk.inj (Except.ok.inj hresult)).2
    exact hpublished.good

/-- Nothing is published, or a complete payload. -/
theorem Good.shows (h : Good dir) :
    lookup "..data" dir = none ∨ ∃ previous, Admitted previous ∧ Shows dir previous := by
  cases hentry : lookup "..data" dir with
  | none => exact .inl rfl
  | some entry =>
    obtain ⟨gen, t, files, rfl, -, ht, hadmitted, hholds⟩ := h.published _ hentry
    refine .inr ⟨files, hadmitted, t, ?_, hholds⟩
    unfold resolved
    rw [hentry]
    simp only [ht]

/-- What a run leaves of an empty directory. -/
def settled : Directory :=
  [("..data", .link "..h3s-aaaaaa"), ("..h3s-aaaaaa", .tree [("mode", .file ⟨[49], 0o644⟩)]),
    ("mode", .link "..data/mode")]

end Hedronetes.Kubelet.Projection
