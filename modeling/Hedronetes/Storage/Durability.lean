import Hedronetes.Storage.Opening

/-!
# Backup and restore

The commands add the cluster's certificates and the join token to the copy of the registry. A restore
writes over the files that the copy has and leaves the others, and neither command carries the
custody of sealed Secrets.
-/

namespace Hedronetes.Storage

open FileTree Fallible

/-! ## The commands -/

def TLS : Path := ["server", "tls"]

def CA : Path := ["server", "ca.crt"]

def TOKEN : Path := ["server", "node-token"]

def LOCK : Path := ["server", "db", ".registry.lock"]

/-- A regular file at a place that is empty, or may be replaced. -/
def copyRegular (replace : Bool) (source old : Option Tree) : Except Failure (Option Tree) :=
  match source, old with
  | some (.file bytes), none => .ok (some (.file bytes))
  | some (.file _), some (.dir _) =>
    if replace then .error (.refused "Is a directory") else .error (.refused "already exists")
  | some (.file bytes), some _ =>
    if replace then .ok (some (.file bytes)) else .error (.refused "already exists")
  | some _, _ => .error (.refused "must be a regular file")
  | none, _ => .error .notFound

mutual

/-- The entries of a real directory, below a directory that is made where it is missing. -/
def copyTree : Tree → Option Tree → Except Failure (Option Tree)
  | .dir entries, none => do return some (.dir (← copyEntries entries []))
  | .dir entries, some (.dir old) => do return some (.dir (← copyEntries entries old))
  | .dir _, some _ => .error (.refused "File exists")
  | .file _, _ => .error (.refused "must be a real directory")
  | .special, _ => .error (.refused "must be a real directory")

def copyEntries : List (String × Tree) → List (String × Tree) →
    Except Failure (List (String × Tree))
  | [], old => .ok old
  | (name, .dir entries) :: rest, old => do
    match ← copyTree (.dir entries) (FirstMatch.lookup name old) with
    | some node => copyEntries rest (FirstMatch.insertKey name node old)
    | none => copyEntries rest old
  | (name, node) :: rest, old => do
    match ← copyRegular false (some node) (FirstMatch.lookup name old) with
    | some node => copyEntries rest (FirstMatch.insertKey name node old)
    | none => copyEntries rest old

end

/-- The lock file is made where it is missing; its directory is not. -/
def lockFile : Option Tree → Except Failure (Option Tree)
  | none => .ok (some (.file []))
  | some (.file bytes) => .ok (some (.file bytes))
  | some _ => .error (.refused "credential must be a regular file")

/-- `exclusive_process_lock`. -/
def processLock (held : Bool) (t : Option Tree) : Result (Option Tree) := do
  let t ← (change false lockFile t LOCK).mapError (fileError LOCK)
  if held then .error (.worker "Resource temporarily unavailable") else return t

/-- The tree at a path of the source, copied to the same path. -/
def copyTreeAt (source target : Option Tree) (path : Path) : Result (Option Tree) := do
  let node ← (stat source path).mapError (fileError path)
  changeTree (copyTree node) target path

def copyRegularAt (replace : Bool) (source target : Option Tree) (path : Path) :
    Result (Option Tree) :=
  changeTree (copyRegular replace (lookupPath source path)) target path

/-- `h3s backup`. -/
def backupCommand (display : String) (held inside : Bool) (dataDir output : Option Tree) :
    Result (Option Tree) := do
  let dataDir ← processLock held dataDir
  let (copy, _) ← backup display dataDir output inside
  let copy ← copyTreeAt dataDir copy TLS
  let copy ← copyRegularAt false dataDir copy CA
  copyRegularAt false dataDir copy TOKEN

/-- `remove_dir_all` where there is something. -/
def removeDir (t : Option Tree) (path : Path) : Result (Option Tree) :=
  match stat t path with
  | .ok (.dir _) => (change false (fun _ => .ok none) t path).mapError (fileError path)
  | .ok _ => .error (fileError path .notADirectory)
  | .error .notFound => .ok t
  | .error failure => .error (fileError path failure)

/-- `h3s restore`. -/
def restoreCommand (display : String) (held : Bool) (dataDir source : Option Tree) :
    Result (Option Tree) := do
  let dataDir ← processLock held dataDir
  let (target, _) ← restore display dataDir source
  let target ← removeDir target TLS
  let target ← copyTreeAt source target TLS
  let target ← copyRegularAt true source target CA
  copyRegularAt true source target TOKEN

/-! ## What the commands leave alone -/

variable {display : String} {held inside replace : Bool}
  {t t' source target dataDir output copy restored : Option Tree} {path other : Path}

theorem changeTree_frame {f : Option Tree → Except Failure (Option Tree)}
    (h : changeTree f t path = .ok t') (hd : Diverge path other) :
    lookupPath t' other = lookupPath t other :=
  lookupPath_change_of_diverge (mapError_eq_ok.mp h) hd

theorem processLock_frame (h : processLock held t = .ok t') (hd : Diverge LOCK other) :
    lookupPath t' other = lookupPath t other := by
  obtain ⟨locked, hlocked, h⟩ := bind_eq_ok.mp h
  split_ifs at h
  obtain rfl := Except.ok.inj h
  exact lookupPath_change_of_diverge (mapError_eq_ok.mp hlocked) hd

theorem copyTreeAt_frame (h : copyTreeAt source t path = .ok t') (hd : Diverge path other) :
    lookupPath t' other = lookupPath t other := by
  obtain ⟨node, _, h⟩ := bind_eq_ok.mp h
  exact changeTree_frame h hd

theorem removeDir_frame (h : removeDir t path = .ok t') (hd : Diverge path other) :
    lookupPath t' other = lookupPath t other := by
  unfold removeDir at h
  split at h
  · exact lookupPath_change_of_diverge (mapError_eq_ok.mp h) hd
  · cases h
  · obtain rfl := Except.ok.inj h
    rfl
  · cases h

theorem makeDir_frame {name : String} {rest : Path} (h : makeDir t = .ok t') :
    lookupPath t' (name :: rest) = lookupPath t (name :: rest) := by
  unfold makeDir at h
  split at h <;> cases h
  · exact lookupPath_none rest
  · rfl

/-! ## The registry files of a copy -/

def registryFiles : List Path := REGISTRY :: SIDECARS

theorem registryFiles_diverge : registryFiles.Pairwise Diverge := by decide

theorem diverge_of_ne : ∀ p ∈ registryFiles, ∀ q ∈ registryFiles, p ≠ q → Diverge p q := by decide

/-- What the commands write beside the registry files. -/
def besides : List Path := [LOCK, TLS, CA, TOKEN]

theorem besides_diverge : ∀ p ∈ registryFiles, ∀ q ∈ besides, Diverge q p := by decide

/-- Only the files beside the registry may differ. -/
def Besides (t t' : Option Tree) : Prop :=
  ∀ p, (∀ q ∈ besides, Diverge q p) → lookupPath t' p = lookupPath t p

/-- A copy onto `target` reads the source's file where there is one, and keeps the target's else. -/
structure CopiesRegistry (source target result : Option Tree) : Prop where
  database : ∃ bytes, lookupPath source REGISTRY = some (.file bytes)
  files : ∀ p ∈ registryFiles, lookupPath source p = none ∨
    ∃ bytes, lookupPath source p = some (.file bytes)
  reads : ∀ p ∈ registryFiles, lookupPath result p = (lookupPath source p).or (lookupPath target p)
  others : ∀ p, (∀ q ∈ registryFiles ++ besides, Diverge q p) →
    lookupPath result p = lookupPath target p

theorem copies {found : List Path} {state result : Option Tree × Copied}
    (hfound : members display source = .ok found)
    (h : found.foldlM (copyFile source) state = .ok result) :
    CopiesRegistry source state.1 result.1 := by
  obtain ⟨hregistry, hsub, heach⟩ := members_ok hfound
  obtain ⟨hreads, hframe⟩ := copyFiles_ok h (registryFiles_diverge.sublist hsub)
  constructor
  · rcases heach REGISTRY (by decide) with hone | hone
    · exact hone.2
    · exact absurd hregistry hone.1
  · intro p hp
    rcases heach p hp with hone | hone
    · exact .inr hone.2
    · exact .inl hone.2
  · intro p hp
    rcases heach p hp with ⟨hmem, bytes, hread⟩ | ⟨hmem, hread⟩
    · rw [hreads p hmem, hread, Option.some_or]
    · rw [hread, Option.none_or]
      apply hframe
      intro q hq
      have hne : q ≠ p := fun heq => hmem (heq ▸ hq)
      exact diverge_of_ne q (hsub.subset hq) p hp hne
  · intro p hp
    apply hframe
    intro q hq
    exact hp q (List.mem_append_left _ (hsub.subset hq))

/-- Steps beside the registry files keep what a copy reads. -/
theorem CopiesRegistry.congr {middle : Option Tree} (h : CopiesRegistry source target middle)
    (hsource : Besides t source) (htarget : Besides t' target) (hresult : Besides middle restored) :
    CopiesRegistry t t' restored := by
  have hfiles : ∀ p ∈ registryFiles, ∀ q ∈ besides, Diverge q p := besides_diverge
  constructor
  · rw [← hsource REGISTRY (hfiles REGISTRY (by decide))]
    exact h.database
  · intro p hp
    rw [← hsource p (hfiles p hp)]
    exact h.files p hp
  · intro p hp
    rw [hresult p (hfiles p hp), h.reads p hp, hsource p (hfiles p hp), htarget p (hfiles p hp)]
  · intro p hp
    have hbesides : ∀ q ∈ besides, Diverge q p := fun q hq => hp q (List.mem_append_right _ hq)
    rw [hresult p hbesides, h.others p hp, htarget p hbesides]

theorem backup_ok {result : Option Tree × Copied}
    (h : backup display dataDir output inside = .ok result) :
    CopiesRegistry dataDir (some (.dir [])) result.1 := by
  obtain ⟨found, hfound, h⟩ := bind_eq_ok.mp h
  split_ifs at h
  exact copies hfound h

theorem restore_ok {result : Option Tree × Copied} (h : restore display target source = .ok result) :
    ∃ made, makeDir target = .ok made ∧ CopiesRegistry source made result.1 := by
  obtain ⟨found, hfound, h⟩ := bind_eq_ok.mp h
  split at h
  · cases h
  · rename_i made hmade
    exact ⟨made, hmade, copies (mapError_eq_ok.mp hfound) h⟩

theorem backupCommand_ok (h : backupCommand display held inside dataDir output = .ok copy) :
    CopiesRegistry dataDir (some (.dir [])) copy := by
  obtain ⟨locked, hlocked, h⟩ := bind_eq_ok.mp h
  obtain ⟨⟨first, copied⟩, hfirst, h⟩ := bind_eq_ok.mp h
  obtain ⟨second, hsecond, h⟩ := bind_eq_ok.mp h
  obtain ⟨third, hthird, hlast⟩ := bind_eq_ok.mp h
  have hcopies := backup_ok hfirst
  apply hcopies.congr
  · intro p hp
    exact processLock_frame hlocked (hp LOCK (by decide))
  · intro p _
    rfl
  · intro p hp
    calc lookupPath copy p = lookupPath third p := changeTree_frame hlast (hp TOKEN (by decide))
      _ = lookupPath second p := changeTree_frame hthird (hp CA (by decide))
      _ = lookupPath first p := copyTreeAt_frame hsecond (hp TLS (by decide))

/-- A restore copies the registry onto the data directory. -/
theorem restoreCommand_ok (h : restoreCommand display held target source = .ok restored) :
    CopiesRegistry source target restored := by
  obtain ⟨locked, hlocked, h⟩ := bind_eq_ok.mp h
  obtain ⟨⟨first, copied⟩, hfirst, h⟩ := bind_eq_ok.mp h
  obtain ⟨second, hsecond, h⟩ := bind_eq_ok.mp h
  obtain ⟨third, hthird, h⟩ := bind_eq_ok.mp h
  obtain ⟨fourth, hfourth, hlast⟩ := bind_eq_ok.mp h
  obtain ⟨made, hmade, hcopies⟩ := restore_ok hfirst
  have hlock : Besides target locked := by
    intro p hp
    exact processLock_frame hlocked (hp LOCK (by decide))
  refine @CopiesRegistry.congr source target source made restored first hcopies ?_ ?_ ?_
  · intro p _
    rfl
  · intro p hp
    rw [← hlock p hp]
    cases p with
    | nil => exact absurd (hp LOCK (by decide)) (by decide)
    | cons name rest => exact makeDir_frame hmade
  · intro p hp
    calc lookupPath restored p = lookupPath fourth p := changeTree_frame hlast (hp TOKEN (by decide))
      _ = lookupPath third p := changeTree_frame hfourth (hp CA (by decide))
      _ = lookupPath second p := copyTreeAt_frame hthird (hp TLS (by decide))
      _ = lookupPath first p := removeDir_frame hsecond (hp TLS (by decide))

/-! ## A restore reproduces the backup -/

end Hedronetes.Storage
