import Hedronetes.Foundations.FileTree
import Hedronetes.Storage.Contract

/-!
# Offline copies of a registry

A copy is the database file and whichever of its sidecars exist beside it. Both directories are file
trees apart from one another; access modes and links are left out.
-/

namespace Hedronetes.Storage

open FileTree Fallible

abbrev Tree := FileTree Bytes

/-- The registry file and its sidecars, relative to a data directory. -/
def REGISTRY : Path := ["server", "db", "h3s.db"]

def WAL : Path := ["server", "db", "h3s.db-wal"]

def SHM : Path := ["server", "db", "h3s.db-shm"]

def SIDECARS : List Path := [WAL, SHM]

def pathText (path : Path) : String := String.intercalate "/" path

/-- What a copy moved, in the order it was written. -/
structure Copied where
  members : List Path
  bytes : ℕ
  deriving DecidableEq

def Failure.text : Failure → String
  | .notFound => "No such file or directory"
  | .notADirectory => "Not a directory"
  | .refused message => message

def fileError (path : Path) (failure : Failure) : Error :=
  .worker (pathText path ++ ": " ++ Failure.text failure)

/-- Whether a candidate belongs to the copy. -/
def member (display : String) (dataDir : Option Tree) (candidate : Path) :
    Result (Option Path) :=
  match stat dataDir candidate with
  | .ok (.file _) => .ok (some candidate)
  | .ok _ => .error (.invalid (pathText candidate ++ " is not a regular file"))
  | .error .notFound =>
    if candidate = REGISTRY then
      .error (.invalid (display ++ " is not an h3s data directory: " ++ pathText REGISTRY ++
        " is missing"))
    else .ok none
  | .error failure => .error (fileError candidate failure)

/-- The registry files a copy carries: the database, and whichever sidecars exist beside it. -/
def members (display : String) (dataDir : Option Tree) : Result (List Path) := do
  let found ← (REGISTRY :: SIDECARS).mapM (member display dataDir)
  return found.reduceOption

/-- A file takes the place of a file or of nothing. -/
def writeFile (bytes : Bytes) : Option Tree → Except Failure (Option Tree)
  | none => .ok (some (.file bytes))
  | some (.file _) => .ok (some (.file bytes))
  | some (.dir _) => .error (.refused "Is a directory")
  | some .special => .error (.refused "not a file or directory")

def copyFile (source : Option Tree) (state : Option Tree × Copied) (path : Path) :
    Result (Option Tree × Copied) :=
  match (lookupPath source path).bind content with
  | none => .error (fileError path .notFound)
  | some bytes =>
    match change true (writeFile bytes) state.1 path with
    | .error failure => .error (fileError path failure)
    | .ok target =>
      .ok (target, ⟨state.2.members ++ [path], min (state.2.bytes + bytes.length) (2 ^ 64 - 1)⟩)

def makeDir : Option Tree → Except Failure (Option Tree)
  | none => .ok (some (.dir []))
  | some (.dir entries) => .ok (some (.dir entries))
  | some _ => .error (.refused "File exists")

/-- Copy the registry of a data directory to a place that must not exist. -/
def backup (display : String) (dataDir destination : Option Tree) (inside : Bool) :
    Result (Option Tree × Copied) := do
  let found ← members display dataDir
  if destination.isSome then .error (.invalid "backup destination already exists")
  else if inside then .error (.invalid "backup destination is inside the data directory")
  else found.foldlM (copyFile dataDir) (some (.dir []), ⟨[], 0⟩)

/-- Put a copy written by `backup` back under a data directory. -/
def restore (display : String) (dataDir source : Option Tree) : Result (Option Tree × Copied) := do
  let found ← (members display source).mapError fun e =>
    match e with
    | .invalid _ => .invalid (display ++ " is not a backup")
    | other => other
  match makeDir dataDir with
  | .error failure => .error (fileError [] failure)
  | .ok dataDir => found.foldlM (copyFile source) (dataDir, ⟨[], 0⟩)

/-! ## What a copy holds -/

variable {display : String} {dataDir destination source target : Option Tree} {found : List Path}
  {path other : Path} {inside : Bool} {copied : Copied} {result : Option Tree × Copied}

theorem member_ok {o : Option Path} (h : member display dataDir path = .ok o) :
    match o with
    | some p => p = path ∧ ∃ bytes, lookupPath dataDir path = some (.file bytes)
    | none => path ≠ REGISTRY ∧ lookupPath dataDir path = none := by
  unfold member at h
  cases hstat : stat dataDir path with
  | ok node =>
    rw [hstat] at h
    cases node with
    | file bytes =>
      obtain rfl := Except.ok.inj h
      exact ⟨rfl, bytes, stat_ok.mp hstat⟩
    | _ => cases h
  | error failure =>
    rw [hstat] at h
    cases failure with
    | notFound =>
      dsimp only at h
      split_ifs at h with hregistry
      obtain rfl := Except.ok.inj h
      refine ⟨hregistry, ?_⟩
      cases hread : lookupPath dataDir path with
      | none => rfl
      | some node =>
        rw [stat_ok.mpr hread] at hstat
        cases hstat
    | _ => cases h

/-- What a selection with failures keeps is a part of the list, in order. -/
theorem sublist_reduceOption {f : Path → Result (Option Path)} {l : List Path}
    {r : List (Option Path)} (hr : l.mapM f = .ok r) (hf : ∀ a b, f a = .ok (some b) → b = a) :
    r.reduceOption.Sublist l := by
  have hall := mapM_eq_ok_iff.mp hr
  clear hr
  induction hall with
  | nil => exact List.Sublist.slnil
  | @cons a o l r ho _ ih =>
    cases o with
    | none => exact ih.cons a
    | some b =>
      obtain rfl := hf a b ho
      exact ih.cons_cons b

/-- The copy carries each candidate that exists, as a regular file, and the database is one. -/
theorem members_ok (h : members display dataDir = .ok found) :
    REGISTRY ∈ found ∧ found.Sublist (REGISTRY :: SIDECARS) ∧
      ∀ p ∈ REGISTRY :: SIDECARS,
        (p ∈ found ∧ ∃ bytes, lookupPath dataDir p = some (.file bytes)) ∨
        (p ∉ found ∧ lookupPath dataDir p = none) := by
  obtain ⟨all, hall, h⟩ := bind_eq_ok.mp h
  obtain rfl := Except.ok.inj h
  have hmem : ∀ p, p ∈ all.reduceOption → ∃ bytes, lookupPath dataDir p = some (.file bytes) := by
    intro p hp
    obtain ⟨candidate, -, hok⟩ := mapM_mem hall (List.reduceOption_mem_iff.mp hp)
    have hone := member_ok hok
    obtain ⟨rfl, hfile⟩ : p = candidate ∧ _ := hone
    exact hfile
  have heach : ∀ p ∈ REGISTRY :: SIDECARS,
      (p ∈ all.reduceOption ∧ ∃ bytes, lookupPath dataDir p = some (.file bytes)) ∨
      (p ≠ REGISTRY ∧ p ∉ all.reduceOption ∧ lookupPath dataDir p = none) := by
    intro p hp
    obtain ⟨o, ho, hok⟩ := mapM_mem_of_mem hall hp
    have hone := member_ok hok
    cases o with
    | some q =>
      obtain ⟨rfl, hfile⟩ := hone
      exact .inl ⟨List.reduceOption_mem_iff.mpr ho, hfile⟩
    | none =>
      refine .inr ⟨hone.1, fun hfound => ?_, hone.2⟩
      obtain ⟨bytes, hread⟩ := hmem p hfound
      rw [hone.2] at hread
      cases hread
  refine ⟨?_, sublist_reduceOption hall fun a b hb => (member_ok hb).1, fun p hp => ?_⟩
  · rcases heach REGISTRY (by decide) with hone | hone
    · exact hone.1
    · exact absurd rfl hone.1
  · rcases heach p hp with hone | hone
    · exact .inl hone
    · exact .inr hone.2

theorem writeFile_ok {bytes : Bytes} {old new : Option Tree} (h : writeFile bytes old = .ok new) :
    new = some (.file bytes) := by
  unfold writeFile at h
  split at h <;> cases h <;> rfl

/-- A copied file reads as the source's, and what diverges from its path is left alone. -/
theorem copyFile_ok {state : Option Tree × Copied} (h : copyFile source state path = .ok result) :
    (∃ bytes, lookupPath source path = some (.file bytes) ∧
      lookupPath result.1 path = some (.file bytes)) ∧
      ∀ other, Diverge path other → lookupPath result.1 other = lookupPath state.1 other := by
  unfold copyFile at h
  cases hsource : (lookupPath source path).bind content with
  | none =>
    rw [hsource] at h
    cases h
  | some bytes =>
    simp only [hsource] at h
    cases hchange : change true (writeFile bytes) state.1 path with
    | error failure =>
      rw [hchange] at h
      cases h
    | ok target =>
      rw [hchange] at h
      obtain rfl := Except.ok.inj h
      obtain ⟨node, hnode, hcontent⟩ := Option.bind_eq_some_iff.mp hsource
      refine ⟨⟨bytes, ?_, writeFile_ok (lookupPath_change hchange)⟩, fun other hd =>
        lookupPath_change_of_diverge hchange hd⟩
      cases node with
      | file b =>
        obtain rfl := Option.some.inj hcontent
        exact hnode
      | _ => cases hcontent

/-- Each copied member reads as the source's; a path that diverges from all is left alone. -/
theorem copyFiles_ok {state : Option Tree × Copied}
    (h : found.foldlM (copyFile source) state = .ok result) (hd : found.Pairwise Diverge) :
    (∀ p ∈ found, lookupPath result.1 p = lookupPath source p) ∧
      ∀ other, (∀ p ∈ found, Diverge p other) →
        lookupPath result.1 other = lookupPath state.1 other := by
  induction found generalizing state with
  | nil =>
    obtain rfl := Except.ok.inj h
    constructor
    · intro p hp
      cases hp
    · intro other _
      rfl
  | cons p found ih =>
    rw [List.foldlM_cons] at h
    obtain ⟨next, hnext, hrest⟩ := bind_eq_ok.mp h
    obtain ⟨⟨bytes, hsource, hread⟩, hother⟩ := copyFile_ok hnext
    rw [List.pairwise_cons] at hd
    obtain ⟨hall, hframe⟩ := ih hrest hd.2
    constructor
    · intro q hq
      rcases List.mem_cons.mp hq with rfl | hq
      · rw [hframe q fun x hx => (hd.1 x hx).symm, hread, hsource]
      · exact hall q hq
    · intro other hdiverge
      rw [List.forall_mem_cons] at hdiverge
      rw [hframe other hdiverge.2, hother other hdiverge.1]

end Hedronetes.Storage
