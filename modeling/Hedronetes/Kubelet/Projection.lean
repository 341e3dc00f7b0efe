import Hedronetes.Foundations.Crashes
import Hedronetes.Kubelet.Volumes

/-!
# Projected volumes

A volume's files are written to a directory of their own, which a link publishes in one step. Links
for the top names lead through it, and what earlier runs have left is cleaned up.
-/

namespace Hedronetes.Kubelet.Projection

open Server FirstMatch LexicalPaths Crashes Steps

def LIMIT : ℕ := 1024 * 1024

def GENERATION : String := "..h3s-"

/-! ## Payloads -/

structure File where
  bytes : List UInt8
  mode : ℕ
  deriving DecidableEq

abbrev Payload := List (String × File)

/-- What stands before each slash of a path, the shortest first. -/
def prefixes (read : List Char) : List Char → List (List Char)
  | [] => []
  | ch :: rest =>
    if ch = '/' then read :: prefixes (read ++ [ch]) rest else prefixes (read ++ [ch]) rest

/-- The directories above a path, the outermost first. -/
def ancestors (path : String) : List String := (prefixes [] path.toList).map String.ofList

def firstPart (path : String) : String := String.ofList (path.toList.takeWhile (· ≠ '/'))

def relative (path : String) : Bool :=
  path ≠ "" && decide (path.utf8ByteSize ≤ 4096) && !path.toList.contains '\x00' &&
    decide ((splitOn '/' path).length ≤ 32) &&
    (splitOn '/' path).all (fun s => s ≠ "" && decide (s.utf8ByteSize ≤ 255) && s ≠ "." &&
      s ≠ "..") &&
    !"..".toList.isPrefixOf path.toList && !"/".toList.isPrefixOf path.toList

def paths (names : List String) : Result Unit :=
  if names.any (fun path => !relative path) ∨ ¬ names.Nodup then
    .error (.invalid "invalid or duplicate projected file path")
  else if names.any fun path => (ancestors path).any (· ∈ names) then
    .error (.invalid "projected file conflicts with a directory")
  else .ok ()

def fileMode (v : Json) (default : ℕ) : Result ℕ :=
  if v = .null then .ok default
  else match v.asInt with
    | some n =>
      if 0 ≤ n ∧ n ≤ 0o777 then .ok n.toNat
      else .error (.invalid "volume file mode must be within 0000-0777")
    | none => .error (.invalid "volume file mode must be within 0000-0777")

/-- A key may be projected at more than one path. -/
def projectItem (optional : Bool) (mode : ℕ) (data : List (String × List UInt8)) (out : Payload)
    (item : Json) : Result Payload := do
  let key ← text item "key"
  match lookup key data with
  | some bytes => do
    let path ← text item "path"
    let mode ← fileMode item["mode"] mode
    return insertKey path ⟨bytes, mode⟩ out
  | none =>
    if optional then return out else .error (.invalid "required projected key is missing")

def within (out : Payload) : Result Payload := do
  paths (out.map Prod.fst)
  if 1024 < out.length ∨ LIMIT < (out.map fun e => e.2.bytes.length).sum then
    .error (.invalid "projected volume exceeds size or file limit")
  else return out

/-- The files of a ConfigMap or Secret volume. -/
def payload (spec : Json) (optional : Bool) (mode : ℕ) (data : List (String × List UInt8)) :
    Result Payload := do
  let items ← array spec["items"]
  if items = [] then
    within (data.foldl (fun out e => insertKey e.1 ⟨e.2, mode⟩ out) [])
  else do
    within (← items.foldlM (projectItem optional mode data) [])

/-- The files that `project` is given. -/
structure Admitted (files : Payload) : Prop where
  sorted : KeysSorted files
  paths : paths (files.map Prod.fst) = .ok ()
  few : files.length ≤ 1024
  small : (files.map fun e => e.2.bytes.length).sum ≤ LIMIT
  modes : ∀ e ∈ files, e.2.mode ≤ 0o777

/-! ## The directory of a volume -/

inductive Node
  | directory
  | file (f : File)
  deriving DecidableEq

/-- What is below a directory, by its path from there. -/
abbrev Tree := List (String × Node)

inductive Entry
  | link (target : String)
  | tree (t : Tree)
  deriving DecidableEq

abbrev Directory := List (String × Entry)

inductive Failure
  | invalid (message : String)
  | io
  deriving DecidableEq

def generation (name : String) : Bool :=
  GENERATION.toList.isPrefixOf name.toList && decide (6 ≤ (name.toList.drop 6).length) &&
    (name.toList.drop 6).all Char.isAlphanum

def current (dir : Directory) : Except Failure (Option String) :=
  match lookup "..data" dir with
  | none => .ok none
  | some (.tree _) => .error .io
  | some (.link target) =>
    if generation target then
      match lookup target dir with
      | some (.tree _) => .ok (some target)
      | some (.link _) => .error (.invalid "invalid projected generation")
      | none => .error .io
    else .error (.invalid "invalid projection link")

/-- Every directory consumes budget too. -/
def readNode (state : Payload × ℕ) (e : String × Node) : Except Failure (Payload × ℕ) :=
  match e.2 with
  | .directory =>
    if state.2 = 0 then .error (.invalid "oversized projection tree")
    else .ok (state.1, state.2 - 1)
  | .file f =>
    if state.2 < f.bytes.length ∨ 1024 ≤ state.1.length then
      .error (.invalid "oversized projection tree")
    else .ok (insertKey e.1 ⟨f.bytes, f.mode % 0o1000⟩ state.1, state.2 - f.bytes.length)

def readTree (t : Tree) (remaining : ℕ) : Except Failure Payload :=
  (t.foldlM readNode ([], remaining)).map Prod.fst

/-! ## Calls -/

abbrev Work := Steps Directory Failure

/-- What is below one of the entries, that has to be a directory. -/
def treeAt (name : String) (dir : Directory) : Except Failure Tree :=
  match lookup name dir with
  | some (.tree t) => .ok t
  | _ => .error .io

def inTree (name : String) (f : Tree → Except Failure Tree) (dir : Directory) :
    Except Failure Directory := do
  let t ← f (← treeAt name dir)
  return insertKey name (.tree t) dir

def create (path : String) (node : Node) (t : Tree) : Except Failure Tree :=
  if (lookup path t).isSome then .error .io
  else if (ancestors path).getLast?.all fun parent => lookup parent t = some .directory then
    .ok (insertKey path node t)
  else .error .io

def changeFile (path : String) (f : File → File) (t : Tree) : Except Failure Tree :=
  match lookup path t with
  | some (.file file) => .ok (insertKey path (.file (f file)) t)
  | _ => .error .io

def makeDirectory (name : String) (dir : Directory) : Except Failure Directory :=
  if (lookup name dir).isSome then .error .io else .ok (insertKey name (.tree []) dir)

def symlink (target name : String) (dir : Directory) : Except Failure Directory :=
  if (lookup name dir).isSome then .error .io else .ok (insertKey name (.link target) dir)

/-- A link takes the place of a link. -/
def rename (name place : String) (dir : Directory) : Except Failure Directory :=
  match lookup name dir, lookup place dir with
  | some (.link target), some (.link _) =>
    .ok (insertKey place (.link target) (eraseKey name dir))
  | some (.link target), none => .ok (insertKey place (.link target) (eraseKey name dir))
  | _, _ => .error .io

def removeFile (name : String) (dir : Directory) : Except Failure Directory :=
  match lookup name dir with
  | some (.link _) => .ok (eraseKey name dir)
  | _ => .error .io

def removeDirectory (name : String) (dir : Directory) : Except Failure Directory :=
  if lookup name dir = some (.tree []) then .ok (eraseKey name dir) else .error .io

/-! ## The update -/

def realDirectory (gen path : String) : Work Unit := do
  match lookup path (← look (treeAt gen)) with
  | some .directory => pure ()
  | some (.file _) => fail (.invalid "projection directory is not a real directory")
  | none => act (inTree gen (create path .directory))

def writeFile (gen : String) (e : String × File) : Work Unit := do
  (ancestors e.1).forM (realDirectory gen)
  act (inTree gen (create e.1 (.file ⟨[], 0o600⟩)))
  act (inTree gen (changeFile e.1 fun f => { f with bytes := f.bytes ++ e.2.bytes }))
  act (inTree gen (changeFile e.1 fun f => { f with mode := e.2.mode }))

def clearPending : Work Unit := do
  match ← look fun dir => .ok (lookup "..data_tmp" dir) with
  | none => pure ()
  | some (.link _) => act (removeFile "..data_tmp")
  | some (.tree _) => fail (.invalid "invalid pending projection link")

/-- The payload is complete before it is published. -/
def publish (fresh : String) (files : Payload) : Work Unit := do
  act (makeDirectory fresh)
  files.forM (writeFile fresh)
  clearPending
  act (symlink fresh "..data_tmp")
  act (rename "..data_tmp" "..data")

def ensureLink (name : String) : Work Unit := do
  match ← look fun dir => .ok (lookup name dir) with
  | some (.link target) =>
    if target = "..data/" ++ name then pure ()
    else fail (.invalid "unexpected projection link target")
  | some (.tree _) => fail .io
  | none => act (symlink ("..data/" ++ name) name)

/-- The entries below go one by one, those of a directory before it. -/
def removeDirAll (name : String) : Work Unit := do
  let t ← look (treeAt name)
  (t.map Prod.fst).reverse.forM fun path => act (inTree name fun t => .ok (eraseKey path t))
  act (removeDirectory name)

def clean (active : String) (top : List String) (name : String) : Work Unit := do
  let entry ← look fun dir => .ok (lookup name dir)
  if generation name ∧ name ≠ active then
    match entry with
    | some (.tree _) => removeDirAll name
    | _ => fail (.invalid "invalid stale generation")
  else if !"..".toList.isPrefixOf name.toList ∧ name ∉ top then
    match entry with
    | some (.link _) => act (removeFile name)
    | _ => fail (.invalid "invalid stale projection link")
  else pure ()

/-- The first parts of the paths, in order and each once. -/
def topNames (files : Payload) : List String :=
  (files.foldl (fun top e => insertKey (firstPart e.1) () top) []).map Prod.fst

/-- The published files are not the new ones. -/
def changed (files : Payload) (old : Option String) (dir : Directory) : Except Failure Bool :=
  match old with
  | none => .ok true
  | some gen => do
    let previous ← readTree (← treeAt gen dir) (LIMIT + 65536)
    return previous ≠ files

def tidy (files : Payload) : Work Unit := do
  match ← look current with
  | none => fail (.invalid "missing projection generation")
  | some active => do
    clearPending
    let names ← look fun dir => .ok (dir.map Prod.fst)
    names.forM (clean active (topNames files))

/-- The name of the new directory is `fresh`. -/
def project (fresh : String) (files : Payload) : Work Unit := do
  let old ← look current
  if ← look (changed files old) then publish fresh files
  (topNames files).forM ensureLink
  tidy files

end Hedronetes.Kubelet.Projection
