import Hedronetes.Apply.Declared
import Hedronetes.Apply.Pruning

/-!
# Server-side apply

Each manager declares the fields it owns; the object is merged field by field,
ownership is recorded in `metadata.managedFields`, and a field two managers set
to different values is a conflict unless the request forces it. The texts of
merge keys are read and written by the JSON library, which is a parameter.
-/

namespace Hedronetes.Apply

open FirstMatch Fallible

/-- `serde_json::from_str` and `Value::to_string`. -/
structure JsonText where
  parse : String → Option Json
  print : Json → String

/-- The apply request's identity and conflict policy. -/
structure Options where
  manager : String
  force : Bool

/-- One `managedFields` entry, reduced to the paths it owns. -/
structure Entry where
  manager : String
  operation : String
  apiVersion : String
  paths : List Path
  deriving DecidableEq

/-! ## Ownership records -/

/-- The segment a key of a fields tree stands for. -/
def segmentOf (text : JsonText) (key : String) : Option Segment :=
  match key.toList with
  | 'f' :: ':' :: name => some (.field (String.ofList name))
  | 'k' :: ':' :: keyed => do
    let parsed ← text.parse (String.ofList keyed)
    let map ← parsed.asObject
    let first ← map.head?
    let value ← first.2.asString
    return .keyed first.1 value
  | _ => none

mutual

def tree (text : JsonText) (path : Path) : Json → List Path → List Path
  | .object (entry :: fields), out => treeFields text path (entry :: fields) out
  | _, out => insertPath path out

def treeFields (text : JsonText) (path : Path) : List (String × Json) → List Path → List Path
  | [], out => out
  | (key, value) :: fields, out =>
    match segmentOf text key with
    | some segment => treeFields text path fields (tree text (path ++ [segment]) value out)
    | none => treeFields text path fields out

end

def entryOf (text : JsonText) (entry : Json) : Option Entry :=
  (entry.strAt "manager").map fun manager =>
    { manager
      operation := (entry.strAt "operation").getD "Update"
      apiVersion := (entry.strAt "apiVersion").getD ""
      paths :=
        if entry.strAt "fieldsType" = some "FieldsV1" then
          tree text [] ((entry.field "fieldsV1").getD .null) []
        else [] }

def entries (text : JsonText) (stored : Json) : List Entry :=
  (((stored.field "metadata").bind fun metadata =>
    (metadata.field managedFields).bind Json.asArray).getD []).filterMap (entryOf text)

def keyOf (text : JsonText) : Segment → String
  | .field name => "f:" ++ name
  | .keyed key value => "k:" ++ text.print (.object [(key, .string value)])

/-- Adds the branch of one path to a fields tree. -/
def grow (text : JsonText) : Json → Path → Json
  | .object fields, segment :: path =>
    let current := (lookup (keyOf text segment) fields).getD (.object [])
    .object (insertKey (keyOf text segment) (grow text current path) fields)
  | root, _ => root

def fieldsV1 (text : JsonText) (paths : List Path) : Json :=
  paths.foldl (grow text) (.object [])

def describe (path : Path) : String :=
  ".".intercalate (path.map fun segment =>
    match segment with
    | .field name => name
    | .keyed _ value => "[" ++ value ++ "]")

/-- The manager of another Apply entry that owns the path or one above it. -/
def ownerOf (entries : List Entry) (path : Path) (manager : String) : Option String :=
  (entries.find? fun entry => entry.manager ≠ manager ∧ entry.operation = "Apply" ∧
    ∃ owned ∈ entry.paths, owned <+: path).map Entry.manager

/-! ## The merge -/

/-- The applied object without what the API keeps for itself. Naming the metadata
of an object that has none creates it as `null`. -/
def dropBookkeeping : Json → Outcome Json
  | .null => .ok (.object [("metadata", .null)])
  | .object fields =>
    match lookup "metadata" fields with
    | none => .ok (.object (insertKey "metadata" .null fields))
    | some (.object metadata) =>
      .ok (.object (insertKey "metadata" (.object (eraseKey "creationTimestamp" (eraseKey "uid"
        (eraseKey "resourceVersion" (eraseKey managedFields metadata))))) fields))
    | some _ => .ok (.object fields)
  | _ => .error (.panic "cannot access key metadata")

/-- The paths the manager owned before this apply. -/
def previousPaths (entries : List Entry) (manager : String) : List Path :=
  ((entries.find? fun entry => entry.manager = manager ∧ entry.operation = "Apply").map
    Entry.paths).getD []

/-- The conflict check of one declared path. -/
def claim (stored applied : Json) (options : Options) (existing : List Entry) (path : Path) :
    Outcome (List Entry) :=
  match ownerOf existing path options.manager with
  | none => .ok existing
  | some owner =>
    if get stored path = get applied path then .ok existing
    else if !options.force then
      .error (.failure 409 "Conflict" ("field " ++ describe path ++ " is managed by " ++ owner ++
        "; reapply with force to take it over"))
    else
      .ok (existing.map fun entry =>
        if entry.manager = owner then
          { entry with paths := entry.paths.filter fun owned => owned <+: path }
        else entry)

/-- The previously owned paths that are declared neither as such nor in part. -/
def dropped (previous declared : List Path) : List Path :=
  previous.filter fun path => path ∉ declared ∧ ¬ ∃ d ∈ declared, path <+: d

/-- A declared field takes the applied value. -/
def settle (applied result : Json) (path : Path) : Outcome Json :=
  match get applied path with
  | some value => set result path value
  | none => .ok result

/-- This manager's entry is replaced, and the entries whose fields are all gone
disappear. -/
def owners (existing : List Entry) (mine : Entry) : List Entry :=
  let others := existing.filter fun entry =>
    entry.manager ≠ mine.manager ∨ entry.operation ≠ "Apply"
  ((others ++ [mine]).filter fun entry => entry.paths ≠ []).insertionSort
    fun a b => a.manager ≤ b.manager

def entryValue (text : JsonText) (time : String) (entry : Entry) : Json :=
  Json.ofPairs [("manager", .string entry.manager), ("operation", .string entry.operation),
    ("apiVersion", .string entry.apiVersion), ("time", .string time),
    ("fieldsType", .string "FieldsV1"), ("fieldsV1", fieldsV1 text entry.paths)]

/-- `root[key] = value`. -/
def assign (root : Json) (key : String) (value : Json) : Outcome Json :=
  match root with
  | .null => .ok (.object [(key, value)])
  | .object fields => .ok (.object (insertKey key value fields))
  | _ => .error (.panic "cannot access key in JSON value")

def record (result : Json) (managed : List Json) : Outcome Json :=
  if managed = [] then .ok result
  else do
    let result ←
      if (result.field "metadata").any Json.isObject then .ok result
      else assign result "metadata" (.object [])
    let metadata ← assign ((result.field "metadata").getD .null) managedFields (.array managed)
    assign result "metadata" metadata

/-- Merge an applied object into what is stored, recording ownership. -/
def serverSide (text : JsonText) (time : String) (stored applied : Json) (options : Options) :
    Outcome Json := do
  let applied ← dropBookkeeping applied
  let declared := declared applied
  let existing := entries text stored
  let previous := previousPaths existing options.manager
  let existing ← declared.foldlM (claim stored applied options) existing
  let result := prune ((dropped previous declared).foldl remove stored)
  let result ← declared.foldlM (settle applied) result
  let mine : Entry :=
    { manager := options.manager
      operation := "Apply"
      apiVersion := (applied.strAt "apiVersion").getD ""
      paths := declared }
  record result ((owners existing mine).map (entryValue text time))

end Hedronetes.Apply
