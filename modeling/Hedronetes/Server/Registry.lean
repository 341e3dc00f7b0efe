import Hedronetes.Foundations.Effects
import Hedronetes.Server.Values
import Hedronetes.Storage.Contract

/-!
# The registry as the server sees it

Live objects by key, each with the revision that wrote it. Reads cannot fail; a
write is a compare-and-set. An action of the server runs over the registry and
keeps what it wrote when it fails later.
-/

namespace Hedronetes.Server

open FirstMatch Apply Effects
open Storage (StoreKey startsWith)

instance : LinearOrder StoreKey := LinearOrder.lift' StoreKey.value StoreKey.value_injective

structure Stored where
  value : Json
  revision : ℕ
  deriving DecidableEq

structure Registry where
  objects : List (StoreKey × Stored)
  revision : ℕ
  sorted : KeysSorted objects

abbrev Action := EStateM Stop Registry

/-- The answers to storage errors, as `From<h3s_storage::Error>` gives them. -/
def storageFailure : Storage.Error → Stop
  | .alreadyExists key => failure 409 "AlreadyExists" ("object already exists: " ++ key.value)
  | .notFound key => failure 404 "NotFound" ("object not found: " ++ key.value)
  | .conflict expected actual => failure 409 "Conflict" ("resource version conflict: expected " ++
      toString expected ++ ", current " ++ toString actual)
  | .compacted requested floor => failure 410 "Expired" ("revision " ++ toString requested ++
      " is older than compaction floor " ++ toString floor)
  | .invalid value => failure 400 "BadRequest" ("invalid registry key or selection: " ++ value)
  | .futureRevision requested current => failure 400 "BadRequest" ("revision " ++
      toString requested ++ " is newer than current revision " ++ toString current)
  | _ => failure 500 "InternalError" "registry operation failed"

def key (value : String) : Outcome StoreKey := (StoreKey.new value).mapError storageFailure

namespace Registry

def get (reg : Registry) (k : StoreKey) : Option Stored := lookup k reg.objects

/-- The live objects under a prefix, in key order. -/
def list (reg : Registry) (selected : String) : List (StoreKey × Stored) :=
  reg.objects.filter fun e => startsWith selected e.1

def put (reg : Registry) (k : StoreKey) (value : Json) : Registry where
  objects := insertKey k ⟨value, reg.revision + 1⟩ reg.objects
  revision := reg.revision + 1
  sorted := reg.sorted.insertKey

def drop (reg : Registry) (k : StoreKey) : Registry where
  objects := eraseKey k reg.objects
  revision := reg.revision + 1
  sorted := reg.sorted.filter _

@[simp] theorem get_put (reg : Registry) (k : StoreKey) (value : Json) :
    (reg.put k value).get k = some ⟨value, reg.revision + 1⟩ := lookup_insertKey _ _ _

theorem get_put_ne {reg : Registry} {k k' : StoreKey} (h : k' ≠ k) (value : Json) :
    (reg.put k value).get k' = reg.get k' := lookup_insertKey_ne h _ _

@[simp] theorem get_drop (reg : Registry) (k : StoreKey) : (reg.drop k).get k = none :=
  lookup_eraseKey _ _

theorem get_drop_ne {reg : Registry} {k k' : StoreKey} (h : k' ≠ k) :
    (reg.drop k).get k' = reg.get k' := lookup_eraseKey_ne h _

theorem mem_objects {reg : Registry} {k : StoreKey} {o : Stored} :
    (k, o) ∈ reg.objects ↔ reg.get k = some o :=
  ⟨fun h => lookup_of_mem reg.sorted h, fun h => mem_of_lookup h⟩

/-- A list returns what single reads of the keys return. -/
theorem mem_list {reg : Registry} {selected : String} {k : StoreKey} {o : Stored} :
    (k, o) ∈ reg.list selected ↔ reg.get k = some o ∧ startsWith selected k = true := by
  rw [list, List.mem_filter, mem_objects]

end Registry

namespace Registry

def empty : Registry := ⟨[], 0, List.Pairwise.nil⟩

/-- The registry after objects were stored at their paths. -/
def ofList (objects : List (String × Json)) : Registry :=
  objects.foldl (fun reg e =>
    match key e.1 with
    | .ok k => reg.put k e.2
    | .error _ => reg) empty

end Registry

/-! ## Storage calls -/

def create (k : StoreKey) (value : Json) : Action Stored := fun reg =>
  if (reg.get k).isSome then .error (storageFailure (.alreadyExists k)) reg
  else .ok ⟨value, reg.revision + 1⟩ (reg.put k value)

def update (k : StoreKey) (value : Json) (expected : ℕ) : Action Stored := fun reg =>
  match reg.get k with
  | none => .error (storageFailure (.notFound k)) reg
  | some current =>
    if current.revision = expected then .ok ⟨value, reg.revision + 1⟩ (reg.put k value)
    else .error (storageFailure (.conflict expected current.revision)) reg

def delete (k : StoreKey) (expected : ℕ) : Action Unit := fun reg =>
  match reg.get k with
  | none => .error (storageFailure (.notFound k)) reg
  | some current =>
    if current.revision = expected then .ok () (reg.drop k)
    else .error (storageFailure (.conflict expected current.revision)) reg

/-- What a successful action returns. -/
def answer {α : Type} (x : Action α) (reg : Registry) : Option α :=
  match x reg with
  | .ok a _ => some a
  | .error _ _ => none

theorem ok_of_answer {α : Type} {x : Action α} {reg : Registry} {a : α}
    (h : answer x reg = some a) : ∃ reg', x reg = .ok a reg' := by
  unfold answer at h
  split at h
  · rename_i reg' hx
    exact ⟨reg', Option.some.inj h ▸ hx⟩
  · cases h

/-- A computation on the registry as it is now. -/
def reading {α : Type} (f : Registry → Outcome α) : Action α := fun reg =>
  match f reg with
  | .ok a => .ok a reg
  | .error e => .error e reg

/-- The stored object as clients see it, with its revision. -/
def object (stored : Stored) : Outcome Json := do
  if !stored.value["metadata"].isObject then
    throw (failure 500 "InternalError" "invalid stored metadata")
  -- an empty namespace on a cluster-scoped object reads as no namespace
  let value ←
    if stored.value["metadata"]["namespace"] = .string "" then
      removeAt stored.value "metadata" "namespace"
    else pure stored.value
  setAt value ["metadata", "resourceVersion"] (.string (toString stored.revision))

def fetch (k : StoreKey) (missing : String) (reg : Registry) : Outcome Stored :=
  match reg.get k with
  | some stored => .ok stored
  | none => .error (failure 404 "NotFound" missing)

/-! ## What the calls do -/

section

variable {reg reg' : Registry} {k k' : StoreKey} {value : Json} {expected : ℕ} {α : Type}

theorem create_ok {stored : Stored} : create k value reg = .ok stored reg' ↔
    reg.get k = none ∧ stored = ⟨value, reg.revision + 1⟩ ∧ reg' = reg.put k value := by
  unfold create
  split_ifs with h
  · simp [Option.isSome_iff_ne_none.mp h]
  · simp [Option.not_isSome_iff_eq_none.mp h, eq_comm]

theorem update_ok {stored : Stored} : update k value expected reg = .ok stored reg' ↔
    (∃ current, reg.get k = some current ∧ current.revision = expected) ∧
      stored = ⟨value, reg.revision + 1⟩ ∧ reg' = reg.put k value := by
  unfold update
  cases h : reg.get k with
  | none => simp
  | some current =>
    by_cases he : current.revision = expected
    · simp [he, eq_comm]
    · simp [he]

theorem delete_ok {u : Unit} : delete k expected reg = .ok u reg' ↔
    (∃ current, reg.get k = some current ∧ current.revision = expected) ∧ reg' = reg.drop k := by
  unfold delete
  cases h : reg.get k with
  | none => simp
  | some current =>
    by_cases he : current.revision = expected
    · simp [he, eq_comm]
    · simp [he]

theorem reading_ok {f : Registry → Outcome α} {a : α} :
    reading f reg = .ok a reg' ↔ f reg = .ok a ∧ reg' = reg := by
  unfold reading
  cases h : f reg <;> simp [eq_comm]

theorem reading_bind_ok {β : Type} {f : Registry → Outcome α} {g : α → Action β} {b : β} :
    (reading f >>= g) reg = .ok b reg' ↔ ∃ a, f reg = .ok a ∧ g a reg = .ok b reg' := by
  rw [bind_eq_ok]
  constructor
  · rintro ⟨a, _, hf, hg⟩
    obtain ⟨hok, rfl⟩ := reading_ok.mp hf
    exact ⟨a, hok, hg⟩
  · rintro ⟨a, hf, hg⟩
    exact ⟨a, reg, reading_ok.mpr ⟨hf, rfl⟩, hg⟩

theorem fetch_ok {missing : String} {stored : Stored} :
    fetch k missing reg = .ok stored ↔ reg.get k = some stored := by
  unfold fetch
  cases h : reg.get k <;> simp

/-- Two registries that may differ at the keys of a set only. -/
def SameBut (keys : StoreKey → Prop) (reg reg' : Registry) : Prop :=
  ∀ k, ¬ keys k → reg'.get k = reg.get k

variable {keys : StoreKey → Prop}

theorem SameBut.refl (reg : Registry) : SameBut keys reg reg := fun _ _ => rfl

theorem SameBut.trans {s t u : Registry} (h : SameBut keys s t) (h' : SameBut keys t u) :
    SameBut keys s u := fun k hk => (h' k hk).trans (h k hk)

theorem SameBut.weaken {keys' : StoreKey → Prop} (h : SameBut keys reg reg')
    (hle : ∀ k, keys k → keys' k) : SameBut keys' reg reg' := fun k hk => h k fun hm => hk (hle k hm)

theorem SameBut.put (hk : keys k) (reg : Registry) (value : Json) :
    SameBut keys reg (reg.put k value) := by
  intro k' hk'
  apply Registry.get_put_ne
  rintro rfl
  exact hk' hk

theorem SameBut.drop (hk : keys k) (reg : Registry) : SameBut keys reg (reg.drop k) := by
  intro k' hk'
  apply Registry.get_drop_ne
  rintro rfl
  exact hk' hk

theorem create_within (hk : keys k) : Within (SameBut keys) (create k value) := by
  intro reg
  unfold final create
  split_ifs
  · exact SameBut.refl reg
  · exact SameBut.put hk reg value

theorem update_within (hk : keys k) : Within (SameBut keys) (update k value expected) := by
  intro reg
  unfold final update
  cases reg.get k with
  | none => exact SameBut.refl reg
  | some current =>
    by_cases he : current.revision = expected
    · simp only [he, if_true]
      exact SameBut.put hk reg value
    · simp only [he, if_false]
      exact SameBut.refl reg

theorem delete_within (hk : keys k) : Within (SameBut keys) (delete k expected) := by
  intro reg
  unfold final delete
  cases reg.get k with
  | none => exact SameBut.refl reg
  | some current =>
    by_cases he : current.revision = expected
    · simp only [he, if_true]
      exact SameBut.drop hk reg
    · simp only [he, if_false]
      exact SameBut.refl reg

theorem reading_within (f : Registry → Outcome α) : Within (SameBut keys) (reading f) := by
  intro reg
  unfold final reading
  cases f reg <;> exact SameBut.refl reg

end

end Hedronetes.Server
