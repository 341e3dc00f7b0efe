import Mathlib

/-!
# The registry contract

The types and checks of the storage crate that both backends share: keys,
stored objects, selections, watch events, errors, and the revision that
maintenance compacts to. Payloads are opaque byte strings.
-/

namespace Hedronetes.Storage

abbrev Bytes := List UInt8

/-- A path segment that a key or a prefix may contain. -/
def validSegment (s : List Char) : Bool :=
  s ≠ [] && s ≠ ['.'] && s ≠ ['.', '.'] &&
    s.all fun b => b.isAlphanum || b ∈ ['-', '.', '_', ':']

/-- `/registry/{resource}/{name}` or `/registry/{resource}/{namespace}/{name}`. -/
def validKey (value : String) : Bool :=
  let parts := value.toList.splitOn '/'
  (parts.length = 4 || parts.length = 5) && parts[0]? = some [] &&
    parts[1]? = some "registry".toList && (parts.drop 2).all validSegment

/-- A key that passed the check of `StoreKey::new`. -/
structure StoreKey where
  value : String
  valid : validKey value = true
  deriving DecidableEq

theorem StoreKey.value_injective : Function.Injective StoreKey.value := by
  rintro ⟨a, ha⟩ ⟨b, hb⟩ h
  cases h
  rfl

/-- A key of the examples. -/
def podA : StoreKey := ⟨"/registry/pods/test/a", by decide⟩

inductive Error where
  | invalid (message : String)
  | alreadyExists (key : StoreKey)
  | notFound (key : StoreKey)
  | conflict (expected actual : ℕ)
  | compacted (requested floor : ℕ)
  | futureRevision (requested current : ℕ)
  | leaseExpired (id : ℕ)
  | foreignDatabase
  | schemaVersion (version : ℤ)
  | database (message : String)
  | worker (message : String)
  | custody (message : String)
  deriving DecidableEq

abbrev Result := Except Error

def StoreKey.new (value : String) : Result StoreKey :=
  if h : validKey value = true then .ok ⟨value, h⟩ else .error (.invalid value)

def validatePrefix (selected : String) : Result Unit :=
  match "/registry/".toList.isPrefixOf? selected.toList with
  | none => .error (.invalid selected)
  | some [] => .ok ()
  | some tail =>
    if tail.getLast? = some '/' then
      let parts := tail.dropLast.splitOn '/'
      if 2 < parts.length || parts.any (fun s => !validSegment s) then .error (.invalid selected)
      else .ok ()
    else .error (.invalid selected)

structure StoredObject where
  key : StoreKey
  value : Bytes
  /-- Assigned by storage on mutation; an input object's revision is not trusted. -/
  revision : ℕ
  deriving DecidableEq

structure ListSelect where
  selected : String
  /-- None or zero selects the current snapshot. -/
  atRevision : Option ℕ
  startAfter : Option StoreKey
  limit : ℕ
  deriving DecidableEq

structure ObjectList where
  items : List StoredObject
  revision : ℕ
  nextAfter : Option StoreKey
  deriving DecidableEq

structure WatchSelect where
  selected : String
  /-- Resume strictly after this revision; none or zero asks for the initial snapshot. -/
  afterRevision : Option ℕ
  bookmarkInterval : ℕ
  deriving DecidableEq

inductive EventKind where
  | added
  | modified
  | deleted
  | bookmark
  deriving DecidableEq

structure WatchEvent where
  previous : Option StoredObject
  kind : EventKind
  revision : ℕ
  object : Option StoredObject
  deriving DecidableEq

/-- The event that carries a revision and no object. -/
def bookmarkAt (revision : ℕ) : WatchEvent :=
  ⟨none, .bookmark, revision, none⟩

instance kinds_ne_zero : NeZero 3 := ⟨by decide⟩

/-- The number a row stores for the kind of its change. A bookmark is never stored. -/
def kindNumber : (k : EventKind) → k ≠ .bookmark → Fin 3
  | .added, _ => 0
  | .modified, _ => 1
  | .deleted, _ => 2
  | .bookmark, h => (h rfl).elim

/-- The kind that a stored number stands for. -/
def kindOf (number : Fin 3) : EventKind :=
  match number with
  | 0 => .added
  | 1 => .modified
  | 2 => .deleted

@[simp] theorem kindOf_kindNumber (k : EventKind) (h : k ≠ .bookmark) :
    kindOf (kindNumber k h) = k := by
  cases k with
  | bookmark => exact (h rfl).elim
  | _ => rfl

theorem kindOf_ne_bookmark (number : Fin 3) : kindOf number ≠ .bookmark := by
  fin_cases number <;> simp [kindOf]

/-- The greatest revision a 64-bit signed column holds. -/
def maxRevision : ℕ := 2 ^ 63 - 1

def revisionI64 (rev : ℕ) : Result ℕ :=
  if rev ≤ maxRevision then .ok rev else .error (.invalid "revision exceeds backend range")

def validateRevision (rev current floor : ℕ) : Result Unit :=
  if rev < floor then .error (.compacted rev floor)
  else if current < rev then .error (.futureRevision rev current)
  else .ok ()

theorem validateRevision_ok {rev current floor : ℕ} :
    validateRevision rev current floor = .ok () ↔ floor ≤ rev ∧ rev ≤ current := by
  unfold validateRevision
  split_ifs with hf hc
  · simpa using fun h => absurd hf (not_lt.mpr h)
  · simpa using fun _ => hc
  · simp only [true_iff]
    omega

/-- Revision `compact` should apply during maintenance: `current - window`, when
that is above the floor and behind the head. -/
def maintenanceRevision (current floor window : ℕ) : Option ℕ :=
  if window ≤ current then
    if floor < current - window ∧ current - window < current then some (current - window)
    else none
  else none

theorem maintenanceRevision_eq_some {current floor window target : ℕ}
    (h : maintenanceRevision current floor window = some target) :
    target = current - window ∧ floor < target ∧ target < current := by
  unfold maintenanceRevision at h
  split_ifs at h with hw hb
  have he := Option.some.inj h
  exact ⟨he.symm, he ▸ hb⟩

/-- The row condition `left(key, length(prefix)) = prefix`. -/
def underPrefix (selected : String) (key : StoreKey) : Bool :=
  key.value.toList.take selected.toList.length = selected.toList

/-- `key.starts_with(prefix)`. -/
def startsWith (selected : String) (key : StoreKey) : Bool :=
  selected.toList.isPrefixOf key.value.toList

/-- The queries and the continuation check select the same keys. -/
theorem startsWith_eq_underPrefix (selected : String) (key : StoreKey) :
    startsWith selected key = underPrefix selected key := by
  rw [Bool.eq_iff_iff, startsWith, underPrefix, List.isPrefixOf_iff_prefix, decide_eq_true_iff,
    List.prefix_iff_eq_take, eq_comm]

end Hedronetes.Storage
