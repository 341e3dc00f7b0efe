import Hedronetes.Apply.ServerSide

/-!
# Reading and writing JSON by index

`value["a"]["b"]` reads null where a member is missing. An indexed write creates
what is missing on its way and panics at a value that is neither an object nor
null.
-/

namespace Hedronetes

open FirstMatch

namespace Json

/-- `value[name]`. -/
instance : GetElem Json String Json fun _ _ => True where
  getElem j name _ := (j.field name).getD .null

theorem getElem_eq (j : Json) (name : String) : j[name] = (j.field name).getD .null := rfl

def asBool : Json → Option Bool
  | bool b => some b
  | _ => none

/-- A member that is an integer, as `as_i64` reads it. -/
def asInt : Json → Option ℤ
  | number (.int n) => if -2 ^ 63 ≤ n ∧ n < 2 ^ 63 then some n else none
  | _ => none

/-- The items of an array, and none of any other value. -/
def items (j : Json) : List Json := j.asArray.getD []

def isNull (j : Json) : Bool := j = .null

/-- `as_str().is_some_and(|s| !s.is_empty())`. -/
def hasText (j : Json) : Bool := j.asString.any (· ≠ "")

theorem foldl_insertKey_lookup (pairs fields : List (String × Json)) (name : String) :
    lookup name (pairs.foldl (fun fields e => insertKey e.1 e.2 fields) fields) =
      ((pairs.reverse.find? fun e => e.1 = name).map Prod.snd).or (lookup name fields) := by
  induction pairs generalizing fields with
  | nil => rfl
  | cons e pairs ih =>
    rw [List.foldl_cons, ih, List.reverse_cons, List.find?_append]
    by_cases he : e.1 = name
    · subst he
      rw [lookup_insertKey]
      cases pairs.reverse.find? _ <;> simp
    · rw [lookup_insertKey_ne fun h => he h.symm]
      cases pairs.reverse.find? _ <;> simp [he]

/-- The last pair of a name is the member. -/
theorem getElem_ofPairs (pairs : List (String × Json)) (name : String) :
    (ofPairs pairs)[name] =
      ((pairs.reverse.find? fun e => e.1 = name).map Prod.snd).getD .null := by
  rw [getElem_eq, ofPairs, field, foldl_insertKey_lookup]
  cases pairs.reverse.find? _ <;> rfl

end Json

namespace Server

open Apply

/-- `value[path₀][path₁]… = v`. -/
def setAt : Json → List String → Json → Outcome Json
  | _, [], v => .ok v
  | .object fields, name :: path, v => do
    let inner ← setAt ((lookup name fields).getD .null) path v
    return .object (insertKey name inner fields)
  | .null, name :: path, v => do
    let inner ← setAt .null path v
    return .object [(name, inner)]
  | _, name :: _, _ => .error (.panic ("cannot access key " ++ name ++ " in JSON value"))

/-- `value[name].as_object_mut().expect(..).remove(key)`. -/
def removeAt (value : Json) (name key : String) : Outcome Json :=
  match value[name] with
  | .object fields => setAt value [name] (.object (eraseKey key fields))
  | _ => .error (.panic "normalized metadata")

def failure (code : ℕ) (reason message : String) : Stop := .failure code reason message

def bad (message : String) : Stop := failure 400 "BadRequest" message

def invalid (message : String) : Stop := failure 422 "Invalid" message

def forbidden (message : String) : Stop := failure 403 "Forbidden" message

def require (condition : Prop) [Decidable condition] (message : String) : Outcome Unit :=
  if condition then .ok () else .error (invalid message)

/-! ## Reads after a write -/

variable {value result v : Json} {name other : String} {path : List String}

theorem require_ok {condition : Prop} [Decidable condition] {message : String} {u : Unit} :
    require condition message = .ok u ↔ condition := by
  unfold require
  split_ifs with h <;> simp [h]

/-- A write leads through an object that has the members of the old one. -/
theorem setAt_cons (h : setAt value (name :: path) v = .ok result) :
    ∃ inner, setAt value[name] path v = .ok inner ∧ result[name] = inner ∧
      (∀ other, other ≠ name → result[other] = value[other]) ∧ result.isObject = true := by
  cases value with
  | object fields =>
    obtain ⟨inner, hinner, hresult⟩ := Fallible.bind_eq_ok.mp h
    obtain rfl := Except.ok.inj hresult
    refine ⟨inner, hinner, ?_, ?_, rfl⟩
    · rw [Json.getElem_eq, Json.field, lookup_insertKey]
      rfl
    · intro other hne
      rw [Json.getElem_eq, Json.getElem_eq, Json.field, Json.field, lookup_insertKey_ne hne]
  | null =>
    obtain ⟨inner, hinner, hresult⟩ := Fallible.bind_eq_ok.mp h
    obtain rfl := Except.ok.inj hresult
    refine ⟨inner, hinner, ?_, ?_, rfl⟩
    · rw [Json.getElem_eq, Json.field, lookup_cons, if_pos rfl]
      rfl
    · intro other hne
      rw [Json.getElem_eq, Json.field, lookup_cons, if_neg hne.symm]
      rfl
  | _ => cases h

theorem getElem_setAt_ne (h : setAt value (name :: path) v = .ok result) (hne : other ≠ name) :
    result[other] = value[other] := by
  obtain ⟨_, _, _, hother, _⟩ := setAt_cons h
  exact hother other hne

theorem getElem_setAt (h : setAt value [name] v = .ok result) : result[name] = v := by
  obtain ⟨inner, hinner, hread, _, _⟩ := setAt_cons h
  rw [hread]
  exact (Except.ok.inj hinner).symm

theorem getElem_setAt_step (h : setAt value (name :: path) v = .ok result) :
    setAt value[name] path v = .ok result[name] := by
  obtain ⟨inner, hinner, hread, _, _⟩ := setAt_cons h
  rw [hread]
  exact hinner

/-- A write of what is there already changes nothing. -/
theorem setAt_again (h : setAt value path v = .ok result) : setAt result path v = .ok result := by
  induction path generalizing value result with
  | nil => exact h
  | cons name path ih =>
    cases value with
    | object fields =>
      obtain ⟨inner, hinner, hresult⟩ := Fallible.bind_eq_ok.mp h
      obtain rfl := Except.ok.inj hresult
      have hlookup := lookup_insertKey name inner fields
      refine Fallible.bind_eq_ok.mpr ⟨inner, ?_, ?_⟩
      · rw [hlookup]
        exact ih hinner
      · rw [insertKey_eq_self hlookup]
        rfl
    | null =>
      obtain ⟨inner, hinner, hresult⟩ := Fallible.bind_eq_ok.mp h
      obtain rfl := Except.ok.inj hresult
      have hlookup : lookup name [(name, inner)] = some inner := by simp [lookup_cons]
      refine Fallible.bind_eq_ok.mpr ⟨inner, ?_, ?_⟩
      · rw [hlookup]
        exact ih hinner
      · rw [insertKey_eq_self hlookup]
        rfl
    | _ => cases h

theorem getElem_removeAt_ne (h : removeAt value name other = .ok result) {n : String}
    (hne : n ≠ name) : result[n] = value[n] := by
  unfold removeAt at h
  split at h
  · exact getElem_setAt_ne h hne
  · cases h

/-- A removal takes one member of the object and leaves the rest. -/
theorem getElem_removeAt (h : removeAt value name other = .ok result) (n : String) :
    result[name][n] = if n = other then .null else value[name][n] := by
  unfold removeAt at h
  split at h
  · rename_i fields hread
    rw [getElem_setAt h, hread]
    split_ifs with hn
    · subst hn
      rw [Json.getElem_eq, Json.field, lookup_eraseKey]
      rfl
    · rw [Json.getElem_eq, Json.getElem_eq, Json.field, Json.field, lookup_eraseKey_ne hn]
  · cases h

end Server

end Hedronetes
