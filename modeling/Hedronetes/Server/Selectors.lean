import Hedronetes.Server.Resources

/-!
# Selections

Label and field requirements of a list or a watch, and the exact requirements
that authorization reads off them.
-/

namespace Hedronetes.Server

inductive Op
  | among (values : List String)
  | notAmong (values : List String)
  | present
  | absent
  | greater (n : ℤ)
  | less (n : ℤ)
  deriving DecidableEq

structure Requirement where
  key : String
  op : Op
  deriving DecidableEq

/-- The conjunction of its requirements. -/
structure Selection where
  labels : List Requirement
  fields : List Requirement
  deriving DecidableEq

/-- `parse::<i64>`: an optional sign and digits, within the range. -/
def parseI64 (s : String) : Option ℤ :=
  let (negative, digits) :=
    match s.toList with
    | '-' :: rest => (true, rest)
    | '+' :: rest => (false, rest)
    | rest => (false, rest)
  if digits ≠ [] ∧ digits.all Char.isDigit then
    let magnitude : ℤ := digits.foldl (fun n c => 10 * n + (c.toNat - '0'.toNat : ℤ)) 0
    let n := if negative then -magnitude else magnitude
    if -2 ^ 63 ≤ n ∧ n < 2 ^ 63 then some n else none
  else none

def Requirement.isMatch (r : Requirement) (value : Option String) : Bool :=
  match r.op with
  | .among values => value.any fun v => decide (v ∈ values)
  | .notAmong values => value.all fun v => decide (v ∉ values)
  | .present => value.isSome
  | .absent => value.isNone
  | .greater n => (value.bind parseI64).any fun v => decide (n < v)
  | .less n => (value.bind parseI64).any fun v => decide (v < n)

/-- The text of the value at a dotted path; `number` prints a number. -/
def fieldValue (number : Json → String) (value : Json) (path : String) : String :=
  match (splitOn '.' path).foldl (fun current segment => current[segment]) value with
  | .string s => s
  | .bool b => if b then "true" else "false"
  | .number n => number (.number n)
  | _ => ""

namespace Selection

def exactField (selection : Selection) (field : String) : Option String :=
  selection.fields.findSome? fun r =>
    match r.op with
    | .among [value] => if r.key = field then some value else none
    | _ => none

def exactName (selection : Selection) : Option String := selection.exactField "metadata.name"

def isMatch (number : Json → String) (selection : Selection) (value : Json) : Bool :=
  selection.labels.all (fun r => r.isMatch value["metadata"]["labels"][r.key].asString) &&
    selection.fields.all fun r => r.isMatch (some (fieldValue number value r.key))

def withField (selection : Selection) (field value : String) : Selection :=
  { selection with fields := selection.fields ++ [⟨field, .among [value]⟩] }

def withName (selection : Selection) (name : Option String) : Selection :=
  match name with
  | some name => selection.withField "metadata.name" name
  | none => selection

/-! ## What a selection keeps -/

variable {number : Json → String} {selection : Selection} {value : Json} {field v : String}

/-- Objects that a selection keeps have the values it asks for exactly. -/
theorem fieldValue_of_matches (h : selection.isMatch number value = true)
    (hfield : selection.exactField field = some v) : fieldValue number value field = v := by
  obtain ⟨r, hr, hsome⟩ := List.exists_of_findSome?_eq_some hfield
  simp only [isMatch, Bool.and_eq_true, List.all_eq_true] at h
  have hmatch := h.2 r hr
  split at hsome
  · rename_i hop
    split_ifs at hsome with hkey
    cases hsome
    rw [Requirement.isMatch, hop] at hmatch
    simpa [hkey] using hmatch
  · cases hsome

theorem fieldValue_withField (h : (selection.withField field v).isMatch number value = true) :
    fieldValue number value field = v := by
  simp only [isMatch, withField, Bool.and_eq_true, List.all_eq_true, List.mem_append,
    List.mem_singleton] at h
  have hmatch := h.2 _ (Or.inr rfl)
  simpa [Requirement.isMatch] using hmatch

theorem matches_of_withField (h : (selection.withField field v).isMatch number value = true) :
    selection.isMatch number value = true := by
  simp only [isMatch, withField, Bool.and_eq_true, List.all_eq_true, List.mem_append] at h ⊢
  exact ⟨h.1, fun r hr => h.2 r (Or.inl hr)⟩

end Selection

end Hedronetes.Server
