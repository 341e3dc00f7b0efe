import Hedronetes.Foundations.FirstMatch

/-!
# JSON values

A JSON value with its decidable equality, its induction principle and the reads
that never fail: a missing member reads as nothing. Objects are sorted maps.
Numbers are compared by value within their kind, an integer or a finite
floating-point number.
-/

namespace Hedronetes

inductive Number
  | int (n : ℤ)
  | float (value : ℚ)
  deriving DecidableEq

inductive Json
  | null
  | bool (b : Bool)
  | number (n : Number)
  | string (s : String)
  | array (items : List Json)
  | object (fields : List (String × Json))

namespace Json

open FirstMatch

/-! ## Induction and equality -/

/-- Induction over a value through its items and its members' values. -/
@[elab_as_elim, induction_eliminator]
theorem induct {motive : Json → Prop} (null : motive null) (bool : ∀ b, motive (bool b))
    (number : ∀ n, motive (number n)) (string : ∀ s, motive (string s))
    (array : ∀ items, (∀ j ∈ items, motive j) → motive (array items))
    (object : ∀ fields, (∀ e ∈ fields, motive e.2) → motive (object fields)) (j : Json) :
    motive j := by
  refine @Json.rec motive (fun items => ∀ j ∈ items, motive j)
    (fun fields => ∀ e ∈ fields, motive e.2) (fun e => motive e.2)
    null bool number string array object ?_ ?_ ?_ ?_ ?_ j
  · simp
  · intro j items hj hitems x hx
    rcases List.mem_cons.mp hx with rfl | hx
    · exact hj
    · exact hitems x hx
  · simp
  · intro e fields he hfields x hx
    rcases List.mem_cons.mp hx with rfl | hx
    · exact he
    · exact hfields x hx
  · intro name value hvalue
    exact hvalue

mutual

def beq : Json → Json → Bool
  | null, null => true
  | bool b, bool c => b == c
  | number n, number m => n == m
  | string s, string t => s == t
  | array items, array others => beqItems items others
  | object fields, object others => beqFields fields others
  | _, _ => false

def beqItems : List Json → List Json → Bool
  | [], [] => true
  | j :: items, k :: others => beq j k && beqItems items others
  | _, _ => false

def beqFields : List (String × Json) → List (String × Json) → Bool
  | [], [] => true
  | (name, j) :: fields, (other, k) :: others => name == other && beq j k && beqFields fields others
  | _, _ => false

end

mutual

theorem beq_iff : ∀ j k : Json, beq j k = true ↔ j = k
  | null, k => by cases k <;> simp [beq]
  | bool b, k => by cases k <;> simp [beq]
  | number n, k => by cases k <;> simp [beq]
  | string s, k => by cases k <;> simp [beq]
  | array items, k => by
    cases k with
    | array others => simp [beq, beqItems_iff items others]
    | _ => simp [beq]
  | object fields, k => by
    cases k with
    | object others => simp [beq, beqFields_iff fields others]
    | _ => simp [beq]

theorem beqItems_iff : ∀ items others : List Json, beqItems items others = true ↔ items = others
  | [], others => by cases others <;> simp [beqItems]
  | j :: items, others => by
    cases others with
    | nil => simp [beqItems]
    | cons k others => simp [beqItems, beq_iff j k, beqItems_iff items others]

theorem beqFields_iff : ∀ fields others : List (String × Json),
    beqFields fields others = true ↔ fields = others
  | [], others => by cases others <;> simp [beqFields]
  | (name, j) :: fields, others => by
    cases others with
    | nil => simp [beqFields]
    | cons e others =>
      obtain ⟨other, k⟩ := e
      simp [beqFields, beq_iff j k, beqFields_iff fields others, and_assoc]

end

instance : DecidableEq Json := fun j k => decidable_of_iff (beq j k = true) (beq_iff j k)

/-! ## Reads -/

/-- A member of an object. -/
def field (name : String) : Json → Option Json
  | object fields => lookup name fields
  | _ => none

def asString : Json → Option String
  | string s => some s
  | _ => none

/-- A member that is a string. -/
def strAt (name : String) (j : Json) : Option String := (j.field name).bind asString

def asArray : Json → Option (List Json)
  | array items => some items
  | _ => none

def asObject : Json → Option (List (String × Json))
  | object fields => some fields
  | _ => none

def isObject (j : Json) : Bool := j.asObject.isSome

/-- The object of the given members. -/
def ofPairs (pairs : List (String × Json)) : Json :=
  object (pairs.foldl (fun fields e => insertKey e.1 e.2 fields) [])

theorem asString_eq_some {s : String} {j : Json} : j.asString = some s ↔ j = string s := by
  cases j <;> simp [asString]

theorem strAt_eq_some {name s : String} {j : Json} :
    j.strAt name = some s ↔ j.field name = some (string s) := by
  simp [strAt, Option.bind_eq_some_iff, asString_eq_some]

theorem strAt_congr {name : String} {j k : Json} (h : j.field name = k.field name) :
    j.strAt name = k.strAt name := by
  rw [strAt, strAt, h]

theorem isObject_iff {j : Json} : j.isObject = true ↔ ∃ fields, j = object fields := by
  cases j <;> simp [isObject, asObject]

theorem isObject_of_field {name : String} {j v : Json} (h : j.field name = some v) :
    j.isObject = true := by
  cases j <;> simp_all [field, isObject, asObject]

/-! ## Every value inside -/

mutual

/-- The check holds of the value and of every value inside it. -/
def every (p : Json → Bool) : Json → Bool
  | object fields => p (object fields) && everyField p fields
  | array items => p (array items) && everyItem p items
  | value => p value

def everyField (p : Json → Bool) : List (String × Json) → Bool
  | [] => true
  | (_, value) :: fields => every p value && everyField p fields

def everyItem (p : Json → Bool) : List Json → Bool
  | [] => true
  | item :: items => every p item && everyItem p items

end

variable {p : Json → Bool}

theorem every_object {fields : List (String × Json)} : every p (object fields) = true ↔
    p (object fields) = true ∧ ∀ e ∈ fields, every p e.2 = true := by
  have hall : everyField p fields = true ↔ ∀ e ∈ fields, every p e.2 = true := by
    induction fields with
    | nil => simp [everyField]
    | cons e fields ih => simp [everyField, ih]
  rw [every, Bool.and_eq_true, hall]

theorem every_array {items : List Json} : every p (array items) = true ↔
    p (array items) = true ∧ ∀ j ∈ items, every p j = true := by
  have hall : everyItem p items = true ↔ ∀ j ∈ items, every p j = true := by
    induction items with
    | nil => simp [everyItem]
    | cons j items ih => simp [everyItem, ih]
  rw [every, Bool.and_eq_true, hall]

/-- The members of an object stand in key order, each once. -/
def keysSorted : Json → Bool
  | object fields => decide (KeysSorted fields)
  | _ => true

/-- Every object inside has its members in key order, as a parsed value has. -/
def sorted (j : Json) : Bool := every keysSorted j

theorem sorted_object {fields : List (String × Json)} : sorted (object fields) = true ↔
    KeysSorted fields ∧ ∀ e ∈ fields, sorted e.2 = true := by
  rw [sorted, every_object, keysSorted, decide_eq_true_eq]
  rfl

theorem sorted_array {items : List Json} : sorted (array items) = true ↔
    ∀ j ∈ items, sorted j = true := by
  simp [sorted, every_array, keysSorted]

end Json

end Hedronetes
