import Hedronetes.Server.Resources

/-!
# What the workload controllers read

The controllers read objects as JSON. A count outside the controllers' range is an error, and so
is the sum of counts that does not fit.
-/

namespace Hedronetes.Controllers

open Server

inductive Error where
  | invalid (message : String)
  /-- An index out of bounds. -/
  | panic (message : String)
  deriving DecidableEq

abbrev Result := Except Error

/-- The most objects of a list, and the most replicas of an object. -/
def LIMIT : ℤ := 4096

/-- The greatest `i64`. -/
def maxI64 : ℤ := 2 ^ 63 - 1

/-- `checked_add` and `checked_mul`, from the exact result. -/
def checked (n : ℤ) (message : String) : Result ℤ :=
  if -2 ^ 63 ≤ n ∧ n ≤ maxI64 then .ok n else .error (.invalid message)

def replicas (v : Json) : Result ℤ :=
  match v["spec"]["replicas"].asInt.filter fun n => 0 ≤ n ∧ n ≤ LIMIT with
  | some n => .ok n
  | none => .error (.invalid "replica count exceeds the current bounded controller range")

theorem replicas_ok {v : Json} {n : ℤ} :
    replicas v = .ok n ↔ v["spec"]["replicas"].asInt = some n ∧ 0 ≤ n ∧ n ≤ LIMIT := by
  unfold replicas
  constructor
  · intro h
    split at h
    · rename_i m hm
      obtain rfl := Except.ok.inj h
      obtain ⟨hread, hrange⟩ := Option.filter_eq_some_iff.mp hm
      exact ⟨hread, of_decide_eq_true hrange⟩
    · cases h
  · rintro ⟨hread, hrange⟩
    rw [hread, Option.filter_some, if_pos (by simpa using hrange)]

end Hedronetes.Controllers
