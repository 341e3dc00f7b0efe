import Mathlib

/-!
# Walking along a path

A path goes segment by segment: it stays, goes to the parent or goes down to an entry. Whatever it
starts from, it amounts to some steps up followed by some names.
-/

namespace LexicalPaths

inductive Segment (α : Type*) where
  | here
  | parent
  | name (n : α)
  deriving DecidableEq

variable {α : Type*} {start : List α} {segments : List (Segment α)}

/-- The parent of the root is the root. -/
def step (location : List α) : Segment α → List α
  | .here => location
  | .parent => location.dropLast
  | .name n => location ++ [n]

/-- Where a path leads to. -/
def walk (start : List α) (segments : List (Segment α)) : List α := segments.foldl step start

/-- So many steps up, then these names. -/
structure Reduced (α : Type*) where
  climbs : ℕ
  names : List α

def Reduced.apply (r : Reduced α) (start : List α) : List α :=
  start.take (start.length - r.climbs) ++ r.names

/-- A parent takes back the last name, or climbs if there is none. -/
def Reduced.step : Reduced α → Segment α → Reduced α
  | r, .here => r
  | ⟨k, []⟩, .parent => ⟨k + 1, []⟩
  | ⟨k, n :: names⟩, .parent => ⟨k, (n :: names).dropLast⟩
  | ⟨k, names⟩, .name n => ⟨k, names ++ [n]⟩

def reduce (segments : List (Segment α)) : Reduced α := segments.foldl Reduced.step ⟨0, []⟩

end LexicalPaths
