import Hedronetes.Foundations.FirstMatch
import Hedronetes.Foundations.Fallible

/-!
# File trees

A directory tree over files of any content. A change goes to one path and may make the directories
on the way to it; what a diverging path reads stays as it was.
-/

namespace Hedronetes

/-- A file, a directory, or what is neither. -/
inductive FileTree (α : Type) where
  | file (content : α)
  | dir (entries : List (String × FileTree α))
  | special

namespace FileTree

open FirstMatch Fallible

variable {α : Type}

abbrev Path := List String

inductive Failure where
  | notFound
  | notADirectory
  | refused (message : String)
  deriving DecidableEq

/-! ## Reads -/

/-- What is at a path. -/
def lookupPath : Option (FileTree α) → Path → Option (FileTree α)
  | t, [] => t
  | some (dir entries), name :: path => lookupPath (lookup name entries) path
  | _, _ :: _ => none

/-- The metadata call at a path: a missing entry differs from a way through something that is no
directory. -/
def stat : Option (FileTree α) → Path → Except Failure (FileTree α)
  | some t, [] => .ok t
  | none, _ => .error .notFound
  | some (dir entries), name :: path => stat (lookup name entries) path
  | some _, _ :: _ => .error .notADirectory

theorem stat_ok {t : Option (FileTree α)} {path : Path} {node : FileTree α} :
    stat t path = .ok node ↔ lookupPath t path = some node := by
  induction path generalizing t with
  | nil => cases t <;> simp [stat, lookupPath]
  | cons name path ih =>
    cases t with
    | none => simp [stat, lookupPath]
    | some t =>
      cases t with
      | dir entries => exact ih
      | _ => simp [stat, lookupPath]

theorem lookupPath_none (path : Path) : lookupPath (none : Option (FileTree α)) path = none := by
  cases path <;> rfl

theorem lookupPath_append (t : Option (FileTree α)) (path rest : Path) :
    lookupPath t (path ++ rest) = lookupPath (lookupPath t path) rest := by
  induction path generalizing t with
  | nil => rfl
  | cons name path ih =>
    cases t with
    | none => exact (lookupPath_none rest).symm
    | some t =>
      cases t with
      | dir entries => exact ih _
      | _ => exact (lookupPath_none rest).symm

/-- The content of a regular file. -/
def content : FileTree α → Option α
  | file bytes => some bytes
  | _ => none

def readFile (t : FileTree α) (path : Path) : Option α := (lookupPath (some t) path).bind content

/-! ## Changes -/

/-- Replace what is at a path, or remove it. Missing directories on the way are made on demand. -/
def change (make : Bool) (f : Option (FileTree α) → Except Failure (Option (FileTree α))) :
    Option (FileTree α) → Path → Except Failure (Option (FileTree α))
  | t, [] => f t
  | some (dir entries), name :: path => do
    match ← change make f (lookup name entries) path with
    | some node => return some (dir (insertKey name node entries))
    | none => return some (dir (eraseKey name entries))
  | none, name :: path =>
    if make then do
      match ← change make f none path with
      | some node => return some (dir [(name, node)])
      | none => return some (dir [])
    else .error .notFound
  | some _, _ :: _ => .error .notADirectory

variable {make : Bool} {f : Option (FileTree α) → Except Failure (Option (FileTree α))}
  {t t' : Option (FileTree α)} {name : String} {path other : Path}

/-- A change below a name puts its result under that name and keeps the other names. -/
theorem change_cons (h : change make f t (name :: path) = .ok t') :
    (∃ child, change make f (lookupPath t [name]) path = .ok child ∧ lookupPath t' [name] = child) ∧
      ∀ n, n ≠ name → ∀ rest, lookupPath t' (n :: rest) = lookupPath t (n :: rest) := by
  cases t with
  | none =>
    unfold change at h
    split_ifs at h
    obtain ⟨child, hchild, h⟩ := bind_eq_ok.mp h
    cases child with
    | none =>
      obtain rfl := Except.ok.inj h
      exact ⟨⟨none, hchild, rfl⟩, fun n _ rest => lookupPath_none rest⟩
    | some node =>
      obtain rfl := Except.ok.inj h
      refine ⟨⟨some node, hchild, ?_⟩, fun n hn rest => ?_⟩
      · simp [lookupPath, lookup_cons]
      · rw [lookupPath, lookup_cons, if_neg (Ne.symm hn)]
        exact lookupPath_none rest
  | some t =>
    cases t with
    | dir entries =>
      obtain ⟨child, hchild, h⟩ := bind_eq_ok.mp h
      cases child with
      | none =>
        obtain rfl := Except.ok.inj h
        refine ⟨⟨none, hchild, lookup_eraseKey name entries⟩, fun n hn rest => ?_⟩
        rw [lookupPath, lookupPath, lookup_eraseKey_ne hn]
      | some node =>
        obtain rfl := Except.ok.inj h
        refine ⟨⟨some node, hchild, lookup_insertKey name node entries⟩, fun n hn rest => ?_⟩
        rw [lookupPath, lookupPath, lookup_insertKey_ne hn]
    | _ => cases h

/-- The path reads what the change made of what was there. -/
theorem lookupPath_change (h : change make f t path = .ok t') :
    f (lookupPath t path) = .ok (lookupPath t' path) := by
  induction path generalizing t t' with
  | nil => exact h
  | cons name path ih =>
    obtain ⟨⟨child, hchild, hread⟩, -⟩ := change_cons h
    have hstep := ih hchild
    rw [← hread, ← lookupPath_append, ← lookupPath_append] at hstep
    exact hstep

/-- Neither path leads through the other one. -/
def Diverge : Path → Path → Prop
  | name :: path, n :: rest => name ≠ n ∨ Diverge path rest
  | _, _ => False

instance : ∀ p q : Path, Decidable (Diverge p q)
  | name :: path, n :: rest =>
    have := instDecidableDiverge path rest
    inferInstanceAs (Decidable (name ≠ n ∨ Diverge path rest))
  | [], _ => .isFalse id
  | _ :: _, [] => .isFalse id

theorem Diverge.symm : ∀ {p q : Path}, Diverge p q → Diverge q p
  | _ :: _, _ :: _, .inl hne => .inl hne.symm
  | _ :: _, _ :: _, .inr hrest => .inr hrest.symm
  | [], _, h => h.elim
  | _ :: _, [], h => h.elim

/-- A change leaves the diverging paths alone. -/
theorem lookupPath_change_of_diverge (h : change make f t path = .ok t') (hd : Diverge path other) :
    lookupPath t' other = lookupPath t other := by
  induction path generalizing t t' other with
  | nil => exact hd.elim
  | cons name path ih =>
    cases other with
    | nil => exact hd.elim
    | cons n rest =>
      obtain ⟨⟨child, hchild, hread⟩, hother⟩ := change_cons h
      by_cases hn : n = name
      · subst hn
        have hrest : Diverge path rest := hd.resolve_left fun hne => hne rfl
        have hstep := ih hchild hrest
        rw [← hread, ← lookupPath_append, ← lookupPath_append] at hstep
        exact hstep
      · exact hother n hn rest

end FileTree

end Hedronetes
