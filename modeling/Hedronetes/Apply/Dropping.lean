import Hedronetes.Apply.MergeKeys
import Hedronetes.Apply.Ownership
import Hedronetes.Apply.Records
import Hedronetes.Apply.Replacing
import Hedronetes.Apply.Writes

/-!
# What its manager stops declaring

A manager that drops a whole list item drops its fields one after another, in the
order of their paths, and its name among them. From then on the item is not found
by its name, so the fields that come later stay, and so do its emptied containers.
-/

namespace Hedronetes.Apply

open FirstMatch Fallible

variable {text : JsonText} {time : String}
  {stored applied desired merged result : Json} {options : Options}

/-! ## The way to a list -/

/-- The paths that do not go through `c`. -/
def others (c : Path) (xs : List Path) : List Path := xs.filter fun x => ¬ c <+: x

/-- A path leads beside `c`, taking no name on the way to it, or inside. -/
def Leaves (c x : Path) : Prop := (Apart x c ∧ ¬ Rekeys x c) ∨ ∃ s y, x = c ++ s :: y

/-- What the removals of its fields leave of the item `n`, while it has that name. -/
def remnant (n : String) (a : Json) : List Path → Option Json
  | [] => some a
  | z :: zs =>
    if a.strAt "name" = some n then
      if z = [] then none else remnant n (remove a z) zs
    else some a

/-- What pruning keeps of what the drops left of an item. -/
def leftover (n : String) (a : Json) (zs : List Path) : List Json :=
  ((remnant n a zs).toList.map prune).filter fun item => !bare item

theorem mem_droppedPaths {manager : String} {p : Path} :
    p ∈ droppedPaths text stored desired manager ↔
      p ∈ previousPaths (entries text stored) manager ∧ ∀ d ∈ declared desired, ¬ p <+: d := by
  simp only [droppedPaths, dropped, List.mem_filter, decide_eq_true_eq, not_exists, not_and]
  constructor
  · exact fun h => ⟨h.1, h.2.2⟩
  · exact fun h => ⟨h.1, fun hmem => h.2 p hmem (List.prefix_refl p), h.2⟩

/-- An apply gives up a list item that its manager owned to the last leaf: it declares
nothing at it, above it or inside it, and drops nothing on the way to it. -/
structure GivesUp (text : JsonText) (stored desired : Json) (manager : String) (c : Path)
    (n : String) (before : List Json) (a : Json) (after : List Json) : Prop where
  list : get stored c = some (.array (before ++ a :: after))
  name : a.strAt "name" = some n
  single : ∀ i ∈ before ++ after, i.strAt "name" ≠ some n
  keyed : NameKeyed c
  records : Apart [.field "metadata", .field managedFields] c
  owned : ∀ q, Declares false a q →
    c ++ .keyed "name" n :: q ∈ previousPaths (entries text stored) manager
  undeclared : ∀ d ∈ declared desired, Apart d (c ++ [.keyed "name" n])
  way : ∀ x ∈ droppedPaths text stored desired manager, Beside x c ∧ ¬ Rekeys x c

section GivesUp

variable {manager : String} {c : Path} {n : String} {before after : List Json} {a : Json}

theorem GivesUp.drops (hg : GivesUp text stored desired manager c n before a after) {q : Path}
    (hq : Declares false a q) :
    c ++ .keyed "name" n :: q ∈ droppedPaths text stored desired manager := by
  apply mem_droppedPaths.mpr ⟨hg.owned q hq, _⟩
  rintro d hd ⟨y, rfl⟩
  apply not_apart_through (c ++ [.keyed "name" n]) (q ++ y)
  simpa using hg.undeclared _ hd

theorem GivesUp.drops_name (hg : GivesUp text stored desired manager c n before a after) :
    c ++ [.keyed "name" n, .field "name"] ∈ droppedPaths text stored desired manager := by
  have hfield := Json.strAt_eq_some.mp hg.name
  obtain ⟨fields, rfl⟩ := Json.isObject_iff.mp (Json.isObject_of_field hfield)
  apply hg.drops
  apply Declares.member (mem_of_lookup hfield) (by simp)
  exact Declares.whole rfl (by simp)

theorem GivesUp.metadata (hg : GivesUp text stored desired manager c n before a after) :
    (stored.field "metadata").any Json.isObject = true := by
  have hmem := (mem_droppedPaths.mp hg.drops_name).1
  unfold previousPaths at hmem
  cases hm : stored.field "metadata" with
  | none => simp [entries, hm] at hmem
  | some m =>
    cases m with
    | object metadata => rfl
    | _ =>
      rw [entries, hm] at hmem
      simp [Json.field] at hmem

end GivesUp

end Hedronetes.Apply
