import Hedronetes.Foundations.Json
import Hedronetes.Foundations.Fallible

/-!
# Positions inside an object

Reading, writing and removing at a path. A list whose items carry a `name` is
entered by key, an object by field. A write into a container of the wrong kind
panics, as the source does; a removal there changes nothing.
-/

namespace Hedronetes.Apply

open FirstMatch Fallible

/-- A position inside an object. A list of named items is keyed by the name. -/
inductive Segment
  | field (name : String)
  | keyed (key value : String)
  deriving DecidableEq, Ord

abbrev Path := List Segment

/-- Why a request stops: a `Failure` it answers with, or a panic. -/
inductive Stop
  | failure (code : ℕ) (reason message : String)
  | panic (message : String)
  deriving DecidableEq

abbrev Outcome := Except Stop

/-! ## Operations -/

def item (current : Json) (key value : String) : Option Json :=
  current.asArray.bind fun items => items.find? fun item => item.strAt key = some value

/-- The child of a value under a segment. -/
def child (current : Json) : Segment → Option Json
  | .field name => current.field name
  | .keyed key value => item current key value

def get : Json → Path → Option Json
  | root, [] => some root
  | root, segment :: path => (child root segment).bind fun current => get current path

/-- The container a missing intermediate is created as, by the segment after it. -/
def emptyFor : Path → Json
  | .keyed _ _ :: _ => .array []
  | _ => .object []

/-- Writes below a container; at the end of the path the value takes the place itself. -/
def put : Json → Path → Json → Outcome Json
  | _, [], value => .ok value
  | .object fields, .field name :: path, value => do
    let current ← put ((lookup name fields).getD (emptyFor path)) path value
    return .object (insertKey name current fields)
  | .array items, .keyed key keyValue :: path, value =>
    let matched := fun item : Json => decide (item.strAt key = some keyValue)
    match items.find? matched with
    | some item => do
      let current ← put item path value
      return .array (updateFirst matched (fun _ => current) items)
    | none => do
      let current ← put (.object [(key, .string keyValue)]) path value
      return .array (items ++ [current])
  | _, .field _ :: _, _ => .error (.panic "declared parent is an object")
  | _, .keyed _ _ :: _, _ => .error (.panic "declared parent is a list")

def set (root : Json) (path : Path) (value : Json) : Outcome Json :=
  match path with
  | [] => .ok root
  | _ :: _ => put root path value

def remove : Json → Path → Json
  | .object fields, [.field name] => .object (eraseKey name fields)
  | .array items, [.keyed key keyValue] =>
    .array (items.filter fun item => item.strAt key ≠ some keyValue)
  | .object fields, .field name :: segment :: path =>
    .object (modifyKey name (fun current => remove current (segment :: path)) fields)
  | .array items, .keyed key keyValue :: segment :: path =>
    .array (updateFirst (fun item => item.strAt key = some keyValue)
      (fun item => remove item (segment :: path)) items)
  | root, _ => root

/-! ## How two paths meet -/

/-- Two segments that never enter the same child. -/
def Segment.Apart : Segment → Segment → Prop
  | .field name, .field other => name ≠ other
  | .keyed key value, .keyed other value' => key = other ∧ value ≠ value'
  | _, _ => True

/-- Two paths that part at some segment. -/
def Apart : Path → Path → Prop
  | s :: x, t :: p => s.Apart t ∨ s = t ∧ Apart x p
  | _, _ => False

instance Segment.decidableApart : (s t : Segment) → Decidable (s.Apart t)
  | .field name, .field other => inferInstanceAs (Decidable (name ≠ other))
  | .keyed key value, .keyed other value' =>
    inferInstanceAs (Decidable (key = other ∧ value ≠ value'))
  | .field _, .keyed _ _ => isTrue trivial
  | .keyed _ _, .field _ => isTrue trivial

instance decidableApart : (x p : Path) → Decidable (Apart x p)
  | s :: x, t :: p =>
    have := decidableApart x p
    inferInstanceAs (Decidable (s.Apart t ∨ s = t ∧ Apart x p))
  | [], _ => isFalse fun h => h
  | _ :: _, [] => isFalse fun h => h

/-- `x` is the merge key of a list item that `p` enters. -/
def Rekeys (x p : Path) : Prop :=
  ∃ c key value, x = c ++ [.keyed key value, .field key] ∧ c ++ [.keyed key value] <+: p

/-- Every list on the path is keyed by `name`. -/
def NameKeyed (p : Path) : Prop := ∀ key value, Segment.keyed key value ∈ p → key = "name"

theorem Rekeys.cons {x p : Path} (h : Rekeys x p) (s : Segment) : Rekeys (s :: x) (s :: p) := by
  obtain ⟨c, key, value, rfl, hc⟩ := h
  exact ⟨s :: c, key, value, rfl, by simpa using hc⟩

theorem rekeys_cons_iff {x p : Path} {s t : Segment} (hx : 2 ≤ x.length) :
    Rekeys (s :: x) (t :: p) ↔ s = t ∧ Rekeys x p := by
  constructor
  · rintro ⟨c, key, value, he, hc⟩
    cases c with
    | nil =>
      have hl := congrArg List.length he
      simp at hl
      omega
    | cons u c =>
      rw [List.cons_append] at he hc
      injection he with hs hx
      obtain ⟨hu, hc⟩ := List.cons_prefix_cons.mp hc
      exact ⟨hs.trans hu, c, key, value, hx, hc⟩
  · rintro ⟨rfl, h⟩
    exact h.cons s

/-- Two segments that key a list alike part, or are the same. -/
theorem Segment.apart_or_same {s t : Segment} (h : ∀ key value other value',
    s = .keyed key value → t = .keyed other value' → key = other) : s.Apart t ∨ s = t := by
  by_cases hst : s = t
  · exact Or.inr hst
  · apply Or.inl
    cases s with
    | field name =>
      cases t with
      | field other => exact fun h => hst (congrArg _ h)
      | keyed key value => trivial
    | keyed key value =>
      cases t with
      | field other => trivial
      | keyed other value' =>
        have hkey := h key value other value' rfl rfl
        exact ⟨hkey, fun h => hst (by rw [hkey, h])⟩

/-- Two paths that key lists alike part, or one goes through the other. -/
theorem apart_or_through {x p : Path} (h : ∀ key value other value', .keyed key value ∈ x →
    .keyed other value' ∈ p → key = other) : Apart x p ∨ x <+: p ∨ p <+: x := by
  induction x generalizing p with
  | nil => exact Or.inr (Or.inl (List.nil_prefix))
  | cons s x ih =>
    cases p with
    | nil => exact Or.inr (Or.inr (List.nil_prefix))
    | cons t p =>
      have hhead : s.Apart t ∨ s = t := by
        apply Segment.apart_or_same
        rintro key value other value' rfl rfl
        exact h key value other value' (by simp) (by simp)
      rcases hhead with hapart | rfl
      · exact Or.inl (Or.inl hapart)
      · have htail := ih (p := p) fun key value other value' hx hp =>
          h key value other value' (List.mem_cons_of_mem _ hx) (List.mem_cons_of_mem _ hp)
        rcases htail with h | h | h
        · exact Or.inl (Or.inr ⟨rfl, h⟩)
        · exact Or.inr (Or.inl (List.cons_prefix_cons.mpr ⟨rfl, h⟩))
        · exact Or.inr (Or.inr (List.cons_prefix_cons.mpr ⟨rfl, h⟩))

theorem NameKeyed.tail {s : Segment} {p : Path} (h : NameKeyed (s :: p)) : NameKeyed p :=
  fun key value hmem => h key value (List.mem_cons_of_mem _ hmem)

theorem NameKeyed.apart_or_same {s t : Segment} {x p : Path} (hx : NameKeyed (s :: x))
    (hp : NameKeyed (t :: p)) : s.Apart t ∨ s = t := by
  apply Segment.apart_or_same
  rintro key value other value' rfl rfl
  exact (hx key value (by simp)).trans (hp other value' (by simp)).symm

theorem NameKeyed.apart_or_through {x p : Path} (hx : NameKeyed x) (hp : NameKeyed p) :
    Apart x p ∨ x <+: p ∨ p <+: x := by
  apply Apply.apart_or_through
  intro key value other value' hkey hother
  exact (hx key value hkey).trans (hp other value' hother).symm

theorem Segment.Apart.irrefl (s : Segment) : ¬ s.Apart s := by
  cases s with
  | field name => exact fun h => h rfl
  | keyed key value => exact fun h => h.2 rfl

/-- A path does not part from one it goes through. -/
theorem not_apart_through (p y : Path) : ¬ Apart (p ++ y) p := by
  induction p with
  | nil => cases y <;> exact fun h => h
  | cons s p ih =>
    rintro (h | ⟨_, h⟩)
    · exact Segment.Apart.irrefl s h
    · exact ih h

theorem Apart.irrefl (p : Path) : ¬ Apart p p := by
  have h := not_apart_through p []
  rwa [List.append_nil] at h

theorem Apart.symm {x p : Path} (h : Apart x p) : Apart p x := by
  induction x generalizing p with
  | nil => exact h.elim
  | cons s x ih =>
    cases p with
    | nil => exact h.elim
    | cons t p =>
      rcases h with h | ⟨rfl, h⟩
      · left
        cases s <;> cases t <;> simp_all [Segment.Apart, eq_comm]
      · exact Or.inr ⟨rfl, ih h⟩

/-- What goes through a path that parts from another parts from it too. -/
theorem Apart.append {x p : Path} (h : Apart x p) (y q : Path) : Apart (x ++ y) (p ++ q) := by
  induction x generalizing p with
  | nil => exact h.elim
  | cons s x ih =>
    cases p with
    | nil => exact h.elim
    | cons t p =>
      rcases h with h | ⟨rfl, h⟩
      · exact Or.inl h
      · exact Or.inr ⟨rfl, ih h⟩

theorem Apart.append_left {x p : Path} (h : Apart x p) (c : Path) : Apart (c ++ x) (c ++ p) := by
  induction c with
  | nil => exact h
  | cons s c ih => exact Or.inr ⟨rfl, ih⟩

theorem Rekeys.mono {x p q : Path} (h : Rekeys x p) (hp : p <+: q) : Rekeys x q := by
  obtain ⟨c, key, value, rfl, hc⟩ := h
  exact ⟨c, key, value, rfl, hc.trans hp⟩

/-- The path `x` leads beside `p` or strictly below it. -/
def Beside (x p : Path) : Prop := Apart x p ∨ ∃ u y, x = p ++ u :: y

/-- What leads beside a path or below it does so at each path on its way. -/
theorem Beside.of_through {x p q : Path} (h : Beside x p) (hq : q <+: p) : Beside x q := by
  obtain ⟨r, rfl⟩ := hq
  rcases h with h | ⟨u, y, rfl⟩
  · induction q generalizing x with
    | nil =>
      cases x with
      | nil => exact h.elim
      | cons s x => exact Or.inr ⟨s, x, rfl⟩
    | cons t q ih =>
      cases x with
      | nil => exact h.elim
      | cons s x =>
        rcases h with h | ⟨rfl, h⟩
        · exact Or.inl (Or.inl h)
        · rcases ih h with h | ⟨v, y, rfl⟩
          · exact Or.inl (Or.inr ⟨rfl, h⟩)
          · exact Or.inr ⟨v, y, rfl⟩
  · cases r with
    | nil => exact Or.inr ⟨u, y, by simp⟩
    | cons s r => exact Or.inr ⟨s, r ++ u :: y, by simp⟩

/-- And at each field of it that is not the path itself. -/
theorem Beside.field {x q : Path} {name : String} (h : Beside x q)
    (hne : x ≠ q ++ [.field name]) : Beside x (q ++ [.field name]) := by
  rcases h with h | ⟨u, y, rfl⟩
  · have happend := h.append [] [.field name]
    rw [List.append_nil] at happend
    exact Or.inl happend
  · by_cases hu : u = .field name
    · subst hu
      cases y with
      | nil => exact absurd rfl hne
      | cons v y => exact Or.inr ⟨v, y, by simp⟩
    · apply Or.inl
      apply Apart.append_left
      apply Or.inl
      cases u with
      | field other => exact fun he => hu (congrArg _ he)
      | keyed key value => trivial

theorem rekeys_field {x q : Path} {name : String} (h : Rekeys x (q ++ [.field name])) :
    Rekeys x q := by
  obtain ⟨c, key, value, rfl, hc⟩ := h
  refine ⟨c, key, value, rfl, ?_⟩
  rcases List.prefix_concat_iff.mp hc with he | hc
  · have hlast := congrArg List.getLast? he
    simp at hlast
  · exact hc

/-! ## Reading -/

@[simp] theorem get_nil (j : Json) : get j [] = some j := rfl

theorem get_cons (j : Json) (s : Segment) (p : Path) :
    get j (s :: p) = (child j s).bind fun current => get current p := rfl

theorem get_append (j : Json) (p q : Path) :
    get j (p ++ q) = (get j p).bind fun current => get current q := by
  induction p generalizing j with
  | nil => rfl
  | cons s p ih =>
    rw [List.cons_append, get_cons, get_cons, Option.bind_assoc]
    simp only [ih]

theorem get_append_field {j a : Json} {q : Path} (h : get j q = some a) (name : String) :
    get j (q ++ [.field name]) = a.field name := by
  rw [get_append, h, Option.bind_some, get_cons]
  simp [child]

@[simp] theorem child_field (j : Json) (name : String) : child j (.field name) = j.field name := rfl

@[simp] theorem child_array_keyed (items : List Json) (key value : String) :
    child (.array items) (.keyed key value) =
      items.find? fun item => item.strAt key = some value := rfl

theorem child_keyed_strAt {j a : Json} {key value : String}
    (h : child j (.keyed key value) = some a) : a.strAt key = some value := by
  obtain ⟨items, _, hfind⟩ := Option.bind_eq_some_iff.mp h
  simpa using List.find?_some hfind

theorem strAt_of_get {j a : Json} {c : Path} {key value : String}
    (h : get j (c ++ [.keyed key value]) = some a) : a.strAt key = some value := by
  rw [get_append] at h
  obtain ⟨k, _, hk⟩ := Option.bind_eq_some_iff.mp h
  obtain ⟨b, hb, hk⟩ := Option.bind_eq_some_iff.mp hk
  rw [← Option.some.inj hk]
  exact child_keyed_strAt hb

/-- An item found by its key carries the key. -/
theorem get_key {j w : Json} {c p : Path} {key value : String}
    (h : get j (c ++ .keyed key value :: p) = some w) :
    get j (c ++ [.keyed key value, .field key]) = some (.string value) := by
  rw [get_append] at h ⊢
  obtain ⟨current, hcurrent, h⟩ := Option.bind_eq_some_iff.mp h
  obtain ⟨a, ha, _⟩ := Option.bind_eq_some_iff.mp h
  have hfield := Json.strAt_eq_some.mp (child_keyed_strAt ha)
  rw [hcurrent, Option.bind_some, get_cons, ha, Option.bind_some, get_cons, child_field, hfield]
  rfl

end Hedronetes.Apply
