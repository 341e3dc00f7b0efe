import Hedronetes.Apply.Paths

/-!
# The fields an object declares

Leaves are declared individually: maps field by field, named lists item by item,
and everything else as a whole. An empty object declares nothing.
-/

namespace Hedronetes.Apply

open FirstMatch

/-- `BTreeSet::insert` on the paths in order. -/
def insertPath (path : Path) : List Path → List Path
  | [] => [path]
  | other :: out =>
    if path = other then other :: out
    else if (compare path other).isLT then path :: other :: out
    else other :: insertPath path out

@[simp] theorem mem_insertPath {path p : Path} {out : List Path} :
    p ∈ insertPath path out ↔ p = path ∨ p ∈ out := by
  induction out with
  | nil => simp [insertPath]
  | cons other out ih =>
    unfold insertPath
    split_ifs with he
    · simp [he]
    · simp
    · simp only [List.mem_cons, ih]
      tauto

/-- The API's own bookkeeping under `metadata`. -/
def managedFields : String := "managedFields"

def named (items : List Json) : Bool :=
  items.all fun item => (item.strAt "name").any fun name => name ≠ ""

mutual

def walk (underMetadata : Bool) (path : Path) : Json → List Path → List Path
  | .object fields, out => walkFields underMetadata path fields out
  | .array items, out =>
    if items ≠ [] ∧ named items then walkItems path items out else insertPath path out
  | _, out => insertPath path out

def walkFields (underMetadata : Bool) (path : Path) :
    List (String × Json) → List Path → List Path
  | [], out => out
  | (key, value) :: fields, out =>
    if underMetadata ∧ key = managedFields then walkFields underMetadata path fields out
    else walkFields underMetadata path fields
      (walk (key = "metadata") (path ++ [.field key]) value out)

def walkItems (path : Path) : List Json → List Path → List Path
  | [], out => out
  | item :: items, out =>
    walkItems path items
      (walk false (path ++ [.keyed "name" ((item.strAt "name").getD "")]) item out)

end

def declared (value : Json) : List Path := walk false [] value []

/-! ## Declaration as a relation -/

/-- A value declares a path: the leaf it ends in, entered field by field and named
item by named item, past the bookkeeping. -/
inductive Declares : Bool → Json → Path → Prop
  | member {underMetadata : Bool} {fields : List (String × Json)} {key : String} {value : Json}
      {p : Path} : (key, value) ∈ fields → ¬ (underMetadata = true ∧ key = managedFields) →
      Declares (key = "metadata") value p → Declares underMetadata (.object fields) (.field key :: p)
  | item {underMetadata : Bool} {items : List Json} {item : Json} {p : Path} :
      named items = true → item ∈ items → Declares false item p →
      Declares underMetadata (.array items) (.keyed "name" ((item.strAt "name").getD "") :: p)
  | whole {underMetadata : Bool} {value : Json} : value.isObject = false →
      (∀ items, value = .array items → items ≠ [] → named items = false) →
      Declares underMetadata value []

theorem mem_walkFields {underMetadata : Bool} {path p : Path} {fields : List (String × Json)}
    {out : List Path} (ih : ∀ e ∈ fields, ∀ (u : Bool) (c : Path) (o : List Path),
      p ∈ walk u c e.2 o ↔ p ∈ o ∨ ∃ q, Declares u e.2 q ∧ p = c ++ q) :
    p ∈ walkFields underMetadata path fields out ↔ p ∈ out ∨ ∃ e ∈ fields, ∃ q,
      ¬ (underMetadata = true ∧ e.1 = managedFields) ∧ Declares (e.1 = "metadata") e.2 q ∧
        p = path ++ .field e.1 :: q := by
  induction fields generalizing out with
  | nil => simp [walkFields]
  | cons e fields ihf =>
    obtain ⟨key, value⟩ := e
    have hrest := fun o => @ihf o fun e he => ih e (List.mem_cons_of_mem _ he)
    unfold walkFields
    split_ifs with hskip
    · rw [hrest]
      constructor
      · rintro (h | ⟨e, he, hd⟩)
        · exact Or.inl h
        · exact Or.inr ⟨e, List.mem_cons_of_mem _ he, hd⟩
      · rintro (h | ⟨e, he, q, hne, hd⟩)
        · exact Or.inl h
        · rcases List.mem_cons.mp he with rfl | he
          · exact absurd hskip hne
          · exact Or.inr ⟨e, he, q, hne, hd⟩
    · rw [hrest, ih (key, value) List.mem_cons_self]
      constructor
      · rintro ((h | ⟨q, hd, rfl⟩) | ⟨e, he, hd⟩)
        · exact Or.inl h
        · exact Or.inr ⟨_, List.mem_cons_self, q, hskip, hd, by simp⟩
        · exact Or.inr ⟨e, List.mem_cons_of_mem _ he, hd⟩
      · rintro (h | ⟨e, he, q, hne, hd, rfl⟩)
        · exact Or.inl (Or.inl h)
        · rcases List.mem_cons.mp he with rfl | he
          · exact Or.inl (Or.inr ⟨q, hd, by simp⟩)
          · exact Or.inr ⟨e, he, q, hne, hd, rfl⟩

theorem mem_walkItems {path p : Path} {items : List Json} {out : List Path}
    (ih : ∀ j ∈ items, ∀ (u : Bool) (c : Path) (o : List Path),
      p ∈ walk u c j o ↔ p ∈ o ∨ ∃ q, Declares u j q ∧ p = c ++ q) :
    p ∈ walkItems path items out ↔ p ∈ out ∨ ∃ j ∈ items, ∃ q, Declares false j q ∧
      p = path ++ .keyed "name" ((j.strAt "name").getD "") :: q := by
  induction items generalizing out with
  | nil => simp [walkItems]
  | cons j items ihi =>
    rw [walkItems, ihi (fun k hk => ih k (List.mem_cons_of_mem _ hk)), ih j List.mem_cons_self]
    constructor
    · rintro ((h | ⟨q, hd, rfl⟩) | ⟨k, hk, hd⟩)
      · exact Or.inl h
      · exact Or.inr ⟨j, List.mem_cons_self, q, hd, by simp⟩
      · exact Or.inr ⟨k, List.mem_cons_of_mem _ hk, hd⟩
    · rintro (h | ⟨k, hk, q, hd, rfl⟩)
      · exact Or.inl (Or.inl h)
      · rcases List.mem_cons.mp hk with rfl | hk
        · exact Or.inl (Or.inr ⟨q, hd, by simp⟩)
        · exact Or.inr ⟨k, hk, q, hd, rfl⟩

/-- The walk collects what the value declares. -/
theorem mem_walk (j : Json) {p : Path} : ∀ (u : Bool) (c : Path) (out : List Path),
    p ∈ walk u c j out ↔ p ∈ out ∨ ∃ q, Declares u j q ∧ p = c ++ q := by
  induction j with
  | object fields ih =>
    intro u c out
    rw [walk, mem_walkFields ih]
    apply or_congr_right
    constructor
    · rintro ⟨e, he, q, hne, hd, rfl⟩
      exact ⟨_, .member he hne hd, rfl⟩
    · rintro ⟨q, hd, rfl⟩
      cases hd with
      | member he hne hd => exact ⟨_, he, _, hne, hd, rfl⟩
      | whole hobject _ => cases hobject
  | array items ih =>
    intro u c out
    rw [walk]
    split_ifs with hnamed
    · rw [mem_walkItems ih]
      apply or_congr_right
      constructor
      · rintro ⟨k, hk, q, hd, rfl⟩
        exact ⟨_, .item hnamed.2 hk hd, rfl⟩
      · rintro ⟨q, hd, rfl⟩
        cases hd with
        | item _ hk hd => exact ⟨_, hk, _, hd, rfl⟩
        | whole _ hwhole =>
          rw [hwhole items rfl hnamed.1] at hnamed
          cases hnamed.2
    · rw [mem_insertPath, or_comm]
      apply or_congr_right
      constructor
      · rintro rfl
        refine ⟨[], .whole rfl ?_, by simp⟩
        intro others he hne
        cases he
        exact Bool.eq_false_iff.mpr fun hall => hnamed ⟨hne, hall⟩
      · rintro ⟨q, hd, rfl⟩
        cases hd with
        | item hall hk hd => exact absurd ⟨List.ne_nil_of_mem hk, hall⟩ hnamed
        | whole _ _ => simp
  | _ =>
    intro u c out
    change p ∈ insertPath c out ↔ _
    rw [mem_insertPath, or_comm]
    apply or_congr_right
    constructor
    · rintro rfl
      exact ⟨[], .whole rfl (by simp), by simp⟩
    · rintro ⟨q, hd, rfl⟩
      cases hd with
      | whole _ _ => simp

theorem mem_declared {j : Json} {p : Path} : p ∈ declared j ↔ Declares false j p := by
  rw [declared, mem_walk]
  simp

/-! ## What declared paths look like -/

theorem Declares.nameKeyed {u : Bool} {j : Json} {p : Path} (h : Declares u j p) :
    NameKeyed p := by
  induction h with
  | member _ _ _ ih =>
    intro key value hmem
    rcases List.mem_cons.mp hmem with he | hmem
    · cases he
    · exact ih key value hmem
  | item _ _ _ ih =>
    intro key value hmem
    rcases List.mem_cons.mp hmem with he | hmem
    · injection he
    · exact ih key value hmem
  | whole _ _ =>
    intro key value hmem
    cases hmem

/-- An item that is declared at all has its merge key declared. -/
theorem Declares.key {u : Bool} {j : Json} {c p : Path} {key value : String}
    (h : Declares u j (c ++ .keyed key value :: p)) :
    Declares u j (c ++ [.keyed key value, .field key]) := by
  induction c generalizing u j with
  | nil =>
    cases h with
    | @item _ items a p hnamed ha hd =>
      have hname := List.all_eq_true.mp hnamed a ha
      cases hstr : a.strAt "name" with
      | none => simp [hstr] at hname
      | some name =>
        have hfield := Json.strAt_eq_some.mp hstr
        cases a with
        | object fields =>
          have hkey : Declares false (.object fields) [.field "name"] :=
            .member (mem_of_lookup hfield) (by simp) (.whole rfl (by simp))
          have hitem : Declares u (.array items) _ := .item hnamed ha hkey
          rwa [hstr] at hitem
        | _ => cases hfield
  | cons s c ih =>
    cases h with
    | member he hne hd => exact .member he hne (ih hd)
    | item hnamed ha hd => exact .item hnamed ha (ih hd)

end Hedronetes.Apply
