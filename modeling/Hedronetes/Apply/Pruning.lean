import Hedronetes.Apply.Paths

/-!
# Pruning

The pass over the whole object that drops every list item carrying at most its
`name`. It keeps a value exactly when no such item lies inside it, and it keeps
what a path leads to when no such item lies on the way.
-/

namespace Hedronetes.Apply

open FirstMatch

/-- The items the pass drops: empty, or carrying only a `name`. -/
def bare (item : Json) : Bool :=
  match item.asObject with
  | some map => map.isEmpty || map.length == 1 && (lookup "name" map).isSome
  | none => false

mutual

def prune : Json → Json
  | .object fields => .object (pruneFields fields)
  | .array items => .array ((pruneItems items).filter fun item => !bare item)
  | value => value

def pruneFields : List (String × Json) → List (String × Json)
  | [] => []
  | (name, value) :: fields => (name, prune value) :: pruneFields fields

def pruneItems : List Json → List Json
  | [] => []
  | item :: items => prune item :: pruneItems items

end

theorem pruneFields_eq_map (fields : List (String × Json)) :
    pruneFields fields = fields.map fun e => (e.1, prune e.2) := by
  induction fields with
  | nil => rfl
  | cons e fields ih => rw [pruneFields, ih, List.map_cons]

theorem pruneItems_eq_map (items : List Json) : pruneItems items = items.map prune := by
  induction items with
  | nil => rfl
  | cons j items ih => rw [pruneItems, ih, List.map_cons]

theorem prune_object (fields : List (String × Json)) :
    prune (.object fields) = .object (fields.map fun e => (e.1, prune e.2)) := by
  rw [prune, pruneFields_eq_map]

theorem prune_array (items : List Json) :
    prune (.array items) = .array ((items.map prune).filter fun item => !bare item) := by
  rw [prune, pruneItems_eq_map]

/-! ## Reads after pruning -/

theorem lookup_map_prune (name : String) (fields : List (String × Json)) :
    lookup name (fields.map fun e => (e.1, prune e.2)) = (lookup name fields).map prune := by
  induction fields with
  | nil => rfl
  | cons e fields ih =>
    by_cases he : e.1 = name
    · simp [lookup, he]
    · simpa [lookup, he] using ih

theorem field_prune (name : String) (j : Json) : (prune j).field name = (j.field name).map prune := by
  cases j with
  | object fields => rw [prune_object]; exact lookup_map_prune name fields
  | array items => rw [prune_array]; rfl
  | _ => rfl

theorem asString_prune (j : Json) : (prune j).asString = j.asString := by
  cases j with
  | object fields => rw [prune_object]; rfl
  | array items => rw [prune_array]; rfl
  | _ => rfl

theorem strAt_prune (name : String) (j : Json) : (prune j).strAt name = j.strAt name := by
  rw [Json.strAt, Json.strAt, field_prune, Option.bind_map]
  apply congrArg
  funext value
  exact asString_prune value

theorem bare_prune (j : Json) : bare (prune j) = bare j := by
  cases j with
  | object fields =>
    rw [prune_object]
    simp [bare, Json.asObject, lookup_map_prune]
  | array items => rw [prune_array]; rfl
  | _ => rfl

/-- An item with a member other than its name is kept. -/
theorem bare_eq_false {j v : Json} {name : String} (h : j.field name = some v)
    (hne : name ≠ "name") : bare j = false := by
  cases j with
  | object fields =>
    match fields with
    | [] => simp [Json.field, lookup] at h
    | [e] =>
      have he : e.1 = name := by
        by_contra hcon
        simp [Json.field, lookup, hcon] at h
      have hname : e.1 ≠ "name" := by rwa [he]
      simp [bare, Json.asObject, lookup, hname]
    | _ :: _ :: _ => simp [bare, Json.asObject]
  | _ => rfl

/-- A dropped item has no member besides its name. -/
theorem field_of_bare {j : Json} {name : String} (h : bare j = true) (hne : name ≠ "name") :
    j.field name = none := by
  by_contra hcon
  obtain ⟨v, hv⟩ := Option.ne_none_iff_exists'.mp hcon
  rw [bare_eq_false hv hne] at h
  cases h

/-- Pruning keeps the item a key finds, unless it drops it. -/
theorem find?_prune {key value : String} {items : List Json}
    (h : ∀ a, items.find? (fun item => item.strAt key = some value) = some a → bare a = false) :
    ((items.map prune).filter fun item => !bare item).find?
        (fun item => item.strAt key = some value) =
      (items.find? fun item => item.strAt key = some value).map prune := by
  induction items with
  | nil => rfl
  | cons j items ih =>
    by_cases hj : j.strAt key = some value
    · have hkept : bare j = false := h j (by simp [hj])
      simp [bare_prune, hkept, strAt_prune, hj]
    · rw [List.find?_cons_of_neg (by simpa using hj)] at h
      rw [List.map_cons, List.filter_cons, List.find?_cons_of_neg (by simpa using hj)]
      split_ifs
      · rw [List.find?_cons_of_neg (by simpa [strAt_prune] using hj)]
        exact ih h
      · exact ih h

/-- No list item on the way of `p` is one that pruning drops. -/
def WayKept (j : Json) (p : Path) : Prop :=
  ∀ c key value a, c ++ [.keyed key value] <+: p → get j (c ++ [.keyed key value]) = some a →
    bare a = false

theorem WayKept.tail {j current : Json} {s : Segment} {p : Path} (h : WayKept j (s :: p))
    (hchild : child j s = some current) : WayKept current p := by
  intro c key value a hc ha
  apply h (s :: c) key value a
  · simpa using hc
  · rwa [List.cons_append, get_cons, hchild, Option.bind_some]

theorem get_prune {j : Json} {p : Path} (h : WayKept j p) :
    get (prune j) p = (get j p).map prune := by
  induction p generalizing j with
  | nil => rfl
  | cons s p ih =>
    have hchild : child (prune j) s = (child j s).map prune := by
      cases s with
      | field name => exact field_prune name j
      | keyed key value =>
        cases j with
        | array items =>
          rw [prune_array]
          apply find?_prune
          intro a ha
          apply h [] key value a (by simp)
          rw [List.nil_append, get_cons, child_array_keyed, ha]
          rfl
        | object fields => rw [prune_object]; rfl
        | _ => rfl
    rw [get_cons, get_cons, hchild, Option.bind_map, Option.map_bind]
    cases hc : child j s with
    | none => rfl
    | some current => exact ih (h.tail hc)

/-! ## What pruning keeps -/

mutual

/-- No list item inside the value is one that pruning drops. -/
def noBare : Json → Bool
  | .object fields => noBareFields fields
  | .array items => noBareItems items
  | _ => true

def noBareFields : List (String × Json) → Bool
  | [] => true
  | (_, value) :: fields => noBare value && noBareFields fields

def noBareItems : List Json → Bool
  | [] => true
  | item :: items => !bare item && noBare item && noBareItems items

end

theorem noBare_object (fields : List (String × Json)) :
    noBare (.object fields) = true ↔ ∀ e ∈ fields, noBare e.2 = true := by
  rw [noBare]
  induction fields with
  | nil => simp [noBareFields]
  | cons e fields ih => simp [noBareFields, ih]

theorem noBare_array (items : List Json) :
    noBare (.array items) = true ↔ ∀ j ∈ items, bare j = false ∧ noBare j = true := by
  rw [noBare]
  induction items with
  | nil => simp [noBareItems]
  | cons j items ih => simp [noBareItems, ih]

/-- What pruning leaves holds nothing more for it to drop. -/
theorem noBare_prune (j : Json) : noBare (prune j) = true := by
  induction j with
  | object fields ih =>
    rw [prune_object, noBare_object]
    intro e he
    obtain ⟨a, ha, rfl⟩ := List.mem_map.mp he
    exact ih a ha
  | array items ih =>
    rw [prune_array, noBare_array]
    intro j hj
    obtain ⟨hmem, hkept⟩ := List.mem_filter.mp hj
    obtain ⟨a, ha, rfl⟩ := List.mem_map.mp hmem
    exact ⟨by simpa using hkept, ih a ha⟩
  | _ => rfl

theorem map_eq_self_iff {α : Type} {f : α → α} {l : List α} :
    l.map f = l ↔ ∀ a ∈ l, f a = a := by
  have h : l.map f = l.map id ↔ ∀ a ∈ l, f a = id a := List.map_inj_left
  rwa [List.map_id] at h

/-- Pruning changes exactly the values inside which it drops an item. -/
theorem prune_eq_self_iff (j : Json) : prune j = j ↔ noBare j = true := by
  induction j with
  | object fields ih =>
    rw [prune_object, noBare_object, Json.object.injEq, map_eq_self_iff]
    constructor
    · intro h e he
      exact (ih e he).mp (congrArg Prod.snd (h e he))
    · intro h e he
      rw [(ih e he).mpr (h e he)]
  | array items ih =>
    rw [prune_array, noBare_array, Json.array.injEq]
    constructor
    · intro h
      have hlength := congrArg List.length h
      have hle := List.length_filter_le (fun item => !bare item) (items.map prune)
      have hall : ∀ j ∈ items.map prune, (!bare j) = true := by
        apply List.length_filter_eq_length_iff.mp
        rw [hlength, List.length_map]
      rw [List.filter_eq_self.mpr hall] at h
      have hprune := map_eq_self_iff.mp h
      intro j hj
      have hkept := hall (prune j) (List.mem_map_of_mem hj)
      rw [bare_prune] at hkept
      exact ⟨by simpa using hkept, (ih j hj).mp (hprune j hj)⟩
    · intro h
      have hmap : items.map prune = items :=
        map_eq_self_iff.mpr fun j hj => (ih j hj).mpr (h j hj).2
      rw [hmap, List.filter_eq_self]
      intro j hj
      simp [(h j hj).1]
  | _ => simp [prune, noBare]

end Hedronetes.Apply
