import Hedronetes.Apply.Paths

/-!
# What a removal leaves

Removing at a path takes what lies there and below, leaves every path that parts
from it, and reaches a path above it as a removal inside its value. The
exception is a merge key: an item that loses it is no longer found.
-/

namespace Hedronetes.Apply

open FirstMatch

theorem isObject_remove {w : Json} (h : w.isObject = true) (x : Path) :
    (remove w x).isObject = true := by
  obtain ⟨fields, rfl⟩ := Json.isObject_iff.mp h
  cases x with
  | nil => rfl
  | cons s x => cases s <;> cases x <;> rfl

theorem asString_remove (j : Json) (x : Path) : (remove j x).asString = j.asString := by
  unfold remove
  split <;> rfl

/-- A value keeps its string members, except the one removed. -/
theorem strAt_remove {key : String} {x : Path} (h : x ≠ [.field key]) (j : Json) :
    (remove j x).strAt key = j.strAt key := by
  unfold remove
  split
  · rename_i fields name
    have hne : key ≠ name := fun he => h (by rw [he])
    apply Json.strAt_congr
    exact lookup_eraseKey_ne hne fields
  · rfl
  · rename_i fields name s y
    change (lookup key (modifyKey name _ fields)).bind Json.asString = _
    by_cases hname : key = name
    · rw [hname, lookup_modifyKey]
      cases hl : lookup name fields <;> simp [Json.strAt, Json.field, hl, asString_remove]
    · rw [lookup_modifyKey_ne hname]
      rfl
  · rfl
  · rfl

theorem strAt_remove_key (key : String) (j : Json) :
    (remove j [.field key]).strAt key = none := by
  cases j <;> simp [remove, Json.strAt, Json.field]

/-- A removal never gives an item another key. -/
theorem strAt_remove_of_ne {key value other : String} {j : Json} (x : Path)
    (h : j.strAt key = some value) (hne : value ≠ other) :
    (remove j x).strAt key ≠ some other := by
  by_cases hx : x = [.field key]
  · rw [hx, strAt_remove_key]
    simp
  · rw [strAt_remove hx, h]
    exact fun he => hne (Option.some.inj he)

/-! ## One segment -/

theorem child_remove_apart {s t : Segment} (h : s.Apart t) (j : Json) (x : Path) :
    child (remove j (s :: x)) t = child j t := by
  cases s with
  | field name =>
    cases t with
    | field other =>
      have hne : other ≠ name := fun he => h he.symm
      cases j with
      | object fields =>
        cases x with
        | nil => exact lookup_eraseKey_ne hne fields
        | cons u x => exact lookup_modifyKey_ne hne _ fields
      | _ => cases x <;> rfl
    | keyed key value =>
      cases j <;> cases x <;> rfl
  | keyed key value =>
    cases t with
    | field other => cases j <;> cases x <;> rfl
    | keyed other value' =>
      obtain ⟨rfl, hne⟩ := h
      cases j with
      | array items =>
        cases x with
        | nil =>
          apply find?_filter_eq
          intro a ha
          simp only [decide_eq_true_eq] at ha
          simpa [ha] using hne.symm
        | cons u x =>
          apply find?_updateFirst_of_not
          · intro a ha
            simp only [decide_eq_true_eq] at ha
            simpa [ha] using hne
          · intro a ha
            have hkey := List.find?_some ha
            simp only [decide_eq_true_eq] at hkey
            simpa using strAt_remove_of_ne (u :: x) hkey hne
      | _ => cases x <;> rfl

/-- The child a removal goes through, unless it loses its merge key. -/
theorem child_remove_through {s u : Segment} {x : Path} (j : Json)
    (h : ∀ key value, s = .keyed key value → u :: x ≠ [.field key]) :
    child (remove j (s :: u :: x)) s = (child j s).map fun current => remove current (u :: x) := by
  cases s with
  | field name =>
    cases j with
    | object fields => exact lookup_modifyKey name _ fields
    | _ => rfl
  | keyed key value =>
    cases j with
    | array items =>
      apply find?_updateFirst
      intro a ha
      have hkey := List.find?_some ha
      simp only [decide_eq_true_eq] at hkey ⊢
      rw [strAt_remove (h key value rfl), hkey]
    | _ => rfl

theorem child_remove_self (j : Json) (s : Segment) : child (remove j [s]) s = none := by
  cases s with
  | field name =>
    cases j with
    | object fields => exact lookup_eraseKey name fields
    | _ => rfl
  | keyed key value =>
    cases j with
    | array items =>
      change (items.filter _).find? _ = none
      rw [List.find?_eq_none]
      intro a ha
      simpa using (List.mem_filter.mp ha).2
    | _ => rfl

/-! ## Whole paths -/

/-- A removal leaves every path that parts from it, unless it takes the key of
an item on the way. -/
theorem get_remove_apart {x p : Path} (h : Apart x p) (hkey : ¬ Rekeys x p) (j : Json) :
    get (remove j x) p = get j p := by
  induction x generalizing p j with
  | nil => exact h.elim
  | cons s x ih =>
    cases p with
    | nil => exact h.elim
    | cons t p =>
      rw [get_cons, get_cons]
      rcases h with h | ⟨rfl, h⟩
      · rw [child_remove_apart h]
      · cases x with
        | nil => exact h.elim
        | cons u x =>
          rw [child_remove_through j, Option.bind_map]
          · apply congrArg
            funext current
            exact ih h (fun hr => hkey (hr.cons s)) current
          · rintro key value rfl hx
            exact hkey ⟨[], key, value, by rw [hx]; rfl, by simp⟩

/-- A removal below a path is a removal inside its value. -/
theorem get_remove_below {p : Path} {u : Segment} {y : Path} (hkey : ¬ Rekeys (p ++ u :: y) p)
    (j : Json) :
    get (remove j (p ++ u :: y)) p = (get j p).map fun current => remove current (u :: y) := by
  induction p generalizing j with
  | nil => rfl
  | cons s p ih =>
    obtain ⟨v, z, hz⟩ : ∃ v z, p ++ u :: y = v :: z := by
      cases p with
      | nil => exact ⟨u, y, rfl⟩
      | cons v p => exact ⟨v, p ++ u :: y, rfl⟩
    have hchild := child_remove_through (s := s) (u := v) (x := z) j (by
      rintro key value rfl hx
      exact hkey ⟨[], key, value, by rw [List.cons_append, hz, hx]; rfl, by simp⟩)
    rw [List.cons_append, get_cons, get_cons, hz, hchild, ← hz, Option.bind_map, Option.map_bind]
    apply congrArg
    funext current
    exact ih (fun hr => hkey (hr.cons s)) current

/-- Nothing is left at or below a removed path, unless another item has the key. -/
theorem get_remove_gone {x : Path} (hx : x ≠ []) (hkey : ¬ Rekeys x x) (q : Path) (j : Json) :
    get (remove j x) (x ++ q) = none := by
  induction x generalizing j with
  | nil => exact absurd rfl hx
  | cons s x ih =>
    rw [List.cons_append, get_cons]
    cases x with
    | nil => rw [child_remove_self]; rfl
    | cons u x =>
      rw [child_remove_through j, Option.bind_map, Option.bind_eq_none_iff]
      · intro current _
        exact ih (by simp) (fun hr => hkey (hr.cons s)) current
      · rintro key value rfl hux
        exact hkey ⟨[], key, value, by rw [hux]; rfl, by simp⟩

/-- A removal where nothing lies changes nothing. -/
theorem remove_eq_self {x : Path} {j : Json} (h : get j x = none) : remove j x = j := by
  induction x generalizing j with
  | nil => cases h
  | cons s x ih =>
    cases s with
    | field name =>
      cases j with
      | object fields =>
        cases x with
        | nil =>
          have hnone : lookup name fields = none := by simpa [get_cons, Json.field] using h
          simp only [remove, eraseKey, Json.object.injEq, List.filter_eq_self]
          intro e he
          rw [lookup, Option.map_eq_none_iff, List.find?_eq_none] at hnone
          simpa using hnone e he
        | cons u x =>
          apply congrArg Json.object
          apply modifyKey_eq_self
          intro v hv
          apply ih
          rw [get_cons, child_field, Json.field, hv] at h
          exact h
      | _ => cases x <;> rfl
    | keyed key value =>
      cases j with
      | array items =>
        cases x with
        | nil =>
          have hnone : items.find? (fun item => item.strAt key = some value) = none := by
            simpa [get_cons] using h
          simp only [remove, Json.array.injEq, List.filter_eq_self]
          intro a ha
          simpa using List.find?_eq_none.mp hnone a ha
        | cons u x =>
          apply congrArg Json.array
          apply updateFirst_eq_self
          intro a ha
          apply ih
          rw [get_cons, child_array_keyed, ha] at h
          exact h
      | _ => cases x <;> rfl

end Hedronetes.Apply
