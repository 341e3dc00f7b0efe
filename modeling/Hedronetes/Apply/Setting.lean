import Hedronetes.Apply.Paths

/-!
# What a write leaves

Writing the value another object has at a path: the path then reads that value,
and every path that parts from it reads what it read, as long as its merge key
is not created by the write. The value written matters only in that an item
found by a key carries the key, so that no item changes its own.
-/

namespace Hedronetes.Apply

open FirstMatch Fallible

/-- What a missing child is created as, by its segment and the path after it. -/
def fresh : Segment → Path → Json
  | .field _, path => emptyFor path
  | .keyed key value, _ => .object [(key, .string value)]

theorem put_string_ne_ok (value : String) (s : Segment) (x : Path) (w j : Json) :
    put (.string value) (s :: x) w ≠ .ok j := by
  cases s <;> simp [put]

theorem put_field_ok {j j' w : Json} {name : String} {x : Path}
    (h : put j (.field name :: x) w = .ok j') :
    ∃ fields current, j = .object fields ∧
      put ((lookup name fields).getD (emptyFor x)) x w = .ok current ∧
      j' = .object (insertKey name current fields) := by
  cases j with
  | object fields =>
    obtain ⟨current, hcurrent, he⟩ := bind_eq_ok.mp h
    exact ⟨fields, current, rfl, hcurrent, (Except.ok.inj he).symm⟩
  | _ => cases h

theorem put_keyed_ok {j j' w : Json} {key value : String} {x : Path}
    (h : put j (.keyed key value :: x) w = .ok j') :
    ∃ items current, j = .array items ∧
      put ((child j (.keyed key value)).getD (fresh (.keyed key value) x)) x w = .ok current ∧
      j' = .array (match child j (.keyed key value) with
        | some _ => updateFirst (fun item => item.strAt key = some value) (fun _ => current) items
        | none => items ++ [current]) := by
  cases j with
  | array items =>
    rw [child_array_keyed]
    unfold put at h
    cases hfind : items.find? fun item => item.strAt key = some value with
    | none =>
      simp only [hfind] at h
      obtain ⟨current, hcurrent, he⟩ := bind_eq_ok.mp h
      exact ⟨items, current, rfl, hcurrent, (Except.ok.inj he).symm⟩
    | some a =>
      simp only [hfind] at h
      obtain ⟨current, hcurrent, he⟩ := bind_eq_ok.mp h
      exact ⟨items, current, rfl, hcurrent, (Except.ok.inj he).symm⟩
  | _ => cases h

theorem isObject_put {w w' k : Json} {s : Segment} {x : Path} (h : w.isObject = true)
    (hput : put w (s :: x) k = .ok w') : w'.isObject = true := by
  obtain ⟨fields, rfl⟩ := Json.isObject_iff.mp h
  cases s with
  | field name =>
    obtain ⟨_, _, _, _, rfl⟩ := put_field_ok hput
    rfl
  | keyed key value => cases hput

/-- An item keeps its key through a write of values that carry it. -/
theorem strAt_put {i i' a w : Json} {key value : String} {x : Path} (h : put i x w = .ok i')
    (ha : get a x = some w) (hsource : a.strAt key = some value)
    (hi : i.strAt key = some value) : i'.strAt key = some value := by
  cases x with
  | nil =>
    rw [← Except.ok.inj h, ← Option.some.inj ha]
    exact hsource
  | cons s x =>
    cases s with
    | field name =>
      obtain ⟨fields, current, rfl, hcurrent, rfl⟩ := put_field_ok h
      rw [Json.strAt_eq_some] at hi ⊢
      by_cases hname : name = key
      · subst hname
        change lookup name fields = _ at hi
        rw [hi, Option.getD_some] at hcurrent
        cases x with
        | nil =>
          rw [get_cons, child_field, Json.strAt_eq_some.mp hsource] at ha
          rw [← Except.ok.inj hcurrent, ← Option.some.inj ha]
          exact lookup_insertKey name _ fields
        | cons t x => exact absurd hcurrent (put_string_ne_ok value t x w current)
      · have hne : key ≠ name := fun he => hname he.symm
        exact (lookup_insertKey_ne hne current fields).trans hi
    | keyed other value' =>
      obtain ⟨items, _, rfl, _, _⟩ := put_keyed_ok h
      cases hi

theorem strAt_fresh (key value : String) (x : Path) :
    (fresh (.keyed key value) x).strAt key = some value := by
  simp [fresh, Json.strAt, Json.field, lookup, Json.asString]

/-- One segment of a write: the child it goes through, and every other child. -/
theorem put_cons {j j' a w : Json} {s : Segment} {x : Path} (h : put j (s :: x) w = .ok j')
    (ha : get a (s :: x) = some w) :
    ∃ current, put ((child j s).getD (fresh s x)) x w = .ok current ∧
      child j' s = some current ∧ ∀ t, s.Apart t → child j' t = child j t := by
  cases s with
  | field name =>
    obtain ⟨fields, current, rfl, hcurrent, rfl⟩ := put_field_ok h
    refine ⟨current, hcurrent, lookup_insertKey name current fields, ?_⟩
    intro t ht
    cases t with
    | field other => exact lookup_insertKey_ne (fun he => ht he.symm) current fields
    | keyed key value => rfl
  | keyed key value =>
    obtain ⟨items, current, rfl, hcurrent, rfl⟩ := put_keyed_ok h
    obtain ⟨source, hsource, hget⟩ := Option.bind_eq_some_iff.mp ha
    have hstart : ((child (.array items) (.keyed key value)).getD
        (fresh (.keyed key value) x)).strAt key = some value := by
      cases hfind : child (.array items) (.keyed key value) with
      | none => exact strAt_fresh key value x
      | some b => exact child_keyed_strAt hfind
    have hkey : current.strAt key = some value :=
      strAt_put hcurrent hget (child_keyed_strAt hsource) hstart
    refine ⟨current, hcurrent, ?_, ?_⟩
    · rw [child_array_keyed, child_array_keyed]
      cases hfind : items.find? fun item => item.strAt key = some value with
      | none => simp [hfind, hkey]
      | some b =>
        change (updateFirst _ _ items).find? _ = _
        rw [find?_updateFirst (fun _ _ => by simpa using hkey), hfind]
        rfl
    · intro t ht
      cases t with
      | field other => rfl
      | keyed other value' =>
        obtain ⟨rfl, hne⟩ := ht
        have hother : decide (current.strAt key = some value') = false := by
          rw [hkey]
          simpa using hne
        rw [child_array_keyed, child_array_keyed, child_array_keyed]
        cases hfind : items.find? fun item => item.strAt key = some value with
        | none => simp [List.find?_append, hother]
        | some b =>
          change (updateFirst _ _ items).find? _ = _
          apply find?_updateFirst_of_not
          · intro c hc
            simp only [decide_eq_true_eq] at hc
            simpa [hc] using hne
          · exact fun _ _ => hother

/-- What was written is read back. -/
theorem get_put {j j' a w : Json} {x : Path} (h : put j x w = .ok j') (ha : get a x = some w) :
    get j' x = some w := by
  induction x generalizing j j' a with
  | nil => rw [← Except.ok.inj h]; rfl
  | cons s x ih =>
    obtain ⟨current, hcurrent, hchild, _⟩ := put_cons h ha
    obtain ⟨source, _, hget⟩ := Option.bind_eq_some_iff.mp ha
    rw [get_cons, hchild, Option.bind_some]
    exact ih hcurrent hget

/-- Writing what is there changes nothing. -/
theorem put_same {j w : Json} {x : Path} (h : get j x = some w) : put j x w = .ok j := by
  induction x generalizing j with
  | nil => rw [Option.some.inj h]; rfl
  | cons s x ih =>
    obtain ⟨current, hchild, hget⟩ := Option.bind_eq_some_iff.mp h
    have hput := ih hget
    cases s with
    | field name =>
      cases j with
      | object fields =>
        change lookup name fields = some current at hchild
        simp only [put, hchild, Option.getD_some, hput, bind, Except.bind, pure, Except.pure]
        rw [insertKey_eq_self hchild]
      | _ => cases hchild
    | keyed key value =>
      cases j with
      | array items =>
        rw [child_array_keyed] at hchild
        simp only [put, hchild, hput, bind, Except.bind, pure, Except.pure]
        rw [updateFirst_eq_self]
        intro b hb
        exact Option.some.inj (hchild.symm.trans hb)
      | _ => cases hchild

/-- What a created container holds: its merge key, and nothing else. -/
theorem get_fresh {s : Segment} {p : Path} (x : Path) (hp : p ≠ [])
    (hkey : ∀ key value, s = .keyed key value → p ≠ [.field key]) : get (fresh s x) p = none := by
  cases p with
  | nil => exact absurd rfl hp
  | cons t p =>
    cases s with
    | field name =>
      cases x with
      | nil => cases t <;> rfl
      | cons u x => cases u <;> cases t <;> rfl
    | keyed key value =>
      cases t with
      | keyed other value' => rfl
      | field other =>
        rw [get_cons, fresh, child_field]
        by_cases ho : key = other
        · subst ho
          cases p with
          | nil => exact absurd rfl (hkey key value rfl)
          | cons u p => cases u <;> simp [Json.field, lookup, get_cons, child, item, Json.asArray]
        · simp [Json.field, lookup, ho]

/-- A write leaves every path that parts from it, unless it creates an item whose
key the path reads. -/
theorem get_put_apart {j j' a w : Json} {x p : Path} (h : put j x w = .ok j')
    (ha : get a x = some w) (hp : Apart x p) (hkey : Rekeys p x → (get j p).isSome) :
    get j' p = get j p := by
  induction x generalizing j j' a p with
  | nil => exact hp.elim
  | cons s x ih =>
    cases p with
    | nil => exact hp.elim
    | cons t p =>
      obtain ⟨current, hcurrent, hchild, hothers⟩ := put_cons h ha
      obtain ⟨source, _, hget⟩ := Option.bind_eq_some_iff.mp ha
      rw [get_cons, get_cons]
      rcases hp with hp | ⟨rfl, hp⟩
      · rw [hothers t hp]
      · rw [hchild, Option.bind_some]
        cases hstart : child j s with
        | some start =>
          rw [hstart, Option.getD_some] at hcurrent
          exact ih hcurrent hget hp fun hr => by
            have hsome := hkey (hr.cons s)
            rwa [get_cons, hstart, Option.bind_some] at hsome
        | none =>
          rw [hstart, Option.getD_none] at hcurrent
          have hne : p ≠ [] := fun he => by
            subst he
            cases x with
            | nil => exact hp
            | cons u x => exact hp
          have hmissing : get j (s :: p) = none := by rw [get_cons, hstart]; rfl
          have hfresh : get (fresh s x) p = none := by
            apply get_fresh x hne
            rintro key value rfl rfl
            have hr : Rekeys [.keyed key value, .field key] (.keyed key value :: x) :=
              ⟨[], key, value, rfl, by simp⟩
            have hsome := hkey hr
            rw [hmissing] at hsome
            cases hsome
          rw [ih hcurrent hget hp fun hr => ?_, hfresh]
          · rfl
          · have hsome := hkey (hr.cons s)
            rw [hmissing] at hsome
            cases hsome

/-- A write below a path is a write inside its value, or inside the container
created for it. -/
theorem get_put_below {j j' a w : Json} {p y : Path} (h : put j (p ++ y) w = .ok j')
    (ha : get a (p ++ y) = some w) :
    ∃ v', get j' p = some v' ∧ ∀ v, get j p = some v → put v y w = .ok v' := by
  induction p generalizing j j' a with
  | nil => exact ⟨j', rfl, fun v hv => Option.some.inj hv ▸ h⟩
  | cons s p ih =>
    obtain ⟨current, hcurrent, hchild, _⟩ := put_cons h ha
    obtain ⟨source, _, hget⟩ := Option.bind_eq_some_iff.mp ha
    obtain ⟨v', hv', hput⟩ := ih hcurrent hget
    refine ⟨v', by rw [get_cons, hchild]; exact hv', fun v hv => ?_⟩
    obtain ⟨start, hstart, hv⟩ := Option.bind_eq_some_iff.mp hv
    rw [hstart, Option.getD_some] at hput
    exact hput v hv

end Hedronetes.Apply
