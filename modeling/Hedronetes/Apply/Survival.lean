import Hedronetes.Apply.Pruning
import Hedronetes.Apply.Removal

/-!
# What survives a run of removals and the pruning

A run of removals that leads beside a path, or below it, leaves the path and each
item on its way, and what it does to the value there is what the removals below
it do. Pruning then keeps the path if every list item on its way has a field
besides its name left.
-/

namespace Hedronetes.Apply

open FirstMatch

variable {stored v : Json} {xs : List Path} {p : Path}

/-- The removals lead beside the path or below it, and take the merge key of no item
on its way. -/
def Sparing (stored : Json) (xs : List Path) (p : Path) : Prop :=
  ∀ x ∈ xs, Beside x p ∧ (Rekeys x p → get stored x = none)

theorem Sparing.of_through {q : Path} (h : Sparing stored xs p) (hq : q <+: p) :
    Sparing stored xs q := by
  intro x hx
  obtain ⟨hbeside, hkey⟩ := h x hx
  exact ⟨hbeside.of_through hq, fun hr => hkey (hr.mono hq)⟩

theorem Sparing.field {q : Path} {name : String} (h : Sparing stored xs q)
    (hname : q ++ [.field name] ∉ xs) : Sparing stored xs (q ++ [.field name]) := by
  intro x hx
  obtain ⟨hbeside, hkey⟩ := h x hx
  refine ⟨hbeside.field ?_, fun hr => hkey (rekeys_field hr)⟩
  rintro rfl
  exact hname hx

/-- Where the items on the way are as they were, a merge key that was not there is not
there to be removed. -/
theorem idle_rekey {j : Json} {x : Path} (hr : Rekeys x p)
    (hway : ∀ q, q <+: p → (get j q).isSome = (get stored q).isSome) (h : get stored x = none) :
    remove j x = j := by
  obtain ⟨c, key, value, rfl, hc⟩ := hr
  apply remove_eq_self
  have hitem : get stored (c ++ [.keyed key value]) = none := by
    cases ha : get stored (c ++ [.keyed key value]) with
    | none => rfl
    | some a =>
      rw [get_key ha] at h
      cases h
  have hgone := hway _ hc
  rw [hitem, Option.isSome_none, Option.isSome_eq_false_iff, Option.isNone_iff_eq_none] at hgone
  have hsplit : c ++ [.keyed key value, .field key] = c ++ [.keyed key value] ++ [.field key] := by
    simp
  rw [hsplit, get_append, hgone]
  rfl

/-- One removal of the run: the path and its way stay. -/
theorem Sparing.step {j : Json} {x : Path} (h : Sparing stored (x :: xs) p)
    (hway : ∀ q, q <+: p → (get j q).isSome = (get stored q).isSome) :
    remove j x = j ∨ ¬ Rekeys x p := by
  by_cases hr : Rekeys x p
  · exact Or.inl (idle_rekey hr hway ((h x List.mem_cons_self).2 hr))
  · exact Or.inr hr

theorem isSome_remove {j : Json} {x : Path} (h : Beside x p) (hkey : ¬ Rekeys x p) :
    (get (remove j x) p).isSome = (get j p).isSome := by
  rcases h with h | ⟨u, y, rfl⟩
  · rw [get_remove_apart h hkey]
  · rw [get_remove_below hkey, Option.isSome_map]

/-- The run of removals leaves the path and its way. -/
theorem Sparing.isSome (h : Sparing stored xs p) :
    (get (xs.foldl remove stored) p).isSome = (get stored p).isSome := by
  have hrun : ∀ ys j, Sparing stored ys p →
      (∀ q, q <+: p → (get j q).isSome = (get stored q).isSome) →
        (get (ys.foldl remove j) p).isSome = (get stored p).isSome := by
    intro ys
    induction ys with
    | nil => exact fun j _ hway => hway p (List.prefix_refl p)
    | cons x ys ih =>
      intro j hys hway
      apply ih _ fun y hy => hys y (List.mem_cons_of_mem _ hy)
      intro q hq
      rcases hys.step hway with hidle | hkey
      · rw [hidle]
        exact hway q hq
      · rw [isSome_remove ((hys x List.mem_cons_self).1.of_through hq)
          fun hr => hkey (hr.mono hq)]
        exact hway q hq
  exact hrun xs stored h fun _ _ => rfl

/-- What the removals below the path keep of its value, the run keeps. -/
theorem Sparing.value {K : Json → Prop} (h : Sparing stored xs p)
    (hstep : ∀ u y w, p ++ u :: y ∈ xs → K w → K (remove w (u :: y)))
    (hv : get stored p = some v) (hK : K v) :
    ∃ w, get (xs.foldl remove stored) p = some w ∧ K w := by
  have hrun : ∀ ys j, Sparing stored ys p → ys ⊆ xs →
      (∀ q, q <+: p → (get j q).isSome = (get stored q).isSome) →
        (∃ w, get j p = some w ∧ K w) → ∃ w, get (ys.foldl remove j) p = some w ∧ K w := by
    intro ys
    induction ys with
    | nil => exact fun j _ _ _ hj => hj
    | cons x ys ih =>
      intro j hys hsub hway hj
      have hspare := hys x List.mem_cons_self
      have hrest : Sparing stored ys p := fun y hy => hys y (List.mem_cons_of_mem _ hy)
      rw [List.foldl_cons]
      rcases hys.step hway with hidle | hkey
      · rw [hidle]
        exact ih j hrest (fun y hy => hsub (List.mem_cons_of_mem _ hy)) hway hj
      · apply ih _ hrest fun y hy => hsub (List.mem_cons_of_mem _ hy)
        · intro q hq
          rw [isSome_remove (hspare.1.of_through hq) fun hr => hkey (hr.mono hq)]
          exact hway q hq
        · obtain ⟨w, hw, hKw⟩ := hj
          rcases hspare.1 with hapart | ⟨u, y, rfl⟩
          · exact ⟨w, by rw [get_remove_apart hapart hkey, hw], hKw⟩
          · refine ⟨remove w (u :: y), ?_, hstep u y w (hsub List.mem_cons_self) hKw⟩
            rw [get_remove_below hkey, hw]
            rfl
  exact hrun xs stored h (List.Subset.refl xs) (fun _ _ => rfl) ⟨v, hv, hK⟩

/-! ## The pruning -/

/-- Every list item on the way of the path has a field besides its name that is not
removed. -/
def WayHeld (stored : Json) (xs : List Path) (p : Path) : Prop :=
  ∀ c key value a, c ++ [.keyed key value] <+: p →
    get stored (c ++ [.keyed key value]) = some a →
      ∃ name, name ≠ "name" ∧ (a.field name).isSome ∧ c ++ [.keyed key value, .field name] ∉ xs

theorem WayHeld.kept (h : Sparing stored xs p) (hway : WayHeld stored xs p) :
    WayKept (xs.foldl remove stored) p := by
  intro c key value a hc ha
  have hspare := h.of_through hc
  have hitem := hspare.isSome
  rw [ha, Option.isSome_some] at hitem
  obtain ⟨b, hb⟩ := Option.isSome_iff_exists.mp hitem.symm
  obtain ⟨name, hname, hfield, hkept⟩ := hway c key value b hc hb
  have hsplit : c ++ [.keyed key value, .field name] = c ++ [.keyed key value] ++ [.field name] := by
    simp
  rw [hsplit] at hkept
  have hstays := (hspare.field hkept).isSome
  rw [get_append_field ha, get_append_field hb, hfield] at hstays
  obtain ⟨w, hw⟩ := Option.isSome_iff_exists.mp hstays
  exact bare_eq_false hw hname

/-- Nothing removed meets the path, every list item on its way keeps a field besides
its name, and its value holds no item that pruning drops. -/
structure Undisturbed (stored : Json) (xs : List Path) (p : Path) : Prop where
  apart : ∀ x ∈ xs, Apart x p
  sparing : ∀ x ∈ xs, Rekeys x p → get stored x = none
  way : WayHeld stored xs p
  inside : ∀ v, get stored p = some v → noBare v = true

/-- The removals and the pruning keep what an undisturbed path holds. -/
theorem Undisturbed.kept (h : Undisturbed stored xs p) :
    get (prune (xs.foldl remove stored)) p = get stored p := by
  have hspare : Sparing stored xs p := fun x hx => ⟨Or.inl (h.apart x hx), h.sparing x hx⟩
  rw [get_prune (WayHeld.kept hspare h.way)]
  cases hv : get stored p with
  | none =>
    have hnone := hspare.isSome
    rw [hv, Option.isSome_none, Option.isSome_eq_false_iff, Option.isNone_iff_eq_none] at hnone
    rw [hnone]
    rfl
  | some v =>
    obtain ⟨w, hw, rfl⟩ := hspare.value (K := fun w => w = v)
      (fun u y _ hx _ => absurd (h.apart _ hx) (not_apart_through p (u :: y))) hv rfl
    rw [hw, Option.map_some, (prune_eq_self_iff w).mpr (h.inside w hv)]

end Hedronetes.Apply
