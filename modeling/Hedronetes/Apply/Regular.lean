import Hedronetes.Apply.Pruning
import Hedronetes.Apply.Removal

/-!
# Objects whose lists repeat no name

In such an object a name leads to one item at most, so that removals and pruning
only ever take paths away: a path that leads nowhere leads nowhere afterwards,
and what was removed is gone for good.
-/

namespace Hedronetes.Apply

open FirstMatch

mutual

/-- No list repeats a name, and no object repeats a member. -/
def regular : Json → Bool
  | .object fields => decide (fields.map Prod.fst).Nodup && regularFields fields
  | .array items => decide (items.filterMap (Json.strAt "name")).Nodup && regularItems items
  | _ => true

def regularFields : List (String × Json) → Bool
  | [] => true
  | (_, value) :: fields => regular value && regularFields fields

def regularItems : List Json → Bool
  | [] => true
  | item :: items => regular item && regularItems items

end

theorem regular_object (fields : List (String × Json)) : regular (.object fields) = true ↔
    (fields.map Prod.fst).Nodup ∧ ∀ e ∈ fields, regular e.2 = true := by
  have hall : regularFields fields = true ↔ ∀ e ∈ fields, regular e.2 = true := by
    induction fields with
    | nil => simp [regularFields]
    | cons e fields ih => simp [regularFields, ih]
  rw [regular, Bool.and_eq_true, decide_eq_true_eq, hall]

theorem regular_array (items : List Json) : regular (.array items) = true ↔
    (items.filterMap (Json.strAt "name")).Nodup ∧ ∀ j ∈ items, regular j = true := by
  have hall : regularItems items = true ↔ ∀ j ∈ items, regular j = true := by
    induction items with
    | nil => simp [regularItems]
    | cons j items ih => simp [regularItems, ih]
  rw [regular, Bool.and_eq_true, decide_eq_true_eq, hall]

theorem regular_child {j c : Json} {s : Segment} (h : regular j = true)
    (hc : child j s = some c) : regular c = true := by
  cases s with
  | field name =>
    cases j with
    | object fields => exact ((regular_object fields).mp h).2 (name, c) (mem_of_lookup hc)
    | _ => cases hc
  | keyed key value =>
    cases j with
    | array items => exact ((regular_array items).mp h).2 c (List.mem_of_find?_eq_some hc)
    | _ => cases hc

theorem regular_get {j v : Json} {p : Path} (h : regular j = true) (hv : get j p = some v) :
    regular v = true := by
  induction p generalizing j with
  | nil => rwa [← Option.some.inj hv]
  | cons s p ih =>
    obtain ⟨c, hc, hv⟩ := Option.bind_eq_some_iff.mp hv
    exact ih (regular_child h hc) hv

/-! ## Removals only take away -/

theorem strAt_remove_or (key : String) (j : Json) (x : Path) :
    (remove j x).strAt key = j.strAt key ∨ (remove j x).strAt key = none := by
  by_cases hx : x = [.field key]
  · rw [hx]
    exact Or.inr (strAt_remove_key key j)
  · exact Or.inl (strAt_remove hx j)

theorem regular_remove {x : Path} {j : Json} (h : regular j = true) :
    regular (remove j x) = true := by
  induction x generalizing j with
  | nil => cases j <;> exact h
  | cons s x ih =>
    cases s with
    | field name =>
      cases j with
      | object fields =>
        obtain ⟨hkeys, hvalues⟩ := (regular_object fields).mp h
        cases x with
        | nil =>
          apply (regular_object _).mpr
          constructor
          · exact hkeys.sublist (List.filter_sublist.map Prod.fst)
          · intro e he
            exact hvalues e (List.mem_of_mem_filter he)
        | cons u x =>
          apply (regular_object _).mpr
          constructor
          · rwa [map_fst_modifyKey]
          · intro e he
            rcases mem_updateFirst he with he | ⟨a, ha, _, rfl⟩
            · exact hvalues e he
            · exact ih (hvalues a ha)
      | _ => cases x <;> exact h
    | keyed key value =>
      cases j with
      | array items =>
        obtain ⟨hnames, hitems⟩ := (regular_array items).mp h
        cases x with
        | nil =>
          apply (regular_array _).mpr
          constructor
          · exact hnames.sublist (List.filter_sublist.filterMap _)
          · intro a ha
            exact hitems a (List.mem_of_mem_filter ha)
        | cons u x =>
          apply (regular_array _).mpr
          constructor
          · exact hnames.sublist
              (filterMap_updateFirst_sublist fun a => strAt_remove_or "name" a (u :: x))
          · intro a ha
            rcases mem_updateFirst ha with ha | ⟨b, hb, _, rfl⟩
            · exact hitems a ha
            · exact ih (hitems b hb)
      | _ => cases x <;> exact h

/-- The child a removal goes through is gone with its name, or is what the removal
leaves of it. -/
theorem child_remove_regular {s u : Segment} {x : Path} {j : Json} (hj : regular j = true)
    (hs : NameKeyed (s :: u :: x)) :
    child (remove j (s :: u :: x)) s = none ∨
      child (remove j (s :: u :: x)) s =
        (child j s).map fun current => remove current (u :: x) := by
  by_cases hkey : ∃ key value, s = .keyed key value ∧ u :: x = [.field key]
  · obtain ⟨key, value, rfl, hux⟩ := hkey
    obtain rfl := hs key value (by simp)
    rw [hux]
    cases j with
    | array items =>
      apply Or.inl
      apply find?_updateFirst_of_nodup ((regular_array items).mp hj).1
      intro a _
      exact strAt_remove_key "name" a
    | _ => exact Or.inl rfl
  · apply Or.inr
    apply child_remove_through
    intro key value hs hux
    exact hkey ⟨key, value, hs, hux⟩

/-- A path that leads nowhere leads nowhere after a removal. -/
theorem get_remove_eq_none {x q : Path} {j : Json} (hj : regular j = true) (hx : NameKeyed x)
    (hq : NameKeyed q) (h : get j q = none) : get (remove j x) q = none := by
  induction x generalizing j q with
  | nil =>
    have hsame : remove j [] = j := by cases j <;> rfl
    rwa [hsame]
  | cons s x ih =>
    cases q with
    | nil => cases h
    | cons t q =>
      rcases hx.apart_or_same hq with hapart | rfl
      · rw [get_cons, child_remove_apart hapart, ← get_cons, h]
      · rw [get_cons]
        cases x with
        | nil => rw [child_remove_self]; rfl
        | cons u x =>
          rcases child_remove_regular hj hx with hnone | hsome
          · rw [hnone]; rfl
          · rw [hsome, Option.bind_map, Option.bind_eq_none_iff]
            intro c hc
            rw [get_cons, hc, Option.bind_some] at h
            exact ih (regular_child hj hc) hx.tail hq.tail h

/-- Nothing is left at or below a removed path. -/
theorem get_remove_regular {x : Path} {j : Json} (hj : regular j = true) (hx : NameKeyed x)
    (hne : x ≠ []) (q : Path) : get (remove j x) (x ++ q) = none := by
  induction x generalizing j with
  | nil => exact absurd rfl hne
  | cons s x ih =>
    rw [List.cons_append, get_cons]
    cases x with
    | nil => rw [child_remove_self]; rfl
    | cons u x =>
      rcases child_remove_regular hj hx with hnone | hsome
      · rw [hnone]; rfl
      · rw [hsome, Option.bind_map, Option.bind_eq_none_iff]
        intro c hc
        exact ih (regular_child hj hc) hx.tail (by simp)

/-! ## A run of removals -/

section

variable {xs : List Path} {q : Path}

theorem regular_removals {j : Json} (hj : regular j = true) :
    regular (xs.foldl remove j) = true := by
  induction xs generalizing j with
  | nil => exact hj
  | cons x xs ih => exact ih (regular_remove hj)

theorem get_removals_eq_none {j : Json} (hj : regular j = true) (hxs : ∀ x ∈ xs, NameKeyed x)
    (hq : NameKeyed q) (h : get j q = none) : get (xs.foldl remove j) q = none := by
  induction xs generalizing j with
  | nil => exact h
  | cons x xs ih =>
    exact ih (regular_remove hj) (fun y hy => hxs y (List.mem_cons_of_mem _ hy))
      (get_remove_eq_none hj (hxs x List.mem_cons_self) hq h)

theorem get_removals_gone {j : Json} (hj : regular j = true) (hxs : ∀ x ∈ xs, NameKeyed x)
    {x : Path} (hx : x ∈ xs) (hne : x ≠ []) (hq : NameKeyed (x ++ q)) :
    get (xs.foldl remove j) (x ++ q) = none := by
  induction xs generalizing j with
  | nil => cases hx
  | cons y xs ih =>
    have hrest : ∀ z ∈ xs, NameKeyed z := fun z hz => hxs z (List.mem_cons_of_mem _ hz)
    rw [List.foldl_cons]
    rcases List.mem_cons.mp hx with rfl | hx
    · exact get_removals_eq_none (regular_remove hj) hrest hq
        (get_remove_regular hj (hxs x List.mem_cons_self) hne q)
    · exact ih (regular_remove hj) hrest hx

/-- The removals that find something to remove. -/
def effective (j : Json) (xs : List Path) : List Path :=
  xs.filter fun x => x ≠ [] ∧ (get j x).isSome

/-- The other removals do nothing. -/
theorem removals_effective {j : Json} (hj : regular j = true) (hxs : ∀ x ∈ xs, NameKeyed x) :
    xs.foldl remove j = (effective j xs).foldl remove j := by
  have hrun : ∀ k, regular k = true → (∀ x ∈ xs, get j x = none → get k x = none) →
      xs.foldl remove k = (effective j xs).foldl remove k := by
    induction xs with
    | nil => exact fun _ _ _ => rfl
    | cons x xs ih =>
      intro k hk hnone
      have hrest : ∀ z ∈ xs, NameKeyed z := fun z hz => hxs z (List.mem_cons_of_mem _ hz)
      by_cases hx : x ≠ [] ∧ (get j x).isSome
      · rw [effective, List.filter_cons_of_pos (by simpa using hx), List.foldl_cons,
          List.foldl_cons]
        apply ih hrest _ (regular_remove hk)
        intro y hy hget
        exact get_remove_eq_none hk (hxs x List.mem_cons_self) (hrest y hy)
          (hnone y (List.mem_cons_of_mem _ hy) hget)
      · have hidle : remove k x = k := by
          by_cases hnil : x = []
          · subst hnil
            cases k <;> rfl
          · have hgone : get j x = none := by simpa [hnil] using hx
            exact remove_eq_self (hnone x List.mem_cons_self hgone)
        rw [effective, List.filter_cons_of_neg (by simpa using hx), List.foldl_cons, hidle]
        exact ih hrest k hk fun y hy => hnone y (List.mem_cons_of_mem _ hy)
  exact hrun j hj fun _ _ h => h

end

/-! ## Pruning only takes away -/

/-- A child left by the pruning is what it leaves of one it keeps. -/
theorem child_prune_regular {s : Segment} {p : Path} {j c : Json} (hj : regular j = true)
    (hs : NameKeyed (s :: p)) (h : child (prune j) s = some c) :
    ∃ d, child j s = some d ∧ c = prune d ∧
      ∀ key value, s = .keyed key value → bare d = false := by
  cases s with
  | field name =>
    rw [child_field, field_prune] at h
    obtain ⟨d, hd, rfl⟩ := Option.map_eq_some_iff.mp h
    exact ⟨d, hd, rfl, fun key value he => by cases he⟩
  | keyed key value =>
    obtain rfl := hs key value (by simp)
    cases j with
    | array items =>
      rw [prune_array, child_array_keyed] at h
      have hname := List.find?_some h
      obtain ⟨hmem, hkept⟩ := List.mem_filter.mp (List.mem_of_find?_eq_some h)
      obtain ⟨d, hd, rfl⟩ := List.mem_map.mp hmem
      simp only [decide_eq_true_eq, strAt_prune] at hname
      rw [bare_prune] at hkept
      refine ⟨d, ?_, rfl, fun _ _ _ => by simpa using hkept⟩
      exact find?_eq_some_of_nodup ((regular_array items).mp hj).1 hd hname
    | object fields =>
      rw [prune_object] at h
      cases h
    | _ => cases h

theorem get_prune_regular {p : Path} {j w : Json} (hj : regular j = true) (hp : NameKeyed p)
    (h : get (prune j) p = some w) : WayKept j p ∧ ∃ v, get j p = some v ∧ w = prune v := by
  induction p generalizing j with
  | nil =>
    refine ⟨?_, j, rfl, (Option.some.inj h).symm⟩
    intro c key value a hc
    simp at hc
  | cons s p ih =>
    obtain ⟨c, hc, h⟩ := Option.bind_eq_some_iff.mp h
    obtain ⟨d, hd, rfl, hkept⟩ := child_prune_regular hj hp hc
    obtain ⟨hway, v, hv, rfl⟩ := ih (regular_child hj hd) hp.tail h
    refine ⟨?_, v, by rw [get_cons, hd]; exact hv, rfl⟩
    intro q key value a hq ha
    cases q with
    | nil =>
      rw [List.nil_append, List.cons_prefix_cons] at hq
      obtain ⟨rfl, _⟩ := hq
      rw [List.nil_append, get_cons, hd] at ha
      rw [← Option.some.inj ha]
      exact hkept key value rfl
    | cons t q =>
      rw [List.cons_append, List.cons_prefix_cons] at hq
      obtain ⟨rfl, hrest⟩ := hq
      rw [List.cons_append, get_cons, hd] at ha
      exact hway q key value a hrest ha

/-- An item that pruning keeps has a member besides its name. -/
theorem field_of_kept {j : Json} {value : String} (hj : regular j = true)
    (hname : j.strAt "name" = some value) (h : bare j = false) :
    ∃ name, name ≠ "name" ∧ (j.field name).isSome := by
  have hfield := Json.strAt_eq_some.mp hname
  cases j with
  | object fields =>
    have hkeys := ((regular_object fields).mp hj).1
    obtain ⟨e, he, hne⟩ : ∃ e ∈ fields, e.1 ≠ "name" := by
      match fields, hfield with
      | [], hfield => cases hfield
      | [e], hfield =>
        have hlookup : lookup "name" [e] = some (.string value) := hfield
        simp [bare, Json.asObject, hlookup] at h
      | e :: f :: rest, _ =>
        by_cases he : e.1 = "name"
        · refine ⟨f, by simp, fun hf => ?_⟩
          simp [he, hf] at hkeys
        · exact ⟨e, by simp, he⟩
    refine ⟨e.1, hne, ?_⟩
    simp only [Json.field, lookup, Option.isSome_map, List.find?_isSome]
    exact ⟨e, he, by simp⟩
  | _ => cases hfield

end Hedronetes.Apply
