import Hedronetes.Apply.Ownership

/-!
# The frame of an apply

An apply may change what the applied object declares and what its manager owned
before. Everything else in the stored object is its frame: values it keeps,
containers it keeps as such, and the order of the list items it does not mention.
Pruning is what breaks the frame, since it drops items over the whole object.
-/

namespace Hedronetes.Apply

open FirstMatch Fallible

variable {text : JsonText} {time : String}
  {stored applied desired merged result : Json} {options : Options}

/-! ## What an apply may change -/

/-- A claimed path lies at the path or above it. -/
def Claimed (ts : List Path) (p : Path) : Prop := ∃ t ∈ ts, t <+: p

/-- A claimed path lies at the path, above it or below it. -/
def Met (ts : List Path) (p : Path) : Prop := ∃ t ∈ ts, t <+: p ∨ p <+: t

/-- No claimed path enters the list item. -/
def unmentioned (ts : List Path) (p : Path) (item : Json) : Bool :=
  match item.strAt "name" with
  | some name => decide (¬ ∃ t ∈ ts, p ++ [.keyed "name" name] <+: t)
  | none => true

/-- The path enters a list item of which the removals leave at most the name. -/
def LeftEmpty (stored : Json) (xs : List Path) (p : Path) : Prop :=
  ∃ c value a, c ++ [.keyed "name" value] <+: p ∧
    get stored (c ++ [.keyed "name" value]) = some a ∧
    (∀ name, name ≠ "name" → (a.field name).isSome →
      c ++ [.keyed "name" value, .field name] ∈ xs) ∧
    ∃ name, (a.field name).isSome ∧ c ++ [.keyed "name" value, .field name] ∈ xs

/-- The objects in which pruning drops nothing that is not claimed. -/
structure Sturdy (stored desired : Json) (ts xs : List Path) : Prop where
  /-- A value beside the claimed paths holds no item that pruning drops. -/
  beside : ∀ p v, NameKeyed p → ¬ Met ts p → get stored p = some v → noBare v = true
  /-- Nor do the items of a list that the apply does not mention. -/
  items : ∀ p items, NameKeyed p → ¬ Claimed ts p → get stored p = some (.array items) →
    ∀ a ∈ items, unmentioned ts p a = true → bare a = false ∧ noBare a = true
  /-- An item found by its name has another field, or its name is dropped or declared. -/
  named : ∀ c value a, NameKeyed c → ¬ Claimed ts (c ++ [.keyed "name" value]) →
    get stored (c ++ [.keyed "name" value]) = some a →
      (∃ name, name ≠ "name" ∧ (a.field name).isSome) ∨
        c ++ [.keyed "name" value, .field "name"] ∈ xs ∨
        c ++ [.keyed "name" value, .field "name"] ∈ declared desired ∧
          (get desired (c ++ [.keyed "name" value, .field "name"])).isSome ∧ regular stored = true
  /-- An item whose name is dropped is dropped as a whole. -/
  keys : ∀ c value a, c ++ [.keyed "name" value, .field "name"] ∈ xs →
    get stored (c ++ [.keyed "name" value]) = some a →
      LeftEmpty stored xs (c ++ [.keyed "name" value])
  keyed : ∀ x ∈ xs, NameKeyed x

theorem Claimed.mono {ts : List Path} {p q : Path} (h : Claimed ts p) (hp : p <+: q) :
    Claimed ts q := by
  obtain ⟨t, ht, hthrough⟩ := h
  exact ⟨t, ht, hthrough.trans hp⟩

theorem LeftEmpty.mono {xs : List Path} {p q : Path} (h : LeftEmpty stored xs p) (hp : p <+: q) :
    LeftEmpty stored xs q := by
  obtain ⟨c, value, a, hc, ha, hfields, hname⟩ := h
  exact ⟨c, value, a, hc.trans hp, ha, hfields, hname⟩

variable {ts xs : List Path} {p : Path}

theorem unmentioned_eq_false {name : String} {a : Json} {y : Path}
    (ht : p ++ .keyed "name" name :: y ∈ ts) (ha : a.strAt "name" = some name) :
    unmentioned ts p a = false := by
  have hthrough : ∃ t ∈ ts, p ++ [.keyed "name" name] <+: t :=
    ⟨_, ht, y, by simp⟩
  simp [unmentioned, ha, hthrough]

/-- The drops lead beside a path that is not claimed, or below it. -/
theorem Sturdy.sparing (hs : Sturdy stored desired ts xs) (hxs : ∀ x ∈ xs, x ∈ ts)
    (hp : NameKeyed p) (hclaimed : ¬ Claimed ts p) (hempty : ¬ LeftEmpty stored xs p) :
    Sparing stored xs p := by
  intro x hx
  constructor
  · rcases (hs.keyed x hx).apart_or_through hp with hapart | hthrough | ⟨y, rfl⟩
    · exact Or.inl hapart
    · exact absurd ⟨x, hxs x hx, hthrough⟩ hclaimed
    · cases y with
      | nil => exact absurd ⟨_, hxs _ hx, by simp⟩ hclaimed
      | cons u y => exact Or.inr ⟨u, y, rfl⟩
  · rintro ⟨c, key, value, rfl, hc⟩
    obtain rfl : key = "name" := hs.keyed _ hx key value (by simp)
    cases ha : get stored (c ++ [.keyed "name" value]) with
    | none =>
      have hsplit : c ++ [.keyed "name" value, .field "name"] =
          c ++ [.keyed "name" value] ++ [.field "name"] := by simp
      rw [hsplit, get_append, ha]
      rfl
    | some a => exact absurd ((hs.keys c value a hx ha).mono hc) hempty

/-- A list item on the way that pruning drops and a write brings back. -/
def Restored (stored desired : Json) (p : Path) : Prop :=
  ∃ c value a, c ++ [.keyed "name" value] <+: p ∧
    get stored (c ++ [.keyed "name" value]) = some a ∧
    (∀ name, name ≠ "name" → a.field name = none) ∧
    c ++ [.keyed "name" value, .field "name"] ∈ declared desired ∧
    (get desired (c ++ [.keyed "name" value, .field "name"])).isSome ∧ regular stored = true

theorem NameKeyed.of_through {q : Path} (hp : NameKeyed p) (hq : q <+: p) : NameKeyed q :=
  fun key value hmem => hp key value (hq.subset hmem)

theorem Sturdy.way (hs : Sturdy stored desired ts xs) (hp : NameKeyed p)
    (hclaimed : ¬ Claimed ts p) (hempty : ¬ LeftEmpty stored xs p)
    (hrestored : ¬ Restored stored desired p) : WayHeld stored xs p := by
  intro c key value a hc ha
  obtain rfl : key = "name" := hp key value (hc.subset (by simp))
  have hkeyed : NameKeyed c := hp.of_through ((List.prefix_append c _).trans hc)
  have hbeside : ¬ Claimed ts (c ++ [.keyed "name" value]) := fun h => hclaimed (h.mono hc)
  by_contra hnone
  push Not at hnone
  rcases hs.named c value a hkeyed hbeside ha with ⟨name, hne, hsome⟩ | hx | ⟨hd, hvalue, hreg⟩
  · exact hempty ⟨c, value, a, hc, ha, hnone, name, hsome, hnone name hne hsome⟩
  · exact hempty ((hs.keys c value a hx ha).mono hc)
  · by_cases hfields : ∀ name, name ≠ "name" → a.field name = none
    · exact hrestored ⟨c, value, a, hc, ha, hfields, hd, hvalue, hreg⟩
    · push Not at hfields
      obtain ⟨name, hne, hsome⟩ := hfields
      have hsome := Option.isSome_iff_ne_none.mpr hsome
      exact hempty ⟨c, value, a, hc, ha, hnone, name, hsome, hnone name hne hsome⟩

/-- Beyond its name, a restored item has nothing. -/
theorem Restored.beyond (h : Restored stored desired p) (hds : ∀ d ∈ declared desired, d ∈ ts)
    (hclaimed : ¬ Claimed ts p) : get stored p = none ∨
      ∃ c value, p = c ++ [.keyed "name" value] ∧
        c ++ [.keyed "name" value, .field "name"] ∈ declared desired ∧
        (get desired (c ++ [.keyed "name" value, .field "name"])).isSome := by
  obtain ⟨c, value, a, ⟨q, rfl⟩, ha, hfields, hd, hvalue, _⟩ := h
  cases q with
  | nil => exact Or.inr ⟨c, value, by simp, hd, hvalue⟩
  | cons s q =>
    apply Or.inl
    rw [get_append, ha, Option.bind_some, get_cons]
    cases s with
    | field name =>
      by_cases hname : name = "name"
      · subst hname
        exact absurd ⟨_, hds _ hd, q, by simp⟩ hclaimed
      · rw [child_field, hfields name hname]
        rfl
    | keyed key other =>
      have hstr := strAt_of_get ha
      cases a with
      | array items => cases hstr
      | _ => rfl

/-- A path that nothing claimed meets reads in the merged object what it read. -/
theorem Sturdy.kept (hs : Sturdy stored desired ts xs) (hxs : ∀ x ∈ xs, x ∈ ts)
    (hds : ∀ d ∈ declared desired, d ∈ ts) (hp : NameKeyed p) (hmet : ¬ Met ts p)
    (hempty : ¬ LeftEmpty stored xs p)
    (hmerged : (declared desired).foldlM (settle desired) (prune (xs.foldl remove stored)) =
      .ok merged) : get merged p = get stored p := by
  have hclaimed : ¬ Claimed ts p := fun ⟨t, ht, hthrough⟩ => hmet ⟨t, ht, Or.inl hthrough⟩
  have hspare := hs.sparing hxs hp hclaimed hempty
  have hapart : ∀ t ∈ ts, NameKeyed t → Apart t p := by
    intro t ht hkeyed
    rcases hkeyed.apart_or_through hp with h | h | h
    · exact h
    · exact absurd ⟨t, ht, Or.inl h⟩ hmet
    · exact absurd ⟨t, ht, Or.inr h⟩ hmet
  rw [get_settles_apart
    (fun d hd _ => hapart d (hds d hd) (mem_declared.mp hd).nameKeyed) hmerged]
  by_cases hrestored : Restored stored desired p
  · rcases hrestored.beyond hds hclaimed with hnone | ⟨c, value, rfl, hd, _⟩
    · obtain ⟨_, _, _, _, _, _, _, _, hreg⟩ := hrestored
      rw [hnone]
      exact get_kept_eq_none hreg hs.keyed hp hnone
    · exact absurd ⟨_, hds _ hd, Or.inr ⟨[.field "name"], by simp⟩⟩ hmet
  · apply Undisturbed.kept
    constructor
    · exact fun x hx => hapart x (hxs x hx) (hs.keyed x hx)
    · exact fun x hx => (hspare x hx).2
    · exact hs.way hp hclaimed hempty hrestored
    · exact fun v hv => hs.beside p v hp hmet hv

/-! ## Containers in the frame -/

/-- What the removals and writes below a path, and the pruning, keep of its value, the
merged object has there. -/
theorem Sturdy.inner {K : Json → Prop} {v : Json} (hs : Sturdy stored desired ts xs)
    (hxs : ∀ x ∈ xs, x ∈ ts) (hds : ∀ d ∈ declared desired, d ∈ ts) (hp : NameKeyed p)
    (hclaimed : ¬ Claimed ts p) (hempty : ¬ LeftEmpty stored xs p)
    (hrestored : ¬ Restored stored desired p)
    (hmerged : (declared desired).foldlM (settle desired) (prune (xs.foldl remove stored)) =
      .ok merged)
    (hremove : ∀ u y w, p ++ u :: y ∈ ts → NameKeyed (p ++ u :: y) → K w →
      K (remove w (u :: y)))
    (hprune : ∀ w, K w → K (prune w))
    (hput : ∀ u y w w' k, p ++ u :: y ∈ ts → NameKeyed (p ++ u :: y) →
      put w (u :: y) k = .ok w' → K w → K w')
    (hv : get stored p = some v) (hK : K v) : ∃ w, get merged p = some w ∧ K w := by
  have hspare := hs.sparing hxs hp hclaimed hempty
  have hway := hs.way hp hclaimed hempty hrestored
  obtain ⟨w, hw, hKw⟩ := hspare.value
    (fun u y w hx => hremove u y w (hxs _ hx) (hs.keyed _ hx)) hv hK
  have hpruned : get (prune (xs.foldl remove stored)) p = some (prune w) := by
    rw [get_prune (WayHeld.kept hspare hway), hw]
    rfl
  apply settles_invariant (I := fun j => ∃ w, get j p = some w ∧ K w) _ hmerged
    ⟨_, hpruned, hprune w hKw⟩
  rintro d hd _ j j' k hk hdput ⟨u, hu, hKu⟩
  rcases (mem_declared.mp hd).nameKeyed.apart_or_through hp with hapart | hthrough | ⟨y, rfl⟩
  · refine ⟨u, ?_, hKu⟩
    rw [get_put_apart hdput hk hapart fun _ => by simp [hu], hu]
  · exact absurd ⟨d, hds d hd, hthrough⟩ hclaimed
  · cases y with
    | nil => exact absurd ⟨_, hds _ hd, by simp⟩ hclaimed
    | cons s y =>
      obtain ⟨u', hu', hdown⟩ := get_put_below hdput hk
      exact ⟨u', hu', hput s y u u' k (hds _ hd) (mem_declared.mp hd).nameKeyed (hdown u hu) hKu⟩

/-- An object in the frame stays an object. -/
theorem Sturdy.object {v : Json} (hs : Sturdy stored desired ts xs) (hxs : ∀ x ∈ xs, x ∈ ts)
    (hds : ∀ d ∈ declared desired, d ∈ ts) (hdesired : dropBookkeeping applied = .ok desired)
    (hp : NameKeyed p) (hclaimed : ¬ Claimed ts p) (hempty : ¬ LeftEmpty stored xs p)
    (hmerged : (declared desired).foldlM (settle desired) (prune (xs.foldl remove stored)) =
      .ok merged)
    (hv : get stored p = some v) (hobject : v.isObject = true) :
    ∃ w, get merged p = some w ∧ w.isObject = true := by
  by_cases hrestored : Restored stored desired p
  · rcases hrestored.beyond hds hclaimed with hnone | ⟨c, value, rfl, hd, hvalue⟩
    · rw [hnone] at hv
      cases hv
    · -- The write of its name makes the item anew.
      have hread := get_settles hd (fun he => nil_not_declared hdesired (he ▸ hd)) hvalue
        hmerged []
      rw [List.append_nil] at hread
      obtain ⟨name, hname⟩ := Option.isSome_iff_exists.mp hvalue
      have hsplit : c ++ [.keyed "name" value, .field "name"] =
          c ++ [.keyed "name" value] ++ [.field "name"] := by simp
      rw [hname, hsplit, get_append] at hread
      obtain ⟨w, hw, hfield⟩ := Option.bind_eq_some_iff.mp hread
      obtain ⟨n, hn, _⟩ := Option.bind_eq_some_iff.mp hfield
      exact ⟨w, hw, Json.isObject_of_field hn⟩
  · apply hs.inner (K := fun w => w.isObject = true) hxs hds hp hclaimed hempty hrestored hmerged
      _ _ _ hv hobject
    · exact fun u y w _ _ hw => isObject_remove hw (u :: y)
    · intro w hw
      obtain ⟨fields, rfl⟩ := Json.isObject_iff.mp hw
      rw [prune_object]
      rfl
    · exact fun u y w w' k _ _ hput hw => isObject_put hw hput

/-- A restored item is an object, so no list or scalar is one. -/
theorem Restored.object {v : Json} (h : Restored stored desired p)
    (hds : ∀ d ∈ declared desired, d ∈ ts) (hclaimed : ¬ Claimed ts p)
    (hv : get stored p = some v) : v.isObject = true := by
  rcases h.beyond hds hclaimed with hnone | ⟨c, value, rfl, _⟩
  · rw [hnone] at hv
    cases hv
  · exact Json.isObject_of_field (Json.strAt_eq_some.mp (strAt_of_get hv))

section

variable {us ys : List Json}

/-- The list holds the items the apply does not mention, in their order. -/
def Holds (ts : List Path) (p : Path) (us : List Json) (w : Json) : Prop :=
  ∃ ys, w = .array ys ∧ us.Sublist (ys.filter (unmentioned ts p))

theorem Holds.remove {u : Segment} {y : Path} {w : Json} (h : Holds ts p us w)
    (ht : p ++ u :: y ∈ ts) (hkeyed : NameKeyed (p ++ u :: y)) :
    Holds ts p us (remove w (u :: y)) := by
  obtain ⟨ys, rfl, hsub⟩ := h
  cases u with
  | field name => cases y <;> exact ⟨ys, rfl, hsub⟩
  | keyed key value =>
    obtain rfl : key = "name" := hkeyed key value (by simp)
    cases y with
    | nil =>
      refine ⟨_, rfl, ?_⟩
      rw [List.filter_filter]
      have hsame : ys.filter (fun a => unmentioned ts p a && decide (a.strAt "name" ≠ some value)) =
          ys.filter (unmentioned ts p) := by
        apply List.filter_congr
        intro a _
        by_cases ha : a.strAt "name" = some value
        · rw [unmentioned_eq_false ht ha]
          rfl
        · simp [ha]
      rwa [hsame]
    | cons s y =>
      refine ⟨_, rfl, hsub.trans (filter_sublist_updateFirst ?_)⟩
      intro a ha
      exact unmentioned_eq_false ht (of_decide_eq_true ha)

theorem Holds.put {u : Segment} {y : Path} {w w' k : Json} (h : Holds ts p us w)
    (ht : p ++ u :: y ∈ ts) (hkeyed : NameKeyed (p ++ u :: y))
    (hput : put w (u :: y) k = .ok w') : Holds ts p us w' := by
  obtain ⟨ys, rfl, hsub⟩ := h
  cases u with
  | field name => cases hput
  | keyed key value =>
    obtain rfl : key = "name" := hkeyed key value (by simp)
    obtain ⟨items, current, he, _, rfl⟩ := put_keyed_ok hput
    injection he with he
    subst he
    refine ⟨_, rfl, hsub.trans ?_⟩
    cases child (.array ys) (.keyed "name" value) with
    | some a =>
      apply filter_sublist_updateFirst
      intro b hb
      exact unmentioned_eq_false ht (of_decide_eq_true hb)
    | none =>
      rw [List.filter_append]
      exact List.sublist_append_left _ _

theorem unmentioned_prune (a : Json) : unmentioned ts p (prune a) = unmentioned ts p a := by
  rw [unmentioned, unmentioned, strAt_prune]

/-- Pruning keeps a list's items that it has no reason to drop. -/
theorem Holds.prune {w : Json} (h : Holds ts p us w)
    (hus : ∀ a ∈ us, unmentioned ts p a = true ∧ bare a = false ∧ noBare a = true) :
    Holds ts p us (prune w) := by
  obtain ⟨ys, rfl, hsub⟩ := h
  refine ⟨_, prune_array ys, ?_⟩
  have hmap : us.map Apply.prune = us :=
    map_eq_self_iff.mpr fun a ha => (prune_eq_self_iff a).mpr (hus a ha).2.2
  have hkept : us.filter (fun a => unmentioned ts p a && !bare a) = us := by
    rw [List.filter_eq_self]
    intro a ha
    simp [(hus a ha).1, (hus a ha).2.1]
  have hpruned := (hsub.trans List.filter_sublist).map Apply.prune
  rw [hmap] at hpruned
  have hfiltered := hpruned.filter fun a => unmentioned ts p a && !bare a
  rw [hkept] at hfiltered
  rwa [List.filter_filter]

end

/-- A list in the frame stays a list, with the items the apply does not mention in
their order. -/
theorem Sturdy.array {items : List Json} (hs : Sturdy stored desired ts xs)
    (hxs : ∀ x ∈ xs, x ∈ ts) (hds : ∀ d ∈ declared desired, d ∈ ts) (hp : NameKeyed p)
    (hclaimed : ¬ Claimed ts p) (hempty : ¬ LeftEmpty stored xs p)
    (hmerged : (declared desired).foldlM (settle desired) (prune (xs.foldl remove stored)) =
      .ok merged)
    (hv : get stored p = some (.array items)) :
    ∃ others, get merged p = some (.array others) ∧
      (items.filter (unmentioned ts p)).Sublist others := by
  have hrestored : ¬ Restored stored desired p := by
    intro h
    cases h.object hds hclaimed hv
  have hus : ∀ a ∈ items.filter (unmentioned ts p),
      unmentioned ts p a = true ∧ bare a = false ∧ noBare a = true := by
    intro a ha
    obtain ⟨hmem, hfree⟩ := List.mem_filter.mp ha
    exact ⟨hfree, hs.items p items hp hclaimed hv a hmem hfree⟩
  obtain ⟨w, hw, others, rfl, hsub⟩ :=
    hs.inner (K := Holds ts p (items.filter (unmentioned ts p))) hxs hds hp hclaimed hempty
      hrestored hmerged (fun u y w ht hkeyed h => h.remove ht hkeyed) (fun w h => h.prune hus)
      (fun u y w w' k ht hkeyed hput h => h.put ht hkeyed hput) hv
      ⟨items, rfl, List.Sublist.refl _⟩
  exact ⟨others, hw, hsub.trans List.filter_sublist⟩

/-- A scalar in the frame keeps its value. -/
theorem Sturdy.scalar {v : Json} (hs : Sturdy stored desired ts xs)
    (hxs : ∀ x ∈ xs, x ∈ ts) (hds : ∀ d ∈ declared desired, d ∈ ts) (hp : NameKeyed p)
    (hclaimed : ¬ Claimed ts p) (hempty : ¬ LeftEmpty stored xs p)
    (hmerged : (declared desired).foldlM (settle desired) (prune (xs.foldl remove stored)) =
      .ok merged)
    (hv : get stored p = some v) (hobject : v.isObject = false) (harray : v.asArray = none) :
    get merged p = some v := by
  have hrestored : ¬ Restored stored desired p := by
    intro h
    rw [h.object hds hclaimed hv] at hobject
    cases hobject
  obtain ⟨w, hw, rfl⟩ :=
    hs.inner (K := fun w => w = v) hxs hds hp hclaimed hempty hrestored hmerged
      (by
        rintro u y w _ _ rfl
        cases w with
        | object fields => cases hobject
        | array items => cases harray
        | _ => cases u <;> cases y <;> rfl)
      (by
        rintro w rfl
        cases w with
        | object fields => cases hobject
        | array items => cases harray
        | _ => rfl)
      (by
        rintro u y w w' k _ _ hput rfl
        cases w with
        | object fields => cases hobject
        | array items => cases harray
        | _ => cases u <;> cases hput) hv rfl
  exact hw

/-! ## The frame -/

theorem noBare_child {j c : Json} {s : Segment} (h : noBare j = true) (hc : child j s = some c) :
    noBare c = true := by
  cases s with
  | field name =>
    cases j with
    | object fields => exact (noBare_object fields).mp h (name, c) (mem_of_lookup hc)
    | _ => cases hc
  | keyed key value =>
    cases j with
    | array items => exact ((noBare_array items).mp h c (List.mem_of_find?_eq_some hc)).2
    | _ => cases hc

end Hedronetes.Apply
