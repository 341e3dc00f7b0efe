import Hedronetes.Foundations.FirstMatch

/-!
# Lists grouped in a sorted map

Each element of a list goes to the group of its key: the first of a group gives what the group
stands for, and all of them give its items, in order. Groups are cut into slices of a fixed size.
-/

namespace Hedronetes.Grouping

open FirstMatch

universe u

variable {α κ β γ : Type u} [LinearOrder κ]

/-- Adds an item to the group of a key. -/
def push (k : κ) (b : β) (item : γ) (groups : List (κ × (β × List γ))) : List (κ × (β × List γ)) :=
  let (b, items) := (lookup k groups).getD (b, [])
  insertKey k (b, items ++ [item]) groups

def grouped (key : α → κ) (label : α → β) (item : α → γ) (l : List α) : List (κ × (β × List γ)) :=
  l.foldl (fun groups a => push (key a) (label a) (item a) groups) []

variable {key : α → κ} {label : α → β} {item : α → γ} {l l' : List α}

theorem grouped_concat (l : List α) (a : α) : grouped key label item (l ++ [a]) =
    push (key a) (label a) (item a) (grouped key label item l) := by
  unfold grouped
  rw [List.foldl_append]
  rfl

theorem keysSorted_grouped (l : List α) : KeysSorted (grouped key label item l) := by
  induction l using List.reverseRecOn with
  | nil => exact List.Pairwise.nil
  | append_singleton l a ih =>
    rw [grouped_concat]
    exact ih.insertKey

/-- A group has the label of its first element and the items of all. -/
theorem lookup_grouped (k : κ) (l : List α) : lookup k (grouped key label item l) =
    ((l.filter (key · = k)).head?.map label).map fun b =>
      (b, (l.filter (key · = k)).map item) := by
  induction l using List.reverseRecOn with
  | nil => rfl
  | append_singleton l a ih =>
    rw [grouped_concat, push, List.filter_append]
    by_cases hk : key a = k
    · subst hk
      rw [lookup_insertKey, ih]
      cases hfilter : l.filter (key · = key a) with
      | nil => simp
      | cons b rest => simp
    · rw [lookup_insertKey_ne (Ne.symm hk), ih]
      simp [hk]

theorem lookup_isSome_of_mem {k : κ} {b : β} {items : List γ}
    (h : lookup k (grouped key label item l) = some (b, items)) :
    ∃ a ∈ l, key a = k ∧ label a = b := by
  rw [lookup_grouped] at h
  cases hfilter : l.filter (key · = k) with
  | nil => simp [hfilter] at h
  | cons a rest =>
    have ha : a ∈ l.filter (key · = k) := by
      rw [hfilter]
      exact List.mem_cons_self
    obtain ⟨hmem, hk⟩ := List.mem_filter.mp ha
    simp only [hfilter, List.head?_cons, Option.map_some, Option.some.injEq, Prod.mk.injEq] at h
    exact ⟨a, hmem, of_decide_eq_true hk, h.1⟩

theorem nodup_of_keysSorted {δ : Type u} {m : List (κ × δ)} (h : KeysSorted m) : m.Nodup := by
  apply List.Pairwise.imp _ h
  rintro e f hlt rfl
  exact lt_irrefl _ hlt

theorem mem_iff_lookup {δ : Type u} {m : List (κ × δ)} (h : KeysSorted m) {e : κ × δ} :
    e ∈ m ↔ lookup e.1 m = some e.2 :=
  ⟨lookup_of_mem h, mem_of_lookup⟩

/-- Writing a key puts its entry in front of the others, up to the order. -/
theorem insertKey_perm {δ : Type u} {m : List (κ × δ)} (h : KeysSorted m) (k : κ) (v : δ) :
    (insertKey k v m).Perm ((k, v) :: eraseKey k m) := by
  have herase : (eraseKey k m).Nodup := (nodup_of_keysSorted h).filter _
  have hnot : (k, v) ∉ eraseKey k m := by
    intro hmem
    exact of_decide_eq_true (List.mem_filter.mp hmem).2 rfl
  rw [List.perm_ext_iff_of_nodup (nodup_of_keysSorted h.insertKey)
    (List.nodup_cons.mpr ⟨hnot, herase⟩)]
  intro e
  rw [mem_iff_lookup h.insertKey, List.mem_cons]
  by_cases hk : e.1 = k
  · have hother : e ∉ eraseKey k m := fun hmem => of_decide_eq_true (List.mem_filter.mp hmem).2 hk
    rw [hk, lookup_insertKey, or_iff_left hother, Prod.ext_iff]
    simp [hk, eq_comm]
  · have hother : e ≠ (k, v) := by
      rintro rfl
      exact hk rfl
    rw [lookup_insertKey_ne hk, or_iff_right hother, ← mem_iff_lookup h]
    simp [eraseKey, hk]

/-- A map is an entry in front of the others, up to the order. -/
theorem perm_of_lookup {δ : Type u} {m : List (κ × δ)} (h : KeysSorted m) {k : κ} {v : δ}
    (hlookup : lookup k m = some v) : m.Perm ((k, v) :: eraseKey k m) := by
  have hself := insertKey_perm h k v
  rwa [insertKey_eq_self hlookup] at hself

theorem eraseKey_of_lookup_none {δ : Type u} {m : List (κ × δ)} {k : κ}
    (h : lookup k m = none) : eraseKey k m = m := by
  unfold eraseKey
  rw [List.filter_eq_self]
  intro e he
  rw [lookup, Option.map_eq_none_iff, List.find?_eq_none] at h
  simpa using h e he

/-- If equal keys have equal labels, the groups hold just the elements. -/
theorem grouped_perm (item : α → γ) (hlabel : ∀ a ∈ l, ∀ b ∈ l, key a = key b → label a = label b) :
    ((grouped key label item l).flatMap fun group => group.2.2.map fun c => (group.2.1, c)).Perm
      (l.map fun a => (label a, item a)) := by
  induction l using List.reverseRecOn with
  | nil => exact .refl _
  | append_singleton l a ih =>
    have hsorted : KeysSorted (grouped key label item l) := keysSorted_grouped l
    have hgroups := ih fun a ha b hb => hlabel a (List.mem_append_left _ ha) b
      (List.mem_append_left _ hb)
    rw [grouped_concat, push, List.map_append]
    refine ((insertKey_perm hsorted _ _).flatMap_right _).trans ?_
    refine .trans ?_ (hgroups.append_right _)
    cases hlookup : lookup (key a) (grouped key label item l) with
    | none =>
      rw [eraseKey_of_lookup_none hlookup]
      simpa using (List.perm_append_singleton _ _).symm
    | some group =>
      obtain ⟨b, items⟩ := group
      obtain ⟨other, hother, hkey, rfl⟩ := lookup_isSome_of_mem hlookup
      refine .trans ?_ (((perm_of_lookup hsorted hlookup).flatMap_right _).append_right _).symm
      have hsame : label other = label a := hlabel other (List.mem_append_left _ hother) a
        (List.mem_append_right _ (List.mem_singleton_self a)) hkey
      simp only [List.flatMap_cons, List.map_append, List.map_cons, List.map_nil,
        hsame, List.append_assoc]
      exact (List.perm_append_comm).append_left _

theorem grouped_eq_nil : grouped key label item l = [] ↔ l = [] := by
  constructor
  · intro h
    rcases List.eq_nil_or_concat l with rfl | ⟨init, a, rfl⟩
    · rfl
    · rw [List.concat_eq_append, grouped_concat, push] at h
      have hfound := congrArg (lookup (key a)) h
      rw [lookup_insertKey] at hfound
      cases hfound
  · rintro rfl
    rfl

/-- The order of the elements changes only the order of the items. -/
theorem grouped_map_of_perm {δ : Type u} (item : α → γ) (f : List γ → δ)
    (hf : ∀ {items others : List γ}, (∃ k, items = (l.filter (key · = k)).map item) →
      items.Perm others → f items = f others)
    (hlabel : ∀ a ∈ l, ∀ b ∈ l, key a = key b → label a = label b) (hperm : l.Perm l') :
    (grouped key label item l).map (fun group => (group.1, (group.2.1, f group.2.2))) =
      (grouped key label item l').map fun group => (group.1, (group.2.1, f group.2.2)) := by
  have hmap {m : List (κ × (β × List γ))} (h : KeysSorted m) :
      KeysSorted (m.map fun group => (group.1, (group.2.1, f group.2.2))) :=
    List.pairwise_map.mpr h
  have hread (k : κ) (m : List (κ × (β × List γ))) :
      lookup k (m.map fun group => (group.1, (group.2.1, f group.2.2))) =
        (lookup k m).map fun entry => (entry.1, f entry.2) := by
    induction m with
    | nil => rfl
    | cons e m ih =>
      rw [List.map_cons, lookup_cons, lookup_cons, ih]
      split_ifs <;> rfl
  apply (hmap (keysSorted_grouped l)).ext (hmap (keysSorted_grouped l'))
  intro k
  rw [hread, hread, lookup_grouped, lookup_grouped]
  have hfilter := hperm.filter (key · = k)
  cases hl : l.filter (key · = k) with
  | nil =>
    rw [hl] at hfilter
    rw [hfilter.nil_eq]
  | cons a rest =>
    cases hl' : l'.filter (key · = k) with
    | nil =>
      rw [hl, hl'] at hfilter
      exact absurd hfilter.eq_nil (by simp)
    | cons b others =>
      have ha : a ∈ l.filter (key · = k) := hl ▸ List.mem_cons_self
      have hb : b ∈ l.filter (key · = k) := hfilter.mem_iff.mpr (hl' ▸ List.mem_cons_self)
      obtain ⟨ha, hka⟩ := List.mem_filter.mp ha
      obtain ⟨hb, hkb⟩ := List.mem_filter.mp hb
      have hsame : label a = label b :=
        hlabel a ha b hb ((of_decide_eq_true hka).trans (of_decide_eq_true hkb).symm)
      rw [hl, hl'] at hfilter
      simp only [List.head?_cons, Option.map_some, hsame]
      rw [hf ⟨k, by rw [hl]⟩ (hfilter.map item)]

/-! ## Slices -/

/-- The slice at a place. -/
def slice {α : Type u} (size : ℕ) (l : List α) (place : ℕ) : List α :=
  (l.drop (place * size)).take size

theorem length_slice_le {α : Type u} (size : ℕ) (l : List α) (place : ℕ) :
    (slice size l place).length ≤ size :=
  List.length_take_le _ _

theorem flatMap_slice {α : Type u} (size : ℕ) (l : List α) (n : ℕ) :
    (List.range n).flatMap (slice size l) = l.take (n * size) := by
  induction n with
  | zero => simp
  | succ n ih =>
    rw [List.range_succ, List.flatMap_append, ih, Nat.succ_mul, List.take_add]
    simp [slice]

/-- Enough slices hold the whole list. -/
theorem flatMap_slice_eq {α : Type u} {size : ℕ} {l : List α} {n : ℕ} (h : l.length ≤ n * size) :
    (List.range n).flatMap (slice size l) = l := by
  rw [flatMap_slice, List.take_of_length_le h]

end Hedronetes.Grouping
