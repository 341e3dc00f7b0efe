import Mathlib

/-!
# Lists addressed by their first match

A collection kept as a list is often read and written at the first element that
satisfies a predicate: a map by its key, a list of records by an identifying
field. These are the laws of reading after such a write, and the sorted map
built from them.
-/

namespace Hedronetes.FirstMatch

universe u

variable {α : Type u}

/-- Replaces the first element that satisfies `p` by its image. -/
def updateFirst (p : α → Bool) (f : α → α) : List α → List α
  | [] => []
  | a :: l => if p a then f a :: l else a :: updateFirst p f l

variable {p q : α → Bool} {f : α → α}

/-- Writing what is already there changes nothing. -/
theorem updateFirst_eq_self {l : List α} (h : ∀ a, l.find? p = some a → f a = a) :
    updateFirst p f l = l := by
  induction l with
  | nil => rfl
  | cons a l ih =>
    by_cases ha : p a
    · simp [updateFirst, ha, h a (by simp [ha])]
    · rw [List.find?_cons_of_neg ha] at h
      simp [updateFirst, ha, ih h]

/-- The written element is found again if it still satisfies the predicate. -/
theorem find?_updateFirst {l : List α} (h : ∀ a, l.find? p = some a → p (f a)) :
    (updateFirst p f l).find? p = (l.find? p).map f := by
  induction l with
  | nil => rfl
  | cons a l ih =>
    by_cases ha : p a
    · have hf := h a (by simp [ha])
      simp [updateFirst, ha, hf]
    · rw [List.find?_cons_of_neg ha] at h
      simp [updateFirst, ha, ih h]

theorem updateFirst_append (l m : List α) :
    updateFirst p f (l ++ m) =
      if (l.find? p).isSome then updateFirst p f l ++ m else l ++ updateFirst p f m := by
  induction l with
  | nil => rfl
  | cons a l ih =>
    by_cases ha : p a
    · simp [updateFirst, ha]
    · simp only [List.cons_append, updateFirst, ha, List.find?_cons, ih]
      split_ifs <;> simp_all

/-- A search that neither the old nor the new element satisfies is not affected. -/
theorem find?_updateFirst_of_not {l : List α} (hdisjoint : ∀ a, p a → q a = false)
    (h : ∀ a, l.find? p = some a → q (f a) = false) :
    (updateFirst p f l).find? q = l.find? q := by
  induction l with
  | nil => rfl
  | cons a l ih =>
    by_cases ha : p a
    · have hf := h a (by simp [ha])
      simp [updateFirst, ha, hf, hdisjoint a ha]
    · rw [List.find?_cons_of_neg ha] at h
      cases hq : q a <;> simp [updateFirst, ha, hq, ih h]

/-- Elements outside a class keep their order when the written element was in it. -/
theorem filter_sublist_updateFirst {l : List α} (h : ∀ a, p a → q a = false) :
    (l.filter q).Sublist ((updateFirst p f l).filter q) := by
  induction l with
  | nil => simp [updateFirst]
  | cons a l ih =>
    by_cases ha : p a
    · simp only [updateFirst, ha, if_true, List.filter_cons, h a ha, Bool.false_eq_true, if_false]
      split_ifs
      · exact List.Sublist.cons _ (List.Sublist.refl _)
      · exact List.Sublist.refl _
    · simp only [updateFirst, ha, Bool.false_eq_true, if_false, List.filter_cons]
      split_ifs
      · exact ih.cons_cons a
      · exact ih

theorem find?_filter_eq {l : List α} (h : ∀ a, q a → p a) :
    (l.filter p).find? q = l.find? q := by
  rw [List.find?_filter]
  apply congrArg (fun r => l.find? r)
  funext a
  cases hq : q a with
  | false => simp
  | true => simp [h a hq]

theorem mem_updateFirst {l : List α} {b : α} (h : b ∈ updateFirst p f l) :
    b ∈ l ∨ ∃ a ∈ l, p a ∧ b = f a := by
  induction l with
  | nil => cases h
  | cons a l ih =>
    unfold updateFirst at h
    split_ifs at h with ha
    · rcases List.mem_cons.mp h with rfl | h
      · exact Or.inr ⟨a, List.mem_cons_self, ha, rfl⟩
      · exact Or.inl (List.mem_cons_of_mem _ h)
    · rcases List.mem_cons.mp h with rfl | h
      · exact Or.inl List.mem_cons_self
      · rcases ih h with h | ⟨c, hc, hp, he⟩
        · exact Or.inl (List.mem_cons_of_mem _ h)
        · exact Or.inr ⟨c, List.mem_cons_of_mem _ hc, hp, he⟩

/-- A selection that neither the old nor the new element meets is not affected. -/
theorem filter_updateFirst_of_not {l : List α} (h : ∀ a, p a → q a = false ∧ q (f a) = false) :
    (updateFirst p f l).filter q = l.filter q := by
  induction l with
  | nil => rfl
  | cons a l ih =>
    by_cases ha : p a
    · simp [updateFirst, ha, h a ha]
    · simp [updateFirst, ha, List.filter_cons, ih]

/-- Replacing at the place of the first match is replacing the first match. -/
theorem set_findIdx? {l : List α} {place : ℕ} (h : l.findIdx? p = some place) (b : α) :
    l.set place b = updateFirst p (fun _ => b) l ∧ l[place]? = l.find? p := by
  induction l generalizing place with
  | nil => simp at h
  | cons a l ih =>
    rw [List.findIdx?_cons] at h
    by_cases ha : p a
    · rw [if_pos ha] at h
      obtain rfl := Option.some.inj h
      simp [updateFirst, ha]
    · rw [if_neg ha] at h
      obtain ⟨inner, hinner, rfl⟩ := Option.map_eq_some_iff.mp h
      have hrest := ih hinner
      simp [updateFirst, ha, hrest.1, hrest.2]

/-! ## Elements with distinct names -/

section

variable {β : Type*} {name : α → Option β} {n : β} {l : List α}

/-- The only element with a name is the one the name finds. -/
theorem find?_eq_some_of_nodup [DecidableEq β] {a : α} (h : (l.filterMap name).Nodup) (ha : a ∈ l)
    (hn : name a = some n) : l.find? (fun b => name b = some n) = some a := by
  induction l with
  | nil => cases ha
  | cons b l ih =>
    rcases List.mem_cons.mp ha with rfl | ha
    · simp [hn]
    · cases hb : name b with
      | none =>
        rw [List.filterMap_cons_none hb] at h
        rw [List.find?_cons_of_neg (by simp [hb])]
        exact ih h ha
      | some m =>
        rw [List.filterMap_cons_some hb, List.nodup_cons] at h
        have hne : m ≠ n := by
          rintro rfl
          exact h.1 (List.mem_filterMap.mpr ⟨a, ha, hn⟩)
        rw [List.find?_cons_of_neg (by simpa [hb] using hne)]
        exact ih h.2 ha

/-- An element that loses its name leaves none that has it. -/
theorem find?_updateFirst_of_nodup [DecidableEq β] (h : (l.filterMap name).Nodup)
    (hf : ∀ a, name a = some n → name (f a) = none) :
    (updateFirst (fun b => name b = some n) f l).find? (fun b => name b = some n) = none := by
  induction l with
  | nil => rfl
  | cons b l ih =>
    by_cases hb : name b = some n
    · rw [List.filterMap_cons_some hb, List.nodup_cons] at h
      simp only [updateFirst, hb, decide_true, if_true]
      rw [List.find?_cons_of_neg (by simp [hf b hb]), List.find?_eq_none]
      intro a ha
      simp only [decide_eq_true_eq]
      intro hn
      exact h.1 (List.mem_filterMap.mpr ⟨a, ha, hn⟩)
    · have hrest : (l.filterMap name).Nodup := by
        cases hm : name b with
        | none => rwa [List.filterMap_cons_none hm] at h
        | some m =>
          rw [List.filterMap_cons_some hm, List.nodup_cons] at h
          exact h.2
      simp only [updateFirst, hb, decide_false, Bool.false_eq_true, if_false]
      rw [List.find?_cons_of_neg (by simpa using hb)]
      exact ih hrest

theorem filterMap_updateFirst_sublist (hf : ∀ a, name (f a) = name a ∨ name (f a) = none) :
    ((updateFirst p f l).filterMap name).Sublist (l.filterMap name) := by
  induction l with
  | nil => exact List.Sublist.refl _
  | cons a l ih =>
    unfold updateFirst
    split_ifs with ha
    · rcases hf a with hsame | hnone
      · rw [List.filterMap_cons, List.filterMap_cons, hsame]
      · rw [List.filterMap_cons_none hnone]
        cases hb : name a with
        | none => rw [List.filterMap_cons_none hb]
        | some b =>
          rw [List.filterMap_cons_some hb]
          exact List.sublist_cons_self b _
    · cases hb : name a with
      | none =>
        rw [List.filterMap_cons_none hb, List.filterMap_cons_none hb]
        exact ih
      | some b =>
        rw [List.filterMap_cons_some hb, List.filterMap_cons_some hb]
        exact ih.cons_cons b

/-- An element that keeps its name leaves the names as they are. -/
theorem filterMap_updateFirst (hf : ∀ a, l.find? p = some a → name (f a) = name a) :
    (updateFirst p f l).filterMap name = l.filterMap name := by
  induction l with
  | nil => rfl
  | cons a l ih =>
    by_cases ha : p a
    · simp [updateFirst, ha, List.filterMap_cons, hf a (by simp [ha])]
    · rw [List.find?_cons_of_neg ha] at hf
      simp [updateFirst, ha, List.filterMap_cons, ih hf]

end

/-- A list is cut in one way at the first of a separator. -/
theorem split_inj {c : α} {a b x y : List α} (ha : c ∉ a) (hb : c ∉ b)
    (h : a ++ c :: x = b ++ c :: y) : a = b ∧ x = y := by
  induction a generalizing b with
  | nil =>
    cases b with
    | nil => exact ⟨rfl, (List.cons.inj h).2⟩
    | cons d b => exact absurd List.mem_cons_self ((List.cons.inj h).1 ▸ hb)
  | cons d a ih =>
    cases b with
    | nil => exact absurd List.mem_cons_self ((List.cons.inj h).1 ▸ ha)
    | cons e b =>
      obtain ⟨rfl, hrest⟩ := List.cons.inj h
      obtain ⟨rfl, hxy⟩ := ih (fun hm => ha (List.mem_cons_of_mem _ hm))
        (fun hm => hb (List.mem_cons_of_mem _ hm)) hrest
      exact ⟨rfl, hxy⟩

/-! ## Sorted maps -/

variable {κ : Type u} [LinearOrder κ] {v w : α} {k k' : κ} {m : List (κ × α)}

/-- The value of a key. -/
def lookup (k : κ) (m : List (κ × α)) : Option α := (m.find? fun e => e.1 = k).map Prod.snd

/-- Changes the value of a key that is present. -/
def modifyKey (k : κ) (f : α → α) (m : List (κ × α)) : List (κ × α) :=
  updateFirst (fun e => e.1 = k) (fun e => (e.1, f e.2)) m

/-- Adds an absent key at its place. -/
def insertSorted (k : κ) (v : α) : List (κ × α) → List (κ × α)
  | [] => [(k, v)]
  | e :: m => if k < e.1 then (k, v) :: e :: m else e :: insertSorted k v m

/-- Sets the value of a key. -/
def insertKey (k : κ) (v : α) (m : List (κ × α)) : List (κ × α) :=
  if (lookup k m).isSome then modifyKey k (fun _ => v) m else insertSorted k v m

def eraseKey (k : κ) (m : List (κ × α)) : List (κ × α) := m.filter fun e => e.1 ≠ k

theorem mem_of_lookup (h : lookup k m = some v) : (k, v) ∈ m := by
  obtain ⟨⟨k', w⟩, hfind, hw⟩ := Option.map_eq_some_iff.mp h
  have hk : k' = k := by simpa using List.find?_some hfind
  have hmem := List.mem_of_find?_eq_some hfind
  rw [hk] at hmem
  change w = v at hw
  rwa [hw] at hmem

theorem lookup_modifyKey (k : κ) (f : α → α) (m : List (κ × α)) :
    lookup k (modifyKey k f m) = (lookup k m).map f := by
  unfold lookup modifyKey
  rw [find?_updateFirst (fun a ha => by simpa using List.find?_some ha), Option.map_map,
    Option.map_map]
  rfl

theorem lookup_modifyKey_ne (h : k' ≠ k) (f : α → α) (m : List (κ × α)) :
    lookup k' (modifyKey k f m) = lookup k' m := by
  unfold lookup modifyKey
  rw [find?_updateFirst_of_not]
  · intro a ha
    simp only [decide_eq_true_eq] at ha
    simpa [ha] using h.symm
  · intro a ha
    have hk := List.find?_some ha
    simp only [decide_eq_true_eq] at hk
    simpa [hk] using h.symm

theorem map_fst_modifyKey (k : κ) (f : α → α) (m : List (κ × α)) :
    (modifyKey k f m).map Prod.fst = m.map Prod.fst := by
  unfold modifyKey
  induction m with
  | nil => rfl
  | cons e m ih =>
    unfold updateFirst
    split_ifs
    · rfl
    · rw [List.map_cons, List.map_cons, ih]

theorem modifyKey_eq_self {f : α → α} (h : ∀ v, lookup k m = some v → f v = v) :
    modifyKey k f m = m := by
  apply updateFirst_eq_self
  intro e he
  rw [h e.2 (by simp [lookup, he])]

theorem lookup_insertSorted (h : lookup k m = none) : lookup k (insertSorted k v m) = some v := by
  induction m with
  | nil => simp [insertSorted, lookup]
  | cons e m ih =>
    unfold insertSorted
    split_ifs with hlt
    · simp [lookup]
    · have hne : e.1 ≠ k := by
        intro he
        simp [lookup, he] at h
      have hrest : lookup k m = none := by simpa [lookup, hne] using h
      simpa [lookup, hne] using ih hrest

theorem lookup_insertSorted_ne (h : k' ≠ k) : lookup k' (insertSorted k v m) = lookup k' m := by
  induction m with
  | nil => simp [insertSorted, lookup, h.symm]
  | cons e m ih =>
    unfold insertSorted
    split_ifs with hlt
    · simp [lookup, h.symm]
    · by_cases he : e.1 = k'
      · simp [lookup, he]
      · simpa [lookup, he] using ih

@[simp] theorem lookup_insertKey (k : κ) (v : α) (m : List (κ × α)) :
    lookup k (insertKey k v m) = some v := by
  unfold insertKey
  split_ifs with h
  · obtain ⟨w, hw⟩ := Option.isSome_iff_exists.mp h
    rw [lookup_modifyKey, hw]
    rfl
  · exact lookup_insertSorted (Option.not_isSome_iff_eq_none.mp h)

theorem lookup_insertKey_ne (h : k' ≠ k) (v : α) (m : List (κ × α)) :
    lookup k' (insertKey k v m) = lookup k' m := by
  unfold insertKey
  split_ifs
  · exact lookup_modifyKey_ne h _ m
  · exact lookup_insertSorted_ne h

theorem insertKey_eq_self (h : lookup k m = some v) : insertKey k v m = m := by
  rw [insertKey, if_pos (by simp [h])]
  apply modifyKey_eq_self
  intro w hw
  exact Option.some.inj (h.symm.trans hw)

@[simp] theorem lookup_eraseKey (k : κ) (m : List (κ × α)) : lookup k (eraseKey k m) = none := by
  simp [lookup, eraseKey]

theorem lookup_eraseKey_ne (h : k' ≠ k) (m : List (κ × α)) :
    lookup k' (eraseKey k m) = lookup k' m := by
  unfold lookup eraseKey
  rw [find?_filter_eq]
  intro e he
  simp only [decide_eq_true_eq] at he
  simp [he, h]

theorem mem_insertSorted {e : κ × α} (h : e ∈ insertSorted k v m) : e ∈ m ∨ e = (k, v) := by
  induction m with
  | nil => exact Or.inr (List.mem_singleton.mp h)
  | cons d m ih =>
    unfold insertSorted at h
    split_ifs at h
    · rcases List.mem_cons.mp h with rfl | h
      · exact Or.inr rfl
      · exact Or.inl h
    · rcases List.mem_cons.mp h with rfl | h
      · exact Or.inl List.mem_cons_self
      · exact (ih h).imp (List.mem_cons_of_mem _) id

theorem insertSorted_perm (k : κ) (v : α) (m : List (κ × α)) :
    (insertSorted k v m).Perm ((k, v) :: m) := by
  induction m with
  | nil => exact List.Perm.refl _
  | cons e m ih =>
    unfold insertSorted
    split_ifs
    · exact List.Perm.refl _
    · exact (ih.cons e).trans (List.Perm.swap _ _ _)

theorem length_insertSorted (k : κ) (v : α) (m : List (κ × α)) :
    (insertSorted k v m).length = m.length + 1 := by
  induction m with
  | nil => rfl
  | cons e m ih =>
    unfold insertSorted
    split_ifs
    · rfl
    · rw [List.length_cons, ih, List.length_cons]

theorem length_insertKey_le (k : κ) (v : α) (m : List (κ × α)) :
    m.length ≤ (insertKey k v m).length := by
  unfold insertKey
  split_ifs
  · have hkeys := congrArg List.length (map_fst_modifyKey k (fun _ => v) m)
    rw [List.length_map, List.length_map] at hkeys
    exact hkeys.ge
  · rw [length_insertSorted]
    exact Nat.le_succ _

theorem mem_insertKey {e : κ × α} (h : e ∈ insertKey k v m) : e ∈ m ∨ e = (k, v) := by
  unfold insertKey at h
  split_ifs at h
  · rcases mem_updateFirst h with h | ⟨a, _, ha, rfl⟩
    · exact Or.inl h
    · exact Or.inr (by rw [of_decide_eq_true ha])
  · exact mem_insertSorted h

theorem updateFirst_updateFirst {g : α → α} {l : List α}
    (h : ∀ a, l.find? p = some a → p (g a) ∧ f (g a) = f a) :
    updateFirst p f (updateFirst p g l) = updateFirst p f l := by
  induction l with
  | nil => rfl
  | cons a l ih =>
    by_cases ha : p a
    · obtain ⟨hg, hf⟩ := h a (by simp [ha])
      simp [updateFirst, ha, hg, hf]
    · rw [List.find?_cons_of_neg ha] at h
      simp [updateFirst, ha, ih h]

/-- A change that does not see what was set before it. -/
theorem modifyKey_insertKey {f : α → α} (h : lookup k m = some w) (hf : f v = f w) :
    modifyKey k f (insertKey k v m) = modifyKey k f m := by
  rw [insertKey, if_pos (by simp [h])]
  apply updateFirst_updateFirst
  intro e he
  have hk := List.find?_some he
  have hw : e.2 = w := by simpa [lookup, he] using h
  exact ⟨by simpa using hk, by rw [hf, hw]⟩

theorem eraseKey_modifyKey (k : κ) (f : α → α) (m : List (κ × α)) :
    eraseKey k (modifyKey k f m) = eraseKey k m := by
  unfold eraseKey modifyKey
  induction m with
  | nil => rfl
  | cons e m ih =>
    by_cases he : e.1 = k
    · simp [updateFirst, he]
    · simpa [updateFirst, he] using ih

theorem eraseKey_insertSorted (k : κ) (v : α) (m : List (κ × α)) :
    eraseKey k (insertSorted k v m) = eraseKey k m := by
  unfold eraseKey
  induction m with
  | nil => simp [insertSorted]
  | cons e m ih =>
    unfold insertSorted
    split_ifs with hlt
    · simp
    · by_cases he : e.1 = k
      · simpa [he] using ih
      · simpa [he] using ih

/-- Erasing a key forgets what was set there. -/
theorem eraseKey_insertKey (k : κ) (v : α) (m : List (κ × α)) :
    eraseKey k (insertKey k v m) = eraseKey k m := by
  unfold insertKey
  split_ifs
  · exact eraseKey_modifyKey k _ m
  · exact eraseKey_insertSorted k v m

/-! ## Writes that commute -/

/-- Two writes of the same element are one. -/
theorem updateFirst_comp {g : α → α} (h : ∀ a, p a → p (g a)) (l : List α) :
    updateFirst p f (updateFirst p g l) = updateFirst p (fun a => f (g a)) l := by
  induction l with
  | nil => rfl
  | cons a l ih =>
    by_cases ha : p a
    · simp [updateFirst, ha, h a ha]
    · simp [updateFirst, ha, ih]

theorem modifyKey_modifyKey (f g : α → α) (m : List (κ × α)) :
    modifyKey k f (modifyKey k g m) = modifyKey k (fun v => f (g v)) m := by
  apply updateFirst_comp
  intro e he
  exact he

/-- What is set does not see what was changed before it. -/
theorem insertKey_modifyKey (h : (lookup k m).isSome) (f : α → α) :
    insertKey k v (modifyKey k f m) = insertKey k v m := by
  unfold insertKey
  rw [lookup_modifyKey, Option.isSome_map, if_pos h, if_pos h, modifyKey_modifyKey]

theorem modifyKey_insertSorted {f : α → α} (h : lookup k m = none) :
    modifyKey k f (insertSorted k v m) = insertSorted k (f v) m := by
  induction m with
  | nil => simp [insertSorted, modifyKey, updateFirst]
  | cons e m ih =>
    have he : e.1 ≠ k := by
      rintro rfl
      simp [lookup] at h
    have hm : lookup k m = none := by simpa [lookup, he] using h
    unfold insertSorted
    split_ifs
    · simp [modifyKey, updateFirst]
    · have hrest := ih hm
      unfold modifyKey at hrest ⊢
      rw [updateFirst, if_neg (by simpa using he), hrest]

@[simp] theorem insertKey_insertKey (k : κ) (v w : α) (m : List (κ × α)) :
    insertKey k v (insertKey k w m) = insertKey k v m := by
  by_cases h : (lookup k m).isSome
  · have hw : insertKey k w m = modifyKey k (fun _ => w) m := by rw [insertKey, if_pos h]
    rw [hw, insertKey_modifyKey h]
  · have hinserted : ∀ u, insertKey k u m = insertSorted k u m := fun u => if_neg h
    have hnone := Option.not_isSome_iff_eq_none.mp h
    rw [hinserted, hinserted, insertKey, if_pos (by simp [lookup_insertSorted hnone]),
      modifyKey_insertSorted hnone]

theorem lookup_cons (e : κ × α) (m : List (κ × α)) :
    lookup k (e :: m) = if e.1 = k then some e.2 else lookup k m := by
  by_cases he : e.1 = k <;> simp [lookup, he]

theorem lookup_append (k : κ) (l m : List (κ × α)) :
    lookup k (l ++ m) = (lookup k l).or (lookup k m) := by
  unfold FirstMatch.lookup
  rw [List.find?_append]
  cases List.find? (fun e => decide (e.1 = k)) l <;> rfl

theorem lookup_eq_none_iff :
    lookup k m = none ↔ k ∉ m.map Prod.fst := by
  unfold FirstMatch.lookup
  rw [Option.map_eq_none_iff, List.find?_eq_none]
  constructor
  · intro h hk
    obtain ⟨e, he, rfl⟩ := List.mem_map.mp hk
    exact h e he (by simp)
  · intro h e he heq
    exact h (List.mem_map.mpr ⟨e, he, of_decide_eq_true heq⟩)

theorem length_insertKey_succ (k : κ) (v : α)
    (m : List (κ × α)) : (insertKey k v m).length ≤ m.length + 1 := by
  unfold insertKey
  by_cases hk : (lookup k m).isSome
  · have hkeys := congrArg List.length (map_fst_modifyKey k (fun _ => v) m)
    rw [List.length_map, List.length_map] at hkeys
    rw [if_pos hk]
    omega
  · rw [if_neg hk, length_insertSorted]

theorem insertKey_last (h : ∀ e ∈ m, e.1 < k) : insertKey k v m = m ++ [(k, v)] := by
  have habsent : lookup k m = none := by
    apply lookup_eq_none_iff.mpr
    intro hk
    obtain ⟨e, he, rfl⟩ := List.mem_map.mp hk
    exact lt_irrefl _ (h e he)
  unfold insertKey
  rw [habsent, if_neg (by simp)]
  clear habsent
  induction m with
  | nil => rfl
  | cons e m ih =>
    have hlt : ¬ k < e.1 := (h e List.mem_cons_self).asymm
    unfold insertSorted
    rw [if_neg hlt, ih fun d hd => h d (List.mem_cons_of_mem e hd), List.cons_append]

/-! ## Maps in key order -/

/-- One entry per key, in increasing key order. -/
def KeysSorted (m : List (κ × α)) : Prop := m.Pairwise fun e f => e.1 < f.1

instance (m : List (κ × α)) : Decidable (KeysSorted m) :=
  inferInstanceAs (Decidable (m.Pairwise fun e f => e.1 < f.1))

theorem KeysSorted.insertSorted (h : KeysSorted m) (hk : lookup k m = none) :
    KeysSorted (insertSorted k v m) := by
  induction m with
  | nil => exact List.pairwise_singleton _ _
  | cons e m ih =>
    obtain ⟨he, hm⟩ := List.pairwise_cons.mp h
    have hne : e.1 ≠ k := by
      intro heq
      simp [lookup, heq] at hk
    unfold FirstMatch.insertSorted
    split_ifs with hlt
    · apply List.pairwise_cons.mpr ⟨_, h⟩
      intro f hf
      rcases List.mem_cons.mp hf with rfl | hf
      · exact hlt
      · exact hlt.trans (he f hf)
    · apply List.pairwise_cons.mpr ⟨_, ih hm (by simpa [lookup, hne] using hk)⟩
      intro f hf
      rcases mem_insertSorted hf with hf | rfl
      · exact he f hf
      · exact lt_of_le_of_ne (not_lt.mp hlt) hne

theorem KeysSorted.insertKey (h : KeysSorted m) : KeysSorted (insertKey k v m) := by
  unfold FirstMatch.insertKey
  split_ifs with hk
  · have hkeys : ∀ l : List (κ × α), KeysSorted l ↔ (l.map Prod.fst).Pairwise (· < ·) :=
      fun l => List.pairwise_map.symm
    rw [hkeys, map_fst_modifyKey, ← hkeys]
    exact h
  · exact h.insertSorted (Option.not_isSome_iff_eq_none.mp hk)

theorem lookup_of_mem {e : κ × α} (h : KeysSorted m) (he : e ∈ m) : lookup e.1 m = some e.2 := by
  induction m with
  | nil => cases he
  | cons d m ih =>
    obtain ⟨hd, hm⟩ := List.pairwise_cons.mp h
    rw [lookup_cons]
    rcases List.mem_cons.mp he with rfl | he
    · simp
    · rw [if_neg (hd e he).ne]
      exact ih hm he

/-- A sorted map is built again from its entries. -/
theorem foldl_insertKey_sorted {l : List (κ × α)}
    (h : KeysSorted (m ++ l)) : l.foldl (fun m e => insertKey e.1 e.2 m) m = m ++ l := by
  induction l generalizing m with
  | nil => simp
  | cons e l ih =>
    have hlast : ∀ d ∈ m, d.1 < e.1 := fun d hd =>
      (List.pairwise_append.mp h).2.2 d hd e List.mem_cons_self
    rw [List.foldl_cons, insertKey_last hlast, ih (by rwa [List.append_assoc]), List.append_assoc]
    rfl

/-- A sorted map is determined by its values. -/
theorem KeysSorted.ext {m' : List (κ × α)} (h : KeysSorted m) (h' : KeysSorted m')
    (hlookup : ∀ k, lookup k m = lookup k m') : m = m' := by
  have hnodup : ∀ {l : List (κ × α)}, KeysSorted l → l.Nodup := by
    intro l hl
    apply List.Pairwise.imp _ hl
    rintro e f hlt rfl
    exact lt_irrefl _ hlt
  have hmem : ∀ e, e ∈ m ↔ e ∈ m' := by
    intro e
    constructor
    · intro he
      exact mem_of_lookup (hlookup e.1 ▸ lookup_of_mem h he)
    · intro he
      exact mem_of_lookup (hlookup e.1 ▸ lookup_of_mem h' he)
  apply ((List.perm_ext_iff_of_nodup (hnodup h) (hnodup h')).mpr hmem).eq_of_pairwise _ h h'
  intro e f _ _ hef hfe
  exact absurd hfe hef.asymm

end Hedronetes.FirstMatch
