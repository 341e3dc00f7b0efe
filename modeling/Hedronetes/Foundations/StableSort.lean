import Mathlib

/-!
# Stable sorting by a key

Insertion sort keeps the elements of one key in their order, so its result is
determined by these runs of equal keys.
-/

namespace Hedronetes.StableSort

variable {α β κ : Type*} [LinearOrder κ] {key : α → κ} {l l' : List α}

def sortBy (key : α → κ) (l : List α) : List α := l.insertionSort fun a b => key a ≤ key b

theorem pairwise_sortBy (key : α → κ) (l : List α) :
    (sortBy key l).Pairwise fun a b => key a ≤ key b := by
  have htotal : Std.Total fun a b : α => key a ≤ key b := ⟨fun a b => le_total (key a) (key b)⟩
  have htrans : IsTrans α fun a b => key a ≤ key b := ⟨fun _ _ _ => le_trans⟩
  exact List.pairwise_insertionSort _ l

theorem perm_sortBy (key : α → κ) (l : List α) : (sortBy key l).Perm l :=
  List.perm_insertionSort _ l

/-- The elements of one key keep their order. -/
theorem filter_sortBy (key : α → κ) (l : List α) (k : κ) :
    (sortBy key l).filter (fun a => key a = k) = l.filter fun a => key a = k := by
  have hrefl : Std.Refl fun a b : α => key a ≤ key b := ⟨fun a => le_refl (key a)⟩
  have htotal : Std.Total fun a b : α => key a ≤ key b := ⟨fun a b => le_total (key a) (key b)⟩
  have htrans : IsTrans α fun a b => key a ≤ key b := ⟨fun _ _ _ => le_trans⟩
  have hsame : (l.filter fun a => key a = k).Pairwise fun a b => key a ≤ key b := by
    apply List.pairwise_of_forall_mem_list
    intro a ha b hb
    have hak : key a = k := by simpa using (List.mem_filter.mp ha).2
    have hbk : key b = k := by simpa using (List.mem_filter.mp hb).2
    rw [hak, hbk]
  have hsub : (l.filter fun a => key a = k).Sublist
      ((sortBy key l).filter fun a => key a = k) := by
    have hfiltered := (List.sublist_insertionSort hsame List.filter_sublist).filter
      fun a => decide (key a = k)
    rwa [List.filter_filter, List.filter_congr (q := fun a => decide (key a = k))] at hfiltered
    simp
  exact (hsub.eq_of_length ((perm_sortBy key l).filter _).length_eq.symm).symm

/-- Sorted lists with the same runs of equal keys are equal. -/
theorem eq_of_filter (h : l.Pairwise fun a b => key a ≤ key b)
    (h' : l'.Pairwise fun a b => key a ≤ key b)
    (hfilter : ∀ k, l.filter (fun a => key a = k) = l'.filter fun a => key a = k) : l = l' := by
  have hmem : ∀ a, a ∈ l ↔ a ∈ l' := by
    intro a
    have hrun := hfilter (key a)
    have hleft : a ∈ l ↔ a ∈ l.filter fun b => key b = key a := by simp
    have hright : a ∈ l' ↔ a ∈ l'.filter fun b => key b = key a := by simp
    rw [hleft, hright, hrun]
  induction l generalizing l' with
  | nil =>
    cases l' with
    | nil => rfl
    | cons b l' => exact absurd ((hmem b).mpr List.mem_cons_self) (by simp)
  | cons a l ih =>
    cases l' with
    | nil => exact absurd ((hmem a).mp List.mem_cons_self) (by simp)
    | cons b l' =>
      obtain ⟨ha, hl⟩ := List.pairwise_cons.mp h
      obtain ⟨hb, hl'⟩ := List.pairwise_cons.mp h'
      have hle : ∀ c ∈ a :: l, key a ≤ key c := by
        intro c hc
        rcases List.mem_cons.mp hc with rfl | hc
        · exact le_rfl
        · exact ha c hc
      have hle' : ∀ c ∈ b :: l', key b ≤ key c := by
        intro c hc
        rcases List.mem_cons.mp hc with rfl | hc
        · exact le_rfl
        · exact hb c hc
      have hkey : key a = key b := le_antisymm (hle b ((hmem b).mpr List.mem_cons_self))
        (hle' a ((hmem a).mp List.mem_cons_self))
      have hhead := hfilter (key b)
      rw [List.filter_cons_of_pos (by simp [hkey]), List.filter_cons_of_pos (by simp)] at hhead
      obtain rfl : a = b := (List.cons.inj hhead).1
      have hrest : ∀ k, l.filter (fun c => key c = k) = l'.filter fun c => key c = k := by
        intro k
        have hrun := hfilter k
        by_cases hk : key a = k
        · rw [List.filter_cons_of_pos (by simpa using hk),
            List.filter_cons_of_pos (by simpa using hk)] at hrun
          exact (List.cons.inj hrun).2
        · rwa [List.filter_cons_of_neg (by simpa using hk),
            List.filter_cons_of_neg (by simpa using hk)] at hrun
      rw [ih hl hl' hrest]
      intro c
      have hleft : c ∈ l ↔ c ∈ l.filter fun d => key d = key c := by simp
      have hright : c ∈ l' ↔ c ∈ l'.filter fun d => key d = key c := by simp
      rw [hleft, hright, hrest]

/-- Sorting sees only the runs of equal keys. -/
theorem sortBy_congr (h : ∀ k, l.filter (fun a => key a = k) = l'.filter fun a => key a = k) :
    sortBy key l = sortBy key l' := by
  apply eq_of_filter (pairwise_sortBy key l) (pairwise_sortBy key l')
  intro k
  rw [filter_sortBy, filter_sortBy, h k]

theorem sortBy_eq_self (h : l.Pairwise fun a b => key a ≤ key b) : sortBy key l = l :=
  eq_of_filter (pairwise_sortBy key l) h (filter_sortBy key l)

/-- The first element is a least one. -/
theorem head?_sortBy {a : α} (h : (sortBy key l).head? = some a) :
    a ∈ l ∧ ∀ b ∈ l, key a ≤ key b := by
  obtain ⟨rest, hrest⟩ := List.head?_eq_some_iff.mp h
  have hmem : ∀ b, b ∈ l ↔ b ∈ a :: rest := by
    intro b
    rw [← hrest]
    exact (perm_sortBy key l).mem_iff.symm
  have hle := pairwise_sortBy key l
  rw [hrest, List.pairwise_cons] at hle
  refine ⟨(hmem a).mpr List.mem_cons_self, ?_⟩
  intro b hb
  rcases List.mem_cons.mp ((hmem b).mp hb) with rfl | hb
  · exact le_rfl
  · exact hle.1 b hb

theorem head?_sortBy_of_mem (key : α → κ) {a : α} (h : a ∈ l) : ∃ b, (sortBy key l).head? = some b := by
  have hmem := (perm_sortBy key l).mem_iff.mpr h
  cases hsorted : sortBy key l with
  | nil =>
    rw [hsorted] at hmem
    cases hmem
  | cons b rest => exact ⟨b, rfl⟩

/-- Elements that are told apart by their keys are sorted alike from every order. -/
theorem sortBy_eq_of_perm (hkey : Function.Injective key) (h : l.Perm l') :
    sortBy key l = sortBy key l' := by
  have hperm : (sortBy key l).Perm (sortBy key l') :=
    (perm_sortBy key l).trans (h.trans (perm_sortBy key l').symm)
  apply hperm.eq_of_pairwise _ (pairwise_sortBy key l) (pairwise_sortBy key l')
  intro a b _ _ hab hba
  exact hkey (le_antisymm hab hba)

/-- So are elements whose keys occur once. -/
theorem sortBy_eq_of_perm_of_nodup (hkey : (l.map key).Nodup) (h : l.Perm l') :
    sortBy key l = sortBy key l' := by
  have hperm : (sortBy key l).Perm (sortBy key l') :=
    (perm_sortBy key l).trans (h.trans (perm_sortBy key l').symm)
  apply hperm.eq_of_pairwise _ (pairwise_sortBy key l) (pairwise_sortBy key l')
  intro a b ha hb hab hba
  have hmem : ∀ x ∈ sortBy key l, x ∈ l := fun x hx => (perm_sortBy key l).mem_iff.mp hx
  exact List.inj_on_of_nodup_map hkey (hmem a ha) (hmem b (hperm.mem_iff.mpr hb))
    (le_antisymm hab hba)

/-- The runs of a sorted list, past elements to be left out. -/
theorem sortBy_filter_append (key : α → κ) (p : α → Bool) {x : α} (hl : ∀ a ∈ l, p a = true) (hx : p x = false) :
    sortBy key ((sortBy key (l ++ [x])).filter p ++ [x]) = sortBy key (l ++ [x]) := by
  apply sortBy_congr
  intro k
  have hself : (l.filter fun a => key a = k).filter p = l.filter fun a => key a = k := by
    rw [List.filter_eq_self]
    exact fun a ha => hl a (List.mem_of_mem_filter ha)
  have hgone : ([x].filter fun a => key a = k).filter p = [] := by
    rw [List.filter_eq_nil_iff]
    intro a ha
    rw [List.mem_singleton.mp (List.mem_of_mem_filter ha), hx]
    simp
  rw [List.filter_append, List.filter_filter, List.filter_append]
  have hcomm : ∀ m : List α, (m.filter fun a => decide (key a = k) && p a) =
      (m.filter fun a => key a = k).filter p := by
    intro m
    rw [List.filter_filter]
    exact List.filter_congr fun a _ => Bool.and_comm _ _
  rw [hcomm, filter_sortBy, List.filter_append, List.filter_append, hself, hgone, List.append_nil]

/-! ## Two lists woven into one -/

section

variable {first : α → α → Bool} {p : α → Bool}

/-- Puts an element before the first of the list it goes first of, and the rest into what
follows. -/
def weaveAt (first : α → α → Bool) (a : α) (rest : List α → List α) : List α → List α
  | [] => a :: rest []
  | b :: l' => if first a b then a :: rest (b :: l') else b :: weaveAt first a rest l'

/-- Takes the two lists' heads in turn: the left one where it goes first. -/
def weave (first : α → α → Bool) : List α → List α → List α
  | [], l' => l'
  | a :: l, l' => weaveAt first a (weave first l) l'

@[simp] theorem weave_nil_right : weave first l [] = l := by
  induction l with
  | nil => rfl
  | cons a l ih => exact congrArg _ ih

theorem weave_cons (a b : α) (l l' : List α) : weave first (a :: l) (b :: l') =
    if first a b then a :: weave first l (b :: l') else b :: weave first (a :: l) l' := rfl

theorem weave_perm : (weave first l l').Perm (l ++ l') := by
  induction l generalizing l' with
  | nil => exact List.Perm.refl _
  | cons a l ih =>
    induction l' with
    | nil => simp
    | cons b l' ih' =>
      rw [weave_cons]
      split_ifs
      · exact List.Perm.cons a ih
      · exact (List.Perm.cons b ih').trans List.perm_middle.symm

/-- The elements of the left list stand in the woven list in their order. -/
theorem filter_weave_left (hl : ∀ a ∈ l, p a = true) (hl' : ∀ a ∈ l', p a = false) :
    (weave first l l').filter p = l := by
  induction l generalizing l' with
  | nil => simpa [weave] using hl'
  | cons a l ih =>
    have ha := hl a List.mem_cons_self
    have hrest : ∀ b ∈ l, p b = true := fun b hb => hl b (List.mem_cons_of_mem a hb)
    induction l' with
    | nil => simpa [ha] using hrest
    | cons b l' ih' =>
      rw [weave_cons]
      split_ifs
      · rw [List.filter_cons_of_pos ha, ih hrest hl']
      · rw [List.filter_cons_of_neg (by simp [hl' b List.mem_cons_self])]
        exact ih' fun c hc => hl' c (List.mem_cons_of_mem b hc)

theorem filter_weave_right (hl : ∀ a ∈ l, p a = false) (hl' : ∀ a ∈ l', p a = true) :
    (weave first l l').filter p = l' := by
  induction l generalizing l' with
  | nil => simpa [weave] using hl'
  | cons a l ih =>
    have ha : ¬ p a = true := by simp [hl a List.mem_cons_self]
    have hrest : ∀ b ∈ l, p b = false := fun b hb => hl b (List.mem_cons_of_mem a hb)
    induction l' with
    | nil => simpa [ha] using hrest
    | cons b l' ih' =>
      rw [weave_cons]
      split_ifs
      · rw [List.filter_cons_of_neg ha, ih hrest hl']
      · rw [List.filter_cons_of_pos (hl' b List.mem_cons_self)]
        exact congrArg _ (ih' fun c hc => hl' c (List.mem_cons_of_mem b hc))

end

end Hedronetes.StableSort
