import Mathlib

/-!
# Bounded scans of a keyed list

A reader of a keyed table asks for the items strictly after a cursor, in key
order and at most `n` at a time, and continues after the last item it got.
Windows `(c, d]` describe what a sequence of such scans has covered. All
statements are about lists in strictly increasing key order.
-/

namespace Hedronetes.CursorScan

variable {α κ : Type*} [LinearOrder κ] (key : α → κ)

/-- One item per key, in increasing key order. -/
def Ascending (l : List α) : Prop := l.Pairwise fun a b => key a < key b

/-- SQL `ORDER BY key`. -/
def orderBy (l : List α) : List α := l.insertionSort fun a b => key a ≤ key b

/-- The items after the cursor `c`. -/
def beyond (c : κ) (l : List α) : List α := l.filter fun a => c < key a

/-- The items after `c` and not after `d`. -/
def window (c d : κ) (l : List α) : List α := l.filter fun a => c < key a ∧ key a ≤ d

/-- One bounded read: the first `n` items after the cursor. -/
def scan (n : ℕ) (c : κ) (l : List α) : List α := (beyond key c l).take n

variable {key}

instance (l : List α) : Decidable (Ascending key l) :=
  inferInstanceAs (Decidable (l.Pairwise fun a b => key a < key b))

theorem Ascending.filter {l : List α} (h : Ascending key l) (p : α → Bool) :
    Ascending key (l.filter p) := List.Pairwise.filter p h

theorem Ascending.nodup {l : List α} (h : Ascending key l) : l.Nodup :=
  h.imp fun hab heq => (heq ▸ hab).false

theorem Ascending.eq_of_key {l : List α} (h : Ascending key l) {a b : α}
    (ha : a ∈ l) (hb : b ∈ l) (he : key a = key b) : a = b := by
  induction l with
  | nil => simp at ha
  | cons x xs ih =>
    rcases List.pairwise_cons.mp h with ⟨hx, hxs⟩
    rcases List.mem_cons.mp ha with hax | ha
    · rcases List.mem_cons.mp hb with hbx | hb
      · rw [hax, hbx]
      · have hlt := hx b hb
        rw [← hax, he] at hlt
        exact (hlt.false).elim
    · rcases List.mem_cons.mp hb with hbx | hb
      · have hlt := hx a ha
        rw [← hbx, he] at hlt
        exact (hlt.false).elim
      · exact ih hxs ha hb

theorem Ascending.snoc {l : List α} (h : Ascending key l) {a : α}
    (ha : ∀ b ∈ l, key b < key a) : Ascending key (l ++ [a]) := by
  refine List.pairwise_append.mpr ⟨h, List.pairwise_singleton _ _, ?_⟩
  intro b hb c hc
  rw [List.mem_singleton.mp hc]
  exact ha b hb

/-- An ascending list is determined by its members. -/
theorem Ascending.eq_of_sublist {l m : List α} (h : Ascending key l) (hs : m.Sublist l)
    (hm : ∀ a ∈ l, a ∈ m) : m = l := by
  have hlen : l.length ≤ m.length := (h.nodup.subperm hm).length_le
  exact hs.eq_of_length_le hlen

/-- Two ascending lists with the same members are equal. -/
theorem Ascending.eq_of_mem_iff {l m : List α} (hl : Ascending key l) (hm : Ascending key m)
    (h : ∀ a, a ∈ l ↔ a ∈ m) : l = m := by
  have hp : l.Perm m := (List.perm_ext_iff_of_nodup hl.nodup hm.nodup).mpr h
  exact hp.eq_of_pairwise (fun a b _ _ hab hba => (lt_asymm hab hba).elim) hl hm

theorem orderBy_perm (l : List α) : (orderBy key l).Perm l := List.perm_insertionSort _ _

@[simp] theorem mem_orderBy {l : List α} {a : α} : a ∈ orderBy key l ↔ a ∈ l :=
  (orderBy_perm l).mem_iff

/-- Sorting a list already in key order leaves it alone. -/
theorem Ascending.orderBy_eq {l : List α} (h : Ascending key l) : orderBy key l = l :=
  List.Pairwise.insertionSort_eq (h.imp le_of_lt)

/-- Sorting distinct keys gives strictly increasing order. -/
theorem orderBy_ascending {l : List α} (hn : l.Pairwise fun a b => key a ≠ key b) :
    Ascending key (orderBy key l) := by
  have hle : (orderBy key l).Pairwise fun a b => key a ≤ key b :=
    List.pairwise_insertionSort (fun a b => key a ≤ key b) l
  have hne : (orderBy key l).Pairwise fun a b => key a ≠ key b :=
    ((orderBy_perm l).pairwise_iff fun h => h.symm).mpr hn
  exact (hle.and hne).imp fun h => lt_of_le_of_ne h.1 h.2

/-- Sorting and selecting commute when keys are distinct. -/
theorem orderBy_filter {l : List α} (hn : l.Pairwise fun a b => key a ≠ key b) (p : α → Bool) :
    orderBy key (l.filter p) = (orderBy key l).filter p := by
  refine Ascending.eq_of_mem_iff (orderBy_ascending (hn.filter p))
    ((orderBy_ascending hn).filter p) fun a => ?_
  simp

@[simp] theorem mem_beyond {c : κ} {l : List α} {a : α} :
    a ∈ beyond key c l ↔ a ∈ l ∧ c < key a := by simp [beyond]

@[simp] theorem mem_window {c d : κ} {l : List α} {a : α} :
    a ∈ window key c d l ↔ a ∈ l ∧ c < key a ∧ key a ≤ d := by simp [window]

theorem scan_subset {n : ℕ} {c : κ} {l : List α} {a : α} (h : a ∈ scan key n c l) :
    a ∈ l ∧ c < key a := mem_beyond.mp (List.mem_of_mem_take h)

theorem scan_length_le (n : ℕ) (c : κ) (l : List α) : (scan key n c l).length ≤ n :=
  List.length_take_le _ _

/-- A window with nothing above its upper end is everything after the cursor. -/
theorem beyond_eq_window {c d : κ} {l : List α} (h : ∀ a ∈ l, key a ≤ d) :
    beyond key c l = window key c d l := by
  apply List.filter_congr
  intro a ha
  simp [h a ha]

theorem window_eq_nil {c d : κ} {l : List α} (h : d ≤ c) : window key c d l = [] := by
  rw [List.eq_nil_iff_forall_not_mem]
  intro a ha
  obtain ⟨_, hc, hd⟩ := mem_window.mp ha
  exact absurd (hc.trans_le (hd.trans h)) (lt_irrefl _)

/-- A window and what comes after it join to what comes after its lower end. -/
theorem window_append_beyond {l : List α} (h : Ascending key l) {c d : κ} (hcd : c ≤ d) :
    window key c d l ++ beyond key d l = beyond key c l := by
  induction l with
  | nil => rfl
  | cons x xs ih =>
    obtain ⟨hx, hxs⟩ := List.pairwise_cons.mp h
    have ih := ih hxs
    by_cases hd : key x ≤ d
    · have hnd : ¬ d < key x := not_lt.mpr hd
      by_cases hc : c < key x
      · simpa [window, beyond, hc, hd, hnd] using ih
      · simpa [window, beyond, hc, hd, hnd] using ih
    · -- Everything from `x` on lies after `d`, so the window is empty.
      have hlt : d < key x := not_le.mp hd
      have hnil : window key c d (x :: xs) = [] := by
        rw [List.eq_nil_iff_forall_not_mem]
        intro a ha
        obtain ⟨ha, _, had⟩ := mem_window.mp ha
        rcases List.mem_cons.mp ha with rfl | ha
        · exact hd had
        · exact absurd (hlt.trans (hx a ha)) (not_lt.mpr had)
      rw [hnil, List.nil_append]
      apply List.filter_congr
      intro a ha
      have hda : d < key a := by
        rcases List.mem_cons.mp ha with rfl | ha
        · exact hlt
        · exact hlt.trans (hx a ha)
      simp [hda, hcd.trans_lt hda]

/-- Adjacent windows join. -/
theorem window_append {l : List α} (h : Ascending key l) {c d e : κ} (hcd : c ≤ d) (hde : d ≤ e) :
    window key c d l ++ window key d e l = window key c e l := by
  have hwindow : ∀ b, window key b e l = beyond key b (l.filter fun a => key a ≤ e) := fun b => by
    simp [window, beyond, List.filter_filter]
  have hlow : window key c d l = window key c d (l.filter fun a => key a ≤ e) := by
    rw [window, window, List.filter_filter]
    apply List.filter_congr
    intro a _
    by_cases hd : key a ≤ d
    · simp [hd, hd.trans hde]
    · simp [hd]
  rw [hwindow d, hwindow c, hlow]
  exact window_append_beyond (h.filter _) hcd

/-- Items that arrive after the upper end do not change a window. -/
theorem window_of_append {l m : List α} {c d : κ} (h : ∀ a ∈ m, d < key a) :
    window key c d (l ++ m) = window key c d l := by
  have hm : window key c d m = [] := by
    rw [List.eq_nil_iff_forall_not_mem]
    intro a ha
    obtain ⟨ha, _, hd⟩ := mem_window.mp ha
    exact absurd (h a ha) (not_lt.mpr hd)
  rw [window, List.filter_append]
  change _ ++ window key c d m = _
  rw [hm, List.append_nil]
  rfl

theorem beyond_of_append {l m : List α} {c : κ} (h : ∀ a ∈ m, c < key a) :
    beyond key c (l ++ m) = beyond key c l ++ m := by
  rw [beyond, List.filter_append]
  congr 1
  exact List.filter_eq_self.mpr fun a ha => by simp [h a ha]

/-- A read that returned fewer than `n` items returned all of them. -/
theorem scan_of_short {n : ℕ} {c : κ} {l : List α} (h : (scan key n c l).length ≠ n) :
    scan key n c l = beyond key c l := by
  apply List.take_of_length_le
  rw [scan, List.length_take] at h
  omega

/-- A read covers exactly the window up to its last item. -/
theorem scan_eq_window {l : List α} (h : Ascending key l) {n : ℕ} {c : κ} {z : α}
    (hz : (scan key n c l).getLast? = some z) : scan key n c l = window key c (key z) l := by
  have hasc : Ascending key (beyond key c l) := h.filter _
  obtain ⟨front, hfront⟩ := List.getLast?_eq_some_iff.mp hz
  have hsplit : beyond key c l = (front ++ [z]) ++ (beyond key c l).drop n := by
    rw [← hfront, scan, List.take_append_drop]
  rw [hsplit] at hasc
  obtain ⟨hleft, _, hcross⟩ := List.pairwise_append.mp hasc
  have hw : window key c (key z) l = (beyond key c l).filter fun a => key a ≤ key z := by
    simp [window, beyond, List.filter_filter, Bool.and_comm]
  have hkeep : (front ++ [z]).filter (fun a => key a ≤ key z) = front ++ [z] := by
    refine List.filter_eq_self.mpr fun a ha => ?_
    rcases List.mem_append.mp ha with ha | ha
    · have hlt := (List.pairwise_append.mp hleft).2.2 a ha z (by simp)
      simpa using hlt.le
    · simp [List.mem_singleton.mp ha]
  have hdrop : ((beyond key c l).drop n).filter (fun a => key a ≤ key z) = [] := by
    refine List.filter_eq_nil_iff.mpr fun a ha => ?_
    have hlt := hcross z (by simp) a ha
    simpa using hlt
  rw [hw, hsplit, List.filter_append, hkeep, hdrop, List.append_nil, hfront]

theorem scan_last_gt {n : ℕ} {c : κ} {l : List α} {z : α}
    (hz : (scan key n c l).getLast? = some z) : z ∈ l ∧ c < key z :=
  scan_subset (List.mem_of_getLast? hz)

end Hedronetes.CursorScan
