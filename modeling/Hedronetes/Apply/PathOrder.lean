import Hedronetes.Apply.Declared

/-!
# The order of declared paths

Declared paths are kept in a sorted set. Paths through one segment are ordered by
what follows it, and paths through different segments by the segments, so that
the paths below one child stand together, in the order of the keys.
-/

namespace Hedronetes.Apply

/-! ## Segments in order -/

theorem Segment.compare_field (name other : String) :
    compare (Segment.field name) (.field other) = compare name other := by
  change instOrdSegment.ord _ _ = _
  unfold instOrdSegment.ord
  simp

theorem Segment.compare_keyed (key value key' value' : String) :
    compare (Segment.keyed key value) (.keyed key' value') =
      (compare key key').then (compare value value') := by
  change instOrdSegment.ord _ _ = _
  unfold instOrdSegment.ord
  simp

theorem Segment.compare_field_keyed (name key value : String) :
    compare (Segment.field name) (.keyed key value) = .lt := by
  change instOrdSegment.ord _ _ = _
  unfold instOrdSegment.ord
  simp

theorem Segment.compare_keyed_field (name key value : String) :
    compare (Segment.keyed key value) (.field name) = .gt := by
  change instOrdSegment.ord _ _ = _
  unfold instOrdSegment.ord
  simp

/-- A segment as its kind, its key and its value. -/
def Segment.parts : Segment → Bool × String × String
  | .field name => (false, name, "")
  | .keyed key value => (true, key, value)

theorem Segment.compare_parts : (compare : Segment → Segment → Ordering) =
    compareLex (compareOn fun s => s.parts.1)
      (compareLex (compareOn fun s => s.parts.2.1) (compareOn fun s => s.parts.2.2)) := by
  funext s t
  cases s with
  | field name =>
    cases t with
    | field other =>
      rw [compare_field]
      simp [compareLex, compareOn, parts, Std.ReflOrd.compare_self]
    | keyed key value =>
      rw [compare_field_keyed]
      rfl
  | keyed key value =>
    cases t with
    | field other =>
      rw [compare_keyed_field]
      rfl
    | keyed key' value' =>
      rw [compare_keyed]
      simp [compareLex, compareOn, parts, Std.ReflOrd.compare_self]

instance : Std.TransOrd Segment := by
  unfold Std.TransOrd
  rw [Segment.compare_parts]
  infer_instance

instance : Std.LawfulEqOrd Segment where
  eq_of_compare := by
    intro s t h
    cases s <;> cases t <;>
      simp_all [Segment.compare_field, Segment.compare_keyed, Segment.compare_field_keyed,
        Segment.compare_keyed_field, Ordering.then_eq_eq]

/-! ## Paths in order -/

/-- The first path comes before the second. -/
def Before (x p : Path) : Prop := compare x p = .lt

theorem before_cons {s t : Segment} {x p : Path} :
    Before (s :: x) (t :: p) ↔ compare s t = .lt ∨ s = t ∧ Before x p := by
  unfold Before
  rw [List.compare_cons_cons, Ordering.then_eq_lt, Std.LawfulEqOrd.compare_eq_iff_eq]

theorem before_append (c : Path) {x p : Path} : Before (c ++ x) (c ++ p) ↔ Before x p := by
  induction c with
  | nil => rfl
  | cons s c ih =>
    rw [List.cons_append, List.cons_append, before_cons, ih, Std.ReflOrd.compare_self]
    simp

theorem Before.trans {x p q : Path} (h : Before x p) (h' : Before p q) : Before x q :=
  Std.TransCmp.lt_trans h h'

theorem Before.irrefl (x : Path) : ¬ Before x x := by
  unfold Before
  rw [Std.ReflOrd.compare_self]
  simp

theorem Before.asymm {x p : Path} (h : Before x p) : ¬ Before p x :=
  fun h' => Before.irrefl x (h.trans h')

theorem before_total {x p : Path} (hne : x ≠ p) (h : ¬ Before x p) : Before p x := by
  unfold Before at *
  cases hc : compare x p with
  | lt => exact absurd hc h
  | eq => exact absurd (Std.LawfulEqOrd.eq_of_compare hc) hne
  | gt => rwa [Std.OrientedCmp.gt_iff_lt] at hc

/-- A sorted set of paths. -/
def Sorted (ds : List Path) : Prop := ds.Pairwise Before

theorem Sorted.insert {path : Path} {out : List Path} (h : Sorted out) :
    Sorted (insertPath path out) := by
  induction out with
  | nil => exact List.pairwise_singleton _ _
  | cons other out ih =>
    obtain ⟨hother, hout⟩ := List.pairwise_cons.mp h
    unfold insertPath
    split_ifs with he hlt
    · exact h
    · have hbefore : Before path other := Ordering.isLT_iff_eq_lt.mp hlt
      apply List.pairwise_cons.mpr ⟨_, h⟩
      intro p hp
      rcases List.mem_cons.mp hp with rfl | hp
      · exact hbefore
      · exact hbefore.trans (hother p hp)
    · apply List.pairwise_cons.mpr ⟨_, ih hout⟩
      intro p hp
      rcases mem_insertPath.mp hp with rfl | hp
      · apply before_total he
        intro hbefore
        exact hlt (Ordering.isLT_iff_eq_lt.mpr hbefore)
      · exact hother p hp

theorem sorted_walkFields {u : Bool} {path : Path} {fields : List (String × Json)}
    (ih : ∀ e ∈ fields, ∀ (u : Bool) (c : Path) (out : List Path), Sorted out →
      Sorted (walk u c e.2 out)) {out : List Path} (h : Sorted out) :
    Sorted (walkFields u path fields out) := by
  induction fields generalizing out with
  | nil => exact h
  | cons e fields ihf =>
    have hrest := fun o => @ihf (fun e he => ih e (List.mem_cons_of_mem _ he)) o
    unfold walkFields
    split_ifs
    · exact hrest out h
    · exact hrest _ (ih e List.mem_cons_self _ _ out h)

theorem sorted_walkItems {path : Path} {items : List Json}
    (ih : ∀ j ∈ items, ∀ (u : Bool) (c : Path) (out : List Path), Sorted out →
      Sorted (walk u c j out)) {out : List Path} (h : Sorted out) :
    Sorted (walkItems path items out) := by
  induction items generalizing out with
  | nil => exact h
  | cons j items ihi =>
    unfold walkItems
    exact ihi (fun k hk => ih k (List.mem_cons_of_mem _ hk)) (ih j List.mem_cons_self _ _ out h)

theorem sorted_walk (j : Json) : ∀ (u : Bool) (c : Path) (out : List Path), Sorted out →
    Sorted (walk u c j out) := by
  induction j with
  | object fields ih =>
    intro u c out h
    rw [walk]
    exact sorted_walkFields ih h
  | array items ih =>
    intro u c out h
    rw [walk]
    split_ifs
    · exact sorted_walkItems ih h
    · exact h.insert
  | _ =>
    intro u c out h
    exact h.insert

theorem sorted_declared (j : Json) : Sorted (declared j) :=
  sorted_walk j false [] [] List.Pairwise.nil

/-! ## The paths below one segment -/

/-- What follows the segment on the paths that start with it. -/
def tails (s : Segment) (ds : List Path) : List Path :=
  ds.filterMap fun d =>
    match d with
    | t :: q => if t = s then some q else none
    | [] => none

theorem mem_tails {s : Segment} {ds : List Path} {q : Path} : q ∈ tails s ds ↔ s :: q ∈ ds := by
  unfold tails
  rw [List.mem_filterMap]
  constructor
  · rintro ⟨d, hd, h⟩
    match d with
    | [] => cases h
    | t :: q' =>
      dsimp only at h
      split_ifs at h with ht
      rwa [← ht, ← Option.some.inj h]
  · intro h
    exact ⟨_, h, by simp⟩

@[simp] theorem tails_nil (s : Segment) : tails s [] = [] := rfl

theorem tails_cons_self (s : Segment) (q : Path) (ds : List Path) :
    tails s ((s :: q) :: ds) = q :: tails s ds := by
  simp [tails]

theorem tails_cons_ne {s t : Segment} (h : t ≠ s) (q : Path) (ds : List Path) :
    tails s ((t :: q) :: ds) = tails s ds := by
  simp [tails, h]

theorem Sorted.tails {ds : List Path} (h : Sorted ds) (s : Segment) : Sorted (tails s ds) := by
  induction ds with
  | nil => exact List.Pairwise.nil
  | cons d ds ih =>
    obtain ⟨hd, hds⟩ := List.pairwise_cons.mp h
    match d with
    | [] => exact ih hds
    | t :: q =>
      by_cases ht : t = s
      · subst ht
        rw [tails_cons_self]
        apply List.pairwise_cons.mpr ⟨_, ih hds⟩
        intro p hp
        rcases before_cons.mp (hd _ (mem_tails.mp hp)) with hlt | ⟨_, hbefore⟩
        · rw [Std.ReflOrd.compare_self] at hlt
          cases hlt
        · exact hbefore
      · rw [tails_cons_ne ht]
        exact ih hds

/-- What follows a path on the paths that go through it. -/
def below : Path → List Path → List Path
  | [], ds => ds
  | s :: c, ds => below c (tails s ds)

theorem Sorted.below {ds : List Path} (h : Sorted ds) (c : Path) : Sorted (below c ds) := by
  induction c generalizing ds with
  | nil => exact h
  | cons s c ih => exact ih (h.tails s)

theorem Sorted.nodup {ds : List Path} (h : Sorted ds) : ds.Nodup := by
  apply List.Pairwise.imp _ h
  rintro x p hbefore rfl
  exact Before.irrefl x hbefore

/-- A sorted set is determined by its members. -/
theorem Sorted.eq_of_mem_iff {ds es : List Path} (hd : Sorted ds) (he : Sorted es)
    (h : ∀ p, p ∈ ds ↔ p ∈ es) : ds = es := by
  apply ((List.perm_ext_iff_of_nodup hd.nodup he.nodup).mpr h).eq_of_pairwise _ hd he
  intro a b _ _ hab hba
  exact absurd hba hab.asymm

end Hedronetes.Apply
