import Mathlib

/-!
# Serving demands from an ordered range

Demands are served one after the other: a fixed demand gets its element, an open one the first
element of the range that is free. An open demand may take what a later fixed one needs, so the
order decides whether all are served; this is when they are.
-/

namespace Hedronetes.FirstFree

universe u

variable {α : Type u}

/-- What the demands name. -/
def fixed (demands : List (Option α)) : List α := demands.filterMap id

/-- How many demands name nothing. -/
def opened (demands : List (Option α)) : ℕ := demands.countP Option.isNone

@[simp] theorem fixed_some {demands : List (Option α)} {a : α} :
    fixed (some a :: demands) = a :: fixed demands := rfl

@[simp] theorem fixed_none {demands : List (Option α)} :
    fixed (none :: demands) = fixed demands := rfl

@[simp] theorem opened_some {demands : List (Option α)} {a : α} :
    opened (some a :: demands) = opened demands := by
  simp [opened]

@[simp] theorem opened_none {demands : List (Option α)} :
    opened (none :: demands) = opened demands + 1 := by
  simp [opened]

variable [LinearOrder α]

/-- Serves the demands in their order; what is in use cannot be given again. -/
def serve (range : List α) : List (Option α) → List α → Option (List α)
  | [], _ => some []
  | demand :: demands, used =>
    match demand.or (range.find? (· ∉ used)) with
    | some a => if a ∈ used then none else (serve range demands (a :: used)).map (a :: ·)
    | none => none

/-- What is neither in use nor named. -/
def free (range : List α) (demands : List (Option α)) (used : List α) : List α :=
  range.filter fun a => a ∉ used ∧ a ∉ fixed demands

variable {range used served : List α} {demands : List (Option α)} {a c f : α}

theorem mem_free : a ∈ free range demands used ↔ a ∈ range ∧ a ∉ used ∧ a ∉ fixed demands := by
  simp [free]

/-- A fixed demand gets its element, an open one an element of the range. -/
def Serves (range : List α) (demand : Option α) (a : α) : Prop :=
  (∀ f, demand = some f → a = f) ∧ (demand = none → a ∈ range)

/-- What is served is different and was free. -/
theorem serve_sound (h : serve range demands used = some served) :
    List.Forall₂ (Serves range) demands served ∧ served.Nodup ∧ ∀ a ∈ served, a ∉ used := by
  induction demands generalizing used served with
  | nil =>
    obtain rfl := Option.some.inj h
    exact ⟨List.Forall₂.nil, List.nodup_nil, by simp⟩
  | cons demand demands ih =>
    unfold serve at h
    split at h
    · rename_i a ha
      split_ifs at h with hused
      obtain ⟨rest, hrest, rfl⟩ := Option.map_eq_some_iff.mp h
      obtain ⟨hserves, hnodup, hfree⟩ := ih hrest
      refine ⟨List.Forall₂.cons ⟨?_, ?_⟩ hserves, List.nodup_cons.mpr ⟨?_, hnodup⟩, ?_⟩
      · rintro f rfl
        exact (Option.some.inj ha).symm
      · rintro rfl
        exact List.mem_of_find?_eq_some ha
      · intro hmem
        exact hfree a hmem List.mem_cons_self
      · intro b hb
        rcases List.mem_cons.mp hb with rfl | hb
        · exact hused
        · exact fun hold => hfree b hb (List.mem_cons_of_mem a hold)
    · cases h

omit [LinearOrder α] in
theorem Serves.of_mem (h : List.Forall₂ (Serves range) demands served) (hf : f ∈ fixed demands) :
    f ∈ served := by
  induction h with
  | nil => cases hf
  | @cons demand a demands served hserves _ ih =>
    cases demand with
    | none => exact List.mem_cons_of_mem a (ih hf)
    | some g =>
      rcases List.mem_cons.mp hf with rfl | hf
      · rw [hserves.1 f rfl]
        exact List.mem_cons_self
      · exact List.mem_cons_of_mem a (ih hf)

/-- A named element in use cannot be served. -/
theorem serve_taken (hf : f ∈ fixed demands) (hused : f ∈ used) :
    serve range demands used = none := by
  cases h : serve range demands used with
  | none => rfl
  | some served =>
    obtain ⟨hserves, _, hfree⟩ := serve_sound h
    exact absurd hused (hfree f (Serves.of_mem hserves hf))

/-! ## When all are served -/

/-- The demands can be served in some way: what they name is different and free, and the range has
room for the others. -/
structure Servable (range : List α) (demands : List (Option α)) (used : List α) : Prop where
  nodup : (fixed demands).Nodup
  unused : ∀ f ∈ fixed demands, f ∉ used
  room : opened demands ≤ (free range demands used).length

/-- Below each named element of the range there is room for the open demands before it. -/
def Unobstructed (range : List α) (demands : List (Option α)) (used : List α) : Prop :=
  ∀ before f after, demands = before ++ some f :: after → f ∈ range →
    opened before ≤ ((free range demands used).filter (· < f)).length

/-- The first free element has only used ones before it. -/
theorem find?_first (hsorted : range.Pairwise (· < ·)) (h : range.find? (· ∉ used) = some c) :
    c ∈ range ∧ c ∉ used ∧ ∀ a ∈ range, a < c → a ∈ used := by
  refine ⟨List.mem_of_find?_eq_some h, by simpa using List.find?_some h, ?_⟩
  induction range with
  | nil => cases h
  | cons b range ih =>
    obtain ⟨hb, hrange⟩ := List.pairwise_cons.mp hsorted
    by_cases hused : b ∈ used
    · rw [List.find?_cons_of_neg (by simpa using hused)] at h
      intro a ha hlt
      rcases List.mem_cons.mp ha with rfl | ha
      · exact hused
      · exact ih hrange h a ha hlt
    · rw [List.find?_cons_of_pos (by simpa using hused)] at h
      obtain rfl := Option.some.inj h
      intro a ha hlt
      rcases List.mem_cons.mp ha with rfl | ha
      · exact absurd hlt (lt_irrefl a)
      · exact absurd (hb a ha) (not_lt_of_gt hlt)

theorem free_some : free range (some f :: demands) used = free range demands (f :: used) := by
  unfold free
  apply List.filter_congr
  intro a _
  simp only [fixed_some, List.mem_cons, not_or, decide_eq_decide]
  tauto

theorem free_none : free range (none :: demands) used = free range demands used := rfl

theorem free_used :
    free range demands (c :: used) = (free range demands used).filter (· ≠ c) := by
  unfold free
  rw [List.filter_filter]
  apply List.filter_congr
  intro a _
  rw [Bool.eq_iff_iff]
  simp [and_assoc]

/-- Taking an element that is free leaves one fewer. -/
theorem length_free_used (hnodup : range.Nodup) (hc : c ∈ free range demands used)
    (p : α → Bool) (hp : p c = true) :
    ((free range demands (c :: used)).filter p).length + 1 =
      ((free range demands used).filter p).length := by
  have hmem := mem_free.mp hc
  have hsub : (free range demands used).Nodup := hnodup.filter _
  have hcp : c ∈ (free range demands used).filter p := List.mem_filter.mpr ⟨hc, hp⟩
  rw [free_used, List.filter_filter]
  have hcomm : (fun a => p a && decide (a ≠ c)) = fun a => decide (a ≠ c) && p a := by
    funext a
    exact Bool.and_comm _ _
  rw [hcomm, ← List.filter_filter]
  have herase := (hsub.filter p).erase_eq_filter c
  have hlength := List.length_erase_of_mem hcp
  have hpos := List.length_pos_of_mem hcp
  have hsame : (((free range demands used).filter p).filter fun a => decide (a ≠ c)) =
      ((free range demands used).filter p).erase c := by
    rw [herase]
    apply List.filter_congr
    intro a _
    rw [Bool.eq_iff_iff]
    simp
  rw [hsame, hlength]
  omega

theorem unobstructed_some : Unobstructed range (some f :: demands) used ↔
    Unobstructed range demands (f :: used) := by
  constructor
  · intro h before g after hsplit hg
    have hall := h (some f :: before) g after (by rw [hsplit]; rfl) hg
    rwa [opened_some, free_some] at hall
  · intro h before g after hsplit hg
    cases before with
    | nil => exact Nat.zero_le _
    | cons demand before =>
      obtain ⟨rfl, hrest⟩ := List.cons.inj hsplit
      rw [opened_some, free_some]
      exact h before g after hrest hg

/-- The demands are all served if and only if none of the open ones is in the way of a named
element. The induction is on the demands; an open one takes the first free element, which is
either named later, and then lost, or one of the free ones. -/
theorem served_iff (hsorted : range.Pairwise (· < ·)) (h : Servable range demands used) :
    (∃ served, serve range demands used = some served) ↔ Unobstructed range demands used := by
  induction demands generalizing used with
  | nil =>
    constructor
    · intro _ before f after hsplit
      exact absurd hsplit (by simp)
    · intro _
      exact ⟨[], rfl⟩
  | cons demand demands ih =>
    cases demand with
    | some f =>
      have hunused := h.unused f List.mem_cons_self
      have hnodup := List.nodup_cons.mp h.nodup
      have hrest : Servable range demands (f :: used) := by
        refine ⟨hnodup.2, ?_, ?_⟩
        · intro g hg hmem
          rcases List.mem_cons.mp hmem with rfl | hmem
          · exact hnodup.1 hg
          · exact h.unused g (List.mem_cons_of_mem f hg) hmem
        · have hroom := h.room
          rwa [opened_some, free_some] at hroom
      rw [unobstructed_some, ← ih hrest]
      simp [serve, hunused]
    | none =>
      have hroom := h.room
      rw [opened_none] at hroom
      obtain ⟨b, hb⟩ := List.exists_mem_of_length_pos (by omega :
        0 < (free range (none :: demands) used).length)
      have hbfree := mem_free.mp hb
      obtain ⟨c, hfind⟩ : ∃ c, range.find? (· ∉ used) = some c := by
        apply Option.isSome_iff_exists.mp
        rw [List.find?_isSome]
        exact ⟨b, hbfree.1, by simpa using hbfree.2.1⟩
      obtain ⟨hc, hunused, hfirst⟩ := find?_first hsorted hfind
      have hserve : (∃ served, serve range (none :: demands) used = some served) ↔
          ∃ served, serve range demands (c :: used) = some served := by
        simp only [serve, Option.none_or, hfind, if_neg hunused]
        simp
      rw [hserve]
      by_cases hnamed : c ∈ fixed demands
      · -- the element is named later: nothing free lies below it
        rw [serve_taken hnamed List.mem_cons_self]
        constructor
        · rintro ⟨_, hno⟩
          cases hno
        · intro hall
          obtain ⟨demand, hdemand, rfl⟩ := List.mem_filterMap.mp hnamed
          obtain ⟨before, after, rfl⟩ := List.append_of_mem hdemand
          have hbelow := hall (none :: before) c after rfl hc
          have hempty : (free range (none :: (before ++ some c :: after)) used).filter (· < c) =
              [] := by
            rw [List.filter_eq_nil_iff]
            intro a ha
            have hafree := mem_free.mp ha
            rw [decide_eq_true_eq]
            exact fun hlt => hafree.2.1 (hfirst a hafree.1 hlt)
          rw [opened_none, hempty] at hbelow
          exact absurd hbelow (by simp)
      · have hcfree : c ∈ free range demands used := mem_free.mpr ⟨hc, hunused, hnamed⟩
        have hnodup : range.Nodup := hsorted.imp ne_of_lt
        have hrest : Servable range demands (c :: used) := by
          refine ⟨h.nodup, ?_, ?_⟩
          · intro g hg hmem
            rcases List.mem_cons.mp hmem with rfl | hmem
            · exact hnamed hg
            · exact h.unused g hg hmem
          · have hcount := length_free_used hnodup hcfree (fun _ => true) rfl
            rw [List.filter_true, List.filter_true] at hcount
            rw [free_none] at hroom
            omega
        rw [ih hrest]
        -- a named element of the range lies above the one taken
        have habove : ∀ g ∈ fixed demands, g ∈ range → c < g := by
          intro g hg hrange
          rcases lt_trichotomy c g with hlt | rfl | hgt
          · exact hlt
          · exact absurd hg hnamed
          · exact absurd (hfirst g hrange hgt) (h.unused g hg)
        constructor
        · intro hall before g after hsplit hg
          cases before with
          | nil => exact Nat.zero_le _
          | cons demand before =>
            obtain ⟨rfl, htail⟩ := List.cons.inj hsplit
            have hmem : g ∈ fixed demands := by
              rw [htail]
              simp [fixed]
            have hcount := length_free_used hnodup hcfree (· < g)
              (decide_eq_true (habove g hmem hg))
            have hbelow := hall before g after htail hg
            rw [opened_none, free_none]
            omega
        · intro hall before g after hsplit hg
          have hmem : g ∈ fixed demands := by
            rw [hsplit]
            simp [fixed]
          have hcount := length_free_used hnodup hcfree (· < g)
            (decide_eq_true (habove g hmem hg))
          have hbelow := hall (none :: before) g after (by rw [hsplit]; rfl) hg
          rw [opened_none, free_none] at hbelow
          omega

end Hedronetes.FirstFree
