import Hedronetes.Controllers.Deployment

/-!
# Rolling updates

What a rolling update guarantees is what the ReplicaSets have available and still ask for. A step
of the plan changes the replicas of one set.
-/

namespace Hedronetes.Controllers

open Server Fallible

/-! ## Counts of the sets -/

/-- How many replicas a set asks for. -/
def wanted (r : Json) : ℤ := max (r["spec"]["replicas"].asInt.getD 0) 0

abbrev availableOf (r : Json) : ℤ := count r "availableReplicas"

/-- The replicas of a set that are available and stay so while it scales. -/
def kept (r : Json) : ℤ := min (availableOf r) (wanted r)

def total (sets : List Json) : ℤ := (sets.map wanted).sum

def available (sets : List Json) : ℤ := (sets.map availableOf).sum

def guaranteed (sets : List Json) : ℤ := (sets.map kept).sum

theorem wanted_nonneg (r : Json) : 0 ≤ wanted r := le_max_right _ _

theorem count_nonneg (r : Json) (field : String) : 0 ≤ count r field := le_max_right _ _

theorem wanted_of_replicas {r : Json} {n : ℤ} (h : replicas r = .ok n) : wanted r = n := by
  obtain ⟨hread, hpos, _⟩ := replicas_ok.mp h
  rw [wanted, hread, Option.getD_some, max_eq_left hpos]

theorem kept_nonneg (r : Json) : 0 ≤ kept r := le_min (count_nonneg _ _) (wanted_nonneg r)

theorem guaranteed_le_available (sets : List Json) : guaranteed sets ≤ available sets :=
  List.sum_le_sum fun _ _ => min_le_left _ _

/-- All that is available is guaranteed when no set has more than it asks for. -/
theorem guaranteed_eq_available {sets : List Json} :
    guaranteed sets = available sets ↔ ∀ r ∈ sets, availableOf r ≤ wanted r := by
  induction sets with
  | nil => simp [guaranteed, available]
  | cons r sets ih =>
    have hle := guaranteed_le_available sets
    simp only [guaranteed, available, List.map_cons, List.sum_cons, List.forall_mem_cons] at ih hle ⊢
    rw [← ih]
    have hkept : kept r = min (availableOf r) (wanted r) := rfl
    constructor
    · intro h
      constructor <;> omega
    · rintro ⟨hr, hsets⟩
      omega

/-- A change of one element changes a sum by the difference. -/
theorem sum_modify (f : Json → ℤ) {g : Json → Json} {sets : List Json} {i : ℕ} {r : Json}
    (h : sets[i]? = some r) :
    ((sets.modify i g).map f).sum = (sets.map f).sum - f r + f (g r) := by
  induction sets generalizing i with
  | nil => simp at h
  | cons s sets ih =>
    cases i with
    | zero =>
      obtain rfl : s = r := by simpa using h
      simp only [List.modify_zero_cons, List.map_cons, List.sum_cons]
      ring
    | succ i =>
      have hrest := ih (by simpa using h)
      simp only [List.modify_succ_cons, List.map_cons, List.sum_cons, hrest]
      ring

theorem sum_eraseIdx (f : Json → ℤ) {sets : List Json} {i : ℕ} {r : Json} (h : sets[i]? = some r) :
    ((sets.eraseIdx i).map f).sum = (sets.map f).sum - f r := by
  induction sets generalizing i with
  | nil => simp at h
  | cons s sets ih =>
    cases i with
    | zero =>
      obtain rfl : s = r := by simpa using h
      simp
    | succ i =>
      have hrest := ih (by simpa using h)
      simp only [List.eraseIdx_cons_succ, List.map_cons, List.sum_cons, hrest]
      ring

/-! ## A step -/

/-- `rs["spec"]["replicas"] = n`. -/
def scaled (n : ℤ) (rs : Json) : Json :=
  match setAt rs ["spec", "replicas"] (.number (.int n)) with
  | .ok rs => rs
  | .error _ => rs

/-- The sets when the action of a plan has been written. -/
def applied (sets : List Json) (action : ℕ × ℤ) : List Json :=
  sets.modify action.1 (scaled action.2)

/-- A set whose replicas can be read takes others: it is an object, and so is its spec. -/
theorem exists_setAt_replicas {r : Json} {m : ℤ} (hr : replicas r = .ok m) (v : Json) :
    ∃ result, setAt r ["spec", "replicas"] v = .ok result := by
  obtain ⟨hread, _, _⟩ := replicas_ok.mp hr
  cases r with
  | object fields =>
    have hfield : (Json.object fields)["spec"] = (FirstMatch.lookup "spec" fields).getD .null := rfl
    cases hspec : (FirstMatch.lookup "spec" fields).getD .null with
    | object inner => simp [setAt, hspec, Bind.bind, Except.bind, pure, Except.pure]
    | null => simp [setAt, hspec, Bind.bind, Except.bind, pure, Except.pure]
    | _ =>
      rw [hfield, hspec] at hread
      cases hread
  | _ => cases hread

theorem scaled_spec {r : Json} {m n : ℤ} (hr : replicas r = .ok m) (hn : 0 ≤ n) (hle : n ≤ LIMIT) :
    replicas (scaled n r) = .ok n ∧ (scaled n r)["status"] = r["status"] ∧
      (scaled n r)["metadata"] = r["metadata"] := by
  have hint : (Json.number (.int n)).asInt = some n := by
    unfold LIMIT at hle
    rw [Json.asInt, if_pos (by omega)]
  obtain ⟨result, hset⟩ := exists_setAt_replicas hr (.number (.int n))
  have hscaled : scaled n r = result := by rw [scaled, hset]
  rw [hscaled]
  have hstep := getElem_setAt_step hset
  refine ⟨replicas_ok.mpr ⟨?_, hn, hle⟩, getElem_setAt_ne hset (by decide),
    getElem_setAt_ne hset (by decide)⟩
  rw [getElem_setAt hstep]
  exact hint

/-- The sum of the replicas is taken of readable counts. -/
theorem total_of_foldlM {sets : List Json} {start sum : ℤ}
    (h : sets.foldlM (fun sum r => do checked (sum + (← replicas r)) "replica sum overflow") start =
      .ok sum) : sum = start + total sets ∧ ∀ r ∈ sets, replicas r = .ok (wanted r) := by
  induction sets generalizing start with
  | nil =>
    obtain rfl := Except.ok.inj h
    simp [total]
  | cons r sets ih =>
    rw [List.foldlM_cons] at h
    obtain ⟨next, hnext, h⟩ := bind_eq_ok.mp h
    obtain ⟨n, hn, hnext⟩ := bind_eq_ok.mp hnext
    have hwanted := wanted_of_replicas hn
    unfold checked at hnext
    split_ifs at hnext
    obtain rfl := Except.ok.inj hnext
    obtain ⟨hsum, hsets⟩ := ih h
    refine ⟨?_, ?_⟩
    · rw [hsum, total, total, List.map_cons, List.sum_cons, hwanted, add_assoc]
    · rintro s hs
      rcases List.mem_cons.mp hs with rfl | hs
      · rw [hwanted, hn]
      · exact hsets s hs

/-- How many replicas the plan takes from an old set. -/
def removed (excess : ℤ) (r : Json) : ℤ :=
  min (wanted r) (max (wanted r - availableOf r) 0 + excess)

/-- The first old set that has replicas to remove loses them. -/
structure Removes (sets : List Json) (new : ℕ) (excess : ℤ) (i : ℕ) (r : Json) : Prop where
  place : sets[i]? = some r
  old : i ≠ new
  some : 0 < removed excess r
  first : ∀ j < i, j ≠ new → ∀ s, sets[j]? = Option.some s → removed excess s ≤ 0

theorem mem_places {sets : List Json} {r : Json} {i : ℕ} :
    (r, i) ∈ places sets ↔ sets[i]? = some r := by
  rw [places, List.mem_zipIdx_iff_getElem?]

theorem shrink_eq {new i : ℕ} {excess : ℤ} {r : Json} (hr : replicas r = .ok (wanted r)) :
    shrink new excess (r, i) = .ok (if i = new then none
      else if 0 < removed excess r then some (i, wanted r - removed excess r) else none) := by
  unfold shrink
  by_cases hi : i = new
  · simp only [if_pos hi]
    rfl
  · simp only [if_neg hi, hr]
    rfl

theorem scaleDown_some {sets : List Json} {new : ℕ} {excess : ℤ} {action : ℕ × ℤ}
    (hcounts : ∀ r ∈ sets, replicas r = .ok (wanted r))
    (h : scaleDown sets new excess = .ok (some action)) :
    ∃ i r, Removes sets new excess i r ∧ action = (i, wanted r - removed excess r) := by
  obtain ⟨before, ⟨r, i⟩, after, hplaces, hfound, hnone⟩ := findSomeM?_eq_some h
  have hr : sets[i]? = some r := mem_places.mp (by rw [hplaces]; simp)
  have hi : i = before.length := by
    have hat : (places sets)[before.length]? = some (r, i) := by simp [hplaces]
    rw [places, List.getElem?_zipIdx] at hat
    obtain ⟨s, _, he⟩ := Option.map_eq_some_iff.mp hat
    simpa using (congrArg Prod.snd he).symm
  rw [shrink_eq (hcounts r (List.mem_of_getElem? hr))] at hfound
  have hold : i ≠ new := by
    rintro rfl
    rw [if_pos rfl] at hfound
    cases Except.ok.inj hfound
  have hsome : 0 < removed excess r := by
    by_contra hnone
    rw [if_neg hold, if_neg hnone] at hfound
    cases Except.ok.inj hfound
  rw [if_neg hold, if_pos hsome] at hfound
  obtain rfl := Option.some.inj (Except.ok.inj hfound)
  refine ⟨i, r, ⟨hr, hold, hsome, fun j hj hne s hs => ?_⟩, rfl⟩
  have hmem : (s, j) ∈ before := by
    have hat : (places sets)[j]? = some (s, j) := by
      rw [places, List.getElem?_zipIdx, hs]
      simp
    rw [hplaces, List.getElem?_append_left (hi ▸ hj)] at hat
    exact List.mem_of_getElem? hat
  have hpass := hnone _ hmem
  rw [shrink_eq (hcounts s (List.mem_of_getElem? hs)), if_neg hne] at hpass
  by_contra hpos
  rw [if_pos (not_le.mp hpos)] at hpass
  cases Except.ok.inj hpass

/-- No old set has replicas to remove. -/
theorem scaleDown_none {sets : List Json} {new : ℕ} {excess : ℤ}
    (hcounts : ∀ r ∈ sets, replicas r = .ok (wanted r)) :
    scaleDown sets new excess = .ok none ↔
      ∀ i r, sets[i]? = some r → i ≠ new → removed excess r ≤ 0 := by
  rw [scaleDown, findSomeM?_eq_none]
  constructor
  · intro h i r hr hi
    have hpass := h (r, i) (mem_places.mpr hr)
    rw [shrink_eq (hcounts r (List.mem_of_getElem? hr)), if_neg hi] at hpass
    by_contra hpos
    rw [if_pos (not_le.mp hpos)] at hpass
    cases Except.ok.inj hpass
  · rintro h ⟨r, i⟩ hplace
    have hr := mem_places.mp hplace
    rw [shrink_eq (hcounts r (List.mem_of_getElem? hr))]
    by_cases hi : i = new
    · rw [if_pos hi]
    · rw [if_neg hi, if_neg (not_lt.mpr (h i r hr hi))]

/-- The search for replicas to remove goes through when all counts can be read. -/
theorem scaleDown_ok {sets : List Json} {new : ℕ} {excess : ℤ}
    (hcounts : ∀ r ∈ sets, replicas r = .ok (wanted r)) :
    ∃ found, scaleDown sets new excess = .ok found := by
  have hall : ∀ place ∈ places sets, ∃ found, shrink new excess place = .ok found := by
    rintro ⟨r, i⟩ hplace
    exact ⟨_, shrink_eq (hcounts r (List.mem_of_getElem? (mem_places.mp hplace)))⟩
  exact findSomeM?_exists_ok hall

/-! ## What the plan does -/

/-- The available replicas beyond those that must stay. -/
def excessOf (sets : List Json) (needed : ℤ) : ℤ := max (available sets - needed) 0

/-- A rolling update that has room to start new replicas. -/
def HasRoom (sets : List Json) (r : Json) (desired surge : ℤ) : Prop :=
  wanted r < desired ∧ total sets < desired + surge

/-- What an action of a rolling update is. -/
inductive Action (sets : List Json) (new : ℕ) (r : Json) (desired surge unavailable : ℤ) :
    ℕ × ℤ → Prop
  | lower : desired < wanted r → Action sets new r desired surge unavailable (new, desired)
  | grow : HasRoom sets r desired surge → (∀ s ∈ sets, replicas s = .ok (wanted s)) →
      Action sets new r desired surge unavailable
        (new, wanted r + min (desired - wanted r) (desired + surge - total sets))
  | shrink {i : ℕ} {s : Json} : wanted r ≤ desired → ¬ HasRoom sets r desired surge →
      (∀ s ∈ sets, replicas s = .ok (wanted s)) →
      Removes sets new (excessOf sets (desired - unavailable)) i s →
      Action sets new r desired surge unavailable
        (i, wanted s - removed (excessOf sets (desired - unavailable)) s)

section Plan

variable {d : Json} {sets : List Json} {new : ℕ} {desired surge unavailable : ℤ}

theorem pick_ok {r : Json} (h : pick sets new = .ok r) : sets[new]? = some r := by
  unfold pick at h
  split at h
  · rename_i s hs
    rwa [← Except.ok.inj h]
  · cases h

theorem roll_some {action : ℕ × ℤ} {r : Json} (hbounds : bounds d = .ok (surge, unavailable))
    (h : roll d sets new (wanted r) desired = .ok (some action)) :
    Action sets new r desired surge unavailable action := by
  obtain ⟨⟨s, u⟩, hb, h⟩ := bind_eq_ok.mp h
  obtain ⟨rfl, rfl⟩ := Prod.mk.inj (Except.ok.inj (hbounds.symm.trans hb))
  dsimp only at h
  split_ifs at h with hlower
  · obtain rfl := Option.some.inj (Except.ok.inj h)
    exact .lower hlower
  · obtain ⟨sum, hsum, h⟩ := bind_eq_ok.mp h
    obtain ⟨rfl, hcounts⟩ := total_of_foldlM hsum
    rw [zero_add] at h
    split_ifs at h with hroom
    · obtain rfl := Option.some.inj (Except.ok.inj h)
      exact .grow hroom hcounts
    · obtain ⟨i, s, hremoves, rfl⟩ := scaleDown_some hcounts h
      exact .shrink (not_lt.mp hlower) hroom hcounts hremoves

theorem plan_some {action : ℕ × ℤ} (hrolling : d["spec"]["strategy"]["type"] ≠ .string "Recreate")
    (hdesired : replicas d = .ok desired) (hbounds : bounds d = .ok (surge, unavailable))
    (h : plan d sets new = .ok (some action)) :
    ∃ r, sets[new]? = some r ∧ replicas r = .ok (wanted r) ∧
      Action sets new r desired surge unavailable action := by
  obtain ⟨n, hn, h⟩ := bind_eq_ok.mp h
  obtain rfl := Except.ok.inj (hdesired.symm.trans hn)
  split_ifs at h
  · cases Except.ok.inj h
  · cases Except.ok.inj h
  · obtain ⟨r, hr, h⟩ := bind_eq_ok.mp h
    obtain ⟨m, hm, h⟩ := bind_eq_ok.mp h
    obtain rfl := wanted_of_replicas hm
    exact ⟨r, pick_ok hr, hm, roll_some hbounds h⟩

/-! ## Availability -/

/-- The first old set that may lose replicas: it asks for some, and either misses some of them or
more are available than must stay. -/
structure Reduced (sets : List Json) (new : ℕ) (needed : ℤ) (i : ℕ) (r : Json) : Prop where
  place : sets[i]? = some r
  old : i ≠ new
  some : 0 < wanted r ∧ (availableOf r < wanted r ∨ needed < available sets)
  first : ∀ j < i, j ≠ new → ∀ s, sets[j]? = Option.some s →
    ¬ (0 < wanted s ∧ (availableOf s < wanted s ∨ needed < available sets))

/-- A reduction of the set at place `i` that leaves what is needed: nothing is available beyond the
need, the set has nothing available, no set has more available than it asks for, or the other sets
guarantee the need. -/
def Spared (sets : List Json) (needed : ℤ) (i : ℕ) (r : Json) : Prop :=
  available sets ≤ needed ∨ availableOf r = 0 ∨ (∀ s ∈ sets, availableOf s ≤ wanted s) ∨
    needed ≤ guaranteed (sets.eraseIdx i)

theorem removed_pos {excess : ℤ} {r : Json} (hexcess : 0 ≤ excess) :
    0 < removed excess r ↔ 0 < wanted r ∧ (availableOf r < wanted r ∨ 0 < excess) := by
  unfold removed
  omega

theorem excessOf_pos {needed : ℤ} : 0 < excessOf sets needed ↔ needed < available sets := by
  unfold excessOf
  omega

theorem removes_iff {needed : ℤ} {i : ℕ} {r : Json} :
    Removes sets new (excessOf sets needed) i r ↔ Reduced sets new needed i r := by
  have hpos : ∀ s, 0 < removed (excessOf sets needed) s ↔
      0 < wanted s ∧ (availableOf s < wanted s ∨ needed < available sets) := fun s => by
    rw [removed_pos (show 0 ≤ excessOf sets needed from le_max_right _ _), excessOf_pos]
  constructor
  · rintro ⟨hplace, hold, hsome, hfirst⟩
    refine ⟨hplace, hold, (hpos r).mp hsome, fun j hj hne s hs hmay => ?_⟩
    exact absurd ((hpos s).mpr hmay) (not_lt.mpr (hfirst j hj hne s hs))
  · rintro ⟨hplace, hold, hsome, hfirst⟩
    refine ⟨hplace, hold, (hpos r).mpr hsome, fun j hj hne s hs => ?_⟩
    exact not_lt.mp fun hmay => hfirst j hj hne s hs ((hpos s).mp hmay)

theorem Reduced.unique {needed : ℤ} {i j : ℕ} {r s : Json} (hi : Reduced sets new needed i r)
    (hj : Reduced sets new needed j s) : i = j := by
  rcases lt_trichotomy i j with hlt | heq | hlt
  · exact absurd hi.some (hj.first i hlt hi.old r hi.place)
  · exact heq
  · exact absurd hj.some (hi.first j hlt hj.old s hj.place)

/-- A set that is given `n` replicas keeps those that are available, up to `n`. -/
theorem kept_scaled {r : Json} {m n : ℤ} (hr : replicas r = .ok m) (hn : 0 ≤ n) (hle : n ≤ LIMIT) :
    kept (scaled n r) = min (availableOf r) n := by
  obtain ⟨hreplicas, hstatus, _⟩ := scaled_spec hr hn hle
  rw [kept, wanted_of_replicas hreplicas]
  simp only [availableOf, count, hstatus]

theorem guaranteed_applied {i : ℕ} {r : Json} {m n : ℤ} (hplace : sets[i]? = some r)
    (hr : replicas r = .ok m) (hn : 0 ≤ n) (hle : n ≤ LIMIT) :
    guaranteed (applied sets (i, n)) = guaranteed sets - kept r + min (availableOf r) n := by
  rw [guaranteed, applied, sum_modify kept hplace, kept_scaled hr hn hle]
  rfl

/-- The reduction of an old set leaves what is needed exactly when it is spared. -/
theorem shrink_keeps {needed : ℤ} {i : ℕ} {r : Json} (hr : replicas r = .ok (wanted r))
    (h : Reduced sets new needed i r) :
    min (guaranteed sets) needed ≤
        guaranteed (applied sets (i, wanted r - removed (excessOf sets needed) r)) ↔
      Spared sets needed i r := by
  obtain ⟨_, _, hlimit⟩ := replicas_ok.mp hr
  have hwanted := wanted_nonneg r
  have hcount : 0 ≤ availableOf r := count_nonneg _ _
  have hremoved : removed (excessOf sets needed) r =
      min (wanted r) (max (wanted r - availableOf r) 0 + excessOf sets needed) := rfl
  have hexcess : excessOf sets needed = max (available sets - needed) 0 := rfl
  have hkept : kept r = min (availableOf r) (wanted r) := rfl
  have hothers : guaranteed (sets.eraseIdx i) = guaranteed sets - kept r := sum_eraseIdx kept h.place
  have hle := guaranteed_le_available sets
  have hsome := h.some
  rw [guaranteed_applied h.place hr (by omega) (by omega)]
  unfold Spared
  rw [← guaranteed_eq_available, hothers]
  constructor
  · intro hkeeps
    by_contra hnot
    simp only [not_or, not_le] at hnot
    omega
  · rintro (hnone | hzero | hall | hothers) <;> omega

/-- When a rolling update keeps what is available: the new set is above the desired count or can
still grow, or the old set that is reduced is spared. -/
def KeepsAvailable (sets : List Json) (new : ℕ) (desired surge unavailable : ℤ) : Prop :=
  ∀ r, sets[new]? = some r → desired < wanted r ∨ HasRoom sets r desired surge ∨
    ∀ i s, Reduced sets new (desired - unavailable) i s → Spared sets (desired - unavailable) i s

theorem fraction_nonneg {v : Json} {n : ℤ} {ceil : Bool} (hdesired : 0 ≤ desired)
    (h : fraction v desired ceil = .ok n) : 0 ≤ n := by
  unfold fraction at h
  split at h
  · rename_i m hm
    obtain rfl := Except.ok.inj h
    exact of_decide_eq_true (Option.filter_eq_some_iff.mp hm).2
  · split at h
    · cases h
    · rename_i percent hpercent
      obtain ⟨product, hproduct, h⟩ := bind_eq_ok.mp h
      have hpos : 0 ≤ percent := of_decide_eq_true (Option.filter_eq_some_iff.mp hpercent).2
      unfold checked at hproduct
      split_ifs at hproduct
      obtain rfl := Except.ok.inj hproduct
      obtain rfl := Except.ok.inj h
      have hquotient : 0 ≤ desired * percent / 100 :=
        Int.ediv_nonneg (mul_nonneg hdesired hpos) (by decide)
      split_ifs <;> omega

/-- The bounds of a rolling update are counts, and leave room for a change. -/
theorem bounds_ok (hdesired : replicas d = .ok desired) (h : bounds d = .ok (surge, unavailable)) :
    0 ≤ surge ∧ 0 ≤ unavailable ∧ unavailable ≤ desired ∧
      (0 < desired → 0 < surge ∨ 0 < unavailable) ∧ desired + surge ≤ maxI64 := by
  obtain ⟨_, hpos, _⟩ := replicas_ok.mp hdesired
  obtain ⟨n, hn, h⟩ := bind_eq_ok.mp h
  obtain rfl := Except.ok.inj (hdesired.symm.trans hn)
  obtain ⟨s, hs, h⟩ := bind_eq_ok.mp h
  obtain ⟨u, hu, h⟩ := bind_eq_ok.mp h
  have hspos := fraction_nonneg hpos hs
  have hupos := fraction_nonneg hpos hu
  dsimp only at h
  split_ifs at h with hzero
  · obtain ⟨sum, hsum, h⟩ := bind_eq_ok.mp h
    obtain ⟨rfl, rfl⟩ := Prod.mk.inj (Except.ok.inj h)
    unfold checked at hsum
    split_ifs at hsum with hfits
    refine ⟨hspos, le_min hupos hpos, min_le_right _ _, fun hd => ?_, hfits.2⟩
    by_contra hnot
    exact hzero ⟨hd, by omega, by omega⟩

/-- A step of a rolling update never takes the guaranteed replicas below the smaller of what they
were and the desired count less what may be missing, exactly when it keeps what is available. -/
theorem plan_keeps_available {action : ℕ × ℤ}
    (hrolling : d["spec"]["strategy"]["type"] = .string "RollingUpdate")
    (hdesired : replicas d = .ok desired) (hbounds : bounds d = .ok (surge, unavailable))
    (h : plan d sets new = .ok (some action)) :
    min (guaranteed sets) (desired - unavailable) ≤ guaranteed (applied sets action) ↔
      KeepsAvailable sets new desired surge unavailable := by
  obtain ⟨_, hdpos, hdlimit⟩ := replicas_ok.mp hdesired
  obtain ⟨hsurge, hunavailable, hle, _, _⟩ := bounds_ok hdesired hbounds
  obtain ⟨r, hnew, hr, haction⟩ := plan_some (by rw [hrolling]; decide) hdesired hbounds h
  obtain ⟨_, hrpos, hrlimit⟩ := replicas_ok.mp hr
  have hkept : kept r = min (availableOf r) (wanted r) := rfl
  have hcount : 0 ≤ availableOf r := count_nonneg _ _
  cases haction with
  | lower hlower =>
    have hkeeps : KeepsAvailable sets new desired surge unavailable := fun s hs => by
      obtain rfl := Option.some.inj (hnew.symm.trans hs)
      exact .inl hlower
    refine iff_of_true ?_ hkeeps
    have hothers : 0 ≤ guaranteed (sets.eraseIdx new) :=
      List.sum_nonneg (by simpa using fun s _ => kept_nonneg s)
    rw [guaranteed, sum_eraseIdx kept hnew] at hothers
    rw [guaranteed_applied hnew hr hdpos hdlimit]
    unfold guaranteed at *
    omega
  | grow hroom hcounts =>
    have hkeeps : KeepsAvailable sets new desired surge unavailable := fun s hs => by
      obtain rfl := Option.some.inj (hnew.symm.trans hs)
      exact .inr (.inl hroom)
    refine iff_of_true ?_ hkeeps
    obtain ⟨hbelow, hcapacity⟩ := hroom
    rw [guaranteed_applied hnew hr (by omega) (by omega)]
    omega
  | @shrink i s hupto hfull hcounts hremoves =>
    have hreduced := removes_iff.mp hremoves
    rw [shrink_keeps (hcounts s (List.mem_of_getElem? hreduced.place)) hreduced]
    constructor
    · intro hspared t ht
      refine .inr (.inr fun j u hj => ?_)
      obtain rfl := hreduced.unique hj
      obtain rfl := Option.some.inj (hreduced.place.symm.trans hj.place)
      exact hspared
    · intro hkeeps
      rcases hkeeps r hnew with hlower | hroom | hall
      · exact absurd hlower (not_lt.mpr hupto)
      · exact absurd hroom hfull
      · exact hall i s hreduced

end Plan

/-- A ReplicaSet that has observed what it is asked for. -/
def setOf (replicas available : ℤ) : Json :=
  .object [("metadata", .object [("generation", .number (.int 1))]),
    ("spec", .object [("replicas", .number (.int replicas))]),
    ("status", .object [("availableReplicas", .number (.int available)),
      ("observedGeneration", .number (.int 1))])]

def deploymentOf (replicas surge unavailable : ℤ) : Json :=
  .object [("spec", .object [("replicas", .number (.int replicas)),
    ("strategy", .object [
      ("rollingUpdate", .object [("maxSurge", .number (.int surge)),
        ("maxUnavailable", .number (.int unavailable))]),
      ("type", .string "RollingUpdate")])])]

theorem one_of_two_kept :
    min (guaranteed [setOf 2 2, setOf 1 1]) (2 - 0) ≤
        guaranteed (applied [setOf 2 2, setOf 1 1] (0, 1)) ↔
      KeepsAvailable [setOf 2 2, setOf 1 1] 1 2 1 0 :=
  plan_keeps_available (d := deploymentOf 2 1 0) rfl rfl rfl rfl

/-- Replicas that are still to be stopped count as available, so two of the ten are given up. -/
theorem draining_set_reduced : ¬ ∀ (d : Json) (sets : List Json) (new : ℕ)
    (desired surge unavailable : ℤ) (action : ℕ × ℤ),
    d["spec"]["strategy"]["type"] = .string "RollingUpdate" → replicas d = .ok desired →
    bounds d = .ok (surge, unavailable) → plan d sets new = .ok (some action) →
    min (guaranteed sets) (desired - unavailable) ≤ guaranteed (applied sets action) := by
  intro hclaim
  have hkept := hclaim (deploymentOf 10 1 0) [setOf 10 12, setOf 1 0] 1 10 1 0 (0, 8) rfl rfl rfl rfl
  revert hkept
  decide

end Hedronetes.Controllers
