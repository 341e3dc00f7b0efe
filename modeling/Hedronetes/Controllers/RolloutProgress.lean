import Hedronetes.Controllers.Rollout

/-!
# Rolling updates finish

A rollout alternates between a step of the plan and the ReplicaSets catching up with it. How far
the new set is from the desired count, and what the old sets still ask for, falls at every step.
-/

namespace Hedronetes.Controllers

open Server Fallible

/-- A set whose status has caught up with its spec. -/
structure CaughtUp (r : Json) : Prop where
  counts : replicas r = .ok (wanted r)
  observed : observed r = true
  replicas : count r "replicas" = wanted r
  available : availableOf r = wanted r

/-- The sets ask for what they did, and have it. -/
def Settles (sets settled : List Json) : Prop :=
  List.Forall₂ (fun r s => wanted s = wanted r ∧ CaughtUp s) sets settled

/-- `n` steps of the plan, after each of which the sets catch up. -/
inductive Rollout (d : Json) (new : ℕ) (start : List Json) : ℕ → List Json → Prop
  | start : Rollout d new start 0 start
  | next {n : ℕ} {sets settled : List Json} {action : ℕ × ℤ} : Rollout d new start n sets →
      plan d sets new = .ok (some action) → Settles (applied sets action) settled →
      Rollout d new start (n + 1) settled

/-- The new set asks for the desired count, and the old ones for nothing. -/
def Finished (sets : List Json) (new : ℕ) (desired : ℤ) : Prop :=
  ∀ i r, sets[i]? = some r → wanted r = if i = new then desired else 0

/-- What the sets other than the new one ask for. -/
def others (sets : List Json) (new : ℕ) : ℤ := total (sets.eraseIdx new)

/-- How far a rollout has to go. -/
def distance (sets : List Json) (new : ℕ) (desired : ℤ) : ℤ :=
  |((sets[new]?.map wanted).getD 0) - desired| + others sets new

variable {d : Json} {sets settled : List Json} {new : ℕ} {desired surge unavailable : ℤ}

theorem total_nonneg (sets : List Json) : 0 ≤ total sets :=
  List.sum_nonneg (by simpa using fun r _ => wanted_nonneg r)

theorem others_eq {r : Json} (h : sets[new]? = some r) : others sets new = total sets - wanted r :=
  sum_eraseIdx wanted h

theorem distance_nonneg (sets : List Json) (new : ℕ) (desired : ℤ) :
    0 ≤ distance sets new desired :=
  add_nonneg (abs_nonneg _) (total_nonneg _)

/-! ## The surge -/

theorem total_applied {i : ℕ} {r : Json} {m n : ℤ} (hplace : sets[i]? = some r)
    (hr : replicas r = .ok m) (hn : 0 ≤ n) (hle : n ≤ LIMIT) :
    total (applied sets (i, n)) = total sets - wanted r + n := by
  rw [total, applied, sum_modify wanted hplace, wanted_of_replicas (scaled_spec hr hn hle).1]
  rfl

/-- What an action writes is a count, and it is written to a set that can be read. -/
theorem Action.place {r : Json} {action : ℕ × ℤ} (hdesired : replicas d = .ok desired)
    (hnew : sets[new]? = some r) (hr : replicas r = .ok (wanted r))
    (h : Action sets new r desired surge unavailable action) :
    ∃ s, sets[action.1]? = some s ∧ replicas s = .ok (wanted s) ∧ 0 ≤ action.2 ∧
      action.2 ≤ LIMIT := by
  obtain ⟨_, hdpos, hdlimit⟩ := replicas_ok.mp hdesired
  obtain ⟨_, hrpos, hrlimit⟩ := replicas_ok.mp hr
  cases h with
  | lower hlower => exact ⟨r, hnew, hr, hdpos, hdlimit⟩
  | grow hroom hcounts =>
    obtain ⟨hbelow, hcapacity⟩ := hroom
    exact ⟨r, hnew, hr, by dsimp only; omega, by dsimp only; omega⟩
  | @shrink i s _ _ hcounts hremoves =>
    have hs := hcounts s (List.mem_of_getElem? hremoves.place)
    obtain ⟨_, hspos, hslimit⟩ := replicas_ok.mp hs
    have hsome := hremoves.some
    have hle : removed (excessOf sets (desired - unavailable)) s ≤ wanted s := min_le_left _ _
    exact ⟨s, hremoves.place, hs, by dsimp only; omega, by dsimp only; omega⟩

/-- A step takes the sets no higher than the desired count and the surge, or than they were. -/
theorem plan_respects_surge {action : ℕ × ℤ}
    (hrolling : d["spec"]["strategy"]["type"] = .string "RollingUpdate")
    (hdesired : replicas d = .ok desired) (hbounds : bounds d = .ok (surge, unavailable))
    (h : plan d sets new = .ok (some action)) :
    total (applied sets action) ≤ max (total sets) (desired + surge) := by
  obtain ⟨r, hnew, hr, haction⟩ := plan_some (by rw [hrolling]; decide) hdesired hbounds h
  obtain ⟨s, hplace, hs, hpos, hlimit⟩ := haction.place hdesired hnew hr
  rw [total_applied hplace hs hpos hlimit]
  cases haction with
  | lower hlower =>
    obtain rfl := Option.some.inj (hnew.symm.trans hplace)
    dsimp only
    omega
  | grow hroom _ =>
    obtain rfl := Option.some.inj (hnew.symm.trans hplace)
    obtain ⟨hbelow, hcapacity⟩ := hroom
    dsimp only
    omega
  | shrink _ _ _ hremoves =>
    obtain rfl := Option.some.inj (hremoves.place.symm.trans hplace)
    have hsome := hremoves.some
    dsimp only
    omega

/-! ## Progress -/

theorem getElem?_applied {i : ℕ} {n : ℤ} : (applied sets (i, n))[new]? =
    sets[new]?.map fun r => if i = new then scaled n r else r := by
  rw [applied, List.getElem?_modify]
  rfl

/-- A step brings the rollout closer to its end. -/
theorem distance_lt {r : Json} {action : ℕ × ℤ} (hdesired : replicas d = .ok desired)
    (hnew : sets[new]? = some r) (hr : replicas r = .ok (wanted r))
    (h : Action sets new r desired surge unavailable action) :
    distance (applied sets action) new desired < distance sets new desired := by
  obtain ⟨s, hplace, hs, hpos, hlimit⟩ := h.place hdesired hnew hr
  have htotal := total_applied hplace hs hpos hlimit
  obtain ⟨hscaled, _, _⟩ := scaled_spec hs hpos hlimit
  have hnext : (applied sets action)[new]? =
      some (if action.1 = new then scaled action.2 r else r) := by
    rw [getElem?_applied, hnew]
    rfl
  rw [distance, distance, others_eq hnew, others_eq hnext, hnext, hnew, htotal]
  simp only [Option.map_some, Option.getD_some]
  cases h with
  | lower hlower =>
    obtain rfl := Option.some.inj (hnew.symm.trans hplace)
    simp only [if_true, wanted_of_replicas hscaled]
    rw [abs_of_nonneg (by omega), abs_of_pos (by omega)]
    omega
  | grow hroom _ =>
    obtain rfl := Option.some.inj (hnew.symm.trans hplace)
    obtain ⟨hbelow, hcapacity⟩ := hroom
    simp only [if_true, wanted_of_replicas hscaled]
    rw [abs_of_nonpos (by omega), abs_of_neg (by omega)]
    omega
  | shrink _ _ _ hremoves =>
    obtain rfl := Option.some.inj (hremoves.place.symm.trans hplace)
    have hsome := hremoves.some
    simp only [if_neg hremoves.old]
    omega

theorem Settles.get (h : Settles sets settled) {i : ℕ} {s : Json} (hs : settled[i]? = some s) :
    ∃ r, sets[i]? = some r ∧ wanted s = wanted r ∧ CaughtUp s := by
  induction h generalizing i with
  | nil => simp at hs
  | cons hfirst _ ih =>
    cases i with
    | zero =>
      obtain rfl := Option.some.inj hs
      exact ⟨_, rfl, hfirst⟩
    | succ i => exact ih hs

theorem Settles.get_of (h : Settles sets settled) {i : ℕ} {r : Json} (hr : sets[i]? = some r) :
    ∃ s, settled[i]? = some s ∧ wanted s = wanted r ∧ CaughtUp s := by
  induction h generalizing i with
  | nil => simp at hr
  | cons hfirst _ ih =>
    cases i with
    | zero =>
      obtain rfl := Option.some.inj hr
      exact ⟨_, rfl, hfirst⟩
    | succ i => exact ih hr

theorem Settles.caughtUp (h : Settles sets settled) : ∀ s ∈ settled, CaughtUp s := by
  intro s hs
  obtain ⟨i, hi⟩ := List.mem_iff_getElem?.mp hs
  obtain ⟨_, _, _, hcaught⟩ := h.get hi
  exact hcaught

theorem Settles.total_eq (h : Settles sets settled) : total settled = total sets := by
  induction h with
  | nil => rfl
  | cons hfirst _ ih =>
    rw [total, List.map_cons, List.sum_cons, hfirst.1]
    exact congrArg _ ih

theorem Settles.distance_eq (h : Settles sets settled) {r : Json} (hr : sets[new]? = some r) :
    distance settled new desired = distance sets new desired := by
  obtain ⟨s, hs, hwanted, _⟩ := h.get_of hr
  rw [distance, distance, others_eq hr, others_eq hs, h.total_eq, hs, hr, Option.map_some,
    Option.map_some, hwanted]

/-- A status that says what the spec does. -/
def settle (r : Json) : Json :=
  match r with
  | .object fields => .object (FirstMatch.insertKey "status" (.object
      [("availableReplicas", .number (.int (wanted r))),
        ("observedGeneration", r["metadata"]["generation"]),
        ("replicas", .number (.int (wanted r)))]) fields)
  | r => r

theorem settle_caughtUp {r : Json} (hr : replicas r = .ok (wanted r)) :
    wanted (settle r) = wanted r ∧ CaughtUp (settle r) := by
  obtain ⟨hread, hpos, hlimit⟩ := replicas_ok.mp hr
  have hint : (Json.number (.int (wanted r))).asInt = some (wanted r) := by
    unfold LIMIT at hlimit
    rw [Json.asInt, if_pos (by omega)]
  obtain ⟨fields, rfl⟩ : ∃ fields, r = .object fields := by
    cases r with
    | object fields => exact ⟨fields, rfl⟩
    | _ => cases hread
  set r : Json := .object fields with hfields
  have hstatus : (settle r)["status"] = .object
      [("availableReplicas", .number (.int (wanted r))),
        ("observedGeneration", r["metadata"]["generation"]),
        ("replicas", .number (.int (wanted r)))] := by
    rw [hfields, settle, Json.getElem_eq, Json.field, FirstMatch.lookup_insertKey]
    rfl
  have hother : ∀ name, name ≠ "status" → (settle r)[name] = r[name] := by
    intro name hne
    change ((FirstMatch.lookup name (FirstMatch.insertKey "status" _ fields)).getD .null) = _
    rw [FirstMatch.lookup_insertKey_ne hne]
    rfl
  have hwanted : wanted (settle r) = wanted r := by
    rw [wanted, hother "spec" (by decide)]
    rfl
  have hcount : ∀ field, (settle r)["status"][field].asInt = some (wanted r) →
      count (settle r) field = wanted r := by
    intro field hfield
    rw [count, hfield, Option.getD_some, max_eq_left hpos]
  refine ⟨hwanted, ?_, ?_, ?_, ?_⟩
  · rw [hwanted]
    refine replicas_ok.mpr ⟨?_, hpos, hlimit⟩
    rw [hother "spec" (by decide)]
    exact hread
  · rw [Controllers.observed, hstatus, hother "metadata" (by decide)]
    simp [Json.getElem_eq, Json.field, FirstMatch.lookup_cons]
  · rw [hwanted]
    refine hcount _ ?_
    rw [hstatus]
    exact hint
  · rw [hwanted]
    refine hcount _ ?_
    rw [hstatus]
    exact hint

/-! ## The end of a rollout -/

theorem total_le (hcounts : ∀ r ∈ sets, replicas r = .ok (wanted r)) :
    total sets ≤ LIMIT * sets.length := by
  induction sets with
  | nil => simp [total]
  | cons r sets ih =>
    obtain ⟨_, _, hlimit⟩ := replicas_ok.mp (hcounts r (by simp))
    have hrest := ih fun s hs => hcounts s (by simp [hs])
    rw [total, List.map_cons, List.sum_cons, List.length_cons]
    change wanted r + total sets ≤ _
    push_cast
    linarith

theorem foldlM_total {start : ℤ} (hcounts : ∀ r ∈ sets, replicas r = .ok (wanted r))
    (hstart : 0 ≤ start) (hfits : start + total sets ≤ maxI64) :
    sets.foldlM (fun sum r => do checked (sum + (← replicas r)) "replica sum overflow") start =
      .ok (start + total sets) := by
  induction sets generalizing start with
  | nil => simp [total, pure, Except.pure]
  | cons r sets ih =>
    have hpos := wanted_nonneg r
    have hrest := total_nonneg sets
    have hcons : total (r :: sets) = wanted r + total sets := by
      rw [total, List.map_cons, List.sum_cons]
      rfl
    rw [hcons] at hfits ⊢
    rw [List.foldlM_cons]
    refine bind_eq_ok.mpr ⟨start + wanted r, ?_, ?_⟩
    · refine bind_eq_ok.mpr ⟨wanted r, hcounts r (by simp), ?_⟩
      rw [checked, if_pos (by omega)]
    · rw [ih (fun s hs => hcounts s (by simp [hs])) (by omega) (by omega), add_assoc]

theorem available_eq_total (h : ∀ r ∈ sets, CaughtUp r) : available sets = total sets := by
  rw [available, total, List.map_congr_left fun r hr => (h r hr).available]

/-- The plan of a rollout whose sets have caught up. -/
theorem plan_eq {r : Json} (hrolling : d["spec"]["strategy"]["type"] = .string "RollingUpdate")
    (hpaused : d["spec"]["paused"] ≠ .bool true) (hdesired : replicas d = .ok desired)
    (hbounds : bounds d = .ok (surge, unavailable)) (hcaught : ∀ r ∈ sets, CaughtUp r)
    (hlength : (sets.length : ℤ) ≤ LIMIT) (hnew : sets[new]? = some r) :
    plan d sets new =
      if wanted r > desired then .ok (some (new, desired))
      else if wanted r < desired ∧ total sets < desired + surge then
        .ok (some (new, wanted r + min (desired - wanted r) (desired + surge - total sets)))
      else scaleDown sets new (excessOf sets (desired - unavailable)) := by
  have hcounts : ∀ s ∈ sets, replicas s = .ok (wanted s) := fun s hs => (hcaught s hs).counts
  have hobserved : (sets.any fun r => !observed r) = false := by
    rw [List.any_eq_false]
    intro s hs
    simp [(hcaught s hs).observed]
  have hpick : pick sets new = .ok r := by rw [pick, hnew]
  have hr := hcounts r (List.mem_of_getElem? hnew)
  have hsum := foldlM_total hcounts le_rfl (by
    have hle := total_le hcounts
    unfold LIMIT at hle hlength
    unfold maxI64
    omega)
  rw [zero_add] at hsum
  have htype : d["spec"]["strategy"]["type"] ≠ .string "Recreate" := by
    rw [hrolling]
    decide
  simp only [Bind.bind, Except.bind] at hsum
  simp only [plan, roll, hdesired, hbounds, hpick, hr, hobserved, if_neg hpaused, if_neg htype,
    Bind.bind, Except.bind, pure, Except.pure, Bool.false_eq_true, if_false]
  rw [hsum]
  rfl

/-- In a rollout that has caught up only the end leaves nothing to do, and nothing fails. -/
theorem plan_none_iff (hrolling : d["spec"]["strategy"]["type"] = .string "RollingUpdate")
    (hpaused : d["spec"]["paused"] ≠ .bool true) (hdesired : replicas d = .ok desired)
    (hbounds : bounds d = .ok (surge, unavailable)) (hcaught : ∀ r ∈ sets, CaughtUp r)
    (hlength : (sets.length : ℤ) ≤ LIMIT) (hnew : new < sets.length) :
    (plan d sets new = .ok none ↔ Finished sets new desired) ∧
      ∃ result, plan d sets new = .ok result := by
  obtain ⟨hsurge, hunavailable, hle, hroom, _⟩ := bounds_ok hdesired hbounds
  obtain ⟨r, hr⟩ : ∃ r, sets[new]? = some r := ⟨_, List.getElem?_eq_getElem hnew⟩
  have hcounts : ∀ s ∈ sets, replicas s = .ok (wanted s) := fun s hs => (hcaught s hs).counts
  have havailable := available_eq_total hcaught
  have hsplit := others_eq hr
  have hothers : 0 ≤ others sets new := total_nonneg _
  have hpos := wanted_nonneg r
  rw [plan_eq hrolling hpaused hdesired hbounds hcaught hlength hr]
  -- The rollout is finished when the new set has the desired count and the others ask for nothing.
  have hfinished : Finished sets new desired ↔ wanted r = desired ∧ others sets new = 0 := by
    constructor
    · intro h
      refine ⟨by simpa using h new r hr, ?_⟩
      refine List.sum_eq_zero fun n hn => ?_
      obtain ⟨s, hs, rfl⟩ := List.mem_map.mp hn
      obtain ⟨i, hi, hsome⟩ := List.mem_eraseIdx_iff_getElem?.mp hs
      rw [h i s hsome, if_neg hi]
    · rintro ⟨hdone, hzero⟩ i s hs
      by_cases hi : i = new
      · subst hi
        obtain rfl := Option.some.inj (hr.symm.trans hs)
        rw [if_pos rfl, hdone]
      · rw [if_neg hi]
        have hmem : wanted s ∈ (sets.eraseIdx new).map wanted :=
          List.mem_map_of_mem (List.mem_eraseIdx_iff_getElem?.mpr ⟨i, hi, hs⟩)
        have hle : wanted s ≤ others sets new :=
          List.single_le_sum (by simpa using fun u _ => wanted_nonneg u) _ hmem
        have := wanted_nonneg s
        omega
  rw [hfinished]
  by_cases hlower : wanted r > desired
  · rw [if_pos hlower]
    refine ⟨iff_of_false (by simp) (by omega), _, rfl⟩
  · rw [if_neg hlower]
    by_cases hgrow : wanted r < desired ∧ total sets < desired + surge
    · rw [if_pos hgrow]
      refine ⟨iff_of_false (by simp) (by omega), _, rfl⟩
    · rw [if_neg hgrow]
      refine ⟨?_, scaleDown_ok hcounts⟩
      rw [scaleDown_none hcounts]
      have hexcess : excessOf sets (desired - unavailable) =
          max (total sets - (desired - unavailable)) 0 := by rw [excessOf, havailable]
      have hremoved : ∀ s ∈ sets, removed (excessOf sets (desired - unavailable)) s =
          min (wanted s) (excessOf sets (desired - unavailable)) := by
        intro s hs
        rw [removed, (hcaught s hs).available, sub_self, max_self, zero_add]
      constructor
      · intro hnone
        by_cases hzero : excessOf sets (desired - unavailable) = 0
        · omega
        · have hold : others sets new = 0 := by
            refine List.sum_eq_zero fun n hn => ?_
            obtain ⟨s, hs, rfl⟩ := List.mem_map.mp hn
            obtain ⟨i, hi, hsome⟩ := List.mem_eraseIdx_iff_getElem?.mp hs
            have hstays := hnone i s hsome hi
            rw [hremoved s (List.mem_of_getElem? hsome)] at hstays
            have := wanted_nonneg s
            omega
          omega
      · rintro ⟨hdone, hzero⟩ i s hs hi
        rw [hremoved s (List.mem_of_getElem? hs)]
        have hasks := hfinished.mpr ⟨hdone, hzero⟩ i s hs
        rw [if_neg hi] at hasks
        omega

/-- A rollout keeps what holds of its sets: they have caught up, and each step took it closer. -/
theorem Rollout.spec {n : ℕ} {start : List Json}
    (hrolling : d["spec"]["strategy"]["type"] = .string "RollingUpdate")
    (hdesired : replicas d = .ok desired) (hbounds : bounds d = .ok (surge, unavailable))
    (hcaught : ∀ r ∈ start, CaughtUp r) (h : Rollout d new start n sets) :
    (∀ r ∈ sets, CaughtUp r) ∧ sets.length = start.length ∧
      n + distance sets new desired ≤ distance start new desired := by
  induction h with
  | start => exact ⟨hcaught, rfl, by simp⟩
  | @next n sets settled action _ hplan hsettles ih =>
    obtain ⟨_, hlength, hdistance⟩ := ih
    obtain ⟨r, hr, hreplicas, haction⟩ :=
      plan_some (by rw [hrolling]; decide) hdesired hbounds hplan
    have hcloser := distance_lt hdesired hr hreplicas haction
    obtain ⟨i, m⟩ := action
    have happlied : (applied sets (i, m))[new]? =
        some (if i = new then scaled m r else r) := by
      rw [getElem?_applied, hr]
      rfl
    refine ⟨hsettles.caughtUp, ?_, ?_⟩
    · rw [← hsettles.length_eq, applied, List.length_modify, hlength]
    · rw [hsettles.distance_eq happlied]
      push_cast
      omega

/-- The sets can always catch up. -/
theorem settles_applied {action : ℕ × ℤ} {r : Json} (hdesired : replicas d = .ok desired)
    (hcounts : ∀ r ∈ sets, replicas r = .ok (wanted r)) (hnew : sets[new]? = some r)
    (h : Action sets new r desired surge unavailable action) :
    Settles (applied sets action) ((applied sets action).map settle) := by
  obtain ⟨s, hplace, hs, hpos, hlimit⟩ :=
    h.place hdesired hnew (hcounts r (List.mem_of_getElem? hnew))
  obtain ⟨hscaled, _, _⟩ := scaled_spec hs hpos hlimit
  have hall : ∀ u ∈ applied sets action, replicas u = .ok (wanted u) := by
    intro u hu
    obtain ⟨j, hj⟩ := List.mem_iff_getElem?.mp hu
    rw [getElem?_applied] at hj
    obtain ⟨v, hv, rfl⟩ := Option.map_eq_some_iff.mp hj
    by_cases hij : action.1 = j
    · rw [if_pos hij]
      subst hij
      obtain rfl := Option.some.inj (hplace.symm.trans hv)
      rw [wanted_of_replicas hscaled, hscaled]
    · rw [if_neg hij]
      exact hcounts v (List.mem_of_getElem? hv)
  rw [Settles, List.forall₂_map_right_iff, List.forall₂_same]
  exact fun u hu => settle_caughtUp (hall u hu)

/-- From any sets that have caught up a rollout reaches its end. -/
theorem rollout_exists (hrolling : d["spec"]["strategy"]["type"] = .string "RollingUpdate")
    (hpaused : d["spec"]["paused"] ≠ .bool true) (hdesired : replicas d = .ok desired)
    (hbounds : bounds d = .ok (surge, unavailable)) {start : List Json}
    (hcaught : ∀ r ∈ start, CaughtUp r) (hlength : (start.length : ℤ) ≤ LIMIT)
    (hnew : new < start.length) {n : ℕ} (h : Rollout d new start n sets) :
    ∃ m finished, Rollout d new start m finished ∧ Finished finished new desired := by
  -- Each step lowers the distance, which is a count.
  induction hgap : (distance sets new desired).toNat using Nat.strong_induction_on
    generalizing sets n with
  | _ gap ih =>
    obtain ⟨hsets, hlen, _⟩ := h.spec hrolling hdesired hbounds hcaught
    obtain ⟨hnone, result, hresult⟩ :=
      plan_none_iff hrolling hpaused hdesired hbounds hsets
        (show (sets.length : ℤ) ≤ LIMIT by omega) (show new < sets.length by omega)
    cases result with
    | none => exact ⟨n, sets, h, hnone.mp hresult⟩
    | some action =>
      obtain ⟨r, hr, hreplicas, haction⟩ :=
        plan_some (by rw [hrolling]; decide) hdesired hbounds hresult
      have hcounts : ∀ s ∈ sets, replicas s = .ok (wanted s) := fun s hs => (hsets s hs).counts
      have hsettles := settles_applied hdesired hcounts hr haction
      have hnext := h.next hresult hsettles
      have hcloser := distance_lt hdesired hr hreplicas haction
      have hsame : distance ((applied sets action).map settle) new desired =
          distance (applied sets action) new desired := by
        obtain ⟨i, m⟩ := action
        have happlied : (applied sets (i, m))[new]? =
            some (if i = new then scaled m r else r) := by
          rw [getElem?_applied, hr]
          rfl
        exact hsettles.distance_eq happlied
      have hpos := distance_nonneg (applied sets action) new desired
      exact ih _ (by omega) hnext rfl

/-- Rolling updates respect the surge and finish. No step takes what the sets ask for above the
desired count and the surge, or above what it was. When the sets catch up after each step, a rollout
ends after as many steps as it has to go at most, with the new set at the desired count and the
others at none; nothing fails on the way, and only there is nothing left to do. -/
theorem rollout_finishes (hrolling : d["spec"]["strategy"]["type"] = .string "RollingUpdate")
    (hpaused : d["spec"]["paused"] ≠ .bool true) (hdesired : replicas d = .ok desired)
    (hbounds : bounds d = .ok (surge, unavailable)) :
    (∀ sets new action, plan d sets new = .ok (some action) →
      total (applied sets action) ≤ max (total sets) (desired + surge)) ∧
    ∀ sets new start, (∀ r ∈ sets, ∃ n, replicas r = .ok n) → (sets.length : ℤ) ≤ LIMIT →
      new < sets.length → Settles sets start →
      (∃ n finished, Rollout d new start n finished ∧ Finished finished new desired) ∧
      ∀ n reached, Rollout d new start n reached →
        n ≤ distance sets new desired ∧
          (plan d reached new = .ok none ↔ Finished reached new desired) ∧
          ∃ result, plan d reached new = .ok result := by
  refine ⟨fun sets new action h => plan_respects_surge hrolling hdesired hbounds h,
    fun sets new start hcounts hlength hnew hsettles => ?_⟩
  have hcaught := hsettles.caughtUp
  have hlen : start.length = sets.length := hsettles.length_eq.symm
  obtain ⟨r, hr⟩ : ∃ r, sets[new]? = some r := ⟨_, List.getElem?_eq_getElem hnew⟩
  have hsame : distance start new desired = distance sets new desired := hsettles.distance_eq hr
  refine ⟨rollout_exists hrolling hpaused hdesired hbounds hcaught (by omega) (by omega) .start,
    fun n reached h => ?_⟩
  obtain ⟨hreached, hreachedLength, hsteps⟩ := h.spec hrolling hdesired hbounds hcaught
  have hpos := distance_nonneg reached new desired
  exact ⟨by omega, plan_none_iff hrolling hpaused hdesired hbounds hreached (by omega) (by omega)⟩

theorem two_pods_roll :
    ∃ n finished, Rollout (deploymentOf 2 1 0) 1 ([setOf 2 2, setOf 0 0].map settle) n finished ∧
      Finished finished 1 2 := by
  have hcounts : ∀ r ∈ [setOf 2 2, setOf 0 0], replicas r = .ok (wanted r) := by
    simp only [List.forall_mem_cons]
    exact ⟨rfl, rfl, by simp⟩
  have hsettles : Settles [setOf 2 2, setOf 0 0] ([setOf 2 2, setOf 0 0].map settle) := by
    rw [Settles, List.forall₂_map_right_iff, List.forall₂_same]
    exact fun r hr => settle_caughtUp (hcounts r hr)
  exact ((rollout_finishes (d := deploymentOf 2 1 0) rfl (by decide) rfl rfl).2 _ 1 _
    (fun r hr => ⟨_, hcounts r hr⟩) (by decide) (by decide) hsettles).1

end Hedronetes.Controllers
