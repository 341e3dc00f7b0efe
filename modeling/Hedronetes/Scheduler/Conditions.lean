import Hedronetes.Scheduler.Reckoning

/-!
# The conditions of a node

Each check of the scheduler is one of the conditions of a feasible node.
-/

namespace Hedronetes.Scheduler

open Server Api

variable {p n r t v l c : Json}

/-! ## Constraints -/

theorem requirement_iff {value : Option String} : requirement r value = true ↔ Required r value := by
  unfold requirement Required
  constructor
  · intro h
    dsimp only at h
    split at h
    · rename_i hop
      refine ⟨"In", Json.asString_eq_some.mp hop, ?_⟩
      cases value with
      | none => simp at h
      | some v => exact .among (by simpa using (Bool.and_eq_true_iff.mp h).2)
    · rename_i hop
      refine ⟨"NotIn", Json.asString_eq_some.mp hop, ?_⟩
      cases value with
      | none => exact .missing (by simpa using h)
      | some v =>
        obtain ⟨hne, hmem⟩ := Bool.and_eq_true_iff.mp h
        exact .notAmong (by simpa using hne) (by simpa using hmem)
    · rename_i hop
      refine ⟨"Exists", Json.asString_eq_some.mp hop, ?_⟩
      cases value with
      | none => simp at h
      | some v =>
        have hnil : texts r["values"] = [] := by simpa using h
        rw [hnil]
        exact .present
    · rename_i hop
      refine ⟨"DoesNotExist", Json.asString_eq_some.mp hop, ?_⟩
      cases value with
      | none =>
        have hnil : texts r["values"] = [] := by simpa using h
        rw [hnil]
        exact .absent
      | some v => simp at h
    · rename_i hop
      refine ⟨"Gt", Json.asString_eq_some.mp hop, ?_⟩
      split at h
      · rename_i bound hvalues
        obtain ⟨a, ha, hany⟩ := (Option.any_eq_true _ _).mp h
        obtain ⟨b, hb, hlt⟩ := (Option.any_eq_true _ _).mp hany
        obtain ⟨v, rfl, hv⟩ := Option.bind_eq_some_iff.mp ha
        rw [hvalues]
        exact .above hv hb (of_decide_eq_true hlt)
      · cases h
    · rename_i hop
      refine ⟨"Lt", Json.asString_eq_some.mp hop, ?_⟩
      split at h
      · rename_i bound hvalues
        obtain ⟨a, ha, hany⟩ := (Option.any_eq_true _ _).mp h
        obtain ⟨b, hb, hlt⟩ := (Option.any_eq_true _ _).mp hany
        obtain ⟨v, rfl, hv⟩ := Option.bind_eq_some_iff.mp ha
        rw [hvalues]
        exact .below hv hb (of_decide_eq_true hlt)
      · cases h
    · cases h
  · rintro ⟨op, hop, hmeets⟩
    rw [hop]
    generalize texts r["values"] = values at hmeets ⊢
    cases hmeets with
    | among hmem =>
      have hne : values ≠ [] := List.ne_nil_of_mem hmem
      simp [Json.asString, hmem, hne]
    | notAmong hne hmem => simp [Json.asString, hmem, hne]
    | missing hne => simp [Json.asString, hne]
    | present => simp [Json.asString]
    | absent => simp [Json.asString]
    | above ha hb hlt => simp [Json.asString, ha, hb, hlt]
    | below ha hb hlt => simp [Json.asString, ha, hb, hlt]

theorem term_iff : term t n = true ↔ Satisfied t n := by
  unfold term
  simp only [Bool.and_eq_true, Bool.or_eq_true, decide_eq_true_eq, List.all_eq_true,
    Option.any_eq_true, requirement_iff, Json.asString_eq_some]
  constructor
  · rintro ⟨⟨hsome, hlabels⟩, hfields⟩
    exact ⟨hsome, hlabels, hfields⟩
  · intro h
    exact ⟨⟨h.some, h.labels⟩, h.fields⟩

instance : Decidable (Satisfied t n) := decidable_of_iff (term t n = true) term_iff

theorem required_iff : required p n = true ↔ RequiredAffinity p n := by
  unfold required RequiredAffinity
  simp only [Bool.or_eq_true, decide_eq_true_eq, List.any_eq_true, term_iff]

theorem nodeSelected_iff : nodeSelected p n = true ↔
    ∀ members, p["spec"]["nodeSelector"].asObject = some members →
      ∀ e ∈ members, n["metadata"]["labels"][e.1] = e.2 := by
  unfold nodeSelected
  cases p["spec"]["nodeSelector"].asObject with
  | none => simp
  | some members => simp

theorem forKey_iff : forKey v t = true ↔ ForKey v t := by
  unfold forKey
  constructor
  · intro h
    dsimp only at h
    split at h
    · rename_i hop
      rcases Bool.or_eq_true_iff.mp h with hevery | hkey
      · exact .every hop (of_decide_eq_true hevery)
      · exact .key hop (of_decide_eq_true hkey)
    · rename_i hop
      simp only [Bool.and_eq_true, decide_eq_true_eq] at h
      exact .value hop h.1.1 h.1.2 h.2
    · cases h
  · intro h
    cases h with
    | every hop hkey =>
      unfold textOr at hop hkey
      rw [hop]
      simp [hkey]
    | key hop hkey =>
      unfold textOr at hop
      rw [hop]
      simp [hkey]
    | value hop hne hkey hvalue =>
      unfold textOr at hop hne hvalue
      rw [hop]
      simp only [Bool.and_eq_true, decide_eq_true_eq]
      exact ⟨⟨hne, hkey⟩, hvalue⟩

theorem tolerates_iff : tolerates p t = true ↔ Tolerated p t := by
  unfold tolerates Tolerated
  simp only [List.any_eq_true, Bool.and_eq_true, Bool.or_eq_true, decide_eq_true_eq, forKey_iff]
  rfl

instance : Decidable (Tolerated p t) := decidable_of_iff (tolerates p t = true) tolerates_iff

theorem repels_iff : repels p t = false ↔ ∀ effect ∈ ["NoSchedule", "NoExecute"],
    t["effect"] = .string effect → Tolerated p t := by
  rw [← tolerates_iff, repels, Bool.and_eq_false_iff]
  constructor
  · rintro (hother | htolerated) effect hmem heffect
    · rw [heffect] at hother
      have hnot := of_decide_eq_false ((Option.any_eq_false _ _).mp hother effect rfl)
      exact absurd hmem hnot
    · simpa using htolerated
  · intro h
    by_cases htolerated : tolerates p t = true
    · exact .inr (by simp [htolerated])
    · left
      rw [Option.any_eq_false]
      intro effect heffect
      rw [decide_eq_false_iff_not]
      intro hmem
      exact htolerated (h effect hmem (Json.asString_eq_some.mp heffect))

/-! ## Readiness -/

variable {rfc3339 : String → Option ℤ} {leases : List Json} {now : ℤ}

theorem renewed_iff : renewed rfc3339 now l = true ↔ ∃ text time duration,
    l["spec"]["renewTime"] = .string text ∧ rfc3339 text = some time ∧
      l["spec"]["leaseDurationSeconds"].asInt = some duration ∧ 0 < duration ∧
      0 ≤ (now - time).tdiv 1000000 ∧ (now - time).tdiv 1000000 ≤ min duration 40 * 1000 := by
  unfold renewed
  constructor
  · intro h
    split at h
    · cases h
    · rename_i time htime
      obtain ⟨text, htext, hread⟩ := Option.bind_eq_some_iff.mp htime
      simp only [Bool.and_eq_true, decide_eq_true_eq] at h
      cases hduration : l["spec"]["leaseDurationSeconds"].asInt with
      | none =>
        rw [hduration] at h
        exact absurd h.2 (by simp)
      | some duration =>
        rw [hduration] at h
        simp only [Option.getD_some] at h
        refine ⟨text, time, duration, Json.asString_eq_some.mp htext, hread, rfl, ?_, h.1.1, ?_⟩
        · omega
        · omega
  · rintro ⟨text, time, duration, htext, htime, hduration, hpos, hage, hle⟩
    have hbind : l["spec"]["renewTime"].asString.bind rfc3339 = some time := by
      rw [htext]
      exact htime
    rw [hbind, hduration]
    simp only [Option.getD_some, Bool.and_eq_true, decide_eq_true_eq]
    omega

theorem alive_iff : alive rfc3339 n leases now = true ↔ Ready rfc3339 n leases now := by
  have hlease : ∀ l, (ownLease n l && renewed rfc3339 now l) = true ↔ Leased rfc3339 n now l := by
    intro l
    rw [Bool.and_eq_true, renewed_iff, ownLease]
    simp only [Bool.and_eq_true, decide_eq_true_eq, List.any_eq_true]
    constructor
    · rintro ⟨⟨⟨hname, hholder⟩, o, ho, ⟨hkind, hversion⟩, huid⟩, hrenewed⟩
      exact ⟨hname, hholder, ⟨o, ho, hkind, hversion, huid⟩, hrenewed⟩
    · rintro ⟨hname, hholder, ⟨o, ho, hkind, hversion, huid⟩, hrenewed⟩
      exact ⟨⟨⟨hname, hholder⟩, o, ho, ⟨hkind, hversion⟩, huid⟩, hrenewed⟩
  unfold alive
  simp only [Bool.and_eq_true, decide_eq_true_eq, List.any_eq_true, Bool.not_eq_true',
    List.any_eq_false, hlease]
  constructor
  · rintro ⟨⟨⟨⟨hkept, hschedulable⟩, hready⟩, hhealthy⟩, hleased⟩
    refine ⟨hkept, hschedulable, hready, ?_, hleased⟩
    intro c hc kind hkind htype
    by_contra hstatus
    apply hhealthy c hc
    rw [htype]
    exact ⟨by simpa [Json.asString] using hkind, hstatus⟩
  · intro h
    refine ⟨⟨⟨⟨h.kept, h.schedulable⟩, h.ready⟩, ?_⟩, h.leased⟩
    rintro c hc ⟨hpressure, hstatus⟩
    obtain ⟨kind, htype, hkind⟩ := (Option.any_eq_true _ _).mp hpressure
    exact hstatus (h.healthy c hc kind (of_decide_eq_true hkind) (Json.asString_eq_some.mp htype))

/-! ## Scores -/

theorem asInt_int {k : ℤ} (h : -2 ^ 63 ≤ k ∧ k < 2 ^ 63) : (Json.number (.int k)).asInt = some k :=
  if_pos h

theorem asInt_eq_some {k : ℤ} (h : v.asInt = some k) : v = .number (.int k) := by
  unfold Json.asInt at h
  split at h
  · split_ifs at h
    rw [Option.some.inj h]
  · cases h

/-- What the preferences that a node satisfies weigh together. -/
def score (p n : Json) : ℤ :=
  (((preferences p).filter fun pref => Satisfied pref["preference"] n).map weightOf).sum

theorem weight_eq_some {pref : Json} {w : ℤ} :
    weight pref = some w ↔ pref["weight"] = .number (.int w) ∧ 1 ≤ w ∧ w ≤ 100 := by
  unfold weight
  rw [Option.filter_eq_some_iff, decide_eq_true_eq]
  constructor
  · rintro ⟨hread, hrange⟩
    exact ⟨asInt_eq_some hread, hrange⟩
  · rintro ⟨hread, hrange⟩
    rw [hread]
    exact ⟨if_pos (by omega), hrange⟩

/-- The weights are added up as long as all of them are in range. -/
theorem scores_eq_some {prefs : List Json} {start x : ℤ} (hstart : 0 ≤ start ∧ start < 2 ^ 63) :
    (prefs.foldlM (fun score pref => do
      let w ← weight pref
      if term pref["preference"] n then checkedAdd score w else some score) start) = some x ↔
    (∀ pref ∈ prefs, ∃ w, pref["weight"] = .number (.int w) ∧ 1 ≤ w ∧ w ≤ 100) ∧ x < 2 ^ 63 ∧
      x = start + ((prefs.filter fun pref => Satisfied pref["preference"] n).map weightOf).sum := by
  induction prefs generalizing start with
  | nil =>
    simp only [List.foldlM_nil, Option.pure_def, Option.some.injEq, List.not_mem_nil,
      false_imp_iff, implies_true, true_and, List.filter_nil, List.map_nil, List.sum_nil, add_zero]
    omega
  | cons pref prefs ih =>
    rw [List.foldlM_cons, Option.bind_eq_bind, Option.bind_eq_some_iff]
    have hweight : ∀ w, weight pref = some w → weightOf pref = w := by
      intro w hw
      rw [weightOf, (weight_eq_some.mp hw).1, asInt_int (by have := (weight_eq_some.mp hw).2; omega)]
      rfl
    constructor
    · rintro ⟨next, hnext, hrest⟩
      obtain ⟨w, hw, hnext⟩ := Option.bind_eq_some_iff.mp hnext
      have hrange := weight_eq_some.mp hw
      by_cases hterm : term pref["preference"] n = true
      · rw [if_pos hterm] at hnext
        obtain ⟨hsum, rfl⟩ := Resources.checkedAdd_eq_some.mp hnext
        obtain ⟨hall, hlt, rfl⟩ := (ih (by omega)).mp hrest
        refine ⟨List.forall_mem_cons.mpr ⟨⟨w, hrange⟩, hall⟩, hlt, ?_⟩
        rw [List.filter_cons_of_pos (by simpa using term_iff.mp hterm), List.map_cons,
          List.sum_cons, hweight w hw, add_assoc]
      · rw [if_neg hterm] at hnext
        obtain rfl := Option.some.inj hnext
        obtain ⟨hall, hlt, rfl⟩ := (ih hstart).mp hrest
        refine ⟨List.forall_mem_cons.mpr ⟨⟨w, hrange⟩, hall⟩, hlt, ?_⟩
        rw [List.filter_cons_of_neg (by simpa using mt term_iff.mpr hterm)]
    · rintro ⟨hall, hlt, hx⟩
      obtain ⟨⟨w, hrange⟩, hall⟩ := List.forall_mem_cons.mp hall
      have hw := weight_eq_some.mpr hrange
      have hnonneg : 0 ≤ ((prefs.filter fun pref => Satisfied pref["preference"] n).map
          weightOf).sum := by
        apply List.sum_nonneg
        intro x hx
        obtain ⟨other, hother, rfl⟩ := List.mem_map.mp hx
        obtain ⟨w', hw'⟩ := hall other (List.mem_filter.mp hother).1
        rw [weightOf, hw'.1, asInt_int (by omega)]
        exact le_trans Int.one_nonneg hw'.2.1
      by_cases hterm : term pref["preference"] n = true
      · rw [List.filter_cons_of_pos (by simpa using term_iff.mp hterm), List.map_cons,
          List.sum_cons, hweight w hw] at hx
        refine ⟨start + w, ?_, (ih (by omega)).mpr ⟨hall, hlt, by omega⟩⟩
        rw [hw, Option.bind_some, if_pos hterm]
        exact Resources.checkedAdd_eq_some.mpr ⟨by omega, rfl⟩
      · rw [List.filter_cons_of_neg (by simpa using mt term_iff.mpr hterm)] at hx
        refine ⟨start, ?_, (ih hstart).mpr ⟨hall, hlt, hx⟩⟩
        rw [hw, Option.bind_some, if_neg hterm]

theorem affinity_eq_some {x : ℤ} : affinity p n = some x ↔
    (∀ members, p["spec"]["nodeSelector"].asObject = some members →
      ∀ e ∈ members, n["metadata"]["labels"][e.1] = e.2) ∧ RequiredAffinity p n ∧ Weighed p ∧
      x < 2 ^ 63 ∧ x = score p n := by
  unfold affinity
  rw [← nodeSelected_iff, ← required_iff]
  constructor
  · intro h
    split_ifs at h with hallowed
    obtain ⟨hselected, hrequired⟩ := Bool.and_eq_true_iff.mp hallowed
    obtain ⟨hweighed, hlt, hx⟩ := (scores_eq_some (by omega)).mp h
    exact ⟨hselected, hrequired, hweighed, hlt, by rw [hx, zero_add, score]⟩
  · rintro ⟨hselected, hrequired, hweighed, hlt, rfl⟩
    rw [hselected, hrequired, Bool.and_self, if_pos rfl]
    exact (scores_eq_some (by omega)).mpr ⟨hweighed, hlt, by rw [zero_add, score]⟩

end Hedronetes.Scheduler
