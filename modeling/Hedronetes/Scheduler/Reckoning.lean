import Hedronetes.Scheduler.Feasibility

/-!
# What the scheduler reckons with

The requests that the scheduler computes in checked arithmetic are the exact ones: no amount is
negative, so a total in range means that each sum on the way was.
-/

namespace Hedronetes.Scheduler

open Server Api

variable {p r v c : Json}

/-! ## Quantities -/

variable {s : String} {k m : ℤ}

theorem parse_eq_some {q : Quantity} : Quantity.parse s = some q ↔ q.raw = s := by
  unfold Quantity.parse
  obtain ⟨raw, hvalid⟩ := q
  constructor
  · intro h
    split_ifs at h
    exact (congrArg Quantity.raw (Option.some.inj h)).symm
  · rintro rfl
    rw [dif_pos hvalid]

theorem milliCpu_eq_some : milliCpu s = some k ↔ MilliCpu s k := by
  unfold milliCpu MilliCpu
  rw [Option.bind_eq_some_iff]
  constructor
  · rintro ⟨q, hq, hconvert⟩
    obtain rfl := parse_eq_some.mp hq
    rw [Quantity.asMilliCpu_eq] at hconvert
    split_ifs at hconvert with hrange
    obtain rfl := Option.some.inj hconvert
    exact ⟨q, hq, hrange.1, rfl, hrange.2⟩
  · rintro ⟨q, hq, hsuffix, rfl, hlt⟩
    obtain rfl := parse_eq_some.mp hq
    refine ⟨q, hq, ?_⟩
    rw [Quantity.asMilliCpu_eq, if_pos ⟨hsuffix, hlt⟩]

theorem bytes_eq_some : bytes s = some k ↔ Bytes s k := by
  unfold bytes Bytes
  rw [Option.bind_eq_some_iff]
  constructor
  · rintro ⟨q, hq, hconvert⟩
    obtain rfl := parse_eq_some.mp hq
    rw [Quantity.asBytes_eq] at hconvert
    split_ifs at hconvert with hrange
    obtain rfl := Option.some.inj hconvert
    exact ⟨q, hq, hrange.1, rfl, hrange.2⟩
  · rintro ⟨q, hq, hsuffix, rfl, hlt⟩
    obtain rfl := parse_eq_some.mp hq
    refine ⟨q, hq, ?_⟩
    rw [Quantity.asBytes_eq, if_pos ⟨hsuffix, hlt⟩]

theorem MilliCpu.nonneg (h : MilliCpu s k) : 0 ≤ k := by
  obtain ⟨q, -, -, rfl, -⟩ := h
  have hvalue := q.value_nonneg
  exact Int.ceil_nonneg (by positivity)

theorem Bytes.nonneg (h : Bytes s k) : 0 ≤ k := by
  obtain ⟨q, -, -, rfl, -⟩ := h
  exact Int.ceil_nonneg q.value_nonneg

/-! ## Requests -/

variable {convert : String → Option ℤ} {amount : String → ℤ → Prop} {key : String}

theorem optional_eq_some {o : Option ℤ} (hconvert : ∀ s k, convert s = some k ↔ amount s k) :
    optional convert v = some o ↔
      (∃ s k, v = .string s ∧ amount s k ∧ o = some k) ∨ v.asString = none ∧ o = none := by
  unfold optional
  cases hread : v.asString with
  | none =>
    have hnot : ∀ s, v ≠ .string s := by
      rintro s rfl
      cases hread
    simp [hnot, eq_comm]
  | some s =>
    obtain rfl := Json.asString_eq_some.mp hread
    simp only [Option.map_eq_some_iff, hconvert, Json.string.injEq, reduceCtorEq, false_and,
      or_false]
    constructor
    · rintro ⟨k, hk, rfl⟩
      exact ⟨s, k, rfl, hk, rfl⟩
    · rintro ⟨_, k, rfl, hk, rfl⟩
      exact ⟨k, hk, rfl⟩

theorem requested_eq_some (hconvert : ∀ s k, convert s = some k ↔ amount s k) :
    requested convert r key = some m ↔ Asks amount r key m := by
  unfold requested
  simp only [Option.bind_eq_bind, Option.bind_eq_some_iff, optional_eq_some hconvert]
  constructor
  · rintro ⟨limit, hlimit, request, hrequest, h⟩
    rcases hlimit with ⟨t, l, ht, hl, rfl⟩ | ⟨ht, rfl⟩
    · rcases hrequest with ⟨s, k, hs, hk, rfl⟩ | ⟨hs, rfl⟩
      · simp only [Option.some_or, Option.getD_some, Option.any_some] at h
        by_cases hlt : l < k
        · simp [hlt] at h
        · obtain rfl : k = m := by simpa [hlt] using h
          exact .limited hs hk ht hl (not_lt.mp hlt)
      · simp only [Option.none_or, Option.getD_some, Option.any_some, decide_eq_true_eq, lt_irrefl,
          if_false] at h
        obtain rfl := Option.some.inj h
        exact .limit hs ht hl
    · rcases hrequest with ⟨s, k, hs, hk, rfl⟩ | ⟨hs, rfl⟩
      · obtain rfl := Option.some.inj h
        exact .request hs hk ht
      · obtain rfl := Option.some.inj h
        exact .nothing hs ht
  · intro h
    cases h with
    | request hs hk ht => exact ⟨none, .inr ⟨ht, rfl⟩, _, .inl ⟨_, _, hs, hk, rfl⟩, rfl⟩
    | limited hs hk ht hl hle =>
      refine ⟨_, .inl ⟨_, _, ht, hl, rfl⟩, _, .inl ⟨_, _, hs, hk, rfl⟩, ?_⟩
      simpa using hle
    | limit hs ht hl =>
      refine ⟨_, .inl ⟨_, _, ht, hl, rfl⟩, none, .inr ⟨hs, rfl⟩, ?_⟩
      simp
    | nothing hs ht => exact ⟨none, .inr ⟨ht, rfl⟩, none, .inr ⟨hs, rfl⟩, rfl⟩

theorem Asks.nonneg (hamount : ∀ {s k}, amount s k → 0 ≤ k) (h : Asks amount r key m) : 0 ≤ m := by
  cases h with
  | request _ hk _ => exact hamount hk
  | limited _ hk _ _ _ => exact hamount hk
  | limit _ _ hl => exact hamount hl
  | nothing _ _ => exact le_refl 0

theorem onlyCpuMemory_iff : onlyCpuMemory v = true ↔ Known v := by
  unfold onlyCpuMemory Known
  cases v.asObject with
  | none => simp
  | some members => simp

theorem containerRequests_eq_some {x : Resources} :
    containerRequests c = some x ↔ ContainerTakes c x := by
  unfold containerRequests
  constructor
  · intro h
    dsimp only at h
    split_ifs at h with hknown
    obtain ⟨hrequests, hlimits⟩ := Bool.and_eq_true_iff.mp hknown
    obtain ⟨cpu, hcpu, h⟩ := Option.bind_eq_some_iff.mp h
    obtain ⟨memory, hmemory, h⟩ := Option.bind_eq_some_iff.mp h
    obtain rfl := Option.some.inj h
    exact ⟨onlyCpuMemory_iff.mp hrequests, onlyCpuMemory_iff.mp hlimits,
      (requested_eq_some fun _ _ => milliCpu_eq_some).mp hcpu,
      (requested_eq_some fun _ _ => bytes_eq_some).mp hmemory, rfl⟩
  · rintro ⟨hrequests, hlimits, hcpu, hmemory, hpods⟩
    have hcpu := (requested_eq_some fun _ _ => milliCpu_eq_some).mpr hcpu
    have hmemory := (requested_eq_some fun _ _ => bytes_eq_some).mpr hmemory
    simp only [onlyCpuMemory_iff.mpr hrequests, onlyCpuMemory_iff.mpr hlimits, Bool.and_self,
      if_true, hcpu, hmemory, Option.bind_eq_bind, Option.bind_some, Option.pure_def]
    rw [← hpods]

theorem amount_eq_some {o : Option ℤ} (hconvert : ∀ s k, convert s = some k ↔ amount s k)
    (h : optional convert v = some o) : Amount amount v (o.getD 0) := by
  rcases (optional_eq_some hconvert).mp h with ⟨s, k, hs, hk, rfl⟩ | ⟨hs, rfl⟩
  · exact .inl ⟨s, hs, hk⟩
  · exact .inr ⟨hs, rfl⟩

theorem amount_exists (hconvert : ∀ s k, convert s = some k ↔ amount s k)
    (h : Amount amount v k) : ∃ o, optional convert v = some o ∧ o.getD 0 = k := by
  rcases h with ⟨s, hs, hk⟩ | ⟨hs, rfl⟩
  · exact ⟨some k, (optional_eq_some hconvert).mpr (.inl ⟨s, k, hs, hk, rfl⟩), rfl⟩
  · exact ⟨none, (optional_eq_some hconvert).mpr (.inr ⟨hs, rfl⟩), rfl⟩

theorem Amount.nonneg (hamount : ∀ {s k}, amount s k → 0 ≤ k) (h : Amount amount v m) : 0 ≤ m := by
  rcases h with ⟨s, -, hk⟩ | ⟨-, rfl⟩
  · exact hamount hk
  · exact le_refl 0

theorem overheadRequests_eq_some {x : Resources} :
    overheadRequests v = some x ↔ OverheadTakes v x := by
  unfold overheadRequests
  constructor
  · intro h
    split_ifs at h with hknown
    obtain ⟨cpu, hcpu, h⟩ := Option.bind_eq_some_iff.mp h
    obtain ⟨memory, hmemory, h⟩ := Option.bind_eq_some_iff.mp h
    obtain rfl := Option.some.inj h
    exact ⟨onlyCpuMemory_iff.mp hknown, amount_eq_some (fun _ _ => milliCpu_eq_some) hcpu,
      amount_eq_some (fun _ _ => bytes_eq_some) hmemory, rfl⟩
  · rintro ⟨hknown, hcpu, hmemory, hpods⟩
    obtain ⟨cpu, hcpu, hcpu'⟩ := amount_exists (fun _ _ => milliCpu_eq_some) hcpu
    obtain ⟨memory, hmemory, hmemory'⟩ := amount_exists (fun _ _ => bytes_eq_some) hmemory
    simp only [onlyCpuMemory_iff.mpr hknown, if_true, hcpu, hmemory, Option.bind_eq_bind,
      Option.bind_some, Option.pure_def, hcpu', hmemory']
    rw [← hpods]

/-! ## Sums -/

namespace Resources

/-- No negative amounts, up to what an `i64` holds. -/
def i64 : RangedSums.Range Resources where
  within := InRange
  amount r := 0 ≤ r.cpu ∧ 0 ≤ r.memory ∧ 0 ≤ r.pods
  zero := by simp
  add {r s} hr hs := by
    simp only [add_cpu, add_memory, add_pods]
    omega
  below {r s} hr hs h := by
    simp only [InRange, add_cpu, add_memory, add_pods] at h ⊢
    omega

instance : DecidablePred i64.within := inferInstanceAs (DecidablePred InRange)

theorem checkedAdd_eq_some {a b d : ℤ} :
    checkedAdd a b = some d ↔ (-2 ^ 63 ≤ a + b ∧ a + b < 2 ^ 63) ∧ a + b = d := by
  unfold checkedAdd
  split_ifs with h
  · rw [Option.some.injEq, and_iff_right h]
  · constructor
    · intro hnone
      cases hnone
    · rintro ⟨hrange, -⟩
      exact absurd hrange h

theorem add_eq_some {r s t : Resources} : r.add s = some t ↔ (r + s).InRange ∧ r + s = t := by
  unfold Resources.add InRange
  simp only [Option.bind_eq_bind, Option.bind_eq_some_iff, checkedAdd_eq_some, Option.pure_def,
    Option.some.injEq]
  constructor
  · rintro ⟨_, ⟨hcpu, rfl⟩, _, ⟨hmemory, rfl⟩, _, ⟨hpods, rfl⟩, rfl⟩
    exact ⟨⟨hcpu, hmemory, hpods⟩, rfl⟩
  · rintro ⟨⟨hcpu, hmemory, hpods⟩, rfl⟩
    exact ⟨_, ⟨hcpu, rfl⟩, _, ⟨hmemory, rfl⟩, _, ⟨hpods, rfl⟩, rfl⟩

theorem add_eq_plus (r s : Resources) : r.add s = RangedSums.plus i64 r s := by
  apply Option.ext
  intro t
  rw [add_eq_some]
  exact (RangedSums.plus_eq_some i64).symm

end Resources

theorem sum_eq_total {α : Type} (f : α → Option Resources) (start : Resources) (xs : List α) :
    sum f start xs = RangedSums.total Resources.i64 f start xs := by
  unfold sum RangedSums.total
  congr 1
  funext total a
  cases f a with
  | none => rfl
  | some x => exact Resources.add_eq_plus total x

theorem ContainerTakes.nonneg {x : Resources} (h : ContainerTakes c x) : Resources.i64.amount x :=
  ⟨h.cpu.nonneg MilliCpu.nonneg, h.memory.nonneg Bytes.nonneg, le_of_eq h.pods.symm⟩

theorem OverheadTakes.nonneg {x : Resources} (h : OverheadTakes v x) : Resources.i64.amount x :=
  ⟨h.cpu.nonneg MilliCpu.nonneg, h.memory.nonneg Bytes.nonneg, le_of_eq h.pods.symm⟩

theorem sum_containers {cs : List Json} {x : Resources} :
    sum containerRequests ⟨0, 0, 1⟩ cs = some x ↔
      ∃ rs, List.Forall₂ ContainerTakes cs rs ∧ x = ⟨0, 0, 1⟩ + rs.sum ∧ x.InRange := by
  rw [sum_eq_total, RangedSums.total_eq_some]
  · simp only [containerRequests_eq_some]
    rfl
  · exact fun a m h => (containerRequests_eq_some.mp h).nonneg
  · exact ⟨le_refl 0, le_refl 0, Int.one_nonneg⟩
  · exact (by decide : Resources.InRange ⟨0, 0, 1⟩)

theorem asArray_eq_some {items : List Json} : v.asArray = some items ↔ v = .array items := by
  cases v <;> simp [Json.asArray]

/-- What the scheduler reckons with is what the Pod takes. -/
theorem requests_eq_some {x : Resources} : requests p = some x ↔ Takes p x := by
  unfold requests Takes
  constructor
  · intro h
    dsimp only at h
    split_ifs at h with hplain
    simp only [Bool.or_eq_true, not_or, Bool.not_eq_true] at hplain
    obtain ⟨cs, hcs, h⟩ := Option.bind_eq_some_iff.mp h
    obtain ⟨total, htotal, h⟩ := Option.bind_eq_some_iff.mp h
    obtain ⟨overhead, hoverhead, h⟩ := Option.bind_eq_some_iff.mp h
    obtain ⟨hread, hne⟩ := Option.filter_eq_some_iff.mp hcs
    obtain ⟨rs, hrs, rfl, -⟩ := sum_containers.mp htotal
    obtain ⟨hrange, rfl⟩ := Resources.add_eq_some.mp h
    exact ⟨⟨hplain.1.1, hplain.1.2, hplain.2⟩, cs, asArray_eq_some.mp hread,
      of_decide_eq_true hne, rs, overhead, hrs, overheadRequests_eq_some.mp hoverhead, rfl, hrange⟩
  · rintro ⟨hplain, cs, hcs, hne, rs, overhead, hrs, hoverhead, rfl, hrange⟩
    have hread : p["spec"]["containers"].asArray.filter (· ≠ []) = some cs := by
      rw [hcs]
      simp [Json.asArray, Option.filter_some, hne]
    have hbelow : (⟨0, 0, 1⟩ + rs.sum : Resources).InRange := by
      apply Resources.i64.below (b := overhead) _ hoverhead.nonneg hrange
      apply Resources.i64.add ⟨le_refl 0, le_refl 0, Int.one_nonneg⟩
      apply Resources.i64.sum
      exact RangedSums.amounts (f := containerRequests)
        (fun a m h => (containerRequests_eq_some.mp h).nonneg)
        (hrs.imp fun _ _ h => containerRequests_eq_some.mpr h)
    have htotal := sum_containers.mpr ⟨rs, hrs, rfl, hbelow⟩
    simp only [hplain.init, hplain.resources, hplain.claims, Bool.or_self, Bool.false_eq_true,
      if_false, hread, Option.bind_eq_bind, Option.bind_some, htotal,
      overheadRequests_eq_some.mpr hoverhead]
    exact Resources.add_eq_some.mpr ⟨hrange, rfl⟩

theorem Takes.nonneg {x : Resources} (h : Takes p x) : Resources.i64.amount x := by
  obtain ⟨-, cs, -, -, rs, overhead, hrs, hoverhead, rfl, -⟩ := h
  apply Resources.i64.add _ hoverhead.nonneg
  apply Resources.i64.add ⟨le_refl 0, le_refl 0, Int.one_nonneg⟩
  apply Resources.i64.sum
  exact RangedSums.amounts (f := containerRequests)
    (fun a m h => (containerRequests_eq_some.mp h).nonneg)
    (hrs.imp fun _ _ h => containerRequests_eq_some.mpr h)

theorem Takes.unique {x y : Resources} (h : Takes p x) (h' : Takes p y) : x = y :=
  Option.some.inj ((requests_eq_some.mpr h).symm.trans (requests_eq_some.mpr h'))

theorem sum_requests {pods : List Json} {x : Resources} :
    sum requests ⟨0, 0, 0⟩ pods = some x ↔
      ∃ rs, List.Forall₂ Takes pods rs ∧ x = rs.sum ∧ x.InRange := by
  rw [sum_eq_total, RangedSums.total_eq_some]
  · simp only [requests_eq_some]
    have hzero : (⟨0, 0, 0⟩ : Resources) = 0 := rfl
    simp only [hzero, zero_add]
    rfl
  · exact fun a m h => (requests_eq_some.mp h).nonneg
  · exact Resources.i64.zero
  · exact (by decide : Resources.InRange ⟨0, 0, 0⟩)

end Hedronetes.Scheduler
