import Hedronetes.Foundations.CursorScan

/-!
# Multi-version logs and their compaction

A log holds one version of one key per revision. Readers ask for the newest
version of a key below some bound. Compaction at `F` may drop a version that a
newer one of the same key supersedes at or before `F`; a log that has dropped
nothing else answers every question about revisions from `F` on like the full
log does.
-/

namespace Hedronetes.VersionLog

open CursorScan

/-- One version of a key. -/
structure Version (K V : Type*) where
  key : K
  revision : ℕ
  value : V
  deriving DecidableEq, Repr

variable {K V : Type*}

/-- Revisions increase along the log, so each belongs to one version. -/
abbrev Ordered (log : List (Version K V)) : Prop := Ascending Version.revision log

/-- The version of greatest revision among those that satisfy `p`. -/
def newest (p : Version K V → Bool) (log : List (Version K V)) : Option (Version K V) :=
  (log.filter p).argmax Version.revision

theorem newest_mem {p : Version K V → Bool} {log : List (Version K V)} {v : Version K V}
    (h : newest p log = some v) : v ∈ log ∧ p v = true :=
  List.mem_filter.mp (List.argmax_mem h)

theorem newest_le {p : Version K V → Bool} {log : List (Version K V)} {u v : Version K V}
    (h : newest p log = some v) (hu : u ∈ log) (hp : p u = true) : u.revision ≤ v.revision :=
  List.le_of_mem_argmax (List.mem_filter.mpr ⟨hu, hp⟩) h

theorem newest_eq_none {p : Version K V → Bool} {log : List (Version K V)} :
    newest p log = none ↔ ∀ v ∈ log, p v = false := by
  simp [newest, List.argmax_eq_none]

theorem newest_exists {p : Version K V → Bool} {log : List (Version K V)} {u : Version K V}
    (hu : u ∈ log) (hp : p u = true) : ∃ v, newest p log = some v := by
  cases h : newest p log with
  | none => simp [newest_eq_none.mp h u hu] at hp
  | some v => exact ⟨v, rfl⟩

/-- In an ordered log the newest match is the match no other one exceeds. -/
theorem newest_eq_some {p : Version K V → Bool} {log : List (Version K V)} (ho : Ordered log)
    {v : Version K V} :
    newest p log = some v ↔
      v ∈ log ∧ p v = true ∧ ∀ u ∈ log, p u = true → u.revision ≤ v.revision := by
  constructor
  · intro h
    exact ⟨(newest_mem h).1, (newest_mem h).2, fun u hu hp => newest_le h hu hp⟩
  · rintro ⟨hv, hp, hmax⟩
    obtain ⟨w, hw⟩ := newest_exists hv hp
    have hle := newest_le hw hv hp
    have hge := hmax w (newest_mem hw).1 (newest_mem hw).2
    rw [hw, ho.eq_of_key (newest_mem hw).1 hv (le_antisymm hge hle)]

theorem newest_congr {p q : Version K V → Bool} {log : List (Version K V)}
    (h : ∀ v ∈ log, p v = q v) : newest p log = newest q log := by
  rw [newest, newest, List.filter_congr h]

/-- Two logs that agree on the newest match of one agree on the newest match. -/
theorem newest_of_sublist {p : Version K V → Bool} {full kept : List (Version K V)}
    (ho : Ordered full) (hs : kept.Sublist full)
    (hkeep : ∀ v, newest p full = some v → v ∈ kept) : newest p kept = newest p full := by
  have hok : Ordered kept := List.Pairwise.sublist hs ho
  cases h : newest p full with
  | none =>
    rw [newest_eq_none] at h ⊢
    exact fun v hv => h v (hs.subset hv)
  | some v =>
    obtain ⟨_, hp, hmax⟩ := (newest_eq_some ho).mp h
    exact (newest_eq_some hok).mpr
      ⟨hkeep v h, hp, fun u hu hpu => hmax u (hs.subset hu) hpu⟩

theorem newest_append_of_false {p : Version K V → Bool} {log new : List (Version K V)}
    (h : ∀ v ∈ new, p v = false) : newest p (log ++ new) = newest p log := by
  have hnil : new.filter p = [] := List.filter_eq_nil_iff.mpr fun v hv => by simp [h v hv]
  rw [newest, List.filter_append, hnil, List.append_nil]
  rfl

/-- A version that another one of its key replaced at or before `F`. -/
def Superseded (log : List (Version K V)) (F : ℕ) (v : Version K V) : Prop :=
  ∃ u ∈ log, u.key = v.key ∧ v.revision < u.revision ∧ u.revision ≤ F

theorem Superseded.mono {log log' : List (Version K V)} {F G : ℕ} {v : Version K V}
    (h : Superseded log F v) (hl : log ⊆ log') (hF : F ≤ G) : Superseded log' G v := by
  obtain ⟨u, hu, hk, hlt, hle⟩ := h
  exact ⟨u, hl hu, hk, hlt, hle.trans hF⟩

theorem not_superseded_of_le {log : List (Version K V)} {F : ℕ} {v : Version K V}
    (h : F ≤ v.revision) : ¬ Superseded log F v := by
  rintro ⟨u, _, _, hlt, hle⟩
  omega

/-- `kept` is `full` less some versions that are superseded at `F`. -/
structure Retains (F : ℕ) (full kept : List (Version K V)) : Prop where
  sublist : kept.Sublist full
  keeps : ∀ v ∈ full, ¬ Superseded full F v → v ∈ kept

namespace Retains

variable {F : ℕ} {full kept : List (Version K V)}

theorem refl (F : ℕ) (log : List (Version K V)) : Retains F log log :=
  ⟨List.Sublist.refl _, fun _ hv _ => hv⟩

theorem ordered (h : Retains F full kept) (ho : Ordered full) : Ordered kept :=
  List.Pairwise.sublist h.sublist ho

theorem mono {G : ℕ} (h : Retains F full kept) (hFG : F ≤ G) : Retains G full kept :=
  ⟨h.sublist, fun v hv hns => h.keeps v hv fun hs => hns (hs.mono (List.Subset.refl _) hFG)⟩

/-- The log after `c` is complete from `F` on. -/
theorem beyond_eq (h : Retains F full kept) (ho : Ordered full) {c : ℕ} (hc : F ≤ c) :
    beyond Version.revision c kept = beyond Version.revision c full := by
  refine Ascending.eq_of_sublist (ho.filter _) (h.sublist.filter _) fun v hv => ?_
  obtain ⟨hv, hlt⟩ := mem_beyond.mp hv
  exact mem_beyond.mpr ⟨h.keeps v hv (not_superseded_of_le (hc.trans hlt.le)), hlt⟩

/-- Appending a version keeps the relation. -/
theorem snoc (h : Retains F full kept) (v : Version K V) :
    Retains F (full ++ [v]) (kept ++ [v]) := by
  refine ⟨h.sublist.append (List.Sublist.refl _), fun u hu hns => ?_⟩
  rcases List.mem_append.mp hu with hu | hu
  · refine List.mem_append.mpr (Or.inl (h.keeps u hu fun hs => hns ?_))
    exact hs.mono (List.subset_append_left _ _) le_rfl
  · exact List.mem_append.mpr (Or.inr hu)

/-- Deleting versions superseded at `G ≥ F` raises the floor to `G`. -/
theorem filter {G : ℕ} (h : Retains F full kept) (hFG : F ≤ G) {q : Version K V → Bool}
    (hq : ∀ v ∈ full, q v = false → Superseded full G v) : Retains G full (kept.filter q) := by
  refine ⟨(List.filter_sublist).trans h.sublist, fun v hv hns => ?_⟩
  refine List.mem_filter.mpr ⟨(h.mono hFG).keeps v hv hns, ?_⟩
  by_contra hf
  exact hns (hq v hv (by simpa using hf))

end Retains

section Keyed

variable [DecidableEq K]

/-- The last version of a key. -/
def latest (k : K) (log : List (Version K V)) : Option (Version K V) :=
  newest (fun v => v.key = k) log

/-- The version of a key that a reader at revision `R` sees. -/
def latestAt (k : K) (R : ℕ) (log : List (Version K V)) : Option (Version K V) :=
  newest (fun v => v.key = k ∧ v.revision ≤ R) log

/-- The version a given one replaced. -/
def preceding (v : Version K V) (log : List (Version K V)) : Option (Version K V) :=
  newest (fun u => u.key = v.key ∧ u.revision < v.revision) log

/-- The versions a reader at revision `R` sees, one for each key it sees. -/
def snapshot (R : ℕ) (log : List (Version K V)) : List (Version K V) :=
  log.filter fun v => (latestAt v.key R log).map Version.revision = some v.revision

/-- The greatest revision not after `F` of each key that has one. -/
def baselines (F : ℕ) (log : List (Version K V)) : List ℕ :=
  ((log.filter fun v => v.revision ≤ F).map Version.key).filterMap fun k =>
    (latestAt k F log).map Version.revision

/-- The revisions that compaction at `F` deletes. -/
def doomed (F : ℕ) (log : List (Version K V)) : List ℕ :=
  (log.filter fun v => v.revision < F ∧ v.revision ∉ baselines F log).map Version.revision

/-- Compaction keeps a baseline for each key and everything from `F` on. -/
def compact (F : ℕ) (log : List (Version K V)) : List (Version K V) :=
  log.filter fun v => v.revision ∉ doomed F log

theorem latest_mem {k : K} {log : List (Version K V)} {v : Version K V}
    (h : latest k log = some v) : v ∈ log ∧ v.key = k := by
  simpa using newest_mem h

theorem latestAt_mem {k : K} {R : ℕ} {log : List (Version K V)} {v : Version K V}
    (h : latestAt k R log = some v) : v ∈ log ∧ v.key = k ∧ v.revision ≤ R := by
  simpa using newest_mem h

theorem preceding_mem {u v : Version K V} {log : List (Version K V)}
    (h : preceding v log = some u) : u ∈ log ∧ u.key = v.key ∧ u.revision < v.revision := by
  simpa using newest_mem h

/-- The last version of an ordered log is the latest of its key. -/
theorem latest_snoc {log : List (Version K V)} {v : Version K V} (ho : Ordered (log ++ [v])) :
    latest v.key (log ++ [v]) = some v := by
  refine (newest_eq_some ho).mpr ⟨by simp, by simp, fun u hu _ => ?_⟩
  rcases List.mem_append.mp hu with hu | hu
  · exact ((List.pairwise_append.mp ho).2.2 u hu v (by simp)).le
  · rw [List.mem_singleton.mp hu]

/-- Nothing is newer than the head, so a read at the head is the latest one. -/
theorem latestAt_of_le {k : K} {R : ℕ} {log : List (Version K V)}
    (h : ∀ v ∈ log, v.revision ≤ R) : latestAt k R log = latest k log :=
  newest_congr fun v hv => by simp [h v hv]

theorem preceding_eq_latestAt {v : Version K V} {log : List (Version K V)}
    (h : 0 < v.revision) : preceding v log = latestAt v.key (v.revision - 1) log :=
  newest_congr fun u _ => by
    have : u.revision < v.revision ↔ u.revision ≤ v.revision - 1 := by omega
    simp [this]

theorem mem_snapshot {R : ℕ} {log : List (Version K V)} (ho : Ordered log) {v : Version K V} :
    v ∈ snapshot R log ↔ latestAt v.key R log = some v := by
  constructor
  · intro h
    obtain ⟨hv, he⟩ := List.mem_filter.mp h
    obtain ⟨w, hw, hrev⟩ := Option.map_eq_some_iff.mp (of_decide_eq_true he)
    rw [hw, ho.eq_of_key (latestAt_mem hw).1 hv hrev]
  · intro h
    exact List.mem_filter.mpr ⟨(latestAt_mem h).1, by simp [h]⟩

/-- A snapshot has at most one version of each key. -/
theorem snapshot_keys {R : ℕ} {log : List (Version K V)} (ho : Ordered log) {u v : Version K V}
    (hu : u ∈ snapshot R log) (hv : v ∈ snapshot R log) (hk : u.key = v.key) : u = v := by
  rw [mem_snapshot ho] at hu hv
  rw [hk] at hu
  exact Option.some.inj (hu.symm.trans hv)

theorem snapshot_le {R : ℕ} {log : List (Version K V)} (ho : Ordered log) {v : Version K V}
    (hv : v ∈ snapshot R log) : v.revision ≤ R :=
  (latestAt_mem ((mem_snapshot ho).mp hv)).2.2

/-- Later versions leave every earlier snapshot as it was. -/
theorem latestAt_append {k : K} {R : ℕ} {log new : List (Version K V)}
    (h : ∀ v ∈ new, R < v.revision) : latestAt k R (log ++ new) = latestAt k R log :=
  newest_append_of_false fun v hv => by simp [h v hv]

theorem preceding_append {v : Version K V} {log new : List (Version K V)}
    (h : ∀ u ∈ new, v.revision ≤ u.revision) : preceding v (log ++ new) = preceding v log :=
  newest_append_of_false fun u hu => by simp [h u hu]

theorem snapshot_append {R : ℕ} {log new : List (Version K V)}
    (h : ∀ v ∈ new, R < v.revision) : snapshot R (log ++ new) = snapshot R log := by
  have hnew : new.filter (fun v => (latestAt v.key R log).map Version.revision
      = some v.revision) = [] := by
    refine List.filter_eq_nil_iff.mpr fun v hv he => ?_
    obtain ⟨w, hw, hrev⟩ := Option.map_eq_some_iff.mp (of_decide_eq_true he)
    have hle := (latestAt_mem hw).2.2
    have hlt := h v hv
    omega
  simp only [snapshot, latestAt_append h, List.filter_append]
  rw [hnew, List.append_nil]

/-- What a reader from `F` on sees is not superseded at `F`. -/
theorem latestAt_not_superseded {k : K} {F R : ℕ} {log : List (Version K V)} {v : Version K V}
    (h : latestAt k R log = some v) (hF : F ≤ R) : ¬ Superseded log F v := by
  rintro ⟨u, hu, hk, hlt, hle⟩
  have hkey := (latestAt_mem h).2.1
  have := newest_le h hu (by simp [hk, hkey, hle.trans hF])
  omega

theorem latest_not_superseded {k : K} {F : ℕ} {log : List (Version K V)} {v : Version K V}
    (h : latest k log = some v) : ¬ Superseded log F v := by
  rintro ⟨u, hu, hk, hlt, _⟩
  have hkey := (latest_mem h).2
  have := newest_le h hu (by simp [hk, hkey])
  omega

/-- Compaction deletes superseded versions only. -/
theorem superseded_of_mem_doomed {F : ℕ} {log : List (Version K V)} (ho : Ordered log)
    {v : Version K V} (hv : v ∈ log) (hd : v.revision ∈ doomed F log) : Superseded log F v := by
  obtain ⟨w, hw, hrev⟩ := List.mem_map.mp hd
  obtain ⟨hw, hcond⟩ := List.mem_filter.mp hw
  rw [ho.eq_of_key hw hv hrev] at hcond
  obtain ⟨hlt, hbase⟩ := of_decide_eq_true hcond
  obtain ⟨b, hb⟩ := newest_exists (p := fun u => u.key = v.key ∧ u.revision ≤ F) hv
    (by simp [hlt.le])
  have hle := newest_le hb hv (by simp [hlt.le])
  have hbm : b.key = v.key ∧ b.revision ≤ F := by simpa using (newest_mem hb).2
  have hmem : b.revision ∈ baselines F log := by
    refine List.mem_filterMap.mpr ⟨v.key, ?_, ?_⟩
    · exact List.mem_map.mpr ⟨v, List.mem_filter.mpr ⟨hv, by simp [hlt.le]⟩, rfl⟩
    · change (newest _ log).map _ = _
      rw [hb, Option.map_some]
  have hne : v.revision ≠ b.revision := fun he => hbase (he ▸ hmem)
  exact ⟨b, (newest_mem hb).1, hbm.1, lt_of_le_of_ne hle hne, hbm.2⟩

namespace Retains

variable {F : ℕ} {full kept : List (Version K V)}

theorem latestAt_eq (h : Retains F full kept) (ho : Ordered full) {k : K} {R : ℕ} (hR : F ≤ R) :
    latestAt k R kept = latestAt k R full :=
  newest_of_sublist ho h.sublist fun v hv =>
    h.keeps v (latestAt_mem hv).1 (latestAt_not_superseded hv hR)

theorem latest_eq (h : Retains F full kept) (ho : Ordered full) {k : K} :
    latest k kept = latest k full :=
  newest_of_sublist ho h.sublist fun v hv =>
    h.keeps v (latest_mem hv).1 (latest_not_superseded hv)

/-- A change after `F` still has its predecessor. -/
theorem preceding_eq (h : Retains F full kept) (ho : Ordered full) {v : Version K V}
    (hv : F < v.revision) : preceding v kept = preceding v full := by
  have hpos : 0 < v.revision := by omega
  rw [preceding_eq_latestAt hpos, preceding_eq_latestAt hpos]
  exact h.latestAt_eq ho (by omega)

theorem snapshot_eq (h : Retains F full kept) (ho : Ordered full) {R : ℕ} (hR : F ≤ R) :
    snapshot R kept = snapshot R full := by
  have hsub : (snapshot R kept).Sublist (snapshot R full) := by
    have hcongr : snapshot R kept = kept.filter fun v =>
        (latestAt v.key R full).map Version.revision = some v.revision := by
      simp only [snapshot, h.latestAt_eq ho hR]
    rw [hcongr]
    exact h.sublist.filter _
  refine Ascending.eq_of_sublist (ho.filter _) hsub fun v hv => ?_
  rw [mem_snapshot ho] at hv
  rw [mem_snapshot (h.ordered ho), h.latestAt_eq ho hR]
  exact hv

/-- What compaction of the kept log deletes is superseded in the full log. -/
theorem superseded_of_doomed (h : Retains F full kept) (ho : Ordered full) {G : ℕ}
    {v : Version K V} (hv : v ∈ full) (hd : v.revision ∈ doomed G kept) : Superseded full G v := by
  obtain ⟨w, hw, hrev⟩ := List.mem_map.mp hd
  have hwk : w ∈ kept := (List.mem_filter.mp hw).1
  have hwv : w = v := ho.eq_of_key (h.sublist.subset hwk) hv hrev
  exact (superseded_of_mem_doomed (h.ordered ho) (hwv ▸ hwk) hd).mono h.sublist.subset le_rfl

theorem compact (h : Retains F full kept) (ho : Ordered full) {G : ℕ} (hFG : F ≤ G) :
    Retains G full (compact G kept) :=
  h.filter hFG fun _ hv hq => h.superseded_of_doomed ho hv (by simpa using hq)

end Retains

end Keyed

end Hedronetes.VersionLog
