import Hedronetes.Server.SettledRules

/-!
# Prepared objects are left as they are

What a strategy has prepared it prepares as the same object again, and the generation counts the
changes of the specification.
-/

namespace Hedronetes.Server

open FirstMatch Apply Fallible Settling

variable {value result v w : Json} {key : String} {rule : Json → Outcome Json} {base : SpecRules}
  {resource : Resource} {old : Option Json} {status : Bool}

/-! ## The rules of a kind -/

/-- The members that the rules of a kind go by and write. -/
def kindMembers : List String :=
  ["spec", "provisioner", "reclaimPolicy", "volumeBindingMode", "addressType", "endpoints", "ports"]

/-- A rule that takes objects alone gives objects alone when it leaves its results as they are. -/
theorem spec_settles (hrule : Idempotent rule)
    (hobject : ∀ v r, rule v = .ok r → v.isObject = true) :
    Settles member kindMembers kindMembers fun v => withSpec v rule := by
  have hnull : ∀ v r, rule v = .ok r → r ≠ .null := by
    rintro v _ h rfl
    exact absurd (hobject _ _ (hrule _ _ h)) (by decide)
  exact (onMember_settles "spec" hrule hnull).mono (by decide) (by decide)

theorem require_bind {condition : Prop} [Decidable condition] {message : String}
    {next : Unit → Outcome Json} (h : (require condition message >>= next) = .ok result) :
    condition := by
  obtain ⟨_, hcondition, -⟩ := bind_eq_ok.mp h
  exact require_ok.mp hcondition

/-- The rules of a kind, which do not see the stored object but for claims. -/
theorem prepareKind_old (hclaim : resource.kind ≠ "PersistentVolumeClaim") (old' : Option Json) :
    prepareKind (strategyRules base) resource v old =
      prepareKind (strategyRules base) resource v old' := by
  unfold prepareKind
  split
  case h_5 hkind => exact absurd hkind hclaim
  all_goals rfl

theorem prepareKind_settles (hclaim : resource.kind ≠ "PersistentVolumeClaim") :
    Settles member kindMembers kindMembers
      fun v => prepareKind (strategyRules base) resource v old := by
  unfold prepareKind
  split
  case h_1 => exact spec_settles pod_idempotent fun v r h => require_bind h
  case h_2 => exact spec_settles (workload_idempotent _) fun v r h => require_bind h
  case h_3 => exact spec_settles (workload_idempotent _) fun v r h => require_bind h
  case h_4 => exact spec_settles service_idempotent fun v r h => require_bind h
  case h_5 hkind => exact absurd hkind hclaim
  case h_6 => exact spec_settles volume_idempotent fun v r h => require_bind h
  case h_7 => exact storageClass_settles.mono (by decide) (by decide)
  case h_8 => exact (nodeSpec_settles _).mono (by decide) (by decide)
  case h_9 => exact (endpoints_settles _).mono (by decide) (by decide)
  case h_10 => exact ingress_settles.mono (by decide) (by decide)
  case h_11 =>
    have hduration : ∀ s t, Agrees member ["spec"] s t →
        (t["spec"]["leaseDurationSeconds"].asInt.any (fun v => v ≤ 0) ↔
          s["spec"]["leaseDurationSeconds"].asInt.any (fun v => v ≤ 0)) := by
      intro s t hagrees
      rw [show t["spec"] = s["spec"] from hagrees _ (by simp)]
    have hrefused : Settles member [] [] fun _ : Json =>
        (.error (invalid "lease duration must be positive") : Outcome Json) :=
      Settles.fails fun s t h => by cases h
    exact (Settling.Settles.ite hduration hrefused Settles.ok (by decide)).mono (by decide)
      (by decide)
  case h_12 => exact Settles.ok.mono (by decide) (by decide)

theorem claim_isObject {spec : Json} {kept : Option Json} (h : claim spec kept = .ok result) :
    result.isObject = true :=
  require_bind (claim_again h)

/-- The rules accept what they have given, whatever its metadata. -/
theorem prepareKind_again (h : prepareKind (strategyRules base) resource value old = .ok w)
    (hsame : ∀ k, k ≠ "metadata" → v[k] = w[k]) :
    prepareKind (strategyRules base) resource v (some v) = .ok v := by
  by_cases hclaim : resource.kind = "PersistentVolumeClaim"
  · unfold prepareKind at h ⊢
    rw [hclaim] at h ⊢
    obtain ⟨spec, hspec, hset⟩ := bind_eq_ok.mp h
    have hv : v["spec"] = spec := (hsame "spec" (by decide)).trans (getElem_setAt hset)
    change withSpec v (fun spec => claim spec (some v["spec"])) = .ok v
    unfold withSpec
    rw [hv]
    apply bind_eq_ok.mpr ⟨spec, claim_again hspec, _⟩
    rw [← hv]
    apply setAt_self
    rw [hv]
    rintro rfl
    exact absurd (claim_isObject hspec) (by decide)
  · have hsettles : Settles member kindMembers kindMembers
        fun v => prepareKind (strategyRules base) resource v old := prepareKind_settles hclaim
    rw [prepareKind_old hclaim old]
    apply hsettles.depends w v (hsettles.again value w h)
    intro k hk
    apply hsame
    rintro rfl
    exact absurd hk (by decide)

theorem prepareKind_status (h : prepareKind (strategyRules base) resource value old = .ok w) :
    w["status"] = value["status"] := by
  by_cases hclaim : resource.kind = "PersistentVolumeClaim"
  · unfold prepareKind at h
    rw [hclaim] at h
    exact withSpec_ne h (by decide)
  · exact (prepareKind_settles hclaim).frame value w h "status" (by decide)

theorem prepareKind_contained (hpod : resource.kind = "Pod")
    (h : prepareKind (strategyRules base) resource value old = .ok w) : Contained w["spec"] := by
  unfold prepareKind at h
  rw [hpod] at h
  obtain ⟨spec, hspec, h⟩ := bind_eq_ok.mp h
  rw [getElem_setAt h]
  exact pod_contained hspec

/-! ## What may not change -/

theorem withImages_self {field : String} (h : ∀ item ∈ value[field].items, item["image"] ≠ .null) :
    withImages value value field = .ok value := by
  unfold withImages
  cases harray : value[field].asArray with
  | none => rfl
  | some items =>
    have hitems : value[field].items = items := by
      unfold Json.items
      rw [harray]
      rfl
    have hvalue : value[field] = .array items := by
      cases hmember : value[field] with
      | array found =>
        rw [hmember] at harray
        exact congrArg Json.array (Option.some.inj harray)
      | _ =>
        rw [hmember] at harray
        cases harray
    rw [hitems] at h
    have hsame : (items.zip items).mapM (fun e => setAt e.1 ["image"] e.2["image"]) =
        .ok items := by
      clear hitems hvalue harray
      induction items with
      | nil => rfl
      | cons c items ih =>
        have hrest := ih fun d hd => h d (List.mem_cons_of_mem c hd)
        rw [List.zip_cons_cons, List.mapM_cons]
        apply bind_eq_ok.mpr ⟨c, setAt_self (h c List.mem_cons_self), _⟩
        exact bind_eq_ok.mpr ⟨items, hrest, rfl⟩
    dsimp only
    rw [if_pos rfl]
    apply bind_eq_ok.mpr ⟨items, hsame, _⟩
    rw [← hvalue]
    apply setAt_self
    rw [hvalue]
    exact Json.noConfusion

/-- An object may be updated by itself. -/
theorem immutable_self (h : resource.kind = "Pod" → Contained v["spec"]) :
    immutable resource v v = .ok () := by
  unfold immutable
  simp only [ne_eq, not_true, and_false, or_false, and_not_self, if_false]
  by_cases hpod : resource.kind = "Pod"
  · have himages := (h hpod).image
    have hallowed : ["containers", "initContainers"].foldlM
        (fun allowed field => withImages allowed v["spec"] field) v["spec"] = .ok v["spec"] := by
      rw [List.foldlM_cons]
      apply bind_eq_ok.mpr ⟨_, withImages_self (himages _ (by simp)), _⟩
      rw [List.foldlM_cons]
      exact bind_eq_ok.mpr ⟨_, withImages_self (himages _ (by simp)), rfl⟩
    rw [if_pos hpod, hallowed]
    exact if_neg fun hne => hne rfl
  · rw [if_neg hpod]
    rfl

/-! ## Generations -/

/-- The same object, but that a generation which is left out may be set to null. -/
def SameObject (v r : Json) : Prop :=
  r = v ∨ (v["metadata"]["generation"] = .null ∧ setAt v ["metadata", "generation"] .null = .ok r)

/-- The generation was written or taken out last, and a kind that has one has a number there. -/
structure Stamped (resource : Resource) (v : Json) : Prop where
  same : ∃ r, setAt v ["metadata", "generation"] v["metadata"]["generation"] = .ok r ∧
    SameObject v r
  counted : resource.hasGeneration → ∃ n : ℤ, -2 ^ 63 ≤ n ∧ n < 2 ^ 63 ∧
    setAt v ["metadata", "generation"] (.number (.int n)) = .ok v

theorem getElem_setAt_pair {a b : String} {x : Json} (h : setAt value [a, b] x = .ok result) :
    result[a][b] = x :=
  getElem_setAt (getElem_setAt_step h)

theorem setAt_same {x : Json} (h : setAt value ["metadata", "generation"] x = .ok v) :
    ∃ r, setAt v ["metadata", "generation"] v["metadata"]["generation"] = .ok r ∧
      SameObject v r := by
  rw [getElem_setAt_pair h]
  exact ⟨v, setAt_again h, .inl rfl⟩

theorem removeAt_same (h : removeAt value "metadata" "generation" = .ok v) :
    ∃ r, setAt v ["metadata", "generation"] v["metadata"]["generation"] = .ok r ∧
      SameObject v r := by
  have hnull : v["metadata"]["generation"] = .null := by
    rw [getElem_removeAt h, if_pos rfl]
  unfold removeAt at h
  split at h
  · rename_i fields hfields
    have hmetadata := getElem_setAt h
    obtain ⟨members, rfl⟩ := Json.isObject_iff.mp (setAt_cons h).choose_spec.2.2.2
    have hlookup : (lookup "metadata" members).getD .null =
        .object (eraseKey "generation" fields) := hmetadata
    have hinner : ∃ inner, setAt ((lookup "metadata" members).getD .null) ["generation"] .null =
        .ok inner := by
      rw [hlookup]
      exact ⟨_, rfl⟩
    obtain ⟨inner, hinner⟩ := hinner
    have hwrite : setAt (.object members) ["metadata", "generation"] .null =
        .ok (.object (insertKey "metadata" inner members)) :=
      bind_eq_ok.mpr ⟨inner, hinner, rfl⟩
    rw [hnull]
    exact ⟨_, hwrite, .inr ⟨hnull, hwrite⟩⟩
  · cases h

/-- How far an update raises the generation. -/
def raised (resource : Resource) (v stored : Json) : ℤ :=
  if stored["spec"] ≠ v["spec"] ∨ (resource.kind = "Deployment" ∧
    stored["metadata"]["annotations"] ≠ v["metadata"]["annotations"]) then 1 else 0

theorem asInt_range {n : ℤ} (h : value.asInt = some n) : -2 ^ 63 ≤ n ∧ n < 2 ^ 63 := by
  unfold Json.asInt at h
  split at h
  · split_ifs at h with hrange
    exact Option.some.inj h ▸ hrange
  · cases h

theorem withGeneration_counted (hgeneration : resource.hasGeneration = true)
    (h : withGeneration resource value old = .ok v) :
    ∃ n : ℤ, -2 ^ 63 ≤ n ∧ n < 2 ^ 63 ∧
      setAt value ["metadata", "generation"] (.number (.int n)) = .ok v ∧
      n = (old.bind fun old => old["metadata"]["generation"].asInt).getD 1 +
        (old.map (raised resource value)).getD 0 := by
  have hraised : (if (old.any fun old => old["spec"] ≠ value["spec"] ||
      (resource.kind = "Deployment" &&
        old["metadata"]["annotations"] ≠ value["metadata"]["annotations"])) then (1 : ℤ) else 0) =
      (old.map (raised resource value)).getD 0 := by
    cases old with
    | none => rfl
    | some stored => simp [raised]
  have hbefore : -2 ^ 63 ≤ (old.bind fun old => old["metadata"]["generation"].asInt).getD 1 := by
    cases hold : old.bind fun old => old["metadata"]["generation"].asInt with
    | none => decide
    | some n =>
      obtain ⟨stored, -, hn⟩ := Option.bind_eq_some_iff.mp hold
      exact (asInt_range hn).1
  have hnonneg : 0 ≤ (old.map (raised resource value)).getD 0 := by
    cases old with
    | none => exact le_rfl
    | some stored =>
      change 0 ≤ raised resource value stored
      unfold raised
      split_ifs <;> decide
  unfold withGeneration at h
  rw [if_pos hgeneration] at h
  dsimp only at h
  rw [hraised] at h
  split_ifs at h with hroom
  exact ⟨_, by omega, hroom, h, rfl⟩

theorem Stamped.of_withGeneration (h : withGeneration resource value old = .ok v)
    (hsame : ∃ r, setAt value ["metadata", "generation"] value["metadata"]["generation"] = .ok r ∧
      SameObject value r) : Stamped resource v := by
  by_cases hgeneration : resource.hasGeneration = true
  · obtain ⟨n, hlow, hhigh, hset, -⟩ := withGeneration_counted hgeneration h
    exact ⟨setAt_same hset, fun _ => ⟨n, hlow, hhigh, setAt_again hset⟩⟩
  · unfold withGeneration at h
    rw [if_neg hgeneration] at h
    obtain rfl := Except.ok.inj h
    exact ⟨hsame, fun hcounted => absurd hcounted hgeneration⟩

theorem withGeneration_ne {k : String} (h : withGeneration resource value old = .ok v)
    (hne : k ≠ "metadata") : v[k] = value[k] := by
  by_cases hgeneration : resource.hasGeneration = true
  · obtain ⟨n, -, -, hset, -⟩ := withGeneration_counted hgeneration h
    exact getElem_setAt_ne hset hne
  · unfold withGeneration at h
    rw [if_neg hgeneration] at h
    rw [Except.ok.inj h]

/-- The steps of a write that is no status write. -/
structure Prepared (base : SpecRules) (resource : Resource) (old : Option Json)
    (filled w marked v : Json) : Prop where
  status : resource.hasStatus → filled["status"] ≠ .null
  kind : prepareKind (strategyRules base) resource filled old = .ok w
  members : ∀ k, k ≠ "metadata" → marked[k] = w[k]
  same : ∃ r, setAt marked ["metadata", "generation"] marked["metadata"]["generation"] = .ok r ∧
    SameObject marked r
  generation : withGeneration resource marked old = .ok v

theorem freshStatus_ne_null (kind : String) : freshStatus kind ≠ .null := by
  unfold freshStatus
  split <;> exact Json.noConfusion

theorem prepare_prepared (h : prepare (strategyRules base) resource value old false = .ok v) :
    ∃ filled w marked, Prepared base resource old filled w marked v := by
  unfold prepare at h
  rw [if_neg (by decide)] at h
  obtain ⟨filled, hfilled, h⟩ := ite_bind_eq_ok.mp h
  obtain ⟨w, hkind, h⟩ := bind_eq_ok.mp h
  have hstatus : resource.hasStatus → filled["status"] ≠ .null := by
    intro hstatus
    rw [if_pos hstatus] at hfilled
    rw [getElem_setAt hfilled]
    cases hstored : (old.map fun o => o["status"]).filter (· ≠ .null) with
    | none => exact freshStatus_ne_null resource.kind
    | some stored => simpa using (Option.filter_eq_some_iff.mp hstored).2
  cases old with
  | some stored =>
    obtain ⟨_, -, h⟩ := bind_eq_ok.mp h
    obtain ⟨marked, hmarked, h⟩ := bind_eq_ok.mp h
    exact ⟨filled, w, marked, hstatus, hkind, fun k hne => getElem_setAt_ne hmarked hne,
      setAt_same hmarked, h⟩
  | none =>
    obtain ⟨marked, hmarked, h⟩ := bind_eq_ok.mp h
    exact ⟨filled, w, marked, hstatus, hkind, fun k hne => getElem_removeAt_ne hmarked hne,
      removeAt_same hmarked, h⟩

theorem prepare_again (h : prepare (strategyRules base) resource value old false = .ok v) :
    ∃ r, prepare (strategyRules base) resource v (some v) false = .ok r ∧ SameObject v r ∧
      r["metadata"]["generation"] = v["metadata"]["generation"] := by
  obtain ⟨filled, w, marked, hprepared⟩ := prepare_prepared h
  have hsame : ∀ k, k ≠ "metadata" → v[k] = w[k] := by
    intro k hne
    rw [withGeneration_ne hprepared.generation hne, hprepared.members k hne]
  have hstamped := Stamped.of_withGeneration hprepared.generation hprepared.same
  have hkind := prepareKind_again hprepared.kind hsame
  have himmutable : immutable resource v v = .ok () := by
    apply immutable_self
    intro hpod
    rw [hsame "spec" (by decide)]
    exact prepareKind_contained hpod hprepared.kind
  have hstatus : (if resource.hasStatus then
      setAt v ["status"] ((((some v).map fun o => o["status"]).filter (· ≠ .null)).getD
        (freshStatus resource.kind)) else pure v) = .ok v := by
    by_cases hstatus : resource.hasStatus = true
    · have hgiven : v["status"] ≠ .null := by
        rw [hsame "status" (by decide), prepareKind_status hprepared.kind]
        exact hprepared.status hstatus
      rw [if_pos hstatus, Option.map_some, Option.filter_some, if_pos (by simpa using hgiven)]
      exact setAt_self hgiven
    · rw [if_neg hstatus]
      rfl
  obtain ⟨r, hr, hobject⟩ := hstamped.same
  refine ⟨r, ?_, hobject, getElem_setAt_pair hr⟩
  unfold prepare
  rw [if_neg (by decide)]
  apply ite_bind_eq_ok.mpr ⟨v, hstatus, _⟩
  apply bind_eq_ok.mpr ⟨v, hkind, _⟩
  apply bind_eq_ok.mpr ⟨(), himmutable, _⟩
  apply bind_eq_ok.mpr ⟨r, hr, _⟩
  unfold withGeneration
  by_cases hgeneration : resource.hasGeneration = true
  · obtain ⟨n, hlow, hhigh, hset⟩ := hstamped.counted hgeneration
    have hn := getElem_setAt_pair hset
    rw [hn, hset] at hr
    obtain rfl := Except.ok.inj hr
    have hread : (v["metadata"]["generation"]).asInt = some n := by
      rw [hn]
      exact if_pos ⟨hlow, hhigh⟩
    rw [if_pos hgeneration]
    simp [hread, hset]
    omega
  · rw [if_neg hgeneration]

/-! ## A write of the status -/

/-- A member that is null is not there. -/
def Absent (key : String) (value : Json) : Prop := value[key] = .null → value.field key = none

theorem field_setAt_ne {name other : String} {path : List String} {x : Json}
    (h : setAt value (name :: path) x = .ok result) (hne : other ≠ name) :
    result.field other = value.field other := by
  cases value with
  | object fields =>
    obtain ⟨inner, -, hresult⟩ := bind_eq_ok.mp h
    rw [← Except.ok.inj hresult]
    exact lookup_insertKey_ne hne inner fields
  | null =>
    obtain ⟨inner, -, hresult⟩ := bind_eq_ok.mp h
    rw [← Except.ok.inj hresult, Json.field, lookup_cons, if_neg hne.symm]
    rfl
  | _ => cases h

theorem copyField_absent {source : Json} (h : copyField value key source = .ok result) :
    Absent key result := by
  intro hnull
  unfold copyField at h
  split_ifs at h with hsource
  · split at h
    · rw [← Except.ok.inj h]
      exact lookup_eraseKey key _
    · rename_i hfields
      rw [← Except.ok.inj h]
      cases value with
      | object fields => exact absurd rfl (hfields fields)
      | _ => rfl
  · rw [getElem_setAt h] at hnull
    exact absurd hnull hsource

theorem Absent.copied (h : Absent key value) : copyField value key value = .ok value := by
  unfold copyField
  split_ifs with hnull
  · cases value with
    | object fields =>
      have hlookup : lookup key fields = none := h hnull
      have herase : eraseKey key fields = fields := by
        apply List.filter_eq_self.mpr
        intro e he
        have hmem : e.1 ∈ fields.map Prod.fst := List.mem_map_of_mem he
        have hne : e.1 ≠ key := fun heq => lookup_eq_none_iff.mp hlookup (heq ▸ hmem)
        simpa using hne
      exact congrArg (fun fields => Except.ok (Json.object fields)) herase
    | _ => rfl
  · exact setAt_self hnull

theorem Absent.of_field (h : Absent key value) (hsame : result.field key = value.field key) :
    Absent key result := by
  unfold Absent
  rw [Json.getElem_eq, hsame, ← Json.getElem_eq]
  exact h

/-- The steps of a status write. -/
theorem prepareStatus_parts {stored : Json} (h : prepareStatus resource value stored = .ok v) :
    ∃ copied kept, copyField value "spec" stored = .ok copied ∧
      (if resource.kind ≠ "Node" then setAt copied ["metadata"] stored["metadata"]
        else pure copied) = .ok kept ∧
      setAt kept ["metadata", "resourceVersion"] value["metadata"]["resourceVersion"] = .ok v ∧
      (resource.kind = "Pod" ∧ v["status"]["phase"] ≠ .null →
        oneOf v["status"]["phase"] podPhases "invalid Pod status.phase" = .ok ()) := by
  obtain ⟨copied, hcopied, h⟩ := bind_eq_ok.mp h
  obtain ⟨kept, hkept, h⟩ := ite_bind_eq_ok.mp h
  obtain ⟨marked, hmarked, h⟩ := bind_eq_ok.mp h
  dsimp only at h
  split_ifs at h with hpod
  · obtain ⟨_, hphase, h⟩ := bind_eq_ok.mp h
    obtain rfl := Except.ok.inj h
    exact ⟨copied, kept, hcopied, hkept, hmarked, fun _ => hphase⟩
  · obtain rfl := Except.ok.inj h
    exact ⟨copied, kept, hcopied, hkept, hmarked, fun hpod' => absurd hpod' hpod⟩

theorem prepareStatus_again {stored : Json} (h : prepareStatus resource value stored = .ok v) :
    prepareStatus resource v v = .ok v := by
  obtain ⟨copied, kept, hcopied, hkept, hmarked, hphase⟩ := prepareStatus_parts h
  have hspec : v.field "spec" = copied.field "spec" := by
    rw [field_setAt_ne hmarked (by decide)]
    split_ifs at hkept
    · exact field_setAt_ne hkept (by decide)
    · rw [Except.ok.inj hkept]
  have habsent : Absent "spec" v := (copyField_absent hcopied).of_field hspec
  have hmetadata : v["metadata"] ≠ .null := by
    intro hnull
    obtain ⟨_, -, -, -, hobject⟩ := setAt_cons (getElem_setAt_step hmarked)
    rw [hnull] at hobject
    cases hobject
  have hkept : (if resource.kind ≠ "Node" then setAt v ["metadata"] v["metadata"]
      else pure v) = .ok v := by
    split_ifs
    · exact setAt_self hmetadata
    · rfl
  apply bind_eq_ok.mpr ⟨v, habsent.copied, _⟩
  apply ite_bind_eq_ok.mpr ⟨v, hkept, _⟩
  rw [getElem_setAt_pair hmarked]
  apply bind_eq_ok.mpr ⟨v, setAt_again hmarked, _⟩
  dsimp only
  split_ifs with hpod
  · exact bind_eq_ok.mpr ⟨(), hphase hpod, rfl⟩
  · rfl

theorem prepareStatus_generation {stored : Json} (hgeneration : resource.hasGeneration = true)
    (h : prepareStatus resource value stored = .ok v) :
    v["metadata"]["generation"] = stored["metadata"]["generation"] := by
  have hnode : resource.kind ≠ "Node" := by
    intro hnode
    unfold Resource.hasGeneration at hgeneration
    rw [hnode] at hgeneration
    exact absurd hgeneration (by decide)
  obtain ⟨copied, kept, -, hkept, hmarked, -⟩ := prepareStatus_parts h
  rw [if_pos hnode] at hkept
  rw [getElem_setAt_ne (getElem_setAt_step hmarked) (by decide), getElem_setAt hkept]

/-- Preparing an object twice changes nothing, and an accepted update raises the generation by one
when the specification, or a Deployment's annotations, differ from those stored. -/
theorem prepare_settles (h : prepare (strategyRules base) resource value old status = .ok v) :
    (∃ r, prepare (strategyRules base) resource v (some v) status = .ok r ∧ SameObject v r ∧
      r["metadata"]["generation"] = v["metadata"]["generation"]) ∧
    ∀ stored, old = some stored → resource.hasGeneration →
      if status then v["metadata"]["generation"] = stored["metadata"]["generation"]
      else v["metadata"]["generation"] = .number (.int
        ((stored["metadata"]["generation"].asInt).getD 1 + raised resource v stored)) := by
  cases status with
  | true =>
    cases old with
    | none => cases h
    | some stored =>
      constructor
      · exact ⟨v, prepareStatus_again h, .inl rfl, rfl⟩
      · intro stored' hstored hgeneration
        obtain rfl := Option.some.inj hstored
        exact prepareStatus_generation hgeneration h
  | false =>
    refine ⟨prepare_again h, ?_⟩
    rintro stored rfl hgeneration
    obtain ⟨filled, w, marked, hprepared⟩ := prepare_prepared h
    obtain ⟨n, -, -, hset, hn⟩ := withGeneration_counted hgeneration hprepared.generation
    have hspec : v["spec"] = marked["spec"] :=
      withGeneration_ne hprepared.generation (by decide)
    have hannotations : v["metadata"]["annotations"] = marked["metadata"]["annotations"] :=
      withGeneration_keeps hprepared.generation "annotations" (by decide)
    have hraised : raised resource v stored = raised resource marked stored := by
      unfold raised
      rw [hspec, hannotations]
    rw [if_neg (by decide), getElem_setAt_pair hset, hn, hraised]
    rfl

/-- `pods` of the table. -/
def podResource : Resource := ⟨"", "v1", "pods", "Pod", true⟩

/-- A Pod that leaves out what it can. -/
def newPod : Json :=
  .object [("metadata", .object []), ("spec", .object
    [("containers", .array [.object [("image", .string "b"), ("name", .string "a")]])])]

/-- The Pod as its creation has prepared it. -/
def createdPod : Json :=
  (prepare (strategyRules .plain) podResource newPod none false).toOption.getD .null

theorem created_pod_settles :
    (∃ r, prepare (strategyRules .plain) podResource createdPod (some createdPod) false = .ok r ∧
      SameObject createdPod r ∧
      r["metadata"]["generation"] = createdPod["metadata"]["generation"]) ∧
    ∀ stored, none = some stored → podResource.hasGeneration →
      if false then
        createdPod["metadata"]["generation"] = stored["metadata"]["generation"]
      else createdPod["metadata"]["generation"] = .number (.int
        ((stored["metadata"]["generation"].asInt).getD 1 +
          raised podResource createdPod stored)) := by
  have hcreated : prepare (strategyRules .plain) podResource newPod none false =
      .ok createdPod := toOption_eq_some.mp (by decide +kernel)
  exact prepare_settles hcreated

end Hedronetes.Server
