import Hedronetes.Api.PodProfile

/-!
# What the Pod profile lets through

The generated profile sees a spec without the volumes that go by the name of a claim or a
projection, and without their mounts. What it refuses elsewhere passes there.
-/

namespace Hedronetes.Api

open Server Fallible

/-! ## The spec -/

def volumesOf (spec : Json) : List Json := spec["volumes"].items

def containersOf (spec : Json) : List Json :=
  spec["containers"].items ++ spec["initContainers"].items

def mountsOf (ctr : Json) : List Json := ctr["volumeMounts"].items

def volumeNames (spec : Json) : List String :=
  (volumesOf spec).filterMap fun v => v["name"].asString

/-- The member is there, and no other one beside the name. -/
def OnlySource (v : Json) (source : String) : Prop :=
  v[source] ≠ .null ∧ ∀ name, v[name] ≠ .null → name = "name" ∨ name = source

def supported : List String := ["configMap", "secret", "persistentVolumeClaim", "projected"]

/-- What a spec has to be for the runtime: its volumes go by different names and have one source
each, which the profile supports, and every mount names one of them and keeps to the rules. -/
structure Sound (spec : Json) : Prop where
  named : ∀ v ∈ volumesOf spec, ∃ name, v["name"] = .string name
  distinct : (volumesOf spec).Pairwise fun v w => v["name"] ≠ w["name"]
  sources : ∀ v ∈ volumesOf spec, ∃ source ∈ supported, OnlySource v source ∧
    (source = "projected" → projection v = .ok true)
  mounts : ∀ ctr ∈ containersOf spec, mounts (volumeNames spec) ctr = .ok ()

/-- The volume is one that the extension checks. -/
def isExtension (v : Json) : Bool := v["persistentVolumeClaim"] ≠ .null || v["projected"] ≠ .null

/-- The volume or mount goes by the name of a claim or a projection. -/
def isRemoved (spec v : Json) : Bool :=
  (volumesOf spec).any fun w => isExtension w && w["name"] = v["name"]

/-! ## Reads -/

@[simp] theorem ensure_ok {c : Prop} [Decidable c] {message : String} {u : Unit} :
    ensure c message = .ok u ↔ c := by
  unfold ensure
  by_cases h : c <;> simp [h]

theorem text_ok {v : Json} {key s : String} :
    text v key = .ok s ↔ v[key] = .string s ∧ s ≠ "" := by
  unfold text
  constructor
  · intro h
    split at h
    · rename_i t ht
      obtain rfl := Except.ok.inj h
      obtain ⟨hread, hne⟩ := Option.filter_eq_some_iff.mp ht
      exact ⟨Json.asString_eq_some.mp hread, of_decide_eq_true hne⟩
    · cases h
  · rintro ⟨hread, hne⟩
    rw [hread, Json.asString, Option.filter_some, if_pos (by simpa using hne)]

theorem fields_ok {v : Json} {allowed : List String} (h : fields v allowed = .ok ()) {name : String}
    (hname : v[name] ≠ .null) : name ∈ allowed := by
  rw [fields, ensure_ok] at h
  cases v with
  | object members =>
    simp only [Json.asObject, Option.all_some, List.all_eq_true] at h
    cases hfield : FirstMatch.lookup name members with
    | none => exact absurd (show (Json.object members)[name] = .null by
        rw [Json.getElem_eq, Json.field, hfield]; rfl) hname
    | some value =>
      have hread : (Json.object members)[name] = value := by
        rw [Json.getElem_eq, Json.field, hfield]
        rfl
      have hmem := h _ (FirstMatch.mem_of_lookup hfield)
      rw [hread] at hname
      simpa [hname] using hmem
  | _ => exact absurd rfl hname

theorem array_ok {v : Json} {items : List Json} :
    array v = .ok items ↔ (v = .null ∨ ∃ l, v = .array l) ∧ v.items = items := by
  unfold array
  cases v with
  | null => simp [Json.items, Json.asArray]
  | array l => simp [Json.items, Json.asArray]
  | _ => simp [Json.asArray]

/-! ## Lists without duplicates -/

variable {α β : Type} {f : List β → α → Result β} {P : α → Prop} {g : α → β}

/-- Elements whose check gives a result that no element before gave. -/
theorem collect_ok (hf : ∀ seen a b, f seen a = .ok b → P a ∧ b = g a ∧ b ∉ seen)
    {seen r : List β} {l : List α} (hcollect : collect f seen l = .ok r) :
    (∀ a ∈ l, P a) ∧ r = seen ++ l.map g ∧ (l.map g).Nodup ∧ ∀ b ∈ l.map g, b ∉ seen := by
  induction l generalizing seen with
  | nil => simpa [collect, eq_comm] using hcollect
  | cons a l ih =>
    rw [collect, bind_eq_ok] at hcollect
    obtain ⟨b, hb, hrest⟩ := hcollect
    obtain ⟨hP, rfl, hnew⟩ := hf _ _ _ hb
    obtain ⟨hall, rfl, hnodup, hfresh⟩ := ih hrest
    refine ⟨by simpa using ⟨hP, hall⟩, by simp, ?_, ?_⟩
    · rw [List.map_cons, List.nodup_cons]
      exact ⟨fun hmem => hfresh _ hmem (by simp), hnodup⟩
    · simp only [List.map_cons, List.forall_mem_cons]
      exact ⟨hnew, fun b hb hseen => hfresh b hb (by simp [hseen])⟩

theorem collect_exists_ok (hf : ∀ seen a, P a → g a ∉ seen → f seen a = .ok (g a))
    {seen : List β} {l : List α} (hall : ∀ a ∈ l, P a) (hnodup : (l.map g).Nodup)
    (hfresh : ∀ b ∈ l.map g, b ∉ seen) : collect f seen l = .ok (seen ++ l.map g) := by
  induction l generalizing seen with
  | nil => simp [collect]
  | cons a l ih =>
    rw [List.map_cons, List.nodup_cons] at hnodup
    simp only [List.map_cons, List.forall_mem_cons] at hfresh hall
    refine bind_eq_ok.mpr ⟨g a, hf _ _ hall.1 hfresh.1, ?_⟩
    have hrest : ∀ b ∈ l.map g, b ∉ seen ++ [g a] := by
      intro b hb hseen
      rcases List.mem_append.mp hseen with hseen | hseen
      · exact hfresh.2 b hb hseen
      · rw [List.mem_singleton.mp hseen] at hb
        exact hnodup.1 hb
    simpa using ih hall.2 hnodup.2 hrest

theorem parents_length {path parent : List Char} (h : parent ∈ parents path) :
    parent.length < path.length := by
  obtain ⟨i, hi, hsome⟩ := List.mem_filterMap.mp h
  split_ifs at hsome
  obtain rfl := Option.some.inj hsome
  rw [List.length_take]
  have := List.mem_range.mp hi
  omega

/-- One path is the other one, or lies below it. -/
def Overlap (p q : String) : Prop :=
  p = q ∨ p.toList ∈ parents q.toList ∨ q.toList ∈ parents p.toList

theorem Overlap.symm {p q : String} (h : Overlap p q) : Overlap q p := by
  obtain rfl | h | h := h
  · exact .inl rfl
  · exact .inr (.inr h)
  · exact .inr (.inl h)

theorem pairwise_not_overlap {ps : List String} : (ps.Pairwise fun p q => ¬Overlap p q) ↔
    ps.Nodup ∧ ∀ p ∈ ps, ∀ parent ∈ parents p.toList, String.ofList parent ∉ ps := by
  constructor
  · intro h
    refine ⟨h.imp fun hno heq => hno (.inl heq), ?_⟩
    have hall : ∀ p ∈ ps, ∀ q ∈ ps, q.toList ∉ parents p.toList := by
      intro p hp q hq
      refine List.Pairwise.forall_of_forall_of_flip (R := fun p q => q.toList ∉ parents p.toList)
        (fun x _ hx => Nat.lt_irrefl _ (parents_length hx)) (h.imp fun hno hx => ?_)
        (h.imp fun hno hx => ?_) hp hq
      · exact hno (.inr (.inr hx))
      · exact hno (.inr (.inl hx))
    intro p hp parent hparent hmem
    exact hall p hp _ hmem (by simpa using hparent)
  · rintro ⟨hnodup, hbelow⟩
    refine List.Pairwise.imp_of_mem ?_ hnodup
    rintro p q hp hq hne (rfl | h | h)
    · exact hne rfl
    · exact hbelow q hq _ h (by simpa using hp)
    · exact hbelow p hp _ h (by simpa using hq)

theorem paths_ok {ps : List String} :
    paths ps = .ok () ↔ (∀ p ∈ ps, relative p = true) ∧ ps.Pairwise fun p q => ¬Overlap p q := by
  rw [pairwise_not_overlap, paths, bind_eq_ok]
  constructor
  · rintro ⟨seen, hseen, hlast⟩
    have hone := collect_ok (P := fun p => relative p = true) (g := id) (fun seen a b h => by
      obtain ⟨_, hensure, hb⟩ := bind_eq_ok.mp h
      obtain ⟨hrelative, hnew⟩ := ensure_ok.mp hensure
      obtain rfl := Except.ok.inj hb
      exact ⟨hrelative, rfl, hnew⟩) hseen
    obtain ⟨hrelative, heq, hnodup, _⟩ := hone
    rw [List.map_id, List.nil_append] at heq
    subst heq
    rw [List.map_id] at hnodup
    exact ⟨hrelative, hnodup, ensure_ok.mp hlast⟩
  · rintro ⟨hrelative, hnodup, hbelow⟩
    refine ⟨ps, ?_, ensure_ok.mpr hbelow⟩
    have hone := collect_exists_ok (P := fun p => relative p = true) (g := id)
      (f := fun seen path => do
        ensure (relative path ∧ path ∉ seen) "invalid or duplicate projected file path"
        return path)
      (fun seen a hP hnew => bind_eq_ok.mpr ⟨(), ensure_ok.mpr ⟨hP, hnew⟩, rfl⟩)
      hrelative (by simpa using hnodup) (fun b _ => List.not_mem_nil)
    simpa using hone

/-! ## Mounts -/

/-- The destination of a mount. -/
def destination (m : Json) : String := m["mountPath"].asString.getD ""

/-- The destination below the root of the file system. -/
def below (m : Json) : String := String.ofList ((destination m).toList.drop 1)

/-- The rule for one mount by itself. -/
structure MountRule (m : Json) : Prop where
  members : fields m ["name", "mountPath", "readOnly"] = .ok ()
  path : m["mountPath"] = .string (destination m)
  absolute : ∃ rest ∈ stripStart "/" (destination m), relative rest
  free : reserved (destination m) = false
  options : m["readOnly"] = .null ∨ m["readOnly"].asBool.isSome

/-- The mount names a volume. -/
def Names (names : List String) (m : Json) : Prop :=
  ∃ name ∈ names, name ≠ "" ∧ m["name"] = .string name

theorem stripStart_slash {path rest : String} (h : stripStart "/" path = some rest) :
    rest = String.ofList (path.toList.drop 1) ∧ path ≠ "" := by
  obtain rfl := stripStart_eq_some.mp h
  constructor
  · simp
  · intro hempty
    simpa using congrArg String.toList hempty

theorem MountRule.relative_below {m : Json} (h : MountRule m) : relative (below m) = true := by
  obtain ⟨rest, hrest, hrelative⟩ := h.absolute
  rw [below, ← (stripStart_slash hrest).1]
  exact hrelative

theorem mount_ok {names destinations : List String} {m : Json} {b : String} :
    mount names destinations m = .ok b ↔
      MountRule m ∧ Names names m ∧ b = destination m ∧ b ∉ destinations := by
  unfold mount
  constructor
  · intro h
    obtain ⟨_, hfields, h⟩ := bind_eq_ok.mp h
    obtain ⟨name, hname, h⟩ := bind_eq_ok.mp h
    obtain ⟨_, hnames, h⟩ := bind_eq_ok.mp h
    obtain ⟨path, hpath, h⟩ := bind_eq_ok.mp h
    obtain ⟨_, hrules, h⟩ := bind_eq_ok.mp h
    obtain rfl := Except.ok.inj h
    obtain ⟨hread, hne⟩ := text_ok.mp hname
    obtain ⟨hdestination, -⟩ := text_ok.mp hpath
    obtain ⟨habsolute, hfree, hnew, hoptions⟩ := ensure_ok.mp hrules
    have heq : path = destination m := by simp [destination, hdestination, Json.asString]
    subst heq
    exact ⟨⟨hfields, hdestination, habsolute, hfree, hoptions⟩,
      ⟨name, ensure_ok.mp hnames, hne, hread⟩, rfl, hnew⟩
  · rintro ⟨hrule, ⟨name, hmem, hne, hread⟩, rfl, hnew⟩
    obtain ⟨rest, hrest, -⟩ := hrule.absolute
    exact bind_eq_ok.mpr ⟨(), hrule.members, bind_eq_ok.mpr ⟨name, text_ok.mpr ⟨hread, hne⟩,
      bind_eq_ok.mpr ⟨(), ensure_ok.mpr hmem, bind_eq_ok.mpr
        ⟨_, text_ok.mpr ⟨hrule.path, (stripStart_slash hrest).2⟩, bind_eq_ok.mpr
          ⟨(), ensure_ok.mpr ⟨hrule.absolute, hrule.free, hnew, hrule.options⟩, rfl⟩⟩⟩⟩⟩

/-- Two mounts obscure one another. -/
def Clash (m m' : Json) : Prop := Overlap (below m) (below m')

theorem mounts_ok {names : List String} {ctr : Json} : mounts names ctr = .ok () ↔
    (ctr["volumeMounts"] = .null ∨ ∃ l, ctr["volumeMounts"] = .array l) ∧
      (∀ m ∈ mountsOf ctr, MountRule m ∧ Names names m) ∧
      (mountsOf ctr).Pairwise fun m m' => ¬Clash m m' := by
  unfold mounts
  constructor
  · intro h
    obtain ⟨items, hitems, h⟩ := bind_eq_ok.mp h
    obtain ⟨destinations, hcollect, hpaths⟩ := bind_eq_ok.mp h
    obtain ⟨hlist, rfl⟩ := array_ok.mp hitems
    have hone := collect_ok (P := fun m => MountRule m ∧ Names names m) (g := destination)
      (fun seen a b h => by
        obtain ⟨hrule, hnames, hb, hnew⟩ := mount_ok.mp h
        exact ⟨⟨hrule, hnames⟩, hb, hnew⟩) hcollect
    obtain ⟨hall, rfl, -, -⟩ := hone
    obtain ⟨-, hpairwise⟩ := paths_ok.mp hpaths
    rw [List.nil_append, List.map_map, List.pairwise_map] at hpairwise
    exact ⟨hlist, hall, hpairwise⟩
  · rintro ⟨hlist, hall, hpairwise⟩
    have hnodup : ((mountsOf ctr).map destination).Nodup := by
      refine List.pairwise_map.mpr (hpairwise.imp fun hno heq => hno (.inl ?_))
      rw [below, below, heq]
    refine bind_eq_ok.mpr ⟨mountsOf ctr, array_ok.mpr ⟨hlist, rfl⟩, bind_eq_ok.mpr
      ⟨[] ++ (mountsOf ctr).map destination,
        collect_exists_ok (P := fun m => MountRule m ∧ Names names m)
        (fun seen m hm hnew => mount_ok.mpr ⟨hm.1, hm.2, rfl, hnew⟩) hall hnodup
        fun b _ => List.not_mem_nil, ?_⟩⟩
    rw [List.nil_append, List.map_map, paths_ok]
    refine ⟨?_, List.pairwise_map.mpr hpairwise⟩
    intro p hp
    obtain ⟨m, hm, rfl⟩ := List.mem_map.mp hp
    exact (hall m hm).1.relative_below

/-! ## What the extension takes out -/

variable {spec result v w ctr : Json} {stripped names : List String}

theorem claim_ok {o : Option String} (h : claim v = .ok o) :
    if v["persistentVolumeClaim"] = .null then o = none
    else ∃ n, o = some n ∧ n ≠ "" ∧ v["name"] = .string n := by
  unfold claim at h
  dsimp only at h
  split_ifs at h ⊢
  · exact (Except.ok.inj h).symm
  · split at h
    · cases h
    · rename_i name hname
      obtain ⟨hread, hsafe⟩ := Option.filter_eq_some_iff.mp hname
      obtain ⟨_, _, h⟩ := bind_eq_ok.mp h
      obtain ⟨_, _, h⟩ := bind_eq_ok.mp h
      obtain ⟨_, _, h⟩ := bind_eq_ok.mp h
      refine ⟨name, (Except.ok.inj h).symm, ?_, Json.asString_eq_some.mp hread⟩
      rintro rfl
      simp [safeComponent] at hsafe

theorem projection_ok {b : Bool} (h : projection v = .ok b) :
    b = decide (v["projected"] ≠ .null) := by
  unfold projection at h
  dsimp only at h
  split_ifs at h with hnull
  · simpa [hnull] using (Except.ok.inj h).symm
  · obtain ⟨_, _, h⟩ := bind_eq_ok.mp h
    obtain ⟨_, _, h⟩ := bind_eq_ok.mp h
    split at h
    · cases h
    · obtain ⟨_, _, h⟩ := bind_eq_ok.mp h
      obtain ⟨_, _, h⟩ := bind_eq_ok.mp h
      simpa [hnull] using (Except.ok.inj h).symm

theorem projectedName_ok {o : Option String} (h : projectedName v = .ok o) :
    if v["projected"] = .null then o = none
    else projection v = .ok true ∧ ∃ n, o = some n ∧ n ≠ "" ∧ v["name"] = .string n := by
  obtain ⟨b, hb, h⟩ := bind_eq_ok.mp h
  obtain rfl := projection_ok hb
  by_cases hnull : v["projected"] = .null
  · simp only [hnull, ne_eq, not_true, decide_false, Bool.false_eq_true, if_false] at h
    rw [if_pos hnull]
    exact (Except.ok.inj h).symm
  · simp only [hnull, ne_eq, not_false_eq_true, decide_true, if_true] at h hb
    rw [if_neg hnull]
    refine ⟨hb, ?_⟩
    split at h
    · rename_i name hname
      obtain ⟨hread, hsafe⟩ := Option.filter_eq_some_iff.mp hname
      refine ⟨name, (Except.ok.inj h).symm, ?_, Json.asString_eq_some.mp hread⟩
      rintro rfl
      simp [safeComponent] at hsafe
    · cases h

/-- A claim or a projection that the extension accepts has a name. -/
theorem strippedNames_named (h : strippedNames spec = .ok stripped) (hv : v ∈ volumesOf spec)
    (hext : isExtension v = true) : ∃ n ∈ stripped, n ≠ "" ∧ v["name"] = .string n := by
  obtain ⟨claims, hclaims, h⟩ := bind_eq_ok.mp h
  obtain ⟨projected, hprojected, h⟩ := bind_eq_ok.mp h
  obtain rfl := Except.ok.inj h
  rw [isExtension, Bool.or_eq_true, decide_eq_true_eq, decide_eq_true_eq] at hext
  rcases hext with hclaim | hprojection
  · obtain ⟨o, ho, hok⟩ := mapM_mem_of_mem hclaims hv
    have hone := claim_ok hok
    rw [if_neg hclaim] at hone
    obtain ⟨n, rfl, hne, hread⟩ := hone
    exact ⟨n, List.mem_append_left _ (List.reduceOption_mem_iff.mpr ho), hne, hread⟩
  · obtain ⟨o, ho, hok⟩ := mapM_mem_of_mem hprojected hv
    have hone := projectedName_ok hok
    rw [if_neg hprojection] at hone
    obtain ⟨-, n, rfl, hne, hread⟩ := hone
    exact ⟨n, List.mem_append_right _ (List.reduceOption_mem_iff.mpr ho), hne, hread⟩

theorem strippedNames_projection (h : strippedNames spec = .ok stripped) (hv : v ∈ volumesOf spec)
    (hprojected : v["projected"] ≠ .null) : projection v = .ok true := by
  obtain ⟨_, _, h⟩ := bind_eq_ok.mp h
  obtain ⟨projected, hall, _⟩ := bind_eq_ok.mp h
  obtain ⟨o, _, hok⟩ := mapM_mem_of_mem hall hv
  have hone := projectedName_ok hok
  rw [if_neg hprojected] at hone
  exact hone.1

/-- Each name that is taken out is that of a claim or a projection. -/
theorem mem_strippedNames (h : strippedNames spec = .ok stripped) {n : String} :
    n ∈ stripped ↔ ∃ w ∈ volumesOf spec, isExtension w = true ∧ w["name"] = .string n := by
  constructor
  · intro hn
    obtain ⟨claims, hclaims, h⟩ := bind_eq_ok.mp h
    obtain ⟨projected, hprojected, h⟩ := bind_eq_ok.mp h
    obtain rfl := Except.ok.inj h
    rcases List.mem_append.mp hn with hn | hn
    · obtain ⟨w, hw, hok⟩ := mapM_mem hclaims (List.reduceOption_mem_iff.mp hn)
      have hone := claim_ok hok
      split_ifs at hone with hnull
      obtain ⟨m, heq, -, hread⟩ := hone
      obtain rfl := Option.some.inj heq
      exact ⟨w, hw, by simp [isExtension, hnull], hread⟩
    · obtain ⟨w, hw, hok⟩ := mapM_mem hprojected (List.reduceOption_mem_iff.mp hn)
      have hone := projectedName_ok hok
      split_ifs at hone with hnull
      obtain ⟨-, m, heq, -, hread⟩ := hone
      obtain rfl := Option.some.inj heq
      exact ⟨w, hw, by simp [isExtension, hnull], hread⟩
  · rintro ⟨w, hw, hext, hread⟩
    obtain ⟨m, hm, -, hname⟩ := strippedNames_named h hw hext
    rw [hread] at hname
    obtain rfl := Json.string.inj hname
    exact hm

theorem isRemoved_iff (h : strippedNames spec = .ok stripped) :
    isRemoved spec v = v["name"].asString.any fun n => n ∈ stripped := by
  rw [Bool.eq_iff_iff, isRemoved, List.any_eq_true, Option.any_eq_true]
  simp only [Bool.and_eq_true, decide_eq_true_eq]
  constructor
  · rintro ⟨w, hw, hext, hsame⟩
    obtain ⟨n, hn, -, hread⟩ := strippedNames_named h hw hext
    exact ⟨n, by rw [← hsame, hread]; rfl, hn⟩
  · rintro ⟨n, hread, hn⟩
    obtain ⟨w, hw, hext, hname⟩ := (mem_strippedNames h).mp hn
    exact ⟨w, hw, hext, by rw [hname, Json.asString_eq_some.mp hread]⟩

theorem items_without (h : strippedNames spec = .ok stripped) :
    (without stripped v).items = v.items.filter fun m => !isRemoved spec m := by
  cases v with
  | array items =>
    rw [without]
    simp only [Json.items, Json.asArray, Option.getD_some]
    exact List.filter_congr fun m _ => by rw [isRemoved_iff h]
  | _ => rfl

theorem without_eq_null : without stripped v = .null ↔ v = .null := by
  cases v <;> simp [without]

theorem without_eq_array : (∃ l, without stripped v = .array l) ↔ ∃ l, v = .array l := by
  cases v <;> simp [without]

theorem without_nil : without [] v = v := by
  cases v with
  | array items =>
    rw [without]
    congr 1
    refine List.filter_eq_self.mpr fun a _ => ?_
    cases a["name"].asString <;> rfl
  | _ => rfl

/-! ## The generated layer -/

theorem volume_ok {name : String} (h : volume names v = .ok name) :
    (v["name"] = .string name ∧ name ≠ "" ∧ (OnlySource v "configMap" ∨ OnlySource v "secret")) ∧
      name ∉ names := by
  obtain ⟨_, hfields, h⟩ := bind_eq_ok.mp h
  obtain ⟨name', hname, h⟩ := bind_eq_ok.mp h
  obtain ⟨_, hfresh, h⟩ := bind_eq_ok.mp h
  obtain ⟨source, hsource, h⟩ := bind_eq_ok.mp h
  have hmembers : ∀ m, v[m] ≠ .null → m = "name" ∨ m = "configMap" ∨ m = "secret" := by
    intro m hm
    simpa using fields_ok (ensure_ok.mp hfields) hm
  have honly : OnlySource v "configMap" ∨ OnlySource v "secret" := by
    unfold volumeSource at hsource
    split_ifs at hsource with hmap hsecret
    · refine .inl ⟨hmap.1, fun m hm => ?_⟩
      obtain rfl | rfl | rfl := hmembers m hm
      · exact .inl rfl
      · exact .inr rfl
      · exact absurd hmap.2 hm
    · refine .inr ⟨hsecret.2, fun m hm => ?_⟩
      obtain rfl | rfl | rfl := hmembers m hm
      · exact .inl rfl
      · exact absurd hsecret.1 hm
      · exact .inr rfl
  have heq : name' = name := by
    obtain ⟨source, field⟩ := source
    dsimp only at h
    obtain ⟨_, _, h⟩ := bind_eq_ok.mp h
    obtain ⟨_, _, h⟩ := bind_eq_ok.mp h
    obtain ⟨_, _, h⟩ := bind_eq_ok.mp h
    obtain ⟨_, _, h⟩ := bind_eq_ok.mp h
    obtain ⟨_, _, h⟩ := bind_eq_ok.mp h
    obtain ⟨_, _, h⟩ := bind_eq_ok.mp h
    obtain ⟨_, _, h⟩ := bind_eq_ok.mp h
    obtain ⟨_, _, h⟩ := bind_eq_ok.mp h
    exact Except.ok.inj h
  subst heq
  obtain ⟨hread, hne⟩ := text_ok.mp hname
  exact ⟨⟨hread, hne, honly⟩, (ensure_ok.mp hfresh).2.2⟩

theorem volumes_ok (h : volumes spec = .ok names) :
    (∀ v ∈ volumesOf spec, (∃ name ∈ names, v["name"] = .string name) ∧
      (OnlySource v "configMap" ∨ OnlySource v "secret")) ∧
      (∀ name ∈ names, name ∈ volumeNames spec) ∧
      (volumesOf spec).Pairwise fun v w => v["name"] ≠ w["name"] := by
  obtain ⟨items, hitems, h⟩ := bind_eq_ok.mp h
  obtain ⟨_, _, h⟩ := bind_eq_ok.mp h
  obtain ⟨-, rfl⟩ := array_ok.mp hitems
  have hone := collect_ok (g := fun v : Json => v["name"].asString.getD "")
    (P := fun v : Json => v["name"] = .string (v["name"].asString.getD "") ∧
      (OnlySource v "configMap" ∨ OnlySource v "secret"))
    (fun seen v name hv => by
      obtain ⟨⟨hread, -, honly⟩, hnew⟩ := volume_ok hv
      have hname : v["name"].asString.getD "" = name := by rw [hread]; rfl
      exact ⟨⟨hread.trans (congrArg Json.string hname.symm), honly⟩, hname.symm, hnew⟩) h
  obtain ⟨hall, rfl, hnodup, -⟩ := hone
  rw [List.nil_append]
  refine ⟨fun v hv => ⟨⟨_, List.mem_map_of_mem hv, (hall v hv).1⟩, (hall v hv).2⟩, ?_, ?_⟩
  · intro name hname
    obtain ⟨v, hv, rfl⟩ := List.mem_map.mp hname
    refine List.mem_filterMap.mpr ⟨v, hv, ?_⟩
    rw [(hall v hv).1]
    rfl
  · refine (List.pairwise_map.mp hnodup).imp fun hne heq => hne ?_
    rw [heq]

theorem generated_ok (h : generated spec = .ok ()) :
    spec["initContainers"] = .null ∧ ∃ names, volumes spec = .ok names ∧
      ∀ ctr ∈ spec["containers"].items, mounts names ctr = .ok () := by
  obtain ⟨_, hspec, h⟩ := bind_eq_ok.mp h
  obtain ⟨names, hnames, h⟩ := bind_eq_ok.mp h
  constructor
  · obtain ⟨_, _, hspec⟩ := bind_eq_ok.mp hspec
    obtain ⟨_, hfields, _⟩ := bind_eq_ok.mp hspec
    by_contra hne
    exact absurd (fields_ok hfields hne) (by decide)
  · refine ⟨names, hnames, ?_⟩
    split at h
    · cases h
    · rename_i containers hcontainers
      obtain ⟨hread, -⟩ := Option.filter_eq_some_iff.mp hcontainers
      obtain ⟨_, hcollect, _⟩ := bind_eq_ok.mp h
      have hone := collect_ok (g := fun ctr : Json => ctr["name"].asString.getD "")
        (P := fun ctr => mounts names ctr = .ok ())
        (fun seen ctr name hc => by
          obtain ⟨name', hname, hc⟩ := bind_eq_ok.mp hc
          obtain ⟨_, hfresh, hc⟩ := bind_eq_ok.mp hc
          obtain ⟨_, hcheck, hc⟩ := bind_eq_ok.mp hc
          obtain rfl := Except.ok.inj hc
          obtain ⟨_, _, hcheck⟩ := bind_eq_ok.mp hcheck
          obtain ⟨_, hmounts, _⟩ := bind_eq_ok.mp hcheck
          refine ⟨hmounts, ?_, (ensure_ok.mp hfresh).2⟩
          rw [(text_ok.mp hname).1]
          rfl) hcollect
      intro ctr hc
      rw [Json.items, hread] at hc
      exact hone.1 ctr hc

theorem modify_ok {name : String} {f : Json → Result Json} (h : modify v name f = .ok result) :
    f v[name] = .ok result[name] ∧ ∀ other, other ≠ name → result[other] = v[other] := by
  obtain ⟨inner, hinner, h⟩ := bind_eq_ok.mp h
  cases hset : setAt v [name] inner with
  | error e =>
    rw [hset] at h
    cases h
  | ok r =>
    rw [hset] at h
    obtain rfl := Except.ok.inj h
    rw [getElem_setAt hset]
    exact ⟨hinner, fun other hne => getElem_setAt_ne hset hne⟩

/-- The other spec is what is left of the volumes and mounts. -/
structure Leaves (spec : Json) (stripped : List String) (left : Json) : Prop where
  volumes : left["volumes"] = without stripped spec["volumes"]
  containers : ∀ ctr ∈ spec["containers"].items, ∃ ctr' ∈ left["containers"].items,
    ctr'["volumeMounts"] = without stripped ctr["volumeMounts"]
  init : left["initContainers"] = .null → spec["initContainers"] = .null

theorem withoutMounts_ok (h : withoutMounts stripped v = .ok result) :
    (∀ ctr ∈ v.items,
      ∃ ctr' ∈ result.items, ctr'["volumeMounts"] = without stripped ctr["volumeMounts"]) ∧
      (result = .null → v = .null) := by
  cases v with
  | array containers =>
    obtain ⟨left, hleft, h⟩ := bind_eq_ok.mp h
    obtain rfl := Except.ok.inj h
    constructor
    · intro ctr hc
      obtain ⟨ctr', hc', hmodify⟩ := mapM_mem_of_mem hleft hc
      exact ⟨ctr', hc', (Except.ok.inj (modify_ok hmodify).1).symm⟩
    · intro hnull
      cases hnull
  | _ =>
    obtain rfl := Except.ok.inj h
    constructor
    · intro ctr hc
      cases hc
    · intro hnull
      exact hnull

theorem check_ok (h : check spec = .ok ()) : ∃ stripped left,
    strippedNames spec = .ok stripped ∧ generated left = .ok () ∧ Leaves spec stripped left := by
  obtain ⟨o, ho, hgenerated⟩ := bind_eq_ok.mp h
  obtain ⟨stripped, hstripped, ho⟩ := bind_eq_ok.mp ho
  split_ifs at ho with hnothing hnone
  · obtain rfl := Except.ok.inj ho
    refine ⟨stripped, spec, hstripped, hgenerated, ?_⟩
    rw [hnothing.1]
    exact ⟨without_nil.symm, fun ctr hc => ⟨ctr, hc, without_nil.symm⟩, fun hnull => hnull⟩
  · obtain ⟨result, hresult, ho⟩ := bind_eq_ok.mp ho
    obtain rfl := Except.ok.inj ho
    obtain ⟨-, hsame⟩ := modify_ok hresult
    refine ⟨stripped, result, hstripped, hgenerated, ?_⟩
    rw [hnone]
    refine ⟨?_, ?_, ?_⟩
    · rw [without_nil, hsame _ (by decide)]
    · rw [hsame _ (by decide)]
      exact fun ctr hc => ⟨ctr, hc, without_nil.symm⟩
    · rw [hsame _ (by decide)]
      exact fun hnull => hnull
  · obtain ⟨first, hfirst, ho⟩ := bind_eq_ok.mp ho
    obtain ⟨second, hsecond, ho⟩ := bind_eq_ok.mp ho
    obtain ⟨third, hthird, ho⟩ := bind_eq_ok.mp ho
    obtain ⟨last, hlast, ho⟩ := bind_eq_ok.mp ho
    obtain rfl := Except.ok.inj ho
    obtain ⟨-, hfirstSame⟩ := modify_ok hfirst
    obtain ⟨hvolumes, hsecondSame⟩ := modify_ok hsecond
    obtain ⟨hcontainers, hthirdSame⟩ := modify_ok hthird
    obtain ⟨hinit, hlastSame⟩ := modify_ok hlast
    rw [hsecondSame _ (by decide), hfirstSame _ (by decide)] at hcontainers
    rw [hthirdSame _ (by decide), hsecondSame _ (by decide), hfirstSame _ (by decide)] at hinit
    refine ⟨stripped, last, hstripped, hgenerated, ?_, ?_, (withoutMounts_ok hinit).2⟩
    · rw [hlastSame _ (by decide), hthirdSame _ (by decide), ← Except.ok.inj hvolumes,
        hfirstSame _ (by decide)]
    · rw [hlastSame _ (by decide)]
      exact (withoutMounts_ok hcontainers).1

/-! ## Accepted specs -/

/-- What holds of the volumes and mounts that are left for the generated layer, and of the names of
the others. -/
structure Checked (spec : Json) : Prop where
  kept : ∀ v ∈ volumesOf spec, isRemoved spec v = false →
    (∃ name, v["name"] = .string name) ∧ (OnlySource v "configMap" ∨ OnlySource v "secret")
  keptDistinct : (volumesOf spec).Pairwise fun v w =>
    isRemoved spec v = false → isRemoved spec w = false → v["name"] ≠ w["name"]
  removed : ∀ v, isRemoved spec v = true → Names (volumeNames spec) v
  projected : ∀ v ∈ volumesOf spec, v["projected"] ≠ .null → projection v = .ok true
  lists : ∀ ctr ∈ containersOf spec,
    ctr["volumeMounts"] = .null ∨ ∃ l, ctr["volumeMounts"] = .array l
  keptMounts : ∀ ctr ∈ containersOf spec, ∀ m ∈ mountsOf ctr, isRemoved spec m = false →
    MountRule m ∧ Names (volumeNames spec) m
  keptApart : ∀ ctr ∈ containersOf spec, (mountsOf ctr).Pairwise fun m m' =>
    isRemoved spec m = false → isRemoved spec m' = false → ¬Clash m m'

theorem mem_volumeNames {n : String} :
    n ∈ volumeNames spec ↔ ∃ v ∈ volumesOf spec, v["name"] = .string n := by
  rw [volumeNames, List.mem_filterMap]
  simp only [Json.asString_eq_some]

theorem Leaves.volumesOf {left : Json} (hleft : Leaves spec stripped left)
    (h : strippedNames spec = .ok stripped) :
    volumesOf left = (volumesOf spec).filter fun v => !isRemoved spec v := by
  rw [Api.volumesOf, hleft.volumes, items_without h, Api.volumesOf]

theorem containersOf_left {left : Json} (hleft : Leaves spec stripped left)
    (hinit : left["initContainers"] = .null) (hc : ctr ∈ containersOf spec) :
    ∃ ctr' ∈ left["containers"].items,
      ctr'["volumeMounts"] = without stripped ctr["volumeMounts"] := by
  rcases List.mem_append.mp hc with hc | hc
  · exact hleft.containers ctr hc
  · rw [hleft.init hinit] at hc
    cases hc

theorem checked (h : check spec = .ok ()) : Checked spec := by
  obtain ⟨stripped, left, hstripped, hgenerated, hleft⟩ := check_ok h
  obtain ⟨hinit, names, hnames, hmounts⟩ := generated_ok hgenerated
  obtain ⟨hall, hnamed, hdistinct⟩ := volumes_ok hnames
  have hvolumes := hleft.volumesOf hstripped
  have hnames : ∀ n ∈ names, n ∈ volumeNames spec := by
    intro n hn
    obtain ⟨v, hv, hread⟩ := mem_volumeNames.mp (hnamed n hn)
    rw [hvolumes] at hv
    exact mem_volumeNames.mpr ⟨v, (List.mem_filter.mp hv).1, hread⟩
  -- what the generated layer asks of the container that is left of each one
  have hrules : ∀ ctr ∈ containersOf spec,
      (ctr["volumeMounts"] = .null ∨ ∃ l, ctr["volumeMounts"] = .array l) ∧
      (∀ m ∈ mountsOf ctr, isRemoved spec m = false → MountRule m ∧ Names names m) ∧
      (mountsOf ctr).Pairwise fun m m' =>
        isRemoved spec m = false → isRemoved spec m' = false → ¬Clash m m' := by
    intro ctr hc
    obtain ⟨ctr', hc', hread⟩ := containersOf_left hleft hinit hc
    have hmountsOf : mountsOf ctr' = (mountsOf ctr).filter fun m => !isRemoved spec m := by
      rw [mountsOf, hread, items_without hstripped, mountsOf]
    obtain ⟨hlist, hrule, hapart⟩ := mounts_ok.mp (hmounts ctr' hc')
    rw [hread, without_eq_null, without_eq_array] at hlist
    rw [hmountsOf] at hrule hapart
    refine ⟨hlist, fun m hm hkept => ?_, ?_⟩
    · exact hrule m (List.mem_filter.mpr ⟨hm, by simp [hkept]⟩)
    · refine (List.pairwise_filter.mp hapart).imp fun hno hkept hkept' => ?_
      exact hno (by simp [hkept]) (by simp [hkept'])
  refine ⟨?_, ?_, ?_, fun v hv => strippedNames_projection hstripped hv,
    fun ctr hc => (hrules ctr hc).1, ?_, fun ctr hc => (hrules ctr hc).2.2⟩
  · intro v hv hkept
    obtain ⟨⟨name, -, hread⟩, honly⟩ :=
      hall v (by rw [hvolumes]; exact List.mem_filter.mpr ⟨hv, by simp [hkept]⟩)
    exact ⟨⟨name, hread⟩, honly⟩
  · rw [hvolumes] at hdistinct
    refine (List.pairwise_filter.mp hdistinct).imp fun hno hkept hkept' => ?_
    exact hno (by simp [hkept]) (by simp [hkept'])
  · intro v hv
    rw [isRemoved, List.any_eq_true] at hv
    obtain ⟨w, hw, hboth⟩ := hv
    obtain ⟨hext, hsame⟩ := Bool.and_eq_true_iff.mp hboth
    obtain ⟨n, -, hne, hread⟩ := strippedNames_named hstripped hw hext
    exact ⟨n, mem_volumeNames.mpr ⟨w, hw, hread⟩, hne, (of_decide_eq_true hsame).symm.trans hread⟩
  · intro ctr hc m hm hkept
    obtain ⟨hrule, n, hn, hread⟩ := (hrules ctr hc).2.1 m hm hkept
    exact ⟨hrule, n, hnames n hn, hread⟩

/-! ## Soundness -/

/-- What goes by the name of a claim or a projection is in order: such a volume shares its name with
no other one and has no second source, and such a mount keeps to the rules and obscures none. -/
structure Clear (spec : Json) : Prop where
  distinct : (volumesOf spec).Pairwise fun v w => isRemoved spec v = true → v["name"] ≠ w["name"]
  sources : ∀ v ∈ volumesOf spec, isRemoved spec v = true →
    OnlySource v "persistentVolumeClaim" ∨ OnlySource v "projected"
  rules : ∀ ctr ∈ containersOf spec, ∀ m ∈ mountsOf ctr, isRemoved spec m = true → MountRule m
  apart : ∀ ctr ∈ containersOf spec, (mountsOf ctr).Pairwise fun m m' =>
    isRemoved spec m = true ∨ isRemoved spec m' = true → ¬Clash m m'

theorem isRemoved_congr (h : v["name"] = w["name"]) : isRemoved spec v = isRemoved spec w := by
  rw [isRemoved, isRemoved, h]

theorem Clear.sound (hclear : Clear spec) (h : Checked spec) : Sound spec := by
  refine ⟨?_, ?_, ?_, ?_⟩
  · intro v hv
    cases hremoved : isRemoved spec v with
    | false => exact (h.kept v hv hremoved).1
    | true =>
      obtain ⟨n, -, -, hread⟩ := h.removed v hremoved
      exact ⟨n, hread⟩
  · refine (hclear.distinct.and h.keptDistinct).imp ?_
    intro v w hboth
    cases hremoved : isRemoved spec v with
    | true => exact hboth.1 hremoved
    | false =>
      intro heq
      exact hboth.2 hremoved (isRemoved_congr heq ▸ hremoved) heq
  · intro v hv
    cases hremoved : isRemoved spec v with
    | false =>
      rcases (h.kept v hv hremoved).2 with honly | honly
      · exact ⟨_, by decide, honly, fun heq => absurd heq (by decide)⟩
      · exact ⟨_, by decide, honly, fun heq => absurd heq (by decide)⟩
    | true =>
      rcases hclear.sources v hv hremoved with honly | honly
      · exact ⟨_, by decide, honly, fun heq => absurd heq (by decide)⟩
      · exact ⟨_, by decide, honly, fun _ => h.projected v hv honly.1⟩
  · intro ctr hc
    refine mounts_ok.mpr ⟨h.lists ctr hc, ?_, ?_⟩
    · intro m hm
      cases hremoved : isRemoved spec m with
      | false => exact h.keptMounts ctr hc m hm hremoved
      | true => exact ⟨hclear.rules ctr hc m hm hremoved, h.removed m hremoved⟩
    · refine ((hclear.apart ctr hc).and (h.keptApart ctr hc)).imp ?_
      intro m m' hboth
      cases hremoved : isRemoved spec m with
      | true => exact hboth.1 (.inl hremoved)
      | false =>
        cases hremoved' : isRemoved spec m' with
        | true => exact hboth.1 (.inr hremoved')
        | false => exact hboth.2 hremoved hremoved'

theorem Sound.clear (hsound : Sound spec) : Clear spec := by
  refine ⟨?_, ?_, ?_, ?_⟩
  · refine hsound.distinct.imp ?_
    intro v w hne _
    exact hne
  · intro v hv hremoved
    rw [isRemoved, List.any_eq_true] at hremoved
    obtain ⟨w, hw, hboth⟩ := hremoved
    obtain ⟨hext, hsame⟩ := Bool.and_eq_true_iff.mp hboth
    -- the names being different, the volume is the claim or the projection itself
    have heq : w = v := List.inj_on_of_nodup_map
      (List.pairwise_map.mpr hsound.distinct) hw hv (of_decide_eq_true hsame)
    subst heq
    obtain ⟨source, -, honly, -⟩ := hsound.sources w hw
    rw [isExtension, Bool.or_eq_true, decide_eq_true_eq, decide_eq_true_eq] at hext
    rcases hext with hclaim | hprojected
    · obtain hname | rfl := honly.2 _ hclaim
      · exact absurd hname (by decide)
      · exact .inl honly
    · obtain hname | rfl := honly.2 _ hprojected
      · exact absurd hname (by decide)
      · exact .inr honly
  · intro ctr hc m hm _
    exact ((mounts_ok.mp (hsound.mounts ctr hc)).2.1 m hm).1
  · intro ctr hc
    refine (mounts_ok.mp (hsound.mounts ctr hc)).2.2.imp ?_
    intro m m' hno _
    exact hno

/-- An accepted spec is sound exactly when what goes by the name of a claim or a projection is in
order: the generated layer does not see it, and the extension looks at neither the other volumes of
that name nor the mounts. -/
theorem accepted_sound_iff (h : check spec = .ok ()) : Sound spec ↔ Clear spec :=
  ⟨Sound.clear, fun hclear => hclear.sound (checked h)⟩

/-- A Pod with the given volumes and mounts. -/
def podOf (volumes mounts : List Json) : Json :=
  .object [("automountServiceAccountToken", .bool false),
    ("containers", .array [.object [("image", .string "nginx"), ("name", .string "web"),
      ("securityContext", .object [("allowPrivilegeEscalation", .bool false),
        ("capabilities", .object [("drop", .array [.string "ALL"])]),
        ("runAsUser", .number (.int 1000)),
        ("seccompProfile", .object [("type", .string "RuntimeDefault")])]),
      ("volumeMounts", .array mounts)]]),
    ("enableServiceLinks", .bool false), ("volumes", .array volumes)]

def claimOf (name claimName : String) : Json :=
  .object [("name", .string name),
    ("persistentVolumeClaim", .object [("claimName", .string claimName)])]

def mountOf (name path : String) : Json :=
  .object [("mountPath", .string path), ("name", .string name)]

/-- A second volume of the claim's name has a source that the runtime does not support. -/
def sharedName : Json :=
  podOf [claimOf "data" "web",
    .object [("hostPath", .object [("path", .string "/")]), ("name", .string "data")]]
    [mountOf "data" "/proc"]

theorem claim_accepted_sound_iff :
    check (podOf [claimOf "data" "web"] [mountOf "data" "/data"]) = .ok () ∧
      (Sound (podOf [claimOf "data" "web"] [mountOf "data" "/data"]) ↔
        Clear (podOf [claimOf "data" "web"] [mountOf "data" "/data"])) :=
  ⟨rfl, accepted_sound_iff rfl⟩

theorem shared_name_accepted : check sharedName = .ok () ∧ ¬Sound sharedName := by
  refine ⟨rfl, fun hsound => ?_⟩
  exact (List.pairwise_cons.mp hsound.distinct).1 _ (List.mem_singleton.mpr rfl) rfl

end Hedronetes.Api
