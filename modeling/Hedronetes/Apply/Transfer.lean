import Hedronetes.Apply.Merge
import Hedronetes.Apply.Ownership
import Hedronetes.Apply.Records

/-!
# Taking fields over by force

A forced apply is to take exactly the contested fields from their owners. The code
keeps, of an owner's paths, those at or above the contested one, and drops the rest.
-/

namespace Hedronetes.Apply

open FirstMatch Fallible

variable {text : JsonText} {time : String} {stored applied desired merged result : Json}
  {options : Options}

/-! ## What is to be transferred -/

/-- The apply declares the owned path, or one in it, with another value. -/
def Contested (stored desired : Json) (owned : Path) : Prop :=
  ∃ d ∈ declared desired, owned <+: d ∧ get stored d ≠ get desired d

instance (stored desired : Json) (owned : Path) : Decidable (Contested stored desired owned) :=
  inferInstanceAs (Decidable (∃ d ∈ declared desired, _))

/-- The entry of another manager's apply. -/
def Entry.Rival (manager : String) (entry : Entry) : Prop :=
  entry.manager ≠ manager ∧ entry.operation = "Apply"

instance (manager : String) (entry : Entry) : Decidable (entry.Rival manager) :=
  inferInstanceAs (Decidable (_ ∧ _))

/-- An entry of anything but this manager's applies. -/
def Entry.Foreign (manager : String) (entry : Entry) : Prop :=
  entry.manager ≠ manager ∨ entry.operation ≠ "Apply"

instance (manager : String) (entry : Entry) : Decidable (entry.Foreign manager) :=
  inferInstanceAs (Decidable (_ ∨ _))

/-- An entry without the paths that an apply contests. -/
def Entry.released (stored desired : Json) (manager : String) (entry : Entry) : Entry :=
  if entry.Rival manager then
    { entry with paths := entry.paths.filter fun owned => ¬ Contested stored desired owned }
  else entry

/-- The entries after a transfer of exactly the contested paths: the others without
them, the applier's with what it declares, and none that owns nothing. -/
def transferred (stored desired : Json) (options : Options) (existing : List Entry) : List Entry :=
  (((existing.filter fun entry => entry.Foreign options.manager).map
    (Entry.released stored desired options.manager)) ++ [applierEntry options desired]).filter
      fun entry => entry.paths ≠ []

/-- No path of a set lies below another. -/
def Antichain (paths : List Path) : Prop := ∀ p ∈ paths, ∀ q ∈ paths, p <+: q → q = p

theorem innermost_eq_self_iff (paths : List Path) : innermost paths = paths ↔ Antichain paths := by
  simp [innermost, Antichain]

theorem released_eq_self {manager : String} {entry : Entry}
    (h : entry.Rival manager → ∀ owned ∈ entry.paths, ¬ Contested stored desired owned) :
    entry.released stored desired manager = entry := by
  unfold Entry.released
  split_ifs with hrival
  · have hpaths : (entry.paths.filter fun owned => ¬ Contested stored desired owned) =
        entry.paths := by
      rw [List.filter_eq_self]
      intro owned howned
      simpa using h hrival owned howned
    rw [hpaths]
  · rfl

/-! ## The conflict checks of a forced apply -/

/-- An entry of another manager's apply owns contested paths only. -/
def Stripped (stored desired : Json) (manager : String) (existing : List Entry) : Prop :=
  ∃ entry ∈ existing, entry.Rival manager ∧ entry.paths ≠ [] ∧
    ∀ owned ∈ entry.paths, Contested stored desired owned

theorem ownerOf_eq_some {existing : List Entry} {d : Path} {manager owner : String}
    (h : ownerOf existing d manager = some owner) :
    ∃ entry ∈ existing, entry.Rival manager ∧ entry.manager = owner ∧
      ∃ owned ∈ entry.paths, owned <+: d := by
  obtain ⟨entry, hfind, howner⟩ := Option.map_eq_some_iff.mp h
  have hentry := List.find?_some hfind
  simp only [decide_eq_true_eq] at hentry
  exact ⟨entry, List.mem_of_find?_eq_some hfind, ⟨hentry.1, hentry.2.1⟩, howner, hentry.2.2⟩

/-- A declared path that another manager owns and that changes leaves the owner with
contested paths only. -/
theorem claim_conflict {existing existing' : List Entry} {d : Path} {owner : String}
    (hd : d ∈ declared desired) (howner : ownerOf existing d options.manager = some owner)
    (hne : get stored d ≠ get desired d)
    (h : claim stored desired options existing d = .ok existing') :
    Stripped stored desired options.manager existing' ∧
      existing' = existing.map fun entry =>
        if entry.manager = owner then
          { entry with paths := entry.paths.filter fun owned => owned <+: d }
        else entry := by
  have hexisting : existing' = existing.map fun entry =>
      if entry.manager = owner then
        { entry with paths := entry.paths.filter fun owned => owned <+: d }
      else entry := by
    unfold claim at h
    simp only [howner, if_neg hne] at h
    split_ifs at h
    exact (Except.ok.inj h).symm
  refine ⟨?_, hexisting⟩
  obtain ⟨entry, hentry, hrival, hmanager, owned, howned, hthrough⟩ := ownerOf_eq_some howner
  refine ⟨{ entry with paths := entry.paths.filter fun owned => owned <+: d }, ?_, hrival, ?_, ?_⟩
  · rw [hexisting]
    apply List.mem_map.mpr ⟨entry, hentry, _⟩
    rw [if_pos hmanager]
  · apply List.ne_nil_of_mem (a := owned)
    simpa using ⟨howned, hthrough⟩
  · intro o ho
    have hthrough : o <+: d := by simpa using (List.mem_filter.mp ho).2
    exact ⟨d, hd, hthrough, hne⟩

/-- A claim changes nothing, or it is a conflict. -/
theorem claim_cases {existing existing' : List Entry} {d : Path}
    (h : claim stored desired options existing d = .ok existing') :
    (existing' = existing ∧
      (ownerOf existing d options.manager = none ∨ get stored d = get desired d)) ∨
      ∃ owner, ownerOf existing d options.manager = some owner ∧ get stored d ≠ get desired d := by
  cases howner : ownerOf existing d options.manager with
  | none =>
    unfold claim at h
    simp only [howner] at h
    exact Or.inl ⟨(Except.ok.inj h).symm, Or.inl rfl⟩
  | some owner =>
    by_cases hsame : get stored d = get desired d
    · unfold claim at h
      simp only [howner, if_pos hsame] at h
      exact Or.inl ⟨(Except.ok.inj h).symm, Or.inr hsame⟩
    · exact Or.inr ⟨owner, rfl, hsame⟩

theorem Stripped.claim {existing existing' : List Entry} {d : Path} (hd : d ∈ declared desired)
    (hs : Stripped stored desired options.manager existing)
    (h : claim stored desired options existing d = .ok existing') :
    Stripped stored desired options.manager existing' := by
  rcases claim_cases h with ⟨rfl, _⟩ | ⟨owner, howner, hne⟩
  · exact hs
  · exact (claim_conflict hd howner hne h).1

/-- The checks change no entry, each finding no conflict, or they strip one. -/
theorem claims_cases {existing existing' : List Entry} {ds : List Path}
    (hds : ∀ d ∈ ds, d ∈ declared desired)
    (h : ds.foldlM (claim stored desired options) existing = .ok existing') :
    Stripped stored desired options.manager existing' ∨
      (existing' = existing ∧ ∀ d ∈ ds,
        ownerOf existing d options.manager = none ∨ get stored d = get desired d) := by
  induction ds generalizing existing with
  | nil => exact Or.inr ⟨(Except.ok.inj h).symm, by simp⟩
  | cons d ds ih =>
    rw [List.foldlM_cons] at h
    obtain ⟨existing₁, hclaim, hrest⟩ := bind_eq_ok.mp h
    have htail : ∀ e ∈ ds, e ∈ declared desired := fun e he => hds e (List.mem_cons_of_mem _ he)
    rcases ih htail hrest with hstripped | ⟨hsame, hall⟩
    · exact Or.inl hstripped
    · rcases claim_cases hclaim with ⟨rfl, hnone⟩ | ⟨owner, howner, hne⟩
      · exact Or.inr ⟨hsame, List.forall_mem_cons.mpr ⟨hnone, hall⟩⟩
      · rw [hsame]
        exact Or.inl (claim_conflict (hds d List.mem_cons_self) howner hne hclaim).1

/-- No path of another manager is contested. -/
def Uncontested (stored desired : Json) (manager : String) (existing : List Entry) : Prop :=
  ∀ entry ∈ existing, entry.Rival manager → ∀ owned ∈ entry.paths, ¬ Contested stored desired owned

theorem uncontested_iff {existing : List Entry} :
    Uncontested stored desired options.manager existing ↔
      ∀ d ∈ declared desired, ownerOf existing d options.manager = none ∨
        get stored d = get desired d := by
  constructor
  · intro h d hd
    cases howner : ownerOf existing d options.manager with
    | none => exact Or.inl rfl
    | some owner =>
      apply Or.inr
      by_contra hne
      obtain ⟨entry, hentry, hrival, _, owned, howned, hthrough⟩ := ownerOf_eq_some howner
      exact h entry hentry hrival owned howned ⟨d, hd, hthrough, hne⟩
  · rintro h entry hentry hrival owned howned ⟨d, hd, hthrough, hne⟩
    rcases h d hd with hnone | hsame
    · exact ownerOf_eq_none hnone ⟨entry, hentry, hrival.1, hrival.2, howned⟩ hthrough
    · exact hne hsame

theorem claims_same {existing : List Entry} {ds : List Path} (h : ∀ d ∈ ds,
    ownerOf existing d options.manager = none ∨ get stored d = get desired d) :
    ds.foldlM (claim stored desired options) existing = .ok existing := by
  induction ds with
  | nil => rfl
  | cons d ds ih =>
    have hclaim : claim stored desired options existing d = .ok existing := by
      unfold claim
      cases howner : ownerOf existing d options.manager with
      | none => rfl
      | some owner =>
        have hsame := (h d List.mem_cons_self).resolve_left (by simp [howner])
        simp only [if_pos hsame]
    rw [List.foldlM_cons, hclaim]
    exact ih fun e he => h e (List.mem_cons_of_mem _ he)

/-- The checks leave every entry alone exactly if nothing is contested, and otherwise
strip one. -/
theorem claims_uncontested {existing existing' : List Entry}
    (h : (declared desired).foldlM (claim stored desired options) existing = .ok existing') :
    (Uncontested stored desired options.manager existing ∧ existing' = existing) ∨
      (¬ Uncontested stored desired options.manager existing ∧
        Stripped stored desired options.manager existing') := by
  by_cases hfree : Uncontested stored desired options.manager existing
  · have hsame := claims_same (uncontested_iff.mp hfree)
    exact Or.inl ⟨hfree, Except.ok.inj (h.symm.trans hsame)⟩
  · rcases claims_cases (fun d hd => hd) h with hstripped | ⟨_, hall⟩
    · exact Or.inr ⟨hfree, hstripped⟩
    · exact absurd (uncontested_iff.mpr hall) hfree

theorem claims_sorted {existing existing' : List Entry} {ds : List Path}
    (hsorted : ∀ entry ∈ existing, Sorted entry.paths)
    (h : ds.foldlM (claim stored desired options) existing = .ok existing') :
    ∀ entry ∈ existing', Sorted entry.paths := by
  induction ds generalizing existing with
  | nil => exact Except.ok.inj h ▸ hsorted
  | cons d ds ih =>
    rw [List.foldlM_cons] at h
    obtain ⟨existing₁, hclaim, hrest⟩ := bind_eq_ok.mp h
    apply ih _ hrest
    unfold claim at hclaim
    cases howner : ownerOf existing d options.manager with
    | none =>
      simp only [howner] at hclaim
      exact Except.ok.inj hclaim ▸ hsorted
    | some owner =>
      simp only [howner] at hclaim
      split_ifs at hclaim
      · exact Except.ok.inj hclaim ▸ hsorted
      · rw [← Except.ok.inj hclaim]
        intro entry hentry
        obtain ⟨old, hold, rfl⟩ := List.mem_map.mp hentry
        split_ifs
        · exact (hsorted old hold).filter _
        · exact hsorted old hold

/-! ## The entries afterwards -/

theorem reread_eq_self_iff (entry : Entry) : entry.reread = entry ↔ Antichain entry.paths := by
  rw [← innermost_eq_self_iff]
  constructor
  · exact fun h => congrArg Entry.paths h
  · intro h
    rw [Entry.reread, h]

theorem length_reread_le (entry : Entry) : entry.reread.paths.length ≤ entry.paths.length :=
  List.length_filter_le _ _

theorem reread_eq_self_of_length {entry : Entry}
    (h : entry.reread.paths.length = entry.paths.length) : entry.reread = entry := by
  have hpaths : innermost entry.paths = entry.paths := List.filter_sublist.eq_of_length h
  rw [Entry.reread, hpaths]

/-- Entries that come back as the same entries each came back as they were. -/
theorem reread_of_perm {es : List Entry} (h : (es.map Entry.reread).Perm es) :
    ∀ entry ∈ es, entry.reread = entry := by
  have hsum : (es.map fun entry => entry.reread.paths.length).sum =
      (es.map fun entry => entry.paths.length).sum := by
    have hlengths := (h.map fun entry => entry.paths.length).sum_eq
    rwa [List.map_map] at hlengths
  clear h
  induction es with
  | nil => simp
  | cons entry es ih =>
    have hle : (es.map fun entry => entry.reread.paths.length).sum ≤
        (es.map fun entry => entry.paths.length).sum :=
      List.sum_le_sum fun entry _ => length_reread_le entry
    have hentry := length_reread_le entry
    rw [List.map_cons, List.map_cons, List.sum_cons, List.sum_cons] at hsum
    have hself : entry.reread = entry := by
      apply reread_eq_self_of_length
      omega
    have hrest := ih (by omega)
    exact List.forall_mem_cons.mpr ⟨hself, hrest⟩

theorem owners_perm (existing : List Entry) (mine : Entry) : (owners existing mine).Perm
    (((existing.filter fun entry => entry.Foreign mine.manager) ++ [mine]).filter
      fun entry => entry.paths ≠ []) :=
  List.perm_insertionSort _ _

theorem transferred_of_uncontested {existing : List Entry}
    (h : Uncontested stored desired options.manager existing) :
    transferred stored desired options existing =
      ((existing.filter fun entry => entry.Foreign options.manager) ++
        [applierEntry options desired]).filter fun entry => entry.paths ≠ [] := by
  unfold transferred
  rw [map_eq_self_iff.mpr]
  intro entry hentry
  exact released_eq_self (h entry (List.mem_of_mem_filter hentry))

/-- A transfer leaves no rival a contested path. -/
theorem not_contested_of_transferred {existing : List Entry} {entry : Entry}
    (hentry : entry ∈ transferred stored desired options existing)
    (hrival : entry.Rival options.manager) {owned : Path} (howned : owned ∈ entry.paths) :
    ¬ Contested stored desired owned := by
  rcases List.mem_append.mp (List.mem_of_mem_filter hentry) with hmem | hmem
  · obtain ⟨old, _, rfl⟩ := List.mem_map.mp hmem
    unfold Entry.released at hrival howned
    split_ifs at hrival howned with hold
    · simpa using (List.mem_filter.mp howned).2
    · exact absurd hrival hold
  · rw [List.mem_singleton.mp hmem] at hrival
    exact absurd rfl hrival.1

/-- A named object declares its name. -/
theorem name_declared (hname : ((applied.field "metadata").bind (Json.strAt "name")).isSome)
    (h : dropBookkeeping applied = .ok desired) :
    [.field "metadata", .field "name"] ∈ declared desired ∧
      (get desired [.field "metadata", .field "name"]).isSome := by
  obtain ⟨name, hname⟩ := Option.isSome_iff_exists.mp hname
  obtain ⟨m, hm, hname⟩ := Option.bind_eq_some_iff.mp hname
  have hfield := Json.strAt_eq_some.mp hname
  have hobject : (applied.field "metadata").any Json.isObject = true := by
    rw [hm]
    exact Json.isObject_of_field hfield
  obtain ⟨fields, metadata, rfl, hlookup, rfl⟩ := dropBookkeeping_object h hobject
  obtain rfl := Option.some.inj (hm.symm.trans hlookup)
  have hkept : lookup "name" (eraseKey "creationTimestamp" (eraseKey "uid"
      (eraseKey "resourceVersion" (eraseKey managedFields metadata)))) = some (.string name) := by
    rw [lookup_eraseKey_ne (by decide), lookup_eraseKey_ne (by decide),
      lookup_eraseKey_ne (by decide), lookup_eraseKey_ne (by decide)]
    exact hfield
  constructor
  · apply mem_declared.mpr
    apply Declares.member (mem_of_lookup (lookup_insertKey _ _ _)) (by simp)
    apply Declares.member (mem_of_lookup hkept) (by decide)
    exact Declares.whole rfl (by simp)
  · rw [get_cons, child_field, Json.field, lookup_insertKey, Option.bind_some, get_cons, child_field,
      Json.field, hkept]
    rfl

/-- An apply transfers exactly the contested paths if and only if there are none, and no
owner has a path below another of its own. -/
theorem forced_apply_transfers (htext : text.Lawful)
    (hname : ((applied.field "metadata").bind (Json.strAt "name")).isSome)
    (h : serverSide text time stored applied options = .ok result) :
    ∃ desired, dropBookkeeping applied = .ok desired ∧
      ((entries text result).Perm
          (transferred stored desired options (entries text stored)) ↔
        Uncontested stored desired options.manager (entries text stored) ∧
        (∀ entry ∈ entries text stored, entry.Foreign options.manager → Antichain entry.paths) ∧
        Antichain (declared desired)) := by
  obtain ⟨desired, existing, merged, hdesired, hclaims, _, hrecord⟩ := serverSide_passes.mp h
  have hdeclared : declared desired ≠ [] := List.ne_nil_of_mem (name_declared hname hdesired).1
  have hresult : entries text result =
      (owners existing (applierEntry options desired)).map Entry.reread :=
    entries_result htext (claims_sorted (fun _ => sorted_entries) hclaims)
      (sorted_declared desired) hdeclared hrecord
  refine ⟨desired, hdesired, ?_⟩
  rw [hresult]
  rcases claims_uncontested hclaims with ⟨hfree, rfl⟩ | ⟨hcontested, hstripped⟩
  · rw [transferred_of_uncontested hfree]
    have hperm := owners_perm (entries text stored) (applierEntry options desired)
    constructor
    · intro hsame
      have hreread := reread_of_perm (hsame.trans hperm.symm)
      refine ⟨hfree, ?_, ?_⟩
      · intro entry hentry hforeign
        by_cases hpaths : entry.paths = []
        · simp [Antichain, hpaths]
        · rw [← reread_eq_self_iff]
          exact hreread entry (mem_owners.mpr ⟨Or.inl ⟨hentry, hforeign⟩, hpaths⟩)
      · have hmine := hreread _ (mem_owners.mpr ⟨Or.inr rfl, hdeclared⟩)
        exact (reread_eq_self_iff _).mp hmine
    · rintro ⟨_, hothers, hmine⟩
      rw [map_eq_self_iff.mpr]
      · exact hperm
      · intro entry hentry
        rw [reread_eq_self_iff]
        rcases (mem_owners.mp hentry).1 with ⟨hold, hforeign⟩ | rfl
        · exact hothers entry hold hforeign
        · exact hmine
  · constructor
    · intro hsame
      obtain ⟨entry, hentry, hrival, hpaths, hall⟩ := hstripped
      have howner : entry ∈ owners existing (applierEntry options desired) :=
        mem_owners.mpr ⟨Or.inl ⟨hentry, Or.inl hrival.1⟩, hpaths⟩
      have hmem : entry.reread ∈ transferred stored desired options (entries text stored) :=
        hsame.subset (List.mem_map_of_mem howner)
      have hleft : entry.reread.paths ≠ [] := by simpa using (List.mem_filter.mp hmem).2
      obtain ⟨owned, howned⟩ := List.exists_mem_of_ne_nil _ hleft
      exact absurd (hall owned (List.mem_of_mem_filter howned))
        (not_contested_of_transferred hmem hrival howned)
    · rintro ⟨hfree, _⟩
      exact absurd hfree hcontested

/-- A record of the fields of a Deployment's spec that the manager `b` applied. -/
def ownedByB (fields : List String) (replicas : ℤ) : Json :=
  .object [
    ("metadata", .object [
      ("managedFields", .array [specRecord "b" fields]),
      ("name", .string "web")]),
    ("spec", .object [("image", .string "web:v1"), ("replicas", .number (.int replicas))])]

def appliedReplicas (replicas : ℤ) : Json :=
  .object [("metadata", .object [("name", .string "web")]),
    ("spec", .object [("replicas", .number (.int replicas))])]

/-- Taking what has the same value leaves the owner everything. -/
theorem same_replicas_shared : ∃ result,
    serverSide keyText "now" (ownedByB ["image", "replicas"] 2) (appliedReplicas 2) ⟨"a", true⟩ =
        .ok result ∧
      (entries keyText result).Perm
        (transferred (ownedByB ["image", "replicas"] 2) (appliedReplicas 2) ⟨"a", true⟩
          (entries keyText (ownedByB ["image", "replicas"] 2))) := by
  have hrun : (serverSide keyText "now" (ownedByB ["image", "replicas"] 2) (appliedReplicas 2)
      ⟨"a", true⟩).toOption.isSome := by decide +kernel
  cases hresult : serverSide keyText "now" (ownedByB ["image", "replicas"] 2) (appliedReplicas 2)
      ⟨"a", true⟩ with
  | error e =>
    rw [hresult] at hrun
    cases hrun
  | ok result =>
    have hkept : dropBookkeeping (appliedReplicas 2) = .ok (appliedReplicas 2) := by decide +kernel
    obtain ⟨desired, hdesired, hiff⟩ :=
      forced_apply_transfers keyText_lawful (by decide +kernel) hresult
    obtain rfl := Except.ok.inj (hkept.symm.trans hdesired)
    refine ⟨result, rfl, hiff.mpr ⟨?_, ?_, ?_⟩⟩
    · unfold Uncontested
      decide +kernel
    · unfold Antichain
      decide +kernel
    · unfold Antichain
      decide +kernel

/-- Taking the replicas takes the image from its owner, and leaves it the replicas. -/
theorem contested_replicas_kept : ¬ ∀ (text : JsonText) (time : String)
    (stored applied result desired : Json) (options : Options), text.Lawful →
    options.force = true → ((applied.field "metadata").bind (Json.strAt "name")).isSome →
    serverSide text time stored applied options = .ok result →
    dropBookkeeping applied = .ok desired →
    (entries text result).Perm (transferred stored desired options (entries text stored)) := by
  intro h
  have hkept : dropBookkeeping (appliedReplicas 3) = .ok (appliedReplicas 3) := by decide +kernel
  have hrun : (serverSide keyText "now" (ownedByB ["image", "replicas"] 2) (appliedReplicas 3)
      ⟨"a", true⟩).map (fun result => (entries keyText result).map Entry.paths) =
        .ok [[[.field "metadata", .field "name"], [.field "spec", .field "replicas"]],
          [[.field "spec", .field "replicas"]]] := by decide +kernel
  cases hresult : serverSide keyText "now" (ownedByB ["image", "replicas"] 2) (appliedReplicas 3)
      ⟨"a", true⟩ with
  | error e =>
    rw [hresult] at hrun
    cases hrun
  | ok result =>
    rw [hresult] at hrun
    have hsame := h keyText "now" _ _ result _ ⟨"a", true⟩ keyText_lawful rfl (by decide +kernel)
      hresult hkept
    have hpaths := hsame.map Entry.paths
    have hread : (entries keyText result).map Entry.paths = _ := Except.ok.inj hrun
    rw [hread] at hpaths
    have hmem := hpaths.subset (List.mem_cons_of_mem _ List.mem_cons_self)
    revert hmem
    decide +kernel

end Hedronetes.Apply
