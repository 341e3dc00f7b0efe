import Hedronetes.Apply.Setting
import Hedronetes.Apply.Removal
import Hedronetes.Apply.ServerSide

/-!
# The passes of a merge

One apply is a conflict check over the declared paths, a removal of the dropped
ones, a pruning, a write of every declared value and a write of the ownership
records. Each pass has one lemma on what a path reads after it.
-/

namespace Hedronetes.Apply

open FirstMatch Fallible

variable {text : JsonText} {time : String} {stored applied desired result : Json}
  {options : Options}

/-- The entry an apply records for its manager. -/
def applierEntry (options : Options) (desired : Json) : Entry :=
  { manager := options.manager
    operation := "Apply"
    apiVersion := (desired.strAt "apiVersion").getD ""
    paths := declared desired }

/-- The passes of a successful apply. -/
theorem serverSide_passes : serverSide text time stored applied options = .ok result ↔
    ∃ desired existing merged, dropBookkeeping applied = .ok desired ∧
      (declared desired).foldlM (claim stored desired options) (entries text stored) =
        .ok existing ∧
      (declared desired).foldlM (settle desired) (prune ((dropped
        (previousPaths (entries text stored) options.manager) (declared desired)).foldl
          remove stored)) = .ok merged ∧
      record merged ((owners existing (applierEntry options desired)).map (entryValue text time)) =
        .ok result := by
  constructor
  · intro h
    obtain ⟨desired, hdesired, h⟩ := bind_eq_ok.mp h
    obtain ⟨existing, hclaims, h⟩ := bind_eq_ok.mp h
    obtain ⟨merged, hmerged, h⟩ := bind_eq_ok.mp h
    exact ⟨desired, existing, merged, hdesired, hclaims, hmerged, h⟩
  · rintro ⟨desired, existing, merged, hdesired, hclaims, hmerged, h⟩
    exact bind_eq_ok.mpr ⟨desired, hdesired, bind_eq_ok.mpr ⟨existing, hclaims,
      bind_eq_ok.mpr ⟨merged, hmerged, h⟩⟩⟩

theorem serverSide_ok (h : serverSide text time stored applied options = .ok result) :
    ∃ desired existing merged, dropBookkeeping applied = .ok desired ∧
      (declared desired).foldlM (claim stored desired options) (entries text stored) =
        .ok existing ∧
      (declared desired).foldlM (settle desired) (prune ((dropped
        (previousPaths (entries text stored) options.manager) (declared desired)).foldl
          remove stored)) = .ok merged ∧
      ∃ managed, record merged managed = .ok result := by
  obtain ⟨desired, existing, merged, hdesired, hclaims, hmerged, h⟩ := serverSide_passes.mp h
  exact ⟨desired, existing, merged, hdesired, hclaims, hmerged, _, h⟩

/-! ## The conflict check -/

/-- Another Apply manager owns the path. -/
def OwnedByOther (existing : List Entry) (manager : String) (p : Path) : Prop :=
  ∃ entry ∈ existing, entry.manager ≠ manager ∧ entry.operation = "Apply" ∧ p ∈ entry.paths

theorem ownerOf_eq_none {existing : List Entry} {d p : Path} {manager : String}
    (h : ownerOf existing d manager = none) (hp : OwnedByOther existing manager p) :
    ¬ p <+: d := by
  intro hthrough
  obtain ⟨entry, hentry, hmanager, hoperation, hpaths⟩ := hp
  rw [ownerOf, Option.map_eq_none_iff, List.find?_eq_none] at h
  have hnot := h entry hentry
  simp only [decide_eq_true_eq] at hnot
  exact hnot ⟨hmanager, hoperation, p, hpaths, hthrough⟩

theorem claim_ok {existing existing' : List Entry} {d : Path}
    (hforce : options.force = false)
    (h : claim stored desired options existing d = .ok existing') :
    existing' = existing ∧
      (ownerOf existing d options.manager = none ∨ get stored d = get desired d) := by
  unfold claim at h
  cases howner : ownerOf existing d options.manager with
  | none =>
    simp only [howner] at h
    exact ⟨(Except.ok.inj h).symm, Or.inl rfl⟩
  | some owner =>
    simp only [howner, hforce, Bool.not_false, if_true] at h
    split_ifs at h with hsame
    exact ⟨(Except.ok.inj h).symm, Or.inr hsame⟩

theorem settle_ok {j j' : Json} {d : Path} (h : settle desired j d = .ok j') :
    (get desired d = none ∨ d = []) ∧ j' = j ∨
      d ≠ [] ∧ ∃ w, get desired d = some w ∧ put j d w = .ok j' := by
  unfold settle at h
  cases hw : get desired d with
  | none =>
    simp only [hw] at h
    exact Or.inl ⟨Or.inl rfl, (Except.ok.inj h).symm⟩
  | some w =>
    simp only [hw] at h
    cases d with
    | nil => exact Or.inl ⟨Or.inr rfl, (Except.ok.inj h).symm⟩
    | cons s d => exact Or.inr ⟨by simp, w, rfl, h⟩

/-- What every write preserves, the run of them preserves. -/
theorem settles_invariant {I : Json → Prop} {ds : List Path}
    (hstep : ∀ d ∈ ds, d ≠ [] → ∀ j j' w, get desired d = some w → put j d w = .ok j' → I j → I j')
    {j j' : Json} (h : ds.foldlM (settle desired) j = .ok j') (hj : I j) : I j' := by
  induction ds generalizing j with
  | nil => exact Except.ok.inj h ▸ hj
  | cons d ds ih =>
    rw [List.foldlM_cons] at h
    obtain ⟨j₁, hd, h⟩ := bind_eq_ok.mp h
    apply ih (fun e he => hstep e (List.mem_cons_of_mem _ he)) h
    rcases settle_ok hd with ⟨_, rfl⟩ | ⟨hne, w, hw, hput⟩
    · exact hj
    · exact hstep d List.mem_cons_self hne j j₁ w hw hput hj

/-- The merge key of a declared item is declared. -/
theorem Rekeys.declared {w : Json} {p d : Path} (h : Rekeys p d)
    (hd : d ∈ Apply.declared desired) (hw : get desired d = some w) :
    p ∈ Apply.declared desired ∧ (get desired p).isSome := by
  obtain ⟨c, key, value, rfl, rest, rfl⟩ := h
  rw [List.append_assoc] at hd hw
  refine ⟨mem_declared.mpr (Declares.key (mem_declared.mp hd)), ?_⟩
  rw [get_key hw]
  rfl

/-- A path keeps its value `v` through the writes, if each goes beside it or writes
what `v` has there. -/
theorem get_settles_same {j j' : Json} {p : Path} {v : Option Json}
    (hp : ∀ d ∈ declared desired, (get desired d).isSome →
      Apart d p ∨ ∃ y, d = p ++ y ∧ (v.bind fun current => get current y) = get desired d)
    (h : (declared desired).foldlM (settle desired) j = .ok j') (hj : get j p = v) :
    get j' p = v := by
  apply settles_invariant (I := fun j => get j p = v) _ h hj
  intro d hd _ k k' w hw hput hk
  rcases hp d hd (by simp [hw]) with hapart | ⟨y, rfl, hsame⟩
  · rw [get_put_apart hput hw hapart, hk]
    intro hr
    obtain ⟨hmem, hsome⟩ := hr.declared hd hw
    rcases hp p hmem hsome with hself | ⟨y, hy, hsame⟩
    · exact absurd hself (Apart.irrefl p)
    · rw [List.self_eq_append_right] at hy
      subst hy
      have hv : v = get desired p := by simpa using hsame
      rwa [hk, hv]
  · have hthere : get k (p ++ y) = some w := by rw [get_append, hk, hsame, hw]
    rw [put_same hthere] at hput
    rwa [← Except.ok.inj hput]

/-- A path that no declared path meets reads what it read. -/
theorem get_settles_apart {j j' : Json} {p : Path}
    (hp : ∀ d ∈ declared desired, (get desired d).isSome → Apart d p)
    (h : (declared desired).foldlM (settle desired) j = .ok j') : get j' p = get j p :=
  get_settles_same (fun d hd hsome => Or.inl (hp d hd hsome)) h rfl

/-- A path at or below a declared one reads what the applied object has there. -/
theorem get_settles {j j' : Json} {d : Path} (hd : d ∈ declared desired) (hne : d ≠ [])
    (hvalue : (get desired d).isSome)
    (h : (declared desired).foldlM (settle desired) j = .ok j') (q : Path) :
    get j' (d ++ q) = get desired (d ++ q) := by
  have hsettled : get j' d = get desired d := by
    obtain ⟨before, after, hsplit⟩ := List.append_of_mem hd
    have hafter : ∀ e ∈ after, e ∈ declared desired := by
      intro e he
      rw [hsplit]
      exact List.mem_append_right _ (List.mem_cons_of_mem _ he)
    rw [hsplit, List.foldlM_append] at h
    obtain ⟨j₁, _, h⟩ := bind_eq_ok.mp h
    rw [List.foldlM_cons] at h
    obtain ⟨j₂, hj₂, h⟩ := bind_eq_ok.mp h
    obtain ⟨w, hw⟩ := Option.isSome_iff_exists.mp hvalue
    have hwritten : get j₂ d = get desired d := by
      rcases settle_ok hj₂ with ⟨hnone | hnil, _⟩ | ⟨_, w, hw, hput⟩
      · rw [hw] at hnone
        cases hnone
      · exact absurd hnil hne
      · rw [get_put hput hw, hw]
    -- Later writes go beside `d`, above it or inside it, always with the applied value.
    apply settles_invariant (I := fun j => get j d = get desired d) _ h hwritten
    intro e he _ k k' u hu hput hk
    have hkeyed := (mem_declared.mp (hafter e he)).nameKeyed
    rcases hkeyed.apart_or_through (mem_declared.mp hd).nameKeyed with hapart | hthrough | hthrough
    · rw [get_put_apart hput hu hapart fun _ => by rwa [hk], hk]
    · obtain ⟨y, rfl⟩ := hthrough
      rw [get_append, get_append, get_put hput hu, hu]
    · obtain ⟨y, rfl⟩ := hthrough
      have hthere : get k (d ++ y) = some u := by rw [get_append, hk, ← get_append, hu]
      rw [put_same hthere] at hput
      rwa [← Except.ok.inj hput]
  rw [get_append, get_append, hsettled]

/-! ## The ownership records -/

/-- A value without its ownership records. -/
def unmanaged (j : Json) : Json := remove j [.field "metadata", .field managedFields]

theorem not_rekeys_fields {x p : Path} (h : ∀ key value, .keyed key value ∉ x) :
    ¬ Rekeys x p := by
  rintro ⟨c, key, value, rfl, _⟩
  exact h key value (by simp)

theorem get_unmanaged_records (j : Json) {p : Path}
    (h : [.field "metadata", .field managedFields] <+: p) : get (unmanaged j) p = none := by
  obtain ⟨q, rfl⟩ := h
  exact get_remove_gone (by simp) (not_rekeys_fields (by simp)) q j

/-- Setting the records aside forgets only what lies at or below them. -/
theorem get_unmanaged_congr {j k : Json} {p : Path} (h : get j p = get k p) :
    get (unmanaged j) p = get (unmanaged k) p := by
  have hkey : ∀ q, ¬ Rekeys [.field "metadata", .field managedFields] q := fun q =>
    not_rekeys_fields (by simp)
  have hcases : Apart [.field "metadata", .field managedFields] p ∨ _ ∨ _ :=
    apart_or_through (by simp)
  rcases hcases with hapart | hthrough | ⟨y, hy⟩
  · rw [unmanaged, unmanaged, get_remove_apart hapart (hkey p), get_remove_apart hapart (hkey p), h]
  · rw [get_unmanaged_records j hthrough, get_unmanaged_records k hthrough]
  · cases y with
    | nil =>
      rw [List.append_nil] at hy
      have hthrough : [.field "metadata", .field managedFields] <+: p :=
        hy ▸ List.prefix_refl p
      rw [get_unmanaged_records j hthrough, get_unmanaged_records k hthrough]
    | cons u y =>
      have hbelow : ∀ l, get (unmanaged l) p = (get l p).map fun v => remove v (u :: y) := by
        intro l
        rw [unmanaged, ← hy]
        exact get_remove_below (by rw [hy]; exact hkey p) l
      rw [hbelow, hbelow, h]

theorem unmanaged_object (fields : List (String × Json)) :
    unmanaged (.object fields) = .object (modifyKey "metadata"
      (fun metadata => remove metadata [.field managedFields]) fields) := rfl

/-- An apply goes on with an object that has metadata, without its records. -/
theorem dropBookkeeping_ok (h : dropBookkeeping applied = .ok desired) :
    ∃ fields m, desired = .object fields ∧ lookup "metadata" fields = some m ∧
      remove m [.field managedFields] = m := by
  cases applied with
  | null =>
    rw [← Except.ok.inj h]
    exact ⟨_, .null, rfl, rfl, rfl⟩
  | object fields =>
    unfold dropBookkeeping at h
    cases hm : lookup "metadata" fields with
    | none =>
      simp only [hm] at h
      rw [← Except.ok.inj h]
      exact ⟨_, .null, rfl, lookup_insertKey _ _ _, rfl⟩
    | some m =>
      cases m with
      | object metadata =>
        simp only [hm] at h
        rw [← Except.ok.inj h]
        refine ⟨_, _, rfl, lookup_insertKey _ _ _, ?_⟩
        simp only [remove, Json.object.injEq, eraseKey, List.filter_filter]
        apply List.filter_congr
        intro e _
        by_cases he : e.1 = managedFields <;> simp [he]
      | _ =>
        simp only [hm] at h
        rw [← Except.ok.inj h]
        exact ⟨fields, _, rfl, hm, rfl⟩
  | _ => cases h

theorem metadata_object {j : Json} (h : (j.field "metadata").any Json.isObject = true) :
    ∃ fields metadata, j = .object fields ∧ lookup "metadata" fields = some (.object metadata) := by
  cases j with
  | object fields =>
    obtain ⟨m, hm, hobject⟩ := (Option.any_eq_true _ _).mp h
    obtain ⟨metadata, rfl⟩ := Json.isObject_iff.mp hobject
    exact ⟨fields, metadata, rfl, hm⟩
  | _ => cases h

/-- What the applied object looks like without its bookkeeping. -/
theorem dropBookkeeping_object (h : dropBookkeeping applied = .ok desired)
    (hmetadata : (applied.field "metadata").any Json.isObject = true) :
    ∃ fields metadata, applied = .object fields ∧
      lookup "metadata" fields = some (.object metadata) ∧
        desired = .object (insertKey "metadata" (.object (eraseKey "creationTimestamp"
          (eraseKey "uid" (eraseKey "resourceVersion" (eraseKey managedFields metadata))))) fields) := by
  obtain ⟨fields, metadata, rfl, hm⟩ := metadata_object hmetadata
  refine ⟨fields, metadata, rfl, hm, ?_⟩
  unfold dropBookkeeping at h
  simp only [hm] at h
  exact (Except.ok.inj h).symm

/-- The records are all that recording changes in an object with metadata. -/
theorem record_unmanaged {merged : Json} {managed : List Json}
    (h : record merged managed = .ok result)
    (hmetadata : (merged.field "metadata").any Json.isObject = true) :
    unmanaged result = unmanaged merged := by
  unfold record at h
  split_ifs at h with hnone
  · rw [Except.ok.inj h]
  · obtain ⟨fields, metadata, rfl, hlookup⟩ := metadata_object hmetadata
    change (assign _ managedFields _ >>= _) = _ at h
    simp only [Json.field, hlookup, Option.getD_some] at h
    rw [← Except.ok.inj h, unmanaged_object, unmanaged_object]
    apply congrArg
    apply modifyKey_insertKey hlookup
    simp only [remove]
    rw [eraseKey_insertKey]

theorem record_fresh {merged : Json} {managed : List Json} (h : record merged managed = .ok result)
    (hmanaged : managed ≠ []) (hmetadata : (merged.field "metadata").any Json.isObject = false) :
    ∃ fields,
      result = .object (insertKey "metadata" (.object [(managedFields, .array managed)]) fields) ∧
        ∀ s q, s ≠ .field "metadata" → get (.object fields) (s :: q) = get merged (s :: q) := by
  rw [record, if_neg hmanaged, hmetadata] at h
  cases merged with
  | null =>
    refine ⟨[("metadata", .object [])], (Except.ok.inj h).symm, fun s q hs => ?_⟩
    cases s with
    | field name =>
      have hne : "metadata" ≠ name := fun he => hs (by rw [he])
      simp [get_cons, child, Json.field, lookup, hne]
    | keyed key value => rfl
  | object fields =>
    obtain ⟨base, hbase, hrest⟩ := bind_eq_ok.mp h
    rw [← Except.ok.inj hbase] at hrest
    simp only [Json.field, lookup_insertKey, Option.getD_some] at hrest
    refine ⟨_, (Except.ok.inj hrest).symm, fun s q hs => ?_⟩
    cases s with
    | field name =>
      have hne : name ≠ "metadata" := fun he => hs (by rw [he])
      rw [get_cons, get_cons]
      exact congrArg (fun c => Option.bind c fun current => get current q)
        (lookup_insertKey_ne hne _ fields)
    | keyed key value => rfl
  | _ => cases h

/-- Where metadata was no object, recording replaces it. -/
theorem record_replaced {merged : Json} {managed : List Json}
    (h : record merged managed = .ok result) (hmanaged : managed ≠ [])
    (hmetadata : (merged.field "metadata").any Json.isObject = false) :
    (∀ s q, get (unmanaged result) (.field "metadata" :: s :: q) = none) ∧
      ∀ s q, s ≠ .field "metadata" → get (unmanaged result) (s :: q) = get merged (s :: q) := by
  obtain ⟨fields, rfl, hothers⟩ := record_fresh h hmanaged hmetadata
  constructor
  · intro s q
    have hlookup : lookup "metadata" (modifyKey "metadata" (fun m => remove m [.field managedFields])
        (insertKey "metadata" (.object [(managedFields, .array managed)]) fields)) =
          some (.object []) := by
      rw [lookup_modifyKey, lookup_insertKey]
      rfl
    rw [unmanaged_object, get_cons, child_field]
    change (lookup "metadata" _).bind _ = none
    rw [hlookup]
    cases s <;> rfl
  · intro s q hs
    rw [← hothers s q hs, unmanaged_object]
    cases s with
    | field name =>
      have hne : name ≠ "metadata" := fun he => hs (by rw [he])
      rw [get_cons, get_cons]
      apply congrArg fun c => Option.bind c fun current => get current q
      exact (lookup_modifyKey_ne hne _ _).trans (lookup_insertKey_ne hne _ fields)
    | keyed key value => rfl

end Hedronetes.Apply
