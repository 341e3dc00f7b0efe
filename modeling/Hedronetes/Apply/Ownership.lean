import Hedronetes.Apply.Merge
import Hedronetes.Apply.Regular
import Hedronetes.Apply.Survival

/-!
# What an apply leaves of the other managers' fields

An unforced apply checks every declared path against the owners of the paths
above it. It does not check a declared path against what lies below it, and the
removal of dropped paths and the pruning check nothing. A path of another
manager keeps its value exactly as far as these three leave it alone.
-/

namespace Hedronetes.Apply

open FirstMatch Fallible

variable {text : JsonText} {time : String}
  {stored applied desired merged result : Json} {options : Options}

/-! ## Paths the drops and the pruning leave alone -/

/-- Where lists repeat no name, these are the only paths that keep what they hold. -/
theorem kept_iff {xs : List Path} {p : Path} {v : Json} (hj : regular stored = true)
    (hxs : ∀ x ∈ xs, NameKeyed x) (hp : NameKeyed p) (hv : get stored p = some v) :
    get (prune (xs.foldl remove stored)) p = some v ↔
      Undisturbed stored (effective stored xs) p := by
  have heffective : ∀ x ∈ effective stored xs, x ∈ xs ∧ x ≠ [] ∧ (get stored x).isSome := by
    intro x hx
    obtain ⟨hmem, hsome⟩ := List.mem_filter.mp hx
    exact ⟨hmem, by simpa using hsome⟩
  constructor
  · intro hkept
    obtain ⟨hway, v₁, hv₁, hprune⟩ := get_prune_regular (regular_removals hj) hp hkept
    have hgone : ∀ x ∈ effective stored xs, get (xs.foldl remove stored) x = none := by
      intro x hx
      obtain ⟨hmem, hne, _⟩ := heffective x hx
      have hempty := get_removals_gone hj hxs hmem hne (q := []) (by simpa using hxs x hmem)
      rwa [List.append_nil] at hempty
    constructor
    · intro x hx
      obtain ⟨hmem, hne, hsome⟩ := heffective x hx
      rcases (hxs x hmem).apart_or_through hp with hapart | ⟨q, rfl⟩ | ⟨y, rfl⟩
      · exact hapart
      · rw [get_removals_gone hj hxs hmem hne hp] at hv₁
        cases hv₁
      · -- What lay below the path is gone, although the path holds it still.
        have hbelow : get (prune (xs.foldl remove stored)) (p ++ y) = get stored (p ++ y) := by
          rw [get_append, get_append, hkept, hv]
        obtain ⟨w, hw⟩ := Option.isSome_iff_exists.mp hsome
        obtain ⟨_, u, hu, _⟩ := get_prune_regular (regular_removals hj) (hxs _ hmem)
          (hbelow.trans hw)
        rw [hgone _ hx] at hu
        cases hu
    · rintro x hx ⟨c, key, value, rfl, rest, rfl⟩
      -- An item found on the way still carries its key.
      rw [List.append_assoc] at hv₁
      have hkey := hgone _ hx
      rw [get_key hv₁] at hkey
      cases hkey
    · intro c key value a hc ha
      obtain ⟨rest, rfl⟩ := hc
      have hread := hv₁
      rw [get_append] at hread
      obtain ⟨b, hb, _⟩ := Option.bind_eq_some_iff.mp hread
      have hbare : bare b = false := hway c key value b (List.prefix_append _ _) hb
      obtain rfl : key = "name" := hp key value (by simp)
      obtain ⟨name, hne, hfield⟩ :=
        field_of_kept (regular_get (regular_removals hj) hb) (strAt_of_get hb) hbare
      have hsplit : c ++ [.keyed "name" value, .field name] =
          c ++ [.keyed "name" value] ++ [.field name] := by simp
      have hkeyed : NameKeyed (c ++ [.keyed "name" value, .field name]) := by
        intro other value' hmem
        apply hp other value'
        simp only [List.mem_append, List.mem_cons, reduceCtorEq, List.not_mem_nil, or_false] at hmem ⊢
        tauto
      have hstays : get (xs.foldl remove stored) (c ++ [.keyed "name" value, .field name]) ≠
          none := by
        rw [hsplit, get_append_field hb]
        exact Option.isSome_iff_ne_none.mp hfield
      refine ⟨name, hne, ?_, fun hx => hstays (hgone _ hx)⟩
      rw [← get_append_field ha, ← hsplit, Option.isSome_iff_ne_none]
      exact fun hnone => hstays (get_removals_eq_none hj hxs hkeyed hnone)
    · intro w hw
      rw [← Option.some.inj (hv.symm.trans hw), hprune]
      exact noBare_prune v₁
  · intro h
    rw [removals_effective hj hxs, h.kept, hv]

/-! ## Paths the applier declares, or one above them -/

/-- A declared path that has a value lies at the path or above it. -/
def Covered (desired : Json) (p : Path) : Prop :=
  ∃ d ∈ declared desired, (get desired d).isSome ∧ d <+: p

theorem nil_not_declared (h : dropBookkeeping applied = .ok desired) : [] ∉ declared desired := by
  obtain ⟨fields, _, rfl, _⟩ := dropBookkeeping_ok h
  intro hd
  cases mem_declared.mp hd with
  | whole hobject _ => cases hobject

theorem unmanaged_desired (h : dropBookkeeping applied = .ok desired) :
    unmanaged desired = desired := by
  obtain ⟨fields, m, rfl, hm, hclean⟩ := dropBookkeeping_ok h
  rw [unmanaged_object, modifyKey_eq_self]
  intro v hv
  rwa [← Option.some.inj (hm.symm.trans hv)]

/-- Before the records are written, a covered path reads what the applied object has. -/
theorem Covered.get_merged {j : Json} {p : Path} (h : Covered desired p)
    (hdesired : dropBookkeeping applied = .ok desired)
    (hmerged : (declared desired).foldlM (settle desired) j = .ok merged) :
    get merged p = get desired p := by
  obtain ⟨d, hd, hvalue, q, rfl⟩ := h
  exact get_settles hd (fun he => nil_not_declared hdesired (he ▸ hd)) hvalue hmerged q

/-- A value read below a child needs the child to be a container of the right kind. -/
theorem object_of_get {j v : Json} {name other : String} {q : Path}
    (h : get j (.field name :: .field other :: q) = some v) :
    (j.field name).any Json.isObject = true := by
  obtain ⟨m, hm, h⟩ := Option.bind_eq_some_iff.mp h
  obtain ⟨u, hu, _⟩ := Option.bind_eq_some_iff.mp h
  rw [child_field] at hm
  rw [hm]
  exact Json.isObject_of_field hu

theorem get_of_object {j : Json} {name key value : String} {q : Path}
    (h : (j.field name).any Json.isObject = true) :
    get j (.field name :: .keyed key value :: q) = none := by
  obtain ⟨m, hm, hobject⟩ := (Option.any_eq_true _ _).mp h
  obtain ⟨fields, rfl⟩ := Json.isObject_iff.mp hobject
  rw [get_cons, child_field, hm]
  rfl

theorem get_null {p : Path} (hp : p ≠ []) : get .null p = none := by
  cases p with
  | nil => exact absurd rfl hp
  | cons s p => cases s <;> rfl

theorem get_of_not_object {j : Json} {name other : String} {q : Path}
    (h : (j.field name).any Json.isObject = false) :
    get j (.field name :: .field other :: q) = none := by
  cases hv : get j (.field name :: .field other :: q) with
  | none => rfl
  | some v =>
    rw [object_of_get hv] at h
    cases h

/-- What the records' bookkeeping leaves of a path that reads the same in the merged
object and in another one whose metadata is an object. -/
theorem get_recorded {managed : List Json} {p : Path} {k : Json}
    (hrecord : record merged managed = .ok result) (hsame : get merged p = get k p)
    (hk : (k.field "metadata").any Json.isObject = true) :
    get (unmanaged result) p = get (unmanaged k) p := by
  rw [← get_unmanaged_congr hsame]
  by_cases hobject : (merged.field "metadata").any Json.isObject = true
  · rw [record_unmanaged hrecord hobject]
  · rw [Bool.not_eq_true] at hobject
    by_cases hmanaged : managed = []
    · rw [record, if_pos hmanaged] at hrecord
      rw [Except.ok.inj hrecord]
    · obtain ⟨hbelow, hothers⟩ := record_replaced hrecord hmanaged hobject
      have hne : ¬ (p = [] ∨ p = [.field "metadata"]) := by
        have hdiffers : merged.field "metadata" ≠ k.field "metadata" := by
          intro he
          rw [he, hk] at hobject
          cases hobject
        rintro (rfl | rfl)
        · exact hdiffers (by rw [Option.some.inj hsame])
        · exact hdiffers (by simpa [get_cons] using hsame)
      cases p with
      | nil => exact absurd (Or.inl rfl) hne
      | cons s q =>
        by_cases hs : s = .field "metadata"
        · subst hs
          cases q with
          | nil => exact absurd (Or.inr rfl) hne
          | cons t q =>
            have hnone : get merged (.field "metadata" :: t :: q) = none := by
              cases t with
              | field other => exact get_of_not_object hobject
              | keyed key value => rw [hsame, get_of_object hk]
            have hnull : get merged (.field "metadata" :: t :: q) =
                get .null (.field "metadata" :: t :: q) := by rw [hnone, get_null (by simp)]
            rw [hbelow, get_unmanaged_congr hnull]
            exact (get_null (by simp)).symm
        · rw [hothers s q hs]
          symm
          apply get_remove_apart
          · apply Or.inl
            cases s with
            | field other => exact fun he => hs (by rw [he])
            | keyed key value => trivial
          · exact not_rekeys_fields (by simp)

/-! ## The fields of the other managers -/

/-- The paths an apply removes. -/
def droppedPaths (text : JsonText) (stored desired : Json) (manager : String) : List Path :=
  dropped (previousPaths (entries text stored) manager) (declared desired)

/-- The drops and the pruning bring no path back. -/
theorem get_kept_eq_none {xs : List Path} {p : Path} (hj : regular stored = true)
    (hxs : ∀ x ∈ xs, NameKeyed x) (hp : NameKeyed p) (h : get stored p = none) :
    get (prune (xs.foldl remove stored)) p = none := by
  cases hv : get (prune (xs.foldl remove stored)) p with
  | none => rfl
  | some w =>
    obtain ⟨_, v, hread, _⟩ := get_prune_regular (regular_removals hj) hp hv
    rw [get_removals_eq_none hj hxs hp h] at hread
    cases hread

theorem get_unmanaged_apart {p : Path} (h : Apart [.field "metadata", .field managedFields] p)
    (j : Json) : get (unmanaged j) p = get j p :=
  get_remove_apart h (not_rekeys_fields (by simp)) j

/-- A path beside the records reads the merged object, if it read nothing where the
metadata was no map. -/
theorem get_result_apart {managed : List Json} {p : Path}
    (h : Apart [.field "metadata", .field managedFields] p)
    (hrecord : record merged managed = .ok result)
    (hkeyed : ∀ key value q, p = .field "metadata" :: .keyed key value :: q → get merged p = none) :
    get (unmanaged result) p = get merged p := by
  by_cases hobject : (merged.field "metadata").any Json.isObject = true
  · rw [record_unmanaged hrecord hobject, get_unmanaged_apart h]
  · rw [Bool.not_eq_true] at hobject
    by_cases hmanaged : managed = []
    · rw [record, if_pos hmanaged] at hrecord
      rw [← Except.ok.inj hrecord, get_unmanaged_apart h]
    · obtain ⟨hbelow, hothers⟩ := record_replaced hrecord hmanaged hobject
      cases p with
      | nil => exact h.elim
      | cons s q =>
        by_cases hs : s = .field "metadata"
        · subst hs
          cases q with
          | nil =>
            rcases h with h | ⟨_, h⟩
            · exact absurd rfl h
            · exact h.elim
          | cons t q =>
            rw [hbelow]
            cases t with
            | field other => exact (get_of_not_object hobject).symm
            | keyed key value => exact (hkeyed key value q rfl).symm
        · exact hothers s q hs

/-- A record of one manager's fields under `spec`. -/
def specRecord (manager : String) (fields : List String) : Json :=
  .object [("fieldsType", .string "FieldsV1"),
    ("fieldsV1", .object [("f:spec", .object (fields.map fun name => ("f:" ++ name, .object [])))]),
    ("manager", .string manager), ("operation", .string "Apply")]

def namedWeb : Json := .object [("metadata", .object [("name", .string "web")])]

end Hedronetes.Apply
