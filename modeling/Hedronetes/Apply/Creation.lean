import Hedronetes.Apply.MergeKeys
import Hedronetes.Apply.Ownership
import Hedronetes.Apply.Writes

/-!
# Applying to nothing

The first apply of a name starts from a bare object and rebuilds what was applied
leaf by leaf. Members come back in key order, which is theirs anyway; the items of
a named list come back in the order of their names, which need not be theirs.
-/

namespace Hedronetes.Apply

open FirstMatch Fallible CursorScan

/-- What an apply of a name that is not stored starts from. -/
def nothing (applied : Json) : Json :=
  .object [("apiVersion", (applied.field "apiVersion").getD .null),
    ("kind", (applied.field "kind").getD .null), ("metadata", .object [])]

/-! ## What the first apply can rebuild -/

mutual

/-- No object inside is empty, the items of unnamed lists aside. -/
def filled : Json → Bool
  | .object fields => !fields.isEmpty && filledFields fields
  | .array items => !named items || filledItems items
  | _ => true

def filledFields : List (String × Json) → Bool
  | [] => true
  | (_, value) :: fields => filled value && filledFields fields

def filledItems : List Json → Bool
  | [] => true
  | item :: items => filled item && filledItems items

end

mutual

/-- Named lists are in the order of their names, no two alike, and no `metadata`
holds ownership records. -/
def orderly (underMetadata : Bool) : Json → Bool
  | .object fields => orderlyFields underMetadata fields
  | .array items =>
    if items ≠ [] ∧ named items then decide (Ascending nameOf items) && orderlyItems items
    else true
  | _ => true

def orderlyFields (underMetadata : Bool) : List (String × Json) → Bool
  | [] => true
  | (key, value) :: fields => !(underMetadata && key == managedFields) &&
      orderly (key = "metadata") value && orderlyFields underMetadata fields

def orderlyItems : List Json → Bool
  | [] => true
  | item :: items => orderly false item && orderlyItems items

end

theorem filled_object {fields : List (String × Json)} : filled (.object fields) = true ↔
    fields ≠ [] ∧ ∀ e ∈ fields, filled e.2 = true := by
  have hall : filledFields fields = true ↔ ∀ e ∈ fields, filled e.2 = true := by
    induction fields with
    | nil => simp [filledFields]
    | cons e fields ih => simp [filledFields, ih]
  rw [filled, Bool.and_eq_true, hall]
  simp

theorem filled_array {items : List Json} (h : named items = true) :
    filled (.array items) = true ↔ ∀ j ∈ items, filled j = true := by
  have hall : ∀ l, filledItems l = true ↔ ∀ j ∈ l, filled j = true := by
    intro l
    induction l with
    | nil => simp [filledItems]
    | cons j l ih => simp [filledItems, ih]
  rw [filled, h, Bool.not_true, Bool.false_or, hall]

theorem orderly_object {u : Bool} {fields : List (String × Json)} :
    orderly u (.object fields) = true ↔ ∀ e ∈ fields, ¬ (u = true ∧ e.1 = managedFields) ∧
      orderly (e.1 = "metadata") e.2 = true := by
  have hall : orderlyFields u fields = true ↔ ∀ e ∈ fields,
      ¬ (u = true ∧ e.1 = managedFields) ∧ orderly (e.1 = "metadata") e.2 = true := by
    induction fields with
    | nil => simp [orderlyFields]
    | cons e fields ih => cases u <;> simp [orderlyFields, ih, and_assoc]
  rw [orderly, hall]

theorem orderly_array {u : Bool} {items : List Json} (hne : items ≠ []) (h : named items = true) :
    orderly u (.array items) = true ↔
      Ascending nameOf items ∧ ∀ j ∈ items, orderly false j = true := by
  have hall : ∀ l, orderlyItems l = true ↔ ∀ j ∈ l, orderly false j = true := by
    intro l
    induction l with
    | nil => simp [orderlyItems]
    | cons j l ih => simp [orderlyItems, ih]
  rw [orderly, if_pos ⟨hne, h⟩, Bool.and_eq_true, decide_eq_true_eq, hall]

/-! ## Leaves -/

variable {u : Bool} {ds : List Path} {s : Segment}

theorem declares_leaf {v : Json} (hobject : v.isObject = false)
    (hnamed : ∀ items, v = .array items → items ≠ [] → named items = false) {p : Path} :
    Declares u v p ↔ p = [] := by
  constructor
  · intro h
    cases h with
    | member => cases hobject
    | item hall hmem => rw [hnamed _ rfl (List.ne_nil_of_mem hmem)] at hall; cases hall
    | whole => rfl
  · rintro rfl
    exact .whole hobject hnamed

theorem writes_leaf {v : Json} (hobject : v.isObject = false)
    (hnamed : ∀ items, v = .array items → items ≠ [] → named items = false)
    (hsorted : Sorted ds) (hds : ∀ p, p ∈ ds ↔ Declares u v p) (base : Json) :
    writes v ds base = .ok v := by
  have hsingle : ds = [[]] := by
    apply hsorted.eq_of_mem_iff (List.pairwise_singleton _ _)
    intro p
    rw [hds, declares_leaf hobject hnamed, List.mem_singleton]
  rw [hsingle]
  rfl

/-- The container a missing child is created as. -/
def container : Json → Json
  | .array _ => .array []
  | _ => .object []

theorem write_container {c : Json} {d : Path} (h : Declares u c d) (name : String) :
    write c (fresh (.field name) d) d = write c (container c) d := by
  cases h with
  | member => rfl
  | item => rfl
  | whole => rfl

theorem named_strAt {items : List Json} (h : named items = true) {i : Json} (hi : i ∈ items) :
    i.strAt "name" = some (nameOf i) := by
  have hname := List.all_eq_true.mp h i hi
  unfold nameOf
  cases hstr : i.strAt "name" with
  | none => simp [hstr] at hname
  | some n => rfl

/-- A value the first apply can rebuild has a leaf. -/
theorem leaf_exists (v : Json) : ∀ u, filled v = true → orderly u v = true →
    ∃ d, Declares u v d ∧ (get v d).isSome := by
  induction v with
  | object fields ih =>
    intro u hfilled horderly
    obtain ⟨hne, hall⟩ := filled_object.mp hfilled
    obtain ⟨⟨name, c⟩, rest, rfl⟩ := List.exists_cons_of_ne_nil hne
    obtain ⟨hskip, hc⟩ := orderly_object.mp horderly (name, c) List.mem_cons_self
    obtain ⟨d, hd, hsome⟩ := ih (name, c) List.mem_cons_self _ (hall _ List.mem_cons_self) hc
    refine ⟨.field name :: d, .member List.mem_cons_self hskip hd, ?_⟩
    rw [get_cons, child_field, Json.field, lookup_cons, if_pos rfl]
    exact hsome
  | array items ih =>
    intro u hfilled horderly
    by_cases hnamed : items ≠ [] ∧ named items = true
    · obtain ⟨hne, hnamed⟩ := hnamed
      obtain ⟨i, rest, rfl⟩ := List.exists_cons_of_ne_nil hne
      obtain ⟨_, hitems⟩ := (orderly_array hne hnamed).mp horderly
      obtain ⟨d, hd, hsome⟩ := ih i List.mem_cons_self false
        ((filled_array hnamed).mp hfilled i List.mem_cons_self) (hitems i List.mem_cons_self)
      refine ⟨.keyed "name" (nameOf i) :: d, .item hnamed List.mem_cons_self hd, ?_⟩
      have hfirst : child (.array (i :: rest)) (.keyed "name" (nameOf i)) = some i := by
        rw [child_array]
        simp [findName, named_strAt hnamed List.mem_cons_self]
      rw [get_cons, hfirst]
      exact hsome
    · refine ⟨[], .whole rfl ?_, rfl⟩
      rintro _ he hne
      injection he with he
      subst he
      exact Bool.eq_false_iff.mpr fun hall => hnamed ⟨hne, hall⟩
  | _ =>
    intro u _ _
    exact ⟨[], .whole rfl (by simp), rfl⟩

/-! ## Rebuilding a value -/

/-- What the writes of a value may start from: members the value has anyway, or an
empty object for what becomes one. -/
def Ground (u : Bool) : Json → Json → Prop
  | .object fields, base => ∃ start, base = .object start ∧ KeysSorted start ∧
      (u = true → lookup managedFields start = none) ∧
      (∀ name b, lookup name start = some b → ∃ c, lookup name fields = some c ∧
        (b = c ∧ c.asString.isSome ∨ b = .object [] ∧ c.isObject = true)) ∧
      ∀ name c, lookup name fields = some c → filled c = true ∨
        lookup name start = some (.object []) ∧
          ∃ members, c = .object members ∧ ∀ e ∈ members, filled e.2 = true
  | .array items, base => base = .array [] ∧ filled (.array items) = true
  | _, _ => True

theorem ground_empty {members : List (String × Json)} (h : ∀ e ∈ members, filled e.2 = true) :
    Ground u (.object members) (.object []) := by
  refine ⟨[], rfl, List.Pairwise.nil, fun _ => rfl, ?_, ?_⟩
  · intro name b hb
    cases hb
  · intro name c hc
    exact Or.inl (h (name, c) (mem_of_lookup hc))

theorem ground_container {c : Json} (h : filled c = true) : Ground u c (container c) := by
  cases c with
  | object members => exact ground_empty (filled_object.mp h).2
  | array items => exact ⟨rfl, h⟩
  | _ => trivial

/-- The writes of a value make it again exactly if it is orderly. -/
def Rebuilds (v : Json) : Prop := ∀ u ds base, Sorted ds → (∀ p, p ∈ ds ↔ Declares u v p) →
  v.sorted = true → Ground u v base → (writes v ds base = .ok v ↔ orderly u v = true)

theorem map_some_eq_iff {x : Outcome Json} {v : Json} : x.map some = .ok (some v) ↔ x = .ok v := by
  cases x <;> simp [Except.map]

theorem fills_rebuild_some {c b : Json} (ih : Rebuilds c) (hds : Sorted ds)
    (hmem : ∀ p, p ∈ ds ↔ Declares u c p) (hc : c.sorted = true) (hb : Ground u c b) :
    fills s c ds (some b) = .ok (some c) ↔ orderly u c = true := by
  rw [fills_some, map_some_eq_iff]
  exact ih u ds b hds hmem hc hb

theorem fills_rebuild_none {c x : Json} (ih : Rebuilds c) (hds : Sorted ds)
    (hmem : ∀ p, p ∈ ds ↔ Declares u c p) (hc : c.sorted = true) (hfilled : filled c = true)
    (hx : ∀ d, Declares u c d → write c (fresh s d) d = write c x d) (hground : Ground u c x) :
    fills s c ds none = .ok (some c) ↔ orderly u c = true := by
  by_cases hsome : ∃ d ∈ ds, (get c d).isSome
  · rw [fills_none hsome fun d hd _ => hx d ((hmem d).mp hd), map_some_eq_iff]
    exact ih u ds x hds hmem hc hground
  · have hnone : fills s c ds none = .ok none := by
      apply fills_of_none
      intro d hd
      by_contra hvalue
      exact hsome ⟨d, hd, Option.isSome_iff_ne_none.mpr hvalue⟩
    rw [hnone]
    constructor
    · intro h
      cases h
    · intro horderly
      obtain ⟨d, hd, hvalue⟩ := leaf_exists c u hfilled horderly
      exact absurd ⟨d, (hmem d).mpr hd, hvalue⟩ hsome

theorem declares_object {fields : List (String × Json)} (hfields : KeysSorted fields)
    {name : String} {c : Json} (hc : lookup name fields = some c) {q : Path} :
    Declares u (.object fields) (.field name :: q) ↔
      ¬ (u = true ∧ name = managedFields) ∧ Declares (name = "metadata") c q := by
  constructor
  · intro h
    cases h with
    | @member _ _ _ value _ hmem hskip hd =>
      have hvalue : lookup name fields = some value := lookup_of_mem hfields hmem
      rw [Option.some.inj (hc.symm.trans hvalue)]
      exact ⟨hskip, hd⟩
  · rintro ⟨hskip, hd⟩
    exact .member (mem_of_lookup hc) hskip hd

theorem field_of_declares {fields : List (String × Json)} {d : Path}
    (h : Declares u (.object fields) d) : ∃ name q, d = .field name :: q := by
  cases h with
  | member => exact ⟨_, _, rfl⟩
  | whole hobject => cases hobject

/-- An object is made again if each of its members is. -/
theorem rebuilds_object {fields : List (String × Json)} (ih : ∀ e ∈ fields, Rebuilds e.2) :
    Rebuilds (.object fields) := by
  rintro u ds _ hds hmem hsorted ⟨start, rfl, hstart, hrecords, hmembers, hfill⟩
  obtain ⟨hkeys, hvalues⟩ := Json.sorted_object.mp hsorted
  have hpaths : ∀ d ∈ ds, ∃ name q, d = .field name :: q :=
    fun d hd => field_of_declares ((hmem d).mp hd)
  have hapart : ∀ name, ∀ d ∈ ds, ∃ t q, d = t :: q ∧
      (t = .field name ∨ t.Apart (.field name)) := by
    intro name d hd
    obtain ⟨other, q, rfl⟩ := hpaths d hd
    refine ⟨_, q, rfl, ?_⟩
    by_cases hname : other = name
    · exact Or.inl (by rw [hname])
    · exact Or.inr hname
  -- Each member not skipped is rebuilt exactly if it is orderly.
  have hmember : ∀ name c, lookup name fields = some c → ¬ (u = true ∧ name = managedFields) →
      (fills (.field name) c (tails (.field name) ds) (lookup name start) = .ok (some c) ↔
        orderly (name = "metadata") c = true) := by
    intro name c hc hskip
    have htails : ∀ p, p ∈ tails (.field name) ds ↔ Declares (name = "metadata") c p := by
      intro p
      rw [mem_tails, hmem, declares_object hkeys hc]
      exact and_iff_right hskip
    have hih := ih (name, c) (mem_of_lookup hc)
    have hvalue := hvalues (name, c) (mem_of_lookup hc)
    cases hb : lookup name start with
    | none =>
      rcases hfill name c hc with hfilled | ⟨hempty, _⟩
      · exact fills_rebuild_none hih (hds.tails _) htails hvalue hfilled
          (fun d hd => write_container hd name) (ground_container hfilled)
      · rw [hb] at hempty
        cases hempty
    | some b =>
      apply fills_rebuild_some hih (hds.tails _) htails hvalue
      obtain ⟨c', hc', hcase⟩ := hmembers name b hb
      obtain rfl := Option.some.inj (hc.symm.trans hc')
      rcases hcase with ⟨_, hstring⟩ | ⟨rfl, hobject⟩
      · cases c with
        | string value => trivial
        | _ => cases hstring
      · obtain ⟨members, rfl⟩ := Json.isObject_iff.mp hobject
        apply ground_empty
        rcases hfill name _ hc with hfilled | ⟨_, others, he, hall⟩
        · exact (filled_object.mp hfilled).2
        · injection he with he
          rwa [he]
  rw [orderly_object]
  constructor
  · intro h e he
    have hc := lookup_of_mem hkeys he
    by_cases hskip : u = true ∧ e.1 = managedFields
    · -- Records under `metadata` are never declared, so they are lost.
      have htails : ∀ d ∈ tails (.field e.1) ds, get e.2 d = none := by
        intro d hd
        rw [mem_tails, hmem, declares_object hkeys hc] at hd
        exact absurd hskip hd.1
      have hread := writes_child h (hapart e.1) hc
      rw [fills_of_none htails] at hread
      have hlost : lookup e.1 start = some e.2 := (Except.ok.inj hread).trans hc
      rw [hskip.2, hrecords hskip.1] at hlost
      cases hlost
    · refine ⟨hskip, (hmember e.1 e.2 hc hskip).mp ?_⟩
      have hread := writes_child h (hapart e.1) hc
      rwa [child_field, child_field, Json.field, Json.field, hc] at hread
  · intro h
    apply writes_object_eq hpaths hstart hkeys
    · intro name c hc
      obtain ⟨hskip, horderly⟩ := h (name, c) (mem_of_lookup hc)
      have hc' : lookup name fields = some c := hc
      rw [hc']
      exact (hmember name c hc hskip).mpr horderly
    · intro name hnone
      have hnone' : lookup name fields = none := hnone
      rw [hnone']
      cases hb : lookup name start with
      | none => rfl
      | some b =>
        obtain ⟨c, hc, _⟩ := hmembers name b hb
        rw [hnone'] at hc
        cases hc

/-- A new list item starts from its name. -/
theorem ground_named {i : Json} {n : String} (hname : i.strAt "name" = some n)
    (h : filled i = true) : Ground false i (.object [("name", .string n)]) := by
  have hfield := Json.strAt_eq_some.mp hname
  cases i with
  | object fields =>
    refine ⟨_, rfl, List.pairwise_singleton _ _, ?_, ?_, ?_⟩
    · intro hu
      cases hu
    · intro name b hb
      rw [lookup_cons] at hb
      split_ifs at hb with he
      · subst he
        exact ⟨.string n, hfield, Or.inl ⟨(Option.some.inj hb).symm, rfl⟩⟩
      · cases hb
    · intro name c hc
      exact Or.inl ((filled_object.mp h).2 (name, c) (mem_of_lookup hc))
  | _ => cases hfield

theorem item_of_declares {items : List Json} (hnamed : items ≠ [] ∧ named items = true) {d : Path}
    (h : Declares u (.array items) d) : ∃ n q, d = .keyed "name" n :: q := by
  cases h with
  | item => exact ⟨_, _, rfl⟩
  | whole _ hwhole =>
    rw [hwhole items rfl hnamed.1] at hnamed
    cases hnamed.2

theorem declares_array {items : List Json} (hnamed : named items = true)
    (hitems : Ascending nameOf items) {i : Json} (hi : i ∈ items) {q : Path} :
    Declares u (.array items) (.keyed "name" (nameOf i) :: q) ↔ Declares false i q := by
  constructor
  · intro h
    generalize hd : Segment.keyed "name" (nameOf i) :: q = d at h
    cases h with
    | @item _ _ k p _ hk hkd =>
      injection hd with hs hq
      injection hs with _ hname
      rw [hitems.eq_of_key hi hk hname, hq]
      exact hkd
    | whole => cases hd
  · exact fun h => .item hnamed hi h

/-- A named list is made again if its items are and its names ascend. -/
theorem rebuilds_array {items : List Json} (ih : ∀ j ∈ items, Rebuilds j) :
    Rebuilds (.array items) := by
  intro u ds base hds hmem hsorted hground
  by_cases hnamed : items ≠ [] ∧ named items = true
  · obtain ⟨rfl, hfilled⟩ := hground
    have hitem := Json.sorted_array.mp hsorted
    have hpaths : ∀ d ∈ ds, ∃ n q, d = .keyed "name" n :: q :=
      fun d hd => item_of_declares hnamed ((hmem d).mp hd)
    have hmember : Ascending nameOf items → ∀ i ∈ items,
        (fills (.keyed "name" (nameOf i)) i (tails (.keyed "name" (nameOf i)) ds) none =
          .ok (some i) ↔ orderly false i = true) := by
      intro hascending i hi
      have hname := named_strAt hnamed.2 hi
      have hi' := (filled_array hnamed.2).mp hfilled i hi
      apply fills_rebuild_none (ih i hi) (hds.tails _) _ (hitem i hi) hi' (fun d _ => rfl)
        (ground_named hname hi')
      intro p
      rw [mem_tails, hmem, declares_array hnamed.2 hascending hi]
    rw [orderly_array hnamed.1 hnamed.2]
    constructor
    · intro h
      obtain ⟨kept, new, he, hkept, hnew, _⟩ := @writes_array_shape _ ds [] [] [] _ hpaths hds h
        (Alike.refl [] []) List.Pairwise.nil (by simp) (by simp)
      injection he with he
      cases hkept
      rw [List.nil_append] at he
      rw [← he] at hnew
      refine ⟨hnew, fun i hi => (hmember hnew i hi).mp ?_⟩
      have hfind := findName_of_ascending hnew hi (named_strAt hnamed.2 hi)
      have hapart : ∀ d ∈ ds, ∃ t q, d = t :: q ∧
          (t = .keyed "name" (nameOf i) ∨ t.Apart (.keyed "name" (nameOf i))) := by
        intro d hd
        obtain ⟨m, q, rfl⟩ := hpaths d hd
        refine ⟨_, q, rfl, ?_⟩
        by_cases hmi : m = nameOf i
        · exact Or.inl (by rw [hmi])
        · exact Or.inr ⟨rfl, hmi⟩
      have hread := writes_child h hapart hfind
      rwa [child_array, child_array, hfind] at hread
    · rintro ⟨hascending, horderly⟩
      apply @writes_array_eq _ ds [] [] items hpaths hds .nil hascending
      · exact fun i hi => ⟨named_strAt hnamed.2 hi, rfl⟩
      · intro n i hi
        obtain ⟨hi', hname⟩ := findName_mem hi
        obtain rfl := nameOf_eq hname
        have hfind : findName (nameOf i) items = some i := hi
        rw [List.nil_append, hfind]
        exact (hmember hascending i hi').mpr (horderly i hi')
      · intro n hn
        have hfind : findName n items = none := hn
        rw [List.nil_append, hfind]
        rfl
  · have hunnamed : ∀ others, Json.array items = .array others → others ≠ [] →
        named others = false := by
      intro others he hne
      injection he with he
      subst he
      exact Bool.eq_false_iff.mpr fun hall => hnamed ⟨hne, hall⟩
    rw [writes_leaf rfl hunnamed hds hmem base, orderly, if_neg hnamed]
    simp

/-- Writing the leaves of a value makes it again exactly if it is orderly. -/
theorem rebuilds (v : Json) : Rebuilds v := by
  induction v with
  | object fields ih => exact rebuilds_object ih
  | array items ih => exact rebuilds_array ih
  | _ =>
    intro u ds base hds hmem _ _
    rw [writes_leaf rfl (by simp) hds hmem base]
    simp [orderly]

/-! ## The first apply of a name -/

variable {text : JsonText} {time : String} {applied desired merged result : Json}
  {options : Options}

theorem claims_nil (stored : Json) (ds : List Path) :
    ds.foldlM (claim stored desired options) [] = .ok [] := by
  induction ds with
  | nil => rfl
  | cons d ds ih =>
    rw [List.foldlM_cons]
    exact ih

theorem sorted_desired (h : dropBookkeeping applied = .ok desired)
    (hmetadata : (applied.field "metadata").any Json.isObject = true)
    (hsorted : applied.sorted = true) : desired.sorted = true := by
  obtain ⟨fields, metadata, rfl, hm, rfl⟩ := dropBookkeeping_object h hmetadata
  obtain ⟨hkeys, hvalues⟩ := Json.sorted_object.mp hsorted
  obtain ⟨hmkeys, hmvalues⟩ := Json.sorted_object.mp (hvalues _ (mem_of_lookup hm))
  apply Json.sorted_object.mpr ⟨hkeys.insertKey, _⟩
  intro e he
  rcases mem_insertKey he with he | rfl
  · exact hvalues e he
  · apply Json.sorted_object.mpr
    constructor
    · exact (((hmkeys.filter _).filter _).filter _).filter _
    · intro e he
      exact hmvalues e (List.mem_of_mem_filter (List.mem_of_mem_filter (List.mem_of_mem_filter
        (List.mem_of_mem_filter he))))

theorem nothing_eq (hversion : (applied.strAt "apiVersion").isSome)
    (hkind : (applied.strAt "kind").isSome) : ∃ version kind,
      applied.field "apiVersion" = some (.string version) ∧
        applied.field "kind" = some (.string kind) ∧
          nothing applied = .object [("apiVersion", .string version), ("kind", .string kind),
            ("metadata", .object [])] := by
  obtain ⟨version, hv⟩ := Option.isSome_iff_exists.mp hversion
  obtain ⟨kind, hk⟩ := Option.isSome_iff_exists.mp hkind
  rw [Json.strAt_eq_some] at hv hk
  refine ⟨version, kind, hv, hk, ?_⟩
  rw [nothing, hv, hk]
  rfl

theorem prune_nothing (hversion : (applied.strAt "apiVersion").isSome)
    (hkind : (applied.strAt "kind").isSome) : prune (nothing applied) = nothing applied := by
  obtain ⟨version, kind, _, _, hread⟩ := nothing_eq hversion hkind
  rw [hread]
  rfl

/-- An API object may start from its version, its kind and empty metadata. -/
theorem ground_nothing (h : dropBookkeeping applied = .ok desired)
    (hfilled : filled applied = true) (hversion : (applied.strAt "apiVersion").isSome)
    (hkind : (applied.strAt "kind").isSome)
    (hmetadata : (applied.field "metadata").any Json.isObject = true) :
    Ground false desired (nothing applied) := by
  obtain ⟨version, kind, hv, hk, hread⟩ := nothing_eq hversion hkind
  obtain ⟨fields, metadata, rfl, hm, rfl⟩ := dropBookkeeping_object h hmetadata
  have hvalues := (filled_object.mp hfilled).2
  have hv' : lookup "apiVersion" fields = some (.string version) := hv
  have hk' : lookup "kind" fields = some (.string kind) := hk
  refine ⟨_, hread, ?_, ?_, ?_, ?_⟩
  · have hkeys : ["apiVersion", "kind", "metadata"].Pairwise (· < ·) := by decide +kernel
    exact List.pairwise_map.mp hkeys
  · intro hu
    cases hu
  · intro name b hb
    simp only [lookup_cons] at hb
    split_ifs at hb with hname hname hname
    · subst hname
      refine ⟨.string version, ?_, Or.inl ⟨(Option.some.inj hb).symm, rfl⟩⟩
      rw [lookup_insertKey_ne (by decide +kernel), hv']
    · subst hname
      refine ⟨.string kind, ?_, Or.inl ⟨(Option.some.inj hb).symm, rfl⟩⟩
      rw [lookup_insertKey_ne (by decide +kernel), hk']
    · subst hname
      exact ⟨_, lookup_insertKey _ _ _, Or.inr ⟨(Option.some.inj hb).symm, rfl⟩⟩
    · cases hb
  · intro name c hc
    by_cases hname : name = "metadata"
    · subst hname
      rw [lookup_insertKey] at hc
      apply Or.inr
      refine ⟨by simp [lookup_cons], _, (Option.some.inj hc).symm, ?_⟩
      intro e he
      exact (filled_object.mp (hvalues _ (mem_of_lookup hm))).2 e (List.mem_of_mem_filter
        (List.mem_of_mem_filter (List.mem_of_mem_filter (List.mem_of_mem_filter he))))
    · rw [lookup_insertKey_ne hname] at hc
      exact Or.inl (hvalues (name, c) (mem_of_lookup hc))

/-- Where the applied metadata is an object, writes lead below it or past it. -/
theorem declared_metadata {fields metadata : List (String × Json)} (hfields : KeysSorted fields)
    (hm : lookup "metadata" fields = some (.object metadata)) {d : Path}
    (hd : d ∈ declared (.object fields)) :
    ∃ name q, d = .field name :: q ∧
      (name = "metadata" → ∃ other y, q = .field other :: y ∧ other ≠ managedFields) := by
  have hd := mem_declared.mp hd
  obtain ⟨name, q, rfl⟩ := field_of_declares hd
  refine ⟨name, q, rfl, ?_⟩
  rintro rfl
  obtain ⟨_, hbelow⟩ := (declares_object hfields hm).mp hd
  obtain ⟨other, y, rfl⟩ := field_of_declares hbelow
  refine ⟨other, y, rfl, ?_⟩
  rintro rfl
  cases hbelow with
  | member _ hskip _ => exact hskip ⟨by simp, rfl⟩

theorem settles_metadata {fields metadata : List (String × Json)} {j : Json}
    (hfields : KeysSorted fields) (hm : lookup "metadata" fields = some (.object metadata))
    (h : (declared (.object fields)).foldlM (settle (.object fields)) j = .ok merged)
    (hj : (j.field "metadata").any Json.isObject = true) :
    (merged.field "metadata").any Json.isObject = true := by
  apply settles_invariant (I := fun j => (j.field "metadata").any Json.isObject = true) _ h hj
  intro d hd _ k k' w _ hput hk
  obtain ⟨name, q, rfl, hbelow⟩ := declared_metadata hfields hm hd
  obtain ⟨others, current, rfl, hcurrent, rfl⟩ := put_field_ok hput
  by_cases hname : name = "metadata"
  · subst hname
    obtain ⟨other, y, rfl, _⟩ := hbelow rfl
    obtain ⟨m, hlookup, hobject⟩ := (Option.any_eq_true _ _).mp hk
    have hlookup' : lookup "metadata" others = some m := hlookup
    rw [hlookup', Option.getD_some] at hcurrent
    rw [Json.field, lookup_insertKey]
    exact isObject_put hobject hcurrent
  · rw [Json.field, lookup_insertKey_ne fun he => hname he.symm]
    exact hk

theorem settles_records {fields metadata : List (String × Json)} {j : Json}
    (hfields : KeysSorted fields) (hm : lookup "metadata" fields = some (.object metadata))
    (h : (declared (.object fields)).foldlM (settle (.object fields)) j = .ok merged)
    (hj : get j [.field "metadata", .field managedFields] = none) : unmanaged merged = merged := by
  apply remove_eq_self
  rw [get_settles_apart _ h, hj]
  intro d hd _
  obtain ⟨name, q, rfl, hbelow⟩ := declared_metadata hfields hm hd
  by_cases hname : name = "metadata"
  · subst hname
    obtain ⟨other, y, rfl, hother⟩ := hbelow rfl
    exact Or.inr ⟨rfl, Or.inl hother⟩
  · exact Or.inl hname

theorem record_object {managed : List Json}
    (h : (merged.field "metadata").any Json.isObject = true) :
    ∃ result, record merged managed = .ok result := by
  obtain ⟨fields, metadata, rfl, hm⟩ := metadata_object h
  unfold record
  split_ifs
  · exact ⟨_, rfl⟩
  · change ∃ result, (assign _ managedFields _ >>= fun m => assign _ "metadata" m) = .ok result
    have hread : (Json.object fields).field "metadata" = some (.object metadata) := hm
    rw [hread]
    exact ⟨_, rfl⟩

/-- Applying to nothing stores what was applied, the bookkeeping aside, exactly if its
named lists are in the order of their names and no `metadata` inside has records. -/
theorem apply_to_nothing (hsorted : applied.sorted = true) (hfilled : filled applied = true)
    (hversion : (applied.strAt "apiVersion").isSome) (hkind : (applied.strAt "kind").isSome)
    (hmetadata : (applied.field "metadata").any Json.isObject = true) :
    ∃ desired, dropBookkeeping applied = .ok desired ∧
      ((∃ result, serverSide text time (nothing applied) applied options = .ok result ∧
        unmanaged result = desired) ↔ orderly false desired = true) := by
  obtain ⟨desired, hdesired⟩ : ∃ desired, dropBookkeeping applied = .ok desired := by
    obtain ⟨fields, metadata, rfl, hm⟩ := metadata_object hmetadata
    unfold dropBookkeeping
    simp only [hm]
    exact ⟨_, rfl⟩
  refine ⟨desired, hdesired, ?_⟩
  have hground := ground_nothing hdesired hfilled hversion hkind hmetadata
  have hsorted' := sorted_desired hdesired hmetadata hsorted
  obtain ⟨fields, metadata, rfl, hm, rfl⟩ := dropBookkeeping_object hdesired hmetadata
  have hkeys := (Json.sorted_object.mp hsorted').1
  have hlookup := lookup_insertKey "metadata" (Json.object (eraseKey "creationTimestamp"
    (eraseKey "uid" (eraseKey "resourceVersion" (eraseKey managedFields metadata))))) fields
  generalize insertKey "metadata" _ fields = kept at *
  have hwrites : (declared (.object kept)).foldlM (settle (.object kept))
      (nothing (.object fields)) = writes (.object kept) (declared (.object kept))
        (nothing (.object fields)) := settles_eq_writes (nil_not_declared hdesired)
  have hentries : entries text (nothing (.object fields)) = [] := rfl
  have hpruned := prune_nothing hversion hkind
  have hrebuilds := rebuilds (.object kept) false _ _ (sorted_declared (.object kept))
    (fun p => mem_declared) hsorted' hground
  rw [← hrebuilds, ← hwrites]
  constructor
  · rintro ⟨result, hresult, hsame⟩
    obtain ⟨_, existing, merged, hdesired', _, hmerged, hrecord⟩ := serverSide_passes.mp hresult
    obtain rfl := Except.ok.inj (hdesired.symm.trans hdesired')
    change (declared (.object kept)).foldlM _ (prune (nothing (.object fields))) = _ at hmerged
    rw [hpruned] at hmerged
    rw [hmerged, ← hsame, record_unmanaged hrecord (settles_metadata hkeys hlookup hmerged rfl),
      settles_records hkeys hlookup hmerged rfl]
  · intro hmerged
    obtain ⟨result, hrecord⟩ := @record_object _ ((owners [] (applierEntry options
      (.object kept))).map (entryValue text time)) (settles_metadata hkeys hlookup hmerged rfl)
    refine ⟨result, serverSide_passes.mpr ⟨_, _, _, hdesired, claims_nil _ _, ?_, hrecord⟩, ?_⟩
    · change (declared (.object kept)).foldlM _ (prune (nothing (.object fields))) = _
      rw [hpruned, hmerged]
    · rw [record_unmanaged hrecord (settles_metadata hkeys hlookup hmerged rfl)]
      exact unmanaged_desired hdesired

/-- A Pod whose init containers are to run in the given order. -/
def podOf (initContainers : List String) : Json :=
  .object [("apiVersion", .string "v1"), ("kind", .string "Pod"),
    ("metadata", .object [("name", .string "web")]),
    ("spec", .object [("initContainers", .array (initContainers.map fun name =>
      .object [("image", .string "tool:v1"), ("name", .string name)]))])]

/-- A Pod whose init containers are in the order of their names is stored as applied. -/
theorem ordered_pod_stored : ∃ desired, dropBookkeeping (podOf ["fetch", "setup"]) = .ok desired ∧
    ∃ result, serverSide keyText "now" (nothing (podOf ["fetch", "setup"]))
      (podOf ["fetch", "setup"]) ⟨"a", false⟩ = .ok result ∧ unmanaged result = desired := by
  obtain ⟨desired, hdesired, hstored⟩ := @apply_to_nothing keyText "now" (podOf ["fetch", "setup"])
    ⟨"a", false⟩ (by decide +kernel) (by decide +kernel) (by decide +kernel) (by decide +kernel)
      (by decide +kernel)
  have hkept : dropBookkeeping (podOf ["fetch", "setup"]) = .ok (podOf ["fetch", "setup"]) := by
    decide +kernel
  obtain rfl := Except.ok.inj (hkept.symm.trans hdesired)
  exact ⟨_, hdesired, hstored.mpr (by decide +kernel)⟩

/-- In any other order, the init containers are stored in the order of their names. -/
theorem unordered_pod_sorted : ¬ ∀ (text : JsonText) (time : String) (applied : Json)
    (options : Options), applied.sorted = true → filled applied = true →
      (applied.strAt "apiVersion").isSome → (applied.strAt "kind").isSome →
        (applied.field "metadata").any Json.isObject = true →
          ∃ desired, dropBookkeeping applied = .ok desired ∧
            ∃ result, serverSide text time (nothing applied) applied options = .ok result ∧
              unmanaged result = desired := by
  intro h
  obtain ⟨desired, hdesired, result, hresult, hsame⟩ := h keyText "now" (podOf ["setup", "fetch"])
    ⟨"a", false⟩ (by decide +kernel) (by decide +kernel) (by decide +kernel) (by decide +kernel)
      (by decide +kernel)
  have hrun : (serverSide keyText "now" (nothing (podOf ["setup", "fetch"]))
      (podOf ["setup", "fetch"]) ⟨"a", false⟩).map unmanaged = .ok (podOf ["fetch", "setup"]) := by
    decide +kernel
  have hkept : dropBookkeeping (podOf ["setup", "fetch"]) = .ok (podOf ["setup", "fetch"]) := by
    decide +kernel
  rw [hresult] at hrun
  rw [Except.ok.inj hrun] at hsame
  rw [hkept, ← hsame] at hdesired
  revert hdesired
  decide +kernel

end Hedronetes.Apply
