import Hedronetes.Patch.Ordering
import Hedronetes.Patch.Prices

/-!
# Merging keyed lists

A keyed list is merged by the identities of its items: what a patch deletes goes, what it names is
merged or added, and everything else stays as it was, in its order.
-/

namespace Hedronetes.Strategic

open FirstMatch StableSort Effects Apply Server

variable {schemas schema original value item id : Json} {key name : String} {levels : ℕ}
  {budget left : ℕ} {patch result next : Fields}

theorem identity_ok : identity (some key) value = .ok id ↔
    value.field key = some id ∧ isScalar id = true := by
  unfold identity
  cases hfield : value.field key with
  | none => simp [hfield, bind, Except.bind]
  | some found =>
    simp only [hfield, bind, Except.bind, Option.some.injEq]
    by_cases hscalar : isScalar found = true
    · rw [if_pos hscalar, Except.ok.injEq]
      constructor
      · rintro rfl
        exact ⟨rfl, hscalar⟩
      · intro h
        exact h.1
    · rw [if_neg hscalar]
      constructor
      · intro h
        cases h
      · rintro ⟨rfl, h⟩
        exact absurd h hscalar

theorem expectList_scalar {message : String} {items : List Json} (hscalar : isScalar id = true) :
    expectList id message ≠ .ok items := by
  cases id <;> simp_all [isScalar, expectList, Json.asArray]

theorem scalar_ne_null (hscalar : isScalar id = true) : id ≠ .null := by
  rintro rfl
  cases hscalar

/-! ## A merged item keeps its key -/

/-- A scalar of the patch takes the place of whatever was there. -/
theorem merge_scalar (hscalar : isScalar id = true)
    (h : merge schemas levels original id schema budget = .ok value left) : value = id := by
  cases levels with
  | zero =>
    obtain ⟨_, h⟩ := Budgets.spend_bind_ok.mp h
    exact absurd h throw_ne_ok
  | succ levels =>
    obtain ⟨_, h⟩ := Budgets.spend_bind_ok.mp h
    cases id with
    | bool _ => exact (pure_eq_ok.mp h).1.symm
    | number _ => exact (pure_eq_ok.mp h).1.symm
    | string _ => exact (pure_eq_ok.mp h).1.symm
    | null => cases hscalar
    | array _ => cases hscalar
    | object _ => cases hscalar

theorem retainKeys_lookup (h : retainKeys patch result budget = .ok next left)
    (hmem : (key, id) ∈ patch) (hplain : isDirective key = false) (hscalar : isScalar id = true) :
    lookup key next = lookup key result := by
  unfold retainKeys at h
  cases hretain : lookup "$retainKeys" patch with
  | none =>
    rw [hretain] at h
    rw [(pure_eq_ok.mp h).1]
  | some retain =>
    rw [hretain] at h
    obtain ⟨retain, _, h⟩ := ofExcept_bind_eq_ok.mp h
    obtain ⟨_, h⟩ := Budgets.spend_bind_ok.mp h
    obtain ⟨_, hrequired, h⟩ := ofExcept_bind_eq_ok.mp h
    have hall := require_ok.mp hrequired
    rw [Bool.and_eq_true, List.all_eq_true, List.all_eq_true] at hall
    have hkept := hall.2 _ hmem
    rw [← (pure_eq_ok.mp h).1]
    unfold lookup
    rw [find?_filter_eq]
    intro e he
    rw [decide_eq_true_eq] at he
    simpa [hplain, scalar_ne_null hscalar, he] using hkept

theorem mergeField_lookup {fresh : Json → Spending (Option Json)} {e : String × Json}
    (h : mergeField schemas (merge schemas levels) fresh schema result e budget = .ok next left)
    (hkey : e.1 = key → e.2 = id) (hscalar : isScalar id = true)
    (hlookup : lookup key result = some id) : lookup key next = some id := by
  have hother : ∀ v, e.1 ≠ key → lookup key (insertKey e.1 v (eraseKey e.1 result)) = some id := by
    intro v hne
    rw [lookup_insertKey_ne hne.symm, lookup_eraseKey_ne hne.symm, hlookup]
  have hnull := scalar_ne_null hscalar
  unfold mergeField at h
  by_cases he : e.1 = key
  · have hold : (lookup e.1 result).getD .null = id := by rw [he, hlookup]; rfl
    rw [hkey he, if_neg hnull] at h
    simp only [hold, if_neg hnull] at h
    obtain ⟨merged, _, hmerged, h⟩ := bind_eq_ok.mp h
    rw [← (pure_eq_ok.mp h).1, he, lookup_insertKey, merge_scalar hscalar hmerged]
  · split_ifs at h
    · rw [← (pure_eq_ok.mp h).1, lookup_eraseKey_ne (Ne.symm he), hlookup]
    · dsimp only at h
      split_ifs at h
      · obtain ⟨made, _, _, h⟩ := bind_eq_ok.mp h
        cases made with
        | none => rw [← (pure_eq_ok.mp h).1, lookup_eraseKey_ne (Ne.symm he), hlookup]
        | some v =>
          rw [← (pure_eq_ok.mp h).1]
          exact hother v he
      · obtain ⟨merged, _, _, h⟩ := bind_eq_ok.mp h
        rw [← (pure_eq_ok.mp h).1]
        exact hother merged he

theorem deleteFromList_lookup {e : String × Json}
    (h : deleteFromList schemas schema result e budget = .ok next left)
    (hscalar : isScalar id = true) (hlookup : lookup key result = some id) :
    lookup key next = some id := by
  unfold deleteFromList at h
  by_cases hretain : e.1 = "$retainKeys"
  · rw [if_pos hretain] at h
    rw [← (pure_eq_ok.mp h).1, hlookup]
  rw [if_neg hretain] at h
  cases hname : stripStart "$deleteFromPrimitiveList/" e.1 with
  | none =>
    simp only [hname] at h
    split_ifs at h
    · rw [← (pure_eq_ok.mp h).1, hlookup]
    · exact absurd h throw_ne_ok
  | some name =>
    simp only [hname] at h
    obtain ⟨_, _, h⟩ := ofExcept_bind_eq_ok.mp h
    obtain ⟨removals, _, h⟩ := ofExcept_bind_eq_ok.mp h
    obtain ⟨_, _, h⟩ := ofExcept_bind_eq_ok.mp h
    cases hold : lookup name result with
    | none =>
      simp only [hold] at h
      rw [← (pure_eq_ok.mp h).1, hlookup]
    | some old =>
      simp only [hold] at h
      obtain ⟨items, hitems, h⟩ := ofExcept_bind_eq_ok.mp h
      obtain ⟨_, h⟩ := Budgets.spend_bind_ok.mp h
      have hne : key ≠ name := by
        rintro rfl
        obtain rfl := Option.some.inj (hlookup.symm.trans hold)
        exact expectList_scalar hscalar hitems
      rw [← (pure_eq_ok.mp h).1, lookup_insertKey_ne hne, hlookup]

theorem orderList_lookup {e : String × Json}
    (h : orderList schemas original patch schema result e budget = .ok next left)
    (hscalar : isScalar id = true) (hlookup : lookup key result = some id) :
    lookup key next = some id := by
  unfold orderList at h
  cases hname : stripStart "$setElementOrder/" e.1 with
  | none =>
    rw [hname] at h
    rw [← (pure_eq_ok.mp h).1, hlookup]
  | some name =>
    simp only [hname] at h
    obtain ⟨_, _, h⟩ := ofExcept_bind_eq_ok.mp h
    obtain ⟨order, _, h⟩ := ofExcept_bind_eq_ok.mp h
    obtain ⟨_, _, h⟩ := ofExcept_bind_eq_ok.mp h
    obtain ⟨_, _, _, h⟩ := bind_eq_ok.mp h
    cases hold : lookup name result with
    | none =>
      simp only [hold] at h
      rw [← (pure_eq_ok.mp h).1, hlookup]
    | some old =>
      simp only [hold] at h
      obtain ⟨items, hitems, h⟩ := ofExcept_bind_eq_ok.mp h
      obtain ⟨ordered, _, _, h⟩ := bind_eq_ok.mp h
      have hne : key ≠ name := by
        rintro rfl
        obtain rfl := Option.some.inj (hlookup.symm.trans hold)
        exact expectList_scalar hscalar hitems
      rw [← (pure_eq_ok.mp h).1, lookup_insertKey_ne hne, lookup_eraseKey_ne hne, hlookup]

theorem retainKeys_not_scalar (h : retainKeys patch result budget = .ok next left)
    (hmem : lookup "$retainKeys" patch = some id) : ¬ isScalar id = true := by
  intro hscalar
  unfold retainKeys at h
  rw [hmem] at h
  obtain ⟨retain, hretain, _⟩ := ofExcept_bind_eq_ok.mp h
  exact expectList_scalar hscalar hretain

theorem deleteFromList_scalar
    (h : deleteFromList schemas schema result (key, id) budget = .ok next left)
    (hscalar : isScalar id = true) :
    key = "$retainKeys" ∨ (stripStart "$setElementOrder/" key).isSome := by
  unfold deleteFromList at h
  by_cases hretain : key = "$retainKeys"
  · exact Or.inl hretain
  apply Or.inr
  rw [if_neg hretain] at h
  cases hname : stripStart "$deleteFromPrimitiveList/" key with
  | none =>
    simp only [hname] at h
    split_ifs at h with horder
    · exact horder
    · exact absurd h throw_ne_ok
  | some name =>
    simp only [hname] at h
    obtain ⟨_, _, h⟩ := ofExcept_bind_eq_ok.mp h
    obtain ⟨removals, hremovals, _⟩ := ofExcept_bind_eq_ok.mp h
    exact absurd hremovals (expectList_scalar hscalar)

theorem orderList_not_scalar
    (h : orderList schemas original patch schema result (key, id) budget = .ok next left)
    (horder : (stripStart "$setElementOrder/" key).isSome) : ¬ isScalar id = true := by
  intro hscalar
  obtain ⟨name, hname⟩ := Option.isSome_iff_exists.mp horder
  unfold orderList at h
  simp only [hname] at h
  obtain ⟨_, _, h⟩ := ofExcept_bind_eq_ok.mp h
  obtain ⟨order, hlist, _⟩ := ofExcept_bind_eq_ok.mp h
  exact expectList_scalar hscalar hlist

/-- The stages of a merge into an object. -/
theorem map_ok {merge : Json → Json → Json → Spending Json} {fresh : Json → Spending (Option Json)}
    (hpatch : lookup "$patch" patch = none)
    (h : map schemas merge fresh original patch schema budget = .ok value left) :
    ∃ retained merged deleted final b₁ b₂ b₃,
      retainKeys patch (original.asObject.getD []) budget = .ok retained b₁ ∧
      (patch.filter fun e => !isDirective e.1).foldlM (mergeField schemas merge fresh schema)
        retained b₁ = .ok merged b₂ ∧
      (patch.filter fun e => isDirective e.1).foldlM (deleteFromList schemas schema)
        merged b₂ = .ok deleted b₃ ∧
      (patch.filter fun e => isDirective e.1).foldlM (orderList schemas original patch schema)
        deleted b₃ = .ok final left ∧
      value = .object final := by
  unfold map at h
  rw [hpatch] at h
  obtain ⟨retained, b₁, hretained, h⟩ := bind_eq_ok.mp h
  obtain ⟨merged, b₂, hmerged, h⟩ := bind_eq_ok.mp h
  obtain ⟨deleted, b₃, hdeleted, h⟩ := bind_eq_ok.mp h
  obtain ⟨final, b₄, hfinal, h⟩ := bind_eq_ok.mp h
  obtain ⟨hvalue, rfl⟩ := pure_eq_ok.mp h
  exact ⟨retained, merged, deleted, final, b₁, b₂, b₃, hretained, hmerged, hdeleted, hfinal,
    hvalue.symm⟩

/-- The merge of two items of one identity has this identity: a directive that would touch the
key needs a list there. -/
theorem merge_identity {old : Json} (hold : identity (some key) old = .ok id)
    (hitem : identity (some key) item = .ok id) (hsorted : item.keysSorted = true)
    (hplain : item.field "$patch" = none)
    (h : merge schemas levels old item schema budget = .ok value left) :
    identity (some key) value = .ok id := by
  obtain ⟨hfield, hscalar⟩ := identity_ok.mp hitem
  have holdField := (identity_ok.mp hold).1
  cases levels with
  | zero =>
    obtain ⟨_, h⟩ := Budgets.spend_bind_ok.mp h
    exact absurd h throw_ne_ok
  | succ levels =>
    obtain ⟨_, h⟩ := Budgets.spend_bind_ok.mp h
    obtain ⟨fields, rfl⟩ := Json.isObject_iff.mp (Json.isObject_of_field hfield)
    obtain ⟨oldFields, rfl⟩ := Json.isObject_iff.mp (Json.isObject_of_field holdField)
    obtain ⟨retained, merged, deleted, final, b₁, b₂, b₃, hretained, hmerged, hdeleted, hfinal,
      rfl⟩ := map_ok hplain h
    have hmem : (key, id) ∈ fields := mem_of_lookup hfield
    have hname : isDirective key = false := by
      apply eq_false_of_ne_true
      intro hdirective
      have hin : (key, id) ∈ fields.filter fun e => isDirective e.1 :=
        List.mem_filter.mpr ⟨hmem, hdirective⟩
      obtain ⟨_, _, _, _, hdelete⟩ := foldlM_step hdeleted hin
      obtain ⟨_, _, _, _, horder⟩ := foldlM_step hfinal hin
      rcases deleteFromList_scalar hdelete hscalar with rfl | hstrip
      · exact retainKeys_not_scalar hretained hfield hscalar
      · exact orderList_not_scalar horder hstrip hscalar
    have hunique : ∀ e ∈ fields, e.1 = key → e.2 = id := by
      intro e he hkey
      have hfound := lookup_of_mem (of_decide_eq_true hsorted) he
      rw [hkey] at hfound
      exact Option.some.inj (hfound.symm.trans hfield)
    have hstart : lookup key retained = some id := by
      rw [retainKeys_lookup hretained hmem hname hscalar]
      exact holdField
    have hfields : lookup key merged = some id := by
      apply foldlM_invariant (I := fun r => lookup key r = some id) hmerged hstart
      intro e he r next s t hstep hr
      exact mergeField_lookup hstep (hunique e (List.mem_of_mem_filter he)) hscalar hr
    have hlists : lookup key deleted = some id := by
      apply foldlM_invariant (I := fun r => lookup key r = some id) hdeleted hfields
      intro e he r next s t hstep hr
      exact deleteFromList_lookup hstep hscalar hr
    apply identity_ok.mpr
    refine ⟨?_, hscalar⟩
    apply foldlM_invariant (I := fun r => lookup key r = some id) hfinal hlists
    intro e he r next s t hstep hr
    exact orderList_lookup hstep hscalar hr

/-! ## What a patch list says -/

/-- The identity of an item, if it has one. -/
def keyOf (key : String) (item : Json) : Option Json := (identity (some key) item).toOption

def keys (key : String) (items : List Json) : List Json := items.filterMap (keyOf key)

def ordinary (items : List Json) : List Json :=
  items.filter fun item => (item.field "$patch").isNone

/-- The items that delete. -/
def deletions (items : List Json) : List Json :=
  items.filter fun item => item.strAt "$patch" = some "delete"

def replaces (items : List Json) : Bool :=
  items.any fun item => item.strAt "$patch" = some "replace"

theorem keyOf_eq_some : keyOf key item = some id ↔ identity (some key) item = .ok id := by
  unfold keyOf
  cases identity (some key) item <;> simp [Except.toOption]

/-- The item has the identity of none of these. -/
def apartFrom (key : String) (items : List Json) (item : Json) : Bool :=
  (keyOf key item).all fun id => id ∉ keys key items

@[simp] theorem apartFrom_nil : apartFrom key [] = fun _ => true := by
  funext item
  cases hkey : keyOf key item <;> simp [apartFrom, keys, hkey]

theorem apartFrom_append {items others : List Json} : apartFrom key (items ++ others) item =
    (apartFrom key items item && apartFrom key others item) := by
  unfold apartFrom keys
  rw [List.filterMap_append]
  cases keyOf key item with
  | none => rfl
  | some id => simp

/-- One item of the patch: a directive or an ordinary item. -/
theorem readItem_ok {reading after : Reading} (h : readItem (some key) reading item = .ok after) :
    after.ordinary = reading.ordinary ++ ordinary [item] ∧
      after.replace = (reading.replace || replaces [item]) ∧
      after.result = reading.result.filter (apartFrom key (deletions [item])) ∧
      ∀ v ∈ ordinary [item], ∃ id, identity (some key) v = .ok id := by
  unfold readItem at h
  cases hdirective : item.field "$patch" with
  | none =>
    simp only [hdirective] at h
    obtain ⟨id, hid, h⟩ := Fallible.bind_eq_ok.mp h
    obtain rfl := Except.ok.inj h
    refine ⟨by simp [ordinary, hdirective], by simp [replaces, Json.strAt, hdirective], ?_, ?_⟩
    · simp [deletions, Json.strAt, hdirective]
    · intro v hv
      obtain rfl := List.mem_singleton.mp (List.mem_of_mem_filter hv)
      exact ⟨id, hid⟩
  | some directive =>
    have hnone : ordinary [item] = [] := by simp [ordinary, hdirective]
    have hstr : item.strAt "$patch" = directive.asString := by simp [Json.strAt, hdirective]
    simp only [hdirective, reduceCtorEq, if_false] at h
    split at h
    · rename_i hreplace
      obtain rfl := Except.ok.inj h
      refine ⟨by simp [hnone], by simp [replaces, hstr, hreplace], ?_, by simp [hnone]⟩
      simp [deletions, hstr, hreplace]
    · rename_i hdelete
      obtain ⟨id, hid, h⟩ := Fallible.bind_eq_ok.mp h
      obtain rfl := Except.ok.inj h
      refine ⟨by simp [hnone], by simp [replaces, hstr, hdelete], ?_, by simp [hnone]⟩
      apply List.filter_congr
      intro v _
      have hdeleted : keys key (deletions [item]) = [id] := by
        simp [deletions, keys, hstr, hdelete, keyOf_eq_some.mpr hid]
      unfold apartFrom
      rw [hdeleted]
      change decide (keyOf key v ≠ some id) = _
      cases hv : keyOf key v <;> simp
    · cases h

theorem readItems_ok {items : List Json} {reading after : Reading}
    (h : items.foldlM (readItem (some key)) reading = .ok after) :
    after.ordinary = reading.ordinary ++ ordinary items ∧
      after.replace = (reading.replace || replaces items) ∧
      after.result = reading.result.filter (apartFrom key (deletions items)) ∧
      ∀ v ∈ ordinary items, ∃ id, identity (some key) v = .ok id := by
  induction items generalizing reading with
  | nil =>
    obtain rfl := Except.ok.inj h
    simp [ordinary, replaces, deletions]
  | cons item items ih =>
    rw [List.foldlM_cons] at h
    obtain ⟨next, hnext, hrest⟩ := Fallible.bind_eq_ok.mp h
    obtain ⟨hordinary, hreplace, hresult, hids⟩ := readItem_ok hnext
    obtain ⟨hordinary', hreplace', hresult', hids'⟩ := ih hrest
    have hsplit : ordinary (item :: items) = ordinary [item] ++ ordinary items := by
      unfold ordinary
      rw [← List.filter_append]
      rfl
    refine ⟨?_, ?_, ?_, ?_⟩
    · rw [hordinary', hordinary, hsplit, List.append_assoc]
    · rw [hreplace', hreplace]
      simp [replaces, Bool.or_assoc]
    · rw [hresult', hresult, List.filter_filter]
      apply List.filter_congr
      intro v _
      rw [Bool.and_comm, ← apartFrom_append, deletions, deletions, ← List.filter_append]
      rfl
    · intro v hv
      rw [hsplit, List.mem_append] at hv
      rcases hv with hv | hv
      · exact hids v hv
      · exact hids' v hv

/-! ## Ordinary items one after the other -/

/-- The item is the one of this identity. -/
def isFor (key : String) (id item : Json) : Bool := keyOf key item = some id

theorem isFor_iff : isFor key id item = true ↔ keyOf key item = some id := decide_eq_true_iff

theorem mem_keys {items : List Json} : id ∈ keys key items ↔ ∃ item ∈ items, keyOf key item = some id :=
  List.mem_filterMap

theorem find?_isFor_eq_none {items : List Json} :
    items.find? (isFor key id) = none ↔ id ∉ keys key items := by
  rw [List.find?_eq_none, mem_keys]
  simp [isFor]

variable {items current final : List Json}

theorem mergeItem_ok {merge : Json → Json → Json → Spending Json} {after : List Json}
    (h : mergeItem merge (some key) schema current item budget = .ok after left) :
    ∃ id, keyOf key item = some id ∧
      ((∃ old merged, current.find? (isFor key id) = some old ∧
          merge old item schema budget = .ok merged left ∧
          after = updateFirst (isFor key id) (fun _ => merged) current) ∨
        current.find? (isFor key id) = none ∧ after = current ++ [item] ∧ left = budget) := by
  obtain ⟨id, hid, h⟩ := ofExcept_bind_eq_ok.mp h
  refine ⟨id, keyOf_eq_some.mpr hid, ?_⟩
  have hplace : (current.findIdx? fun v => (identity (some key) v).toOption = some id) =
      current.findIdx? (isFor key id) := rfl
  rw [hplace] at h
  cases hfound : current.findIdx? (isFor key id) with
  | none =>
    rw [hfound] at h
    obtain ⟨hafter, hleft⟩ := pure_eq_ok.mp h
    have hnone := List.findIdx?_eq_none_iff.mp hfound
    exact Or.inr ⟨List.find?_eq_none.mpr (by simpa using hnone), hafter.symm, hleft.symm⟩
  | some place =>
    simp only [hfound, Option.isSome_some, if_true] at h
    obtain ⟨merged, rest, hmerged, h⟩ := bind_eq_ok.mp h
    obtain ⟨hafter, rfl⟩ := pure_eq_ok.mp h
    obtain ⟨hset, hget⟩ := set_findIdx? hfound merged
    obtain ⟨hlt, hat, _⟩ := List.findIdx?_eq_some_iff_getElem.mp hfound
    have hold : current.find? (isFor key id) = some current[place] := by
      rw [← hget, List.getElem?_eq_getElem hlt]
    rw [List.getElem?_eq_getElem hlt] at hmerged
    exact Or.inl ⟨_, merged, hold, hmerged, by rw [← hafter, hset]⟩

/-- What a patch item can rely on: a key, sorted members and no directive. -/
def Plain (key : String) (item : Json) : Prop :=
  (∃ id, identity (some key) item = .ok id) ∧ item.keysSorted = true ∧ item.field "$patch" = none

/-- What the ordinary items make of the current ones, where `combines` is the merge of two items. -/
structure Merges (key : String) (combines : Json → Json → Json → Prop)
    (current items final : List Json) : Prop where
  nodup : (keys key final).Nodup
  mem_keys : ∀ id, id ∈ keys key final ↔ id ∈ keys key current ∨ id ∈ keys key items
  untouched : final.filter (apartFrom key items) = current.filter (apartFrom key items)
  combined : ∀ item ∈ items, ∀ id, keyOf key item = some id → (keys key items).count id = 1 →
    ∀ old, current.find? (isFor key id) = some old →
    ∃ merged, combines old item merged ∧ final.find? (isFor key id) = some merged

/-- An item that is not named is found as before. -/
theorem Merges.find? {combines : Json → Json → Json → Prop}
    (h : Merges key combines current items final) (hid : id ∉ keys key items) :
    final.find? (isFor key id) = current.find? (isFor key id) := by
  have hfor : ∀ v, isFor key id v = true → apartFrom key items v = true := by
    intro v hv
    rw [apartFrom, isFor_iff.mp hv]
    simpa using hid
  rw [← find?_filter_eq hfor, h.untouched, find?_filter_eq hfor]

variable {after : List Json}

/-- One ordinary item. -/
theorem mergeItem_merges (hplain : Plain key item) (hnodup : (keys key current).Nodup)
    (h : mergeItem (merge schemas levels) (some key) schema current item budget = .ok after left) :
    Merges key (fun old item merged => ∃ rest, merge schemas levels old item schema budget = .ok merged rest)
      current [item] after := by
  obtain ⟨id, hid, hstep⟩ := mergeItem_ok h
  have hkeys : keys key [item] = [id] := by simp [keys, hid]
  have hapart : ∀ v, isFor key id v = true → apartFrom key [item] v = false := by
    intro v hv
    rw [apartFrom, isFor_iff.mp hv, hkeys]
    simp
  have hfound : ∀ other old, keyOf key item = some other →
      current.find? (isFor key other) = some old → current.find? (isFor key id) = some old := by
    intro other old hother hold
    rwa [Option.some.inj (hid.symm.trans hother)]
  rcases hstep with ⟨old, merged, hold, hmerged, rfl⟩ | ⟨hnone, rfl, _⟩
  · have holdKey : keyOf key old = some id := isFor_iff.mp (List.find?_some hold)
    have hmergedKey : keyOf key merged = some id := keyOf_eq_some.mpr
      (merge_identity (keyOf_eq_some.mp holdKey) (keyOf_eq_some.mp hid) hplain.2.1 hplain.2.2 hmerged)
    have hsame : keys key (updateFirst (isFor key id) (fun _ => merged) current) =
        keys key current := by
      apply filterMap_updateFirst
      intro v hv
      rw [hmergedKey, isFor_iff.mp (List.find?_some hv)]
    have hmem : id ∈ keys key current := mem_keys.mpr ⟨old, List.mem_of_find?_eq_some hold, holdKey⟩
    constructor
    · rwa [hsame]
    · intro other
      rw [hsame, hkeys, List.mem_singleton]
      constructor
      · exact Or.inl
      · rintro (hother | rfl)
        · exact hother
        · exact hmem
    · apply filter_updateFirst_of_not
      intro v hv
      refine ⟨hapart v hv, hapart merged ?_⟩
      simp [isFor, hmergedKey]
    · intro x hx other hother _ old' hold'
      obtain rfl := List.mem_singleton.mp hx
      obtain rfl := Option.some.inj (hid.symm.trans hother)
      obtain rfl := Option.some.inj (hold.symm.trans hold')
      refine ⟨merged, ⟨left, hmerged⟩, ?_⟩
      rw [find?_updateFirst (fun _ _ => by simp [isFor, hmergedKey]), hold]
      rfl
  · have hnot := find?_isFor_eq_none.mp hnone
    have hsplit : keys key (current ++ [item]) = keys key current ++ [id] := by
      rw [keys, List.filterMap_append]
      exact congrArg _ hkeys
    constructor
    · rw [hsplit, List.nodup_append]
      simp only [List.mem_singleton]
      refine ⟨hnodup, List.nodup_singleton id, ?_⟩
      rintro a ha b rfl rfl
      exact hnot ha
    · intro other
      rw [hsplit, hkeys, List.mem_append]
    · rw [List.filter_append]
      simp [hapart item (by simp [isFor, hid])]
    · intro x hx other hother _ old' hold'
      obtain rfl := List.mem_singleton.mp hx
      obtain rfl := Option.some.inj (hid.symm.trans hother)
      rw [hnone] at hold'
      cases hold'

/-- One item and then the others. -/
theorem Merges.cons {combines : Json → Json → Json → Prop} {next : List Json}
    (hfirst : Merges key combines current [item] next) (hrest : Merges key combines next items final) :
    Merges key combines current (item :: items) final := by
  have hsplit : keys key (item :: items) = keys key [item] ++ keys key items := by
    rw [keys, keys, keys, ← List.filterMap_append]
    rfl
  have happart : apartFrom key (item :: items) =
      fun v => apartFrom key [item] v && apartFrom key items v := by
    funext v
    rw [← apartFrom_append]
    rfl
  constructor
  · exact hrest.nodup
  · intro id
    rw [hrest.mem_keys, hfirst.mem_keys, hsplit, List.mem_append, or_assoc]
  · rw [happart, ← List.filter_filter, ← List.filter_filter]
    have hcomm : ∀ l : List Json, (l.filter (apartFrom key items)).filter (apartFrom key [item]) =
        (l.filter (apartFrom key [item])).filter (apartFrom key items) := by
      intro l
      rw [List.filter_filter, List.filter_filter]
      exact List.filter_congr fun v _ => Bool.and_comm _ _
    rw [hrest.untouched, hcomm, hcomm, hfirst.untouched]
  · intro x hx id hid hcount old hold
    have hone : 0 < (keys key [x]).count id := by simp [keys, hid]
    rw [hsplit, List.count_append] at hcount
    rcases List.mem_cons.mp hx with rfl | hx
    · obtain ⟨merged, hcombines, hnext⟩ := hfirst.combined x (by simp) id hid
        (by simp [keys, hid]) old hold
      refine ⟨merged, hcombines, ?_⟩
      rw [hrest.find?, hnext]
      exact List.count_eq_zero.mp (by omega)
    · have hpos : 0 < (keys key items).count id :=
        List.count_pos_iff.mpr (Strategic.mem_keys.mpr ⟨x, hx, hid⟩)
      apply hrest.combined x hx id hid (by omega) old
      rw [hfirst.find? (List.count_eq_zero.mp (by omega)), hold]

/-- The merge of two items on a budget that suffices. -/
def Combines (schemas schema : Json) (levels budget : ℕ) (old item merged : Json) : Prop :=
  ∃ rest, merge schemas levels old item schema budget = .ok merged rest

theorem mergeItems_merges (hplain : ∀ item ∈ items, Plain key item)
    (hnodup : (keys key current).Nodup)
    (h : items.foldlM (mergeItem (merge schemas levels) (some key) schema) current budget =
      .ok final left) :
    Merges key (Combines schemas schema levels budget) current items final := by
  induction items generalizing current budget with
  | nil =>
    obtain ⟨rfl, _⟩ := pure_eq_ok.mp h
    exact ⟨hnodup, by simp [keys], rfl, by simp⟩
  | cons item items ih =>
    rw [List.foldlM_cons] at h
    obtain ⟨next, rest, hnext, hrest⟩ := bind_eq_ok.mp h
    have hfirst := mergeItem_merges (hplain item List.mem_cons_self) hnodup hnext
    have hlater := ih (fun x hx => hplain x (List.mem_cons_of_mem item hx)) hfirst.nodup hrest
    apply Merges.cons hfirst
    refine ⟨hlater.nodup, hlater.mem_keys, hlater.untouched, ?_⟩
    intro x hx id hid hcount old hold
    obtain ⟨merged, ⟨_, hmerged⟩, hfound⟩ := hlater.combined x hx id hid hcount old hold
    -- the budget has only shrunk on the way to this item
    have hle := (priced_mergeItem (priced_merge schemas levels) _ _ _).le hnext
    obtain ⟨rest', _, hmerged'⟩ := (priced_merge schemas levels _ _ _).mono hmerged hle
    exact ⟨merged, ⟨rest', hmerged'⟩, hfound⟩

/-! ## The merged list -/

/-- What a patch makes of a keyed list. Without a `$patch: replace` item, the identities left are
those of the current items that are not deleted and those of the ordinary items, each once; items
the patch does not name are as they were, in their order; and an item named by one ordinary item
is the merge of the two. -/
structure Merged (key : String) (combines : Json → Json → Json → Prop)
    (current patch result : List Json) : Prop where
  nodup : (keys key result).Nodup
  mem_keys : ∀ id, id ∈ keys key result ↔
    id ∈ keys key current ∧ id ∉ keys key (deletions patch) ∨ id ∈ keys key (ordinary patch)
  untouched : result.filter (apartFrom key (deletions patch ++ ordinary patch)) =
    current.filter (apartFrom key (deletions patch ++ ordinary patch))
  combined : ∀ old ∈ current, ∀ item ∈ ordinary patch, ∀ id, keyOf key old = some id →
    keyOf key item = some id → id ∉ keys key (deletions patch) →
    (keys key (ordinary patch)).count id = 1 →
    ∃ merged ∈ result, combines old item merged ∧ keyOf key merged = some id

/-- A list of distinct identities stands in its own order. -/
theorem inOrder_self (hdistinct : (keys key current).Nodup)
    (hids : ∀ v ∈ current, ∃ id, identity (some key) v = .ok id) :
    InOrder (some key) current current := by
  have hplace : ∀ (place : ℕ) (hlt : place < current.length),
      position (some key) current current[place] = some place := by
    intro place hlt
    apply List.findIdx?_eq_some_iff_getElem.mpr
    refine ⟨hlt, by simp, ?_⟩
    intro earlier hearlier
    have hpair := List.pairwise_iff_getElem.mp (List.pairwise_filterMap.mp hdistinct) earlier place
      (by omega) hlt hearlier
    obtain ⟨id, hid⟩ := hids current[place] (List.getElem_mem hlt)
    obtain ⟨id', hid'⟩ := hids current[earlier] (List.getElem_mem _)
    have hne := hpair id' (keyOf_eq_some.mpr hid') id (keyOf_eq_some.mpr hid)
    simp [hid, hid', Except.toOption, hne.symm]
  apply List.pairwise_iff_getElem.mpr
  intro i j hi hj hij
  rw [rank, rank, hplace i hi, hplace j hj]
  dsimp only
  omega

theorem named_eq {items : List Json} {v : Json} (hv : ∃ id, identity (some key) v = .ok id) :
    named (some key) items v = !apartFrom key items v := by
  obtain ⟨id, hid⟩ := hv
  have hkey : keyOf key v = some id := keyOf_eq_some.mpr hid
  rw [Bool.eq_iff_iff, named, position, List.findIdx?_isSome, List.any_eq_true, apartFrom, hkey]
  simp only [Option.all_some, decide_not, Bool.not_not, decide_eq_true_eq]
  rw [mem_keys]
  constructor
  · rintro ⟨x, hx, hsame⟩
    exact ⟨x, hx, hsame.symm.trans hkey⟩
  · rintro ⟨x, hx, hsame⟩
    exact ⟨x, hx, hkey.trans hsame.symm⟩

/-- Ordering the merged items by the patch leaves the others as they were. -/
theorem interleaved_untouched {items base : List Json}
    (hdistinct : (keys key base).Nodup)
    (hbase : ∀ v ∈ base, ∃ id, identity (some key) v = .ok id)
    (hfinal : ∀ v ∈ final, ∃ id, identity (some key) v = .ok id)
    (hsub : (final.filter (apartFrom key items)).Sublist base) :
    (interleaved (some key) final items base).filter (apartFrom key items) =
      final.filter (apartFrom key items) := by
  have hsame : ∀ l : List Json, (∀ v ∈ l, ∃ id, identity (some key) v = .ok id) →
      l.filter (apartFrom key items) = l.filter fun v => !named (some key) items v := by
    intro l hl
    apply List.filter_congr
    intro v hv
    rw [named_eq (hl v hv), Bool.not_not]
  rw [hsame _ fun v hv => hfinal v (interleaved_perm.mem_iff.mp hv), interleaved_unnamed,
    ← hsame _ hfinal]
  exact sortBy_eq_self ((inOrder_self hdistinct hbase).sublist hsub)

/-- The stages of a merge into a keyed list. -/
theorem list_ok {combine : Json → Json → Json → Spending Json} (hkey : mergeKey schema = some key)
    (h : list schemas combine current items schema budget = .ok value left) :
    identities (some key) current = .ok () ∧
      (∀ v ∈ ordinary items, ∃ id, identity (some key) v = .ok id) ∧
      (replaces items = true ∧ value = .array (ordinary items) ∨
        replaces items = false ∧ ∃ b final b' result, b ≤ budget ∧
          (ordinary items).foldlM
            (mergeItem combine (some key) (resolve schemas schema)["items"])
            (current.filter (apartFrom key (deletions items))) b = .ok final b' ∧
          reorder (some key) final (ordinary items) current b' = .ok result left ∧
          value = .array result) := by
  obtain ⟨hspent, h⟩ := Budgets.spend_bind_ok.mp h
  rw [hkey] at h
  obtain ⟨_, hcurrent, h⟩ := ofExcept_bind_eq_ok.mp h
  obtain ⟨reading, hreading, h⟩ := ofExcept_bind_eq_ok.mp h
  obtain ⟨hordinary, hreplace, hresult, hids⟩ := readItems_ok hreading
  rw [List.nil_append] at hordinary
  rw [Bool.false_or] at hreplace
  refine ⟨hcurrent, hids, ?_⟩
  by_cases hreplaces : replaces items = true
  · rw [hreplace, if_pos hreplaces, hordinary] at h
    exact Or.inl ⟨hreplaces, (pure_eq_ok.mp h).1.symm⟩
  · rw [hreplace, if_neg hreplaces, hordinary, hresult] at h
    obtain ⟨final, b', hfinal, h⟩ := bind_eq_ok.mp h
    obtain ⟨result, b'', hordered, h⟩ := bind_eq_ok.mp h
    obtain ⟨hvalue, rfl⟩ := pure_eq_ok.mp h
    exact Or.inr ⟨eq_false_of_ne_true hreplaces, _, final, b', result, Nat.sub_le _ _, hfinal,
      hordered, hvalue.symm⟩

theorem Combines.mono {levels budget other : ℕ} (hle : budget ≤ other) {old item merged : Json}
    (h : Combines schemas schema levels budget old item merged) :
    Combines schemas schema levels other old item merged := by
  obtain ⟨rest, hmerged⟩ := h
  obtain ⟨rest', _, hagain⟩ := (priced_merge schemas levels old item schema).mono hmerged hle
  exact ⟨rest', hagain⟩

/-- The merged items in the patch's order. -/
theorem merged_of_merges {combines : Json → Json → Json → Prop} {result : List Json} {b b' : ℕ}
    (hdistinct : (keys key current).Nodup)
    (hmerges : Merges key combines (current.filter (apartFrom key (deletions items)))
      (ordinary items) final)
    (hordered : reorder (some key) final (ordinary items) current b = .ok result b') :
    Merged key combines current items result := by
  obtain ⟨_, hids, rfl, _⟩ := reorder_ok.mp hordered
  have hall := identities_ok.mp hids
  have hperm : (interleaved (some key) final (ordinary items) current).Perm final :=
    interleaved_perm
  have hsame : ∀ id, id ∈ keys key (interleaved (some key) final (ordinary items) current) ↔
      id ∈ keys key final := fun id => (hperm.filterMap _).mem_iff
  constructor
  · exact (hperm.filterMap _).nodup_iff.mpr hmerges.nodup
  · intro id
    rw [hsame, hmerges.mem_keys]
    apply or_congr_left
    rw [mem_keys, mem_keys]
    constructor
    · rintro ⟨v, hv, hid⟩
      have hapart := (List.mem_filter.mp hv).2
      rw [apartFrom, hid] at hapart
      exact ⟨⟨v, List.mem_of_mem_filter hv, hid⟩, by simpa using hapart⟩
    · rintro ⟨⟨v, hv, hid⟩, hnot⟩
      refine ⟨v, List.mem_filter.mpr ⟨hv, ?_⟩, hid⟩
      rw [apartFrom, hid]
      simpa using hnot
  · have hsub : (final.filter (apartFrom key (ordinary items))).Sublist current := by
      rw [hmerges.untouched]
      exact List.filter_sublist.trans List.filter_sublist
    have huntouched := interleaved_untouched hdistinct (fun v hv => hall v (by simp [hv]))
      (fun v hv => hall v (by simp [hv])) hsub
    have hboth : ∀ l : List Json, l.filter (apartFrom key (deletions items ++ ordinary items)) =
        (l.filter (apartFrom key (ordinary items))).filter (apartFrom key (deletions items)) := by
      intro l
      rw [List.filter_filter]
      exact List.filter_congr fun v _ => apartFrom_append
    rw [hboth, huntouched, hmerges.untouched, hboth, List.filter_filter, List.filter_filter,
      List.filter_filter]
    apply List.filter_congr
    intro v _
    cases apartFrom key (deletions items) v <;> simp
  · intro old hold item hitem id hid hid' hnot hcount
    have hkept : old ∈ current.filter (apartFrom key (deletions items)) := by
      refine List.mem_filter.mpr ⟨hold, ?_⟩
      rw [apartFrom, hid]
      simpa using hnot
    have hfound := find?_eq_some_of_nodup
      (hdistinct.sublist (List.filter_sublist.filterMap (keyOf key))) hkept hid
    obtain ⟨merged, hcombined, hmerged⟩ := hmerges.combined item hitem id hid' hcount old hfound
    exact ⟨merged, hperm.mem_iff.mpr (List.mem_of_find?_eq_some hmerged), hcombined,
      isFor_iff.mp (List.find?_some hmerged)⟩

/-- At every level, merging a patch list into a keyed list gives the ordinary items if an item
replaces, and the merged list otherwise. -/
theorem keyed_list_merged (hkey : mergeKey schema = some key)
    (hstrategy : strategy schema "merge" = true) (hdistinct : (keys key current).Nodup)
    (hsorted : (Json.array items).sorted = true)
    (h : merge schemas (levels + 1) (.array current) (.array items) schema budget =
      .ok value left) :
    ∃ result, value = .array result ∧
      (replaces items = true → result = ordinary items) ∧
      (replaces items = false → Merged key
        (Combines schemas (resolve schemas schema)["items"] levels budget) current items result) := by
  obtain ⟨_, h⟩ := Budgets.spend_bind_ok.mp h
  have h : list schemas (merge schemas levels) current items schema (budget - 1) =
      .ok value left := by
    simpa only [hstrategy, if_true, Json.asArray, Option.getD_some] using h
  obtain ⟨_, hids, ⟨hreplaces, rfl⟩ | ⟨hplain, b, final, b', result, hle, hfinal, hordered, rfl⟩⟩ :=
    list_ok hkey h
  · exact ⟨_, rfl, fun _ => rfl, fun hno => absurd hreplaces (by simp [hno])⟩
  · refine ⟨result, rfl, fun hyes => absurd hyes (by simp [hplain]), fun _ => ?_⟩
    have hitems : ∀ item ∈ ordinary items, Plain key item := by
      intro item hitem
      have hmem := List.mem_filter.mp hitem
      have hmembers := Json.sorted_array.mp hsorted item hmem.1
      refine ⟨hids item hitem, ?_, Option.isNone_iff_eq_none.mp hmem.2⟩
      cases item with
      | object fields => exact decide_eq_true (Json.sorted_object.mp hmembers).1
      | _ => rfl
    have hmerges := mergeItems_merges hitems
      (hdistinct.sublist (List.filter_sublist.filterMap (keyOf key))) hfinal
    have hmerged := merged_of_merges hdistinct hmerges hordered
    refine ⟨hmerged.nodup, hmerged.mem_keys, hmerged.untouched, ?_⟩
    intro old hold item hitem id hid hid' hnot hcount
    obtain ⟨merged, hmem, hcombined, hkeyed⟩ :=
      hmerged.combined old hold item hitem id hid hid' hnot hcount
    exact ⟨merged, hmem, hcombined.mono (by omega), hkeyed⟩

/-- Container `a` is deleted, the image of `b` set, `d` added and `c` left alone. -/
theorem containers_merged :
    Merged "name" (Combines .null .null 2 100)
      [.object [("name", .string "a")],
        .object [("image", .string "old"), ("name", .string "b")],
        .object [("name", .string "c")]]
      [.object [("$patch", .string "delete"), ("name", .string "a")],
        .object [("image", .string "new"), ("name", .string "b")],
        .object [("name", .string "d")]]
      [.object [("image", .string "new"), ("name", .string "b")],
        .object [("name", .string "d")],
        .object [("name", .string "c")]] := by
  have hrun : merge .null 3
      (.array [.object [("name", .string "a")],
        .object [("image", .string "old"), ("name", .string "b")],
        .object [("name", .string "c")]])
      (.array [.object [("$patch", .string "delete"), ("name", .string "a")],
        .object [("image", .string "new"), ("name", .string "b")],
        .object [("name", .string "d")]])
      (.object [("x-kubernetes-patch-merge-key", .string "name"),
        ("x-kubernetes-patch-strategy", .string "merge")]) 100 =
      .ok (.array [.object [("image", .string "new"), ("name", .string "b")],
        .object [("name", .string "d")],
        .object [("name", .string "c")]]) 42 := rfl
  obtain ⟨result, hvalue, _, hmerged⟩ :=
    keyed_list_merged rfl rfl (by decide) (by decide) hrun
  injection hvalue with hvalue
  rw [hvalue]
  exact hmerged rfl

end Hedronetes.Strategic
