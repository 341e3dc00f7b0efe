import Hedronetes.Apply.Creation
import Hedronetes.Apply.Removal

/-!
# Writing again after a pruning

The second apply of an object prunes what the first one wrote and writes it again.
The pruning drops the list items that the first apply added with nothing but a name;
written again, they come after the items that were added with more.
-/

namespace Hedronetes.Apply

open FirstMatch Fallible CursorScan

variable {a b j k r : Json} {s : Segment} {ds : List Path}

/-! ## Members stay in order -/

theorem keysSorted_map_prune {fields : List (String × Json)} (h : KeysSorted fields) :
    KeysSorted (fields.map fun e => (e.1, prune e.2)) :=
  List.pairwise_map.mpr h

theorem sorted_prune (j : Json) : j.sorted = true → (prune j).sorted = true := by
  induction j with
  | object fields ih =>
    intro h
    obtain ⟨hkeys, hvalues⟩ := Json.sorted_object.mp h
    rw [prune_object]
    apply Json.sorted_object.mpr ⟨keysSorted_map_prune hkeys, _⟩
    intro e he
    obtain ⟨e', he', rfl⟩ := List.mem_map.mp he
    exact ih e' he' (hvalues e' he')
  | array items ih =>
    intro h
    have hitems := Json.sorted_array.mp h
    rw [prune_array]
    apply Json.sorted_array.mpr
    intro i hi
    obtain ⟨i', hi', rfl⟩ := List.mem_map.mp (List.mem_of_mem_filter hi)
    exact ih i' hi' (hitems i' hi')
  | _ => exact fun h => h

theorem keysSorted_modifyKey {name : String} {f : Json → Json} {fields : List (String × Json)}
    (h : KeysSorted fields) : KeysSorted (modifyKey name f fields) := by
  have hkeys := List.pairwise_map.mpr h
  rw [← map_fst_modifyKey name f] at hkeys
  exact List.pairwise_map.mp hkeys

theorem sorted_remove {x : Path} {j : Json} (h : j.sorted = true) : (remove j x).sorted = true := by
  induction x generalizing j with
  | nil => cases j <;> exact h
  | cons s x ih =>
    cases s with
    | field name =>
      cases j with
      | object fields =>
        obtain ⟨hkeys, hvalues⟩ := Json.sorted_object.mp h
        cases x with
        | nil =>
          apply Json.sorted_object.mpr ⟨hkeys.filter _, _⟩
          exact fun e he => hvalues e (List.mem_of_mem_filter he)
        | cons u x =>
          apply Json.sorted_object.mpr ⟨keysSorted_modifyKey hkeys, _⟩
          intro e he
          rcases mem_updateFirst he with he | ⟨e', he', _, rfl⟩
          · exact hvalues e he
          · exact ih (hvalues e' he')
      | _ => cases x <;> exact h
    | keyed key value =>
      cases j with
      | array items =>
        have hitems := Json.sorted_array.mp h
        cases x with
        | nil => exact Json.sorted_array.mpr fun i hi => hitems i (List.mem_of_mem_filter hi)
        | cons u x =>
          apply Json.sorted_array.mpr
          intro i hi
          rcases mem_updateFirst hi with hi | ⟨i', hi', _, rfl⟩
          · exact hitems i hi
          · exact ih (hitems i' hi')
      | _ => cases x <;> exact h

theorem sorted_removals {xs : List Path} {j : Json} (h : j.sorted = true) :
    (xs.foldl remove j).sorted = true := by
  induction xs generalizing j with
  | nil => exact h
  | cons x xs ih => exact ih (sorted_remove h)

theorem sorted_emptyFor (x : Path) : (emptyFor x).sorted = true := by
  match x with
  | [] => rfl
  | .field _ :: _ => rfl
  | .keyed _ _ :: _ => rfl

theorem sorted_child {c : Json} (h : j.sorted = true) (hc : child j s = some c) :
    c.sorted = true := by
  cases s with
  | field name =>
    cases j with
    | object fields => exact (Json.sorted_object.mp h).2 _ (mem_of_lookup hc)
    | _ => cases hc
  | keyed key value =>
    cases j with
    | array items => exact Json.sorted_array.mp h c (List.mem_of_find?_eq_some hc)
    | _ => cases hc

theorem sorted_get {v : Json} {p : Path} (h : j.sorted = true) (hv : get j p = some v) :
    v.sorted = true := by
  induction p generalizing j with
  | nil => rwa [← Option.some.inj hv]
  | cons s p ih =>
    obtain ⟨c, hc, hv⟩ := Option.bind_eq_some_iff.mp hv
    exact ih (sorted_child h hc) hv

theorem sorted_put {w r : Json} {x : Path} (h : put j x w = .ok r) (hj : j.sorted = true)
    (hw : w.sorted = true) : r.sorted = true := by
  induction x generalizing j r with
  | nil =>
    have he : w = r := by
      cases j <;> exact Except.ok.inj h
    exact he ▸ hw
  | cons s x ih =>
    cases s with
    | field name =>
      obtain ⟨fields, current, rfl, hcurrent, rfl⟩ := put_field_ok h
      obtain ⟨hkeys, hvalues⟩ := Json.sorted_object.mp hj
      have hbase : ((lookup name fields).getD (emptyFor x)).sorted = true := by
        cases hv : lookup name fields with
        | none => exact sorted_emptyFor x
        | some v => exact hvalues _ (mem_of_lookup hv)
      apply Json.sorted_object.mpr ⟨hkeys.insertKey, _⟩
      intro e he
      rcases mem_insertKey he with he | rfl
      · exact hvalues e he
      · exact ih hcurrent hbase
    | keyed key value =>
      obtain ⟨items, current, rfl, hcurrent, rfl⟩ := put_keyed_ok h
      have hitems := Json.sorted_array.mp hj
      have hbase : ((child (.array items) (.keyed key value)).getD
          (fresh (.keyed key value) x)).sorted = true := by
        cases hv : child (.array items) (.keyed key value) with
        | none =>
          apply Json.sorted_object.mpr
          simp [KeysSorted, Json.sorted, Json.every, Json.keysSorted]
        | some v => exact sorted_child hj hv
      apply Json.sorted_array.mpr
      intro i hi
      split at hi
      · rcases mem_updateFirst hi with hi | ⟨_, _, _, rfl⟩
        · exact hitems i hi
        · exact ih hcurrent hbase
      · rcases List.mem_append.mp hi with hi | hi
        · exact hitems i hi
        · rw [List.mem_singleton.mp hi]
          exact ih hcurrent hbase

theorem sorted_writes (ha : a.sorted = true) (hj : j.sorted = true) (h : writes a ds j = .ok r) :
    r.sorted = true := by
  induction ds generalizing j with
  | nil => exact Except.ok.inj h ▸ hj
  | cons d ds ih =>
    obtain ⟨k, hk, hrest⟩ := writes_cons_ok h
    apply ih _ hrest
    unfold write at hk
    cases hw : get a d with
    | none =>
      simp only [hw] at hk
      exact Except.ok.inj hk ▸ hj
    | some w =>
      simp only [hw] at hk
      exact sorted_put hk hj (sorted_get ha hw)

/-! ## What a run of writes adds to lists -/

/-- The writes reach an item `n` of the list at `c`, which the base does not have. -/
def Adds (ds : List Path) (base : Option Json) (c : Path) (n : String) : Prop :=
  (base.bind fun j => get j (c ++ [.keyed "name" n])) = none ∧ ∃ q, c ++ .keyed "name" n :: q ∈ ds

/-- The writes give the item its name only. -/
def NameOnly (ds : List Path) (c : Path) (n : String) : Prop :=
  ∀ q, c ++ .keyed "name" n :: q ∈ ds → q = [.field "name"]

/-- The items added with their name only come after all others that are added to the
same list, lists written as a whole apart. -/
def Stays (ds : List Path) (base : Option Json) : Prop :=
  ∀ c m n, m < n → ¬ (∃ d ∈ ds, d <+: c) → Adds ds base c m → Adds ds base c n →
    NameOnly ds c m → NameOnly ds c n

theorem adds_cons {base : Option Json} {c : Path} {n : String} : Adds ds base (s :: c) n ↔
    Adds (tails s ds) (base.bind fun j => child j s) c n := by
  have hread : (base.bind fun j => get j (s :: c ++ [.keyed "name" n])) =
      (base.bind fun j => child j s).bind fun j => get j (c ++ [.keyed "name" n]) := by
    rw [Option.bind_assoc]
    rfl
  rw [Adds, Adds, hread]
  simp only [mem_tails, List.cons_append]

theorem nameOnly_cons {c : Path} {n : String} :
    NameOnly ds (s :: c) n ↔ NameOnly (tails s ds) c n := by
  simp only [NameOnly, mem_tails, List.cons_append]

theorem whole_cons {c : Path} (hnil : [] ∉ ds) :
    (∃ d ∈ ds, d <+: s :: c) ↔ ∃ d ∈ tails s ds, d <+: c := by
  constructor
  · rintro ⟨d, hd, hthrough⟩
    cases d with
    | nil => exact absurd hd hnil
    | cons t d =>
      obtain ⟨rfl, hrest⟩ := List.cons_prefix_cons.mp hthrough
      exact ⟨d, mem_tails.mpr hd, hrest⟩
  · rintro ⟨d, hd, hthrough⟩
    exact ⟨s :: d, mem_tails.mp hd, List.cons_prefix_cons.mpr ⟨rfl, hthrough⟩⟩

/-- The list at hand, and those inside each child. -/
theorem stays_iff {base : Option Json} (hnil : [] ∉ ds) : Stays ds base ↔
    (∀ m n, m < n → Adds ds base [] m → Adds ds base [] n → NameOnly ds [] m → NameOnly ds [] n) ∧
      ∀ s, Stays (tails s ds) (base.bind fun j => child j s) := by
  constructor
  · intro h
    constructor
    · intro m n hmn
      apply h [] m n hmn
      rintro ⟨d, hd, hthrough⟩
      rw [List.prefix_nil.mp hthrough] at hd
      exact hnil hd
    · intro s c m n hmn hwhole hm hn honly
      rw [← nameOnly_cons] at honly ⊢
      exact h (s :: c) m n hmn (fun hw => hwhole ((whole_cons hnil).mp hw)) (adds_cons.mpr hm)
        (adds_cons.mpr hn) honly
  · rintro ⟨hhere, hbelow⟩ c m n hmn hwhole hm hn honly
    cases c with
    | nil => exact hhere m n hmn hm hn honly
    | cons s c =>
      rw [nameOnly_cons] at honly ⊢
      exact hbelow s c m n hmn (fun hw => hwhole ((whole_cons hnil).mpr hw)) (adds_cons.mp hm)
        (adds_cons.mp hn) honly

theorem stays_of_whole {base : Option Json} (h : [] ∈ ds) : Stays ds base :=
  fun _ _ _ _ hwhole => absurd ⟨[], h, List.nil_prefix⟩ hwhole

theorem stays_nil (base : Option Json) : Stays [] base := by
  rintro c m n _ _ ⟨_, q, hq⟩
  cases hq

/-- A base without list items is as good as none. -/
theorem stays_blank {x : Json} (hx : ∀ c n, get x (c ++ [.keyed "name" n]) = none) :
    Stays ds (some x) ↔ Stays ds none := by
  have hadds : ∀ c n, Adds ds (some x) c n ↔ Adds ds none c n := by
    intro c n
    simp [Adds, hx]
  simp only [Stays, hadds]

/-! ## The children of a run -/

/-- A value written as a whole is there whatever was there before. -/
theorem fills_whole {o : Option Json} (hsorted : Sorted ds) (hnil : [] ∈ ds)
    (hval : ∀ d ∈ ds, (get b d).isSome) : fills s b ds o = .ok (some b) := by
  have hsame : ∀ es : List Path, (∀ d ∈ es, (get b d).isSome) → writes b es b = .ok b := by
    intro es hes
    induction es with
    | nil => rfl
    | cons e es ih =>
      obtain ⟨w, hw⟩ := Option.isSome_iff_exists.mp (hes e List.mem_cons_self)
      have hwrite : write b b e = .ok b := by
        rw [write, hw]
        exact put_same hw
      rw [writes_cons hwrite]
      exact ih fun d hd => hes d (List.mem_cons_of_mem _ hd)
  cases ds with
  | nil => cases hnil
  | cons d ds =>
    have hd : d = [] := by
      rcases List.mem_cons.mp hnil with he | he
      · exact he.symm
      · have hbefore := (List.pairwise_cons.mp hsorted).1 _ he
        cases d with
        | nil => rfl
        | cons t d => cases hbefore
    subst hd
    have hfill : fill s b o [] = .ok (some b) := by
      have hput : ∀ j : Json, put j [] b = .ok b := by
        intro j
        cases j <;> rfl
      have hread : get b [] = some b := rfl
      rw [fill, hread]
      dsimp only
      rw [hput]
      rfl
    rw [fills_cons hfill, fills_some, hsame ds fun d hd => hval d (List.mem_cons_of_mem _ hd)]
    rfl

theorem emptyFor_eq_container {d : Path} (hne : d ≠ []) (h : (get b d).isSome) :
    emptyFor d = container b := by
  obtain ⟨w, hw⟩ := Option.isSome_iff_exists.mp h
  cases d with
  | nil => exact absurd rfl hne
  | cons t d =>
    obtain ⟨c, hc, _⟩ := Option.bind_eq_some_iff.mp hw
    cases t with
    | field name =>
      cases b with
      | object fields => rfl
      | _ => cases hc
    | keyed key value =>
      cases b with
      | array items => rfl
      | _ => cases hc

/-- What a child that is missing is created as. -/
def seed (b : Json) : Segment → Json
  | .field _ => container b
  | .keyed key value => .object [(key, .string value)]

theorem fresh_eq_seed {d : Path} (hne : d ≠ []) (h : (get b d).isSome) : fresh s d = seed b s := by
  cases s with
  | field name => exact emptyFor_eq_container hne h
  | keyed key value => rfl

theorem noBare_seed (b : Json) (s : Segment) : noBare (seed b s) = true := by
  cases s with
  | field name => cases b <;> rfl
  | keyed key value => rfl

theorem get_seed (b : Json) (s : Segment) (c : Path) (n : String) :
    get (seed b s) (c ++ [.keyed "name" n]) = none := by
  have hstring : ∀ (value : String) (c : Path),
      get (.string value) (c ++ [.keyed "name" n]) = none := by
    intro value c
    cases c with
    | nil => rfl
    | cons t c => cases t <;> rfl
  cases s with
  | field name =>
    cases b <;> (cases c with | nil => rfl | cons t c => cases t <;> rfl)
  | keyed key value =>
    cases c with
    | nil => rfl
    | cons t c =>
      cases t with
      | field other =>
        rw [List.cons_append, get_cons]
        by_cases hk : key = other
        · simp [seed, child, Json.field, lookup, hk, hstring]
        · simp [seed, child, Json.field, lookup, hk]
      | keyed other value' => rfl

theorem fills_missing (hne : ds ≠ []) (hnil : [] ∉ ds) (hval : ∀ d ∈ ds, (get b d).isSome) :
    fills s b ds none = (writes b ds (seed b s)).map some := by
  apply fills_none
  · obtain ⟨d, hd⟩ := List.exists_mem_of_ne_nil ds hne
    exact ⟨d, hd, hval d hd⟩
  · intro d hd hvalue
    rw [fresh_eq_seed (fun he => hnil (he ▸ hd)) hvalue]

/-- Pruning and writing again restores what writing `b` made. -/
def RestoredFrom (b : Json) : Prop := ∀ ds k m, Sorted ds → (∀ d ∈ ds, NameKeyed d) → [] ∉ ds →
  (∀ c key value, c ++ [.keyed key value] ∉ ds) → (∀ d ∈ ds, (get b d).isSome) →
    noBare k = true → m.sorted = true → writes b ds k = .ok m →
      (writes b ds (prune m) = .ok m ↔ Stays ds (some k))

/-- The same for a child, which may have been missing. -/
theorem fills_again {o o' : Option Json} (ih : RestoredFrom b) (hsorted : Sorted ds)
    (hkeyed : ∀ d ∈ ds, NameKeyed d) (hend : ∀ c key value, c ++ [.keyed key value] ∉ ds)
    (hval : ∀ d ∈ ds, (get b d).isSome) (ho : ∀ k, o = some k → noBare k = true)
    (ho' : ∀ m, o' = some m → m.sorted = true) (h : fills s b ds o = .ok o') :
    fills s b ds (o'.map prune) = .ok o' ↔ Stays ds o := by
  by_cases hnil : [] ∈ ds
  · rw [fills_whole hsorted hnil hval] at h ⊢
    obtain rfl := Except.ok.inj h
    simp [stays_of_whole hnil]
  · by_cases hne : ds = []
    · subst hne
      obtain rfl := Except.ok.inj h
      simp only [stays_nil, iff_true]
      cases o with
      | none => rfl
      | some k =>
        rw [Option.map_some, (prune_eq_self_iff k).mpr (ho k rfl)]
        exact h
    · cases o with
      | some k =>
        rw [fills_some] at h
        obtain ⟨m, rfl, hm⟩ := map_some_eq_ok h
        rw [Option.map_some, fills_some, map_some_eq_iff]
        exact ih ds k m hsorted hkeyed hnil hend hval (ho k rfl) (ho' m rfl) hm
      | none =>
        rw [fills_missing hne hnil hval] at h
        obtain ⟨m, rfl, hm⟩ := map_some_eq_ok h
        rw [Option.map_some, fills_some, map_some_eq_iff, ← stays_blank (get_seed b s)]
        exact ih ds _ m hsorted hkeyed hnil hend hval (noBare_seed b s) (ho' m rfl) hm

/-! ## Objects -/

theorem field_heads {fields : List (String × Json)} (hnil : [] ∉ ds)
    (hval : ∀ d ∈ ds, (get (.object fields) d).isSome) : ∀ d ∈ ds, ∃ name q, d = .field name :: q := by
  intro d hd
  obtain ⟨w, hw⟩ := Option.isSome_iff_exists.mp (hval d hd)
  cases d with
  | nil => exact absurd hd hnil
  | cons s d =>
    cases s with
    | field name => exact ⟨name, d, rfl⟩
    | keyed key value => cases hw

theorem apart_field {name : String} (hds : ∀ d ∈ ds, ∃ other q, d = .field other :: q) :
    ∀ d ∈ ds, ∃ t q, d = t :: q ∧ (t = .field name ∨ t.Apart (.field name)) := by
  intro d hd
  obtain ⟨other, q, rfl⟩ := hds d hd
  refine ⟨_, q, rfl, ?_⟩
  by_cases hname : other = name
  · exact Or.inl (by rw [hname])
  · exact Or.inr hname

/-- Writing into a pruned object restores it if it restores each member. -/
theorem writes_pruned_object {target : List (String × Json)}
    (hds : ∀ d ∈ ds, ∃ name q, d = .field name :: q) (htarget : KeysSorted target)
    (hnone : ∀ name, child a (.field name) = none →
      (lookup name target).map prune = lookup name target) :
    writes a ds (prune (.object target)) = .ok (.object target) ↔
      ∀ name b, child a (.field name) = some b →
        fills (.field name) b (tails (.field name) ds) ((lookup name target).map prune) =
          .ok (lookup name target) := by
  rw [prune_object]
  constructor
  · intro h name b hb
    have hread := writes_child h (apart_field hds) hb
    rwa [child_field, child_field, Json.field, lookup_map_prune] at hread
  · intro h
    apply writes_object_eq hds (keysSorted_map_prune htarget) htarget
    · intro name b hb
      rw [lookup_map_prune]
      exact h name b hb
    · intro name hb
      rw [lookup_map_prune]
      exact hnone name hb

theorem isObject_write {d : Path} (hd : d ≠ []) (hj : j.isObject = true) (h : write a j d = .ok r) :
    r.isObject = true := by
  unfold write at h
  cases hw : get a d with
  | none =>
    simp only [hw] at h
    exact Except.ok.inj h ▸ hj
  | some w =>
    simp only [hw] at h
    cases d with
    | nil => exact absurd rfl hd
    | cons s d => exact isObject_put hj h

theorem isObject_writes (hnil : [] ∉ ds) (hj : j.isObject = true) (h : writes a ds j = .ok r) :
    r.isObject = true := by
  induction ds generalizing j with
  | nil => exact Except.ok.inj h ▸ hj
  | cons d ds ih =>
    obtain ⟨k, hk, hrest⟩ := writes_cons_ok h
    exact ih (fun he => hnil (List.mem_cons_of_mem _ he))
      (isObject_write (fun he => hnil (he ▸ List.mem_cons_self)) hj hk) hrest

/-- Writing a field needs an object. -/
theorem isObject_of_writes (hne : ds ≠ []) (hds : ∀ d ∈ ds, ∃ name q, d = .field name :: q)
    (hval : ∀ d ∈ ds, (get a d).isSome) (h : writes a ds j = .ok r) : j.isObject = true := by
  cases ds with
  | nil => exact absurd rfl hne
  | cons d ds =>
    obtain ⟨k, hk, _⟩ := writes_cons_ok h
    obtain ⟨_, _, rfl⟩ := hds d List.mem_cons_self
    obtain ⟨w, hw⟩ := Option.isSome_iff_exists.mp (hval _ List.mem_cons_self)
    rw [write, hw] at hk
    obtain ⟨_, _, rfl, _⟩ := put_field_ok hk
    rfl

theorem tails_eq_nil (h : ∀ q, s :: q ∉ ds) : tails s ds = [] := by
  apply List.eq_nil_iff_forall_not_mem.mpr
  exact fun q hq => h q (mem_tails.mp hq)

theorem tails_eq_nil_of_child (hval : ∀ d ∈ ds, (get a d).isSome) (h : child a s = none) :
    tails s ds = [] := by
  apply tails_eq_nil
  intro q hq
  have hsome := hval _ hq
  rw [get_eq_none_of_child h] at hsome
  cases hsome

theorem tails_val (hval : ∀ d ∈ ds, (get a d).isSome) (hb : child a s = some b) :
    ∀ q ∈ tails s ds, (get b q).isSome := by
  intro q hq
  have hsome := hval _ (mem_tails.mp hq)
  rwa [get_cons, hb] at hsome

theorem tails_keyed (hkeyed : ∀ d ∈ ds, NameKeyed d) : ∀ q ∈ tails s ds, NameKeyed q :=
  fun _ hq => (hkeyed _ (mem_tails.mp hq)).tail

theorem tails_end (hend : ∀ c key value, c ++ [.keyed key value] ∉ ds) (c : Path)
    (key value : String) : c ++ [.keyed key value] ∉ tails s ds :=
  fun hq => hend (s :: c) key value (mem_tails.mp hq)

/-- Before anything is written, pruning and writing again change nothing. -/
theorem writes_nil_again (hk : noBare k = true) (h : writes a [] k = .ok r) :
    writes a [] (prune r) = .ok r ↔ Stays [] (some k) := by
  obtain rfl := Except.ok.inj h
  simp only [stays_nil, iff_true]
  rw [(prune_eq_self_iff k).mpr hk]
  rfl

theorem restored_object {fields : List (String × Json)} (ih : ∀ e ∈ fields, RestoredFrom e.2) :
    RestoredFrom (.object fields) := by
  intro ds k m hsorted hkeyed hnil hend hval hk hm h
  by_cases hne : ds = []
  · subst hne
    exact writes_nil_again hk h
  · have hds := field_heads hnil hval
    have hkobject := isObject_of_writes hne hds hval h
    have hmobject := isObject_writes hnil hkobject h
    obtain ⟨kf, rfl⟩ := Json.isObject_iff.mp hkobject
    obtain ⟨mf, rfl⟩ := Json.isObject_iff.mp hmobject
    obtain ⟨hkeys, hvalues⟩ := Json.sorted_object.mp hm
    have hkvalues := (noBare_object kf).mp hk
    rw [writes_pruned_object hds hkeys, stays_iff hnil]
    · have hagain : ∀ name b, child (.object fields) (.field name) = some b →
          (fills (.field name) b (tails (.field name) ds) ((lookup name mf).map prune) =
            .ok (lookup name mf) ↔ Stays (tails (.field name) ds) (lookup name kf)) := by
        intro name b hb
        apply fills_again (ih _ (mem_of_lookup hb)) (hsorted.tails _) (tails_keyed hkeyed)
          (tails_end hend) (tails_val hval hb)
        · exact fun v hv => hkvalues _ (mem_of_lookup hv)
        · exact fun v hv => hvalues _ (mem_of_lookup hv)
        · exact writes_child h (apart_field hds) hb
      constructor
      · intro hall
        constructor
        · rintro n' n _ ⟨_, q, hq⟩
          obtain ⟨_, _, he⟩ := hds _ hq
          cases he
        · intro s
          cases hb : child (.object fields) s with
          | none =>
            rw [tails_eq_nil_of_child hval hb]
            exact stays_nil _
          | some b =>
            cases s with
            | field name => exact (hagain name b hb).mp (hall name b hb)
            | keyed key value => cases hb
      · rintro ⟨_, hbelow⟩ name b hb
        exact (hagain name b hb).mpr (hbelow (.field name))
    · intro name hb
      have hsame : lookup name mf = lookup name kf := writes_child_none h (apart_field hds) hb
      rw [hsame]
      cases hv : lookup name kf with
      | none => rfl
      | some v =>
        rw [Option.map_some, (prune_eq_self_iff v).mpr (hkvalues _ (mem_of_lookup hv))]

/-! ## Lists -/

theorem apart_keyed {n : String} (hds : ∀ d ∈ ds, ∃ m q, d = .keyed "name" m :: q) :
    ∀ d ∈ ds, ∃ t q, d = t :: q ∧ (t = .keyed "name" n ∨ t.Apart (.keyed "name" n)) := by
  intro d hd
  obtain ⟨m, q, rfl⟩ := hds d hd
  refine ⟨_, q, rfl, ?_⟩
  by_cases hmn : m = n
  · exact Or.inl (by rw [hmn])
  · exact Or.inr ⟨rfl, hmn⟩

theorem keyed_heads {items : List Json} (hnil : [] ∉ ds) (hkeyed : ∀ d ∈ ds, NameKeyed d)
    (hval : ∀ d ∈ ds, (get (.array items) d).isSome) :
    ∀ d ∈ ds, ∃ n q, d = .keyed "name" n :: q := by
  intro d hd
  obtain ⟨w, hw⟩ := Option.isSome_iff_exists.mp (hval d hd)
  cases d with
  | nil => exact absurd hd hnil
  | cons s d =>
    cases s with
    | field name => cases hw
    | keyed key n =>
      obtain rfl : key = "name" := hkeyed _ hd key n (by simp)
      exact ⟨n, d, rfl⟩

theorem array_of_writes (hne : ds ≠ []) (hds : ∀ d ∈ ds, ∃ n q, d = .keyed "name" n :: q)
    (hval : ∀ d ∈ ds, (get a d).isSome) (h : writes a ds j = .ok r) : ∃ items, j = .array items := by
  cases ds with
  | nil => exact absurd rfl hne
  | cons d ds =>
    obtain ⟨k, hk, _⟩ := writes_cons_ok h
    obtain ⟨_, _, rfl⟩ := hds d List.mem_cons_self
    obtain ⟨w, hw⟩ := Option.isSome_iff_exists.mp (hval _ List.mem_cons_self)
    rw [write, hw] at hk
    obtain ⟨items, _, rfl, _⟩ := put_keyed_ok hk
    exact ⟨items, rfl⟩

theorem findName_map_prune (n : String) (items : List Json) :
    findName n (items.map prune) = (findName n items).map prune := by
  rw [findName, List.find?_map]
  apply congrArg fun o => Option.map prune o
  apply congrArg fun q => List.find? q items
  funext i
  simp [strAt_prune]

/-- The added items that have more than their name, and those that do not. -/
def rich (new : List Json) : List Json := new.filter fun i => !bare i

def plain (new : List Json) : List Json := new.filter bare

theorem rich_append_plain {new : List Json} (h : Ascending nameOf new) :
    rich new ++ plain new = new ↔
      ∀ p ∈ new, ∀ q ∈ new, nameOf p < nameOf q → bare p = true → bare q = true := by
  constructor
  · intro hsplit p hp q hq hlt hbare
    by_contra hrich
    rw [Bool.not_eq_true] at hrich
    rw [← hsplit] at h
    have hbefore := (List.pairwise_append.mp h).2.2 q (by simp [rich, hq, hrich]) p
      (by simp [plain, hp, hbare])
    exact absurd hbefore hlt.asymm
  · intro hall
    induction new with
    | nil => rfl
    | cons p new ih =>
      obtain ⟨hp, hnew⟩ := List.pairwise_cons.mp h
      have hrest := ih hnew fun q hq q' hq' =>
        hall q (List.mem_cons_of_mem _ hq) q' (List.mem_cons_of_mem _ hq')
      cases hbare : bare p with
      | false =>
        rw [rich, List.filter_cons_of_pos (by simp [hbare]), plain,
          List.filter_cons_of_neg (by simp [hbare]), List.cons_append]
        exact congrArg _ hrest
      | true =>
        have hbares : ∀ q ∈ p :: new, bare q = true := by
          intro q hq
          rcases List.mem_cons.mp hq with rfl | hq
          · exact hbare
          · exact hall p List.mem_cons_self q (List.mem_cons_of_mem _ hq) (hp q hq) hbare
        have hnone : rich (p :: new) = [] := by
          rw [rich, List.filter_eq_nil_iff]
          intro q hq
          simp [hbares q hq]
        have hself : plain (p :: new) = p :: new := by
          rw [plain, List.filter_eq_self]
          exact hbares
        rw [hnone, hself, List.nil_append]

/-- What pruning leaves of a list whose old items have more than a name. -/
theorem prune_added {kept new : List Json} (hkept : ∀ i ∈ kept, bare i = false) :
    prune (.array (kept ++ new)) = .array (kept.map prune ++ (rich new).map prune) := by
  have hfilter : ∀ l : List Json, (l.map prune).filter (fun i => !bare i) =
      (l.filter fun i => !bare i).map prune := by
    intro l
    rw [List.filter_map]
    apply congrArg (List.map prune)
    apply List.filter_congr
    intro i _
    simp [bare_prune]
  have hself : (kept.filter fun i => !bare i) = kept := by
    rw [List.filter_eq_self]
    intro i hi
    simp [hkept i hi]
  rw [prune_array, List.map_append, List.filter_append, hfilter, hfilter, hself]
  rfl

/-- The lists that writes make of a list: its items, and the new ones by their names. -/
structure Extends (items kept new : List Json) : Prop where
  alike : Alike [] items kept
  ascending : Ascending nameOf new
  fresh : ∀ p ∈ new, p.strAt "name" = some (nameOf p) ∧ findName (nameOf p) items = none

section Extends

variable {items kept new : List Json}

theorem Extends.findName_old (h : Extends items kept new) {n : String}
    (hn : (findName n items).isSome) : findName n (kept ++ new) = findName n kept := by
  apply findName_append_of_isSome
  rwa [h.alike.findName_isSome]

theorem Extends.findName_new (h : Extends items kept new) {p : Json} (hp : p ∈ new) :
    findName (nameOf p) (kept ++ new) = some p := by
  obtain ⟨hname, hfresh⟩ := h.fresh p hp
  rw [findName_append_of_none (h.alike.findName_eq_none hfresh)]
  exact findName_of_ascending h.ascending hp hname

theorem Extends.mem_new (h : Extends items kept new) {n : String} (hn : findName n items = none)
    {p : Json} (hp : findName n (kept ++ new) = some p) : p ∈ new ∧ nameOf p = n := by
  rw [findName_append_of_none (h.alike.findName_eq_none hn)] at hp
  obtain ⟨hmem, hname⟩ := findName_mem hp
  exact ⟨hmem, nameOf_eq hname⟩

/-- Pruning hides an added item that has its name only. -/
theorem Extends.findName_plain (h : Extends items kept new) {p : Json} (hp : p ∈ new)
    (hbare : bare p = true) :
    findName (nameOf p) (kept.map prune ++ (rich new).map prune) = none := by
  obtain ⟨_, hfresh⟩ := h.fresh p hp
  have hkept : findName (nameOf p) (kept.map prune) = none := by
    rw [findName_map_prune, h.alike.findName_eq_none hfresh]
    rfl
  rw [findName_append_of_none hkept, findName_map_prune, Option.map_eq_none_iff]
  cases hfind : findName (nameOf p) (rich new) with
  | none => rfl
  | some q =>
    obtain ⟨hq, hname⟩ := findName_mem hfind
    obtain ⟨hmem, hrich⟩ := List.mem_filter.mp hq
    rw [h.ascending.eq_of_key hmem hp (nameOf_eq hname), hbare] at hrich
    cases hrich

/-- It prunes every other item. -/
theorem Extends.findName_rich (h : Extends items kept new) {n : String}
    (hn : ∀ p ∈ new, nameOf p = n → bare p = false) :
    findName n (kept.map prune ++ (rich new).map prune) =
      (findName n (kept ++ new)).map prune := by
  cases hold : findName n items with
  | some i =>
    have hsome : (findName n items).isSome := by simp [hold]
    rw [h.findName_old hsome, ← findName_map_prune]
    apply findName_append_of_isSome
    rw [findName_map_prune, Option.isSome_map, h.alike.findName_isSome]
    exact hsome
  | none =>
    have hkept := h.alike.findName_eq_none hold
    have hmap : findName n (kept.map prune) = none := by
      rw [findName_map_prune, hkept]
      rfl
    rw [findName_append_of_none hmap, findName_append_of_none hkept, findName_map_prune]
    apply congrArg
    cases hfind : findName n new with
    | none =>
      have hnone : ¬ (findName n (rich new)).isSome := by
        rw [findName_isSome]
        rintro ⟨p, hp, hname⟩
        have hsome := findName_isSome.mpr ⟨p, List.mem_of_mem_filter hp, hname⟩
        rw [hfind] at hsome
        cases hsome
      exact Option.not_isSome_iff_eq_none.mp hnone
    | some p =>
      obtain ⟨hmem, hname⟩ := findName_mem hfind
      have hnp := nameOf_eq hname
      subst hnp
      apply findName_of_ascending (h.ascending.filter _) _ (h.fresh p hmem).1
      simp [hmem, hn p hmem rfl]

end Extends

/-! ## Items with more than a name -/

theorem bare_insertKey {fields : List (String × Json)} (h : bare (.object fields) = false)
    (name : String) (v : Json) : bare (.object (insertKey name v fields)) = false := by
  cases fields with
  | nil => cases h
  | cons e fields =>
    cases fields with
    | cons e' fields =>
      have hlength : 2 ≤ (insertKey name v (e :: e' :: fields)).length := by
        have hkeys := length_insertKey_le name v (e :: e' :: fields)
        simp only [List.length_cons] at hkeys ⊢
        omega
      match hm : insertKey name v (e :: e' :: fields), hlength with
      | e₁ :: e₂ :: rest, _ => simp [bare, Json.asObject]
    | nil =>
      have hne : e.1 ≠ "name" := by
        intro he
        simp [bare, Json.asObject, lookup, he] at h
      by_cases hname : e.1 = name
      · subst hname
        simp [bare, Json.asObject, insertKey, lookup, modifyKey, updateFirst, hne]
      · unfold insertKey
        rw [if_neg (by simp [lookup, hname])]
        unfold insertSorted
        split_ifs <;> simp [bare, Json.asObject, insertSorted]

theorem bare_put {s : Segment} {x : Path} {w : Json} (hk : bare k = false)
    (h : put k (s :: x) w = .ok r) : bare r = false := by
  cases s with
  | field name =>
    obtain ⟨fields, current, rfl, _, rfl⟩ := put_field_ok h
    exact bare_insertKey hk name current
  | keyed key value =>
    obtain ⟨items, current, rfl, _, rfl⟩ := put_keyed_ok h
    rfl

theorem bare_writes (hnil : [] ∉ ds) (hk : bare k = false) (h : writes a ds k = .ok r) :
    bare r = false := by
  induction ds generalizing k with
  | nil => exact Except.ok.inj h ▸ hk
  | cons d ds ih =>
    obtain ⟨k', hk', hrest⟩ := writes_cons_ok h
    apply ih (fun he => hnil (List.mem_cons_of_mem _ he)) _ hrest
    unfold write at hk'
    cases hw : get a d with
    | none =>
      simp only [hw] at hk'
      exact Except.ok.inj hk' ▸ hk
    | some w =>
      simp only [hw] at hk'
      cases d with
      | nil => exact absurd List.mem_cons_self hnil
      | cons s d => exact bare_put hk hk'

theorem bare_iff_of_sorted {fields : List (String × Json)} (h : KeysSorted fields) :
    bare (.object fields) = true ↔ ∀ f, f ≠ "name" → lookup f fields = none := by
  constructor
  · exact fun hbare f hf => field_of_bare hbare hf
  · intro hnone
    have hkeys : ∀ e ∈ fields, e.1 = "name" := by
      intro e he
      by_contra hne
      have hread := lookup_of_mem h he
      rw [hnone e.1 hne] at hread
      cases hread
    match fields, h, hkeys with
    | [], _, _ => rfl
    | [e], _, hkeys => simp [bare, Json.asObject, lookup, hkeys e List.mem_cons_self]
    | e :: e' :: rest, h, hkeys =>
      have hlt := (List.pairwise_cons.mp h).1 e' List.mem_cons_self
      rw [hkeys e List.mem_cons_self, hkeys e' (by simp)] at hlt
      exact absurd hlt (lt_irrefl _)

/-- An item made from its name has nothing else exactly if only its name was written. -/
theorem bare_writes_seed {n : String} {p : Json} (hsorted : Sorted ds) (hnil : [] ∉ ds)
    (hval : ∀ d ∈ ds, (get b d).isSome) (hb : b.strAt "name" = some n) (hp : p.sorted = true)
    (h : writes b ds (.object [("name", .string n)]) = .ok p) :
    bare p = true ↔ ∀ q ∈ ds, q = [.field "name"] := by
  obtain ⟨bf, rfl⟩ := Json.isObject_iff.mp (Json.isObject_of_field (Json.strAt_eq_some.mp hb))
  have hds := field_heads hnil hval
  obtain ⟨pf, rfl⟩ := Json.isObject_iff.mp (isObject_writes hnil rfl h)
  rw [bare_iff_of_sorted (Json.sorted_object.mp hp).1]
  have hbase : ∀ f, f ≠ "name" →
      child (.object [("name", .string n)]) (.field f) = none := by
    intro f hf
    simp [child, Json.field, lookup, Ne.symm hf]
  constructor
  · intro hnone q hq
    obtain ⟨f, x, rfl⟩ := hds q hq
    obtain ⟨w, hw⟩ := Option.isSome_iff_exists.mp (hval _ hq)
    obtain ⟨c, hc, hx⟩ := Option.bind_eq_some_iff.mp hw
    by_cases hf : f = "name"
    · subst hf
      rw [child_field, Json.strAt_eq_some.mp hb] at hc
      rw [← Option.some.inj hc] at hx
      cases x with
      | nil => rfl
      | cons t x => cases t <;> cases hx
    · -- A write below another member makes that member.
      have hread := writes_child h (apart_field hds) hc
      rw [hbase f hf, child_field, Json.field, hnone f hf] at hread
      have hmem : x ∈ tails (.field f) ds := mem_tails.mpr hq
      have hvals := tails_val hval hc
      exfalso
      by_cases hwhole : [] ∈ tails (.field f) ds
      · rw [fills_whole (hsorted.tails _) hwhole hvals] at hread
        cases hread
      · rw [fills_missing (List.ne_nil_of_mem hmem) hwhole hvals] at hread
        obtain ⟨_, he, _⟩ := map_some_eq_ok hread
        cases he
  · intro hall f hf
    cases hc : child (.object bf) (.field f) with
    | none => exact (writes_child_none h (apart_field hds) hc).trans (hbase f hf)
    | some c =>
      have hread := writes_child h (apart_field hds) hc
      rw [tails_eq_nil, hbase f hf] at hread
      · exact (Except.ok.inj hread).symm
      · intro q hq
        have he := hall _ hq
        injection he with he
        injection he with he
        exact hf he

/-! ## Lists written again -/

theorem Alike.length_eq {seen : List String} {items others : List Json}
    (h : Alike seen items others) : others.length = items.length := by
  induction h with
  | nil => rfl
  | first _ _ _ _ ih => rw [List.length_cons, List.length_cons, ih]
  | same _ ih => rw [List.length_cons, List.length_cons, ih]

/-- An item of a list alike to another is one of its items, or the first of its name. -/
theorem Alike.mem_cases {seen : List String} {items others : List Json}
    (h : Alike seen items others) {i : Json} (hi : i ∈ others) :
    i ∈ items ∨ ∃ n, n ∉ seen ∧ i.strAt "name" = some n ∧ findName n others = some i ∧
      (findName n items).isSome := by
  induction h with
  | nil => cases hi
  | @first seen i' k n items others hi' hk hn hrest ih =>
    rcases List.mem_cons.mp hi with rfl | hi
    · exact Or.inr ⟨n, hn, hk, by simp [findName, hk], by simp [findName, hi']⟩
    · rcases ih hi with hmem | ⟨m, hm, hname, hfind, hsome⟩
      · exact Or.inl (List.mem_cons_of_mem _ hmem)
      · rw [List.mem_cons, not_or] at hm
        have hne : n ≠ m := fun he => hm.1 he.symm
        refine Or.inr ⟨m, hm.2, hname, ?_, ?_⟩
        · rw [findName, List.find?_cons_of_neg (by simpa [hk] using hne)]
          exact hfind
        · rw [findName, List.find?_cons_of_neg (by simpa [hi'] using hne)]
          exact hsome
  | @same seen i' items others hrest ih =>
    rcases List.mem_cons.mp hi with rfl | hi
    · exact Or.inl List.mem_cons_self
    · rcases ih hi with hmem | ⟨m, hm, hname, hfind, hsome⟩
      · exact Or.inl (List.mem_cons_of_mem _ hmem)
      · rw [List.mem_append, not_or] at hm
        have hne : i'.strAt "name" ≠ some m := fun he => hm.1 (by simp [he])
        refine Or.inr ⟨m, hm.2, hname, ?_, ?_⟩
        · rw [findName, List.find?_cons_of_neg (by simpa using hne)]
          exact hfind
        · rw [findName, List.find?_cons_of_neg (by simpa using hne)]
          exact hsome

theorem alike_fresh {seen : List String} {new : List Json} (hnew : Ascending nameOf new)
    (hfresh : ∀ p ∈ new, p.strAt "name" = some (nameOf p) ∧ nameOf p ∉ seen) :
    Alike seen (new.map prune) new := by
  induction new generalizing seen with
  | nil => exact .nil
  | cons p new ih =>
    obtain ⟨hp, hrest⟩ := List.pairwise_cons.mp hnew
    obtain ⟨hname, hseen⟩ := hfresh p List.mem_cons_self
    apply Alike.first ((strAt_prune "name" p).trans hname) hname hseen
    apply ih hrest
    intro q hq
    obtain ⟨hq', hseen'⟩ := hfresh q (List.mem_cons_of_mem _ hq)
    refine ⟨hq', ?_⟩
    rw [List.mem_cons, not_or]
    exact ⟨(hp q hq).ne', hseen'⟩

/-- The pruned list is alike to the list itself without the items pruning hides. -/
theorem Alike.prune_append {seen : List String} {items kept new : List Json}
    (h : Alike seen items kept) (hitems : ∀ i ∈ items, prune i = i) (hnew : Ascending nameOf new)
    (hfresh : ∀ p ∈ new, p.strAt "name" = some (nameOf p) ∧ findName (nameOf p) items = none ∧
      nameOf p ∉ seen) : Alike seen (kept.map prune ++ new.map prune) (kept ++ new) := by
  induction h with
  | nil => exact alike_fresh hnew fun p hp => ⟨(hfresh p hp).1, (hfresh p hp).2.2⟩
  | @first seen i k n items others hi hk hn hrest ih =>
    apply Alike.first ((strAt_prune "name" k).trans hk) hk hn
    apply ih fun j hj => hitems j (List.mem_cons_of_mem _ hj)
    intro p hp
    obtain ⟨hname, hfind, hseen⟩ := hfresh p hp
    have hne : n ≠ nameOf p := by
      intro he
      simp [findName, hi, he] at hfind
    rw [findName, List.find?_cons_of_neg (by simpa [hi] using hne)] at hfind
    refine ⟨hname, hfind, ?_⟩
    rw [List.mem_cons, not_or]
    exact ⟨hne.symm, hseen⟩
  | @same seen i items others hrest ih =>
    rw [List.map_cons, hitems i List.mem_cons_self]
    apply Alike.same
    apply ih fun j hj => hitems j (List.mem_cons_of_mem _ hj)
    intro p hp
    obtain ⟨hname, hfind, hseen⟩ := hfresh p hp
    have hne : i.strAt "name" ≠ some (nameOf p) := by
      intro he
      simp [findName, he] at hfind
    rw [findName, List.find?_cons_of_neg (by simpa using hne)] at hfind
    refine ⟨hname, hfind, ?_⟩
    rw [List.mem_append, not_or]
    exact ⟨by simpa using hne, hseen⟩

/-- A sorted run of writes extends the list. -/
theorem writes_extends {items : List Json} (hds : ∀ d ∈ ds, ∃ n q, d = .keyed "name" n :: q)
    (hsorted : Sorted ds) (h : writes a ds (.array items) = .ok r) :
    ∃ kept new, r = .array (kept ++ new) ∧ Extends items kept new := by
  rw [← List.append_nil items] at h
  obtain ⟨kept, new, rfl, hkept, hnew, hfresh⟩ := writes_array_shape hds hsorted h
    (Alike.refl [] items) List.Pairwise.nil (by simp) (by simp)
  exact ⟨kept, new, rfl, hkept, hnew, hfresh⟩

/-- Writing into a pruned list restores it if it restores each item, and those that
pruning hides were the last. -/
theorem writes_pruned_array {items kept new : List Json} (hex : Extends items kept new)
    (hds : ∀ d ∈ ds, ∃ n q, d = .keyed "name" n :: q) (hsorted : Sorted ds)
    (hitems : ∀ i ∈ items, prune i = i) (hkept : ∀ i ∈ kept, bare i = false)
    (hnone : ∀ n, child a (.keyed "name" n) = none →
      findName n (kept.map prune ++ (rich new).map prune) = findName n (kept ++ new)) :
    writes a ds (prune (.array (kept ++ new))) = .ok (.array (kept ++ new)) ↔
      rich new ++ plain new = new ∧ ∀ n b, child a (.keyed "name" n) = some b →
        fills (.keyed "name" n) b (tails (.keyed "name" n) ds)
          (findName n (kept.map prune ++ (rich new).map prune)) = .ok (findName n (kept ++ new)) := by
  rw [prune_added hkept]
  have hrich : ∀ p ∈ rich new, p ∈ new ∧ bare p = false := by
    intro p hp
    simpa [rich] using hp
  constructor
  · intro h
    refine ⟨?_, fun n b hb => writes_child h (apart_keyed hds) hb⟩
    obtain ⟨kept', new', he, hex'⟩ := writes_extends hds hsorted h
    have hlength := hex'.alike.length_eq
    rw [List.length_append, List.length_map, List.length_map] at hlength
    have hsplit := Json.array.inj he
    obtain ⟨mid, rfl, hnew⟩ : ∃ mid, kept' = kept ++ mid ∧ new = mid ++ new' := by
      rcases List.append_eq_append_iff.mp hsplit with ⟨mid, hk, hn⟩ | ⟨mid, hk, hn⟩
      · exact ⟨mid, hk, hn⟩
      · have hmid : mid = [] := by
          apply List.eq_nil_of_length_eq_zero
          have hk' := congrArg List.length hk
          rw [List.length_append] at hk'
          omega
        subst hmid
        exact ⟨[], by simpa using hk.symm, by simpa using hn.symm⟩
    -- What comes after the pruned items has names that those have not.
    have hlast : ∀ p ∈ new', bare p = true := by
      intro p hp
      by_contra hbare
      rw [Bool.not_eq_true] at hbare
      have hmem : p ∈ new := by
        rw [hnew]
        exact List.mem_append_right _ hp
      have hread := hex.findName_rich (n := nameOf p) (by
        intro q hq hname
        rwa [hex.ascending.eq_of_key hq hmem hname])
      rw [(hex'.fresh p hp).2, hex.findName_new hmem] at hread
      cases hread
    have hnone' : rich new' = [] := by
      rw [rich, List.filter_eq_nil_iff]
      intro p hp
      simp [hlast p hp]
    have hself : plain new' = new' := by
      rw [plain, List.filter_eq_self]
      exact hlast
    have hrichs : rich new = rich mid := by
      rw [hnew, rich, List.filter_append]
      change rich mid ++ rich new' = _
      rw [hnone', List.append_nil]
    have hmid : rich mid = mid := by
      apply List.filter_sublist.eq_of_length
      change (rich mid).length = _
      rw [List.length_append, hrichs] at hlength
      omega
    have hplain : plain mid = [] := by
      rw [plain, List.filter_eq_nil_iff]
      intro p hp
      rw [← hmid] at hp
      have hbare := (List.mem_filter.mp hp).2
      simpa using hbare
    rw [hrichs, hmid]
    have hplains : plain new = plain mid ++ plain new' := by
      rw [hnew]
      exact List.filter_append mid new'
    rw [hplains, hplain, hself, List.nil_append, ← hnew]
  · rintro ⟨horder, hall⟩
    have hwhole : kept ++ new = (kept ++ rich new) ++ plain new := by
      rw [List.append_assoc, horder]
    rw [hwhole] at hall hnone ⊢
    apply writes_array_eq hds hsorted _ (hex.ascending.filter _) _ hall hnone
    · apply hex.alike.prune_append hitems (hex.ascending.filter _)
      intro p hp
      obtain ⟨hname, hfresh⟩ := hex.fresh p (hrich p hp).1
      exact ⟨hname, hfresh, by simp⟩
    · intro p hp
      obtain ⟨hmem, hbare⟩ := List.mem_filter.mp hp
      exact ⟨(hex.fresh p hmem).1, hex.findName_plain hmem hbare⟩

theorem adds_here {items : List Json} {n : String} : Adds ds (some (.array items)) [] n ↔
    findName n items = none ∧ ∃ q, .keyed "name" n :: q ∈ ds := by
  have hread : get (.array items) [.keyed "name" n] = findName n items := by
    rw [get_cons, child_array]
    cases findName n items <;> rfl
  rw [Adds, Option.bind_some, List.nil_append, hread]
  rfl

section Items

variable {source items kept new : List Json}

/-- A run of writes into a list, item by item. -/
structure ListRun (source : List Json) (ds : List Path) (items kept new : List Json) : Prop where
  heads : ∀ d ∈ ds, ∃ n q, d = .keyed "name" n :: q
  sorted : Sorted ds
  names : ∀ d ∈ ds, NameKeyed d
  ends : ∀ c key value, c ++ [.keyed key value] ∉ ds
  val : ∀ d ∈ ds, (get (.array source) d).isSome
  clean : noBare (.array items) = true
  members : (Json.array (kept ++ new)).sorted = true
  run : writes (.array source) ds (.array items) = .ok (.array (kept ++ new))
  extension : Extends items kept new

theorem ListRun.filled (h : ListRun source ds items kept new) {n : String}
    (hb : child (.array source) (.keyed "name" n) = some b) :
    fills (.keyed "name" n) b (tails (.keyed "name" n) ds) (findName n items) =
      .ok (findName n (kept ++ new)) :=
  writes_child h.run (apart_keyed h.heads) hb

theorem ListRun.tails_ne_whole (h : ListRun source ds items kept new) (n : String) :
    [] ∉ tails (.keyed "name" n) ds :=
  fun hq => h.ends [] "name" n (mem_tails.mp hq)

theorem ListRun.item (h : ListRun source ds items kept new) {i : Json} (hi : i ∈ items) :
    bare i = false ∧ prune i = i := by
  obtain ⟨hbare, hinside⟩ := (noBare_array items).mp h.clean i hi
  exact ⟨hbare, (prune_eq_self_iff i).mpr hinside⟩

/-- The old items keep more than their name. -/
theorem ListRun.bare_kept (h : ListRun source ds items kept new) :
    ∀ i ∈ kept, bare i = false := by
  intro i hi
  rcases h.extension.alike.mem_cases hi with hold | ⟨n, _, _, hfind, hsome⟩
  · exact (h.item hold).1
  · obtain ⟨i₀, hi₀⟩ := Option.isSome_iff_exists.mp hsome
    have hread : findName n (kept ++ new) = some i := (h.extension.findName_old hsome).trans hfind
    have hrich := (h.item (findName_mem hi₀).1).1
    cases hb : child (.array source) (.keyed "name" n) with
    | none =>
      have hsame : findName n (kept ++ new) = findName n items :=
        writes_child_none h.run (apart_keyed h.heads) hb
      rw [hread, hi₀] at hsame
      rwa [Option.some.inj hsame]
    | some b =>
      have hfill := h.filled hb
      rw [hi₀, hread, fills_some, map_some_eq_iff] at hfill
      exact bare_writes (h.tails_ne_whole n) hrich hfill

/-- The added items are those the writes reach and the list did not have. -/
theorem ListRun.adds_iff (h : ListRun source ds items kept new) {n : String} :
    Adds ds (some (.array items)) [] n ↔ ∃ p ∈ new, nameOf p = n := by
  rw [adds_here]
  constructor
  · rintro ⟨hnone, q, hq⟩
    have hmem : q ∈ tails (.keyed "name" n) ds := mem_tails.mpr hq
    cases hb : child (.array source) (.keyed "name" n) with
    | none =>
      rw [tails_eq_nil_of_child h.val hb] at hmem
      cases hmem
    | some b =>
      have hfill := h.filled hb
      rw [hnone, fills_missing (List.ne_nil_of_mem hmem) (h.tails_ne_whole n)
        (tails_val h.val hb)] at hfill
      obtain ⟨p, hp, _⟩ := map_some_eq_ok hfill
      exact ⟨p, h.extension.mem_new hnone hp⟩
  · rintro ⟨p, hp, rfl⟩
    refine ⟨(h.extension.fresh p hp).2, ?_⟩
    by_contra hnot
    have hread := h.extension.findName_new hp
    cases hb : child (.array source) (.keyed "name" (nameOf p)) with
    | none =>
      have hsame : findName (nameOf p) (kept ++ new) = findName (nameOf p) items :=
        writes_child_none h.run (apart_keyed h.heads) hb
      rw [hread, (h.extension.fresh p hp).2] at hsame
      cases hsame
    | some b =>
      have hfill := h.filled hb
      rw [tails_eq_nil fun q hq => hnot ⟨q, hq⟩, (h.extension.fresh p hp).2, hread] at hfill
      cases hfill

theorem ListRun.made (h : ListRun source ds items kept new) {p : Json} (hp : p ∈ new) :
    ∃ b, child (.array source) (.keyed "name" (nameOf p)) = some b ∧
      writes b (tails (.keyed "name" (nameOf p)) ds) (.object [("name", .string (nameOf p))]) =
        .ok p := by
  obtain ⟨hnone, q, hq⟩ := adds_here.mp (h.adds_iff.mpr ⟨p, hp, rfl⟩)
  have hmem : q ∈ tails (.keyed "name" (nameOf p)) ds := mem_tails.mpr hq
  cases hb : child (.array source) (.keyed "name" (nameOf p)) with
  | none =>
    rw [tails_eq_nil_of_child h.val hb] at hmem
    cases hmem
  | some b =>
    have hfill := h.filled hb
    rw [hnone, h.extension.findName_new hp, fills_missing (List.ne_nil_of_mem hmem)
      (h.tails_ne_whole _) (tails_val h.val hb), map_some_eq_iff] at hfill
    exact ⟨b, rfl, hfill⟩

/-- An added item has its name only if that is all the writes give it. -/
theorem ListRun.bare_iff (h : ListRun source ds items kept new) {p : Json} (hp : p ∈ new) :
    bare p = true ↔ NameOnly ds [] (nameOf p) := by
  obtain ⟨b, hb, hmade⟩ := h.made hp
  have hsorted : p.sorted = true :=
    Json.sorted_array.mp h.members p (List.mem_append_right _ hp)
  rw [bare_writes_seed (h.sorted.tails _) (h.tails_ne_whole _) (tails_val h.val hb)
    (child_keyed_strAt hb) hsorted hmade]
  simp only [mem_tails]
  rfl

theorem ListRun.order_iff (h : ListRun source ds items kept new) :
    rich new ++ plain new = new ↔ ∀ m n, m < n → Adds ds (some (.array items)) [] m →
      Adds ds (some (.array items)) [] n → NameOnly ds [] m → NameOnly ds [] n := by
  rw [rich_append_plain h.extension.ascending]
  constructor
  · intro hall m n hmn hm hn honly
    obtain ⟨p, hp, rfl⟩ := h.adds_iff.mp hm
    obtain ⟨q, hq, rfl⟩ := h.adds_iff.mp hn
    rw [← h.bare_iff hq]
    exact hall p hp q hq hmn ((h.bare_iff hp).mpr honly)
  · intro hall p hp q hq hlt hbare
    rw [h.bare_iff hq]
    exact hall _ _ hlt (h.adds_iff.mpr ⟨p, hp, rfl⟩) (h.adds_iff.mpr ⟨q, hq, rfl⟩)
      ((h.bare_iff hp).mp hbare)

theorem ListRun.unwritten (h : ListRun source ds items kept new) {n : String}
    (hb : child (.array source) (.keyed "name" n) = none) :
    findName n (kept.map prune ++ (rich new).map prune) = findName n (kept ++ new) := by
  have hsame : findName n (kept ++ new) = findName n items :=
    writes_child_none h.run (apart_keyed h.heads) hb
  rw [h.extension.findName_rich, hsame]
  · cases hi : findName n items with
    | none => rfl
    | some i => rw [Option.map_some, (h.item (findName_mem hi).1).2]
  · rintro p hp rfl
    rw [h.extension.findName_new hp, (h.extension.fresh p hp).2] at hsame
    cases hsame

theorem ListRun.item_again (h : ListRun source ds items kept new)
    (ih : ∀ i ∈ source, RestoredFrom i) {n : String}
    (hb : child (.array source) (.keyed "name" n) = some b) :
    fills (.keyed "name" n) b (tails (.keyed "name" n) ds)
        (findName n (kept.map prune ++ (rich new).map prune)) = .ok (findName n (kept ++ new)) ↔
      Stays (tails (.keyed "name" n) ds) (findName n items) := by
  by_cases hplain : ∃ p ∈ new, nameOf p = n ∧ bare p = true
  · -- The first run made the item from nothing, and so does the second.
    obtain ⟨p, hp, rfl, hbare⟩ := hplain
    have hfill := h.filled hb
    rw [(h.extension.fresh p hp).2] at hfill ⊢
    rw [h.extension.findName_plain hp hbare]
    simp only [hfill, true_iff]
    have honly := (h.bare_iff hp).mp hbare
    rintro c m _ _ _ ⟨_, q, hq⟩
    have he := honly _ (mem_tails.mp hq)
    cases c with
    | nil => cases he
    | cons t c =>
      injection he with _ he
      have hlength := congrArg List.length he
      simp at hlength
  · rw [h.extension.findName_rich]
    · apply fills_again (ih b (List.mem_of_find?_eq_some hb)) (h.sorted.tails _)
        (tails_keyed h.names) (tails_end h.ends) (tails_val h.val hb) _ _ (h.filled hb)
      · intro i hi
        exact ((noBare_array items).mp h.clean i (findName_mem hi).1).2
      · intro i hi
        exact Json.sorted_array.mp h.members i (findName_mem hi).1
    · intro p hp hname
      by_contra hbare
      rw [Bool.not_eq_false] at hbare
      exact hplain ⟨p, hp, hname, hbare⟩

end Items

theorem restored_array {source : List Json} (ih : ∀ i ∈ source, RestoredFrom i) :
    RestoredFrom (.array source) := by
  intro ds k m hsorted hkeyed hnil hend hval hk hm h
  by_cases hne : ds = []
  · subst hne
    exact writes_nil_again hk h
  · have hds := keyed_heads hnil hkeyed hval
    obtain ⟨items, rfl⟩ := array_of_writes hne hds hval h
    obtain ⟨kept, new, rfl, hex⟩ := writes_extends hds hsorted h
    have hrun : ListRun source ds items kept new :=
      ⟨hds, hsorted, hkeyed, hend, hval, hk, hm, h, hex⟩
    rw [writes_pruned_array hex hds hsorted (fun i hi => (hrun.item hi).2) hrun.bare_kept
      (fun n hb => hrun.unwritten hb), stays_iff hnil, hrun.order_iff]
    apply and_congr_right
    intro _
    constructor
    · intro hall s
      cases hb : child (.array source) s with
      | none =>
        rw [tails_eq_nil_of_child hval hb]
        exact stays_nil _
      | some b =>
        cases s with
        | field name => cases hb
        | keyed key n =>
          by_cases hkey : key = "name"
          · subst hkey
            exact (hrun.item_again ih hb).mp (hall n b hb)
          · rw [tails_eq_nil]
            · exact stays_nil _
            · intro q hq
              exact hkey (hkeyed _ hq key n (by simp))
    · intro hbelow n b hb
      exact (hrun.item_again ih hb).mpr (hbelow (.keyed "name" n))

/-- Pruning what a run of writes made and writing again restores it exactly if the items
added with their name only were added last. -/
theorem restoredFrom (b : Json) : RestoredFrom b := by
  induction b with
  | object fields ih => exact restored_object ih
  | array items ih => exact restored_array ih
  | _ =>
    intro ds k m _ _ hnil _ hval hk _ h
    have hne : ds = [] := by
      apply List.eq_nil_iff_forall_not_mem.mpr
      intro d hd
      have hsome := hval d hd
      cases d with
      | nil => exact hnil hd
      | cons s d => cases s <;> cases hsome
    subst hne
    exact writes_nil_again hk h

end Hedronetes.Apply
