import Hedronetes.Foundations.CursorScan
import Hedronetes.Apply.PathOrder
import Hedronetes.Apply.Merge

/-!
# Runs of writes, child by child

A run of writes of one object's values acts on each child of a container by the
writes that lead there, whatever the others do. What is left to say about the
container itself is the order of its members: an object keeps them sorted, and a
list keeps its items in place and appends the new ones in the order of their names.
-/

namespace Hedronetes.Apply

open FirstMatch Fallible CursorScan

variable {a b j j' r : Json} {s : Segment} {ds : List Path}

/-- Writes the value another object has at the path, if it has one. -/
def write (a j : Json) (d : Path) : Outcome Json :=
  match get a d with
  | some w => put j d w
  | none => .ok j

def writes (a : Json) (ds : List Path) (j : Json) : Outcome Json := ds.foldlM (write a) j

/-- A write into a child that may be missing. -/
def fill (s : Segment) (b : Json) (o : Option Json) (d : Path) : Outcome (Option Json) :=
  match get b d with
  | some w => (put (o.getD (fresh s d)) d w).map some
  | none => .ok o

def fills (s : Segment) (b : Json) (ds : List Path) (o : Option Json) : Outcome (Option Json) :=
  ds.foldlM (fill s b) o

theorem settle_eq_write {d : Path} (h : d ≠ []) : settle a j d = write a j d := by
  unfold settle write
  cases get a d with
  | none => rfl
  | some w =>
    cases d with
    | nil => exact absurd rfl h
    | cons s d => rfl

theorem settles_eq_writes (h : [] ∉ ds) : ds.foldlM (settle a) j = writes a ds j := by
  unfold writes
  induction ds generalizing j with
  | nil => rfl
  | cons d ds ih =>
    rw [List.foldlM_cons, List.foldlM_cons, settle_eq_write fun he => h (he ▸ List.mem_cons_self)]
    apply congrArg
    funext k
    exact ih fun hmem => h (List.mem_cons_of_mem _ hmem)

theorem writes_cons_ok {d : Path} (h : writes a (d :: ds) j = .ok r) :
    ∃ k, write a j d = .ok k ∧ writes a ds k = .ok r := by
  unfold writes at h
  rw [List.foldlM_cons] at h
  exact bind_eq_ok.mp h

theorem writes_cons {d : Path} {k : Json} (h : write a j d = .ok k) :
    writes a (d :: ds) j = writes a ds k := by
  unfold writes
  rw [List.foldlM_cons, h]
  rfl

theorem fills_cons {d : Path} {o o' : Option Json} (h : fill s b o d = .ok o') :
    fills s b (d :: ds) o = fills s b ds o' := by
  unfold fills
  rw [List.foldlM_cons, h]
  rfl

theorem fills_cons_ok {d : Path} {o o' : Option Json} (h : fills s b (d :: ds) o = .ok o') :
    ∃ o₁, fill s b o d = .ok o₁ ∧ fills s b ds o₁ = .ok o' := by
  unfold fills at h
  rw [List.foldlM_cons] at h
  exact bind_eq_ok.mp h

/-! ## Writes and fills -/

theorem fill_some (d : Path) : fill s b (some j) d = (write b j d).map some := by
  unfold fill write
  cases get b d <;> rfl

theorem fill_none {d : Path} {w : Json} (h : get b d = some w) :
    fill s b none d = (write b (fresh s d) d).map some := by
  unfold fill write
  rw [h]
  rfl

theorem fills_some : fills s b ds (some j) = (writes b ds j).map some := by
  induction ds generalizing j with
  | nil => rfl
  | cons d ds ih =>
    unfold fills writes at *
    rw [List.foldlM_cons, List.foldlM_cons, fill_some]
    cases write b j d with
    | error e => rfl
    | ok k => exact ih

theorem map_some_eq_ok {x : Outcome Json} {o : Option Json} (h : x.map some = .ok o) :
    ∃ v, o = some v ∧ x = .ok v := by
  cases x with
  | error e => cases h
  | ok v => exact ⟨v, (Except.ok.inj h).symm, rfl⟩

/-- Where nothing is written, a missing child stays missing. -/
theorem fills_of_none {o : Option Json} (h : ∀ d ∈ ds, get b d = none) :
    fills s b ds o = .ok o := by
  induction ds with
  | nil => rfl
  | cons d ds ih =>
    have hd : fill s b o d = .ok o := by rw [fill, h d List.mem_cons_self]
    rw [fills_cons hd]
    exact ih fun e he => h e (List.mem_cons_of_mem _ he)

/-- A missing child is created as a container that fits whatever is written there. -/
theorem fills_none {x : Json} (hsome : ∃ d ∈ ds, (get b d).isSome)
    (hx : ∀ d ∈ ds, (get b d).isSome → write b (fresh s d) d = write b x d) :
    fills s b ds none = (writes b ds x).map some := by
  induction ds with
  | nil =>
    obtain ⟨d, hd, _⟩ := hsome
    cases hd
  | cons d ds ih =>
    cases hd : get b d with
    | none =>
      have hfill : fill s b none d = .ok none := by rw [fill, hd]
      have hwrite : write b x d = .ok x := by rw [write, hd]
      rw [fills_cons hfill, writes_cons hwrite]
      apply ih
      · obtain ⟨e, he, hvalue⟩ := hsome
        rcases List.mem_cons.mp he with rfl | he
        · rw [hd] at hvalue
          cases hvalue
        · exact ⟨e, he, hvalue⟩
      · exact fun e he => hx e (List.mem_cons_of_mem _ he)
    | some w =>
      have hfill := fill_none (s := s) hd
      rw [hx d List.mem_cons_self (by simp [hd])] at hfill
      unfold fills writes
      rw [List.foldlM_cons, List.foldlM_cons, hfill]
      cases write b x d with
      | error e => rfl
      | ok k => exact fills_some

/-! ## Child by child -/

theorem get_eq_none_of_child (h : child a s = none) (x : Path) : get a (s :: x) = none := by
  rw [get_cons, h]
  rfl

theorem write_child {x : Path} (h : write a j (s :: x) = .ok j') (hb : child a s = some b) :
    fill s b (child j s) x = .ok (child j' s) := by
  unfold write at h
  unfold fill
  have hget : get a (s :: x) = get b x := by rw [get_cons, hb]; rfl
  rw [hget] at h
  cases hw : get b x with
  | none =>
    simp only [hw] at h
    rw [Except.ok.inj h]
  | some w =>
    simp only [hw] at h
    obtain ⟨current, hcurrent, hchild, _⟩ := put_cons h (hget.trans hw)
    rw [hchild]
    dsimp only
    rw [hcurrent]
    rfl

theorem write_child_apart {t : Segment} {x : Path} (h : write a j (t :: x) = .ok j')
    (hts : t.Apart s) : child j' s = child j s := by
  unfold write at h
  cases hw : get a (t :: x) with
  | none =>
    simp only [hw] at h
    rw [Except.ok.inj h]
  | some w =>
    simp only [hw] at h
    obtain ⟨_, _, _, hothers⟩ := put_cons h hw
    exact hothers s hts

/-- A run of writes fills each child with what leads there. -/
theorem writes_child (h : writes a ds j = .ok r)
    (hds : ∀ d ∈ ds, ∃ t q, d = t :: q ∧ (t = s ∨ t.Apart s)) (hb : child a s = some b) :
    fills s b (tails s ds) (child j s) = .ok (child r s) := by
  induction ds generalizing j with
  | nil => rw [Except.ok.inj h]; rfl
  | cons d ds ih =>
    obtain ⟨k, hk, hrest⟩ := writes_cons_ok h
    have hih := ih hrest fun e he => hds e (List.mem_cons_of_mem _ he)
    obtain ⟨t, q, rfl, hts⟩ := hds d List.mem_cons_self
    by_cases ht : t = s
    · subst ht
      rwa [tails_cons_self, fills_cons (write_child hk hb)]
    · rw [tails_cons_ne ht, ← write_child_apart hk (hts.resolve_left ht)]
      exact hih

theorem writes_child_none (h : writes a ds j = .ok r)
    (hds : ∀ d ∈ ds, ∃ t q, d = t :: q ∧ (t = s ∨ t.Apart s)) (hb : child a s = none) :
    child r s = child j s := by
  induction ds generalizing j with
  | nil => rw [Except.ok.inj h]
  | cons d ds ih =>
    obtain ⟨k, hk, hrest⟩ := writes_cons_ok h
    rw [ih hrest fun e he => hds e (List.mem_cons_of_mem _ he)]
    obtain ⟨t, q, rfl, hts⟩ := hds d List.mem_cons_self
    by_cases ht : t = s
    · subst ht
      rw [write, get_eq_none_of_child hb] at hk
      rw [Except.ok.inj hk]
    · exact write_child_apart hk (hts.resolve_left ht)

/-! ## Objects -/

theorem write_field {name : String} {x : Path} {fields : List (String × Json)}
    (h : ∀ b, child a (.field name) = some b →
      ∃ o, fill (.field name) b (lookup name fields) x = .ok o) :
    ∃ fields', write a (.object fields) (.field name :: x) = .ok (.object fields') ∧
      (KeysSorted fields → KeysSorted fields') := by
  cases hb : child a (.field name) with
  | none =>
    refine ⟨fields, ?_, id⟩
    rw [write, get_eq_none_of_child hb]
  | some b =>
    obtain ⟨o, ho⟩ := h b hb
    have hget : get a (.field name :: x) = get b x := by rw [get_cons, hb]; rfl
    unfold fill at ho
    unfold write
    rw [hget]
    cases hw : get b x with
    | none => exact ⟨fields, rfl, id⟩
    | some w =>
      rw [hw] at ho
      obtain ⟨c, _, hc⟩ := map_some_eq_ok ho
      refine ⟨insertKey name c fields, ?_, fun hsorted => hsorted.insertKey⟩
      have hput : put ((lookup name fields).getD (emptyFor x)) x w = .ok c := hc
      simp only [put, hput]
      rfl

/-- Writes into an object go through when they do for each of its members. -/
theorem writes_object {fields : List (String × Json)}
    (hds : ∀ d ∈ ds, ∃ name q, d = .field name :: q)
    (h : ∀ name b, child a (.field name) = some b →
      ∃ o, fills (.field name) b (tails (.field name) ds) (lookup name fields) = .ok o) :
    ∃ fields', writes a ds (.object fields) = .ok (.object fields') ∧
      (KeysSorted fields → KeysSorted fields') := by
  induction ds generalizing fields with
  | nil => exact ⟨fields, rfl, id⟩
  | cons d ds ih =>
    obtain ⟨name, x, rfl⟩ := hds d List.mem_cons_self
    obtain ⟨fields₁, hwrite, hsorted₁⟩ : ∃ fields₁,
        write a (.object fields) (.field name :: x) = .ok (.object fields₁) ∧
          (KeysSorted fields → KeysSorted fields₁) := by
      apply write_field
      intro b hb
      obtain ⟨o, ho⟩ := h name b hb
      rw [tails_cons_self] at ho
      obtain ⟨o₁, ho₁, _⟩ := fills_cons_ok ho
      exact ⟨o₁, ho₁⟩
    have hothers : ∀ other b, child a (.field other) = some b →
        ∃ o, fills (.field other) b (tails (.field other) ds) (lookup other fields₁) = .ok o := by
      intro other b hb
      obtain ⟨o, ho⟩ := h other b hb
      by_cases hname : other = name
      · subst hname
        have hfill : fill (.field other) b (lookup other fields) x = .ok (lookup other fields₁) :=
          write_child hwrite hb
        rw [tails_cons_self, fills_cons hfill] at ho
        exact ⟨o, ho⟩
      · have hne : Segment.field name ≠ .field other := fun he => hname (by injection he.symm)
        have hapart : (Segment.field name).Apart (.field other) := fun he => hname he.symm
        rw [tails_cons_ne hne] at ho
        have hsame : lookup other fields₁ = lookup other fields :=
          write_child_apart hwrite hapart
        rw [hsame]
        exact ⟨o, ho⟩
    obtain ⟨fields', hrest, hsorted⟩ := ih (fun e he => hds e (List.mem_cons_of_mem _ he)) hothers
    rw [writes_cons hwrite]
    exact ⟨fields', hrest, fun hkeys => hsorted (hsorted₁ hkeys)⟩

/-- Writes into an object make the object whose members they make. -/
theorem writes_object_eq {fields target : List (String × Json)}
    (hds : ∀ d ∈ ds, ∃ name q, d = .field name :: q)
    (hfields : KeysSorted fields) (htarget : KeysSorted target)
    (hsome : ∀ name b, child a (.field name) = some b →
      fills (.field name) b (tails (.field name) ds) (lookup name fields) =
        .ok (lookup name target))
    (hnone : ∀ name, child a (.field name) = none → lookup name fields = lookup name target) :
    writes a ds (.object fields) = .ok (.object target) := by
  obtain ⟨fields', hwrites, hsorted⟩ :=
    writes_object hds fun name b hb => ⟨_, hsome name b hb⟩
  rw [hwrites, (hsorted hfields).ext htarget]
  intro name
  have hapart : ∀ d ∈ ds, ∃ t q, d = t :: q ∧ (t = .field name ∨ t.Apart (.field name)) := by
    intro d hd
    obtain ⟨other, q, rfl⟩ := hds d hd
    refine ⟨_, q, rfl, ?_⟩
    by_cases hname : other = name
    · exact Or.inl (by rw [hname])
    · exact Or.inr hname
  cases hb : child a (.field name) with
  | none => exact (writes_child_none hwrites hapart hb).trans (hnone name hb)
  | some b =>
    have hread := writes_child hwrites hapart hb
    exact Except.ok.inj (hread.symm.trans (hsome name b hb))

/-! ## Lists -/

/-- The name of a list item. -/
def nameOf (item : Json) : String := (item.strAt "name").getD ""

/-- The item of the name, in the list alone. -/
def findName (n : String) (items : List Json) : Option Json :=
  items.find? fun item => item.strAt "name" = some n

/-- Two lists with the same names in the same order, which differ only in items that
are the first of their name, and of none of the names already seen. -/
inductive Alike : List String → List Json → List Json → Prop
  | nil {seen : List String} : Alike seen [] []
  | first {seen : List String} {i k : Json} {n : String} {items others : List Json} :
      i.strAt "name" = some n → k.strAt "name" = some n → n ∉ seen →
        Alike (n :: seen) items others → Alike seen (i :: items) (k :: others)
  | same {seen : List String} {i : Json} {items others : List Json} :
      Alike ((i.strAt "name").toList ++ seen) items others → Alike seen (i :: items) (i :: others)

theorem Alike.refl (seen : List String) (items : List Json) : Alike seen items items := by
  induction items generalizing seen with
  | nil => exact .nil
  | cons i items ih => exact .same (ih _)

/-- Replacing the first item of a name keeps the lists alike. -/
theorem Alike.update {seen : List String} {items others : List Json} (h : Alike seen items others)
    {n : String} (hn : n ∉ seen) {c : Json} (hc : c.strAt "name" = some n) :
    Alike seen items
      (updateFirst (fun item => item.strAt "name" = some n) (fun _ => c) others) := by
  induction h with
  | nil => exact .nil
  | @first seen i k m items others hi hk hm hrest ih =>
    unfold updateFirst
    by_cases hmn : m = n
    · subst hmn
      rw [if_pos (by simp [hk])]
      exact .first hi hc hm hrest
    · rw [if_neg (by simpa [hk] using hmn)]
      apply Alike.first hi hk hm
      apply ih
      simp [hn, Ne.symm hmn]
  | @same seen i items others hrest ih =>
    unfold updateFirst
    by_cases hi : i.strAt "name" = some n
    · rw [if_pos (by simp [hi])]
      rw [hi] at hrest
      exact .first hi hc hn hrest
    · rw [if_neg (by simpa using hi)]
      apply Alike.same
      apply ih
      simp [hn, hi]

theorem Alike.findName_isSome {seen : List String} {items others : List Json}
    (h : Alike seen items others) (n : String) :
    (findName n others).isSome = (findName n items).isSome := by
  unfold findName
  induction h with
  | nil => rfl
  | @first seen i k m items others hi hk hm hrest ih =>
    by_cases hmn : m = n
    · simp [hi, hk, hmn]
    · simpa [hi, hk, hmn] using ih
  | @same seen i items others hrest ih =>
    by_cases hi : i.strAt "name" = some n
    · simp [hi]
    · simpa [hi] using ih

theorem Alike.findName_eq_none {seen : List String} {items others : List Json}
    (h : Alike seen items others) {n : String} (hn : findName n items = none) :
    findName n others = none := by
  have hsome := h.findName_isSome n
  rw [hn] at hsome
  exact Option.not_isSome_iff_eq_none.mp (by rw [hsome]; simp)

/-- Two lists alike to a third are equal if each name finds the same. -/
theorem Alike.eq_of_findName {seen : List String} {items others others' : List Json}
    (h : Alike seen items others) (h' : Alike seen items others')
    (hfind : ∀ n, n ∉ seen → findName n others = findName n others') : others = others' := by
  unfold findName at hfind
  induction h generalizing others' with
  | nil =>
    cases h'
    rfl
  | @first seen i k m items others hi hk hm hrest ih =>
    have hhead : ∀ {k' : Json} {rest' : List Json}, k'.strAt "name" = some m →
        others' = k' :: rest' → k = k' := by
      rintro k' rest' hk' rfl
      simpa [hk, hk'] using hfind m hm
    cases h' with
    | @first _ _ k' m' _ rest' hi' hk' _ hrest' =>
      obtain rfl : m = m' := Option.some.inj (hi.symm.trans hi')
      rw [hhead hk' rfl, ih hrest']
      intro n hn
      rw [List.mem_cons, not_or] at hn
      have hne : m ≠ n := fun he => hn.1 he.symm
      simpa [hk, hk', hne] using hfind n hn.2
    | @same _ _ _ rest' hrest' =>
      rw [hi] at hrest'
      rw [hhead hi rfl, ih hrest']
      intro n hn
      rw [List.mem_cons, not_or] at hn
      have hne : m ≠ n := fun he => hn.1 he.symm
      simpa [hk, hi, hne] using hfind n hn.2
  | @same seen i items others hrest ih =>
    cases h' with
    | @first _ _ k' m _ rest' hi hk' hm hrest' =>
      have hhead : i = k' := by simpa [hi, hk'] using hfind m hm
      rw [hi] at hrest ih
      rw [hhead, ih hrest']
      intro n hn
      change n ∉ m :: seen at hn
      rw [List.mem_cons, not_or] at hn
      have hne : m ≠ n := fun he => hn.1 he.symm
      simpa [hi, hk', hne] using hfind n hn.2
    | @same _ _ _ rest' hrest' =>
      rw [ih hrest']
      intro n hn
      rw [List.mem_append, not_or] at hn
      have hne : i.strAt "name" ≠ some n := fun he => hn.1 (by simp [he])
      simpa [hne] using hfind n hn.2

theorem nameOf_eq {i : Json} {n : String} (h : i.strAt "name" = some n) : nameOf i = n := by
  rw [nameOf, h]
  rfl

theorem findName_mem {n : String} {items : List Json} {i : Json} (h : findName n items = some i) :
    i ∈ items ∧ i.strAt "name" = some n :=
  ⟨List.mem_of_find?_eq_some h, by simpa using List.find?_some h⟩

theorem findName_isSome {n : String} {items : List Json} :
    (findName n items).isSome ↔ ∃ i ∈ items, i.strAt "name" = some n := by
  simp [findName]

theorem child_array (n : String) (items : List Json) :
    child (.array items) (.keyed "name" n) = findName n items := rfl

/-- A write into a list replaces the first item of the name, or appends one. -/
theorem write_keyed_ok {n : String} {x : Path} {items : List Json}
    (h : write a (.array items) (.keyed "name" n :: x) = .ok j')
    (hvalue : (get a (.keyed "name" n :: x)).isSome) :
    ∃ c, c.strAt "name" = some n ∧ j' = .array (match findName n items with
      | some _ => updateFirst (fun item => item.strAt "name" = some n) (fun _ => c) items
      | none => items ++ [c]) := by
  obtain ⟨w, hw⟩ := Option.isSome_iff_exists.mp hvalue
  rw [write, hw] at h
  obtain ⟨others, c, he, hc, rfl⟩ := put_keyed_ok h
  injection he with he
  subst he
  obtain ⟨source, hsource, hget⟩ := Option.bind_eq_some_iff.mp hw
  refine ⟨c, ?_, rfl⟩
  apply strAt_put hc hget (child_keyed_strAt hsource)
  cases hfind : child (.array items) (.keyed "name" n) with
  | none => exact strAt_fresh "name" n x
  | some i => exact child_keyed_strAt hfind

theorem write_keyed {n : String} {x : Path} {items : List Json}
    (h : ∀ b, child a (.keyed "name" n) = some b →
      ∃ o, fill (.keyed "name" n) b (findName n items) x = .ok o) :
    ∃ items', write a (.array items) (.keyed "name" n :: x) = .ok (.array items') := by
  cases hb : child a (.keyed "name" n) with
  | none =>
    refine ⟨items, ?_⟩
    rw [write, get_eq_none_of_child hb]
  | some b =>
    obtain ⟨o, ho⟩ := h b hb
    have hget : get a (.keyed "name" n :: x) = get b x := by rw [get_cons, hb]; rfl
    unfold fill at ho
    unfold write
    rw [hget]
    cases hw : get b x with
    | none => exact ⟨items, rfl⟩
    | some w =>
      rw [hw] at ho
      obtain ⟨c, _, hc⟩ := map_some_eq_ok ho
      unfold findName at hc
      unfold put
      cases hfind : items.find? fun item => item.strAt "name" = some n with
      | none =>
        rw [hfind] at hc
        have hput : put (.object [("name", .string n)]) x w = .ok c := hc
        simp only [hfind, hput]
        exact ⟨_, rfl⟩
      | some i =>
        rw [hfind] at hc
        have hput : put i x w = .ok c := hc
        simp only [hfind, hput]
        exact ⟨_, rfl⟩

/-- Writes into a list go through when they do for each of its names. -/
theorem writes_array {items : List Json}
    (hds : ∀ d ∈ ds, ∃ n q, d = .keyed "name" n :: q)
    (h : ∀ n b, child a (.keyed "name" n) = some b →
      ∃ o, fills (.keyed "name" n) b (tails (.keyed "name" n) ds) (findName n items) = .ok o) :
    ∃ items', writes a ds (.array items) = .ok (.array items') := by
  induction ds generalizing items with
  | nil => exact ⟨items, rfl⟩
  | cons d ds ih =>
    obtain ⟨n, x, rfl⟩ := hds d List.mem_cons_self
    obtain ⟨items₁, hwrite⟩ : ∃ items₁,
        write a (.array items) (.keyed "name" n :: x) = .ok (.array items₁) := by
      apply write_keyed
      intro b hb
      obtain ⟨o, ho⟩ := h n b hb
      rw [tails_cons_self] at ho
      obtain ⟨o₁, ho₁, _⟩ := fills_cons_ok ho
      exact ⟨o₁, ho₁⟩
    have hothers : ∀ m b, child a (.keyed "name" m) = some b →
        ∃ o, fills (.keyed "name" m) b (tails (.keyed "name" m) ds) (findName m items₁) = .ok o := by
      intro m b hb
      obtain ⟨o, ho⟩ := h m b hb
      by_cases hmn : m = n
      · subst hmn
        have hfill : fill (.keyed "name" m) b (findName m items) x = .ok (findName m items₁) :=
          write_child hwrite hb
        rw [tails_cons_self, fills_cons hfill] at ho
        exact ⟨o, ho⟩
      · have hne : Segment.keyed "name" n ≠ .keyed "name" m := by
          intro he
          injection he with _ he
          exact hmn he.symm
        have hapart : (Segment.keyed "name" n).Apart (.keyed "name" m) :=
          ⟨rfl, fun he => hmn he.symm⟩
        rw [tails_cons_ne hne] at ho
        have hsame : findName m items₁ = findName m items := write_child_apart hwrite hapart
        rw [hsame]
        exact ⟨o, ho⟩
    rw [writes_cons hwrite]
    exact ih (fun e he => hds e (List.mem_cons_of_mem _ he)) hothers

theorem le_of_before {n m : String} {x q : Path}
    (h : Before (.keyed "name" n :: x) (.keyed "name" m :: q)) : n ≤ m := by
  rcases before_cons.mp h with hlt | ⟨he, _⟩
  · rw [Segment.compare_keyed, Std.ReflOrd.compare_self] at hlt
    exact le_of_lt (compare_lt_iff_lt.mp hlt)
  · injection he with _ he
    exact le_of_eq he

theorem map_nameOf_updateFirst {n : String} {c : Json} (hc : c.strAt "name" = some n)
    (items : List Json) :
    (updateFirst (fun item => item.strAt "name" = some n) (fun _ => c) items).map nameOf =
      items.map nameOf := by
  induction items with
  | nil => rfl
  | cons i items ih =>
    unfold updateFirst
    split_ifs with hi
    · rw [List.map_cons, List.map_cons, nameOf_eq hc, nameOf_eq (of_decide_eq_true hi)]
    · rw [List.map_cons, List.map_cons, ih]

/-- The list that sorted writes make: the items that were there, in their places, and
the new ones in the order of their names. -/
theorem writes_array_shape {start kept new : List Json} {r : Json}
    (hds : ∀ d ∈ ds, ∃ n q, d = .keyed "name" n :: q) (hsorted : Sorted ds)
    (h : writes a ds (.array (kept ++ new)) = .ok r) (hkept : Alike [] start kept)
    (hnew : Ascending nameOf new)
    (hlow : ∀ p ∈ new, ∀ n q, .keyed "name" n :: q ∈ ds → nameOf p ≤ n)
    (hfresh : ∀ p ∈ new, p.strAt "name" = some (nameOf p) ∧ findName (nameOf p) start = none) :
    ∃ kept' new', r = .array (kept' ++ new') ∧ Alike [] start kept' ∧ Ascending nameOf new' ∧
      ∀ p ∈ new', p.strAt "name" = some (nameOf p) ∧ findName (nameOf p) start = none := by
  induction ds generalizing kept new with
  | nil => exact ⟨kept, new, (Except.ok.inj h).symm, hkept, hnew, hfresh⟩
  | cons d ds ih =>
    obtain ⟨k, hk, hrest⟩ := writes_cons_ok h
    obtain ⟨hd, hlater⟩ := List.pairwise_cons.mp hsorted
    obtain ⟨n, x, rfl⟩ := hds d List.mem_cons_self
    have hds' := fun e he => hds e (List.mem_cons_of_mem (.keyed "name" n :: x) he)
    have hlow' : ∀ p ∈ new, ∀ m q, .keyed "name" m :: q ∈ ds → nameOf p ≤ m :=
      fun p hp m q hq => hlow p hp m q (List.mem_cons_of_mem _ hq)
    cases hvalue : get a (.keyed "name" n :: x) with
    | none =>
      rw [write, hvalue] at hk
      rw [← Except.ok.inj hk] at hrest
      exact ih hds' hlater hrest hkept hnew hlow' hfresh
    | some w =>
      obtain ⟨c, hc, rfl⟩ := write_keyed_ok hk (by simp [hvalue])
      have hstart := hkept.findName_isSome n
      cases hfind : findName n (kept ++ new) with
      | none =>
        -- The write appends an item.
        rw [hfind] at hrest
        obtain ⟨hnone, hnotnew⟩ : findName n kept = none ∧ findName n new = none := by
          simpa [findName, List.find?_append] using hfind
        rw [List.append_assoc] at hrest
        apply ih hds' hlater hrest hkept
        · apply hnew.snoc
          intro p hp
          rw [nameOf_eq hc]
          apply lt_of_le_of_ne (hlow p hp n x List.mem_cons_self)
          intro he
          have hsome := findName_isSome.mpr ⟨p, hp, he ▸ (hfresh p hp).1⟩
          rw [hnotnew] at hsome
          cases hsome
        · intro p hp m q hq
          rcases List.mem_append.mp hp with hp | hp
          · exact hlow' p hp m q hq
          · rw [List.mem_singleton.mp hp, nameOf_eq hc]
            exact le_of_before (hd _ hq)
        · intro p hp
          rcases List.mem_append.mp hp with hp | hp
          · exact hfresh p hp
          · rw [List.mem_singleton.mp hp, nameOf_eq hc]
            refine ⟨hc, ?_⟩
            rw [hnone] at hstart
            exact Option.not_isSome_iff_eq_none.mp (by rw [← hstart]; simp)
      | some i =>
        rw [hfind] at hrest
        dsimp only at hrest
        rw [updateFirst_append] at hrest
        split_ifs at hrest with hin
        · -- It replaces an item that was there.
          exact ih hds' hlater hrest (hkept.update (by simp) hc) hnew hlow' hfresh
        · -- It replaces one that was appended.
          have hmem : ∀ p ∈ updateFirst (fun item => item.strAt "name" = some n) (fun _ => c) new,
              p ∈ new ∨ p = c ∧ ∃ p' ∈ new, p'.strAt "name" = some n := by
            intro p hp
            rcases mem_updateFirst hp with hp | ⟨p', hp', hn, rfl⟩
            · exact Or.inl hp
            · exact Or.inr ⟨rfl, p', hp', of_decide_eq_true hn⟩
          apply ih hds' hlater hrest hkept
          · have hnames := map_nameOf_updateFirst hc new
            unfold Ascending at hnew ⊢
            rw [← List.pairwise_map (f := nameOf) (R := (· < ·))] at hnew ⊢
            rwa [hnames]
          · intro p hp m q hq
            rcases hmem p hp with hp | ⟨rfl, _⟩
            · exact hlow' p hp m q hq
            · rw [nameOf_eq hc]
              exact le_of_before (hd _ hq)
          · intro p hp
            rcases hmem p hp with hp | ⟨rfl, p', hp', hn⟩
            · exact hfresh p hp
            · rw [nameOf_eq hc]
              have hold := (hfresh p' hp').2
              rw [nameOf_eq hn] at hold
              exact ⟨hc, hold⟩

theorem findName_append_of_none {n : String} {items others : List Json}
    (h : findName n items = none) : findName n (items ++ others) = findName n others := by
  unfold findName at *
  rw [List.find?_append, h]
  rfl

theorem findName_append_of_isSome {n : String} {items others : List Json}
    (h : (findName n items).isSome) : findName n (items ++ others) = findName n items := by
  unfold findName at *
  obtain ⟨i, hi⟩ := Option.isSome_iff_exists.mp h
  rw [List.find?_append, hi]
  rfl

/-- In an ascending list a name finds its item. -/
theorem findName_of_ascending {items : List Json} (h : Ascending nameOf items) {i : Json}
    (hi : i ∈ items) (hname : i.strAt "name" = some (nameOf i)) :
    findName (nameOf i) items = some i := by
  obtain ⟨k, hk⟩ := Option.isSome_iff_exists.mp (findName_isSome.mpr ⟨i, hi, hname⟩)
  obtain ⟨hmem, hkname⟩ := findName_mem hk
  rw [hk, h.eq_of_key hmem hi (nameOf_eq hkname)]

/-- The new items of two lists alike in what they kept are the same if each name
finds the same. -/
theorem mem_of_findName {start kept kept' new new' : List Json} (hkept : Alike [] start kept)
    (hkept' : Alike [] start kept') (hnew : Ascending nameOf new)
    (hfresh : ∀ p ∈ new, p.strAt "name" = some (nameOf p) ∧ findName (nameOf p) start = none)
    (hfind : ∀ n, findName n (kept ++ new) = findName n (kept' ++ new')) :
    ∀ p ∈ new, p ∈ new' := by
  intro p hp
  obtain ⟨hname, hstart⟩ := hfresh p hp
  have hread := hfind (nameOf p)
  rw [findName_append_of_none (hkept.findName_eq_none hstart),
    findName_append_of_none (hkept'.findName_eq_none hstart),
    findName_of_ascending hnew hp hname] at hread
  exact (findName_mem hread.symm).1

/-- Sorted writes into a list make the list whose items they make, if that has the old
names in their places and the new ones in order. -/
theorem writes_array_eq {items kept new : List Json}
    (hds : ∀ d ∈ ds, ∃ n q, d = .keyed "name" n :: q) (hsorted : Sorted ds)
    (hkept : Alike [] items kept) (hnew : Ascending nameOf new)
    (hfresh : ∀ p ∈ new, p.strAt "name" = some (nameOf p) ∧ findName (nameOf p) items = none)
    (hsome : ∀ n b, child a (.keyed "name" n) = some b →
      fills (.keyed "name" n) b (tails (.keyed "name" n) ds) (findName n items) =
        .ok (findName n (kept ++ new)))
    (hnone : ∀ n, child a (.keyed "name" n) = none →
      findName n items = findName n (kept ++ new)) :
    writes a ds (.array items) = .ok (.array (kept ++ new)) := by
  obtain ⟨items', hwrites⟩ := writes_array hds fun n b hb => ⟨_, hsome n b hb⟩
  have hfind : ∀ n, findName n items' = findName n (kept ++ new) := by
    intro n
    have hapart : ∀ d ∈ ds, ∃ t q, d = t :: q ∧
        (t = .keyed "name" n ∨ t.Apart (.keyed "name" n)) := by
      intro d hd
      obtain ⟨m, q, rfl⟩ := hds d hd
      refine ⟨_, q, rfl, ?_⟩
      by_cases hmn : m = n
      · exact Or.inl (by rw [hmn])
      · exact Or.inr ⟨rfl, hmn⟩
    cases hb : child a (.keyed "name" n) with
    | none => exact (writes_child_none hwrites hapart hb).trans (hnone n hb)
    | some b =>
      have hread := writes_child hwrites hapart hb
      exact Except.ok.inj (hread.symm.trans (hsome n b hb))
  have hstart := hwrites
  rw [← List.append_nil items] at hstart
  obtain ⟨kept', new', hitems, hkept', hnew', hfresh'⟩ := writes_array_shape hds hsorted hstart
    (Alike.refl [] items) List.Pairwise.nil (by simp) (by simp)
  injection hitems with hitems
  subst hitems
  have hsame : new' = new := by
    apply hnew'.eq_of_mem_iff hnew
    intro p
    constructor
    · exact mem_of_findName hkept' hkept hnew' hfresh' hfind p
    · exact mem_of_findName hkept hkept' hnew hfresh (fun n => (hfind n).symm) p
  have hold : kept' = kept := by
    apply hkept'.eq_of_findName hkept
    intro n _
    cases hn : findName n items with
    | none =>
      rw [hkept'.findName_eq_none hn, hkept.findName_eq_none hn]
    | some i =>
      have hread := hfind n
      rwa [findName_append_of_isSome (by rw [hkept'.findName_isSome, hn]; rfl),
        findName_append_of_isSome (by rw [hkept.findName_isSome, hn]; rfl)] at hread
  rw [hwrites, hold, hsame]

end Hedronetes.Apply
