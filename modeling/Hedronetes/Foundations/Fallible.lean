import Mathlib

/-!
# Fallible computations over lists

Facts about `Except` computations and about mapping one over a list: the map
succeeds exactly when every element does, and it splits along the list.
-/

namespace Hedronetes.Fallible

universe u v w

variable {ε : Type v} {α β γ : Type u}

theorem mapError_eq_ok {δ : Type w} {x : Except ε α} {f : ε → δ} {a : α} :
    x.mapError f = .ok a ↔ x = .ok a := by
  cases x <;> simp [Except.mapError]

theorem toOption_eq_some {x : Except ε α} {a : α} : x.toOption = some a ↔ x = .ok a := by
  cases x <;> simp [Except.toOption]

theorem bind_eq_ok {x : Except ε α} {f : α → Except ε β} {b : β} :
    x >>= f = .ok b ↔ ∃ a, x = .ok a ∧ f a = .ok b := by
  cases x with
  | error e => simp [bind, Except.bind]
  | ok a => simp [bind, Except.bind]

theorem bind_eq_error {x : Except ε α} {f : α → Except ε β} {e : ε} :
    x >>= f = .error e ↔ x = .error e ∨ ∃ a, x = .ok a ∧ f a = .error e := by
  cases x with
  | error e' => simp [bind, Except.bind]
  | ok a => simp [bind, Except.bind]

/-- Two branches that go on alike meet in what they go on with. -/
theorem ite_bind_eq_ok {c : Prop} [Decidable c] {x y : Except ε α} {f : α → Except ε β} {b : β} :
    (if c then x >>= f else y >>= f) = .ok b ↔ ∃ a, (if c then x else y) = .ok a ∧ f a = .ok b := by
  split_ifs <;> exact bind_eq_ok

/-- Every result of the computation has the property. -/
def Yields (P : α → Prop) (x : Except ε α) : Prop := ∀ a, x = .ok a → P a

theorem Yields.bind {P : β → Prop} {x : Except ε α} {f : α → Except ε β}
    (h : ∀ a, Yields P (f a)) : Yields P (x >>= f) := by
  intro b hb
  obtain ⟨a, _, hfa⟩ := bind_eq_ok.mp hb
  exact h a b hfa

theorem Yields.error {P : α → Prop} {e : ε} : Yields P (.error e) := by
  intro a h
  cases h

/-- The computation ends in such a result or in such an error. -/
def Ends (P : α → Prop) (Q : ε → Prop) : Except ε α → Prop
  | .ok a => P a
  | .error e => Q e

theorem Ends.bind {P : α → Prop} {R : β → Prop} {Q : ε → Prop} {x : Except ε α}
    {f : α → Except ε β} (h : Ends P Q x) (hf : ∀ a, P a → Ends R Q (f a)) :
    Ends R Q (x >>= f) := by
  cases x with
  | error e => exact h
  | ok a => exact hf a h

/-- A loop whose steps all keep an invariant ends with it. -/
theorem Ends.foldlM {f : β → α → Except ε β} {I : β → Prop} {Q : ε → Prop} {l : List α} {b : β}
    (hb : I b) (hstep : ∀ b, ∀ a ∈ l, I b → Ends I Q (f b a)) : Ends I Q (l.foldlM f b) := by
  induction l generalizing b with
  | nil => exact hb
  | cons a l ih =>
    rw [List.foldlM_cons]
    apply (hstep b a List.mem_cons_self hb).bind
    intro next hnext
    exact ih hnext fun b c hc => hstep b c (List.mem_cons_of_mem _ hc)

/-- What every step of a fold preserves, the fold preserves. -/
theorem foldlM_invariant {f : β → α → Except ε β} {I : β → Prop} {l : List α} {b b' : β}
    (h : l.foldlM f b = .ok b') (hb : I b)
    (hstep : ∀ b a b', f b a = .ok b' → I b → I b') : I b' := by
  induction l generalizing b with
  | nil => exact Except.ok.inj h ▸ hb
  | cons a l ih =>
    rw [List.foldlM_cons] at h
    obtain ⟨next, hnext, hrest⟩ := bind_eq_ok.mp h
    exact ih hrest (hstep b a next hnext hb)

theorem mapM_cons_eq_ok {f : α → Except ε β} {a : α} {l : List α} {r : List β} :
    (a :: l).mapM f = .ok r ↔ ∃ b bs, f a = .ok b ∧ l.mapM f = .ok bs ∧ r = b :: bs := by
  rw [List.mapM_cons, bind_eq_ok]
  simp only [bind_eq_ok, pure, Except.pure, Except.ok.injEq]
  constructor
  · rintro ⟨b, hb, bs, hbs, rfl⟩
    exact ⟨b, bs, hb, hbs, rfl⟩
  · rintro ⟨b, bs, hb, hbs, rfl⟩
    exact ⟨b, hb, bs, hbs, rfl⟩

/-- The map yields the elements' own results, in order. -/
theorem mapM_eq_ok_iff {f : α → Except ε β} {l : List α} {r : List β} :
    l.mapM f = .ok r ↔ List.Forall₂ (fun a b => f a = .ok b) l r := by
  induction l generalizing r with
  | nil => simp [pure, Except.pure, eq_comm]
  | cons a l ih =>
    rw [mapM_cons_eq_ok, List.forall₂_cons_left_iff]
    simp only [ih]

/-- In another order the same values come out, in another order. -/
theorem mapM_perm {f : α → Except ε β} {l m : List α} {r : List β} (h : l.mapM f = .ok r)
    (hperm : l.Perm m) : ∃ s, m.mapM f = .ok s ∧ r.Perm s := by
  obtain ⟨s, hs, hrs⟩ := List.perm_comp_forall₂ hperm.symm (mapM_eq_ok_iff.mp h)
  exact ⟨s, mapM_eq_ok_iff.mpr hs, hrs.symm⟩

theorem mapM_append_ok {f : α → Except ε β} {l m : List α} {r s : List β}
    (hl : l.mapM f = .ok r) (hm : m.mapM f = .ok s) : (l ++ m).mapM f = .ok (r ++ s) := by
  rw [List.mapM_append, hl, hm]
  rfl

theorem mapM_length {f : α → Except ε β} {l : List α} {r : List β} (h : l.mapM f = .ok r) :
    r.length = l.length := (mapM_eq_ok_iff.mp h).length_eq.symm

/-- Every result comes from an element. -/
theorem mapM_mem {f : α → Except ε β} {l : List α} {r : List β} (h : l.mapM f = .ok r) {b : β}
    (hb : b ∈ r) : ∃ a ∈ l, f a = .ok b := by
  have hall := mapM_eq_ok_iff.mp h
  clear h
  induction hall with
  | nil => simp at hb
  | @cons a c l r hac _ ih =>
    rcases List.mem_cons.mp hb with rfl | hb
    · exact ⟨a, by simp, hac⟩
    · obtain ⟨x, hx, hxb⟩ := ih hb
      exact ⟨x, by simp [hx], hxb⟩

/-- Every element has its result. -/
theorem mapM_mem_of_mem {f : α → Except ε β} {l : List α} {r : List β} (h : l.mapM f = .ok r)
    {a : α} (ha : a ∈ l) : ∃ b ∈ r, f a = .ok b := by
  have hall := mapM_eq_ok_iff.mp h
  clear h
  induction hall with
  | nil => simp at ha
  | @cons c b l r hcb _ ih =>
    rcases List.mem_cons.mp ha with rfl | ha
    · exact ⟨b, by simp, hcb⟩
    · obtain ⟨x, hx, hxa⟩ := ih ha
      exact ⟨x, by simp [hx], hxa⟩

/-- A map whose every element succeeds succeeds. -/
theorem mapM_exists_ok {f : α → Except ε β} {l : List α} (h : ∀ a ∈ l, ∃ b, f a = .ok b) :
    ∃ r, l.mapM f = .ok r := by
  induction l with
  | nil => exact ⟨[], rfl⟩
  | cons a l ih =>
    obtain ⟨b, hb⟩ := h a (by simp)
    obtain ⟨bs, hbs⟩ := ih fun x hx => h x (by simp [hx])
    exact ⟨b :: bs, mapM_cons_eq_ok.mpr ⟨b, bs, hb, hbs, rfl⟩⟩

theorem mapM_congr {f g : α → Except ε β} {l : List α} (h : ∀ a ∈ l, f a = g a) :
    l.mapM f = l.mapM g := by
  induction l with
  | nil => rfl
  | cons a l ih =>
    rw [List.mapM_cons, List.mapM_cons, h a (by simp), ih fun x hx => h x (by simp [hx])]

/-- What each result keeps of its element, the whole result keeps of the list. -/
theorem mapM_map_eq {f : α → Except ε β} {g : β → γ} {k : α → γ}
    (h : ∀ a b, f a = .ok b → g b = k a) {l : List α} {r : List β} (hr : l.mapM f = .ok r) :
    r.map g = l.map k := by
  have hall := mapM_eq_ok_iff.mp hr
  clear hr
  induction hall with
  | nil => rfl
  | cons hab _ ih => rw [List.map_cons, List.map_cons, h _ _ hab, ih]

/-- The map can be cut wherever the list can. -/
theorem mapM_append_eq_ok {f : α → Except ε β} {l m : List α} {r : List β} :
    (l ++ m).mapM f = .ok r ↔ ∃ s t, l.mapM f = .ok s ∧ m.mapM f = .ok t ∧ r = s ++ t := by
  rw [List.mapM_append]
  constructor
  · intro h
    obtain ⟨s, hs, h⟩ := bind_eq_ok.mp h
    obtain ⟨t, ht, h⟩ := bind_eq_ok.mp h
    exact ⟨s, t, hs, ht, (Except.ok.inj h).symm⟩
  · rintro ⟨s, t, hs, ht, rfl⟩
    exact bind_eq_ok.mpr ⟨s, hs, bind_eq_ok.mpr ⟨t, ht, rfl⟩⟩

/-- Mapping commutes with a selection that the results show. -/
theorem mapM_filter {f : α → Except ε β} {p : α → Bool} {q : β → Bool}
    (h : ∀ a b, f a = .ok b → p a = q b) {l : List α} {r : List β} (hr : l.mapM f = .ok r) :
    (l.filter p).mapM f = .ok (r.filter q) := by
  induction l generalizing r with
  | nil =>
    cases Except.ok.inj hr
    rfl
  | cons a l ih =>
    obtain ⟨b, bs, hb, hbs, rfl⟩ := mapM_cons_eq_ok.mp hr
    have hrest := ih hbs
    have hpq := h a b hb
    cases hq : q b with
    | false =>
      rw [List.filter_cons_of_neg (by simp [hpq, hq]), List.filter_cons_of_neg (by simp [hq])]
      exact hrest
    | true =>
      rw [List.filter_cons_of_pos (by simp [hpq, hq]), List.filter_cons_of_pos hq]
      exact mapM_cons_eq_ok.mpr ⟨b, _, hb, hrest, rfl⟩

/-- A search that goes through yields the first find. -/
theorem findSomeM?_eq_some {f : α → Except ε (Option β)} {l : List α} {b : β}
    (h : l.findSomeM? f = .ok (some b)) :
    ∃ before a after, l = before ++ a :: after ∧ f a = .ok (some b) ∧
      ∀ x ∈ before, f x = .ok none := by
  induction l with
  | nil => cases h
  | cons a l ih =>
    obtain ⟨found, hfound, h⟩ := bind_eq_ok.mp h
    cases found with
    | some c =>
      cases Except.ok.inj h
      exact ⟨[], a, l, rfl, hfound, by simp⟩
    | none =>
      obtain ⟨before, x, after, rfl, hx, hnone⟩ := ih h
      refine ⟨a :: before, x, after, rfl, hx, fun y hy => ?_⟩
      rcases List.mem_cons.mp hy with rfl | hy
      · exact hfound
      · exact hnone y hy

theorem findSomeM?_eq_none {f : α → Except ε (Option β)} {l : List α} :
    l.findSomeM? f = .ok none ↔ ∀ a ∈ l, f a = .ok none := by
  induction l with
  | nil => exact ⟨fun _ => by simp, fun _ => rfl⟩
  | cons a l ih =>
    rw [List.forall_mem_cons, ← ih, List.findSomeM?]
    constructor
    · intro h
      obtain ⟨found, hfound, h⟩ := bind_eq_ok.mp h
      cases found with
      | some c => cases h
      | none => exact ⟨hfound, h⟩
    · rintro ⟨hfound, h⟩
      rw [hfound]
      exact h

/-- A search whose every step goes through goes through. -/
theorem findSomeM?_exists_ok {f : α → Except ε (Option β)} {l : List α}
    (h : ∀ a ∈ l, ∃ found, f a = .ok found) : ∃ found, l.findSomeM? f = .ok found := by
  induction l with
  | nil => exact ⟨none, rfl⟩
  | cons a l ih =>
    obtain ⟨found, hfound⟩ := h a (by simp)
    cases found with
    | some b => exact ⟨some b, bind_eq_ok.mpr ⟨_, hfound, rfl⟩⟩
    | none =>
      obtain ⟨found, hrest⟩ := ih fun x hx => h x (by simp [hx])
      exact ⟨found, bind_eq_ok.mpr ⟨_, hfound, hrest⟩⟩

end Hedronetes.Fallible
