import Mathlib

/-!
# Actions that change a state and may fail

Rules for actions over a state that keep what they changed when they fail: what
a successful sequence went through, and what no outcome of it can have changed.
-/

namespace Hedronetes.Effects

variable {ε σ α β : Type}

theorem bind_eq_ok {x : EStateM ε σ α} {f : α → EStateM ε σ β} {s t : σ} {b : β} :
    (x >>= f) s = .ok b t ↔ ∃ a u, x s = .ok a u ∧ f a u = .ok b t := by
  change EStateM.bind x f s = _ ↔ _
  unfold EStateM.bind
  cases hx : x s with
  | error e u => simp
  | ok a u => simp

theorem map_eq_ok {x : EStateM ε σ α} {f : α → β} {s t : σ} {b : β} :
    (f <$> x) s = .ok b t ↔ ∃ a, x s = .ok a t ∧ f a = b := by
  change EStateM.map f x s = _ ↔ _
  unfold EStateM.map
  cases hx : x s <;> simp [and_comm]

theorem pure_eq_ok {a b : α} {s t : σ} :
    (pure a : EStateM ε σ α) s = .ok b t ↔ a = b ∧ s = t := by
  change EStateM.Result.ok a s = .ok b t ↔ _
  simp

theorem throw_ne_ok {e : ε} {s t : σ} {a : α} : (throw e : EStateM ε σ α) s ≠ .ok a t := by
  intro h
  cases h

theorem get_eq_ok {s t a : σ} : (get : EStateM ε σ σ) s = .ok a t ↔ a = s ∧ t = s := by
  change EStateM.Result.ok s s = .ok a t ↔ _
  simp [eq_comm]

theorem set_eq_ok {s t u : σ} {a : PUnit} : (set u : EStateM ε σ PUnit) s = .ok a t ↔ t = u := by
  change EStateM.Result.ok ⟨⟩ u = .ok a t ↔ _
  simp [eq_comm]

/-- A computation that only fails or succeeds is an action that changes nothing. -/
instance instMonadLiftExceptEStateM : MonadLift (Except ε) (EStateM ε σ) := ⟨fun x => ofExcept x⟩

theorem ofExcept_eq_ok {x : Except ε α} {s t : σ} {a : α} :
    (ofExcept x : EStateM ε σ α) s = .ok a t ↔ x = .ok a ∧ s = t := by
  cases x with
  | error e =>
    constructor
    · intro h
      cases h
    · intro h
      cases h.1
  | ok b =>
    change (pure b : EStateM ε σ α) s = .ok a t ↔ _
    rw [pure_eq_ok, Except.ok.injEq]

theorem ofExcept_bind_eq_ok {x : Except ε α} {f : α → EStateM ε σ β} {s t : σ} {b : β} :
    (ofExcept x >>= f) s = .ok b t ↔ ∃ a, x = .ok a ∧ f a s = .ok b t := by
  rw [bind_eq_ok]
  constructor
  · rintro ⟨a, _, hx, hf⟩
    obtain ⟨hok, rfl⟩ := ofExcept_eq_ok.mp hx
    exact ⟨a, hok, hf⟩
  · rintro ⟨a, hx, hf⟩
    exact ⟨a, s, ofExcept_eq_ok.mpr ⟨hx, rfl⟩, hf⟩

/-- What every step of a successful fold keeps, the fold keeps. -/
theorem foldlM_invariant {f : β → α → EStateM ε σ β} {I : β → Prop} {l : List α} {b b' : β}
    {s t : σ} (h : l.foldlM f b s = .ok b' t) (hb : I b)
    (hstep : ∀ a ∈ l, ∀ b b' s t, f b a s = .ok b' t → I b → I b') : I b' := by
  induction l generalizing b s with
  | nil => exact (pure_eq_ok.mp h).1 ▸ hb
  | cons a l ih =>
    rw [List.foldlM_cons] at h
    obtain ⟨next, u, hnext, hrest⟩ := bind_eq_ok.mp h
    apply ih hrest (hstep a List.mem_cons_self b next s u hnext hb)
    intro c hc
    exact hstep c (List.mem_cons_of_mem a hc)

/-- Each element of a successful fold had its successful step. -/
theorem foldlM_step {f : β → α → EStateM ε σ β} {l : List α} {b b' : β} {s t : σ}
    (h : l.foldlM f b s = .ok b' t) {a : α} (ha : a ∈ l) :
    ∃ c d u v, f c a u = .ok d v := by
  induction l generalizing b s with
  | nil => cases ha
  | cons x l ih =>
    rw [List.foldlM_cons] at h
    obtain ⟨next, u, hnext, hrest⟩ := bind_eq_ok.mp h
    rcases List.mem_cons.mp ha with rfl | ha
    · exact ⟨b, next, s, u, hnext⟩
    · exact ih hrest ha

/-- What a successful action starts from, returns and leaves has the property. -/
def Ensures (P : σ → α → σ → Prop) (x : EStateM ε σ α) : Prop :=
  ∀ s a t, x s = .ok a t → P s a t

/-- The state an action leaves, whether it succeeds or fails. -/
def final (x : EStateM ε σ α) (s : σ) : σ :=
  match x s with
  | .ok _ t => t
  | .error _ t => t

theorem final_of_ok {x : EStateM ε σ α} {s t : σ} {a : α} (h : x s = .ok a t) :
    final x s = t := by
  rw [final, h]

/-- Whatever comes of the action, the states before and after it are related. -/
def Within (R : σ → σ → Prop) (x : EStateM ε σ α) : Prop := ∀ s, R s (final x s)

section

variable {R : σ → σ → Prop}

theorem Within.ok {x : EStateM ε σ α} (h : Within R x) {s t : σ} {a : α} (hx : x s = .ok a t) :
    R s t := final_of_ok hx ▸ h s

theorem Within.bind (htrans : ∀ {s t u}, R s t → R t u → R s u) {x : EStateM ε σ α}
    {f : α → EStateM ε σ β} (hx : Within R x) (hf : ∀ a, Within R (f a)) :
    Within R (x >>= f) := by
  intro s
  have hs := hx s
  unfold final at hs ⊢
  change R s (match EStateM.bind x f s with | .ok _ t => t | .error _ t => t)
  unfold EStateM.bind
  cases h : x s with
  | error e t =>
    rw [h] at hs
    exact hs
  | ok a t =>
    rw [h] at hs
    exact htrans hs (hf a t)

theorem Within.pure (hrefl : ∀ s, R s s) (a : α) : Within R (pure a : EStateM ε σ α) := hrefl

theorem Within.throw (hrefl : ∀ s, R s s) (e : ε) : Within R (throw e : EStateM ε σ α) := hrefl

theorem Within.ofExcept (hrefl : ∀ s, R s s) (x : Except ε α) :
    Within R (ofExcept x : EStateM ε σ α) := by
  cases x <;> exact hrefl

theorem Within.get (hrefl : ∀ s, R s s) : Within R (get : EStateM ε σ σ) := hrefl

theorem Within.mono {R' : σ → σ → Prop} (hle : ∀ {s t}, R s t → R' s t) {x : EStateM ε σ α}
    (h : Within R x) : Within R' x := fun s => hle (h s)

end

end Hedronetes.Effects
