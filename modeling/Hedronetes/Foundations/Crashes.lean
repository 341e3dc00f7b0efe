import Mathlib

/-!
# Programs that may stop after any step

A program looks at a state and changes it step by step. Beside its result it leaves the states that
it went through, at any of which it may stop for good. A triple says of all of them what holds
there, and that the program comes to its end.
-/

namespace Hedronetes.Crashes

/-- The states that are gone through, and the result with the last state. -/
def Steps (σ ε α : Type) : Type := σ → List σ × Except ε (α × σ)

variable {σ ε α β : Type}

namespace Steps

def bind (x : Steps σ ε α) (f : α → Steps σ ε β) : Steps σ ε β := fun s =>
  match x s with
  | (states, .error e) => (states, .error e)
  | (states, .ok (a, t)) => (states ++ (f a t).1, (f a t).2)

instance : Monad (Steps σ ε) where
  pure a s := ([], .ok (a, s))
  bind := bind

def fail (e : ε) : Steps σ ε α := fun _ => ([], .error e)

/-- What is seen of the state. -/
def look (f : σ → Except ε α) : Steps σ ε α := fun s => ([], (f s).map (·, s))

/-- One change of the state. -/
def act (f : σ → Except ε σ) : Steps σ ε Unit := fun s =>
  match f s with
  | .error e => ([], .error e)
  | .ok t => ([t], .ok ((), t))

end Steps

open Steps

/-- From a state of `P` the program ends as `Q` says, and `I` holds at all states on the way. -/
def Endures (I P : σ → Prop) (x : Steps σ ε α) (Q : α → σ → Prop) : Prop :=
  ∀ s, P s → (∀ t ∈ (x s).1, I t) ∧ ∃ a t, (x s).2 = .ok (a, t) ∧ Q a t

variable {I P : σ → Prop} {x : Steps σ ε α} {Q R : α → σ → Prop} {S : β → σ → Prop}

theorem Endures.pure {a : α} (h : ∀ s, P s → Q a s) :
    Endures I P (Pure.pure a : Steps σ ε α) Q :=
  fun s hs => ⟨fun _ ht => absurd ht List.not_mem_nil, a, s, rfl, h s hs⟩

theorem Endures.bind {f : α → Steps σ ε β} (hx : Endures I P x Q)
    (hf : ∀ a, Endures I (Q a) (f a) S) : Endures I P (x >>= f) S := by
  intro s hs
  obtain ⟨hstates, a, t, hresult, ht⟩ := hx s hs
  obtain ⟨hlater, b, u, hend, hu⟩ := hf a t ht
  have hrun : (x >>= f) s = ((x s).1 ++ (f a t).1, (f a t).2) := by
    change Steps.bind x f s = _
    unfold Steps.bind
    rw [← Prod.mk.eta (p := x s), hresult]
  rw [hrun]
  refine ⟨fun v hv => ?_, b, u, hend, hu⟩
  rcases List.mem_append.mp hv with hv | hv
  · exact hstates v hv
  · exact hlater v hv

theorem Endures.look {f : σ → Except ε α} (h : ∀ s, P s → ∃ a, f s = .ok a ∧ Q a s) :
    Endures I P (Steps.look f) Q := by
  intro s hs
  obtain ⟨a, ha, hq⟩ := h s hs
  refine ⟨fun _ ht => absurd ht List.not_mem_nil, a, s, ?_, hq⟩
  unfold Steps.look
  rw [ha]
  rfl

theorem Endures.act {f : σ → Except ε σ} {Q : σ → Prop}
    (h : ∀ s, P s → ∃ t, f s = .ok t ∧ I t ∧ Q t) :
    Endures I P (Steps.act f) fun _ => Q := by
  intro s hs
  obtain ⟨t, ht, hi, hq⟩ := h s hs
  unfold Steps.act
  rw [ht]
  exact ⟨fun u hu => List.mem_singleton.mp hu ▸ hi, (), t, rfl, hq⟩

theorem Endures.mono {P' : σ → Prop} (h : Endures I P x Q) (hpre : ∀ s, P' s → P s)
    (hpost : ∀ a s, Q a s → R a s) : Endures I P' x R := by
  intro s hs
  obtain ⟨hstates, a, t, hresult, hq⟩ := h s (hpre s hs)
  exact ⟨hstates, a, t, hresult, hpost a t hq⟩

/-- What holds of the first state may be used of the program. -/
theorem Endures.known (h : ∀ s, P s → Endures I (fun t => t = s) x Q) : Endures I P x Q :=
  fun s hs => h s hs s rfl

/-- A loop, with what holds when the elements so far are done. -/
theorem Endures.forM {δ : Type} {f : δ → Steps σ ε PUnit} {l : List δ} {J : List δ → σ → Prop}
    (h : ∀ before a after, l = before ++ a :: after →
      Endures I (J before) (f a) fun _ => J (before ++ [a])) :
    Endures I (J []) (l.forM f) fun _ => J l := by
  suffices hsuffix : ∀ after before, l = before ++ after →
      Endures I (J before) (after.forM f) fun _ => J l from hsuffix l [] rfl
  intro after
  induction after with
  | nil =>
    rintro before rfl
    rw [List.append_nil]
    exact Endures.pure fun _ hs => hs
  | cons a after ih =>
    intro before hl
    change Endures I (J before) (f a >>= fun _ => after.forM f) _
    apply (h before a after hl).bind
    intro _
    exact ih (before ++ [a]) (by rw [hl, List.append_assoc, List.singleton_append])

end Hedronetes.Crashes
