import Hedronetes.Foundations.Effects
import Hedronetes.Foundations.Runs

/-!
# Programs over a shared state

A program reads the state and makes calls that change it, each at one instant.
Programs take turns. A contract says what a program may rely on of the others and
what a call must ensure; programs that meet it one by one keep its invariant in
every interleaving.
-/

namespace Hedronetes.Interleaving

open Effects Runs

/-- Each read says what it is for. -/
inductive Program (σ τ κ ρ ε α : Type)
  | done (a : α)
  | fail (e : ε)
  | read (what : τ) (next : σ → Program σ τ κ ρ ε α)
  | call (c : κ) (next : ρ → Program σ τ κ ρ ε α)

/-- What a program has done so far, each with the state it did it in. -/
inductive Seen (σ τ κ : Type)
  | read (what : τ) (s : σ)
  | call (c : κ) (s : σ)

variable {σ τ κ ρ ε α β ι : Type}

namespace Program

def bind : Program σ τ κ ρ ε α → (α → Program σ τ κ ρ ε β) → Program σ τ κ ρ ε β
  | done a, f => f a
  | fail e, _ => fail e
  | read what next, f => read what fun s => (next s).bind f
  | call c next, f => call c fun r => (next r).bind f

instance : Monad (Program σ τ κ ρ ε) where
  pure := done
  bind := bind

def lift : Except ε α → Program σ τ κ ρ ε α
  | .ok a => done a
  | .error e => fail e

instance : MonadLift (Except ε) (Program σ τ κ ρ ε) := ⟨lift⟩

/-- A fallible computation on the state as it is now. -/
def reading (what : τ) (f : σ → Except ε α) : Program σ τ κ ρ ε α :=
  read what fun s => lift (f s)

/-- A call and its reply. -/
def calling (c : κ) : Program σ τ κ ρ ε ρ := call c done

/-- A failure becomes part of the result. -/
def attempt {ε' : Type} : Program σ τ κ ρ ε α → Program σ τ κ ρ ε' (Except ε α)
  | done a => done (.ok a)
  | fail e => done (.error e)
  | read what next => read what fun s => (next s).attempt
  | call c next => call c fun r => (next r).attempt

/-- The call that is made next. -/
def pending : Program σ τ κ ρ ε α → Option κ
  | call c _ => some c
  | _ => none

theorem pending_eq {x : Program σ τ κ ρ ε α} {c : κ} (h : x.pending = some c) :
    ∃ next, x = call c next := by
  cases x with
  | call c' next =>
    cases h
    exact ⟨next, rfl⟩
  | _ => cases h

variable (perform : κ → σ → ρ × σ)

/-- The program alone, from beginning to end. -/
def run : Program σ τ κ ρ ε α → EStateM ε σ α
  | done a => pure a
  | fail e => throw e
  | read _ next => fun s => (next s).run s
  | call c next => fun s => (next (perform c s).1).run (perform c s).2

theorem run_bind (x : Program σ τ κ ρ ε α) (f : α → Program σ τ κ ρ ε β) :
    (x >>= f).run perform = x.run perform >>= fun a => (f a).run perform := by
  change (x.bind f).run perform = _
  induction x with
  | done a => rfl
  | fail e => rfl
  | read what next ih =>
    funext s
    simp only [bind, run, ih]
    rfl
  | call c next ih =>
    funext s
    simp only [bind, run, ih]
    rfl

@[simp] theorem run_pure (a : α) : (pure a : Program σ τ κ ρ ε α).run perform = pure a := rfl

@[simp] theorem run_fail (e : ε) : (fail e : Program σ τ κ ρ ε α).run perform = throw e := rfl

@[simp] theorem run_lift (x : Except ε α) :
    (lift x : Program σ τ κ ρ ε α).run perform = MonadExcept.ofExcept x := by
  cases x <;> rfl

end Program

/-! ## Contracts -/

/-- What a request's program assumes of every step of the others, and of its own calls, and
what each call of it must ensure. -/
structure Contract (σ τ κ ι : Type) where
  inv : σ → Prop
  rely : σ → σ → Prop
  /-- What is assumed of a call, given what its program has seen. -/
  guard : ι → List (Seen σ τ κ) → σ → κ → Prop
  ensures : ι → List (Seen σ τ κ) → σ → κ → Prop
  refl : ∀ s, rely s s
  trans : ∀ {s t u}, rely s t → rely t u → rely s u

/-- Nothing is assumed and nothing kept: calls only have to be of a kind. -/
def Contract.only (ensures : ι → List (Seen σ τ κ) → σ → κ → Prop) : Contract σ τ κ ι where
  inv _ := True
  rely _ _ := True
  guard _ _ _ _ := True
  ensures
  refl _ := trivial
  trans _ _ := trivial

/-- The contract for what comes after a state in which the program had seen something. -/
def Contract.after (C : Contract σ τ κ ι) (seen₀ : List (Seen σ τ κ)) (s₀ : σ) :
    Contract σ τ κ ι where
  inv s := C.inv s ∧ C.rely s₀ s
  rely := C.rely
  guard r seen s c := C.guard r seen s c ∧ seen₀ ⊆ seen
  ensures := C.ensures
  refl := C.refl
  trans := C.trans

variable (perform : κ → σ → ρ × σ) (C : Contract σ τ κ ι) (r : ι)

/-- A state that the program has read for a purpose before it came to `s`. -/
structure Contract.Past (seen : List (Seen σ τ κ)) (s : σ) (what : τ) (t : σ) : Prop where
  seen : .read what t ∈ seen
  inv : C.inv t
  since : C.rely t s

/-- A call that meets the contract in a state. -/
structure Contract.Allows (seen : List (Seen σ τ κ)) (s : σ) (c : κ) : Prop where
  ensures : C.ensures r seen s c
  inv : C.inv (perform c s).2
  rely : C.rely s (perform c s).2

/-- A call that meets the contract wherever it is assumed. -/
def Contract.Permits (seen : List (Seen σ τ κ)) (s : σ) (c : κ) : Prop :=
  C.inv s → C.guard r seen s c → C.Allows perform r seen s c

/-- From a state on, with any steps of the others between its own, the program meets the
contract, and what it returns has the property. -/
def Meets (post : α → List (Seen σ τ κ) → σ → Prop) :
    Program σ τ κ ρ ε α → List (Seen σ τ κ) → σ → Prop
  | .done a, seen, s => ∀ t, C.inv t → C.rely s t → post a seen t
  | .fail _, _, _ => True
  | .read what next, seen, s => ∀ t, C.inv t → C.rely s t →
      Meets post (next t) (seen ++ [.read what t]) t
  | .call c next, seen, s => ∀ t, C.inv t → C.rely s t → C.guard r seen t c →
      C.Allows perform r seen t c ∧
        Meets post (next (perform c t).1) (seen ++ [.call c t]) (perform c t).2

section

variable {perform C r} {P P' : α → List (Seen σ τ κ) → σ → Prop}
  {Q : β → List (Seen σ τ κ) → σ → Prop} {x : Program σ τ κ ρ ε α}
  {f : α → Program σ τ κ ρ ε β} {seen : List (Seen σ τ κ)} {s t : σ}

theorem Contract.Past.mono {seen' : List (Seen σ τ κ)} {what : τ} {u : σ}
    (h : C.Past seen s what u) (hseen : seen ⊆ seen') (hrely : C.rely s t) :
    C.Past seen' t what u := ⟨hseen h.seen, h.inv, C.trans h.since hrely⟩

/-- Steps of the others do not matter. -/
theorem Meets.later (h : Meets perform C r P x seen s) (hrely : C.rely s t) :
    Meets perform C r P x seen t := by
  cases x with
  | done a => exact fun u hu ht => h u hu (C.trans hrely ht)
  | fail e => trivial
  | read what next => exact fun u hu ht => h u hu (C.trans hrely ht)
  | call c next => exact fun u hu ht => h u hu (C.trans hrely ht)

theorem Meets.of_later
    (h : ∀ t, C.inv t → C.rely s t → Meets perform C r P x seen t) :
    Meets perform C r P x seen s := by
  cases x with
  | done a => exact fun t ht hrely => h t ht hrely t ht (C.refl t)
  | fail e => trivial
  | read what next => exact fun t ht hrely => h t ht hrely t ht (C.refl t)
  | call c next => exact fun t ht hrely => h t ht hrely t ht (C.refl t)

theorem Meets.weaken (h : Meets perform C r P x seen s)
    (hpost : ∀ a seen s, C.inv s → P a seen s → P' a seen s) :
    Meets perform C r P' x seen s := by
  induction x generalizing seen s with
  | done a => exact fun t ht hrely => hpost a seen t ht (h t ht hrely)
  | fail e => trivial
  | read what next ih => exact fun t ht hrely => ih t (h t ht hrely)
  | call c next ih =>
    intro t ht hrely hguard
    obtain ⟨hallows, hnext⟩ := h t ht hrely hguard
    exact ⟨hallows, ih _ hnext⟩

/-- What follows starts from what the first part has seen and left. -/
theorem Meets.bind (h : Meets perform C r P x seen s)
    (hf : ∀ a seen' t, C.inv t → C.rely s t → seen ⊆ seen' → P a seen' t →
      Meets perform C r Q (f a) seen' t) : Meets perform C r Q (x >>= f) seen s := by
  change Meets perform C r Q (x.bind f) seen s
  induction x generalizing seen s with
  | done a =>
    exact .of_later fun t ht hrely => hf a seen t ht hrely (List.Subset.refl _) (h t ht hrely)
  | fail e => trivial
  | read what next ih =>
    intro t ht hrely
    apply ih t (h t ht hrely)
    intro a seen' u hu hlater hsub hpost
    exact hf a seen' u hu (C.trans hrely hlater)
      (List.Subset.trans (List.subset_append_left _ _) hsub) hpost
  | call c next ih =>
    intro t ht hrely hguard
    obtain ⟨hallows, hnext⟩ := h t ht hrely hguard
    refine ⟨hallows, ih _ hnext ?_⟩
    intro a seen' u hu hlater hsub hpost
    exact hf a seen' u hu (C.trans (C.trans hrely hallows.rely) hlater)
      (List.Subset.trans (List.subset_append_left _ _) hsub) hpost

theorem Meets.pure {a : α} (h : ∀ t, C.inv t → C.rely s t → P a seen t) :
    Meets perform C r P (pure a : Program σ τ κ ρ ε α) seen s := h

theorem Meets.fail {e : ε} :
    Meets perform C r P (.fail e : Program σ τ κ ρ ε α) seen s := trivial

theorem Meets.lift {x : Except ε α}
    (h : ∀ a t, x = .ok a → C.inv t → C.rely s t → P a seen t) :
    Meets perform C r P (.lift x : Program σ τ κ ρ ε α) seen s := by
  cases x with
  | ok a => exact fun t => h a t rfl
  | error e => trivial

theorem Meets.reading {what : τ} {f : σ → Except ε α}
    (h : ∀ a t u, f t = .ok a → C.inv u → C.rely s u →
      C.Past (seen ++ [.read what t]) u what t → P a (seen ++ [.read what t]) u) :
    Meets perform C r P (.reading what f : Program σ τ κ ρ ε α) seen s := by
  intro t ht hrely
  apply Meets.lift
  intro a u ha hu hlater
  exact h a t u ha hu (C.trans hrely hlater) ⟨by simp, ht, hlater⟩

theorem Meets.attempt {ε' : Type} (h : Meets perform C r P x seen s) :
    Meets perform C r (fun result seen s => ∀ a, result = .ok a → P a seen s)
      (x.attempt : Program σ τ κ ρ ε' (Except ε α)) seen s := by
  induction x generalizing seen s with
  | done a =>
    intro t ht hrely b hb
    cases hb
    exact h t ht hrely
  | fail e =>
    intro t _ _ b hb
    cases hb
  | read what next ih => exact fun t ht hrely => ih t (h t ht hrely)
  | call c next ih =>
    intro t ht hrely hguard
    obtain ⟨hallows, hnext⟩ := h t ht hrely hguard
    exact ⟨hallows, ih _ hnext⟩

theorem Meets.lift_bind {x : Except ε α}
    (h : ∀ a, x = .ok a → Meets perform C r Q (f a) seen s) :
    Meets perform C r Q ((liftM x : Program σ τ κ ρ ε α) >>= f) seen s := by
  cases x with
  | ok a => exact h a rfl
  | error e => trivial

theorem Meets.reading_bind {what : τ} {g : σ → Except ε α}
    (h : ∀ a t, g t = .ok a → C.inv t → C.rely s t → C.Past (seen ++ [.read what t]) t what t →
      Meets perform C r Q (f a) (seen ++ [.read what t]) t) :
    Meets perform C r Q (.reading what g >>= f) seen s := by
  intro t ht hrely
  apply Meets.lift_bind (x := g t)
  exact fun a ha => h a t ha ht hrely ⟨by simp, ht, C.refl t⟩

/-- A call that the contract permits at every later state, and what its reply brings. -/
theorem Meets.call {c : κ} {next : ρ → Program σ τ κ ρ ε α}
    (hpermits : ∀ t, C.rely s t → C.Permits perform r seen t c)
    (hnext : ∀ t, C.inv t → C.rely s t → C.guard r seen t c →
      C.Allows perform r seen t c →
      Meets perform C r P (next (perform c t).1) (seen ++ [.call c t]) (perform c t).2) :
    Meets perform C r P (.call c next) seen s := by
  intro t ht hrely hguard
  have hallows := hpermits t hrely ht hguard
  exact ⟨hallows, hnext t ht hrely hguard hallows⟩

/-- A contract that permits every call is met by every program. -/
theorem Meets.of_permits (h : ∀ seen s c, C.Permits perform r seen s c) :
    Meets perform C r (fun _ _ _ => True) x seen s := by
  induction x generalizing seen s with
  | done a => exact fun _ _ _ => trivial
  | fail e => trivial
  | read what next ih => exact fun t _ _ => ih t
  | call c next ih => exact fun t ht _ hguard => ⟨h seen t c ht hguard, ih _⟩

/-- From a state on, a program may rely on having come from there. -/
theorem Meets.of_after {seen₀ : List (Seen σ τ κ)} {s₀ : σ}
    (h : Meets perform (C.after seen₀ s₀) r P x seen s) (hseen : seen₀ ⊆ seen)
    (hs : C.rely s₀ s) : Meets perform C r P x seen s := by
  induction x generalizing seen s with
  | done a => exact fun t ht hrely => h t ⟨ht, C.trans hs hrely⟩ hrely
  | fail e => trivial
  | read what next ih =>
    intro t ht hrely
    have ht' := C.trans hs hrely
    exact ih t (h t ⟨ht, ht'⟩ hrely) (List.subset_append_of_subset_left _ hseen) ht'
  | call c next ih =>
    intro t ht hrely hguard
    have ht' := C.trans hs hrely
    obtain ⟨hallows, hnext⟩ := h t ⟨ht, ht'⟩ hrely ⟨hguard, hseen⟩
    refine ⟨⟨hallows.ensures, hallows.inv.1, hallows.rely⟩, ?_⟩
    exact ih _ hnext (List.subset_append_of_subset_left _ hseen) (C.trans ht' hallows.rely)

/-- What a program does under one contract it does under another whose assumptions are
stronger and whose demands follow. -/
theorem Meets.mono {ι' : Type} {C' : Contract σ τ κ ι'} {r' : ι'}
    (h : Meets perform C r P x seen s)
    (hinv : ∀ s, C'.inv s → C.inv s) (hrely : ∀ s t, C'.rely s t → C.rely s t)
    (hguard : ∀ seen s c, C'.inv s → C'.guard r' seen s c → C.guard r seen s c)
    (hallows : ∀ seen s c, C'.inv s → C'.guard r' seen s c → C.ensures r seen s c →
      C'.Allows perform r' seen s c) : Meets perform C' r' P x seen s := by
  induction x generalizing seen s with
  | done a => exact fun t ht hlater => h t (hinv t ht) (hrely s t hlater)
  | fail e => trivial
  | read what next ih =>
    exact fun t ht hlater => ih t (h t (hinv t ht) (hrely s t hlater))
  | call c next ih =>
    intro t ht hlater hg
    obtain ⟨hc, hnext⟩ := h t (hinv t ht) (hrely s t hlater) (hguard seen t c ht hg)
    exact ⟨hallows seen t c ht hg hc.ensures, ih _ hnext⟩

end

/-! ## Pools of programs -/

structure Thread (σ τ κ ρ ε α ι : Type) where
  request : ι
  seen : List (Seen σ τ κ)
  rest : Program σ τ κ ρ ε α

structure Pool (σ τ κ ρ ε α ι : Type) where
  state : σ
  threads : List (Thread σ τ κ ρ ε α ι)

/-- A request arrives, a program takes its next step, or it is given up where it stands. -/
inductive Turn (ι : Type)
  | arrive (r : ι)
  | advance (i : ℕ)
  | abandon (i : ℕ)

def Thread.advance (t : Thread σ τ κ ρ ε α ι) (s : σ) :
    Option (Thread σ τ κ ρ ε α ι × σ) :=
  match t.rest with
  | .done _ => none
  | .fail _ => none
  | .read what next => some ({ t with seen := t.seen ++ [.read what s], rest := next s }, s)
  | .call c next =>
    some ({ t with seen := t.seen ++ [.call c s], rest := next (perform c s).1 }, (perform c s).2)

variable (program : ι → Program σ τ κ ρ ε α)

def Pool.step (p : Pool σ τ κ ρ ε α ι) : Turn ι → Option (Pool σ τ κ ρ ε α ι)
  | .arrive r => some { p with threads := p.threads ++ [⟨r, [], program r⟩] }
  | .advance i => do
    let t ← p.threads[i]?
    let (t, s) ← t.advance perform p.state
    return ⟨s, p.threads.set i t⟩
  | .abandon i => some { p with threads := p.threads.eraseIdx i }

/-- The calls of a run are as the contract assumes them. -/
def Contract.Guarded (p : Pool σ τ κ ρ ε α ι) : Turn ι → Prop
  | .advance i => ∀ t c next, p.threads[i]? = some t → t.rest = .call c next →
      C.guard t.request t.seen p.state c
  | _ => True

variable {perform C program} {p q : Pool σ τ κ ρ ε α ι} {s : σ} {ls : List (Turn ι)}

theorem Contract.unguarded (h : ∀ r seen s c, C.guard r seen s c) (l : Turn ι) : C.Guarded p l := by
  cases l with
  | arrive r => trivial
  | advance i => exact fun t c next _ _ => h t.request t.seen p.state c
  | abandon i => trivial

/-- Every program meets the contract, whatever it is asked. -/
def Contract.MetBy (C : Contract σ τ κ ι) (perform : κ → σ → ρ × σ)
    (program : ι → Program σ τ κ ρ ε α) : Prop :=
  ∀ r s, C.inv s → Meets perform C r (fun _ _ _ => True) (program r) [] s

/-- Where a run has come to: the invariant holds and what is left of each program still meets
the contract. -/
structure Contract.Holds (C : Contract σ τ κ ι) (perform : κ → σ → ρ × σ) (s : σ)
    (p : Pool σ τ κ ρ ε α ι) : Prop where
  inv : C.inv p.state
  since : C.rely s p.state
  threads : ∀ t ∈ p.threads,
    Meets perform C t.request (fun _ _ _ => True) t.rest t.seen p.state

/-- Where a run of programs that promise something of what they return has come to. -/
structure Contract.Delivers (C : Contract σ τ κ ι) (perform : κ → σ → ρ × σ)
    (post : ι → α → List (Seen σ τ κ) → σ → Prop) (s : σ) (p : Pool σ τ κ ρ ε α ι) : Prop where
  inv : C.inv p.state
  since : C.rely s p.state
  threads : ∀ t ∈ p.threads, Meets perform C t.request (post t.request) t.rest t.seen p.state

section

variable {post : ι → α → List (Seen σ τ κ) → σ → Prop}

theorem Thread.advance_meets {t t' : Thread σ τ κ ρ ε α ι} {s s' : σ} (hs : C.inv s)
    (h : Meets perform C t.request (post t.request) t.rest t.seen s)
    (hguard : ∀ c next, t.rest = .call c next → C.guard t.request t.seen s c)
    (hstep : t.advance perform s = some (t', s')) :
    C.inv s' ∧ C.rely s s' ∧
      Meets perform C t'.request (post t'.request) t'.rest t'.seen s' := by
  unfold advance at hstep
  cases hrest : t.rest with
  | done a => simp [hrest] at hstep
  | fail e => simp [hrest] at hstep
  | read what next =>
    simp only [hrest] at hstep h
    cases hstep
    exact ⟨hs, C.refl s, h s hs (C.refl s)⟩
  | call c next =>
    simp only [hrest] at hstep h
    cases hstep
    obtain ⟨hallows, hnext⟩ := h s hs (C.refl s) (hguard c next hrest)
    exact ⟨hallows.inv, hallows.rely, hnext⟩

theorem Contract.Delivers.step
    (hmet : ∀ r s, C.inv s → Meets perform C r (post r) (program r) [] s) {l : Turn ι}
    (h : C.Delivers perform post s p) (hguard : C.Guarded p l)
    (hstep : p.step perform program l = some q) :
    C.Delivers perform post s q ∧ C.rely p.state q.state := by
  cases l with
  | arrive r =>
    cases hstep
    refine ⟨⟨h.inv, h.since, fun t ht => ?_⟩, C.refl _⟩
    rcases List.mem_append.mp ht with ht | ht
    · exact h.threads t ht
    · rw [List.mem_singleton.mp ht]
      exact hmet r p.state h.inv
  | advance i =>
    obtain ⟨t, ht, hstep⟩ := Option.bind_eq_some_iff.mp hstep
    obtain ⟨⟨t', s'⟩, hadvance, hstep⟩ := Option.bind_eq_some_iff.mp hstep
    cases hstep
    have hmem : t ∈ p.threads := List.mem_of_getElem? ht
    obtain ⟨hinv, hrely, hmeets⟩ := t.advance_meets h.inv (h.threads t hmem)
      (fun c next => hguard t c next ht) hadvance
    refine ⟨⟨hinv, C.trans h.since hrely, fun u hu => ?_⟩, hrely⟩
    -- the others only see that the state has moved on
    rcases List.mem_or_eq_of_mem_set hu with hu | rfl
    · exact (h.threads u hu).later hrely
    · exact hmeets
  | abandon i =>
    cases hstep
    exact ⟨⟨h.inv, h.since, fun t ht => h.threads t (List.mem_of_mem_eraseIdx ht)⟩, C.refl _⟩

theorem Contract.Delivers.run
    (hmet : ∀ r s, C.inv s → Meets perform C r (post r) (program r) [] s)
    (h : C.Delivers perform post s p)
    (hrun : Run (Pool.step perform program) C.Guarded p ls q) :
    C.Delivers perform post s q ∧ C.rely p.state q.state := by
  induction hrun with
  | nil => exact ⟨h, C.refl _⟩
  | snoc _ hguard hstep ih =>
    obtain ⟨hnext, hrely⟩ := ih.1.step hmet hguard hstep
    exact ⟨hnext, C.trans ih.2 hrely⟩

theorem Contract.delivers
    (hmet : ∀ r s, C.inv s → Meets perform C r (post r) (program r) [] s) (hs : C.inv s)
    (h : Run (Pool.step perform program) C.Guarded ⟨s, []⟩ ls p) :
    C.Delivers perform post s p := by
  have hstart : C.Delivers perform post s (⟨s, []⟩ : Pool σ τ κ ρ ε α ι) :=
    ⟨hs, C.refl s, fun t ht => absurd ht List.not_mem_nil⟩
  exact (hstart.run hmet h).1

/-- What a program that has finished promised holds now. -/
theorem Contract.Delivers.finished (h : C.Delivers perform post s p)
    {t : Thread σ τ κ ρ ε α ι} {a : α} (ht : t ∈ p.threads) (hrest : t.rest = .done a) :
    post t.request a t.seen p.state := by
  have hmeets := h.threads t ht
  rw [hrest] at hmeets
  exact hmeets p.state h.inv (C.refl _)

end

theorem Contract.holds_iff :
    C.Holds perform s p ↔ C.Delivers perform (fun _ _ _ _ => True) s p :=
  ⟨fun h => ⟨h.inv, h.since, h.threads⟩, fun h => ⟨h.inv, h.since, h.threads⟩⟩

theorem Contract.Holds.step (hmet : C.MetBy perform program) {l : Turn ι}
    (h : C.Holds perform s p) (hguard : C.Guarded p l)
    (hstep : p.step perform program l = some q) :
    C.Holds perform s q ∧ C.rely p.state q.state := by
  obtain ⟨hnext, hrely⟩ := (Contract.holds_iff.mp h).step hmet hguard hstep
  exact ⟨Contract.holds_iff.mpr hnext, hrely⟩

theorem Contract.Holds.run (hmet : C.MetBy perform program) (h : C.Holds perform s p)
    (hrun : Run (Pool.step perform program) C.Guarded p ls q) :
    C.Holds perform s q ∧ C.rely p.state q.state := by
  induction hrun with
  | nil => exact ⟨h, C.refl _⟩
  | snoc _ hguard hstep ih =>
    obtain ⟨hnext, hrely⟩ := ih.1.step hmet hguard hstep
    exact ⟨hnext, C.trans ih.2 hrely⟩

/-- Programs that meet the contract one by one meet it in every interleaving. -/
theorem Contract.holds (hmet : C.MetBy perform program) (hs : C.inv s)
    (h : Run (Pool.step perform program) C.Guarded ⟨s, []⟩ ls p) : C.Holds perform s p := by
  have hstart : C.Holds perform s (⟨s, []⟩ : Pool σ τ κ ρ ε α ι) :=
    ⟨hs, C.refl s, fun t ht => absurd ht List.not_mem_nil⟩
  exact (hstart.run hmet h).1

/-- Every call that a program is about to make ensures what the contract demands. -/
theorem Contract.Holds.ensures (h : C.Holds perform s p) {i : ℕ} {t : Thread σ τ κ ρ ε α ι}
    {c : κ} {next : ρ → Program σ τ κ ρ ε α} (ht : p.threads[i]? = some t)
    (hrest : t.rest = .call c next) (hguard : C.guard t.request t.seen p.state c) :
    C.ensures t.request t.seen p.state c := by
  have hmeets := h.threads t (List.mem_of_getElem? ht)
  rw [hrest] at hmeets
  exact (hmeets p.state h.inv (C.refl _) hguard).1.ensures

end Hedronetes.Interleaving
