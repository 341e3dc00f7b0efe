import Hedronetes.Foundations.Interleaving

/-!
# One program among others

A program takes its steps while others change the state in ways that are known. What is assumed of
the others and what each call of the program ensures hold at every point of a run, whether or not
the program comes to its end.
-/

namespace Hedronetes.Interleaving

open Effects Relation

variable {σ τ κ ρ ε α β ι : Type} (perform : κ → σ → ρ × σ)

/-- What the others may do between the steps of a program, and what each of its calls ensures. -/
structure Among (σ τ κ : Type) where
  others : σ → σ → Prop
  ensures : List (Seen σ τ κ) → σ → κ → Prop

/-- Where a program that starts in a state can come to. -/
inductive Reaches (others : σ → σ → Prop) (x : Program σ τ κ ρ ε α) (s : σ) :
    List (Seen σ τ κ) → Program σ τ κ ρ ε α → σ → Prop
  | start : Reaches others x s [] x s
  | others {seen : List (Seen σ τ κ)} {y : Program σ τ κ ρ ε α} {t u : σ} :
      Reaches others x s seen y t → others t u → Reaches others x s seen y u
  | read {seen : List (Seen σ τ κ)} {what : τ} {next : σ → Program σ τ κ ρ ε α} {t : σ} :
      Reaches others x s seen (.read what next) t →
        Reaches others x s (seen ++ [.read what t]) (next t) t
  | call {seen : List (Seen σ τ κ)} {c : κ} {next : ρ → Program σ τ κ ρ ε α} {t : σ} :
      Reaches others x s seen (.call c next) t →
        Reaches others x s (seen ++ [.call c t]) (next (perform c t).1) (perform c t).2

variable (A : Among σ τ κ)

/-- From a state on, each call of the program ensures what it has to, whatever the others do in
between; what it ends with has the property. -/
def Does (post : Except ε α → List (Seen σ τ κ) → σ → Prop) :
    Program σ τ κ ρ ε α → List (Seen σ τ κ) → σ → Prop
  | .done a, seen, s => ∀ t, ReflTransGen A.others s t → post (.ok a) seen t
  | .fail e, seen, s => ∀ t, ReflTransGen A.others s t → post (.error e) seen t
  | .read what next, seen, s => ∀ t, ReflTransGen A.others s t →
      Does post (next t) (seen ++ [.read what t]) t
  | .call c next, seen, s => ∀ t, ReflTransGen A.others s t → A.ensures seen t c ∧
      Does post (next (perform c t).1) (seen ++ [.call c t]) (perform c t).2

section

variable {perform A} {P P' : Except ε α → List (Seen σ τ κ) → σ → Prop}
  {Q : Except ε β → List (Seen σ τ κ) → σ → Prop} {x : Program σ τ κ ρ ε α}
  {f : α → Program σ τ κ ρ ε β} {seen : List (Seen σ τ κ)} {s t : σ}

theorem Does.later (h : Does perform A P x seen s) (hothers : ReflTransGen A.others s t) :
    Does perform A P x seen t := by
  cases x with
  | done a => exact fun u hu => h u (hothers.trans hu)
  | fail e => exact fun u hu => h u (hothers.trans hu)
  | read what next => exact fun u hu => h u (hothers.trans hu)
  | call c next => exact fun u hu => h u (hothers.trans hu)

theorem Does.weaken (h : Does perform A P x seen s)
    (hpost : ∀ result seen s, P result seen s → P' result seen s) :
    Does perform A P' x seen s := by
  induction x generalizing seen s with
  | done a => exact fun t ht => hpost _ seen t (h t ht)
  | fail e => exact fun t ht => hpost _ seen t (h t ht)
  | read what next ih => exact fun t ht => ih t (h t ht)
  | call c next ih => exact fun t ht => ⟨(h t ht).1, ih _ (h t ht).2⟩

/-- What follows starts where the first part ends, and a failure is the end. -/
theorem Does.bind (h : Does perform A P x seen s)
    (hf : ∀ a seen' t, seen ⊆ seen' → P (.ok a) seen' t → Does perform A Q (f a) seen' t)
    (hfail : ∀ e seen' t, seen ⊆ seen' → P (.error e) seen' t → Q (.error e) seen' t) :
    Does perform A Q (x >>= f) seen s := by
  change Does perform A Q (x.bind f) seen s
  induction x generalizing seen s with
  | done a =>
    have hnext : ∀ t, ReflTransGen A.others s t → Does perform A Q (f a) seen t :=
      fun t ht => hf a seen t (List.Subset.refl _) (h t ht)
    exact hnext s .refl
  | fail e => exact fun t ht => hfail e seen t (List.Subset.refl _) (h t ht)
  | read what next ih =>
    intro t ht
    have hsub : seen ⊆ seen ++ [.read what t] := List.subset_append_left _ _
    apply ih t (h t ht)
    · exact fun a seen' u hseen => hf a seen' u (List.Subset.trans hsub hseen)
    · exact fun e seen' u hseen => hfail e seen' u (List.Subset.trans hsub hseen)
  | call c next ih =>
    intro t ht
    have hsub : seen ⊆ seen ++ [.call c t] := List.subset_append_left _ _
    refine ⟨(h t ht).1, ih _ (h t ht).2 ?_ ?_⟩
    · exact fun a seen' u hseen => hf a seen' u (List.Subset.trans hsub hseen)
    · exact fun e seen' u hseen => hfail e seen' u (List.Subset.trans hsub hseen)

theorem Does.pure {a : α} (h : ∀ t, ReflTransGen A.others s t → P (.ok a) seen t) :
    Does perform A P (pure a : Program σ τ κ ρ ε α) seen s := h

theorem Does.fail {e : ε} (h : ∀ t, ReflTransGen A.others s t → P (.error e) seen t) :
    Does perform A P (.fail e : Program σ τ κ ρ ε α) seen s := h

theorem Does.reading {what : τ} {f : σ → Except ε α}
    (h : ∀ t u, ReflTransGen A.others s t → ReflTransGen A.others t u →
      P (f t) (seen ++ [.read what t]) u) :
    Does perform A P (.reading what f : Program σ τ κ ρ ε α) seen s := by
  intro t ht
  have hends := fun u => h t u ht
  change Does perform A P (.lift (f t)) (seen ++ [.read what t]) t
  cases hx : f t with
  | ok a => exact fun u hu => hx ▸ hends u hu
  | error e => exact fun u hu => hx ▸ hends u hu

theorem Does.lift_bind {x : Except ε α}
    (h : ∀ a, x = .ok a → Does perform A Q (f a) seen s)
    (hfail : ∀ e t, x = .error e → ReflTransGen A.others s t → Q (.error e) seen t) :
    Does perform A Q ((liftM x : Program σ τ κ ρ ε α) >>= f) seen s := by
  cases x with
  | ok a => exact h a rfl
  | error e => exact fun t ht => hfail e t rfl ht

theorem Does.reading_bind {what : τ} {g : σ → Except ε α}
    (h : ∀ a t, g t = .ok a → ReflTransGen A.others s t →
      Does perform A Q (f a) (seen ++ [.read what t]) t)
    (hfail : ∀ e t u, g t = .error e → ReflTransGen A.others s u →
      Q (.error e) (seen ++ [.read what t]) u) :
    Does perform A Q (.reading what g >>= f) seen s := by
  intro t ht
  apply Does.lift_bind (x := g t)
  · exact fun a ha => h a t ha ht
  · exact fun e u he hu => hfail e t u he (ht.trans hu)

/-- A loop goes through what is left, with something that each round keeps. -/
theorem Does.foldlM {γ : Type} {f : β → γ → Program σ τ κ ρ ε β} {l : List γ} {b : β}
    {J : List γ → β → List (Seen σ τ κ) → σ → Prop}
    {R : Except ε β → List (Seen σ τ κ) → σ → Prop} (h : J l b seen s)
    (hothers : ∀ b seen s t, J [] b seen s → ReflTransGen A.others s t → R (.ok b) seen t)
    (hround : ∀ a rest b seen s, J (a :: rest) b seen s → Does perform A
      (fun result seen t => (∀ next, result = .ok next → J rest next seen t) ∧
        ∀ e, result = .error e → R (.error e) seen t) (f b a) seen s) :
    Does perform A R (l.foldlM f b) seen s := by
  induction l generalizing b seen s with
  | nil => exact fun t ht => hothers b seen s t h ht
  | cons a rest ih =>
    rw [List.foldlM_cons]
    apply (hround a rest b seen s h).bind
    · exact fun next seen' t _ hnext => ih (hnext.1 next rfl)
    · exact fun e seen' t _ hfail => hfail.2 e rfl

/-- A failure becomes part of the result. -/
theorem Does.attempt {ε' : Type} {R : Except ε' (Except ε α) → List (Seen σ τ κ) → σ → Prop}
    (h : Does perform A P x seen s)
    (hpost : ∀ result seen s, P result seen s → R (.ok result) seen s) :
    Does perform A R (x.attempt : Program σ τ κ ρ ε' (Except ε α)) seen s := by
  induction x generalizing seen s with
  | done a => exact fun t ht => hpost _ seen t (h t ht)
  | fail e => exact fun t ht => hpost _ seen t (h t ht)
  | read what next ih => exact fun t ht => ih t (h t ht)
  | call c next ih => exact fun t ht => ⟨(h t ht).1, ih _ (h t ht).2⟩

/-- A program that meets a contract, which the others keep to, keeps what its calls and the others
keep. -/
theorem Does.of_meets {C : Contract σ τ κ ι} {r : ι} {J : σ → Prop}
    {R : α → List (Seen σ τ κ) → σ → Prop} (h : Meets perform C r R x seen s)
    (hs : C.inv s) (hJ : J s) (hinv : ∀ t u, C.inv t → A.others t u → C.inv u)
    (hrely : ∀ t u, A.others t u → C.rely t u)
    (hguard : ∀ seen t c, C.guard r seen t c)
    (hensures : ∀ seen t c, C.inv t → C.ensures r seen t c → A.ensures seen t c)
    (hothers : ∀ t u, J t → A.others t u → J u)
    (hcalls : ∀ seen t c, J t → C.inv t → C.ensures r seen t c → J (perform c t).2) :
    Does perform A (fun _ _ t => J t) x seen s := by
  have hkept : ∀ s t, ReflTransGen A.others s t → C.inv s → J s → C.inv t ∧ C.rely s t ∧ J t := by
    intro s t ht hs hJ
    induction ht with
    | refl => exact ⟨hs, C.refl s, hJ⟩
    | tail _ hstep ih =>
      exact ⟨hinv _ _ ih.1 hstep, C.trans ih.2.1 (hrely _ _ hstep), hothers _ _ ih.2.2 hstep⟩
  induction x generalizing seen s with
  | done a => exact fun t ht => (hkept s t ht hs hJ).2.2
  | fail e => exact fun t ht => (hkept s t ht hs hJ).2.2
  | read what next ih =>
    intro t ht
    obtain ⟨hinv', hlater, hJ'⟩ := hkept s t ht hs hJ
    exact ih t (h t hinv' hlater) hinv' hJ'
  | call c next ih =>
    intro t ht
    obtain ⟨hinv', hlater, hJ'⟩ := hkept s t ht hs hJ
    obtain ⟨hallows, hnext⟩ := h t hinv' hlater (hguard seen t c)
    have hdone := hensures seen t c hinv' hallows.ensures
    exact ⟨hdone, ih _ hnext hallows.inv (hcalls seen t c hJ' hinv' hallows.ensures)⟩

/-! ## Runs -/

variable {y : Program σ τ κ ρ ε α}

/-- A program that the others leave alone comes to its end. -/
theorem Reaches.of_run {others : σ → σ → Prop} (h : Reaches perform others x s seen y t) {a : α}
    {u : σ} (hrun : y.run perform t = .ok a u) :
    ∃ after, Reaches perform others x s after (.done a) u := by
  induction y generalizing seen t with
  | done b =>
    cases hrun
    exact ⟨seen, h⟩
  | fail e => cases hrun
  | read what next ih => exact ih t h.read hrun
  | call c next ih => exact ih _ h.call hrun

/-- Wherever a run has come, the rest of the program does what it has to. -/
theorem Reaches.does (h : Reaches perform A.others x s seen y t) (hx : Does perform A P x [] s) :
    Does perform A P y seen t := by
  induction h with
  | start => exact hx
  | others _ hstep ih => exact ih.later (.single hstep)
  | read _ ih => exact ih _ .refl
  | call _ ih => exact (ih _ .refl).2

/-- Each call of a run ensures what it has to. -/
theorem Reaches.ensures (h : Reaches perform A.others x s seen y t)
    (hx : Does perform A P x [] s) {c : κ} {u : σ} (hc : .call c u ∈ seen) :
    ∃ earlier, earlier ⊆ seen ∧ A.ensures earlier u c := by
  induction h with
  | start => cases hc
  | others _ _ ih => exact ih hc
  | read _ ih =>
    simp only [List.mem_append, List.mem_singleton, reduceCtorEq, or_false] at hc
    obtain ⟨earlier, hsub, hensures⟩ := ih hc
    exact ⟨earlier, List.subset_append_of_subset_left _ hsub, hensures⟩
  | call hreach ih =>
    simp only [List.mem_append, List.mem_singleton, Seen.call.injEq] at hc
    rcases hc with hc | ⟨rfl, rfl⟩
    · obtain ⟨earlier, hsub, hensures⟩ := ih hc
      exact ⟨earlier, List.subset_append_of_subset_left _ hsub, hensures⟩
    · exact ⟨_, List.subset_append_left _ _, (hreach.does hx _ .refl).1⟩

/-- What the others keep and the calls keep holds wherever a run has come. -/
theorem Reaches.keeps {I : σ → Prop} (h : Reaches perform A.others x s seen y t)
    (hx : Does perform A P x [] s) (hs : I s) (hothers : ∀ t u, I t → A.others t u → I u)
    (hcalls : ∀ seen t c, I t → A.ensures seen t c → I (perform c t).2) : I t := by
  induction h with
  | start => exact hs
  | others _ hstep ih => exact hothers _ _ ih hstep
  | read _ ih => exact ih
  | call hreach ih => exact hcalls _ _ _ ih (hreach.does hx _ .refl).1

end

end Hedronetes.Interleaving
