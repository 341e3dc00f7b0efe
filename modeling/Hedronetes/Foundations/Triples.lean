import Hedronetes.Foundations.Interference

/-!
# Triples for a program among others

What is known before a program and after it, when others change the state at every point between
its steps. A fact has to survive what the others do; an invariant that the others and the calls keep
holds throughout.
-/

namespace Hedronetes.Interleaving

open Relation

variable {σ τ κ ρ ε α β γ : Type}

/-- A fact about what a program has seen and the state it is in. -/
abbrev Fact (σ τ κ : Type) := List (Seen σ τ κ) → σ → Prop

/-- The others, what each call of the program ensures, and an invariant that both keep. -/
structure Setting (σ τ κ ρ : Type) extends Among σ τ κ where
  perform : κ → σ → ρ × σ
  inv : σ → Prop
  others_inv : ∀ {s t : σ}, inv s → others s t → inv t
  call_inv : ∀ {seen : List (Seen σ τ κ)} {s : σ} {c : κ}, inv s → ensures seen s c →
    inv (perform c s).2

namespace Setting

variable (E : Setting σ τ κ ρ)

theorem star_inv {s t : σ} (h : ReflTransGen E.others s t) (hs : E.inv s) : E.inv t := by
  induction h with
  | refl => exact hs
  | tail _ hstep ih => exact E.others_inv ih hstep

/-- A fact that the others cannot make false, and that stays true as more is seen. -/
structure Stable (P : Fact σ τ κ) : Prop where
  more : ∀ {seen seen' : List (Seen σ τ κ)} {s : σ}, seen ⊆ seen' → P seen s → P seen' s
  others : ∀ {seen : List (Seen σ τ κ)} {s t : σ}, E.inv s → E.others s t → P seen s → P seen t

/-- A stable fact that no call of the program makes false. -/
structure Kept (R : Fact σ τ κ) : Prop extends E.Stable R where
  call : ∀ {seen : List (Seen σ τ κ)} {s : σ} {c : κ}, E.inv s → E.ensures seen s c → R seen s →
    R seen (E.perform c s).2

/-- Where the fact before holds, the program does what it has to, and the fact after holds of what
it returns. -/
def Triple (P : Fact σ τ κ) (x : Program σ τ κ ρ ε α) (Q : α → Fact σ τ κ) : Prop :=
  ∀ seen s, E.inv s → P seen s → Does E.perform E.toAmong
    (fun result seen t => E.inv t ∧ ∀ a, result = .ok a → Q a seen t) x seen s

/-- The same calls with more asked of them. -/
def restrict (K : κ → Prop) : Setting σ τ κ ρ where
  others := E.others
  ensures seen s c := E.ensures seen s c ∧ K c
  perform := E.perform
  inv := E.inv
  others_inv := E.others_inv
  call_inv hs h := E.call_inv hs h.1

variable {E} {P P' R : Fact σ τ κ} {Q Q' : α → Fact σ τ κ} {M : β → Fact σ τ κ}
  {x : Program σ τ κ ρ ε α}

/-! ## Stable facts -/

theorem Stable.star (h : E.Stable P) {seen : List (Seen σ τ κ)} {s t : σ} (hs : E.inv s)
    (hstar : ReflTransGen E.others s t) (hP : P seen s) : P seen t := by
  induction hstar with
  | refl => exact hP
  | tail hstar hstep ih => exact h.others (E.star_inv hstar hs) hstep ih

theorem Stable.and (hP : E.Stable P) (hR : E.Stable R) :
    E.Stable fun seen s => P seen s ∧ R seen s :=
  ⟨fun hsub h => ⟨hP.more hsub h.1, hR.more hsub h.2⟩,
    fun hs hstep h => ⟨hP.others hs hstep h.1, hR.others hs hstep h.2⟩⟩

theorem Stable.pure (p : Prop) : E.Stable fun _ _ => p := ⟨fun _ h => h, fun _ _ h => h⟩

theorem Stable.forall {ι : Sort*} {P : ι → Fact σ τ κ} (h : ∀ b, E.Stable (P b)) :
    E.Stable fun seen s => ∀ b, P b seen s :=
  ⟨fun hsub hP b => (h b).more hsub (hP b), fun hs hstep hP b => (h b).others hs hstep (hP b)⟩

theorem Stable.exists {ι : Sort*} {P : ι → Fact σ τ κ} (h : ∀ b, E.Stable (P b)) :
    E.Stable fun seen s => ∃ b, P b seen s := by
  constructor
  · rintro seen seen' s hsub ⟨b, hb⟩
    exact ⟨b, (h b).more hsub hb⟩
  · rintro seen s t hs hstep ⟨b, hb⟩
    exact ⟨b, (h b).others hs hstep hb⟩

/-- What was once read. -/
theorem Stable.seen (p : Seen σ τ κ → Prop) : E.Stable fun seen _ => ∃ step ∈ seen, p step :=
  ⟨fun hsub h => h.imp fun _ hstep => ⟨hsub hstep.1, hstep.2⟩, fun _ _ h => h⟩

theorem Kept.pure (p : Prop) : E.Kept fun _ _ => p := ⟨Stable.pure p, fun _ _ h => h⟩

theorem Kept.seen (p : Seen σ τ κ → Prop) : E.Kept fun seen _ => ∃ step ∈ seen, p step :=
  ⟨Stable.seen p, fun _ _ h => h⟩

theorem Kept.forall {ι : Sort*} {P : ι → Fact σ τ κ} (h : ∀ b, E.Kept (P b)) :
    E.Kept fun seen s => ∀ b, P b seen s :=
  ⟨Stable.forall fun b => (h b).toStable, fun hs hc hP b => (h b).call hs hc (hP b)⟩

theorem Kept.and {R' : Fact σ τ κ} (hR : E.Kept R) (hR' : E.Kept R') :
    E.Kept fun seen s => R seen s ∧ R' seen s :=
  ⟨hR.toStable.and hR'.toStable,
    fun hs hc h => ⟨hR.call hs hc h.1, hR'.call hs hc h.2⟩⟩

theorem Kept.after {seen : List (Seen σ τ κ)} {s : σ} {c : κ} (hR : E.Kept R) (hs : E.inv s)
    (hc : E.ensures seen s c) (h : R seen s) : R (seen ++ [.call c s]) (E.perform c s).2 :=
  hR.more (List.subset_append_left _ _) (hR.call hs hc h)

/-! ## Steps -/

theorem Triple.weaken (h : E.Triple P x Q) (hpre : ∀ seen s, E.inv s → P' seen s → P seen s)
    (hpost : ∀ a seen s, E.inv s → Q a seen s → Q' a seen s) : E.Triple P' x Q' := by
  intro seen s hs hP
  apply (h seen s hs (hpre seen s hs hP)).weaken
  exact fun result seen t ht => ⟨ht.1, fun a ha => hpost a seen t ht.1 (ht.2 a ha)⟩

theorem Triple.pure {a : α} (hP : E.Stable P)
    (h : ∀ seen s, E.inv s → P seen s → Q a seen s) :
    E.Triple P (pure a : Program σ τ κ ρ ε α) Q := by
  intro seen s hs hpre t ht
  refine ⟨E.star_inv ht hs, fun b hb => ?_⟩
  cases hb
  exact h seen t (E.star_inv ht hs) (hP.star hs ht hpre)

/-- A program that only returns leaves what is known as it is. -/
theorem Triple.ends {a : α} (hP : E.Stable P) :
    E.Triple P (Pure.pure a : Program σ τ κ ρ ε α) fun _ => P :=
  Triple.pure hP fun _ _ _ h => h

theorem Triple.fail {e : ε} : E.Triple P (.fail e : Program σ τ κ ρ ε α) Q := by
  intro seen s hs _ t ht
  exact ⟨E.star_inv ht hs, fun a ha => by cases ha⟩

theorem Triple.reading {what : τ} {f : σ → Except ε α} (hP : E.Stable P)
    (hQ : ∀ a, E.Stable (Q a))
    (h : ∀ a seen s, f s = .ok a → E.inv s → P seen s → Q a (seen ++ [.read what s]) s) :
    E.Triple P (.reading what f : Program σ τ κ ρ ε α) Q := by
  intro seen s hs hpre
  apply Does.reading
  intro t u ht hu
  have htinv := E.star_inv ht hs
  refine ⟨E.star_inv hu htinv, fun a ha => ?_⟩
  exact (hQ a).star htinv hu (h a seen t ha htinv (hP.star hs ht hpre))

theorem Triple.call {c : κ} {next : ρ → Program σ τ κ ρ ε α} (hP : E.Stable P)
    (hensures : ∀ seen s, E.inv s → P seen s → E.ensures seen s c)
    (hnext : ∀ seen s, E.inv s → P seen s → E.ensures seen s c →
      Does E.perform E.toAmong (fun result seen t => E.inv t ∧ ∀ a, result = .ok a → Q a seen t)
        (next (E.perform c s).1) (seen ++ [.call c s]) (E.perform c s).2) :
    E.Triple P (.call c next) Q := by
  intro seen s hs hpre t ht
  have htinv := E.star_inv ht hs
  have hthere := hP.star hs ht hpre
  have hdone := hensures seen t htinv hthere
  exact ⟨hdone, hnext seen t htinv hthere hdone⟩

/-- A call and its reply, which may be a failure. -/
theorem Triple.rpc {E : Setting σ τ κ (Except ε α)} {P : Fact σ τ κ} {Q : α → Fact σ τ κ} {c : κ}
    (hP : E.Stable P) (hQ : ∀ a, E.Stable (Q a))
    (hensures : ∀ seen s, E.inv s → P seen s → E.ensures seen s c)
    (h : ∀ a seen s, (E.perform c s).1 = .ok a → E.inv s → P seen s → E.ensures seen s c →
      Q a (seen ++ [.call c s]) (E.perform c s).2) :
    E.Triple P (.call c .lift : Program σ τ κ (Except ε α) ε α) Q := by
  apply Triple.call hP hensures
  intro seen s hs hpre hdone
  have hinv := E.call_inv hs hdone
  cases hreply : (E.perform c s).1 with
  | ok a =>
    intro t ht
    refine ⟨E.star_inv ht hinv, fun b hb => ?_⟩
    cases hb
    exact (hQ a).star hinv ht (h a seen s hreply hs hpre hdone)
  | error e => exact fun t ht => ⟨E.star_inv ht hinv, fun b hb => by cases hb⟩

/-- A call that leaves what is known as it is. -/
theorem Triple.rpc_kept {E : Setting σ τ κ (Except ε α)} {P : Fact σ τ κ} {c : κ}
    (hP : E.Kept P) (hensures : ∀ seen s, E.inv s → P seen s → E.ensures seen s c) :
    E.Triple P (.call c .lift : Program σ τ κ (Except ε α) ε α) fun _ => P :=
  Triple.rpc hP.toStable (fun _ => hP.toStable) hensures fun _ _ _ _ hs hpre hdone =>
    hP.after hs hdone hpre

/-- A read that tells more. -/
theorem Triple.reading_and {what : τ} {f : σ → Except ε α} (hP : E.Stable P)
    (hQ : ∀ a, E.Stable (Q a))
    (h : ∀ a seen s, f s = .ok a → E.inv s → P seen s → Q a (seen ++ [.read what s]) s) :
    E.Triple P (.reading what f : Program σ τ κ ρ ε α) fun a seen s => P seen s ∧ Q a seen s :=
  Triple.reading hP (fun a => hP.and (hQ a)) fun a seen s hf hs hpre =>
    ⟨hP.more (List.subset_append_left _ _) hpre, h a seen s hf hs hpre⟩

/-- What does not depend on the state is there from the start. -/
theorem Triple.assume {p : Prop} (h : p → E.Triple P x Q) :
    E.Triple (fun seen s => p ∧ P seen s) x Q :=
  fun seen s hs hpre => h hpre.1 seen s hs hpre.2

theorem Triple.bind {y : Program σ τ κ ρ ε β} {f : β → Program σ τ κ ρ ε α}
    (hy : E.Triple P y M) (hf : ∀ b, E.Triple (M b) (f b) Q) : E.Triple P (y >>= f) Q := by
  intro seen s hs hpre
  apply (hy seen s hs hpre).bind
  · exact fun b seen' t _ hb => hf b seen' t hb.1 (hb.2 b rfl)
  · exact fun e seen' t _ he => ⟨he.1, fun a ha => by cases ha⟩

theorem Triple.lift_bind {r : Except ε β} {f : β → Program σ τ κ ρ ε α}
    (h : ∀ b, r = .ok b → E.Triple P (f b) Q) :
    E.Triple P ((liftM r : Program σ τ κ ρ ε β) >>= f) Q := by
  cases r with
  | ok b => exact h b rfl
  | error e => exact Triple.fail

/-- A loop goes through what is left, with something that each round keeps. -/
theorem Triple.foldlM {f : β → γ → Program σ τ κ ρ ε β} {l : List γ} {b : β}
    {J : List γ → β → Fact σ τ κ} (hJ : ∀ rest b, E.Stable (J rest b))
    (hround : ∀ a rest b, a ∈ l → E.Triple (J (a :: rest) b) (f b a) (J rest)) :
    E.Triple (J l b) (l.foldlM f b) (J []) := by
  induction l generalizing b with
  | nil => exact Triple.pure (hJ [] b) fun _ _ _ h => h
  | cons a rest ih =>
    rw [List.foldlM_cons]
    apply (hround a rest b List.mem_cons_self).bind
    exact fun next => ih fun c others b hc => hround c others b (List.mem_cons_of_mem a hc)

/-! ## Other facts -/

/-- What the calls of a program keep is still known wherever it ends. -/
theorem Kept.does {post : Except ε α → Fact σ τ κ} {seen : List (Seen σ τ κ)} {s : σ}
    (hR : E.Kept R) (hs : E.inv s) (hthere : R seen s) (h : Does E.perform E.toAmong
      (fun result seen t => E.inv t ∧ post result seen t) x seen s) :
    Does E.perform E.toAmong
      (fun result seen t => E.inv t ∧ post result seen t ∧ R seen t) x seen s := by
  induction x generalizing seen s with
  | done a =>
    intro t ht
    exact ⟨(h t ht).1, (h t ht).2, hR.star hs ht hthere⟩
  | fail e =>
    intro t ht
    exact ⟨(h t ht).1, (h t ht).2, hR.star hs ht hthere⟩
  | read what next ih =>
    intro t ht
    have hnow := hR.more (List.subset_append_left seen [.read what t]) (hR.star hs ht hthere)
    exact ih t (E.star_inv ht hs) hnow (h t ht)
  | call c next ih =>
    intro t ht
    have htinv := E.star_inv ht hs
    obtain ⟨hdone, hrest⟩ := h t ht
    have hnow := hR.after htinv hdone (hR.star hs ht hthere)
    exact ⟨hdone, ih _ (E.call_inv htinv hdone) hnow hrest⟩

theorem Triple.frame (h : E.Triple P x Q) (hR : E.Kept R) :
    E.Triple (fun seen s => P seen s ∧ R seen s) x fun a seen s => Q a seen s ∧ R seen s := by
  intro seen s hs hpre
  apply (hR.does hs hpre.2 (h seen s hs hpre.1)).weaken
  exact fun result seen t ht => ⟨ht.1, fun a ha => ⟨ht.2.1 a ha, ht.2.2⟩⟩

/-- Even when the program fails. -/
theorem Triple.framed {ε' : Type} (h : E.Triple P x Q) (hR : E.Kept R) :
    E.Triple (fun seen s => P seen s ∧ R seen s) (x.attempt : Program σ τ κ ρ ε' (Except ε α))
      fun result seen s => R seen s ∧ ∀ a, result = .ok a → Q a seen s := by
  intro seen s hs hpre
  apply (hR.does hs hpre.2 (h seen s hs hpre.1)).attempt
  intro result seen t ht
  refine ⟨ht.1, fun r hr => ?_⟩
  cases hr
  exact ⟨ht.2.2, ht.2.1⟩

/-- A program that makes only some of the calls. -/
theorem Triple.widen {K K' : κ → Prop} (h : (E.restrict K).Triple P x Q) (hK : ∀ c, K c → K' c) :
    (E.restrict K').Triple P x Q := by
  intro seen s hs hpre
  have hdoes := h seen s hs hpre
  clear h hs hpre
  induction x generalizing seen s with
  | done a => exact hdoes
  | fail e => exact hdoes
  | read what next ih => exact fun t ht => ih t _ _ (hdoes t ht)
  | call c next ih =>
    intro t ht
    obtain ⟨hdone, hrest⟩ := hdoes t ht
    exact ⟨⟨hdone.1, hK c hdone.2⟩, ih _ _ _ hrest⟩

/-- What more calls keep fewer keep. -/
theorem Kept.narrow {K K' : κ → Prop} (h : (E.restrict K').Kept R) (hK : ∀ c, K c → K' c) :
    (E.restrict K).Kept R :=
  ⟨⟨h.more, h.others⟩, fun hs hc => h.call hs ⟨hc.1, hK _ hc.2⟩⟩

end Setting

/-! ## One program after the other -/

/-- Programs are started one after the other, each given up where it stands or at its end. -/
inductive Lives (perform : κ → σ → ρ × σ) (others : σ → σ → Prop)
    (start : Program σ τ κ ρ ε α → Prop) (s : σ) : σ → Prop
  | begin : Lives perform others start s s
  | next {t u : σ} {x y : Program σ τ κ ρ ε α} {seen : List (Seen σ τ κ)} :
      Lives perform others start s t → start x → Reaches perform others x t seen y u →
      Lives perform others start s u

variable {E : Setting σ τ κ ρ} {start : Program σ τ κ ρ ε α → Prop}

theorem Lives.inv {s t : σ} (h : Lives E.perform E.others start s t) (hs : E.inv s)
    (hstart : ∀ x, start x → E.Triple (fun _ _ => True) x fun _ _ _ => True) : E.inv t := by
  induction h with
  | begin => exact hs
  | next _ hx hreach ih =>
    exact hreach.keeps (hstart _ hx [] _ ih trivial) ih (fun _ _ => E.others_inv)
      fun _ _ _ => E.call_inv

/-! ## What is seen in a run -/

section

variable {perform : κ → σ → ρ × σ}

/-- What a program that is left alone sees from here on. -/
def Program.trace (perform : κ → σ → ρ × σ) : Program σ τ κ ρ ε α → σ → List (Seen σ τ κ)
  | .done _, _ => []
  | .fail _, _ => []
  | .read what next, s => .read what s :: trace perform (next s) s
  | .call c next, s => .call c s :: trace perform (next (perform c s).1) (perform c s).2

theorem Reaches.of_trace {others : σ → σ → Prop} {x y : Program σ τ κ ρ ε α} {s t u : σ}
    {seen : List (Seen σ τ κ)} (h : Reaches perform others x s seen y t) {a : α}
    (hrun : y.run perform t = .ok a u) :
    Reaches perform others x s (seen ++ y.trace perform t) (.done a) u := by
  induction y generalizing seen t with
  | done b =>
    cases hrun
    rw [Program.trace, List.append_nil]
    exact h
  | fail e => cases hrun
  | read what next ih =>
    rw [Program.trace, List.append_cons]
    exact ih t h.read hrun
  | call c next ih =>
    rw [Program.trace, List.append_cons]
    exact ih _ h.call hrun

/-- Each call of a run ensures what it has to, with what was seen before it. -/
theorem Reaches.ensures_before {A : Among σ τ κ} {P : Except ε α → List (Seen σ τ κ) → σ → Prop}
    {x y : Program σ τ κ ρ ε α} {s t : σ} {seen : List (Seen σ τ κ)}
    (h : Reaches perform A.others x s seen y t) (hx : Does perform A P x [] s)
    {before after : List (Seen σ τ κ)} {c : κ} {u : σ}
    (hseen : seen = before ++ .call c u :: after) :
    A.ensures before u c := by
  induction h generalizing after with
  | start => simp at hseen
  | others _ _ ih => exact ih hseen
  | read _ ih =>
    rcases List.eq_nil_or_concat after with rfl | ⟨rest, last, rfl⟩
    · cases (List.append_inj' hseen rfl).2
    · rw [List.concat_eq_append, ← List.cons_append, ← List.append_assoc] at hseen
      exact ih (List.append_inj' hseen rfl).1
  | call hreach ih =>
    rcases List.eq_nil_or_concat after with rfl | ⟨rest, last, rfl⟩
    · obtain ⟨rfl, hlast⟩ := List.append_inj' hseen rfl
      cases hlast
      exact (hreach.does hx _ .refl).1
    · rw [List.concat_eq_append, ← List.cons_append, ← List.append_assoc] at hseen
      exact ih (List.append_inj' hseen rfl).1

end

end Hedronetes.Interleaving
