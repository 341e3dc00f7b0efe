import Hedronetes.Kubelet.Instances

/-!
# A container takes the place of another

Under one name of a Pod containers follow each other. The next one is made when the current one is
seen not to run or is not what the Pod asks for, and after it was stopped; the others go when the
next one has been observed.
-/

namespace Hedronetes.Kubelet.Runtime

open Interleaving StableSort

/-- What is done for the containers of one name. -/
def ForName (name : String) : Call → Prop
  | .runSandbox _ => False
  | .createContainer _ config => config.metadata.name = name
  | _ => True

def nameOf (x : Container) : Option String := x.metadata.map Metadata.name

/-- A container of the Pod by that name, in its sandbox. -/
structure Named (agent : Agent) (uid box name : String) (x : Container) : Prop where
  sandbox : x.sandbox = box
  belongs : Belongs agent.name uid x.labels
  name : nameOf x = some name

theorem Named.same {agent : Agent} {uid box name : String} {x y : Container}
    (h : Named agent uid box name x) (hsame : x.Same y) : Named agent uid box name y :=
  ⟨hsame.sandbox ▸ h.sandbox, hsame.labels ▸ h.belongs, by
    rw [nameOf, ← hsame.metadata]
    exact h.name⟩

theorem attemptOf_same {x y : Container} (h : x.Same y) : attemptOf x = attemptOf y := by
  rw [attemptOf, attemptOf, h.metadata]

/-- Of the containers of the Pod by that name. -/
def ofName (agent : Agent) (uid name : String) (P : Container → Prop) : Known :=
  held agent fun y => Belongs agent.name uid y.labels → nameOf y = some name → P y

/-- The sandbox is the Pod's. -/
def BoxOf (agent : Agent) (uid box : String) : Known := fun seen m =>
  ∃ l, Belongs agent.name uid l ∧ boxIs box l seen m

/-- No container by that name has a later attempt than this one, and none of the others lives. -/
def Leads (agent : Agent) (uid name : String) (current : Option Container) : Known :=
  ofName agent uid name fun y => ∃ x, current = some x ∧ attemptOf y ≤ attemptOf x ∧
    (y.live = true → y.id = x.id)

/-- What is known of the current container. -/
def Current (agent : Agent) (uid box name : String) (current : Option Container) : Known :=
  fun seen m => Leads agent uid name current seen m ∧ ∀ x, current = some x →
    Named agent uid box name x ∧ known x seen m ∧
    ∃ step ∈ seen, ∃ m', step = .read (.container x.id) m' ∧ x ∈ m'.containers

/-- Only the container with this id may live. -/
def Alone (agent : Agent) (uid name id : String) : Known :=
  ofName agent uid name fun y => y.live = true → y.id = id

/-- What neither makes anything of the runtime nor starts it. -/
def Quiet : Call → Prop
  | .runSandbox _ => False
  | .createContainer _ _ => False
  | .startContainer _ => False
  | _ => True

/-- What has to do with neither a sandbox nor a container. -/
def Beside : Call → Prop
  | .pullImage _ => True
  | .prepare _ => True
  | .removeDirectory _ => True
  | .publish _ _ _ => True
  | .record _ _ => True
  | .retain _ => True
  | _ => False

theorem Quiet.forName {name : String} {c : Call} (h : Quiet c) : ForName name c := by
  cases c <;> trivial

theorem ForName.forPod {agent : Agent} {uid name : String} {c : Call} (h : ForName name c) :
    ForPod agent uid c := by
  cases c <;> trivial

theorem Quiet.forPod {agent : Agent} {uid : String} {c : Call} (h : Quiet c) :
    ForPod agent uid c := by
  cases c <;> trivial

/-- What is asked of the containers of one name in a Pod's sandbox. -/
structure Asked (agent : Agent) (uid name : String) (pods : List Json) (p ctr : Json)
    (config : ContainerConfig) : Prop where
  assigned : p ∈ pods
  pod : uidOf p = uid
  container : ctr ∈ p["spec"]["containers"].items
  configured : configOf agent p uid (push agent.root uid) ctr = .ok config
  name : config.metadata.name = name

/-- What is known of a Pod throughout. -/
def Base (agent : Agent) (uid box : String) (pods : List Json) : Known := fun seen m =>
  BoxOf agent uid box seen m ∧ Listed agent seen pods

/-- A container that was made and has no other to lead it. -/
def Fresh (agent : Agent) (uid box name id : String) : Known := fun seen m =>
  ∃ x, x.id = id ∧ Named agent uid box name x ∧ known x seen m ∧
    Leads agent uid name (some x) seen m

/-- The containers of one name that were found in the Pod's sandbox. -/
def Waiting (agent : Agent) (uid box name : String) (found : List Container) : Known :=
  fun seen m => (∀ r ∈ found, Named agent uid box name r ∧ known r seen m) ∧
    ofName agent uid name (fun y => ∃ r ∈ found, r.Same y) seen m

section

variable {agent : Agent} {K : Call → Prop} {uid box name : String} {P : Known} {pods : List Json}

theorem kept_boxOf : (only agent K).Kept (BoxOf agent uid box) := by
  refine ⟨.exists fun l => (Setting.Stable.pure _).and (kept_boxIs box l).toStable, ?_⟩
  rintro seen m c hm hc ⟨l, hl, hbox⟩
  exact ⟨l, hl, (kept_boxIs box l).call hm hc hbox⟩

theorem stable_ofName {P : Container → Prop} (hP : Steady P) :
    (only agent K).Stable (ofName agent uid name P) := by
  apply stable_held
  intro x y hsame hlive hx hbelongs hname
  refine hP x y hsame hlive (hx (hsame.labels ▸ hbelongs) ?_)
  rw [nameOf, hsame.metadata]
  exact hname

theorem steady_leads (current : Option Container) : Steady fun y =>
    ∃ x, current = some x ∧ attemptOf y ≤ attemptOf x ∧ (y.live = true → y.id = x.id) := by
  rintro x y hsame hlive ⟨z, hz, hle, hid⟩
  exact ⟨z, hz, attemptOf_same hsame ▸ hle, fun hy => hsame.id ▸ hid (hlive hy)⟩

theorem stable_leads (current : Option Container) :
    (only agent K).Stable (Leads agent uid name current) := stable_ofName (steady_leads current)

theorem stable_current (current : Option Container) :
    (only agent K).Stable (Current agent uid box name current) :=
  (stable_leads current).and (.forall fun x => .forall fun _ => (Setting.Stable.pure _).and
    ((kept_known x).toStable.and (.seen _)))

theorem steady_alone (id : String) : Steady fun y => y.live = true → y.id = id :=
  fun _ _ hsame hlive hx hy => hsame.id ▸ hx (hlive hy)

theorem stable_alone (id : String) : (only agent K).Stable (Alone agent uid name id) :=
  stable_ofName (steady_alone id)

/-- Those of the node's in the Pod's sandbox are the Pod's. -/
theorem BoxOf.belongs {seen : List (Seen Machine Look Call)} {m : Machine} {y : Container}
    (h : BoxOf agent uid box seen m) (hm : Sound agent.name m) (hy : y ∈ m.containers)
    (hown : owned y.labels agent.name = true) (hbox : y.sandbox = box) :
    Belongs agent.name uid y.labels := by
  obtain ⟨l, hl, -, hall⟩ := h
  apply hm.belongs hy hown
  intro s hs hid
  rw [hall s hs (hid.trans hbox)]
  exact hl

theorem Leads.alone {x : Container} {seen : List (Seen Machine Look Call)} {m : Machine}
    (h : Leads agent uid name (some x) seen m) : Alone agent uid name x.id seen m := by
  intro y hy hown hbelongs hname hlive
  obtain ⟨z, hz, -, hid⟩ := h y hy hown hbelongs hname
  cases hz
  exact hid hlive

theorem attempt_eq {x : Container} {a : Metadata} (h : x.metadata = some a) :
    attemptOf x = a.attempt := by
  rw [attemptOf, h]
  rfl

/-- A container that lives is the latest one of its name. -/
theorem Sound.eq_of_live {node : String} {m : Machine} (h : Sound node m) {x y : Container}
    (hx : x ∈ m.containers) (hy : y ∈ m.containers) (hxown : owned x.labels node = true)
    (hyown : owned y.labels node = true) (hbox : y.sandbox = x.sandbox)
    (hxname : nameOf x = some name) (hyname : nameOf y = some name)
    (hle : attemptOf y ≤ attemptOf x) (hlive : y.live = true) : y = x := by
  obtain ⟨a, ha, haname⟩ := Option.map_eq_some_iff.mp hxname
  obtain ⟨b, hb, hbname⟩ := Option.map_eq_some_iff.mp hyname
  have hname : b.name = a.name := hbname.trans haname.symm
  rw [attempt_eq ha, attempt_eq hb] at hle
  rcases Nat.lt_or_eq_of_le hle with hlt | heq
  · have hdead := h.latest y hy x hx hyown hxown hbox b a hb ha hname hlt
    rw [hlive] at hdead
    cases hdead
  · have hmetadata : y.metadata = x.metadata := by rw [ha, hb, Metadata.ext hname heq]
    exact h.attempts y hy x hx hbox hmetadata (by simp [hb])

/-- The current container may be started: no other one has a later attempt. -/
theorem start_fits {seen : List (Seen Machine Look Call)} {m : Machine} {x : Container}
    (hm : Sound agent.name m) (hbox : BoxOf agent uid box seen m)
    (hknown : known x seen m) (hx : Named agent uid box name x)
    (hlast : ofName agent uid name (fun y => attemptOf y ≤ attemptOf x) seen m) :
    Fits agent.name m (.startContainer x.id) := by
  intro z hz hid y hy hown hsandbox a b ha hb hab
  have hsame := hknown.2 z hz hid
  have hnamed := hx.same hsame
  have hbelongs := hbox.belongs hm hy hown (hsandbox.symm.trans hnamed.sandbox)
  have hname : nameOf y = some name := by
    have hz' := hnamed.name
    rw [nameOf, ha] at hz'
    rw [nameOf, hb, Option.map_some, ← hab]
    exact hz'
  have hle := hlast y hy hown hbelongs hname
  rw [attemptOf_same hsame, attempt_eq ha, attempt_eq hb] at hle
  exact hle

/-- Once it is started it may live. -/
theorem start_alone {id : String} {seen : List (Seen Machine Look Call)} {m : Machine}
    (h : Alone agent uid name id seen m) :
    Alone agent uid name id (seen ++ [.call (.startContainer id) m])
      (perform (.startContainer id) m).2 := by
  intro y' hy' hown hbelongs hname hlive
  rcases (did (.startContainer id) m).containers y' hy' with ⟨y, hy, hsame, hl⟩ | ⟨b, g, hc, -⟩
  · rcases hl hlive with hl | hc
    · rw [← hsame.id]
      refine h y hy (hsame.labels ▸ hown) (hsame.labels ▸ hbelongs) ?_ hl
      rw [nameOf, hsame.metadata]
      exact hname
    · cases hc
      rfl
  · cases hc

theorem steady_ofName {P : Container → Prop} (hP : Steady P) :
    Steady fun y => Belongs agent.name uid y.labels → nameOf y = some name → P y := by
  intro x y hsame hlive hx hbelongs hname
  refine hP x y hsame hlive (hx (hsame.labels ▸ hbelongs) ?_)
  rw [nameOf, hsame.metadata]
  exact hname

theorem kept_ofName {P : Container → Prop} (hP : Steady P) :
    (only agent Quiet).Kept (ofName agent uid name P) :=
  kept_held (steady_ofName hP) (fun _ hK => hK.elim) fun _ _ _ _ hK => hK.elim

theorem kept_listed : (only agent K).Kept fun seen _ => Listed agent seen pods := .seen _

theorem kept_base : (only agent K).Kept (Base agent uid box pods) := kept_boxOf.and kept_listed

theorem kept_current (current : Option Container) :
    (only agent Quiet).Kept (Current agent uid box name current) :=
  (kept_ofName (steady_leads current)).and (.forall fun x => .forall fun _ =>
    (Setting.Kept.pure _).and ((kept_known x).and (.seen _)))

theorem stable_fresh (id : String) : (only agent K).Stable (Fresh agent uid box name id) :=
  .exists fun x => (Setting.Stable.pure _).and ((Setting.Stable.pure _).and
    ((kept_known x).toStable.and (stable_leads (some x))))

/-- It needs nothing of the state and leaves what is known as it is. -/
theorem beside_triple {c : Call} (hc : Beside c) (hP : (only agent Quiet).Kept P) :
    (only agent Quiet).Triple P (rpc c) fun _ => P := by
  apply Setting.Triple.rpc_kept hP
  intro seen m _ _
  cases c <;> first | exact hc.elim | exact ⟨⟨trivial, trivial⟩, trivial⟩

theorem pull_triple (hP : (only agent Quiet).Kept P) {ctr : Json} :
    (only agent Quiet).Triple P (pull ctr) fun _ => P := by
  apply Setting.Triple.lift_bind
  intro image _
  apply Setting.Triple.bind (M := fun _ => P)
  · unfold present
    split_ifs
    · exact Setting.Triple.ends hP.toStable
    · exact look_kept hP.toStable
  intro present
  split_ifs
  · exact Setting.Triple.ends hP.toStable
  apply Setting.Triple.lift_bind
  intro _ _
  apply Setting.Triple.bind (M := fun _ => P)
  · exact beside_triple trivial hP
  · exact fun _ => Setting.Triple.ends hP.toStable

/-- The status that is read is of a container of this id. -/
theorem status_triple {id : String} (hP : (only agent K).Stable P) :
    (only agent K).Triple P (containerStatus id) fun r seen m => P seen m ∧
      ∀ x, r = some x → x.id = id ∧ ∃ step ∈ seen, ∃ m', step = .read (.container id) m' ∧
        x ∈ m'.containers := by
  apply look_triple hP (fun r => .forall fun x => .forall fun _ =>
    (Setting.Stable.pure _).and (.seen _))
  intro r seen m hr _ _ x hx
  subst hx
  split at hr
  · rename_i y hfound
    cases hr
    refine ⟨by simpa using List.find?_some hfound, _,
      List.mem_append_right _ (List.mem_singleton.mpr rfl), m, rfl,
      List.mem_of_find?_eq_some hfound⟩
  · cases hr

theorem mem_matching {all : List Container} {x : Container} :
    x ∈ matching agent.name uid name all ↔
      x ∈ all ∧ owned x.labels agent.name = true ∧ x.labels.lookup UID = some uid ∧
        nameOf x = some name := by
  rw [matching, (perm_sortBy _ _).mem_iff, List.mem_filter]
  simp [nameOf, and_assoc, Option.any_eq_true]


/-- The first of those found has the latest attempt. -/
theorem head_matching {all : List Container} {r : Container}
    (h : (matching agent.name uid name all).head? = some r) :
    r ∈ matching agent.name uid name all ∧
      ∀ y ∈ matching agent.name uid name all, attemptOf y ≤ attemptOf r := by
  obtain ⟨hmem, hle⟩ := head?_sortBy h
  refine ⟨(perm_sortBy _ _).mem_iff.mpr hmem, fun y hy => ?_⟩
  have hkey := hle y ((perm_sortBy _ _).mem_iff.mp hy)
  omega

/-- A container that has its status read when it is the latest of its name leads the others. -/
theorem leads_latest {all : List Container} {r x : Container}
    {seen : List (Seen Machine Look Call)} {m : Machine} (hm : Sound agent.name m)
    (h : Waiting agent uid box name (matching agent.name uid name all) seen m)
    (hr : (matching agent.name uid name all).head? = some r) (hx : x ∈ m.containers)
    (hsame : r.Same x) : Leads agent uid name (some x) seen m := by
  obtain ⟨hr, hlast⟩ := head_matching hr
  obtain ⟨hnamed, -⟩ := h.1 r hr
  intro y hy hown hbelongs hname
  obtain ⟨t, ht, hty⟩ := h.2 y hy hown hbelongs hname
  have hle := hlast t ht
  rw [attemptOf_same hty, attemptOf_same hsame] at hle
  refine ⟨x, rfl, hle, fun hlive => ?_⟩
  have hbox : y.sandbox = x.sandbox := by
    rw [← hty.sandbox, (h.1 t ht).1.sandbox, ← hnamed.sandbox, hsame.sandbox]
  have hxown : owned x.labels agent.name = true := hsame.labels ▸ hnamed.belongs.owned
  rw [hm.eq_of_live hx hy hxown hown hbox (hnamed.same hsame).name hname hle hlive]

theorem kept_waiting (hK : ∀ box config, K (.createContainer box config) →
    config.metadata.name ≠ name) (found : List Container) :
    (only agent K).Kept (Waiting agent uid box name found) := by
  refine .and (.forall fun r => .forall fun _ => (Setting.Kept.pure _).and (kept_known r))
    (kept_held ?_ ?_ ?_)
  · apply steady_ofName
    rintro x y hsame - ⟨r, hr, hrx⟩
    exact ⟨r, hr, hrx.trans hsame⟩
  · intro id _ x y hsame _ hx hbelongs hname
    have hname' : nameOf x = some name := by
      rw [nameOf, hsame.metadata]
      exact hname
    obtain ⟨r, hr, hrx⟩ := hx (hsame.labels ▸ hbelongs) hname'
    exact ⟨r, hr, hrx.trans hsame⟩
  · intro box config m x hcreate hmade _ hname
    have hname' : some config.metadata.name = some name := by
      rw [← hname, nameOf, hmade.metadata]
      rfl
    exact absurd (Option.some.inj hname') (hK box config hcreate)


theorem stable_waiting (found : List Container) :
    (only agent K).Stable (Waiting agent uid box name found) :=
  let h : (only agent Quiet).Kept (Waiting agent uid box name found) :=
    kept_waiting (fun _ _ hK => hK.elim) found
  ⟨h.more, h.others⟩

/-- The latest container, as its status shows it. -/
theorem statusOf_triple {all found : List Container}
    (hfound : found = matching agent.name uid name all) :
    (only agent K).Triple
      (fun seen m => Base agent uid box pods seen m ∧ Waiting agent uid box name found seen m)
      (statusOf found.head?) fun current seen m =>
        (∀ x, current = some x → ∃ r, found.head? = some r ∧ r.Same x) ∧
        Base agent uid box pods seen m ∧ Current agent uid box name current seen m := by
  have hpre : (only agent K).Stable fun seen m => Base agent uid box pods seen m ∧
      Waiting agent uid box name found seen m := kept_base.toStable.and (stable_waiting found)
  cases hlatest : found.head? with
  | none =>
    apply Setting.Triple.pure hpre
    rintro seen m _ ⟨hbase, -, hall⟩
    refine ⟨nofun, hbase, fun y hy hown hbelongs hname => ?_, nofun⟩
    obtain ⟨r, hr, -⟩ := hall y hy hown hbelongs hname
    rw [List.head?_eq_none_iff.mp hlatest] at hr
    cases hr
  | some r =>
    subst hfound
    apply (look_triple (Q := fun current seen m => (∀ x, current = some x → r.Same x) ∧
      Current agent uid box name current seen m) hpre
      (fun current => (Setting.Stable.pure _).and (stable_current current)) ?_).weaken
      (fun _ _ _ h => h)
    · rintro current seen m _ ⟨hthere, hsame, hcurrent⟩
      exact ⟨fun x hx => ⟨r, rfl, hsame x hx⟩, hthere.1, hcurrent⟩
    · rintro current seen m hread hm ⟨-, hwaiting⟩
      split at hread
      · rename_i x hx
        cases hread
        have hmem := List.mem_of_find?_eq_some hx
        have hid : x.id = r.id := by simpa using List.find?_some hx
        have hr := (head_matching hlatest).1
        obtain ⟨hnamed, hknown⟩ := hwaiting.1 r hr
        have hsame := hknown.2 x hmem hid
        refine ⟨fun y hy => by cases hy; exact hsame, ?_, ?_⟩
        · exact leads_latest hm hwaiting hlatest hmem hsame
        · intro y hy
          cases hy
          refine ⟨hnamed.same hsame, hm.known hmem _, _,
            List.mem_append_right _ (List.mem_singleton.mpr rfl), m, ?_, hmem⟩
          rw [hid]
      · cases hread


theorem steady_dead : Steady fun y => y.live = false := by
  intro x y _ hlive hx
  cases hy : y.live with
  | false => rfl
  | true => rw [hlive hy] at hx; cases hx

theorem stop_reason {p ctr : Json} {config : ContainerConfig}
    (hasked : Asked agent uid name pods p ctr config) {x y : Container}
    {seen : List (Seen Machine Look Call)} {m : Machine}
    (hbase : Base agent uid box pods seen m)
    (hread : ∃ step ∈ seen, ∃ m', step = .read (.container x.id) m' ∧ x ∈ m'.containers)
    (hnamed : Named agent uid box name x) (hsame : x.Same y)
    (hwhy : x.labels.lookup HASH ≠ config.labels.lookup HASH ∨
      x.state = .exited ∨ x.state = .unknown) : Reason agent seen uid y := by
  rcases hwhy with hother | hstate
  · refine .changed pods p ctr config hbase.2 hasked.assigned hasked.pod hasked.container
      hasked.configured ?_ (hsame.labels ▸ hother)
    rw [hasked.name, ← hsame.metadata]
    exact hnamed.name
  · obtain ⟨step, hstep, m', rfl, hx⟩ := hread
    exact .ended m' x (hsame.id ▸ hstep) hx hsame.id hstate

/-- What there is of the name no longer lives. -/
theorem stopCurrent_triple {p ctr : Json} {config : ContainerConfig}
    (hasked : Asked agent uid name pods p ctr config) {current : Option Container}
    (hwhy : ∀ x, current = some x → x.labels.lookup HASH ≠ config.labels.lookup HASH ∨
      x.state = .exited ∨ x.state = .unknown) :
    (only agent Quiet).Triple
      (fun seen m => Base agent uid box pods seen m ∧ Current agent uid box name current seen m)
      (stopCurrent current p) fun _ seen m =>
        (Base agent uid box pods seen m ∧ Current agent uid box name current seen m) ∧
          ofName agent uid name (fun y => y.live = false) seen m := by
  have hkept : (only agent Quiet).Kept fun seen m => Base agent uid box pods seen m ∧
      Current agent uid box name current seen m := kept_base.and (kept_current current)
  cases current with
  | none =>
    apply Setting.Triple.pure hkept.toStable
    rintro seen m _ ⟨hbase, hcurrent⟩
    refine ⟨⟨hbase, hcurrent⟩, fun y hy hown hbelongs hname => ?_⟩
    obtain ⟨x, hx, -⟩ := hcurrent.1 y hy hown hbelongs hname
    cases hx
  | some x =>
    apply (stop_triple hkept (fun _ => trivial) ?_).weaken fun _ _ _ h => h
    · rintro _ seen m _ ⟨hthere, hdead⟩
      refine ⟨hthere, fun y hy hown hbelongs hname => ?_⟩
      by_contra hlives
      rw [Bool.not_eq_false] at hlives
      have hid := hthere.2.1.alone y hy hown hbelongs hname hlives
      rw [hdead y hy hown hid] at hlives
      cases hlives
    · rintro seen m hm ⟨hbase, hcurrent⟩ y hy hid
      obtain ⟨hnamed, hknown, hread⟩ := hcurrent.2 x rfl
      have hsame := hknown.2 y hy hid
      exact ⟨uid, (hnamed.same hsame).belongs, fun _ =>
        stop_reason hasked hbase hread hnamed hsame (hwhy x rfl)⟩

theorem le_next (n : ℕ) : n ≤ next n := by
  unfold next
  split_ifs <;> omega

/-- The next attempt follows every one of the name. -/
theorem Current.le_next {p : Json} {current : Option Container}
    {seen : List (Seen Machine Look Call)} {m : Machine}
    (h : Current agent uid box name current seen m) {y : Container} (hy : y ∈ m.containers)
    (hbelongs : Belongs agent.name uid y.labels) (hname : nameOf y = some name) :
    attemptOf y ≤ nextAttempt p name current := by
  obtain ⟨x, rfl, hle, -⟩ := h.1 y hy hbelongs.owned hbelongs hname
  obtain ⟨a, ha, -⟩ := Option.map_eq_some_iff.mp (h.2 x rfl).1.name
  rw [attempt_eq ha] at hle
  rw [nextAttempt, Option.bind_some, ha]
  exact hle.trans (Runtime.le_next a.attempt)

theorem create_fits {config : ContainerConfig} {p : Json} {current : Option Container}
    {seen : List (Seen Machine Look Call)} {m : Machine} (hbase : Base agent uid box pods seen m)
    (hcurrent : Current agent uid box name current seen m)
    (hdead : ofName agent uid name (fun y => y.live = false) seen m)
    (hlabels : Belongs agent.name uid config.labels) (hname : config.metadata.name = name)
    (hattempt : config.metadata.attempt = nextAttempt p name current) :
    Fits agent.name m (.createContainer box config) := by
  intro uid' huid'
  obtain rfl := hlabels.unique huid'
  obtain ⟨l, hl, -, hbox⟩ := hbase.1
  refine ⟨fun s hs hid => hbox s hs hid ▸ hl, fun y hy hbelongs _ a ha hname' => ?_⟩
  have hnamed : nameOf y = some name := by rw [nameOf, ha, Option.map_some, hname', hname]
  rw [hattempt, ← attempt_eq ha]
  exact ⟨hcurrent.le_next hy hbelongs hnamed, hdead y hy hbelongs.owned hbelongs hnamed⟩

theorem create_fresh {config : ContainerConfig} {p : Json} {current : Option Container}
    {seen : List (Seen Machine Look Call)} {m : Machine} {reply : Reply}
    (hm : Sound agent.name m) (hcurrent : Current agent uid box name current seen m)
    (hdead : ofName agent uid name (fun y => y.live = false) seen m)
    (hlabels : Belongs agent.name uid config.labels) (hname : config.metadata.name = name)
    (hattempt : config.metadata.attempt = nextAttempt p name current)
    (hreply : (perform (.createContainer box config) m).1 = .ok reply) :
    Fresh agent uid box name reply.id (seen ++ [.call (.createContainer box config) m])
      (perform (.createContainer box config) m).2 := by
  obtain ⟨x, hmade, hid, hcontainers, hissued⟩ := createContainer_ok (effect_of_ok hreply)
  have hxname : nameOf x = some name := by rw [nameOf, hmade.metadata, Option.map_some, hname]
  have hnew : ∀ y ∈ (perform (.createContainer box config) m).2.containers,
      y ∈ m.containers ∨ y = x := by
    intro y hy
    rw [hcontainers] at hy
    simpa using hy
  refine ⟨x, hid, ⟨hmade.sandbox, hmade.labels ▸ hlabels, hxname⟩, ⟨?_, ?_⟩, ?_⟩
  · rw [hissued]
    exact List.mem_cons_self
  · intro y hy hyid
    rcases hnew y hy with hold | rfl
    · exact absurd (hyid ▸ hm.issuedContainers y hold) (m.issue_fresh hmade.fresh)
    · exact .refl y
  · intro y hy hown hbelongs hname'
    rcases hnew y hy with hold | rfl
    · refine ⟨x, rfl, ?_, fun hlive => ?_⟩
      · rw [attempt_eq hmade.metadata, hattempt]
        exact hcurrent.le_next hold hbelongs hname'
      · have hgone : y.live = false := hdead y hold hown hbelongs hname'
        rw [hlive] at hgone
        cases hgone
    · exact ⟨y, rfl, le_rfl, fun _ => rfl⟩

theorem configOf_ok {p ctr : Json} {root : String} {config : ContainerConfig}
    (h : configOf agent p uid root ctr = .ok config) : text ctr "name" = .ok config.metadata.name ∧
      config.labels = labels agent.name uid ++ [(HASH, agent.digest (identityOf p ctr))] := by
  obtain ⟨name, hname, h⟩ := Fallible.bind_eq_ok.mp h
  obtain ⟨_, -, h⟩ := Fallible.bind_eq_ok.mp h
  obtain ⟨_, -, h⟩ := Fallible.bind_eq_ok.mp h
  obtain ⟨_, -, h⟩ := Fallible.bind_eq_ok.mp h
  obtain ⟨_, -, h⟩ := Fallible.bind_eq_ok.mp h
  obtain ⟨_, -, h⟩ := Fallible.bind_eq_ok.mp h
  cases h
  exact ⟨hname, rfl⟩

theorem Belongs.append {l l' : Labels} (h : Belongs agent.name uid l) :
    Belongs agent.name uid (l ++ l') := by
  have howned := Bool.and_eq_true_iff.mp h.owned
  have hnode : l.lookup NODE = some agent.name := of_decide_eq_true howned.1
  have huid : (l ++ l').lookup UID = some uid := by simp [List.lookup_append, h.uid]
  refine ⟨?_, huid⟩
  rw [Runtime.owned, huid, ← h.uid, howned.2, List.lookup_append, hnode]
  simp

/-- A container with this id is started, and no other one of the name lives. -/
theorem start_triple {id : String} (hK : K (.startContainer id)) :
    (only agent K).Triple
      (fun seen m => Base agent uid box pods seen m ∧ Fresh agent uid box name id seen m)
      (rpc (.startContainer id)) fun _ => Alone agent uid name id := by
  apply Setting.Triple.rpc (kept_base.toStable.and (stable_fresh id)) fun _ => stable_alone id
  · rintro seen m hm ⟨hbase, x, rfl, hx, hknown, hleads⟩
    refine ⟨⟨start_fits hm hbase.1 hknown hx fun y hy hown hbelongs hname => ?_, trivial⟩, hK⟩
    obtain ⟨z, hz, hle, -⟩ := hleads y hy hown hbelongs hname
    cases hz
    exact hle
  · rintro reply seen m - hm ⟨hbase, x, rfl, hx, hknown, hleads⟩ -
    exact start_alone hleads.alone


/-- What there is of the name when the round is over: only the one with this id may live. -/
def Settled (agent : Agent) (uid name : String) (current : Option Container) : Known :=
  fun seen m => ∀ x, current = some x → Alone agent uid name x.id seen m

theorem started_triple {id : String} (hK : K (.startContainer id)) :
    (only agent K).Triple
      (fun seen m => Base agent uid box pods seen m ∧ Fresh agent uid box name id seen m)
      (do let _ ← rpc (.startContainer id); containerStatus id) (Settled agent uid name) := by
  apply (start_triple hK).bind
  intro _
  apply (status_triple (stable_alone id)).weaken (fun _ _ _ h => h)
  rintro current seen m - ⟨halone, hid⟩ x hx
  rw [(hid x hx).1]
  exact halone

theorem resume_triple {same : Bool} {current : Option Container} :
    (only agent (ForName name)).Triple
      (fun seen m => Base agent uid box pods seen m ∧ Current agent uid box name current seen m)
      (resume same current) (Settled agent uid name) := by
  unfold resume
  split
  · rename_i x hx
    obtain ⟨rfl, -⟩ := Option.filter_eq_some_iff.mp hx
    apply (started_triple trivial).weaken
    · rintro seen m - ⟨hbase, hcurrent⟩
      obtain ⟨hnamed, hknown, -⟩ := hcurrent.2 x rfl
      exact ⟨hbase, x, rfl, hnamed, hknown, hcurrent.1⟩
    · exact fun _ _ _ _ h => h
  · apply Setting.Triple.pure (kept_base.toStable.and (stable_current current))
    rintro seen m - ⟨-, hcurrent⟩ x rfl
    exact hcurrent.1.alone

theorem replace_triple {p ctr : Json} {config : ContainerConfig}
    (hasked : Asked agent uid name pods p ctr config) {current : Option Container}
    (hwhy : ∀ x, current = some x → x.labels.lookup HASH ≠ config.labels.lookup HASH ∨
      x.state = .exited ∨ x.state = .unknown) (hsafe : Api.safeComponent uid = true) :
    (only agent (ForName name)).Triple
      (fun seen m => Base agent uid box pods seen m ∧ Current agent uid box name current seen m)
      (replace p ctr box config (nextAttempt p config.metadata.name current) current)
      (Settled agent uid name) := by
  have hkept : (only agent Quiet).Kept fun seen m => Base agent uid box pods seen m ∧
      Current agent uid box name current seen m := kept_base.and (kept_current current)
  have hthroughout : (only agent (ForName name)).Kept (Base agent uid box pods) := kept_base
  have hquiet : ∀ c, Quiet c → ForName name c := fun _ => Quiet.forName
  have hlabels : Belongs agent.name uid config.labels := by
    rw [(configOf_ok hasked.configured).2]
    exact (belongs_labels hsafe).append
  unfold replace
  apply (look_kept (kept_base.toStable.and (stable_current current))).bind
  intro envs
  apply ((pull_triple hkept).widen hquiet).bind
  intro _
  apply ((stopCurrent_triple hasked hwhy).widen hquiet).bind
  intro _
  apply Setting.Triple.bind (M := fun reply seen m => Base agent uid box pods seen m ∧
    Fresh agent uid box name reply.id seen m)
  · apply Setting.Triple.rpc
      ((kept_base.toStable.and (stable_current current)).and (stable_ofName steady_dead))
      fun reply => kept_base.toStable.and (stable_fresh reply.id)
    · rintro seen m - ⟨⟨hbase, hcurrent⟩, hdead⟩
      exact ⟨⟨create_fits hbase hcurrent hdead hlabels hasked.name (by rw [hasked.name]), trivial⟩,
        hasked.name⟩
    · rintro reply seen m hreply hm ⟨⟨hbase, hcurrent⟩, hdead⟩ hdone
      refine ⟨hthroughout.after hm hdone hbase, ?_⟩
      exact create_fresh hm hcurrent hdead hlabels hasked.name (by rw [hasked.name]) hreply
  · exact fun reply => started_triple trivial

/-- Why another container is started. -/
theorem due_reason {p : Json} {config : ContainerConfig} {latest : Option Container} {clock : ℤ}
    {current : Option Container} (h : due p (sameHash config latest) clock current = true)
    (hsame : ∀ x, current = some x → ∃ r, latest = some r ∧ r.Same x) :
    ∀ x, current = some x → x.labels.lookup HASH ≠ config.labels.lookup HASH ∨
      x.state = .exited ∨ x.state = .unknown := by
  rintro x rfl
  obtain ⟨r, rfl, hr⟩ := hsame x rfl
  have hrestart := (Bool.and_eq_true_iff.mp h).1
  by_cases hhash : x.labels.lookup HASH = config.labels.lookup HASH
  · have htrue : sameHash config (some r) = true := by
      simp [sameHash, hr.labels, hhash]
    rw [htrue] at hrestart
    right
    cases hstate : x.state <;> simp [shouldRestart, hstate] at hrestart ⊢
  · exact .inl hhash

theorem settle_triple {p ctr : Json} {config : ContainerConfig} {all found : List Container}
    (hasked : Asked agent uid name pods p ctr config) (hsafe : Api.safeComponent uid = true)
    (hfound : found = matching agent.name uid name all) :
    (only agent (ForName name)).Triple
      (fun seen m => Base agent uid box pods seen m ∧ Waiting agent uid box name found seen m)
      (settle p ctr box config found.head?) (Settled agent uid name) := by
  apply (statusOf_triple hfound).bind
  intro current
  apply Setting.Triple.assume
  intro hsame
  have hstable : (only agent (ForName name)).Stable fun seen m =>
      Base agent uid box pods seen m ∧ Current agent uid box name current seen m :=
    kept_base.toStable.and (stable_current current)
  apply Setting.Triple.bind (M := fun _ seen m => Base agent uid box pods seen m ∧
    Current agent uid box name current seen m)
  · exact Setting.Triple.reading hstable (fun _ => hstable) fun _ _ _ _ _ h =>
      hstable.more (List.subset_append_left _ _) h
  intro clock
  split_ifs with hdue
  · exact replace_triple hasked (due_reason hdue hsame) hsafe
  · exact resume_triple

end

end Hedronetes.Kubelet.Runtime
