import Hedronetes.Kubelet.Replacements

/-!
# The round over a Pod

The containers of a Pod have names of their own, so that a round over one of them leaves what is
known of the others as it is. A round over the Pod makes a sandbox for no other Pod.
-/

namespace Hedronetes.Kubelet.Runtime

open Interleaving StableSort Fallible

/-! ## What is accepted -/

/-- The names of the containers of a Pod. -/
def containerNames (spec : Json) : List String :=
  spec["containers"].items.map fun ctr => ctr["name"].asString.getD ""

theorem generated_names {spec : Json} (h : Api.generated spec = .ok ()) :
    (containerNames spec).Nodup := by
  obtain ⟨_, -, h⟩ := bind_eq_ok.mp h
  obtain ⟨names, -, h⟩ := bind_eq_ok.mp h
  split at h
  · cases h
  · rename_i containers hcontainers
    obtain ⟨hread, -⟩ := Option.filter_eq_some_iff.mp hcontainers
    obtain ⟨_, hcollect, -⟩ := bind_eq_ok.mp h
    have hone := Api.collect_ok (P := fun _ => True)
      (g := fun ctr : Json => ctr["name"].asString.getD "") (fun seen ctr name hc => by
        obtain ⟨name', hname, hc⟩ := bind_eq_ok.mp hc
        obtain ⟨_, hfresh, hc⟩ := bind_eq_ok.mp hc
        obtain ⟨_, -, hc⟩ := bind_eq_ok.mp hc
        obtain rfl := Except.ok.inj hc
        refine ⟨trivial, ?_, (Api.ensure_ok.mp hfresh).2⟩
        rw [(Api.text_ok.mp hname).1]
        rfl) hcollect
    rw [containerNames, Json.items, hread]
    exact hone.2.2.1

theorem withoutMounts_names {stripped : List String} {v result : Json}
    (h : Api.withoutMounts stripped v = .ok result) :
    (result.items.map fun ctr => ctr["name"].asString.getD "") =
      v.items.map fun ctr => ctr["name"].asString.getD "" := by
  cases v with
  | array containers =>
    obtain ⟨left, hleft, hresult⟩ := bind_eq_ok.mp h
    obtain rfl := Except.ok.inj hresult
    change left.map _ = containers.map _
    have hall := mapM_eq_ok_iff.mp hleft
    clear hleft hresult h
    induction hall with
    | nil => rfl
    | cons hone _ ih =>
      rw [List.map_cons, List.map_cons, ih, (Api.modify_ok hone).2 "name" (by decide)]
  | _ => rw [Except.ok.inj h]

theorem check_names {spec : Json} (h : Api.check spec = .ok ()) : (containerNames spec).Nodup := by
  obtain ⟨o, ho, hgenerated⟩ := bind_eq_ok.mp h
  obtain ⟨stripped, -, ho⟩ := bind_eq_ok.mp ho
  split_ifs at ho with hnothing hnone
  · obtain rfl := Except.ok.inj ho
    exact generated_names hgenerated
  · obtain ⟨result, hresult, ho⟩ := bind_eq_ok.mp ho
    obtain rfl := Except.ok.inj ho
    have hnames := generated_names hgenerated
    rw [containerNames, (Api.modify_ok hresult).2 _ (by decide)] at hnames
    exact hnames
  · obtain ⟨first, hfirst, ho⟩ := bind_eq_ok.mp ho
    obtain ⟨second, hsecond, ho⟩ := bind_eq_ok.mp ho
    obtain ⟨third, hthird, ho⟩ := bind_eq_ok.mp ho
    obtain ⟨last, hlast, ho⟩ := bind_eq_ok.mp ho
    obtain rfl := Except.ok.inj ho
    have hnames := generated_names hgenerated
    obtain ⟨hcontainers, -⟩ := Api.modify_ok hthird
    rw [(Api.modify_ok hsecond).2 _ (by decide), (Api.modify_ok hfirst).2 _ (by decide)]
      at hcontainers
    rw [containerNames, (Api.modify_ok hlast).2 _ (by decide), withoutMounts_names hcontainers]
      at hnames
    exact hnames

/-! ## One name -/

section

variable {agent : Agent} {K : Call → Prop} {uid box name : String} {P : Known} {pods : List Json}

theorem reading_kept {α : Type} {what : Look} {f : Machine → Except Failure α}
    (hP : (only agent K).Stable P) :
    (only agent K).Triple P (.reading what f : Act α) fun _ => P :=
  .reading hP (fun _ => hP) fun _ _ _ _ _ h => hP.more (List.subset_append_left _ _) h

theorem ready_triple (hP : (only agent Quiet).Kept P) {id : String} {ctr : Json} {started : ℤ} :
    (only agent Quiet).Triple P (ready id ctr started) fun _ => P := by
  have hends : ∀ b : Bool, (only agent Quiet).Triple P (pure b : Act Bool) fun _ => P :=
    fun b => Setting.Triple.ends hP.toStable
  unfold ready
  split_ifs
  · exact hends _
  apply (reading_kept hP.toStable).bind
  intro clock
  split_ifs
  · exact hends _
  apply (reading_kept hP.toStable).bind
  intro e
  split
  · exact hends _
  apply (reading_kept hP.toStable).bind
  intro passed
  apply (reading_kept hP.toStable).bind
  intro entry
  apply Setting.Triple.bind (M := fun _ => P)
  · exact beside_triple trivial hP
  · exact fun _ => hends _

theorem readyNow_triple (hP : (only agent Quiet).Kept P) {ctr : Json} {x : Container} :
    (only agent Quiet).Triple P (readyNow ctr x) fun _ => P := by
  unfold readyNow
  split_ifs
  · exact ready_triple hP
  · exact Setting.Triple.ends hP.toStable

/-- The others of the name do not live, so that nothing that runs is stopped. -/
theorem reclaim_triple {p : Json} {found : List Container} {id : String} :
    (only agent Quiet).Triple
      (fun seen m => (∀ r ∈ found, Named agent uid box name r ∧ known r seen m) ∧
        Alone agent uid name id seen m)
      (reclaim p found id) fun _ _ _ => True := by
  have hkept : (only agent Quiet).Kept fun seen m =>
      (∀ r ∈ found, Named agent uid box name r ∧ known r seen m) ∧ Alone agent uid name id seen m :=
    .and (.forall fun r => .forall fun _ => (Setting.Kept.pure _).and (kept_known r))
      (kept_ofName (steady_alone id))
  refine (Setting.Triple.foldlM (J := fun _ _ seen m =>
    (∀ r ∈ found, Named agent uid box name r ∧ known r seen m) ∧ Alone agent uid name id seen m)
    (fun _ _ => hkept.toStable) ?_).weaken (fun _ _ _ h => h) fun _ _ _ _ _ => trivial
  intro old rest _ hold
  split_ifs with hother
  · have hjust : ∀ seen m, ((∀ r ∈ found, Named agent uid box name r ∧ known r seen m) ∧
        Alone agent uid name id seen m) → ∀ y ∈ m.containers, y.id = old.id → ∃ uid,
          Belongs agent.name uid y.labels ∧ (y.live = true → Reason agent seen uid y) := by
      rintro seen m ⟨hfound, halone⟩ y hy hid
      obtain ⟨hnamed, hknown⟩ := hfound old hold
      have hynamed := hnamed.same (hknown.2 y hy hid)
      refine ⟨uid, hynamed.belongs, fun hlive => ?_⟩
      have hyid := halone y hy hynamed.belongs.owned hynamed.belongs hynamed.name hlive
      exact absurd (hid.symm.trans hyid) hother
    apply ((stop_triple hkept (fun _ => trivial) fun seen m _ => hjust seen m).weaken
      (fun _ _ _ h => h) fun _ _ _ _ h => h.1).bind
    intro _
    apply Setting.Triple.bind (M := fun _ seen m =>
      (∀ r ∈ found, Named agent uid box name r ∧ known r seen m) ∧ Alone agent uid name id seen m)
    · exact Setting.Triple.rpc_kept hkept fun seen m _ h => ⟨⟨trivial, hjust seen m h⟩, trivial⟩
    · exact fun _ => Setting.Triple.ends hkept.toStable
  · exact Setting.Triple.ends hkept.toStable

theorem syncContainer_triple {p : Json} {e : Json × ContainerConfig} {all : List Container}
    {tally : Tally} (hasked : Asked agent uid name pods p e.1 e.2)
    (hsafe : Api.safeComponent uid = true) :
    (only agent (ForName name)).Triple
      (fun seen m => Base agent uid box pods seen m ∧
        Waiting agent uid box name (matching agent.name uid name all) seen m)
      (syncContainer agent p uid box all tally e) fun _ _ _ => True := by
  have hquiet : ∀ c, Quiet c → ForName name c := fun _ => Quiet.forName
  have hthere : (only agent (ForName name)).Kept fun seen m =>
      ∀ r ∈ matching agent.name uid name all, Named agent uid box name r ∧ known r seen m :=
    .forall fun r => .forall fun _ => (Setting.Kept.pure _).and (kept_known r)
  apply Setting.Triple.lift_bind
  intro name' hname'
  have heq : text e.1 "name" = .ok name := hasked.name ▸ (configOf_ok hasked.configured).1
  rw [heq] at hname'
  cases hname'
  apply (((settle_triple hasked hsafe rfl).frame hthere).weaken
    (fun seen m _ h => ⟨h, h.2.1⟩) fun _ _ _ _ h => h).bind
  intro current
  cases current with
  | none => exact Setting.Triple.fail
  | some x =>
    apply ((reclaim_triple.widen hquiet).weaken (fun seen m _ h => ⟨h.2, h.1 x rfl⟩)
      fun _ _ _ _ h => h).bind
    intro _
    apply ((readyNow_triple (Setting.Kept.pure True)).widen hquiet).bind
    exact fun _ => Setting.Triple.ends (.pure _)

end

/-! ## One Pod -/

/-- The sandboxes of a Pod as they were listed. -/
def Surveyed (agent : Agent) (uid : String) (sandboxes : List Sandbox) : Known := fun seen m =>
  Found agent uid (ownSandboxes agent.name uid sandboxes) seen m ∧
    BoxesOf agent uid (fun id => ∃ s ∈ ownSandboxes agent.name uid sandboxes, s.id = id) seen m

section

variable {agent : Agent} {K : Call → Prop} {uid box : String} {pods : List Json} {p : Json}
  {sandboxes : List Sandbox} {prepared : List (Json × ContainerConfig)}

theorem kept_surveyed
    (hK : ∀ config, K (.runSandbox config) → ¬Belongs agent.name uid config.labels) :
    (only agent K).Kept (Surveyed agent uid sandboxes) :=
  (kept_own _).and (kept_among fun config _ hrun huid => absurd huid (hK config hrun))

theorem configs_ok (h : configs agent p uid = .ok prepared) :
    prepared.map (fun e => e.2.metadata.name) = containerNames p["spec"] ∧
      ∀ e ∈ prepared, e.1 ∈ p["spec"]["containers"].items ∧
        configOf agent p uid (push agent.root uid) e.1 = .ok e.2 := by
  have hall := mapM_eq_ok_iff.mp h
  rw [containerNames]
  clear h
  generalize p["spec"]["containers"].items = containers at hall ⊢
  induction hall with
  | nil => exact ⟨rfl, nofun⟩
  | @cons ctr e containers rest hone _ ih =>
    obtain ⟨config, hconfig, he⟩ := bind_eq_ok.mp hone
    obtain rfl := Except.ok.inj he
    have hconfig := mapError_eq_ok.mp hconfig
    have hname := mapError_eq_ok.mp (configOf_ok hconfig).1
    refine ⟨?_, fun e he => ?_⟩
    · rw [List.map_cons, List.map_cons, ih.1, (Api.text_ok.mp hname).1]
      rfl
    · rcases List.mem_cons.mp he with rfl | he
      · exact ⟨List.mem_cons_self, hconfig⟩
      · exact ⟨List.mem_cons_of_mem _ (ih.2 e he).1, (ih.2 e he).2⟩

theorem asked_of_configs (hassigned : p ∈ pods) (hpod : uidOf p = uid)
    (h : configs agent p uid = .ok prepared) {e : Json × ContainerConfig} (he : e ∈ prepared) :
    Asked agent uid e.2.metadata.name pods p e.1 e.2 := by
  obtain ⟨hctr, hconfig⟩ := (configs_ok h).2 e he
  exact ⟨hassigned, hpod, hctr, hconfig, rfl⟩

/-- The list of the sandbox's containers has those of each name. -/
theorem waiting_listed {seen : List (Seen Machine Look Call)} {m : Machine} {name : String}
    (hm : Sound agent.name m) (hhome : Home agent uid box seen m) :
    Waiting agent uid box name (matching agent.name uid name (inPod m agent.name uid box))
      (seen ++ [.read (.containers box) m]) m := by
  obtain ⟨hboxes, l, hl, -, hbox⟩ := hhome
  constructor
  · intro r hr
    obtain ⟨hin, hown, huid, hname⟩ := mem_matching.mp hr
    obtain ⟨hthere, -⟩ := List.mem_filter.mp hin
    obtain ⟨hmem, hsandbox⟩ := List.mem_filter.mp hthere
    exact ⟨⟨of_decide_eq_true hsandbox, ⟨hown, huid⟩, hname⟩, hm.known hmem _⟩
  · intro y hy hown hbelongs hname
    obtain ⟨s, hs, hid⟩ := hm.housed y hy
    have hspod := hm.inside y hy uid hbelongs s hs hid
    have hsandbox : y.sandbox = box := hid ▸ hboxes s hs hspod.owned hspod
    refine ⟨y, mem_matching.mpr ⟨?_, hown, hbelongs.uid, hname⟩, .refl y⟩
    have hnode := of_decide_eq_true (Bool.and_eq_true_iff.mp hown).1
    simp [inPod, inSandbox, hy, hsandbox, hnode, hbelongs.uid]

/-- What is known in a round over the containers of a Pod. -/
def Rounds (agent : Agent) (uid box : String) (pods : List Json) (all : List Container)
    (prepared rest : List (Json × ContainerConfig)) : Known := fun seen m =>
  ((rest.map fun e => e.2.metadata.name).Nodup ∧ ∀ e ∈ rest, e ∈ prepared) ∧
    Base agent uid box pods seen m ∧ ∀ e ∈ rest, Waiting agent uid box e.2.metadata.name
      (matching agent.name uid e.2.metadata.name all) seen m

theorem stable_rounds {all : List Container} (rest : List (Json × ContainerConfig)) :
    (only agent K).Stable (Rounds agent uid box pods all prepared rest) :=
  (Setting.Stable.pure _).and (kept_base.toStable.and
    (.forall fun _ => .forall fun _ => stable_waiting _))

theorem round_triple {all : List Container} {tally : Tally} {e : Json × ContainerConfig}
    {rest : List (Json × ContainerConfig)} (hassigned : p ∈ pods) (hpod : uidOf p = uid)
    (hsafe : Api.safeComponent uid = true) (hprepared : configs agent p uid = .ok prepared) :
    (only agent (ForPod agent uid)).Triple (Rounds agent uid box pods all prepared (e :: rest))
      (syncContainer agent p uid box all tally e) fun _ =>
        Rounds agent uid box pods all prepared rest := by
  apply Setting.Triple.assume
  rintro ⟨hnodup, hmem⟩
  rw [List.map_cons, List.nodup_cons] at hnodup
  have hasked := asked_of_configs hassigned hpod hprepared (hmem e List.mem_cons_self)
  -- what is made has the name of this round
  have hkept : (only agent (ForName e.2.metadata.name)).Kept fun seen m =>
      Base agent uid box pods seen m ∧ ∀ d ∈ rest, Waiting agent uid box d.2.metadata.name
        (matching agent.name uid d.2.metadata.name all) seen m := by
    refine kept_base.and (.forall fun d => .forall fun hd => kept_waiting ?_ _)
    intro _ config hname hother
    have hsame : e.2.metadata.name = d.2.metadata.name := hname.symm.trans hother
    exact hnodup.1 (hsame ▸ List.mem_map_of_mem hd)
  apply (((syncContainer_triple hasked hsafe).frame hkept).widen fun _ => ForName.forPod).weaken
  · rintro seen m - ⟨hbase, hall⟩
    exact ⟨⟨hbase, hall e List.mem_cons_self⟩, hbase,
      fun d hd => hall d (List.mem_cons_of_mem _ hd)⟩
  · rintro _ seen m - ⟨-, hthere⟩
    exact ⟨⟨hnodup.2, fun d hd => hmem d (List.mem_cons_of_mem _ hd)⟩, hthere⟩

theorem sync_triple (hassigned : p ∈ pods) (hpod : uidOf p = uid)
    (huid : text p["metadata"] "uid" = .ok uid) (hsafe : Api.safeComponent uid = true) :
    (only agent (ForPod agent uid)).Triple
      (fun seen m => Listed agent seen pods ∧ Surveyed agent uid sandboxes seen m)
      (sync agent p (ownSandboxes agent.name uid sandboxes)) fun _ _ _ => True := by
  have hsurveyed : (only agent Quiet).Kept fun seen m => Listed agent seen pods ∧
      Surveyed agent uid sandboxes seen m :=
    kept_listed.and (kept_surveyed fun _ hK => hK.elim)
  have hhome : ∀ box, (only agent (ForPod agent uid)).Stable fun seen m =>
      Home agent uid box seen m ∧ Listed agent seen pods :=
    fun box => (stable_home box).and kept_listed.toStable
  apply Setting.Triple.lift_bind
  intro _ hvalid
  apply Setting.Triple.lift_bind
  intro dns _
  apply Setting.Triple.lift_bind
  intro uid' huid'
  obtain rfl : uid = uid' := Except.ok.inj (huid.symm.trans (mapError_eq_ok.mp huid'))
  apply Setting.Triple.lift_bind
  intro name _
  apply Setting.Triple.lift_bind
  intro ns _
  apply Setting.Triple.bind (M := fun _ seen m => Listed agent seen pods ∧
    Surveyed agent uid sandboxes seen m)
  · apply Setting.Triple.widen _ fun _ => Quiet.forPod
    exact beside_triple trivial hsurveyed
  intro _
  apply Setting.Triple.lift_bind
  intro prepared hprepared
  apply (((place_triple rfl hsafe).frame kept_listed).weaken
    (fun seen m _ h => ⟨h.2, h.1⟩) fun _ _ _ _ h => h).bind
  intro box
  apply (look_kept (hhome box)).bind
  intro ip
  apply Setting.Triple.bind (M := fun all => Rounds agent uid box pods all prepared prepared)
  · apply Setting.Triple.weaken (look_triple (Q := fun all seen m =>
      ∀ e ∈ prepared, Waiting agent uid box e.2.metadata.name
        (matching agent.name uid e.2.metadata.name all) seen m) (hhome box)
      (fun all => .forall fun e => .forall fun _ => stable_waiting _) ?_) fun _ _ _ h => h
    · rintro all seen m - ⟨⟨hthere, hlisted⟩, hwaiting⟩
      refine ⟨⟨?_, fun _ he => he⟩, ⟨hthere.2, hlisted⟩, hwaiting⟩
      rw [(configs_ok hprepared).1]
      obtain ⟨_, -, hvalid⟩ := bind_eq_ok.mp hvalid
      obtain ⟨_, hcheck, -⟩ := bind_eq_ok.mp hvalid
      exact check_names (mapError_eq_ok.mp (mapError_eq_ok.mp hcheck))
    · rintro all seen m hall hm ⟨hthere, -⟩ e -
      cases hall
      exact waiting_listed hm hthere
  intro all
  apply (Setting.Triple.foldlM (J := fun rest _ => Rounds agent uid box pods all prepared rest)
    (fun rest _ => stable_rounds rest) fun e rest tally _ =>
      round_triple hassigned hpod hsafe hprepared).bind
  intro tally
  apply (reading_kept (stable_rounds [])).bind
  intro start
  apply (reading_kept (stable_rounds [])).bind
  exact fun _ => Setting.Triple.pure (stable_rounds []) fun _ _ _ _ => trivial

end

end Hedronetes.Kubelet.Runtime
