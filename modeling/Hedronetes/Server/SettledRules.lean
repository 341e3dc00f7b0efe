import Hedronetes.Foundations.Settling
import Hedronetes.Server.Rules

/-!
# Rules that leave their results as they are

The rules of each kind fill in what is left out and look at what is there. A specification that one
of them has given it gives again.
-/

namespace Hedronetes.Server

open FirstMatch Apply Fallible Settling

variable {value result v : Json} {key : String} {rule : Json → Outcome Json}
  {reads reads' writes : List String} {step : Json → Outcome Json}

/-- What a step goes by in an object. -/
def member (v : Json) (key : String) : Json := v[key]

/-- A rule that leaves its results as they are. -/
def Idempotent (rule : Json → Outcome Json) : Prop := ∀ v r, rule v = .ok r → rule r = .ok r

/-! ## Members -/

theorem setAt_self (h : value[key] ≠ .null) : setAt value [key] value[key] = .ok value := by
  cases value with
  | object fields =>
    have hmember : (Json.object fields)[key] = (lookup key fields).getD .null := rfl
    cases hlookup : lookup key fields with
    | none => simp [hmember, hlookup] at h
    | some x =>
      rw [hmember, hlookup]
      change Except.ok (Json.object (insertKey key x fields)) = _
      rw [insertKey_eq_self hlookup]
  | null => exact absurd rfl h
  | bool b => exact absurd rfl h
  | number n => exact absurd rfl h
  | string s => exact absurd rfl h
  | array items => exact absurd rfl h

/-- A member that needs no default. -/
def Filled (key : String) (fallback value : Json) : Prop :=
  ¬ (value[key] = .null ∨ (fallback.asString.isSome ∧ value[key] = .string ""))

theorem defaultAt_filled {fallback : Json} (hnull : fallback ≠ .null)
    (hempty : fallback ≠ .string "") (h : defaultAt value key fallback = .ok result) :
    Filled key fallback result := by
  unfold defaultAt at h
  by_cases hmissing : value[key] = .null ∨ (fallback.asString.isSome ∧ value[key] = .string "")
  · rw [if_pos hmissing] at h
    unfold Filled
    rw [getElem_setAt h]
    tauto
  · rw [if_neg hmissing] at h
    exact Except.ok.inj h ▸ hmissing

/-- What is filled in stays. -/
theorem defaultAt_settles (key : String) (fallback : Json) (hnull : fallback ≠ .null)
    (hempty : fallback ≠ .string "") :
    Settles member [key] [key] fun v => defaultAt v key fallback := by
  apply Settles.of_holds fun v r h => defaultAt_filled hnull hempty h
  · intro v hfilled
    exact if_neg hfilled
  · intro v r hfilled hagrees
    unfold Filled
    rw [show r[key] = v[key] from hagrees key (by simp)]
    exact hfilled
  · intro v r h k hk
    exact defaultAt_ne h fun heq => hk (by simp [heq])

theorem isObject_of_member (h : value[key] ≠ .null) : value.isObject = true := by
  cases value with
  | object fields => rfl
  | null => exact absurd rfl h
  | bool b => exact absurd rfl h
  | number n => exact absurd rfl h
  | string s => exact absurd rfl h
  | array items => exact absurd rfl h

/-- What begins with a default ends with an object. -/
theorem isObject_of_default {fallback : Json} {next : Json → Outcome Json}
    (hnull : fallback ≠ .null) (hempty : fallback ≠ .string "")
    (hnext : Settles member reads writes next) (hapart : key ∉ writes)
    (h : (defaultAt value key fallback >>= next) = .ok result) : result.isObject = true := by
  obtain ⟨filled, hfilled, h⟩ := bind_eq_ok.mp h
  have hkept := defaultAt_filled hnull hempty hfilled
  unfold Filled at hkept
  rw [← show result[key] = filled[key] from hnext.frame filled result h key hapart] at hkept
  exact isObject_of_member fun hmissing => hkept (.inl hmissing)

/-- A member that a rule leaves as it is. -/
def Ruled (key : String) (rule : Json → Outcome Json) (value : Json) : Prop :=
  value[key] ≠ .null ∧ rule value[key] = .ok value[key]

theorem onMember_ruled (hrule : Idempotent rule) (hnull : ∀ v r, rule v = .ok r → r ≠ .null)
    (h : onMember value key rule = .ok result) : Ruled key rule result := by
  obtain ⟨x, hx, h⟩ := bind_eq_ok.mp h
  unfold Ruled
  rw [getElem_setAt h]
  exact ⟨hnull _ x hx, hrule _ x hx⟩

theorem Ruled.onMember (h : Ruled key rule value) : onMember value key rule = .ok value :=
  bind_eq_ok.mpr ⟨_, h.2, setAt_self h.1⟩

theorem Ruled.agrees (h : Ruled key rule value) (hagrees : Agrees member [key] value result) :
    Ruled key rule result := by
  unfold Ruled
  rw [show result[key] = value[key] from hagrees key (by simp)]
  exact h

theorem onMember_ne (h : onMember value key rule = .ok result) {other : String}
    (hne : other ≠ key) : result[other] = value[other] := by
  obtain ⟨x, -, h⟩ := bind_eq_ok.mp h
  exact getElem_setAt_ne h hne

theorem onMember_settles (key : String) (hrule : Idempotent rule)
    (hnull : ∀ v r, rule v = .ok r → r ≠ .null) :
    Settles member [key] [key] fun v => onMember v key rule := by
  apply Settles.of_holds fun v r h => onMember_ruled hrule hnull h
  · intro v h
    exact h.onMember
  · intro v r h hagrees
    exact h.agrees hagrees
  · intro v r h k hk
    exact onMember_ne h fun heq => hk (by simp [heq])

/-- A member that is made an object where it is missing, before its rule. -/
theorem onObject_settles (key : String) (hrule : Idempotent rule)
    (hnull : ∀ v r, rule v = .ok r → r ≠ .null) :
    Settles member [key] [key] fun v =>
      defaultAt v key (.object []) >>= fun v => onMember v key rule := by
  have hstep : ∀ v r, (defaultAt v key (.object []) >>= fun v => onMember v key rule) = .ok r →
      Ruled key rule r := by
    intro v r h
    obtain ⟨filled, -, h⟩ := bind_eq_ok.mp h
    exact onMember_ruled hrule hnull h
  apply Settles.of_holds hstep
  · intro v h
    have hfilled : defaultAt v key (.object []) = .ok v := by
      apply if_neg
      rintro (hmissing | ⟨htext, -⟩)
      · exact h.1 hmissing
      · cases htext
    exact bind_eq_ok.mpr ⟨v, hfilled, h.onMember⟩
  · intro v r h hagrees
    exact h.agrees hagrees
  · intro v r h k hk
    obtain ⟨filled, hfilled, h⟩ := bind_eq_ok.mp h
    have hne : k ≠ key := fun heq => hk (by simp [heq])
    rw [member, member, onMember_ne h hne, defaultAt_ne hfilled hne]

theorem onItems_settles (key : String) {rule : List Json → Outcome (List Json)}
    (hrule : ∀ items items', rule items = .ok items' → rule items' = .ok items') :
    Settles member [key] [key] fun v => onItems v key rule := by
  constructor
  · intro v r h
    unfold onItems at h ⊢
    cases hitems : v[key].asArray with
    | none =>
      rw [hitems] at h
      obtain rfl := Except.ok.inj h
      rw [hitems]
    | some items =>
      rw [hitems] at h
      obtain ⟨items', hitems', h⟩ := bind_eq_ok.mp h
      rw [getElem_setAt h]
      exact bind_eq_ok.mpr ⟨items', hrule items items' hitems', setAt_again h⟩
  · intro v r h hagrees
    have hsame : r[key] = v[key] := hagrees key (by simp)
    unfold onItems at h ⊢
    rw [hsame]
    cases hitems : v[key].asArray with
    | none => rfl
    | some items =>
      rw [hitems] at h
      obtain ⟨items', hitems', h⟩ := bind_eq_ok.mp h
      have hmember : r[key] = .array items' := hsame.trans (getElem_setAt h)
      refine bind_eq_ok.mpr ⟨items', hitems', ?_⟩
      rw [← hmember]
      exact setAt_self (by rw [hmember]; exact Json.noConfusion)
  · intro v r h k hk
    unfold onItems at h
    cases hitems : v[key].asArray with
    | none =>
      rw [hitems] at h
      rw [Except.ok.inj h]
    | some items =>
      rw [hitems] at h
      obtain ⟨items', -, h⟩ := bind_eq_ok.mp h
      exact getElem_setAt_ne h fun heq => hk (by simp [heq])

/-- A check of parts that are not written after it. -/
theorem Settles.check {α : Type} (reads : List String) {see : Json → Outcome α}
    (hsee : ∀ s t, Agrees member reads s t → see t = see s)
    (h : Settles member reads' writes step) (hapart : ∀ k ∈ reads, k ∉ writes) :
    Settles member (reads ++ reads') writes fun s => see s >>= fun _ => step s :=
  Settling.Settles.read (fun s t _ ha hagrees => (hsee s t hagrees).trans ha) (fun _ => h) hapart

/-! ## Containers -/

theorem mapM_idempotent (h : Idempotent rule) (items items' : List Json)
    (hitems : items.mapM rule = .ok items') : items'.mapM rule = .ok items' := by
  have hall := mapM_eq_ok_iff.mp hitems
  apply mapM_eq_ok_iff.mpr
  clear hitems
  induction hall with
  | nil => exact .nil
  | cons hrule _ ih => exact .cons (h _ _ hrule) ih

/-- A check of one member that is not written after it. -/
theorem Settles.checkAt {α : Type} (key : String) (see : Json → Outcome α)
    (h : Settles member reads writes step) (hapart : key ∉ writes) :
    Settles member ([key] ++ reads) writes fun s => see s[key] >>= fun _ => step s := by
  apply Settles.check [key] _ h (by simpa using hapart)
  intro s t hagrees
  rw [show t[key] = s[key] from hagrees key (by simp)]

theorem containerPort_idempotent : Idempotent containerPort := by
  have hchecked := Settles.checkAt "protocol"
    (oneOf · ["TCP", "UDP", "SCTP"] "invalid port protocol") Settles.ok (by simp)
  have hprotocol := (defaultAt_settles "protocol" (.string "TCP") (by decide) (by decide)).andThen
    hchecked (by decide)
  exact (Settles.checkAt "containerPort" validPort hprotocol (by decide)).again

theorem podContainer_settles : ∃ reads writes, Settles member reads writes podContainer ∧
    "name" ∉ writes ∧ "image" ∉ writes := by
  have hports := onItems_settles "ports" (mapM_idempotent containerPort_idempotent)
  have hpolicy := Settles.checkAt "imagePullPolicy"
    (oneOf · ["Always", "IfNotPresent", "Never"] "invalid imagePullPolicy") hports (by decide)
  have hmessage := (defaultAt_settles "terminationMessagePolicy" (.string "File") (by decide)
    (by decide)).andThen hpolicy (by decide)
  have hpath := (defaultAt_settles "terminationMessagePath" (.string "/dev/termination-log")
    (by decide) (by decide)).andThen hmessage (by decide)
  have hpull := fun image => (defaultAt_settles "imagePullPolicy" (.string (pullPolicy image))
    Json.noConfusion (by unfold pullPolicy; split_ifs <;> decide)).andThen hpath (by decide)
  have himage : ∀ s t a, containerImage s = .ok a → Agrees member ["image"] s t →
      containerImage t = .ok a := by
    intro s t a ha hagrees
    have hsame : t["image"] = s["image"] := hagrees "image" (by simp)
    unfold containerImage at ha ⊢
    rw [hsame]
    exact ha
  exact ⟨_, _, Settling.Settles.read himage hpull (by decide), by decide, by decide⟩

theorem podContainer_same {item made : Json} (h : podContainer item = .ok made) :
    podContainer made = .ok made ∧ containerName made = containerName item ∧ made["image"] ≠ .null := by
  obtain ⟨reads, writes, hsettles, hname, himage⟩ := podContainer_settles
  have hsameName : made["name"] = item["name"] := hsettles.frame item made h "name" hname
  have hsameImage : made["image"] = item["image"] := hsettles.frame item made h "image" himage
  refine ⟨hsettles.again item made h, by unfold containerName; rw [hsameName], ?_⟩
  obtain ⟨image, hi, -⟩ := bind_eq_ok.mp h
  rw [hsameImage]
  intro hnull
  unfold containerImage at hi
  rw [hnull] at hi
  cases hi

theorem podContainers_same {items items' : List Json} {names : List String}
    (h : podContainers items names = .ok items') :
    podContainers items' names = .ok items' ∧ ∀ item ∈ items', item["image"] ≠ .null := by
  induction items generalizing names items' with
  | nil =>
    obtain rfl := Except.ok.inj h
    exact ⟨rfl, fun item hc => absurd hc List.not_mem_nil⟩
  | cons item items ih =>
    obtain ⟨_, hnames, h⟩ := bind_eq_ok.mp h
    obtain ⟨made, hc, h⟩ := bind_eq_ok.mp h
    obtain ⟨rest, hrest, h⟩ := bind_eq_ok.mp h
    obtain rfl := Except.ok.inj h
    obtain ⟨hagain, hname, himage⟩ := podContainer_same hc
    obtain ⟨hrestAgain, himages⟩ := ih hrest
    rw [← hname] at hnames
    constructor
    · exact bind_eq_ok.mpr ⟨_, hnames, bind_eq_ok.mpr ⟨made, hagain, bind_eq_ok.mpr ⟨rest,
        hrestAgain, rfl⟩⟩⟩
    · intro d hd
      rcases List.mem_cons.mp hd with rfl | hd
      · exact himage
      · exact himages d hd

/-! ## Pods -/

/-- A Pod's account under both of its names. -/
def account (spec : Json) : Outcome Json := do
  let spec ← accountAlias spec
  let spec ← defaultAt spec "serviceAccountName" (.string "default")
  setAt spec ["serviceAccount"] spec["serviceAccountName"]

/-- Both names are there and are one. -/
def Accounted (spec : Json) : Prop :=
  spec["serviceAccountName"] ≠ .null ∧ spec["serviceAccountName"] ≠ .string "" ∧
    spec["serviceAccount"] = spec["serviceAccountName"]

theorem account_accounted (h : account value = .ok result) : Accounted result := by
  obtain ⟨aliased, -, h⟩ := bind_eq_ok.mp h
  obtain ⟨named, hnamed, h⟩ := bind_eq_ok.mp h
  have hname : result["serviceAccountName"] = named["serviceAccountName"] :=
    getElem_setAt_ne h (by decide)
  have hfilled := defaultAt_filled (by decide) (by decide) hnamed
  unfold Filled at hfilled
  rw [not_or, not_and] at hfilled
  unfold Accounted
  rw [hname, getElem_setAt h]
  exact ⟨hfilled.1, hfilled.2 rfl, rfl⟩

theorem Accounted.account (h : Accounted value) : account value = .ok value := by
  obtain ⟨hnull, hempty, hsame⟩ := h
  have halias : accountAlias value = .ok value := by
    unfold accountAlias
    rw [hsame]
    cases hname : value["serviceAccountName"].asString.filter (· ≠ "") with
    | none => rfl
    | some name =>
      obtain ⟨hstring, -⟩ := Option.filter_eq_some_iff.mp hname
      have hvalue := Json.asString_eq_some.mp hstring
      have hset := setAt_self hnull
      rw [hvalue] at hset
      apply bind_eq_ok.mpr ⟨(), _, hset⟩
      rw [hstring]
      exact require_ok.mpr (by simp)
  have hdefault : defaultAt value "serviceAccountName" (.string "default") = .ok value :=
    if_neg (by tauto)
  refine bind_eq_ok.mpr ⟨value, halias, bind_eq_ok.mpr ⟨value, hdefault, ?_⟩⟩
  rw [← hsame]
  exact setAt_self (hsame ▸ hnull)

theorem account_settles : Settles member ["serviceAccountName", "serviceAccount"]
    ["serviceAccountName", "serviceAccount"] account := by
  apply Settles.of_holds fun v r h => account_accounted h
  · intro v h
    exact h.account
  · intro v r h hagrees
    unfold Accounted
    rw [show r["serviceAccountName"] = v["serviceAccountName"] from hagrees _ (by simp),
      show r["serviceAccount"] = v["serviceAccount"] from hagrees _ (by simp)]
    exact h
  · intro v r h k hk
    rw [List.mem_cons, List.mem_singleton, not_or] at hk
    obtain ⟨aliased, haliased, h⟩ := bind_eq_ok.mp h
    obtain ⟨named, hnamed, h⟩ := bind_eq_ok.mp h
    have hlast : r[k] = named[k] := getElem_setAt_ne h hk.2
    have hmiddle : named[k] = aliased[k] := defaultAt_ne hnamed hk.1
    have hfirst : aliased[k] = v[k] := by
      unfold accountAlias at haliased
      cases hname : v["serviceAccount"].asString.filter (· ≠ "") with
      | none =>
        rw [hname] at haliased
        rw [Except.ok.inj haliased]
      | some name =>
        rw [hname] at haliased
        obtain ⟨_, -, haliased⟩ := bind_eq_ok.mp haliased
        exact getElem_setAt_ne haliased hk.1
    exact hlast.trans (hmiddle.trans hfirst)

/-- A member that is a boolean, false unless it is given. -/
def booleanAt (value : Json) (key : String) : Outcome Json :=
  if value[key].asBool.isSome then .ok value else setAt value [key] (.bool false)

theorem booleanAt_filled (h : booleanAt value key = .ok result) :
    result[key].asBool.isSome = true := by
  unfold booleanAt at h
  split_ifs at h with hgiven
  · exact Except.ok.inj h ▸ hgiven
  · rw [getElem_setAt h]
    rfl

theorem booleanAt_settles (key : String) :
    Settles member [key] [key] fun v => booleanAt v key := by
  apply Settles.of_holds fun v r h => booleanAt_filled h
  · intro v h
    exact if_pos h
  · intro v r h hagrees
    rw [show r[key] = v[key] from hagrees key (by simp)]
    exact h
  · intro v r h k hk
    unfold booleanAt at h
    split_ifs at h
    · rw [Except.ok.inj h]
    · exact getElem_setAt_ne h fun heq => hk (by simp [heq])

theorem booleanAt_eq (h : value.isObject = true) (key : String) :
    booleanAt value key = .ok (runtimeDefault value key) ∧
      (runtimeDefault value key).isObject = true := by
  cases value with
  | object fields =>
    unfold booleanAt runtimeDefault
    split_ifs
    · exact ⟨rfl, rfl⟩
    · exact ⟨rfl, rfl⟩
  | null => cases h
  | bool b => cases h
  | number n => cases h
  | string s => cases h
  | array items => cases h

theorem runtimeDefaults_eq (h : value.isObject = true) (next : Json → Outcome Json) :
    (booleanAt value "automountServiceAccountToken" >>= fun v =>
      booleanAt v "enableServiceLinks" >>= next) = next (runtimeDefaults value) := by
  obtain ⟨hfirst, hobject⟩ := booleanAt_eq h "automountServiceAccountToken"
  rw [hfirst]
  exact congrArg (· >>= next) (booleanAt_eq hobject "enableServiceLinks").1

/-- What is looked at in a Pod's specification that is filled in, and its containers. -/
def podChecked (spec : Json) : Outcome Json := do
  oneOf spec["restartPolicy"] ["Always", "OnFailure", "Never"] "invalid restartPolicy"
  oneOf spec["dnsPolicy"] ["ClusterFirst", "Default", "ClusterFirstWithHostNet", "None"]
    "invalid dnsPolicy"
  require (spec["terminationGracePeriodSeconds"].asInt.any (0 ≤ ·))
    "termination grace must be nonnegative"
  let spec ← onItems spec "containers" fun items => podContainers items []
  onItems spec "initContainers" fun items =>
    podContainers items (containerNames spec "containers")

/-- What fills in a Pod's specification once it has containers. -/
def podFilled (spec : Json) : Outcome Json := do
  let spec ← defaultAt spec "restartPolicy" (.string "Always")
  let spec ← defaultAt spec "dnsPolicy" (.string "ClusterFirst")
  let spec ← defaultAt spec "schedulerName" (.string "default-scheduler")
  let spec ← account spec
  let spec ← defaultAt spec "terminationGracePeriodSeconds" (.number (.int 30))
  let spec ← booleanAt spec "automountServiceAccountToken"
  let spec ← booleanAt spec "enableServiceLinks"
  podChecked spec

theorem bind_congr_ok {ε α β : Type} {x : Except ε α} {f g : α → Except ε β}
    (h : ∀ a, x = .ok a → f a = g a) : x >>= f = x >>= g := by
  cases x with
  | error e => rfl
  | ok a => exact h a rfl

theorem pod_eq (spec : Json) : pod spec =
    (require spec.isObject "Pod spec is required" >>= fun _ =>
      require (spec["containers"].items ≠ []) "at least one container is required" >>= fun _ =>
        podFilled spec) := by
  unfold pod podFilled account
  simp only [bind_assoc]
  iterate 8 refine bind_congr_ok fun _ _ => ?_
  apply bind_congr_ok
  intro spec hgrace
  have hfilled := defaultAt_filled Json.noConfusion Json.noConfusion hgrace
  have hobject := isObject_of_member (not_or.mp hfilled).1
  exact (runtimeDefaults_eq hobject podChecked).symm

theorem podContainers_settles :
    Settles member ["containers", "initContainers"] ["containers", "initContainers"] fun spec =>
      onItems spec "containers" (fun items => podContainers items []) >>= fun spec =>
        onItems spec "initContainers" fun items =>
          podContainers items (containerNames spec "containers") := by
  have hnames : ∀ s t, Agrees member ["containers"] s t →
      containerNames t "containers" = containerNames s "containers" := by
    intro s t hagrees
    unfold containerNames
    rw [show t["containers"] = s["containers"] from hagrees "containers" (by simp)]
  have hinit := Settling.Settles.see hnames (fun names => onItems_settles "initContainers"
    fun items items' (h : podContainers items names = .ok items') => (podContainers_same h).1)
    (by decide)
  have hall := (onItems_settles "containers" fun items items'
    (h : podContainers items [] = .ok items') => (podContainers_same h).1).andThen hinit (by decide)
  exact hall.mono (by decide) (by decide)

theorem podChecked_settles : ∃ reads, Settles member reads ["containers", "initContainers"]
    podChecked := by
  have hgrace := Settles.checkAt "terminationGracePeriodSeconds"
    (fun v => require (v.asInt.any (0 ≤ ·)) "termination grace must be nonnegative")
    podContainers_settles (by decide)
  have hpolicy := Settles.checkAt "dnsPolicy" (oneOf · ["ClusterFirst", "Default",
    "ClusterFirstWithHostNet", "None"] "invalid dnsPolicy") hgrace (by decide)
  exact ⟨_, Settles.checkAt "restartPolicy"
    (oneOf · ["Always", "OnFailure", "Never"] "invalid restartPolicy") hpolicy (by decide)⟩

theorem podFilled_settles : ∃ reads, Settles member reads ["restartPolicy", "dnsPolicy",
    "schedulerName", "serviceAccountName", "serviceAccount", "terminationGracePeriodSeconds",
    "automountServiceAccountToken", "enableServiceLinks", "containers", "initContainers"]
      podFilled := by
  obtain ⟨reads, hchecked⟩ := podChecked_settles
  have hlinks := (booleanAt_settles "enableServiceLinks").andThen hchecked (by decide)
  have hmount := (booleanAt_settles "automountServiceAccountToken").andThen hlinks (by decide)
  have hgrace := (defaultAt_settles "terminationGracePeriodSeconds" (.number (.int 30))
    (by decide) (by decide)).andThen hmount (by decide)
  have haccount := account_settles.andThen hgrace (by decide)
  have hscheduler := (defaultAt_settles "schedulerName" (.string "default-scheduler") (by decide)
    (by decide)).andThen haccount (by decide)
  have hdns := (defaultAt_settles "dnsPolicy" (.string "ClusterFirst") (by decide)
    (by decide)).andThen hscheduler (by decide)
  exact ⟨_, (defaultAt_settles "restartPolicy" (.string "Always") (by decide)
    (by decide)).andThen hdns (by decide)⟩

/-- The steps before the containers leave these as they are. -/
theorem podFilled_containers (h : podFilled value = .ok result) :
    ∃ spec filled, spec["containers"] = value["containers"] ∧
      spec["initContainers"] = value["initContainers"] ∧
      onItems spec "containers" (fun items => podContainers items []) = .ok filled ∧
      onItems filled "initContainers" (fun items =>
        podContainers items (containerNames filled "containers")) = .ok result := by
  obtain ⟨a, ha, h⟩ := bind_eq_ok.mp h
  obtain ⟨b, hb, h⟩ := bind_eq_ok.mp h
  obtain ⟨c, hc, h⟩ := bind_eq_ok.mp h
  obtain ⟨d, hd, h⟩ := bind_eq_ok.mp h
  obtain ⟨e, he, h⟩ := bind_eq_ok.mp h
  obtain ⟨f, hf, h⟩ := bind_eq_ok.mp h
  obtain ⟨g, hg, h⟩ := bind_eq_ok.mp h
  obtain ⟨_, -, h⟩ := bind_eq_ok.mp h
  obtain ⟨_, -, h⟩ := bind_eq_ok.mp h
  obtain ⟨_, -, h⟩ := bind_eq_ok.mp h
  obtain ⟨filled, hfilled, h⟩ := bind_eq_ok.mp h
  have hsame : ∀ key ∈ ["containers", "initContainers"], g[key] = value[key] := by
    intro key hkey
    have hlinks := (booleanAt_settles "enableServiceLinks").frame f g hg key
    have hmount := (booleanAt_settles "automountServiceAccountToken").frame e f hf key
    have haccount := account_settles.frame c d hd key
    have hapart : key ∉ ["restartPolicy", "dnsPolicy", "schedulerName", "serviceAccountName",
        "serviceAccount", "terminationGracePeriodSeconds", "automountServiceAccountToken",
        "enableServiceLinks"] := by
      rcases List.mem_pair.mp hkey with rfl | rfl <;> decide
    simp only [List.mem_cons, List.not_mem_nil, not_or] at hapart hlinks hmount haccount
    unfold member at hlinks hmount haccount
    rw [hlinks (by tauto), hmount (by tauto), defaultAt_ne he (by tauto), haccount (by tauto),
      defaultAt_ne hc (by tauto), defaultAt_ne hb (by tauto), defaultAt_ne ha (by tauto)]
  exact ⟨g, filled, hsame _ (by simp), hsame _ (by simp), hfilled, h⟩

/-- What holds of the items that a rule gives holds of those that are there afterwards. -/
theorem onItems_mem {rule : List Json → Outcome (List Json)} {p : Json → Prop}
    (hrule : ∀ items items', rule items = .ok items' → ∀ c ∈ items', p c)
    (h : onItems value key rule = .ok result) : ∀ c ∈ result[key].items, p c := by
  unfold onItems at h
  cases hitems : value[key].asArray with
  | none =>
    rw [hitems] at h
    rw [← Except.ok.inj h]
    simp [Json.items, hitems]
  | some items =>
    rw [hitems] at h
    obtain ⟨items', hitems', h⟩ := bind_eq_ok.mp h
    rw [getElem_setAt h]
    exact hrule items items' hitems'

/-- A Pod's specification that was accepted has containers, and all of them have an image. -/
structure Contained (spec : Json) : Prop where
  some : spec["containers"].items ≠ []
  image : ∀ field ∈ ["containers", "initContainers"], ∀ item ∈ spec[field].items,
    item["image"] ≠ .null

theorem podContainers_some {items items' : List Json} {names : List String}
    (h : podContainers items names = .ok items') (hsome : items ≠ []) : items' ≠ [] := by
  cases items with
  | nil => exact absurd rfl hsome
  | cons c items =>
    obtain ⟨_, -, h⟩ := bind_eq_ok.mp h
    obtain ⟨c', -, h⟩ := bind_eq_ok.mp h
    obtain ⟨rest, -, h⟩ := bind_eq_ok.mp h
    rw [← Except.ok.inj h]
    exact List.cons_ne_nil c' rest

theorem pod_contained (h : pod value = .ok result) : Contained result := by
  rw [pod_eq] at h
  obtain ⟨_, -, h⟩ := bind_eq_ok.mp h
  obtain ⟨_, hsome, h⟩ := bind_eq_ok.mp h
  obtain ⟨spec, filled, hmain, -, hfilled, h⟩ := podFilled_containers h
  have hsame : result["containers"] = filled["containers"] :=
    (onItems_settles "initContainers" fun items items'
      (h : podContainers items (containerNames filled "containers") = .ok items') =>
        (podContainers_same h).1).frame filled result h "containers" (by decide)
  constructor
  · rw [hsame]
    have hitems := require_ok.mp hsome
    rw [← hmain] at hitems
    unfold onItems at hfilled
    unfold Json.items at hitems
    cases harray : spec["containers"].asArray with
    | none =>
      rw [harray] at hitems
      exact absurd rfl hitems
    | some items =>
      rw [harray] at hitems hfilled
      obtain ⟨items', hitems', hset⟩ := bind_eq_ok.mp hfilled
      rw [getElem_setAt hset]
      exact podContainers_some hitems' hitems
  · intro field hfield
    rcases List.mem_pair.mp hfield with rfl | rfl
    · rw [hsame]
      exact onItems_mem (fun items items' hitems => (podContainers_same hitems).2) hfilled
    · exact onItems_mem (fun items items' hitems => (podContainers_same hitems).2) h

theorem Contained.isObject (h : Contained value) : value.isObject = true := by
  have hcontainers : value["containers"] ≠ .null := by
    intro hnull
    apply h.some
    rw [hnull]
    rfl
  exact isObject_of_member hcontainers

theorem pod_idempotent : Idempotent pod := by
  intro v r h
  have hcontained := pod_contained h
  rw [pod_eq] at h ⊢
  obtain ⟨_, -, h⟩ := bind_eq_ok.mp h
  obtain ⟨_, -, h⟩ := bind_eq_ok.mp h
  obtain ⟨reads, hsettles⟩ := podFilled_settles
  exact bind_eq_ok.mpr ⟨(), require_ok.mpr hcontained.isObject,
    bind_eq_ok.mpr ⟨(), require_ok.mpr hcontained.some, hsettles.again v r h⟩⟩

theorem pod_ne_null (h : pod value = .ok result) : result ≠ .null := by
  rintro rfl
  exact (pod_contained h).some rfl

/-! ## Workloads -/

theorem rollingUpdate_idempotent : Idempotent rollingUpdate := by
  have hsurge := (defaultAt_settles "maxSurge" (.string "25%") (by decide) (by decide)).andThen
    (defaultAt_settles "maxUnavailable" (.string "25%") (by decide) (by decide)) (by decide)
  exact hsurge.again

theorem rollingUpdate_ne_null (h : rollingUpdate value = .ok result) : result ≠ .null := by
  obtain ⟨surged, -, h⟩ := bind_eq_ok.mp h
  rintro rfl
  exact defaultAt_filled (by decide) (by decide) h (.inl rfl)

theorem deploymentStrategy_settles : Settles member ["type", "rollingUpdate"]
    ["type", "rollingUpdate"] deploymentStrategy := by
  have hrolling := onObject_settles "rollingUpdate" rollingUpdate_idempotent
    fun v r => rollingUpdate_ne_null
  have hrecreate := Settles.checkAt "rollingUpdate"
    (fun v => require (v = .null) "Recreate cannot set rollingUpdate") Settles.ok (by simp)
  have htype : ∀ s t, Agrees member ["type"] s t →
      (t["type"] = .string "RollingUpdate" ↔ s["type"] = .string "RollingUpdate") := by
    intro s t hagrees
    rw [show t["type"] = s["type"] from hagrees "type" (by simp)]
  have hboth := Settling.Settles.ite htype hrolling (hrecreate.mono (by decide) (by decide))
    (by decide)
  have hchecked := Settles.checkAt "type"
    (oneOf · ["RollingUpdate", "Recreate"] "invalid deployment strategy") hboth (by decide)
  have hstrategy := (defaultAt_settles "type" (.string "RollingUpdate") (by decide)
    (by decide)).andThen hchecked (by decide)
  exact hstrategy.mono (by decide) (by decide)

theorem deploymentStrategy_ne_null (h : deploymentStrategy value = .ok result) :
    result ≠ .null := by
  rintro rfl
  have hnull : deploymentStrategy .null = .ok .null := deploymentStrategy_settles.again _ _ h
  revert hnull
  decide

theorem deployment_settles : Settles member
    ["revisionHistoryLimit", "progressDeadlineSeconds", "strategy"]
    ["revisionHistoryLimit", "progressDeadlineSeconds", "strategy"] deployment := by
  have hstrategy := onObject_settles "strategy" deploymentStrategy_settles.again
    fun v r => deploymentStrategy_ne_null
  have hdeadline := (defaultAt_settles "progressDeadlineSeconds" (.number (.int 600)) (by decide)
    (by decide)).andThen hstrategy (by decide)
  exact (defaultAt_settles "revisionHistoryLimit" (.number (.int 10)) (by decide)
    (by decide)).andThen hdeadline (by decide)

/-- The rule of a template. -/
def templateRule (template : Json) : Outcome Json := do
  require template.isObject "template is required"
  onMember template "spec" pod

theorem templateRule_object (h : templateRule value = .ok result) : result.isObject = true := by
  obtain ⟨_, -, h⟩ := bind_eq_ok.mp h
  exact isObject_of_member (onMember_ruled pod_idempotent (fun v r => pod_ne_null) h).1

theorem templateRule_idempotent : Idempotent templateRule := by
  intro v r h
  have hobject := templateRule_object h
  obtain ⟨_, -, h⟩ := bind_eq_ok.mp h
  have hspec := onMember_ruled pod_idempotent (fun v r => pod_ne_null) h
  exact bind_eq_ok.mpr ⟨(), require_ok.mpr hobject, hspec.onMember⟩

theorem templateRule_ne_null (h : templateRule value = .ok result) : result ≠ .null := by
  rintro rfl
  exact absurd (templateRule_object h) (by decide)

/-- What is looked at in a workload with its Pods filled in, and what a Deployment has beside. -/
def workloadChecked (kind : String) (spec : Json) : Outcome Json := do
  require (spec["template"]["spec"]["restartPolicy"] = .string "Always")
    "workload template restartPolicy must be Always"
  executable spec["template"]["spec"]
  selectorMatches spec["selector"] spec["template"]["metadata"]["labels"]
  if kind = "Deployment" then deployment spec else return spec

def workloadFilled (kind : String) (spec : Json) : Outcome Json := do
  let spec ← defaultAt spec "replicas" (.number (.int 1))
  require (spec["replicas"].asInt.any (0 ≤ ·)) "replicas must be nonnegative"
  let spec ← onMember spec "template" templateRule
  workloadChecked kind spec

theorem workload_eq (kind : String) (spec : Json) : workload kind spec =
    (require spec.isObject "spec is required" >>= fun _ => workloadFilled kind spec) := by
  unfold workload workloadFilled workloadChecked onMember templateRule onMember
  simp only [bind_assoc]

theorem workloadChecked_settles (kind : String) : Settles member
    ["template", "selector", "revisionHistoryLimit", "progressDeadlineSeconds", "strategy"]
    ["revisionHistoryLimit", "progressDeadlineSeconds", "strategy"] (workloadChecked kind) := by
  have hkind : Settles member ["revisionHistoryLimit", "progressDeadlineSeconds", "strategy"]
      ["revisionHistoryLimit", "progressDeadlineSeconds", "strategy"]
      fun spec => if kind = "Deployment" then deployment spec else return spec := by
    by_cases hkind : kind = "Deployment"
    · simpa only [if_pos hkind] using deployment_settles
    · simp only [if_neg hkind]
      exact Settles.ok.mono (by decide) (by decide)
  have hselector : ∀ s t, Agrees member ["selector", "template"] s t →
      selectorMatches t["selector"] t["template"]["metadata"]["labels"] =
        selectorMatches s["selector"] s["template"]["metadata"]["labels"] := by
    intro s t hagrees
    rw [show t["selector"] = s["selector"] from hagrees _ (by simp),
      show t["template"] = s["template"] from hagrees _ (by simp)]
  have hmatched := Settles.check ["selector", "template"] hselector hkind (by decide)
  have hexecutable := Settles.checkAt "template" (fun t => executable t["spec"]) hmatched
    (by decide)
  have hrestart := Settles.checkAt "template"
    (fun t => require (t["spec"]["restartPolicy"] = .string "Always")
      "workload template restartPolicy must be Always") hexecutable (by decide)
  exact hrestart.mono (by decide) (by decide)

theorem workload_idempotent (kind : String) : Idempotent (workload kind) := by
  have htemplate := (onMember_settles "template" templateRule_idempotent
    fun v r => templateRule_ne_null).andThen (workloadChecked_settles kind) (by decide)
  have hreplicas := Settles.checkAt "replicas"
    (fun v => require (v.asInt.any (0 ≤ ·)) "replicas must be nonnegative") htemplate (by decide)
  have hworkload := (defaultAt_settles "replicas" (.number (.int 1)) (by decide)
    (by decide)).andThen hreplicas (by decide)
  intro v r h
  rw [workload_eq] at h ⊢
  obtain ⟨_, -, h⟩ := bind_eq_ok.mp h
  have hobject := isObject_of_default (by decide) (by decide) hreplicas (by decide) h
  exact bind_eq_ok.mpr ⟨(), require_ok.mpr hobject, hworkload.again v r h⟩

/-! ## Storage -/

theorem claimKept_self {requested : ℤ}
    (h : storage value["resources"]["requests"]["storage"] "resources.requests.storage" =
      .ok requested) : claimKept value value requested = .ok () := by
  have hbefore : storage value["resources"]["requests"]["storage"] "storage" = .ok requested := by
    unfold storage at h ⊢
    split at h
    · exact h
    · cases h
  unfold claimKept
  apply bind_eq_ok.mpr ⟨(), require_ok.mpr fun _ _ => rfl, _⟩
  apply bind_eq_ok.mpr ⟨(), require_ok.mpr rfl, _⟩
  apply bind_eq_ok.mpr ⟨requested, hbefore, _⟩
  exact bind_eq_ok.mpr ⟨(), require_ok.mpr le_rfl, require_ok.mpr fun h => h.2 rfl⟩

/-- A claim that has been accepted is accepted again as an update of itself. -/
theorem claim_again {old : Option Json} (h : claim value old = .ok result) :
    claim result (some result) = .ok result := by
  obtain ⟨_, hobject, h⟩ := bind_eq_ok.mp h
  obtain ⟨filled, hfilled, h⟩ := bind_eq_ok.mp h
  obtain ⟨_, hmode, h⟩ := bind_eq_ok.mp h
  obtain ⟨_, haccess, h⟩ := bind_eq_ok.mp h
  obtain ⟨requested, hrequested, h⟩ := bind_eq_ok.mp h
  have hsame : filled = result := by
    cases old with
    | none => exact Except.ok.inj h
    | some old =>
      obtain ⟨_, -, h⟩ := bind_eq_ok.mp h
      exact Except.ok.inj h
  subst hsame
  have hfixed := (defaultAt_settles "volumeMode" (.string "Filesystem") (by decide)
    (by decide)).again value filled hfilled
  have hisObject : filled.isObject = true := by
    have hvolume := defaultAt_filled (by decide) (by decide) hfilled
    exact isObject_of_member fun hnull => hvolume (.inl hnull)
  apply bind_eq_ok.mpr ⟨(), require_ok.mpr hisObject, _⟩
  apply bind_eq_ok.mpr ⟨filled, hfixed, _⟩
  apply bind_eq_ok.mpr ⟨_, hmode, _⟩
  apply bind_eq_ok.mpr ⟨_, haccess, _⟩
  apply bind_eq_ok.mpr ⟨requested, hrequested, _⟩
  exact bind_eq_ok.mpr ⟨(), claimKept_self hrequested, rfl⟩

/-- What is filled in and looked at in a volume. -/
theorem volume_idempotent : Idempotent volume := by
  have hpath := Settles.checkAt "local" (fun v => localPath v["path"]) Settles.ok (by simp)
  have hhost := Settles.checkAt "hostPath"
    (fun v => require (v = .null) "hostPath volumes are not implemented; use a local volume")
    hpath (by simp)
  have hcapacity := Settles.checkAt "capacity" (fun v => storage v["storage"] "capacity.storage")
    hhost (by simp)
  have haccess := Settles.checkAt "accessModes" accessModes hcapacity (by simp)
  have hmode := Settles.checkAt "volumeMode" (oneOf · ["Filesystem"]
    "the local-path driver supports Filesystem volumes") haccess (by simp)
  have hreclaim := Settles.checkAt "persistentVolumeReclaimPolicy" (oneOf · ["Delete", "Retain"]
    "unsupported PersistentVolume reclaim policy") hmode (by simp)
  have hvolume := (defaultAt_settles "volumeMode" (.string "Filesystem") (by decide)
    (by decide)).andThen hreclaim (by decide)
  have hfilled := (defaultAt_settles "persistentVolumeReclaimPolicy" (.string "Delete") (by decide)
    (by decide)).andThen hvolume (by decide)
  intro v r h
  obtain ⟨_, -, h⟩ := bind_eq_ok.mp h
  have hobject := isObject_of_default (by decide) (by decide) hvolume (by decide) h
  exact bind_eq_ok.mpr ⟨(), require_ok.mpr hobject, hfilled.again v r h⟩

/-! ## Services -/

open Services in
theorem unsetZero_nonzero (h : unsetZero value key = .ok result) : isZero result[key] = false := by
  unfold unsetZero at h
  split_ifs at h with hzero
  · rw [getElem_setAt h]
    rfl
  · rw [← Except.ok.inj h]
    exact Bool.not_eq_true _ |>.mp hzero

theorem validPort_int {u : Unit} (h : validPort value = .ok u) :
    ∃ n : ℤ, value = .number (.int n) ∧ 1 ≤ n := by
  unfold validPort at h
  split_ifs at h with hrange
  cases value with
  | number n =>
    cases n with
    | int n =>
      simp only [Json.asInt] at hrange
      split_ifs at hrange
      · exact ⟨n, rfl, (of_decide_eq_true hrange).1⟩
      · cases hrange
    | _ => cases hrange
  | _ => cases hrange

open Services in
/-- A target port that is allowed is there and is not zero. -/
theorem allowedTarget_given {u : Unit} (h : allowedTarget value = .ok u) :
    value ≠ .null ∧ isZero value = false := by
  unfold allowedTarget at h
  split_ifs at h with hnumber
  · obtain ⟨n, rfl, hn⟩ := validPort_int h
    refine ⟨Json.noConfusion, decide_eq_false fun hzero => ?_⟩
    injection hzero with hzero
    injection hzero with hzero
    omega
  · constructor
    · rintro rfl
      exact absurd (require_ok.mp h) (by decide)
    · refine decide_eq_false fun hzero => hnumber ?_
      rw [hzero]
      rfl

open Services in
theorem servicePort_idempotent (published : Bool) : Idempotent (servicePort published) := by
  intro port r h
  obtain ⟨_, hvalid, h⟩ := bind_eq_ok.mp h
  obtain ⟨untargeted, htarget, h⟩ := bind_eq_ok.mp h
  obtain ⟨cleared, hcleared, h⟩ := bind_eq_ok.mp h
  obtain ⟨_, hnode, h⟩ := bind_eq_ok.mp h
  obtain ⟨targeted, htargeted, h⟩ := bind_eq_ok.mp h
  obtain ⟨_, hallowed, h⟩ := bind_eq_ok.mp h
  obtain ⟨protocolled, hprotocol, h⟩ := bind_eq_ok.mp h
  obtain ⟨_, hchecked, h⟩ := bind_eq_ok.mp h
  obtain rfl := Except.ok.inj h
  have hport : protocolled["port"] = port["port"] := by
    rw [defaultAt_ne hprotocol (by decide), defaultAt_ne htargeted (by decide),
      unsetZero_ne hcleared (by decide), unsetZero_ne htarget (by decide)]
  have hsameTarget : protocolled["targetPort"] = targeted["targetPort"] :=
    defaultAt_ne hprotocol (by decide)
  have hsameNode : protocolled["nodePort"] = cleared["nodePort"] := by
    rw [defaultAt_ne hprotocol (by decide), defaultAt_ne htargeted (by decide)]
  obtain ⟨hgiven, hnonzero⟩ := allowedTarget_given hallowed
  obtain ⟨n, hn, -⟩ := validPort_int hvalid
  rw [← hport] at hvalid hn
  rw [← hsameTarget] at hallowed hgiven hnonzero
  have hnodeZero := unsetZero_nonzero hcleared
  rw [← hsameNode] at hnodeZero
  have hnodeAllowed : allowedNodePort published protocolled = .ok () := by
    unfold allowedNodePort at hnode ⊢
    rw [hsameNode]
    exact hnode
  apply bind_eq_ok.mpr ⟨_, hvalid, _⟩
  apply bind_eq_ok.mpr ⟨protocolled, if_neg (by simp [hnonzero]), _⟩
  apply bind_eq_ok.mpr ⟨protocolled, if_neg (by simp [hnodeZero]), _⟩
  apply bind_eq_ok.mpr ⟨_, hnodeAllowed, _⟩
  have hdefault : defaultAt protocolled "targetPort" protocolled["port"] = .ok protocolled := by
    apply if_neg
    rintro (hnull | ⟨htext, -⟩)
    · exact hgiven hnull
    · rw [hn] at htext
      cases htext
  apply bind_eq_ok.mpr ⟨protocolled, hdefault, _⟩
  apply bind_eq_ok.mpr ⟨_, hallowed, _⟩
  have hsettled := (defaultAt_settles "protocol" (.string "TCP") (by decide)
    (by decide)).again targeted protocolled hprotocol
  exact bind_eq_ok.mpr ⟨protocolled, hsettled, bind_eq_ok.mpr ⟨_, hchecked, rfl⟩⟩

open Services in
theorem servicePorts_same {published multiple : Bool} {ports ports' : List Json}
    {names : List String} (h : servicePorts published multiple ports names = .ok ports') :
    servicePorts published multiple ports' names = .ok ports' ∧ ports'.length = ports.length := by
  induction ports generalizing names ports' with
  | nil =>
    obtain rfl := Except.ok.inj h
    exact ⟨rfl, rfl⟩
  | cons port ports ih =>
    obtain ⟨prepared, hprepared, h⟩ := bind_eq_ok.mp h
    obtain ⟨_, hnames, h⟩ := bind_eq_ok.mp h
    obtain ⟨rest, hrest, h⟩ := bind_eq_ok.mp h
    obtain rfl := Except.ok.inj h
    obtain ⟨hagain, hlength⟩ := ih hrest
    have hport := servicePort_idempotent published port prepared hprepared
    constructor
    · exact bind_eq_ok.mpr ⟨prepared, hport, bind_eq_ok.mpr ⟨_, hnames,
        bind_eq_ok.mpr ⟨rest, hagain, rfl⟩⟩⟩
    · rw [List.length_cons, List.length_cons, hlength]

/-- The ports of a Service's specification that has an address. -/
def portsChecked (spec : Json) : Outcome Json := do
  require (spec["ports"].items ≠ []) "Service ports are required"
  let ports ← Services.servicePorts (spec["type"] = .string "NodePort")
    (1 < spec["ports"].items.length) spec["ports"].items []
  setAt spec ["ports"] (.array ports)

/-- Ports that the rules leave as they are. -/
def Ported (spec : Json) : Prop :=
  spec["ports"].items ≠ [] ∧ spec["ports"] = .array spec["ports"].items ∧
    Services.servicePorts (spec["type"] = .string "NodePort") (1 < spec["ports"].items.length)
      spec["ports"].items [] = .ok spec["ports"].items

theorem portsChecked_ported (h : portsChecked value = .ok result) : Ported result := by
  obtain ⟨_, hsome, h⟩ := bind_eq_ok.mp h
  obtain ⟨ports, hports, h⟩ := bind_eq_ok.mp h
  obtain ⟨hagain, hlength⟩ := servicePorts_same hports
  have htype : result["type"] = value["type"] := getElem_setAt_ne h (by decide)
  unfold Ported
  rw [getElem_setAt h, htype]
  refine ⟨?_, rfl, ?_⟩
  · intro hnil
    apply require_ok.mp hsome
    exact List.eq_nil_of_length_eq_zero (hlength.symm.trans (congrArg List.length hnil))
  · change Services.servicePorts _ (1 < ports.length) ports [] = .ok ports
    rw [hlength]
    exact hagain

theorem portsChecked_settles : Settles member ["ports", "type"] ["ports"] portsChecked := by
  apply Settles.of_holds fun v r h => portsChecked_ported h
  · intro v h
    apply bind_eq_ok.mpr ⟨(), require_ok.mpr h.1, _⟩
    apply bind_eq_ok.mpr ⟨_, h.2.2, _⟩
    rw [← h.2.1]
    exact setAt_self fun hnull => h.1 (by rw [hnull]; rfl)
  · intro v r h hagrees
    unfold Ported
    rw [show r["ports"] = v["ports"] from hagrees _ (by simp),
      show r["type"] = v["type"] from hagrees _ (by simp)]
    exact h
  · intro v r h k hk
    obtain ⟨_, -, h⟩ := bind_eq_ok.mp h
    obtain ⟨ports, -, h⟩ := bind_eq_ok.mp h
    exact getElem_setAt_ne h fun heq => hk (by simp [heq])

theorem addressed_settles : ∃ reads, Settles member reads
    ["externalTrafficPolicy", "sessionAffinity", "internalTrafficPolicy", "ports"]
    Services.addressed := by
  have hpolicy := Settles.checkAt "internalTrafficPolicy" (oneOf · ["Cluster", "Local"]
    "invalid internalTrafficPolicy") portsChecked_settles (by decide)
  have hinternal := (defaultAt_settles "internalTrafficPolicy" (.string "Cluster") (by decide)
    (by decide)).andThen hpolicy (by decide)
  have hdistribution : ∀ s t, Agrees member ["externalIPs", "trafficDistribution"] s t →
      require (t["externalIPs"].items = [] ∧ t["trafficDistribution"] = .null)
        "externalIPs and trafficDistribution are not implemented by the native Service proxy" =
      require (s["externalIPs"].items = [] ∧ s["trafficDistribution"] = .null)
        "externalIPs and trafficDistribution are not implemented by the native Service proxy" := by
    intro s t hagrees
    rw [show t["externalIPs"] = s["externalIPs"] from hagrees _ (by simp),
      show t["trafficDistribution"] = s["trafficDistribution"] from hagrees _ (by simp)]
  have hexternalIPs := Settles.check ["externalIPs", "trafficDistribution"] hdistribution hinternal
    (by decide)
  have hnone := Settles.checkAt "sessionAffinity" (oneOf · ["None"]
    "ClientIP affinity is not implemented by the native Service proxy") hexternalIPs (by decide)
  have haffinity := (defaultAt_settles "sessionAffinity" (.string "None") (by decide)
    (by decide)).andThen hnone (by decide)
  have hheadless : ∀ s t, Agrees member ["type", "clusterIP"] s t →
      require (¬ (t["type"] = .string "NodePort" ∧ t["clusterIP"] = .string "None"))
        "a NodePort Service requires a ClusterIP" =
      require (¬ (s["type"] = .string "NodePort" ∧ s["clusterIP"] = .string "None"))
        "a NodePort Service requires a ClusterIP" := by
    intro s t hagrees
    rw [show t["type"] = s["type"] from hagrees _ (by simp),
      show t["clusterIP"] = s["clusterIP"] from hagrees _ (by simp)]
  have htype := Settles.check ["type", "clusterIP"] hheadless haffinity (by decide)
  have hhealth := Settles.checkAt "healthCheckNodePort"
    (fun v => require (v.asInt.all (· = 0))
      "healthCheckNodePort is not implemented by the native Service proxy") htype (by decide)
  have htraffic := Settles.checkAt "externalTrafficPolicy" (oneOf · ["Cluster"]
    "externalTrafficPolicy Local is not implemented by the native Service proxy") hhealth
    (by decide)
  exact ⟨_, (defaultAt_settles "externalTrafficPolicy" (.string "Cluster") (by decide)
    (by decide)).andThen htraffic (by decide)⟩

theorem service_idempotent : Idempotent Services.service := by
  obtain ⟨reads, haddressed⟩ := addressed_settles
  have hexternal := Settles.checkAt "externalName"
    (fun v => require (v.asString.any fun n => validName n)
      "externalName must be a DNS name") Settles.ok (by simp)
  have htype : ∀ s t, Agrees member ["type"] s t →
      (t["type"] = .string "ExternalName" ↔ s["type"] = .string "ExternalName") := by
    intro s t hagrees
    rw [show t["type"] = s["type"] from hagrees "type" (by simp)]
  have hboth := Settling.Settles.ite htype
    (hexternal.mono (List.subset_append_left _ reads) (List.nil_subset _))
    (haddressed.mono (List.subset_append_right _ reads) (List.Subset.refl _)) (by decide)
  have hchecked := Settles.checkAt "type"
    (oneOf · ["ClusterIP", "NodePort", "ExternalName", "LoadBalancer"]
      ("currently supported Service types are ClusterIP, NodePort, ExternalName and LoadBalancer"))
    hboth (by decide)
  have hservice := (defaultAt_settles "type" (.string "ClusterIP") (by decide)
    (by decide)).andThen hchecked (by decide)
  intro v r h
  obtain ⟨_, -, h⟩ := bind_eq_ok.mp h
  have hobject := isObject_of_default (by decide) (by decide) hchecked (by decide) h
  exact bind_eq_ok.mpr ⟨(), require_ok.mpr hobject, hservice.again v r h⟩

/-! ## Kinds whose rules see more than `spec` -/

/-- A StorageClass whose provisioner is missing or misshapen. -/
def ProvisionerRefused (value : Json) : Prop :=
  let provisioner := (value["provisioner"].asString.getD "").toList
  provisioner.length < 1 ∨ 253 < provisioner.length ∨
    ('.', '.') ∈ provisioner.zip provisioner.tail ∨ provisioner.head? = some '/' ∨
      provisioner.getLast? = some '/' ∨
        !provisioner.all (fun c => c.isAlphanum || c ∈ ['-', '.', '_', '/'])

instance : DecidablePred ProvisionerRefused := fun value => by
  unfold ProvisionerRefused
  infer_instance

theorem storageClass_settles : Settles member
    ["provisioner", "reclaimPolicy", "volumeBindingMode"] ["reclaimPolicy", "volumeBindingMode"]
    storageClass := by
  have hbinding := Settles.checkAt "volumeBindingMode" (oneOf · ["Immediate"]
    "only immediate volume binding is implemented") Settles.ok (by simp)
  have hreclaim := Settles.checkAt "reclaimPolicy" (oneOf · ["Delete", "Retain"]
    "unsupported StorageClass reclaim policy") hbinding (by simp)
  have hmode := (defaultAt_settles "volumeBindingMode" (.string "Immediate") (by decide)
    (by decide)).andThen hreclaim (by decide)
  have hfilled := (defaultAt_settles "reclaimPolicy" (.string "Delete") (by decide)
    (by decide)).andThen hmode (by decide)
  have hrefused : Settles member ["reclaimPolicy", "volumeBindingMode"]
      ["reclaimPolicy", "volumeBindingMode"] fun _ : Json =>
        (.error (invalid "StorageClass provisioner is required") : Outcome Json) :=
    Settles.fails fun s t h => by cases h
  have hname : ∀ s t, Agrees member ["provisioner"] s t →
      (ProvisionerRefused t ↔ ProvisionerRefused s) := by
    intro s t hagrees
    unfold ProvisionerRefused
    rw [show t["provisioner"] = s["provisioner"] from hagrees _ (by simp)]
  have hall := Settling.Settles.ite hname hrefused (hfilled.mono (by decide) (by decide))
    (by decide)
  exact hall

theorem endpointPort_idempotent : Idempotent endpointPort := by
  have hprotocol := Settles.checkAt "protocol"
    (oneOf · ["TCP", "UDP", "SCTP"] "invalid endpoint protocol") Settles.ok (by simp)
  have hfilled := (defaultAt_settles "protocol" (.string "TCP") (by decide) (by decide)).andThen
    hprotocol (by decide)
  have hport := Settles.checkAt "port"
    (fun v => if v ≠ .null then validPort v else .ok ()) hfilled (by decide)
  intro port r h
  have hsame : ∀ port, endpointPort port =
      ((if port["port"] ≠ .null then validPort port["port"] else .ok ()) >>= fun _ =>
        defaultAt port "protocol" (.string "TCP") >>= fun port =>
          oneOf port["protocol"] ["TCP", "UDP", "SCTP"] "invalid endpoint protocol" >>= fun _ =>
            .ok port) := by
    intro port
    unfold endpointPort
    split_ifs <;> rfl
  rw [hsame] at h ⊢
  exact hport.again port r h

theorem endpoints_settles (validAddress : String → String → Bool) : Settles member
    ["addressType", "endpoints", "ports"] ["ports"] (endpoints validAddress) := by
  have hports := onItems_settles "ports" (mapM_idempotent endpointPort_idempotent)
  have haddresses : ∀ s t, Agrees member ["addressType", "endpoints"] s t →
      (t["endpoints"].items.forM (endpointAddresses fun address =>
        if t["addressType"].asString.getD "" = "FQDN" then validName address
        else validAddress (t["addressType"].asString.getD "") address)) =
      (s["endpoints"].items.forM (endpointAddresses fun address =>
        if s["addressType"].asString.getD "" = "FQDN" then validName address
        else validAddress (s["addressType"].asString.getD "") address)) := by
    intro s t hagrees
    rw [show t["addressType"] = s["addressType"] from hagrees _ (by simp),
      show t["endpoints"] = s["endpoints"] from hagrees _ (by simp)]
  have hchecked := Settles.check ["addressType", "endpoints"] haddresses hports (by decide)
  have htype := Settles.checkAt "addressType" (oneOf · ["IPv4", "IPv6", "FQDN"]
    "invalid EndpointSlice addressType") hchecked (by decide)
  have hsame : endpoints validAddress = fun v => oneOf v["addressType"] ["IPv4", "IPv6", "FQDN"]
      "invalid EndpointSlice addressType" >>= fun _ =>
        (v["endpoints"].items.forM (endpointAddresses fun address =>
          if v["addressType"].asString.getD "" = "FQDN" then validName address
          else validAddress (v["addressType"].asString.getD "") address)) >>= fun _ =>
            onItems v "ports" fun items => items.mapM endpointPort := rfl
  rw [hsame]
  exact htype.mono (by decide) (by decide)

theorem nodeSpec_settles (validCidr : String → Bool) :
    Settles member ["spec"] ["spec"] (nodeSpec validCidr) := by
  have hcidr := Settles.checkAt "spec"
    (fun v => if v["podCIDR"].asString.any fun cidr => cidr ≠ "" && !validCidr cidr then
      .error (invalid "invalid node podCIDR") else .ok ()) Settles.ok (by simp)
  have hfilled := (defaultAt_settles "spec" (.object []) (by decide) (by decide)).andThen hcidr
    (by decide)
  have hsame : nodeSpec validCidr = fun v => defaultAt v "spec" (.object []) >>= fun v =>
      (if v["spec"]["podCIDR"].asString.any fun cidr => cidr ≠ "" && !validCidr cidr then
        .error (invalid "invalid node podCIDR") else .ok ()) >>= fun _ => .ok v := by
    funext v
    apply bind_congr_ok
    intro v _
    split_ifs <;> rfl
  rw [hsame]
  exact hfilled.mono (by decide) (by decide)

theorem ingress_settles : Settles member ["spec"] [] fun v => ingress v >>= fun _ => .ok v := by
  have hspec : ∀ s t, Agrees member ["spec"] s t → ingress t = ingress s := by
    intro s t hagrees
    unfold ingress
    rw [show t["spec"] = s["spec"] from hagrees _ (by simp)]
  exact Settles.check ["spec"] hspec Settles.ok (by simp)

end Hedronetes.Server
