import Hedronetes.Foundations.Runs
import Hedronetes.Server.Commits

/-!
# Runs of accepted requests

The server takes requests one after another while time passes. A request changes
objects of its own resource, or what belongs to the server: the token records, the
address ledger and the volumes it provisions.
-/

namespace Hedronetes.Server

open FirstMatch Apply Auth Effects Runs
open Storage (StoreKey startsWith)

structure World where
  registry : Registry
  /-- Seconds since the epoch. -/
  now : ℤ

inductive Event
  | request (fresh : Fresh) (user : User) (request : HttpRequest)
  | tick (seconds : ℕ)

/-- A refused request is no step of a run. -/
def step (lib : Libraries) (w : World) : Event → Option World
  | .request fresh user request =>
    match serve lib { fresh with seconds := w.now } user request w.registry with
    | .ok _ registry => some { w with registry }
    | .error _ _ => none
  | .tick seconds => some { w with now := w.now + seconds }

variable {lib : Libraries} {fresh : Fresh} {user : User} {request : HttpRequest} {w w' : World}
  {reg reg' : Registry} {k : StoreKey} {write : Write} {query : Query} {body : Body}

theorem step_request_ok (h : step lib w (.request fresh user request) = some w') :
    ∃ response, serve lib { fresh with seconds := w.now } user request w.registry =
      .ok response w'.registry ∧ w'.now = w.now := by
  simp only [step] at h
  split at h
  · rename_i response registry hserve
    cases h
    exact ⟨response, hserve, rfl⟩
  · cases h

/-! ## Families of keys -/

/-- The key lies under a plural. -/
def Family (plural : String) (k : StoreKey) : Prop :=
  ∃ rest, k.value = "/registry/" ++ plural ++ "/" ++ rest

theorem Family.unique {a b : String} (ha : '/' ∉ a.toList) (hb : '/' ∉ b.toList)
    (h : Family a k) (h' : Family b k) : a = b := by
  obtain ⟨x, hx⟩ := h
  obtain ⟨y, hy⟩ := h'
  have hsame := hx.symm.trans hy
  simp only [String.append_assoc] at hsame
  have htail := (String.append_right_inj _).mp hsame
  rw [← String.append_assoc, ← String.append_assoc] at htail
  exact (append_slash_inj ha hb htail).1

theorem family_pathPrefix {target : Target} {name : String}
    (h : k.value = target.pathPrefix ++ name) : Family target.resource.plural k := by
  unfold Target.pathPrefix at h
  cases hns : target.ns with
  | none =>
    rw [hns] at h
    exact ⟨name, h⟩
  | some ns =>
    rw [hns] at h
    exact ⟨ns ++ "/" ++ name, by rw [h]; simp only [String.append_assoc]⟩

theorem family_startsWith {plural : String} (h : Family plural k) :
    startsWith ("/registry/" ++ plural ++ "/") k = true := by
  obtain ⟨rest, hk⟩ := h
  rw [startsWith, hk, List.isPrefixOf_iff_prefix]
  simp only [String.toList_append]
  exact List.prefix_append _ _

theorem family_of_side (h : SideKey k) :
    Family "persistentvolumes" k ∨ Family "h3s-node-cidrs" k := by
  rcases h with ⟨name, h⟩ | h
  · refine Or.inl ⟨"pvc-" ++ name, h.trans ?_⟩
    rw [← String.append_assoc]
    rfl
  · exact Or.inr ⟨"allocations", h⟩

theorem family_token (h : k.value = "/registry/h3s-bound-tokens/" ++ lib.digest fresh.secret) :
    Family "h3s-bound-tokens" k := ⟨_, h⟩

/-! ## What requests leave alone -/

theorem Deleted.same {obj : Json} (h : Deleted fresh write k obj reg reg') :
    SameBut (· = k) reg reg' := by
  intro k' hk'
  cases h with
  | removed => exact Registry.get_drop_ne hk'
  | marked => exact Registry.get_put_ne hk' _
  | kept => rfl

/-- A write changes its own resource, and the server's keys if it is no deletion and no
binding. -/
theorem Executed.same (h : Executed lib fresh write query body reg reg') :
    SameBut (fun k => SideKey k ∨ Family write.target.resource.plural k) reg reg' := by
  cases h with
  | bound _ _ hbinds hreg =>
    obtain ⟨name, _, hk⟩ := named_ok.mp hbinds.key
    rw [hreg]
    exact SameBut.put (Or.inr (family_pathPrefix hk)) reg _
  | deleted _ hk _ _ _ hdeleted =>
    obtain ⟨name, _, hvalue⟩ := named_ok.mp hk
    apply hdeleted.same.weaken
    rintro _ rfl
    exact Or.inr (family_pathPrefix hvalue)
  | committed _ _ hp hcommit =>
    obtain ⟨value, reg₁, hadmit, _, hcommitted⟩ := commit_ok hcommit
    obtain ⟨name, hk, _⟩ := propose_key hp
    refine ((admit_keeps hadmit).2.weaken fun _ => Or.inl).trans (hcommitted.same.weaken ?_)
    rintro _ rfl
    exact Or.inr (family_pathPrefix hk)

theorem Authorized.served {target : Target} {v : String} {grant : Grant}
    (h : Authorized lib user request target v grant reg) : target.resource ∈ resources :=
  (Target.parse_ok h.parsed).served

/-- What a request changes belongs to its own resource, or to the server. -/
theorem changed_served {own : String} (hplain : own ∉ ["h3s-bound-tokens", "h3s-node-cidrs",
      "persistentvolumes"]) (hslash : '/' ∉ own.toList)
    (h : Served lib fresh user request reg reg') (hk : Family own k) (hne : reg'.get k ≠ reg.get k) :
    ∃ target v grant, Authorized lib user request target v grant reg ∧
      target.resource.plural = own ∧ target.ns.isSome = target.resource.namespaced ∧
        Executed lib fresh ⟨user, target, v⟩ request.query request.body reg reg' := by
  simp only [List.mem_cons, List.not_mem_nil, or_false, not_or] at hplain
  cases h with
  | read hsame =>
    rw [hsame] at hne
    exact absurd rfl hne
  | token _ _ hcreate =>
    obtain ⟨ns, account, value, bound, object, audiences, expires, k', _, _, _, _, _, _, _, hk', _,
      hreg⟩ := createToken_ok hcreate
    refine absurd ?_ hne
    rw [hreg]
    apply Registry.get_put_ne
    rintro rfl
    exact hplain.1 (Family.unique hslash (by decide) hk (family_token (key_ok.mp hk')))
  | @write target v grant hauthorized _ _ hns hexecuted =>
    refine ⟨target, v, grant, hauthorized, ?_, hns, hexecuted⟩
    by_contra hother
    refine hne (hexecuted.same k ?_)
    rintro (hside | hfamily)
    · rcases family_of_side hside with hside | hside
      · exact hplain.2.2 (Family.unique hslash (by decide) hk hside)
      · exact hplain.2.1 (Family.unique hslash (by decide) hk hside)
    · exact hother (Family.unique (slash_notMem_plural hauthorized.served) hslash hfamily hk)

/-! ## Answers -/

variable {target : Target} {v : String} {grant : Grant} {response : Response}

theorem serve_cases (hparse : Target.parse request.path = some target)
    (h : serve lib fresh user request reg = .ok response reg') :
    target.subresource = some "token" ∨ ∃ (v : String) (selection : Selection) (grant : Grant),
      resource lib reg user target v (selection.withName target.name) = .ok grant ∧
        serveAuthorized lib fresh user target v grant request reg = .ok response reg' := by
  unfold serve at h
  simp only [hparse] at h
  split_ifs at h with htoken
  · exact .inl htoken
  obtain ⟨v, _, h⟩ := Effects.ofExcept_bind_eq_ok.mp h
  obtain ⟨selection, _, h⟩ := Effects.ofExcept_bind_eq_ok.mp h
  obtain ⟨grant, hgrant, h⟩ := reading_bind_ok.mp h
  exact .inr ⟨v, selection, grant, hgrant, h⟩

/-- How an authorized request is answered. -/
inductive Replied (lib : Libraries) (fresh : Fresh) (user : User) (request : HttpRequest)
    (target : Target) (v : String) (grant : Grant) (reg reg' : Registry) (response : Response) : Prop
  | session : target.subresource = some "log" ∨ target.subresource = some "exec" →
      Replied lib fresh user request target v grant reg reg' response
  | watch : v = "watch" → response = .watch target grant → reg' = reg →
      Replied lib fresh user request target v grant reg reg' response
  | list : v = "list" → response = .list target grant → reg' = reg →
      Replied lib fresh user request target v grant reg reg' response
  | get : v = "get" → getRead target reg = .ok response → reg' = reg →
      Replied lib fresh user request target v grant reg reg' response
  | write : v ∉ ["get", "list", "watch"] →
      execute lib fresh ⟨user, target, v⟩ request.query request.body reg = .ok response reg' →
      Replied lib fresh user request target v grant reg reg' response

theorem serveAuthorized_replied
    (h : serveAuthorized lib fresh user target v grant request reg = .ok response reg') :
    Replied lib fresh user request target v grant reg reg' response := by
  unfold serveAuthorized at h
  split_ifs at h with hinitial hplace hlog hexec hwatch hlist hget
  · exact absurd h throw_ok
  · exact absurd h throw_ok
  · exact .session (.inl hlog)
  · exact .session (.inr hexec)
  · obtain ⟨hresponse, hreg⟩ := Effects.pure_eq_ok.mp h
    exact .watch hwatch hresponse.symm hreg.symm
  · obtain ⟨hresponse, hreg⟩ := Effects.pure_eq_ok.mp h
    exact .list hlist hresponse.symm hreg.symm
  · obtain ⟨hread, hreg⟩ := reading_ok.mp h
    exact .get hget hread hreg
  · exact .write (by simp [hget, hlist, hwatch]) h

end Hedronetes.Server
