import Hedronetes.Server.Concurrent
import Hedronetes.Server.Services

/-!
# Service addresses on a shared registry

A cluster address or a node port is chosen among those that the Services read
before have not published. The Service's own key is compared and set, the other
Services are not: only where nothing was published in between are the addresses
unique.
-/

namespace Hedronetes.Server

open FirstMatch Apply Auth Effects Interleaving Runs Services
open Storage (StoreKey)

/-- No two Services hold one cluster address, and no two of their ports one node port of one
protocol. -/
structure AddressesUnique (reg : Registry) : Prop where
  addresses : ∀ k o k' o' a, Family "services" k → Family "services" k' → reg.get k = some o →
    reg.get k' = some o' → address o.value["spec"] = some a → address o'.value["spec"] = some a →
      k = k'
  ports : ∀ k o, Family "services" k → reg.get k = some o → (heldPorts o.value["spec"]).Nodup
  apart : ∀ k o k' o' x, Family "services" k → Family "services" k' → reg.get k = some o →
    reg.get k' = some o' → x ∈ heldPorts o.value["spec"] → x ∈ heldPorts o'.value["spec"] → k = k'

def Call.isCreate : Call → Bool
  | create _ _ => true
  | _ => false

/-- The call stores a Service for which addresses or node ports were looked up. -/
def LooksUp (c : Call) (spec : Json) : Prop :=
  spec["type"] = .string "NodePort" ∨ (c.isCreate = true ∧ spec["type"] ≠ .string "ExternalName")

/-- Nothing that another Service holds now was missing when the request looked, and the ports of
an ExternalName, which nobody checks, are no other's. -/
structure Undisturbed (seen : List Observed) (s : Registry) (c : Call) (value : Json) : Prop where
  published : LooksUp c value["spec"] → ∀ reg ips used, .read .services reg ∈ seen →
    published reg (value["metadata"]["uid"].asString.getD "") = .ok (ips, used) →
      ∀ k o, k ≠ c.key → Family "services" k → s.get k = some o →
        (∀ a, address o.value["spec"] = some a → a ∈ ips) ∧
          ∀ port ∈ o.value["spec"]["ports"].items, ∀ n, nodePort port = some n → n ∈ used
  external : value["spec"]["type"] = .string "ExternalName" →
    (heldPorts value["spec"]).Nodup ∧ ∀ k o, k ≠ c.key → Family "services" k → s.get k = some o →
      ∀ x ∈ heldPorts o.value["spec"], x ∉ heldPorts value["spec"]

section

variable {lib : Libraries} {q : Submitted} {seen seen' : List Observed} {s t reg : Registry}
  {k : StoreKey} {value : Json} {c : Call} {p : Proposal}

/-! ## One call -/

/-- A Service that shares nothing with the others. -/
theorem AddressesUnique.put (h : AddressesUnique reg) (hports : (heldPorts value["spec"]).Nodup)
    (haddress : ∀ k' o a, k' ≠ k → Family "services" k' → reg.get k' = some o →
      address o.value["spec"] = some a → address value["spec"] ≠ some a)
    (hapart : ∀ k' o x, k' ≠ k → Family "services" k' → reg.get k' = some o →
      x ∈ heldPorts o.value["spec"] → x ∉ heldPorts value["spec"]) :
    AddressesUnique (reg.put k value) := by
  have hcases : ∀ k' o, (reg.put k value).get k' = some o →
      (k' = k ∧ o.value = value) ∨ (k' ≠ k ∧ reg.get k' = some o) := by
    intro k' o hget
    by_cases hk : k' = k
    · subst hk
      rw [Registry.get_put] at hget
      exact Or.inl ⟨rfl, by rw [← Option.some.inj hget]⟩
    · rw [Registry.get_put_ne hk] at hget
      exact Or.inr ⟨hk, hget⟩
  constructor
  · intro k₁ o₁ k₂ o₂ a hf₁ hf₂ hget₁ hget₂ ha₁ ha₂
    rcases hcases k₁ o₁ hget₁ with ⟨rfl, hv₁⟩ | ⟨hk₁, hold₁⟩ <;>
      rcases hcases k₂ o₂ hget₂ with ⟨rfl, hv₂⟩ | ⟨hk₂, hold₂⟩
    · rfl
    · rw [hv₁] at ha₁
      exact absurd ha₁ (haddress k₂ o₂ a hk₂ hf₂ hold₂ ha₂)
    · rw [hv₂] at ha₂
      exact absurd ha₂ (haddress k₁ o₁ a hk₁ hf₁ hold₁ ha₁)
    · exact h.addresses k₁ o₁ k₂ o₂ a hf₁ hf₂ hold₁ hold₂ ha₁ ha₂
  · intro k' o hf hget
    rcases hcases k' o hget with ⟨rfl, hv⟩ | ⟨_, hget⟩
    · rw [hv]
      exact hports
    · exact h.ports k' o hf hget
  · intro k₁ o₁ k₂ o₂ x hf₁ hf₂ hget₁ hget₂ hx₁ hx₂
    rcases hcases k₁ o₁ hget₁ with ⟨rfl, hv₁⟩ | ⟨hk₁, hold₁⟩ <;>
      rcases hcases k₂ o₂ hget₂ with ⟨rfl, hv₂⟩ | ⟨hk₂, hold₂⟩
    · rfl
    · rw [hv₁] at hx₁
      exact absurd hx₁ (hapart k₂ o₂ x hk₂ hf₂ hold₂ hx₂)
    · rw [hv₂] at hx₂
      exact absurd hx₂ (hapart k₁ o₁ x hk₁ hf₁ hold₁ hx₁)
    · exact h.apart k₁ o₁ k₂ o₂ x hf₁ hf₂ hold₁ hold₂ hx₁ hx₂

/-- A Service whose addresses were looked up undisturbed. -/
theorem AddressesUnique.assigned (h : AddressesUnique s) {spec : Json} {old : Option Json}
    (hguard : Undisturbed seen s c value) (hread : .read .services reg ∈ seen)
    (hassigned : Assigned reg (value["metadata"]["uid"].asString.getD "") spec old value["spec"])
    (hheld : spec["type"] ≠ .string "ExternalName" → spec["type"] ≠ .string "NodePort" →
      heldPorts spec = [])
    (hnew : c.isCreate = true ↔ old = none)
    (hold : ∀ v, old = some v → ∃ current, s.get c.key = some current ∧ v = current.value["spec"]) :
    (heldPorts value["spec"]).Nodup ∧
      (∀ k' o a, k' ≠ c.key → Family "services" c.key → Family "services" k' →
        s.get k' = some o → address o.value["spec"] = some a → address value["spec"] ≠ some a) ∧
      (∀ k' o x, k' ≠ c.key → Family "services" k' → s.get k' = some o →
        x ∈ heldPorts o.value["spec"] → x ∉ heldPorts value["spec"]) := by
  have htype := hassigned.type
  refine ⟨?_, ?_, ?_⟩
  · by_cases hexternal : spec["type"] = .string "ExternalName"
    · exact (hguard.external (htype.trans hexternal)).1
    by_cases hnodes : spec["type"] = .string "NodePort"
    · obtain ⟨ips, used, _, hfresh⟩ := hassigned.portsFree hnodes
      exact hfresh.nodup
    · rw [heldPorts, hassigned.ports hnodes, ← heldPorts, hheld hexternal hnodes]
      exact List.nodup_nil
  · intro k' o a hk hf hf' hget ha haddress
    cases old with
    | none =>
      by_cases hexternal : spec["type"] = .string "ExternalName"
      · rw [hassigned.external rfl hexternal] at haddress
        cases haddress
      · obtain ⟨ips, used, hpublished, hfree⟩ := hassigned.addressFree rfl hexternal
        have hlooks : LooksUp c value["spec"] := Or.inr ⟨hnew.mpr rfl, htype ▸ hexternal⟩
        exact hfree a haddress
          ((hguard.published hlooks reg ips used hread hpublished k' o hk hf' hget).1 a ha)
    | some v =>
      obtain ⟨current, hcurrent, rfl⟩ := hold v rfl
      have hsame : address value["spec"] = address current.value["spec"] := by
        unfold address
        rw [hassigned.kept _ rfl]
      exact hk (h.addresses k' o c.key current a hf' hf hget hcurrent ha (hsame ▸ haddress))
  · intro k' o x hk hf' hget hx
    by_cases hexternal : spec["type"] = .string "ExternalName"
    · exact (hguard.external (htype.trans hexternal)).2 k' o hk hf' hget x hx
    by_cases hnodes : spec["type"] = .string "NodePort"
    · obtain ⟨ips, used, hpublished, hfresh⟩ := hassigned.portsFree hnodes
      have hlooks : LooksUp c value["spec"] := Or.inl (htype.trans hnodes)
      exact hfresh.apart (hguard.published hlooks reg ips used hread hpublished k' o hk hf' hget).2 hx
    · rw [heldPorts, hassigned.ports hnodes, ← heldPorts, hheld hexternal hnodes]
      exact List.not_mem_nil

/-- Nothing is missing where the other Services are those that were read, with uids of their own. -/
theorem undisturbed_of_kept
    (hkept : ∀ reg, .read .services reg ∈ seen → ∀ k o, k ≠ c.key → Family "services" k →
      s.get k = some o → reg.get k = some o ∧
        o.value["metadata"]["uid"] ≠ .string (value["metadata"]["uid"].asString.getD ""))
    (hexternal : value["spec"]["type"] ≠ .string "ExternalName") : Undisturbed seen s c value := by
  refine ⟨fun _ reg ips used hread hpublished k o hk hf hget => ?_, fun h => absurd h hexternal⟩
  obtain ⟨hold, huid⟩ := hkept reg hread k o hk hf hget
  obtain ⟨current, hcurrent, hall⟩ :=
    published_mem hpublished (Registry.mem_list.mpr ⟨hold, family_startsWith hf⟩)
  rw [object_metadata hcurrent _ (by decide) (by decide), object_ne hcurrent (by decide)] at hall
  exact hall huid

/-! ## Every call of a handler -/

theorem copyField_self {value result source : Json} {key : String}
    (h : copyField value key source = .ok result) : result[key] = source[key] := by
  unfold copyField at h
  split_ifs at h with hnull
  · rw [hnull]
    cases value with
    | object fields =>
      rw [← Except.ok.inj h, Json.getElem_eq, Json.field, lookup_eraseKey]
      rfl
    | _ =>
      rw [← Except.ok.inj h]
      rfl
  · exact getElem_setAt h

/-- A status write keeps the stored specification. -/
theorem prepare_status_spec {rules : SpecRules} {resource : Resource} {old result : Json}
    (h : prepare rules resource value (some old) true = .ok result) :
    result["spec"] = old["spec"] := by
  unfold prepare at h
  rw [if_pos rfl] at h
  unfold prepareStatus at h
  obtain ⟨copied, hcopied, h⟩ := Fallible.bind_eq_ok.mp h
  obtain ⟨replaced, hreplaced, h⟩ := Fallible.ite_bind_eq_ok.mp h
  obtain ⟨versioned, hversioned, h⟩ := Fallible.bind_eq_ok.mp h
  have hsame : result = versioned := by
    split_ifs at h
    · obtain ⟨_, _, h⟩ := Fallible.bind_eq_ok.mp h
      exact (Except.ok.inj h).symm
    · exact (Except.ok.inj h).symm
  rw [hsame, getElem_setAt_ne hversioned (by decide), ← copyField_self hcopied]
  split_ifs at hreplaced
  · exact getElem_setAt_ne hreplaced (by decide)
  · rw [Except.ok.inj hreplaced]

end

/-! ## Two servers that create a Service each -/

def webService (name : String) : Json :=
  .ofPairs [("apiVersion", .string "v1"), ("kind", .string "Service"),
    ("metadata", .ofPairs [("name", .string name)]),
    ("spec", .ofPairs [("ports", .array [.ofPairs [("port", .number (.int 80))]])])]

end Hedronetes.Server
