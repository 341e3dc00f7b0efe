import Hedronetes.Apply.MergeKeys
import Hedronetes.Server.Selectors

/-!
# What the server calls

The functions a request passes through that are parameters here: the codecs of
request bodies, the typed Kubernetes objects, the selector syntax, and the rules
on the specification of each kind, which see nothing else of the object.
-/

namespace Hedronetes.Server

open Apply

abbrev Bytes := Storage.Bytes

-- The rules look for pairs of neighbouring characters and for optional texts in lists.
instance char_pair_lawful : LawfulBEq (Char × Char) := inferInstance

instance option_text_lawful : LawfulBEq (Option String) := inferInstance

/-- The strategies and allocators that read and write `spec` alone. -/
structure SpecRules where
  pod : Json → Outcome Json
  /-- The strategy of a Deployment or ReplicaSet, by kind. -/
  workload : String → Json → Outcome Json
  service : Json → Outcome Json
  claim : Json → Option Json → Outcome Json
  volume : Json → Outcome Json
  /-- An address of an EndpointSlice, by address type. -/
  validAddress : String → String → Bool
  validCidr : String → Bool
  /-- `admission::check` for a policy level, a Pod's `spec` and its annotations. -/
  podSecurity : String → Json → Json → Option String
  /-- `admission::runtime`. -/
  runtime : Json → Outcome Unit
  /-- `services::assign` for a Service's uid, its `spec` and the stored one. -/
  assign : Registry → String → Json → Option Json → Outcome Json
  /-- A storage quantity in bytes. -/
  quantity : String → Option ℤ

structure Libraries where
  /-- `wire::decode`, by content type. -/
  decode : Bytes → String → Outcome Json
  /-- `Resource::normalize`: through the typed object and back. -/
  normalize : Resource → Json → Outcome Json
  /-- The typed RBAC object of a plural can be read from the value. -/
  accepts : String → Json → Bool
  /-- `patch::apply`, by content type. -/
  patch : Resource → Json → Bytes → String → Outcome Json
  /-- `Selection::parse` for labels, fields and a kind. -/
  selection : String → String → String → Outcome Selection
  text : JsonText
  /-- The length of the printed value. -/
  size : Json → ℕ
  base64 : String → String
  /-- The digest of a secret, in hexadecimal. -/
  digest : String → String
  /-- `NodeCidrAllocations::reserve` on a stored ledger, where allocation is configured: the
  new ledger, if it changed. -/
  reserve : Option (Json → String → String → Outcome (Option Json))
  rules : SpecRules

/-- What one request draws at random and reads off the clock. -/
structure Fresh where
  suffix : String
  uid : String
  volumeUid : String
  accessSuffix : String
  now : String
  secret : String
  /-- Seconds since the epoch. -/
  seconds : ℤ

/-! ## For the examples -/

/-- Rules that change nothing. -/
def SpecRules.plain : SpecRules where
  pod := .ok
  workload _ := .ok
  service := .ok
  claim spec _ := .ok spec
  volume := .ok
  validAddress _ _ := true
  validCidr _ := true
  podSecurity _ _ _ := none
  runtime _ := .ok ()
  assign _ _ spec _ := .ok spec
  quantity _ := none

/-- Libraries that read the one byte of a body as the number of its value, take every value as
normalized and replace by it what they patch. -/
def Libraries.plain (values : List Json) : Libraries where
  decode bytes _ := .ok (values.getD (bytes.headD 0).toNat (.object []))
  normalize _ value := .ok value
  accepts _ _ := true
  patch _ _ bytes _ := .ok (values.getD (bytes.headD 0).toNat .null)
  selection _ _ _ := .ok ⟨[], []⟩
  text := keyText
  size _ := 0
  base64 s := s
  digest s := s
  reserve := none
  rules := .plain

def Fresh.plain : Fresh := ⟨"x", "uid", "volume", "y", "2030-01-01T00:00:00Z", "secret", 0⟩

end Hedronetes.Server
