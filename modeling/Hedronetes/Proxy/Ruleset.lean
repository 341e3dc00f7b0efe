import Hedronetes.Proxy.Plan

/-!
# The text of the rules

One transaction for the helper: the table is dropped and created again with a rule for
every frontend, a chain for every frontend with backends and one for each of its backends.
-/

namespace Hedronetes.Proxy

open Network
open NodeCidrAllocations (dotted)

def table : String := "h3s_proxy"

def maxRuleset : ℕ := 2 * 1024 * 1024

def ownerDigest (owner : String) : Bool :=
  owner.utf8ByteSize = 64 && owner.toList.all fun c =>
    c.isDigit || ('a' ≤ c && c ≤ 'f') || ('A' ≤ c && c ≤ 'F')

section

variable (digest : String → String)

def endpointChain (service : Frontend) (backend : Backend) : String :=
  "ep_" ++ digest (":".intercalate [service.id, Ipv4.print backend.ip, toString backend.port])

namespace Frontend

variable (s : Frontend)

/-- The backends in the order of their rules. -/
def ordered : List Backend := s.backends.sort (· ≤ ·)

def destination : String :=
  "  ip daddr " ++ Ipv4.print s.ip ++ " " ++ s.protocol.nft ++ " dport " ++ toString s.port ++
    " counter "

def jumpRule : String :=
  if s.backends = ∅ then "" else s.destination ++ "jump " ++ s.id ++ "\n"

def rejectRule : String :=
  if s.backends = ∅ then s.destination ++ (if s.localOnly then "drop" else "reject") ++ "\n" else ""

/-- Only connections this table translated are masqueraded. -/
def original : String :=
  "  ct status dnat ct original ip daddr " ++ Ipv4.print s.ip ++ " meta l4proto " ++
    s.protocol.nft ++ " ct original proto-dst " ++ toString s.port

def hairpinRule (b : Backend) : String :=
  s.original ++ " ip saddr " ++ Ipv4.print b.ip ++ " ip daddr " ++ Ipv4.print b.ip ++ " " ++
    s.protocol.nft ++ " dport " ++ toString b.port ++ " counter masquerade\n"

def masqueradeRules (cidrs : String) : String :=
  if s.backends = ∅ then ""
  else s.original ++ " ip saddr != \x7b " ++ cidrs ++ " \x7d counter masquerade\n" ++
    String.join (s.ordered.map s.hairpinRule)

def balance : String :=
  match s.ordered with
  | [b] => "  jump " ++ endpointChain digest s b ++ "\n"
  | backends =>
    let entries := backends.zipIdx.map fun (b, i) =>
      toString i ++ " : jump " ++ endpointChain digest s b
    "  numgen random mod " ++ toString s.backends.card ++ " vmap \x7b " ++
      ", ".intercalate entries ++ " \x7d\n"

def endpointRule (b : Backend) : String :=
  " chain " ++ endpointChain digest s b ++ " \x7b meta l4proto " ++ s.protocol.nft ++
    " counter dnat to " ++ Ipv4.print b.ip ++ ":" ++ toString b.port ++ "; \x7d\n"

def chains : String :=
  " chain " ++ s.id ++ " \x7b\n" ++ s.balance digest ++ " \x7d\n" ++
    String.join (s.ordered.map (s.endpointRule digest))

end Frontend

def natHook (hook : String) : String :=
  " chain nat_" ++ hook ++ " \x7b type nat hook " ++ hook ++
    " priority -100; policy accept; jump services; \x7d\n"

def rejectHook (services : List Frontend) (hook : String) : String :=
  " chain reject_" ++ hook ++ " \x7b type filter hook " ++ hook ++
    " priority -10; policy accept;\n" ++ String.join (services.map Frontend.rejectRule) ++ " \x7d\n"

def addChains (out : String) (s : Frontend) : Except String String :=
  if s.backends = ∅ then .ok out
  else do
    let out := out ++ s.chains digest
    demand (out.utf8ByteSize ≤ maxRuleset) "ruleset exceeds byte limit"
    return out

namespace Plan

variable (p : Plan)

def podCidrText : String := ", ".intercalate ((p.podCidrs.sort (· ≤ ·)).map dotted.print)

def hooks (owner : String) : String :=
  "add table ip " ++ table ++ "\ndelete table ip " ++ table ++ "\ntable ip " ++ table ++
    " \x7b\n comment \"hedronetes.io/service-proxy/v1:" ++ owner ++ "\"\n" ++
  String.join (["prerouting", "output"].map natHook) ++
  " chain services \x7b\n" ++ String.join (p.services.map Frontend.jumpRule) ++ " \x7d\n" ++
  String.join (["input", "forward", "output"].map (rejectHook p.services)) ++
  " chain postrouting \x7b type nat hook postrouting priority 90; policy accept;\n" ++
  String.join (p.services.map (Frontend.masqueradeRules · p.podCidrText)) ++ " \x7d\n"

def render (owner : String) : Except String String := do
  demand (ownerDigest owner) "invalid table ownership digest"
  let out ← p.services.foldlM (addChains digest) (p.hooks owner)
  let out := out ++ "\x7d\n"
  demand (out.utf8ByteSize ≤ maxRuleset) "ruleset exceeds byte limit"
  return out

/-- The rules say nothing of warnings and status. -/
theorem render_congr {p q : Plan} (hcidrs : p.podCidrs = q.podCidrs)
    (hservices : p.services = q.services) (owner : String) :
    p.render digest owner = q.render digest owner := by
  unfold render hooks podCidrText
  rw [hcidrs, hservices]

end Plan

end

end Hedronetes.Proxy
