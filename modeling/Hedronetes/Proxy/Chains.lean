import Hedronetes.Proxy.Outline
import Hedronetes.Proxy.Ruleset

/-!
# The rules as chains

The rendered text is that of a list of named chains, each with its rules. What a chain refers to and
where it sends a connection are read off the rules.
-/

namespace Hedronetes.Proxy

open Network

/-! ## Chains and their texts -/

/-- What becomes of a connection to a frontend. -/
inductive Verdict
  | jump (chain : String)
  | reject
  | drop
  deriving DecidableEq

inductive Rule
  | jump (chain : String)
  | frontend (tuple : Tuple) (verdict : Verdict)
  /-- One of the numbered chains by chance. -/
  | balance (size : ℕ) (chains : List (ℕ × String))
  | dnat (protocol : Protocol) (backend : Backend)
  /-- Masquerade of a translated connection that comes from elsewhere. -/
  | outside (tuple : Tuple) (cidrs : String)
  /-- Masquerade of a translated connection from a backend to itself. -/
  | hairpin (tuple : Tuple) (backend : Backend)
  deriving DecidableEq

structure Base where
  kind : String
  hook : String
  priority : String
  deriving DecidableEq

structure Chain where
  name : String
  base : Option Base
  /-- The rules stand on the line of the name. -/
  inline : Bool
  rules : List Rule
  deriving DecidableEq

abbrev Ruleset := List Chain

def Verdict.print : Verdict → String
  | .jump chain => "jump " ++ chain
  | .reject => "reject"
  | .drop => "drop"

def printOriginal (tuple : Tuple) : String :=
  "ct status dnat ct original ip daddr " ++ Ipv4.print tuple.1 ++ " meta l4proto " ++
    tuple.2.2.nft ++ " ct original proto-dst " ++ toString tuple.2.1

def Rule.print : Rule → String
  | .jump chain => "jump " ++ chain
  | .frontend tuple verdict =>
    "ip daddr " ++ Ipv4.print tuple.1 ++ " " ++ tuple.2.2.nft ++ " dport " ++
      toString tuple.2.1 ++ " counter " ++ verdict.print
  | .balance size chains =>
    "numgen random mod " ++ toString size ++ " vmap \x7b " ++
      ", ".intercalate (chains.map fun e => toString e.1 ++ " : jump " ++ e.2) ++ " \x7d"
  | .dnat protocol b =>
    "meta l4proto " ++ protocol.nft ++ " counter dnat to " ++ Ipv4.print b.ip ++ ":" ++
      toString b.port
  | .outside tuple cidrs =>
    printOriginal tuple ++ " ip saddr != \x7b " ++ cidrs ++ " \x7d counter masquerade"
  | .hairpin tuple b =>
    printOriginal tuple ++ " ip saddr " ++ Ipv4.print b.ip ++ " ip daddr " ++ Ipv4.print b.ip ++
      " " ++ tuple.2.2.nft ++ " dport " ++ toString b.port ++ " counter masquerade"

def Base.print (base : Base) : String :=
  " type " ++ base.kind ++ " hook " ++ base.hook ++ " priority " ++ base.priority ++
    "; policy accept;"

def Chain.print (chain : Chain) : String :=
  " chain " ++ chain.name ++ " \x7b" ++ (chain.base.map Base.print).getD "" ++
    (if chain.inline then String.join (chain.rules.map fun r => " " ++ r.print ++ ";")
    else "\n" ++ String.join (chain.rules.map fun r => "  " ++ r.print ++ "\n")) ++ " \x7d\n"

/-- The table is dropped and created again with the chains. -/
def Ruleset.print (owner : String) (chains : Ruleset) : String :=
  "add table ip " ++ table ++ "\ndelete table ip " ++ table ++ "\ntable ip " ++ table ++
    " \x7b\n comment \"hedronetes.io/service-proxy/v1:" ++ owner ++ "\"\n" ++
  String.join (chains.map Chain.print) ++ "\x7d\n"

/-! ## The chains of a plan -/

def natChain (hook : String) : Chain where
  name := "nat_" ++ hook
  base := some ⟨"nat", hook, "-100"⟩
  inline := true
  rules := [.jump "services"]

namespace Frontend

def refusal (s : Frontend) : Verdict := if s.localOnly then .drop else .reject

end Frontend

/-- Frontends with backends. -/
def serving (services : List Frontend) : List Frontend :=
  services.filter fun s => s.backends ≠ ∅

/-- Frontends without backends. -/
def idle (services : List Frontend) : List Frontend :=
  services.filter fun s => s.backends = ∅

def servicesChain (services : List Frontend) : Chain where
  name := "services"
  base := none
  inline := false
  rules := (serving services).map fun s => .frontend s.tuple (.jump s.id)

def rejectChain (services : List Frontend) (hook : String) : Chain where
  name := "reject_" ++ hook
  base := some ⟨"filter", hook, "-10"⟩
  inline := false
  rules := (idle services).map fun s => .frontend s.tuple s.refusal

def postrouting (services : List Frontend) (cidrs : String) : Chain where
  name := "postrouting"
  base := some ⟨"nat", "postrouting", "90"⟩
  inline := false
  rules := (serving services).flatMap fun s =>
    .outside s.tuple cidrs :: s.ordered.map (.hairpin s.tuple)

section

variable (digest : String → String)

namespace Frontend

variable (s : Frontend)

def balanceRule : Rule :=
  match s.ordered with
  | [b] => .jump (endpointChain digest s b)
  | backends =>
    .balance s.backends.card (backends.zipIdx.map fun e => (e.2, endpointChain digest s e.1))

def chain : Chain where
  name := s.id
  base := none
  inline := false
  rules := [s.balanceRule digest]

def backendChain (b : Backend) : Chain where
  name := endpointChain digest s b
  base := none
  inline := true
  rules := [.dnat s.protocol b]

end Frontend

namespace Plan

variable (p : Plan)

def ruleset : Ruleset :=
  ["prerouting", "output"].map natChain ++ [servicesChain p.services] ++
    ["input", "forward", "output"].map (rejectChain p.services) ++
      [postrouting p.services p.podCidrText] ++
        (serving p.services).flatMap fun s =>
          s.chain digest :: s.ordered.map (s.backendChain digest)

end Plan

/-! ## The text that is rendered -/

theorem join_flatMap {α β : Type} (l : List α) (f : α → List β) (g : β → String) :
    String.join ((l.flatMap f).map g) = String.join (l.map fun a => String.join ((f a).map g)) := by
  induction l with
  | nil => rfl
  | cons a l ih =>
    rw [List.flatMap_cons, List.map_append, String.join_append, ih, List.map_cons,
      String.join_cons]

/-- What is not printed may be left out. -/
theorem join_filter {α : Type} {p : α → Bool} {f : α → String} (l : List α)
    (h : ∀ a ∈ l, p a = false → f a = "") :
    String.join (l.map f) = String.join ((l.filter p).map f) := by
  induction l with
  | nil => rfl
  | cons a l ih =>
    have hrest := ih fun b hb => h b (List.mem_cons_of_mem a hb)
    rw [List.map_cons, String.join_cons, hrest]
    cases hp : p a with
    | true => rw [List.filter_cons_of_pos hp, List.map_cons, String.join_cons]
    | false =>
      rw [List.filter_cons_of_neg (by simp [hp]), h a List.mem_cons_self hp, String.empty_append]

section Lines

variable (s : Frontend)

theorem line_frontend (verdict : Verdict) :
    "  " ++ (Rule.frontend s.tuple verdict).print ++ "\n" =
      s.destination ++ verdict.print ++ "\n" := by
  have hprint : (Rule.frontend s.tuple verdict).print = "ip daddr " ++ Ipv4.print s.ip ++ " " ++
    s.protocol.nft ++ " dport " ++ toString s.port ++ " counter " ++ verdict.print := rfl
  have hspaces : "  ip daddr " = "  " ++ "ip daddr " := by decide
  unfold Frontend.destination
  rw [hprint, hspaces]
  simp only [String.append_assoc]

theorem original_eq : s.original = "  " ++ printOriginal s.tuple := by
  have hspaces : "  ct status dnat ct original ip daddr " =
    "  " ++ "ct status dnat ct original ip daddr " := by decide
  unfold Frontend.original printOriginal
  rw [hspaces]
  simp only [String.append_assoc]
  rfl

theorem line_outside (cidrs : String) :
    "  " ++ (Rule.outside s.tuple cidrs).print ++ "\n" =
      s.original ++ " ip saddr != \x7b " ++ cidrs ++ " \x7d counter masquerade\n" := by
  have hprint : (Rule.outside s.tuple cidrs).print = printOriginal s.tuple ++
    " ip saddr != \x7b " ++ cidrs ++ " \x7d counter masquerade" := rfl
  have hend : " \x7d counter masquerade\n" = " \x7d counter masquerade" ++ "\n" := by decide
  rw [hprint, original_eq, hend]
  simp only [String.append_assoc]

theorem line_hairpin (b : Backend) :
    "  " ++ (Rule.hairpin s.tuple b).print ++ "\n" = s.hairpinRule b := by
  have hprint : (Rule.hairpin s.tuple b).print = printOriginal s.tuple ++ " ip saddr " ++
    Ipv4.print b.ip ++ " ip daddr " ++ Ipv4.print b.ip ++ " " ++ s.protocol.nft ++ " dport " ++
      toString b.port ++ " counter masquerade" := rfl
  have hend : " counter masquerade\n" = " counter masquerade" ++ "\n" := by decide
  unfold Frontend.hairpinRule
  rw [hprint, original_eq, hend]
  simp only [String.append_assoc]

theorem line_balance : "  " ++ (s.balanceRule digest).print ++ "\n" = s.balance digest := by
  have hjump : "  jump " = "  " ++ "jump " := by decide
  have hnumgen : "  numgen random mod " = "  " ++ "numgen random mod " := by decide
  have hend : " \x7d\n" = " \x7d" ++ "\n" := by decide
  have hmany : ∀ backends : List Backend,
      "  " ++ (Rule.balance s.backends.card
        (backends.zipIdx.map fun e => (e.2, endpointChain digest s e.1))).print ++ "\n" =
      "  numgen random mod " ++ toString s.backends.card ++ " vmap \x7b " ++
        ", ".intercalate (backends.zipIdx.map fun e =>
          toString e.2 ++ " : jump " ++ endpointChain digest s e.1) ++ " \x7d\n" := by
    intro backends
    have hprint : ∀ entries, (Rule.balance s.backends.card entries).print =
        "numgen random mod " ++ toString s.backends.card ++ " vmap \x7b " ++ ", ".intercalate
          (entries.map fun e => toString e.1 ++ " : jump " ++ e.2) ++ " \x7d" := fun _ => rfl
    rw [hnumgen, hend, hprint, List.map_map]
    simp only [String.append_assoc]
    rfl
  unfold Frontend.balanceRule Frontend.balance
  cases hordered : s.ordered with
  | nil => exact hmany []
  | cons b rest =>
    cases rest with
    | nil =>
      change "  " ++ ("jump " ++ endpointChain digest s b) ++ "\n" =
        "  jump " ++ endpointChain digest s b ++ "\n"
      rw [hjump]
      simp only [String.append_assoc]
    | cons c rest => exact hmany (b :: c :: rest)

end Lines

/-- The lines of the frontends that are kept. -/
theorem join_lines (services : List Frontend) (p : Frontend → Bool) {f : Frontend → String}
    (rules : Frontend → List Rule) (hnone : ∀ s, p s = false → f s = "")
    (hlines : ∀ s, p s = true → f s =
      String.join ((rules s).map fun r => "  " ++ r.print ++ "\n")) :
    String.join (services.map f) = String.join
      (((services.filter p).flatMap rules).map fun r => "  " ++ r.print ++ "\n") := by
  rw [join_filter services fun s _ => hnone s, join_flatMap]
  apply congrArg
  apply List.map_congr_left
  intro s hs
  exact hlines s (List.mem_filter.mp hs).2

theorem print_plain (name : String) (rules : List Rule) :
    (⟨name, none, false, rules⟩ : Chain).print = " chain " ++ name ++ " \x7b\n" ++
      String.join (rules.map fun r => "  " ++ r.print ++ "\n") ++ " \x7d\n" := by
  have hopen : " \x7b\n" = " \x7b" ++ "" ++ "\n" := by decide
  rw [hopen]
  change " chain " ++ name ++ " \x7b" ++ "" ++ ("\n" ++ _) ++ _ = _
  simp only [String.append_assoc, String.empty_append]

theorem print_based (name kind hook priority : String) (rules : List Rule) :
    (⟨name, some ⟨kind, hook, priority⟩, false, rules⟩ : Chain).print = " chain " ++ name ++
      " \x7b type " ++ kind ++ " hook " ++ hook ++ " priority " ++ priority ++
        "; policy accept;\n" ++ String.join (rules.map fun r => "  " ++ r.print ++ "\n") ++
          " \x7d\n" := by
  have hopen : " \x7b type " = " \x7b" ++ " type " := by decide
  have hend : "; policy accept;\n" = "; policy accept;" ++ "\n" := by decide
  rw [hopen, hend]
  change " chain " ++ name ++ " \x7b" ++ (" type " ++ kind ++ " hook " ++ hook ++ " priority " ++
    priority ++ "; policy accept;") ++ ("\n" ++ _) ++ _ = _
  simp only [String.append_assoc]

theorem print_services (services : List Frontend) : (servicesChain services).print =
    " chain services \x7b\n" ++ String.join (services.map Frontend.jumpRule) ++ " \x7d\n" := by
  have hopen : " chain services \x7b\n" = " chain " ++ "services" ++ " \x7b\n" := by decide
  unfold servicesChain serving
  rw [List.map_eq_flatMap (l := services.filter fun s => s.backends ≠ ∅), print_plain, hopen,
    join_lines services (fun s => s.backends ≠ ∅) fun s => [.frontend s.tuple (.jump s.id)]]
  · intro s hs
    exact if_pos (by simpa using hs)
  · intro s hs
    have hline := line_frontend s (.jump s.id)
    unfold Frontend.jumpRule
    rw [if_neg (by simpa using hs), List.map_singleton, String.join_cons, String.join_nil,
      String.append_empty, hline]
    unfold Verdict.print
    simp only [String.append_assoc]

theorem print_reject (services : List Frontend) (hook : String) :
    (rejectChain services hook).print = rejectHook services hook := by
  have hend : " priority -10; policy accept;\n" =
    " priority " ++ "-10" ++ "; policy accept;\n" := by decide
  have htype : " \x7b type filter hook " = " \x7b type " ++ "filter" ++ " hook " := by decide
  have hname : " chain reject_" = " chain " ++ "reject_" := by decide
  unfold rejectChain idle rejectHook
  rw [List.map_eq_flatMap (l := services.filter fun s => s.backends = ∅), print_based, hend, htype,
    hname, join_lines services (fun s => s.backends = ∅) fun s => [.frontend s.tuple s.refusal]]
  · simp only [String.append_assoc]
  · intro s hs
    exact if_neg (by simpa using hs)
  · intro s hs
    have hline := line_frontend s s.refusal
    unfold Frontend.rejectRule
    rw [if_pos (by simpa using hs), List.map_singleton, String.join_cons, String.join_nil,
      String.append_empty, hline]
    unfold Frontend.refusal
    cases s.localOnly <;> rfl

theorem print_postrouting (services : List Frontend) (cidrs : String) :
    (postrouting services cidrs).print =
      " chain postrouting \x7b type nat hook postrouting priority 90; policy accept;\n" ++
        String.join (services.map (Frontend.masqueradeRules · cidrs)) ++ " \x7d\n" := by
  have hopen : " chain postrouting \x7b type nat hook postrouting priority 90; policy accept;\n" =
    " chain " ++ "postrouting" ++ " \x7b type " ++ "nat" ++ " hook " ++ "postrouting" ++
      " priority " ++ "90" ++ "; policy accept;\n" := by decide
  unfold postrouting serving
  rw [print_based, hopen, join_lines services (fun s => s.backends ≠ ∅) fun s =>
    .outside s.tuple cidrs :: s.ordered.map (.hairpin s.tuple)]
  · intro s hs
    exact if_pos (by simpa using hs)
  · intro s hs
    have hpeers : (s.ordered.map (Rule.hairpin s.tuple)).map (fun r => "  " ++ r.print ++ "\n") =
        s.ordered.map s.hairpinRule := by
      rw [List.map_map]
      exact List.map_congr_left fun b _ => line_hairpin s b
    unfold Frontend.masqueradeRules
    rw [if_neg (by simpa using hs), List.map_cons, String.join_cons, line_outside, hpeers]

/-- A chain of one rule, on one line. -/
theorem print_inline (name : String) (base : Option Base) (r : Rule) :
    (⟨name, base, true, [r]⟩ : Chain).print = " chain " ++ name ++ " \x7b" ++
      (base.map Base.print).getD "" ++ " " ++ r.print ++ "; \x7d\n" := by
  have hend : "; \x7d\n" = ";" ++ " \x7d\n" := by decide
  rw [hend]
  change " chain " ++ name ++ " \x7b" ++ (base.map Base.print).getD "" ++
    String.join [" " ++ r.print ++ ";"] ++ " \x7d\n" = _
  rw [String.join_cons, String.join_nil, String.append_empty]
  simp only [String.append_assoc]

theorem print_nat (hook : String) : (natChain hook).print = natHook hook := by
  have hend : " priority -100; policy accept; jump services; \x7d\n" = " priority " ++ "-100" ++
    "; policy accept;" ++ (" " ++ ("jump " ++ "services") ++ "; \x7d\n") := by decide
  have htype : " \x7b type nat hook " = " \x7b" ++ " type " ++ "nat" ++ " hook " := by decide
  have hname : " chain nat_" = " chain " ++ "nat_" := by decide
  unfold natHook natChain
  rw [print_inline, hend, htype, hname]
  change " chain " ++ ("nat_" ++ hook) ++ " \x7b" ++ (" type " ++ "nat" ++ " hook " ++ hook ++
    " priority " ++ "-100" ++ "; policy accept;") ++ " " ++ ("jump " ++ "services") ++ _ = _
  simp only [String.append_assoc]

theorem print_backend (s : Frontend) (b : Backend) :
    (s.backendChain digest b).print = s.endpointRule digest b := by
  have htype : " \x7b meta l4proto " = " \x7b" ++ " " ++ "meta l4proto " := by decide
  unfold Frontend.endpointRule Frontend.backendChain
  rw [print_inline, htype]
  change " chain " ++ _ ++ " \x7b" ++ "" ++ " " ++ ("meta l4proto " ++ s.protocol.nft ++
    " counter dnat to " ++ Ipv4.print b.ip ++ ":" ++ toString b.port) ++ _ = _
  simp only [String.append_assoc, String.empty_append]

/-- The chains of a frontend. -/
theorem print_chains (s : Frontend) : String.join
    ((s.chain digest :: s.ordered.map (s.backendChain digest)).map Chain.print) =
      s.chains digest := by
  have hbackends : (s.ordered.map (s.backendChain digest)).map Chain.print =
      s.ordered.map (s.endpointRule digest) := by
    rw [List.map_map]
    exact List.map_congr_left fun b _ => print_backend digest s b
  have hown : (s.chain digest).print =
      " chain " ++ s.id ++ " \x7b\n" ++ s.balance digest ++ " \x7d\n" := by
    unfold Frontend.chain
    rw [print_plain, List.map_singleton, String.join_cons, String.join_nil, String.append_empty,
      line_balance]
  unfold Frontend.chains
  rw [List.map_cons, String.join_cons, hown, hbackends]

theorem addChains_text {out out' : String} {services : List Frontend}
    (h : services.foldlM (addChains digest) out = .ok out') :
    out' = out ++ String.join ((serving services).map (Frontend.chains digest)) := by
  induction services generalizing out with
  | nil =>
    obtain rfl := Except.ok.inj h
    exact String.append_empty.symm
  | cons s services ih =>
    obtain ⟨next, hnext, h⟩ := Fallible.bind_eq_ok.mp h
    rw [ih h]
    unfold addChains at hnext
    unfold serving
    by_cases hnone : s.backends = ∅
    · rw [if_pos hnone] at hnext
      rw [List.filter_cons_of_neg (by simpa using hnone), Except.ok.inj hnext]
    · rw [if_neg hnone] at hnext
      obtain ⟨_, _, hnext⟩ := Fallible.bind_eq_ok.mp hnext
      rw [List.filter_cons_of_pos (by simpa using hnone), ← Except.ok.inj hnext, List.map_cons,
        String.join_cons, String.append_assoc]

/-- The text is that of the chains. -/
theorem Plan.render_prints {p : Plan} {owner text : String}
    (h : p.render digest owner = .ok text) : text = (p.ruleset digest).print owner := by
  obtain ⟨_, _, h⟩ := Fallible.bind_eq_ok.mp h
  obtain ⟨out, hout, h⟩ := Fallible.bind_eq_ok.mp h
  obtain ⟨_, _, h⟩ := Fallible.bind_eq_ok.mp h
  obtain rfl := Except.ok.inj h
  rw [addChains_text digest hout]
  have hchains : String.join (((serving p.services).flatMap fun s =>
      s.chain digest :: s.ordered.map (s.backendChain digest)).map Chain.print) =
        String.join ((serving p.services).map (Frontend.chains digest)) := by
    rw [join_flatMap]
    simp only [print_chains]
  unfold Ruleset.print Plan.ruleset Plan.hooks
  rw [List.map_append, List.map_append, List.map_append, List.map_append, String.join_append,
    String.join_append, String.join_append, String.join_append, hchains, List.map_map, List.map_map]
  have hnat : Chain.print ∘ natChain = natHook := funext print_nat
  have hreject : Chain.print ∘ rejectChain p.services = rejectHook p.services :=
    funext (print_reject p.services)
  rw [hnat, hreject, List.map_singleton, List.map_singleton, print_services, print_postrouting]
  simp only [String.join_cons, String.join_nil, String.append_empty, String.append_assoc]

end

end Hedronetes.Proxy
