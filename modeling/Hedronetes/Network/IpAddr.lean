import Hedronetes.Network.Ipv4

/-!
# Addresses of both families

Texts of IPv4 and IPv6 addresses, and the ranges that no Pod is reached at.
-/

namespace Hedronetes.Network

inductive IpAddr
  | v4 (ip : ℕ)
  | v6 (ip : ℕ)
  deriving DecidableEq

namespace IpAddr

/-! ## IPv6 -/

/-- The eight groups of sixteen bits. -/
def segments (ip : ℕ) : List ℕ := (List.range 8).map fun i => ip / 2 ^ (16 * (7 - i)) % 2 ^ 16

def ofSegments (groups : List ℕ) : ℕ := groups.foldl (fun ip group => ip * 2 ^ 16 + group) 0

/-- All digits that follow, at most `most` of them. -/
def readDigits (isDigit : Char → Bool) (most : ℕ) (s : List Char) : Option (List Char × List Char) :=
  let (digits, rest) := s.span isDigit
  if digits = [] ∨ most < digits.length then none else some (digits, rest)

def isHexDigit (ch : Char) : Bool := ch.isDigit || ('a' ≤ ch && ch ≤ 'f') || ('A' ≤ ch && ch ≤ 'F')

def hexDigit (ch : Char) : ℕ :=
  if ch.isDigit then ch.toNat - '0'.toNat
  else if 'a' ≤ ch then ch.toNat - 'a'.toNat + 10 else ch.toNat - 'A'.toNat + 10

def readGroup (s : List Char) : Option (ℕ × List Char) :=
  (readDigits isHexDigit 4 s).map fun (digits, rest) =>
    (digits.foldl (fun n ch => n * 16 + hexDigit ch) 0, rest)

/-- One of several parts, behind a separator unless it is the first. -/
def separated {α : Type} (separator : Char) (first : Bool) (read : List Char → Option α)
    (s : List Char) : Option α :=
  if first then read s
  else match s with
    | ch :: rest => if ch = separator then read rest else none
    | [] => none

def readOctet (s : List Char) : Option (ℕ × List Char) :=
  (readDigits Char.isDigit 3 s).bind fun (digits, rest) => (Ipv4.octet digits).map (·, rest)

def readIpv4 (s : List Char) : Option (ℕ × List Char) := do
  let (a, s) ← readOctet s
  let (b, s) ← separated '.' false readOctet s
  let (c, s) ← separated '.' false readOctet s
  let (d, s) ← separated '.' false readOctet s
  return (Ipv4.ofOctets a b c d, s)

/-- At most `limit` groups, the last two of them possibly an IPv4 address, and whether they are. -/
def readGroups : ℕ → Bool → List Char → List ℕ × Bool × List Char
  | 0, _, s => ([], false, s)
  | limit + 1, first, s =>
    match if 1 ≤ limit then separated ':' first readIpv4 s else none with
    | some (ip, rest) => ([ip / 2 ^ 16, ip % 2 ^ 16], true, rest)
    | none =>
      match separated ':' first readGroup s with
      | some (group, rest) =>
        let (groups, ipv4, rest) := readGroups limit false rest
        (group :: groups, ipv4, rest)
      | none => ([], false, s)

/-- Eight groups, or fewer around a double colon. -/
def parseIpv6 (s : List Char) : Option ℕ :=
  let (head, headIpv4, rest) := readGroups 8 true s
  if head.length = 8 then if rest = [] then some (ofSegments head) else none
  else if headIpv4 then none
  else match rest with
    | ':' :: ':' :: rest =>
      let (tail, _, rest) := readGroups (7 - head.length) true rest
      if rest = [] then
        some (ofSegments (head ++ List.replicate (8 - head.length - tail.length) 0 ++ tail))
      else none
    | _ => none

/-- The first of the longest runs of zero groups: where it starts and its length. -/
def zeroes (groups : List ℕ) : ℕ × ℕ :=
  (groups.zipIdx.foldl (fun (longest, current) (group, i) =>
    if group = 0 then
      let current := if current.2 = 0 then (i, 1) else (current.1, current.2 + 1)
      (if longest.2 < current.2 then current else longest, current)
    else (longest, (0, 0))) (((0, 0) : ℕ × ℕ), ((0, 0) : ℕ × ℕ))).1

def printGroups (groups : List ℕ) : List Char := [':'].intercalate (groups.map (Nat.toDigits 16))

/-- `to_ipv4_mapped`. -/
def ipv4Mapped (ip : ℕ) : Option ℕ := if ip / 2 ^ 32 = 2 ^ 16 - 1 then some (ip % 2 ^ 32) else none

def printIpv6 (ip : ℕ) : String :=
  match ipv4Mapped ip with
  | some ipv4 => "::ffff:" ++ Ipv4.print ipv4
  | none =>
    let groups := segments ip
    let (start, len) := zeroes groups
    String.ofList (if 1 < len then
      printGroups (groups.take start) ++ [':', ':'] ++ printGroups (groups.drop (start + len))
    else printGroups groups)

/-! ## Both families -/

/-- `parse::<IpAddr>`. -/
def parse (s : String) : Option IpAddr :=
  match Ipv4.parse s with
  | some ip => some (v4 ip)
  | none => (parseIpv6 s.toList).map v6

/-- `to_string`. -/
def print : IpAddr → String
  | v4 ip => Ipv4.print ip
  | v6 ip => printIpv6 ip

example : (parse "fd00:0:0:1::10.0.0.1").map print = some "fd00::1:0:0:a00:1" := by decide +kernel

example : (parse "::ffff:10.0.0.1").map print = some "::ffff:10.0.0.1" := by decide +kernel

example : parse "1::2::3" = none := by decide +kernel

def isIpv4 : IpAddr → Bool
  | v4 _ => true
  | v6 _ => false

def isLoopback : IpAddr → Bool
  | v4 ip => ip / 2 ^ 24 = 127
  | v6 ip => ip = 1

def isUnspecified : IpAddr → Bool
  | v4 ip => ip = 0
  | v6 ip => ip = 0

def isMulticast : IpAddr → Bool
  | v4 ip => ip / 2 ^ 28 = 14
  | v6 ip => ip / 2 ^ 120 = 255

/-- `Ipv4Addr::is_broadcast`. -/
def isBroadcast (ip : ℕ) : Bool := ip = 2 ^ 32 - 1

/-- `Ipv4Addr::is_link_local`. -/
def isLinkLocal (ip : ℕ) : Bool := ip / 2 ^ 16 = 169 * 256 + 254

/-- `Ipv6Addr::is_unicast_link_local`. -/
def isUnicastLinkLocal (ip : ℕ) : Bool := ip / 2 ^ 118 = 1018

end IpAddr

end Hedronetes.Network
