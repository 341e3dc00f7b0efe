import Hedronetes.Network.Ipv4
import Hedronetes.Network.NodeCidrs

/-!
# Allocating node address ranges

The ledger stays valid over every run of reservations. The next free range of the pool can be
reserved, and there is none only when all of them are held.
-/

namespace Hedronetes.Network

open FirstMatch

namespace Net

/-- The range of this length that starts here. -/
def at? (addr len : ℕ) : Option Net :=
  if h : addr < 2 ^ 32 ∧ len ≤ 32 then some ⟨addr, len, h.1, h.2⟩ else none

/-- `Ipv4Net::subnets`: the ranges of this length in the pool, in order. -/
def subnets (pool : Net) (len : ℕ) : List Net :=
  (List.range (2 ^ (len - pool.len))).filterMap fun i =>
    at? (pool.network + i * 2 ^ (32 - len)) len

variable {pool net : Net} {len : ℕ}

theorem at?_eq_some {addr : ℕ} : at? addr len = some net ↔ net.addr = addr ∧ net.len = len := by
  unfold at?
  split_ifs with h
  · rw [Option.some.injEq]
    constructor
    · rintro rfl
      exact ⟨rfl, rfl⟩
    · rintro ⟨rfl, rfl⟩
      rfl
  · constructor
    · intro hnone
      cases hnone
    · rintro ⟨rfl, rfl⟩
      exact absurd ⟨net.addr_lt, net.len_le⟩ h

theorem length_subnets_le : (pool.subnets len).length ≤ 2 ^ (len - pool.len) := by
  have hle := List.length_filterMap_le
    (fun i => at? (pool.network + i * 2 ^ (32 - len)) len) (List.range (2 ^ (len - pool.len)))
  rwa [List.length_range] at hle

/-- A pool is as long as its ranges of one length together. -/
theorem size_eq (hlen : pool.len ≤ net.len) : pool.size = 2 ^ (net.len - pool.len) * net.size := by
  have hle := net.len_le
  rw [size, size, ← pow_add]
  congr 1
  omega

/-- The ranges of one length in the pool are those that start in it at their own addresses. -/
theorem mem_subnets (hlen : pool.len ≤ len) : net ∈ pool.subnets len ↔
    net.len = len ∧ net.addr = net.network ∧ pool.contains net.network := by
  unfold subnets
  rw [List.mem_filterMap]
  simp only [List.mem_range, at?_eq_some]
  constructor
  · rintro ⟨i, hi, haddr, rfl⟩
    have hsize := size_eq hlen
    have hpool : pool.network = pool.addr / pool.size * 2 ^ (net.len - pool.len) * net.size := by
      rw [network, Nat.mul_assoc, ← hsize]
    have hblock : net.addr = (pool.addr / pool.size * 2 ^ (net.len - pool.len) + i) * net.size := by
      rw [Nat.add_mul, ← hpool, haddr]
      rfl
    have hnetwork : net.network = net.addr := by
      rw [network, hblock, Nat.mul_div_cancel _ net.size_pos]
    refine ⟨rfl, hnetwork.symm, ?_⟩
    unfold contains broadcast
    have hlt := Nat.mul_lt_mul_of_pos_right hi net.size_pos
    rw [← hsize] at hlt
    rw [hnetwork, haddr]
    change _ ∧ pool.network + i * net.size ≤ _
    omega
  · rintro ⟨rfl, haddr, hlow, hhigh⟩
    have hsize := size_eq hlen
    have hpool : pool.network = pool.addr / pool.size * 2 ^ (net.len - pool.len) * net.size := by
      rw [network, Nat.mul_assoc, ← hsize]
    have hpos := pool.size_pos
    unfold broadcast at hhigh
    rw [hpool] at hlow hhigh
    rw [network] at haddr hlow hhigh
    -- the blocks of the range are numbered from the first one of the pool
    have hfirst := Nat.le_of_mul_le_mul_right hlow net.size_pos
    have hend : net.addr / net.size * net.size <
        (pool.addr / pool.size * 2 ^ (net.len - pool.len) + 2 ^ (net.len - pool.len)) *
          net.size := by
      rw [Nat.add_mul, ← hsize]
      omega
    have hlast := Nat.lt_of_mul_lt_mul_right hend
    refine ⟨net.addr / net.size - pool.addr / pool.size * 2 ^ (net.len - pool.len), by omega, ?_,
      rfl⟩
    change _ = _ + _ * net.size
    rw [hpool, ← Nat.add_mul, Nat.add_sub_cancel' hfirst]
    exact haddr

end Net

namespace NodeCidrAllocations

variable (text : NetText) (state : NodeCidrAllocations)

/-- The ledger of a pool without reservations. -/
def new (clusterCidr : String) (nodePrefix : ℕ) : Except String NodeCidrAllocations := do
  let result : NodeCidrAllocations := ⟨1, clusterCidr, nodePrefix, [], List.Pairwise.nil⟩
  result.validate text
  return result

/-- The range of the Node, or the first one that is not reserved. -/
def next (name : String) : Except String String := do
  state.validate text
  match lookup name state.reservations with
  | some cidr => .ok cidr
  | none =>
    let pool ← state.pool text
    if state.nodePrefix < pool.len ∨ 32 < state.nodePrefix then .error "invalid node prefix"
    else match ((pool.subnets state.nodePrefix).map text.print).find? fun cidr =>
        cidr ∉ state.reservations.map Prod.snd with
    | some cidr => .ok cidr
    | none =>
      .error "node CIDR pool exhausted; retained reservations require operator investigation"

/-- The ledgers of a pool after any reservations. -/
inductive Reachable (clusterCidr : String) (nodePrefix : ℕ) : NodeCidrAllocations → Prop
  | start {state : NodeCidrAllocations} (h : new text clusterCidr nodePrefix = .ok state) :
    Reachable clusterCidr nodePrefix state
  | reserve {state : NodeCidrAllocations} {name cidr : String}
    {result : Option NodeCidrAllocations} (h : Reachable clusterCidr nodePrefix state)
    (hreserve : state.reserve text name cidr = .ok result) :
    Reachable clusterCidr nodePrefix (result.getD state)

variable {text state} {clusterCidr name cidr : String} {nodePrefix : ℕ} {pool net : Net}

/-! ## Valid ledgers -/

theorem Reachable.sound (h : Reachable text clusterCidr nodePrefix state) : state.Sound text := by
  induction h with
  | start h =>
    obtain ⟨_, hvalid, h⟩ := Fallible.bind_eq_ok.mp h
    rw [← Except.ok.inj h]
    exact sound_of_validate hvalid
  | @reserve state name cidr result _ hreserve ih =>
    cases result with
    | none => exact ih
    | some state' => exact (ih.reserve hreserve).1

theorem distinct_of_sound {used : List Net} {rs : List (String × String)}
    (hranges : ∀ e ∈ rs, validNodeName e.1 = true ∧ ∃ net, state.subnet text e.2 = .ok net ∧ net ∉ used)
    (hnodup : (rs.map Prod.snd).Nodup) : state.distinct text used rs = .ok () := by
  induction rs generalizing used with
  | nil => rfl
  | cons e rs ih =>
    obtain ⟨hname, net, hnet, hused⟩ := hranges e List.mem_cons_self
    rw [List.map_cons, List.nodup_cons] at hnodup
    have hrest : state.distinct text (net :: used) rs = .ok () := by
      apply ih _ hnodup.2
      intro other hother
      obtain ⟨hvalid, net', hnet', hused'⟩ := hranges other (List.mem_cons_of_mem e hother)
      refine ⟨hvalid, net', hnet', ?_⟩
      intro hmem
      rcases List.mem_cons.mp hmem with rfl | hmem
      · have hsame : other.2 = e.2 := by
          rw [← (subnet_ok hnet).2.1, ← (subnet_ok hnet').2.1]
        exact hnodup.1 (hsame ▸ List.mem_map_of_mem hother)
      · exact hused' hmem
    unfold distinct
    rw [if_neg (by simp [hname])]
    refine Fallible.bind_eq_ok.mpr ⟨net, hnet, ?_⟩
    rw [if_neg hused]
    exact hrest

theorem subnet_mem (hpool : state.pool text = .ok pool) (h : state.subnet text cidr = .ok net) :
    net ∈ pool.subnets state.nodePrefix := by
  obtain ⟨_, _, hlen, haddr, pool', hpool', hcontains⟩ := subnet_ok h
  obtain rfl := Except.ok.inj (hpool.symm.trans hpool')
  exact (Net.mem_subnets (pool_ok hpool).2.2.2.1).mpr ⟨hlen, haddr, hcontains⟩

/-- Different reservations are different ranges of the pool, so there are not more of them. -/
theorem Sound.length_le (h : state.Sound text) (hpool : state.pool text = .ok pool) :
    state.reservations.length ≤ 2 ^ (state.nodePrefix - pool.len) := by
  have hsub : state.reservations.map Prod.snd ⊆
      (pool.subnets state.nodePrefix).map text.print := by
    intro cidr hcidr
    obtain ⟨e, he, rfl⟩ := List.mem_map.mp hcidr
    obtain ⟨_, net, hnet⟩ := h.ranges e he
    rw [← (subnet_ok hnet).2.1]
    exact List.mem_map_of_mem (subnet_mem hpool hnet)
  have hle := (List.subperm_of_subset h.distinct hsub).length_le
  rw [List.length_map, List.length_map] at hle
  exact hle.trans Net.length_subnets_le

/-- What the checks ask for is all that a ledger is checked for. -/
theorem Sound.validate (h : state.Sound text) : state.validate text = .ok () := by
  obtain ⟨pool, hpool⟩ := h.pool
  unfold NodeCidrAllocations.validate
  refine Fallible.bind_eq_ok.mpr ⟨pool, hpool, ?_⟩
  rw [if_neg (not_lt.mpr (h.length_le hpool))]
  apply distinct_of_sound _ h.distinct
  intro e he
  obtain ⟨hname, net, hnet⟩ := h.ranges e he
  exact ⟨hname, net, hnet, by simp⟩

/-! ## The next range -/

/-- What is looked for among the ranges of the pool. -/
def unreserved (text : NetText) (state : NodeCidrAllocations) (pool : Net) : Option String :=
  ((pool.subnets state.nodePrefix).map text.print).find? fun cidr =>
    cidr ∉ state.reservations.map Prod.snd

theorem Sound.next_eq (h : state.Sound text) (hpool : state.pool text = .ok pool) (name : String) :
    state.next text name = match (lookup name state.reservations).or (unreserved text state pool) with
      | some cidr => .ok cidr
      | none =>
        .error "node CIDR pool exhausted; retained reservations require operator investigation" := by
  obtain ⟨_, _, _, hlen, hle⟩ := pool_ok hpool
  unfold next
  rw [h.validate]
  cases lookup name state.reservations with
  | some cidr => rfl
  | none =>
    change (state.pool text >>= _) = _
    rw [hpool]
    change (if _ then _ else _) = _
    rw [if_neg (by omega)]
    rfl

theorem unreserved_some (hlawful : ∀ n, text.parse (text.print n) = some n)
    (hpool : state.pool text = .ok pool) (h : unreserved text state pool = some cidr) :
    (∃ net, state.subnet text cidr = .ok net) ∧ cidr ∉ state.reservations.map Prod.snd := by
  obtain ⟨net, hnet, rfl⟩ := List.mem_map.mp (List.mem_of_find?_eq_some h)
  obtain ⟨hlen, haddr, hcontains⟩ := (Net.mem_subnets (pool_ok hpool).2.2.2.1).mp hnet
  refine ⟨⟨net, ?_⟩, by simpa using List.find?_some h⟩
  unfold subnet
  rw [hlawful]
  simp only [hlen, haddr.symm, ne_eq, not_true, or_self, if_false, hpool]
  change (if pool.contains net.addr then pure net else throw _) = _
  rw [haddr, if_pos hcontains]
  rfl

/-- Every range of the pool is reserved if none is left. -/
theorem unreserved_none (hpool : state.pool text = .ok pool)
    (h : unreserved text state pool = none) (hlen : net.len = state.nodePrefix)
    (haddr : net.addr = net.network) (hcontains : pool.contains net.network) :
    ∃ holder, lookup holder state.reservations = some (text.print net) := by
  have hmem : net ∈ pool.subnets state.nodePrefix :=
    (Net.mem_subnets (pool_ok hpool).2.2.2.1).mpr ⟨hlen, haddr, hcontains⟩
  have hused := List.find?_eq_none.mp h _ (List.mem_map_of_mem hmem)
  simp only [decide_eq_true_eq, not_not] at hused
  obtain ⟨e, he, hcidr⟩ := List.mem_map.mp hused
  exact ⟨e.1, hcidr ▸ lookup_of_mem state.sorted he⟩

/-- A range that is not reserved yet can be reserved for a new name. -/
theorem reserve_new (hname : validNodeName name = true) (hnet : state.subnet text cidr = .ok net)
    (hlookup : lookup name state.reservations = none)
    (hfree : cidr ∉ state.reservations.map Prod.snd) :
    ∃ result, state.reserve text name cidr = .ok result := by
  have hany : state.reservations.any (fun e => e.2 = cidr) = false := by
    rw [List.any_eq_false]
    intro e he
    simp only [decide_eq_true_eq]
    rintro rfl
    exact hfree (List.mem_map_of_mem he)
  unfold reserve
  rw [if_neg (by simp [hname])]
  exact ⟨_, Fallible.bind_eq_ok.mpr ⟨net, hnet, by rw [hlookup]; simp only [hany]; rfl⟩⟩

theorem reserve_own (h : state.Sound text) (hlookup : lookup name state.reservations = some cidr) :
    ∃ result, state.reserve text name cidr = .ok result := by
  obtain ⟨hname, net, hnet⟩ := h.ranges _ (mem_of_lookup hlookup)
  unfold reserve
  rw [if_neg (by simpa using hname)]
  exact ⟨_, Fallible.bind_eq_ok.mpr ⟨net, hnet, by rw [hlookup]; exact if_pos rfl⟩⟩

/-- After any reservations the ledger is valid: its ranges are aligned ranges of the pool, apart
from each other. For a valid name the next range can be reserved and meets no other, a name that
has a range gets it again, and there is no next range only when all are reserved. -/
theorem node_cidrs_allocated (hlawful : ∀ n, text.parse (text.print n) = some n)
    (h : Reachable text clusterCidr nodePrefix state) :
    state.validate text = .ok () ∧
    ∃ pool, state.pool text = .ok pool ∧
      (∀ name cidr, lookup name state.reservations = some cidr → ∃ net,
        text.parse cidr = some net ∧ net.addr = net.network ∧ net.len = state.nodePrefix ∧
          net.Inside pool) ∧
      (∀ name name' cidr cidr', name ≠ name' → lookup name state.reservations = some cidr →
        lookup name' state.reservations = some cidr' → ∃ net net',
          text.parse cidr = some net ∧ text.parse cidr' = some net' ∧ net.Disjoint net') ∧
      (∀ name cidr, validNodeName name = true → state.next text name = .ok cidr →
        (∃ result, state.reserve text name cidr = .ok result) ∧
        ∃ net, text.parse cidr = some net ∧ ∀ other held, other ≠ name →
          lookup other state.reservations = some held →
          ∃ net', text.parse held = some net' ∧ net.Disjoint net') ∧
      (∀ name own, lookup name state.reservations = some own → state.next text name = .ok own) ∧
      ∀ name e, state.next text name = .error e → ∀ net : Net, net.len = state.nodePrefix →
        net.addr = net.network → pool.contains net.network →
        ∃ holder, lookup holder state.reservations = some (text.print net) := by
  have hsound := h.sound
  obtain ⟨pool, hpool⟩ := hsound.pool
  refine ⟨hsound.validate, pool, hpool, ?_, ?_, ?_, ?_, ?_⟩
  · intro name cidr hlookup
    obtain ⟨_, net, hnet⟩ := hsound.ranges _ (mem_of_lookup hlookup)
    obtain ⟨hparse, _, hlen, haddr, _⟩ := subnet_ok hnet
    exact ⟨net, hparse, haddr, hlen, subnet_inside hnet hpool⟩
  · intro name name' cidr cidr' hne hcidr hcidr'
    exact hsound.disjoint hne hcidr hcidr'
  · intro name cidr hname hnext
    rw [hsound.next_eq hpool] at hnext
    cases hlookup : lookup name state.reservations with
    | some own =>
      rw [hlookup] at hnext
      obtain rfl := Except.ok.inj hnext
      refine ⟨reserve_own hsound hlookup, ?_⟩
      obtain ⟨_, net, hnet⟩ := hsound.ranges _ (mem_of_lookup hlookup)
      refine ⟨net, (subnet_ok hnet).1, ?_⟩
      intro other held hne hheld
      obtain ⟨net', other', hparse, hparse', hdisjoint⟩ := hsound.disjoint hne.symm hlookup hheld
      obtain rfl := Option.some.inj ((subnet_ok hnet).1.symm.trans hparse)
      exact ⟨other', hparse', hdisjoint⟩
    | none =>
      rw [hlookup, Option.none_or] at hnext
      cases hfound : unreserved text state pool with
      | none =>
        rw [hfound] at hnext
        cases hnext
      | some found =>
        rw [hfound] at hnext
        obtain rfl := Except.ok.inj hnext
        obtain ⟨⟨net, hnet⟩, hfree⟩ := unreserved_some hlawful hpool hfound
        refine ⟨reserve_new hname hnet hlookup hfree, net, (subnet_ok hnet).1, ?_⟩
        intro other held _ hheld
        obtain ⟨_, net', hnet'⟩ := hsound.ranges _ (mem_of_lookup hheld)
        refine ⟨net', (subnet_ok hnet').1, subnet_disjoint hnet hnet' ?_⟩
        rintro rfl
        exact hfree (List.mem_map_of_mem (mem_of_lookup hheld))
  · intro name own hlookup
    rw [hsound.next_eq hpool, hlookup]
    rfl
  · intro name e hnext net hlen haddr hcontains
    rw [hsound.next_eq hpool] at hnext
    cases hlookup : (lookup name state.reservations).or (unreserved text state pool) with
    | some cidr =>
      rw [hlookup] at hnext
      cases hnext
    | none => exact unreserved_none hpool (Option.or_eq_none_iff.mp hlookup).2 hlen haddr hcontains

/-! ## The text of a range -/

/-- The text after the slash, a number without leading zeros. -/
def parseLength (digits : List Char) : Option ℕ :=
  (List.range 33).find? fun len => Nat.toDigits 10 len = digits

def parseParts : List (List Char) → Option Net
  | [addr, len] => do
    let addr ← Ipv4.parse (String.ofList addr)
    let len ← parseLength len
    Net.at? addr len
  | _ => none

/-- `ipnet`'s form of a range: an address, a slash and a length. -/
def dotted : NetText where
  parse s := parseParts (s.toList.splitOn '/')
  print n := String.ofList ((Ipv4.print n.addr).toList ++ '/' :: Nat.toDigits 10 n.len)

theorem slash_notMem_print (ip : ℕ) : '/' ∉ (Ipv4.print ip).toList := by
  have hdigits := Ipv4.notMem_toDigits (show '/'.isDigit = false by decide)
  rw [Ipv4.print, String.toList_ofList]
  simp [Ipv4.octets, List.intercalate, hdigits]

theorem parseLength_toDigits {len : ℕ} (h : len ≤ 32) :
    parseLength (Nat.toDigits 10 len) = some len := by
  have hall : ∀ len < 33, parseLength (Nat.toDigits 10 len) = some len := by decide +kernel
  exact hall len (by omega)

theorem dotted_lawful (n : Net) : dotted.parse (dotted.print n) = some n := by
  have hsplit : (dotted.print n).toList.splitOn '/' =
      [(Ipv4.print n.addr).toList, Nat.toDigits 10 n.len] := by
    have hjoin : (dotted.print n).toList =
        ['/'].intercalate [(Ipv4.print n.addr).toList, Nat.toDigits 10 n.len] := by
      simp [dotted, List.intercalate]
    rw [hjoin]
    apply List.splitOn_intercalate
    · intro l hl
      simp only [List.mem_cons, List.not_mem_nil, or_false] at hl
      rcases hl with rfl | rfl
      · exact slash_notMem_print n.addr
      · exact Ipv4.notMem_toDigits (by decide) n.len
    · simp
  have hparse : ∀ s, dotted.parse s = parseParts (s.toList.splitOn '/') := fun _ => rfl
  rw [hparse, hsplit, parseParts, String.ofList_toList, Ipv4.parse_print n.addr_lt,
    parseLength_toDigits n.len_le]
  exact Net.at?_eq_some.mpr ⟨rfl, rfl⟩

theorem ok_of_toOption {α ε : Type} {x : Except ε α} {a : α} (h : x.toOption = some a) :
    x = .ok a := by
  cases x with
  | error e => cases h
  | ok b => rw [Option.some.inj h]

/-- The ledger of 10.42.0.0/30 gives its one range. -/
theorem last_range_given :
    (NodeCidrAllocations.mk 1 "10.42.0.0/30" 30 [] List.Pairwise.nil).validate dotted = .ok () ∧
    ∃ result, (NodeCidrAllocations.mk 1 "10.42.0.0/30" 30 [] List.Pairwise.nil).reserve dotted "a"
      "10.42.0.0/30" = .ok result := by
  have hstart : new dotted "10.42.0.0/30" 30 =
      .ok ⟨1, "10.42.0.0/30", 30, [], List.Pairwise.nil⟩ := ok_of_toOption (by decide +kernel)
  obtain ⟨hvalid, pool, _, _, _, hnext, _⟩ :=
    node_cidrs_allocated dotted_lawful (.start hstart)
  exact ⟨hvalid, (hnext "a" "10.42.0.0/30" (by decide +kernel)
    (ok_of_toOption (by decide +kernel))).1⟩

/-- A name that no Node can have is given a range that it cannot reserve. -/
theorem odd_name_given_range : ∃ state, new dotted "10.42.0.0/30" 30 = .ok state ∧
    state.next dotted "a_b" = .ok "10.42.0.0/30" ∧
    state.reserve dotted "a_b" "10.42.0.0/30" = .error "invalid node name" := by
  refine ⟨⟨1, "10.42.0.0/30", 30, [], List.Pairwise.nil⟩, ok_of_toOption (by decide +kernel),
    ok_of_toOption (by decide +kernel), ?_⟩
  exact if_pos (by decide +kernel)

end NodeCidrAllocations

end Hedronetes.Network
