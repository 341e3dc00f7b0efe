import Hedronetes.Foundations.Fallible
import Hedronetes.Foundations.Json

/-!
# Node address ranges

The ledger of the ranges that Nodes hold: a pool, the length of a Node's range and
the reservations by Node name. How a range is written is a parameter; what it
covers is not. Ranges of one length that are written differently do not meet.
-/

namespace Hedronetes.Network

open FirstMatch

/-- An IPv4 range as it is written: an address and a length, not always canonical. -/
structure Net where
  addr : ℕ
  len : ℕ
  addr_lt : addr < 2 ^ 32
  len_le : len ≤ 32
  deriving DecidableEq

namespace Net

def size (n : Net) : ℕ := 2 ^ (32 - n.len)

def network (n : Net) : ℕ := n.addr / n.size * n.size

def broadcast (n : Net) : ℕ := n.network + (n.size - 1)

def contains (n : Net) (ip : ℕ) : Prop := n.network ≤ ip ∧ ip ≤ n.broadcast

instance (n : Net) (ip : ℕ) : Decidable (n.contains ip) :=
  inferInstanceAs (Decidable (_ ∧ _))

/-- No address is in both. -/
def Disjoint (a b : Net) : Prop := ∀ ip, ¬ (a.contains ip ∧ b.contains ip)

/-- Every address of the one is in the other. -/
def Inside (a b : Net) : Prop := ∀ ip, a.contains ip → b.contains ip

theorem size_pos (n : Net) : 0 < n.size := Nat.two_pow_pos _

/-- Ranges of one length that start at their own addresses are equal or apart. -/
theorem disjoint_of_ne {a b : Net} (hlen : a.len = b.len) (ha : a.addr = a.network)
    (hb : b.addr = b.network) (hne : a ≠ b) : a.Disjoint b := by
  have hsize : a.size = b.size := by rw [size, size, hlen]
  have hpos := b.size_pos
  have hstarts : a.network ≠ b.network := by
    intro hsame
    apply hne
    cases a
    cases b
    simp only [mk.injEq]
    exact ⟨ha.trans (hsame.trans hb.symm), hlen⟩
  rintro ip ⟨⟨hla, hua⟩, hlb, hub⟩
  unfold broadcast at hua hub
  simp only [network, hsize] at hla hua hlb hub hstarts
  -- the two blocks that hold the address have the same number
  rcases lt_trichotomy (a.addr / b.size) (b.addr / b.size) with hlt | heq | hgt
  · have := Nat.mul_le_mul_right b.size hlt
    rw [Nat.succ_mul] at this
    omega
  · exact hstarts (by rw [heq])
  · have := Nat.mul_le_mul_right b.size hgt
    rw [Nat.succ_mul] at this
    omega

/-- A range that starts in a shorter one lies in it. -/
theorem inside_of_contains {a b : Net} (hlen : b.len ≤ a.len) (h : b.contains a.network) :
    a.Inside b := by
  have hsize : b.size = 2 ^ (a.len - b.len) * a.size := by
    have := a.len_le
    rw [size, size, ← pow_add]
    congr 1
    omega
  have hpos := a.size_pos
  obtain ⟨hlow, hhigh⟩ := h
  unfold broadcast at hhigh
  have hend : a.network + a.size ≤ b.network + b.size := by
    have hsizes : b.network + b.size = (b.addr / b.size * 2 ^ (a.len - b.len) +
        2 ^ (a.len - b.len)) * a.size := by
      rw [network, Nat.add_mul, Nat.mul_assoc, ← hsize]
    have hbpos := b.size_pos
    have hlt : a.addr / a.size * a.size < (b.addr / b.size * 2 ^ (a.len - b.len) +
        2 ^ (a.len - b.len)) * a.size := by
      rw [← hsizes]
      change a.network < _
      omega
    have hblock := Nat.lt_of_mul_lt_mul_right hlt
    rw [hsizes, network]
    have := Nat.mul_le_mul_right a.size hblock
    rw [Nat.succ_mul] at this
    exact this
  rintro ip ⟨hl, hu⟩
  unfold broadcast at hu
  have hbpos := b.size_pos
  constructor
  · exact hlow.trans hl
  · unfold broadcast
    omega

end Net

/-- `is_private`: 10/8, 172.16/12 or 192.168/16. -/
def isPrivate (ip : ℕ) : Bool :=
  ip / 2 ^ 24 = 10 || ip / 2 ^ 20 = 172 * 16 + 1 || ip / 2 ^ 16 = 192 * 256 + 168

/-- The range of Service addresses, 10.43.0.0/16. -/
def serviceNet : Net := ⟨(10 * 256 + 43) * 2 ^ 16, 16, by decide, by decide⟩

/-- How a range is read and printed. -/
structure NetText where
  parse : String → Option Net
  print : Net → String

def validNodeLabel (label : List Char) : Bool :=
  label ≠ [] && decide (label.length ≤ 63) && label.head?.any Char.isAlphanum &&
    label.getLast?.any Char.isAlphanum &&
      label.all fun c => c.isLower || c.isDigit || c = '-'

def validNodeName (name : String) : Bool :=
  name ≠ "" && decide (name.utf8ByteSize ≤ 253) &&
    (name.toList.splitOn '.').all validNodeLabel

structure NodeCidrAllocations where
  version : ℕ
  clusterCidr : String
  nodePrefix : ℕ
  /-- Stable Node names own reservations, also after the Node is deleted. -/
  reservations : List (String × String)
  sorted : KeysSorted reservations
  deriving DecidableEq

namespace NodeCidrAllocations

variable (text : NetText) (state : NodeCidrAllocations)

def poolMessage : String :=
  "require a canonical private IPv4 pool, at most 4096 node subnets through /30, disjoint from Service CIDR 10.43.0.0/16"

def pool : Except String Net :=
  match text.parse state.clusterCidr with
  | none => .error "cluster CIDR must be IPv4"
  | some pool =>
    if state.version ≠ 1 ∨ text.print pool ≠ state.clusterCidr ∨ pool.addr ≠ pool.network ∨
        !isPrivate pool.network ∨ !isPrivate pool.broadcast ∨ state.nodePrefix < pool.len ∨
          30 < state.nodePrefix ∨ 12 < state.nodePrefix - pool.len ∨
            pool.contains serviceNet.network ∨ serviceNet.contains pool.network then
      .error poolMessage
    else .ok pool

def subnet (cidr : String) : Except String Net :=
  match text.parse cidr with
  | none => .error "invalid IPv4 node CIDR"
  | some subnet => do
    let message := "node CIDR must be a canonical subnet of the configured pool with its configured prefix"
    if subnet.len ≠ state.nodePrefix ∨ subnet.addr ≠ subnet.network ∨ text.print subnet ≠ cidr then
      throw message
    let pool ← state.pool text
    if pool.contains subnet.network then return subnet else throw message

/-- The reservations whose names or ranges are checked in turn, beside the ranges so far. -/
def distinct : List Net → List (String × String) → Except String Unit
  | _, [] => .ok ()
  | used, (name, cidr) :: rest =>
    if !validNodeName name then
      .error "invalid node name or duplicate node CIDR reservation"
    else do
      let subnet ← state.subnet text cidr
      if subnet ∈ used then .error "invalid node name or duplicate node CIDR reservation"
      else distinct (subnet :: used) rest

def validate : Except String Unit := do
  let pool ← state.pool text
  if 2 ^ (state.nodePrefix - pool.len) < state.reservations.length then
    throw "too many node CIDR reservations"
  state.distinct text [] state.reservations

/-- The ledger with the reservation, or none when it was there. -/
def reserve (name cidr : String) : Except String (Option NodeCidrAllocations) :=
  if !validNodeName name then .error "invalid node name"
  else do
    let _ ← state.subnet text cidr
    match lookup name state.reservations with
    | some old => if old = cidr then return none else throw "node CIDR reservation is immutable"
    | none =>
      if state.reservations.any fun e => e.2 = cidr then
        throw "node CIDR is reserved by another node"
      else
        return some { state with
          reservations := insertKey name cidr state.reservations
          sorted := state.sorted.insertKey }

/-! ## The stored form -/

def toJson : Json :=
  .object [("cluster_cidr", .string state.clusterCidr),
    ("node_prefix", .number (.int state.nodePrefix)),
    ("reservations", .object (state.reservations.map fun e => (e.1, .string e.2))),
    ("version", .number (.int state.version))]

/-- A byte. -/
def readByte : Json → Option ℕ
  | .number (.int n) => if 0 ≤ n ∧ n < 256 then some n.toNat else none
  | _ => none

def readStrings (value : Json) : Option (List (String × String)) :=
  value.asObject.bind fun fields =>
    fields.mapM fun e => e.2.asString.map fun s => (e.1, s)

/-- Every field is there and no other is. The members of a value are sorted. -/
def ofJson (value : Json) : Option NodeCidrAllocations := do
  let fields ← value.asObject
  let known := ["version", "cluster_cidr", "node_prefix", "reservations"]
  if !fields.all fun e => e.1 ∈ known then none
  let version ← (value.field "version").bind readByte
  let clusterCidr ← (value.field "cluster_cidr").bind Json.asString
  let nodePrefix ← (value.field "node_prefix").bind readByte
  let reservations ← (value.field "reservations").bind readStrings
  if h : KeysSorted reservations then some ⟨version, clusterCidr, nodePrefix, reservations, h⟩
  else none

/-! ## What the ledger keeps -/

/-- Every reservation is a range of the pool, and no range is reserved twice. -/
structure Sound : Prop where
  pool : ∃ pool, state.pool text = .ok pool
  ranges : ∀ e ∈ state.reservations, validNodeName e.1 = true ∧
    ∃ net, state.subnet text e.2 = .ok net
  distinct : (state.reservations.map Prod.snd).Nodup

/-- The pool is the same and no reservation is lost or changed. -/
structure Extends (state' : NodeCidrAllocations) : Prop where
  clusterCidr : state'.clusterCidr = state.clusterCidr
  nodePrefix : state'.nodePrefix = state.nodePrefix
  kept : ∀ name cidr, lookup name state.reservations = some cidr →
    lookup name state'.reservations = some cidr

variable {text state} {state' : NodeCidrAllocations} {name cidr : String} {net : Net}

theorem Extends.refl (state : NodeCidrAllocations) : state.Extends state := ⟨rfl, rfl, fun _ _ h => h⟩

theorem Extends.trans {state'' : NodeCidrAllocations} (h : state.Extends state')
    (h' : state'.Extends state'') : state.Extends state'' where
  clusterCidr := h'.clusterCidr.trans h.clusterCidr
  nodePrefix := h'.nodePrefix.trans h.nodePrefix
  kept name cidr hlookup := h'.kept name cidr (h.kept name cidr hlookup)

/-- The pool is canonical, and a Node's range is one of at most 4096 in it. -/
theorem pool_ok {pool : Net} (h : state.pool text = .ok pool) :
    text.parse state.clusterCidr = some pool ∧ state.version = 1 ∧ pool.addr = pool.network ∧
      pool.len ≤ state.nodePrefix ∧ state.nodePrefix ≤ 30 := by
  unfold NodeCidrAllocations.pool at h
  cases hparse : text.parse state.clusterCidr with
  | none =>
    rw [hparse] at h
    cases h
  | some parsed =>
    simp only [hparse] at h
    split_ifs at h with hbad
    cases h
    simp only [not_or, not_not, not_lt] at hbad
    exact ⟨rfl, hbad.1, hbad.2.2.1, hbad.2.2.2.2.2.1, hbad.2.2.2.2.2.2.1⟩

theorem subnet_ok (h : state.subnet text cidr = .ok net) :
    text.parse cidr = some net ∧ text.print net = cidr ∧ net.len = state.nodePrefix ∧
      net.addr = net.network ∧ ∃ pool, state.pool text = .ok pool ∧ pool.contains net.network := by
  unfold subnet at h
  cases hparse : text.parse cidr with
  | none =>
    rw [hparse] at h
    cases h
  | some parsed =>
    simp only [hparse] at h
    by_cases hbad : parsed.len ≠ state.nodePrefix ∨ parsed.addr ≠ parsed.network ∨
        text.print parsed ≠ cidr
    · rw [if_pos hbad] at h
      cases h
    rw [if_neg hbad] at h
    obtain ⟨pool, hpool, h⟩ := Fallible.bind_eq_ok.mp h
    split_ifs at h with hcontains
    · cases h
      simp only [not_or, not_not] at hbad
      exact ⟨rfl, hbad.2.2, hbad.1, hbad.2.1, pool, hpool, hcontains⟩

/-- Two ranges of the ledger that are written differently do not meet. -/
theorem subnet_disjoint {cidr' : String} {net' : Net} (h : state.subnet text cidr = .ok net)
    (h' : state.subnet text cidr' = .ok net') (hne : cidr ≠ cidr') : net.Disjoint net' := by
  obtain ⟨_, hprint, hlen, haddr, _⟩ := subnet_ok h
  obtain ⟨_, hprint', hlen', haddr', _⟩ := subnet_ok h'
  apply Net.disjoint_of_ne (hlen.trans hlen'.symm) haddr haddr'
  rintro rfl
  exact hne (hprint.symm.trans hprint')

theorem subnet_inside {pool : Net} (h : state.subnet text cidr = .ok net)
    (hpool : state.pool text = .ok pool) : net.Inside pool := by
  obtain ⟨_, _, hlen, _, pool', hpool', hcontains⟩ := subnet_ok h
  obtain rfl := Except.ok.inj (hpool.symm.trans hpool')
  exact Net.inside_of_contains (hlen ▸ (pool_ok hpool).2.2.2.1) hcontains

theorem distinct_ok {used : List Net} {rs : List (String × String)}
    (h : state.distinct text used rs = .ok ()) :
    (∀ e ∈ rs, validNodeName e.1 = true ∧ ∃ net, state.subnet text e.2 = .ok net ∧ net ∉ used) ∧
      (rs.map Prod.snd).Nodup := by
  induction rs generalizing used with
  | nil => simp
  | cons e rs ih =>
    obtain ⟨name, cidr⟩ := e
    unfold distinct at h
    split_ifs at h with hname
    obtain ⟨net, hnet, h⟩ := Fallible.bind_eq_ok.mp h
    split_ifs at h with hused
    obtain ⟨hrest, hnodup⟩ := ih h
    constructor
    · intro e he
      rcases List.mem_cons.mp he with rfl | he
      · exact ⟨by simpa using hname, net, hnet, hused⟩
      · obtain ⟨hvalid, other, hother, hnot⟩ := hrest e he
        exact ⟨hvalid, other, hother, fun hm => hnot (List.mem_cons_of_mem _ hm)⟩
    · rw [List.map_cons, List.nodup_cons]
      refine ⟨fun hm => ?_, hnodup⟩
      obtain ⟨e, he, hcidr⟩ := List.mem_map.mp hm
      obtain ⟨_, other, hother, hnot⟩ := hrest e he
      rw [hcidr, hnet] at hother
      exact hnot (Except.ok.inj hother ▸ List.mem_cons_self)

theorem sound_of_validate (h : state.validate text = .ok ()) : state.Sound text := by
  unfold validate at h
  obtain ⟨pool, hpool, h⟩ := Fallible.bind_eq_ok.mp h
  by_cases hmany : 2 ^ (state.nodePrefix - pool.len) < state.reservations.length
  · rw [if_pos hmany] at h
    cases h
  rw [if_neg hmany] at h
  obtain ⟨hranges, hnodup⟩ := distinct_ok h
  refine ⟨⟨pool, hpool⟩, fun e he => ?_, hnodup⟩
  obtain ⟨hvalid, net, hnet, _⟩ := hranges e he
  exact ⟨hvalid, net, hnet⟩

/-- A reservation is there already, or joins the others. -/
theorem reserve_ok {result : Option NodeCidrAllocations}
    (h : state.reserve text name cidr = .ok result) :
    validNodeName name = true ∧ (∃ net, state.subnet text cidr = .ok net) ∧
      ((result = none ∧ lookup name state.reservations = some cidr) ∨
        ∃ state', result = some state' ∧ lookup name state.reservations = none ∧
          (∀ e ∈ state.reservations, e.2 ≠ cidr) ∧
          state' = { state with
            reservations := insertKey name cidr state.reservations
            sorted := state.sorted.insertKey }) := by
  unfold reserve at h
  by_cases hname : (!validNodeName name) = true
  · rw [if_pos hname] at h
    cases h
  rw [if_neg hname] at h
  obtain ⟨net, hnet, h⟩ := Fallible.bind_eq_ok.mp h
  refine ⟨by simpa using hname, ⟨net, hnet⟩, ?_⟩
  cases hlookup : lookup name state.reservations with
  | some old =>
    simp only [hlookup] at h
    split_ifs at h with hold
    · cases h
      exact Or.inl ⟨rfl, by rw [hold]⟩
  | none =>
    simp only [hlookup] at h
    split_ifs at h with hused
    · cases h
      refine Or.inr ⟨_, rfl, rfl, fun e he hcidr => hused ?_, rfl⟩
      rw [List.any_eq_true]
      exact ⟨e, he, by simpa using hcidr⟩

theorem Sound.reserve (hsound : state.Sound text)
    (h : state.reserve text name cidr = .ok (some state')) :
    state'.Sound text ∧ state.Extends state' ∧ lookup name state'.reservations = some cidr := by
  obtain ⟨hname, hnet, ⟨hnone, _⟩ | ⟨_, heq, hlookup, hfree, rfl⟩⟩ := reserve_ok h
  · cases hnone
  cases heq
  have hinsert : insertKey name cidr state.reservations =
      insertSorted name cidr state.reservations := by
    rw [insertKey, hlookup]
    rfl
  refine ⟨⟨hsound.pool, fun e he => ?_, ?_⟩, ⟨rfl, rfl, fun other held hheld => ?_⟩,
    lookup_insertKey _ _ _⟩
  · rcases mem_insertKey he with he | rfl
    · exact hsound.ranges e he
    · exact ⟨hname, hnet⟩
  · have hperm := (insertSorted_perm name cidr state.reservations).map Prod.snd
    simp only [hinsert]
    rw [hperm.nodup_iff, List.map_cons, List.nodup_cons]
    refine ⟨fun hm => ?_, hsound.distinct⟩
    obtain ⟨e, he, hcidr⟩ := List.mem_map.mp hm
    exact hfree e he hcidr
  · have hne : other ≠ name := by
      rintro rfl
      rw [hlookup] at hheld
      cases hheld
    exact (lookup_insertKey_ne hne _ _).trans hheld

/-- The ranges that two Nodes hold do not meet. -/
theorem Sound.disjoint (h : state.Sound text) {name' cidr' : String} (hne : name ≠ name')
    (hcidr : lookup name state.reservations = some cidr)
    (hcidr' : lookup name' state.reservations = some cidr') :
    ∃ net net', text.parse cidr = some net ∧ text.parse cidr' = some net' ∧
      net.Disjoint net' := by
  have hmem := mem_of_lookup hcidr
  have hmem' := mem_of_lookup hcidr'
  obtain ⟨_, net, hnet⟩ := h.ranges _ hmem
  obtain ⟨_, net', hnet'⟩ := h.ranges _ hmem'
  have hdiffer : cidr ≠ cidr' := by
    rintro rfl
    have := List.inj_on_of_nodup_map h.distinct hmem hmem' rfl
    exact hne (Prod.mk.inj this).1
  exact ⟨net, net', (subnet_ok hnet).1, (subnet_ok hnet').1, subnet_disjoint hnet hnet' hdiffer⟩

theorem readStrings_map (rs : List (String × String)) :
    readStrings (.object (rs.map fun e => (e.1, .string e.2))) = some rs := by
  change (rs.map fun e => (e.1, Json.string e.2)).mapM
    (fun e => e.2.asString.map fun s => (e.1, s)) = some rs
  induction rs with
  | nil => rfl
  | cons e rs ih =>
    rw [List.map_cons, List.mapM_cons, ih]
    rfl

theorem readByte_int {n : ℕ} (h : n < 256) : readByte (.number (.int n)) = some n := by
  change (if 0 ≤ (n : ℤ) ∧ (n : ℤ) < 256 then some (n : ℤ).toNat else none) = some n
  rw [if_pos (by omega), Int.toNat_natCast]

/-- A sound ledger is read back as it was stored. -/
theorem ofJson_toJson (h : state.Sound text) : ofJson state.toJson = some state := by
  obtain ⟨pool, hpool⟩ := h.pool
  obtain ⟨_, hversion, _, _, hprefix⟩ := pool_ok hpool
  have hversion' := readByte_int (n := state.version) (by omega)
  have hprefix' := readByte_int (n := state.nodePrefix) (by omega)
  have hstrings := readStrings_map state.reservations
  simp [ofJson, toJson, Json.asObject, Json.field, lookup_cons, hversion', hprefix', hstrings,
    Json.asString, state.sorted]

end NodeCidrAllocations

end Hedronetes.Network
