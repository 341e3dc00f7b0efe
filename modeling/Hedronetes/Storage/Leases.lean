import Hedronetes.Storage.Tables

/-!
# Leases

A lease is granted for a time to live and kept alive while it has not expired. The first expiry is
added up with a check; every later one is added up by the database itself, and the two databases
differ in what becomes of a sum that the column does not hold.
-/

namespace Hedronetes.Storage

open Fallible

/-- The greatest number in a 64-bit column. -/
abbrev maxTime : ℕ := maxRevision

/-- `now_ms`, from the milliseconds that the system clock gives. -/
def nowMs (elapsed : ℕ) : Result ℕ :=
  if elapsed ≤ maxTime then .ok elapsed else .error (.invalid "clock exceeds backend range")

/-- The checks of `lease_grant`, for a time to live in milliseconds. -/
def leaseExpiry (now ttl : ℕ) : Result ℕ :=
  if maxTime < ttl then .error (.invalid "lease TTL too large")
  else if ttl = 0 then .error (.invalid "lease TTL must be at least 1ms")
  else do
    let now ← nowMs now
    if now + ttl ≤ maxTime then return now + ttl
    else .error (.invalid "lease expiry overflow")

/-- The table of the leases, and the greatest id it has given out. -/
structure Book where
  leases : List LeaseRow
  issued : ℕ
  deriving DecidableEq

/-- `lease_grant`: the ids count up, and the insertion of one too many is refused. -/
def leaseGrant (exhausted : Error) (now ttl : ℕ) (book : Book) : Result (Book × ℕ) := do
  let expires ← leaseExpiry now ttl
  if book.issued < maxTime then
    return (⟨book.leases ++ [⟨book.issued + 1, ttl, expires⟩], book.issued + 1⟩, book.issued + 1)
  else .error exhausted

/-- The condition of the `UPDATE` of `lease_keepalive`. -/
def LeaseRow.alive (now id : ℕ) (row : LeaseRow) : Bool := row.id = id && decide (now < row.expiresMs)

/-- A row as the `UPDATE` leaves it; `plus` is the addition of the database. -/
def LeaseRow.renew (plus : ℕ → ℕ → Result ℕ) (now id : ℕ) (row : LeaseRow) : Result LeaseRow :=
  if row.alive now id then do return { row with expiresMs := ← plus now row.ttlMs } else .ok row

/-- `lease_keepalive`. -/
def leaseKeepalive (plus : ℕ → ℕ → Result ℕ) (elapsed id : ℕ) (leases : List LeaseRow) :
    Result (List LeaseRow) := do
  let now ← nowMs elapsed
  let rowid ← revisionI64 id
  let renewed ← leases.mapM (LeaseRow.renew plus now rowid)
  if leases.any (LeaseRow.alive now rowid) then return renewed else .error (.leaseExpired id)

namespace Sqlite

/-- The nearest number with 53 significant bits; of two, the one that ends even. -/
def double (n : ℕ) : ℕ :=
  if n < 2 ^ 53 then n
  else
    let unit := 2 ^ (n.log2 - 52)
    let quotient := n / unit
    let rest := n % unit
    if 2 * rest < unit ∨ (2 * rest = unit ∧ quotient % 2 = 0) then quotient * unit
    else (quotient + 1) * unit

/-- A sum of integers beyond 64 bits is the sum of two REALs. -/
def plus (now ttl : ℕ) : Result ℕ :=
  .ok (if now + ttl ≤ maxTime then now + ttl else double (double now + double ttl))

def exhausted : Error := .database "database or disk is full"

def leaseGrant (now ttl : ℕ) (book : Book) : Result (Book × ℕ) :=
  Storage.leaseGrant exhausted now ttl book

def leaseKeepalive (now id : ℕ) (leases : List LeaseRow) : Result (List LeaseRow) :=
  Storage.leaseKeepalive plus now id leases

end Sqlite

namespace Postgres

/-- A sum beyond 64 bits fails the statement. -/
def plus (now ttl : ℕ) : Result ℕ :=
  if now + ttl ≤ maxTime then .ok (now + ttl)
  else .error (.worker "postgres registry: bigint out of range (22003)")

def exhausted : Error :=
  .worker "postgres registry: nextval: reached maximum value of sequence (2200H)"

def leaseGrant (now ttl : ℕ) (book : Book) : Result (Book × ℕ) :=
  Storage.leaseGrant exhausted now ttl book

def leaseKeepalive (now id : ℕ) (leases : List LeaseRow) : Result (List LeaseRow) :=
  Storage.leaseKeepalive plus now id leases

end Postgres

/-! ## Calls and answers -/

/-- A call on the leases, with the time of its clock. -/
inductive LeaseCall
  | grant (now ttl : ℕ)
  | keepalive (now id : ℕ)
  | sweep (now : ℕ)
  deriving DecidableEq

/-- A call with its answer. -/
inductive LeaseEvent
  | granted (now ttl : ℕ) (answer : Result ℕ)
  | kept (now id : ℕ) (answer : Result Unit)
  | swept (now deleted : ℕ)

namespace LeaseEvent

def call : LeaseEvent → LeaseCall
  | granted now ttl _ => .grant now ttl
  | kept now id _ => .keepalive now id
  | swept now _ => .sweep now

def time : LeaseEvent → ℕ
  | granted now _ _ => now
  | kept now _ _ => now
  | swept now _ => now

end LeaseEvent

/-- What a call does to the leases, and its answer. -/
def Book.answer (exhausted : Error) (plus : ℕ → ℕ → Result ℕ) (book : Book) :
    LeaseCall → Book × LeaseEvent
  | .grant now ttl =>
    match Storage.leaseGrant exhausted now ttl book with
    | .ok (book', id) => (book', .granted now ttl (.ok id))
    | .error e => (book, .granted now ttl (.error e))
  | .keepalive now id =>
    match Storage.leaseKeepalive plus now id book.leases with
    | .ok leases => ({ book with leases := leases }, .kept now id (.ok ()))
    | .error e => (book, .kept now id (.error e))
  | .sweep now =>
    ({ book with leases := book.leases.filter fun row => now < row.expiresMs },
      .swept now (book.leases.filter fun row => row.expiresMs ≤ now).length)

/-! ## What the statements do -/

section Statements

variable {exhausted : Error} {plus plus' : ℕ → ℕ → Result ℕ} {book book' : Book}
  {leases leases' : List LeaseRow} {row : LeaseRow} {now ttl id expires : ℕ}

theorem alive_iff : row.alive now id = true ↔ row.id = id ∧ now < row.expiresMs := by
  simp [LeaseRow.alive]

theorem nowMs_ok {n : ℕ} : nowMs now = .ok n ↔ now ≤ maxTime ∧ n = now := by
  unfold nowMs
  split_ifs with h <;> simp [h, eq_comm]

theorem leaseExpiry_ok : leaseExpiry now ttl = .ok expires ↔
    0 < ttl ∧ now + ttl ≤ maxTime ∧ expires = now + ttl := by
  unfold leaseExpiry
  split_ifs with hlarge hzero
  · constructor
    · exact nofun
    · rintro ⟨-, h, -⟩
      omega
  · constructor
    · exact nofun
    · rintro ⟨h, -⟩
      omega
  · rw [bind_eq_ok]
    constructor
    · rintro ⟨n, hn, h⟩
      obtain ⟨-, rfl⟩ := nowMs_ok.mp hn
      split_ifs at h with hfits
      exact ⟨by omega, hfits, (Except.ok.inj h).symm⟩
    · rintro ⟨-, hfits, rfl⟩
      refine ⟨now, nowMs_ok.mpr ⟨by omega, rfl⟩, ?_⟩
      rw [if_pos hfits]
      rfl

/-- A lease that is granted gets the next id, and expires when its time to live is over. -/
theorem leaseGrant_ok : leaseGrant exhausted now ttl book = .ok (book', id) ↔
    0 < ttl ∧ now + ttl ≤ maxTime ∧ book.issued < maxTime ∧ id = book.issued + 1 ∧
      book' = ⟨book.leases ++ [⟨id, ttl, now + ttl⟩], id⟩ := by
  unfold leaseGrant
  rw [bind_eq_ok]
  constructor
  · rintro ⟨expires, hexpires, h⟩
    obtain ⟨hpos, hfits, rfl⟩ := leaseExpiry_ok.mp hexpires
    split_ifs at h with hissued
    obtain ⟨rfl, rfl⟩ := Prod.mk.inj (Except.ok.inj h)
    exact ⟨hpos, hfits, hissued, rfl, rfl⟩
  · rintro ⟨hpos, hfits, hissued, rfl, rfl⟩
    refine ⟨now + ttl, leaseExpiry_ok.mpr ⟨hpos, hfits, rfl⟩, ?_⟩
    rw [if_pos hissued]
    rfl

/-- Every sum that the lease's row needs fits the column. -/
def Fits (now id : ℕ) (leases : List LeaseRow) : Prop :=
  ∀ row ∈ leases, row.alive now id = true → now + row.ttlMs ≤ maxTime

/-- The addition of a database is exact where the sum fits. -/
def Adds (plus : ℕ → ℕ → Result ℕ) : Prop :=
  ∀ now ttl, now + ttl ≤ maxTime → plus now ttl = .ok (now + ttl)

theorem Sqlite.adds : Adds Sqlite.plus := by
  intro now ttl h
  rw [Sqlite.plus, if_pos h]

theorem Postgres.adds : Adds Postgres.plus := by
  intro now ttl h
  rw [Postgres.plus, if_pos h]

/-- The row of a lease that is alive expires a whole time to live from now. -/
def LeaseRow.renewed (now id : ℕ) (row : LeaseRow) : LeaseRow :=
  if row.alive now id then { row with expiresMs := now + row.ttlMs } else row

@[simp] theorem renewed_id : (row.renewed now id).id = row.id := by
  unfold LeaseRow.renewed
  split_ifs <;> rfl

@[simp] theorem renewed_ttlMs : (row.renewed now id).ttlMs = row.ttlMs := by
  unfold LeaseRow.renewed
  split_ifs <;> rfl

theorem renew_eq_ok (hplus : Adds plus) (hfits : row.alive now id = true → now + row.ttlMs ≤ maxTime) :
    row.renew plus now id = .ok (row.renewed now id) := by
  unfold LeaseRow.renew LeaseRow.renewed
  split_ifs with halive
  · rw [hplus _ _ (hfits halive)]
    rfl
  · rfl

theorem mapM_renew (hplus : Adds plus) (hfits : Fits now id leases) :
    leases.mapM (LeaseRow.renew plus now id) = .ok (leases.map (LeaseRow.renewed now id)) := by
  rw [mapM_eq_ok_iff, List.forall₂_map_right_iff, List.forall₂_same]
  exact fun row hrow => renew_eq_ok hplus (hfits row hrow)

/-- Where the sums fit, a lease is kept alive exactly when there is one to keep. -/
theorem leaseKeepalive_eq (hplus : Adds plus) (hfits : Fits now id leases) (hnow : now ≤ maxTime)
    (hid : id ≤ maxTime) : leaseKeepalive plus now id leases =
      if leases.any (LeaseRow.alive now id) then .ok (leases.map (LeaseRow.renewed now id))
      else .error (.leaseExpired id) := by
  unfold leaseKeepalive
  rw [nowMs, if_pos hnow, revisionI64, if_pos hid]
  show (leases.mapM (LeaseRow.renew plus now id) >>= _) = _
  rw [mapM_renew hplus hfits]
  rfl

/-- Where they fit, the databases do the same. -/
theorem leaseKeepalive_congr (hplus : Adds plus) (hplus' : Adds plus') (hfits : Fits now id leases) :
    leaseKeepalive plus now id leases = leaseKeepalive plus' now id leases := by
  by_cases hnow : now ≤ maxTime
  · by_cases hid : id ≤ maxTime
    · rw [leaseKeepalive_eq hplus hfits hnow hid, leaseKeepalive_eq hplus' hfits hnow hid]
    · unfold leaseKeepalive
      rw [nowMs, if_pos hnow, revisionI64, if_neg hid]
      rfl
  · unfold leaseKeepalive
    rw [nowMs, if_neg hnow]
    rfl

/-- What a keepalive does to a row: nothing, unless the row is alive. -/
theorem leaseKeepalive_ok (h : leaseKeepalive plus now id leases = .ok leases') :
    leases.any (LeaseRow.alive now id) = true ∧
      leases.mapM (LeaseRow.renew plus now id) = .ok leases' := by
  obtain ⟨n, hn, hrest⟩ := bind_eq_ok.mp h
  rw [(nowMs_ok.mp hn).2] at hrest
  obtain ⟨rowid, hrowid, hrest⟩ := bind_eq_ok.mp hrest
  unfold revisionI64 at hrowid
  split_ifs at hrowid
  rw [← Except.ok.inj hrowid] at hrest
  obtain ⟨renewed, hrenewed, hrest⟩ := bind_eq_ok.mp hrest
  split_ifs at hrest with hany
  rw [← Except.ok.inj hrest]
  exact ⟨hany, hrenewed⟩

theorem renew_ok {row' : LeaseRow} (h : row.renew plus now id = .ok row') :
    row'.id = row.id ∧ row'.ttlMs = row.ttlMs ∧ (row.alive now id = false → row' = row) := by
  unfold LeaseRow.renew at h
  split_ifs at h with halive
  · obtain ⟨expires, -, h⟩ := bind_eq_ok.mp h
    obtain rfl := Except.ok.inj h
    exact ⟨rfl, rfl, fun hdead => absurd halive (by simp [hdead])⟩
  · obtain rfl := Except.ok.inj h
    exact ⟨rfl, rfl, fun _ => rfl⟩

/-- Everything that an answer can be. -/
inductive Book.Answers (plus : ℕ → ℕ → Result ℕ) (book : Book) : LeaseCall → Book → LeaseEvent → Prop
  | denied {now ttl : ℕ} {e : Error} :
      Answers plus book (.grant now ttl) book (.granted now ttl (.error e))
  | granted {now ttl : ℕ} (hfits : now + ttl ≤ maxTime) (hissued : book.issued < maxTime) :
      Answers plus book (.grant now ttl)
        ⟨book.leases ++ [⟨book.issued + 1, ttl, now + ttl⟩], book.issued + 1⟩
        (.granted now ttl (.ok (book.issued + 1)))
  | lost {now id : ℕ} {e : Error} :
      Answers plus book (.keepalive now id) book (.kept now id (.error e))
  | kept {now id : ℕ} {leases : List LeaseRow} (hany : book.leases.any (LeaseRow.alive now id) = true)
      (hrows : book.leases.mapM (LeaseRow.renew plus now id) = .ok leases) :
      Answers plus book (.keepalive now id) { book with leases := leases } (.kept now id (.ok ()))
  | swept {now : ℕ} :
      Answers plus book (.sweep now)
        { book with leases := book.leases.filter fun row => now < row.expiresMs }
        (.swept now (book.leases.filter fun row => row.expiresMs ≤ now).length)

theorem Book.answers (exhausted : Error) (plus : ℕ → ℕ → Result ℕ) (book : Book) (call : LeaseCall) :
    Answers plus book call (book.answer exhausted plus call).1 (book.answer exhausted plus call).2 := by
  cases call with
  | grant now ttl =>
    cases hgrant : Storage.leaseGrant exhausted now ttl book with
    | error e =>
      simp only [Book.answer, hgrant]
      exact .denied
    | ok result =>
      obtain ⟨book', id⟩ := result
      simp only [Book.answer, hgrant]
      obtain ⟨-, hfits, hissued, rfl, rfl⟩ := leaseGrant_ok.mp hgrant
      exact .granted hfits hissued
  | keepalive now id =>
    cases hkeep : Storage.leaseKeepalive plus now id book.leases with
    | error e =>
      simp only [Book.answer, hkeep]
      exact .lost
    | ok leases =>
      simp only [Book.answer, hkeep]
      obtain ⟨hany, hrows⟩ := leaseKeepalive_ok hkeep
      exact .kept hany hrows
  | sweep now => exact .swept

end Statements

end Hedronetes.Storage
