import Hedronetes.Foundations.Runs
import Hedronetes.Storage.Leases
import Hedronetes.Storage.Postgres
import Hedronetes.Storage.Sqlite

/-!
# Leases over runs

Grants and keepalives between the steps of the other calls of a registry, of which the last
statement of maintenance deletes the leases that have expired. What the answers say of a lease is
counted up exactly, and is what the table holds while every sum fits its column.
-/

namespace Hedronetes.Storage

open Fallible Runs

/-! ## Registries with leases -/

/-- An error without the text that belongs to one database. -/
def Error.plain : Error → Option Error
  | .database _ => none
  | .worker _ => none
  | e => some e

/-- A registry as its leases see it: of its steps only a sweep changes them. -/
structure Backend (σ ℓ : Type) where
  step : σ → ℓ → Option σ
  leases : σ → List LeaseRow
  setLeases : σ → List LeaseRow → σ
  sweeps : σ → ℓ → Option ℕ
  plus : ℕ → ℕ → Result ℕ
  exhausted : Error
  adds : Adds plus
  plain : exhausted.plain = none
  leases_set : ∀ s l, leases (setLeases s l) = l
  step_none : ∀ s l t, step s l = some t → sweeps s l = none → leases t = leases s
  step_some : ∀ s l t now, step s l = some t → sweeps s l = some now →
    leases t = (leases s).filter fun row => now < row.expiresMs

namespace Sqlite

/-- The time at which a step sweeps. -/
def sweeps (s : State) (label : ℕ × Action) : Option ℕ :=
  match s.sessions label.1, label.2 with
  | .sweeping, .advance now _ => some now
  | _, _ => none

theorem step_none {sealer : SecretsSealer} {s t : State} {label : ℕ × Action}
    (h : step sealer s label = some t) (hsweeps : sweeps s label = none) :
    t.tables.leases = s.tables.leases := by
  obtain ⟨i, a⟩ := label
  obtain ⟨t', commit, session', hmoves, rfl⟩ := step_cases h
  generalize hsession : s.sessions i = session at hmoves
  cases hmoves with
  | write htx =>
    obtain ⟨_, -, -, -, -, rfl⟩ := mutateTx_ok htx
    rfl
  | compact htx =>
    obtain ⟨-, ⟨-, rfl⟩ | ⟨-, rfl⟩⟩ := compactTx_ok htx <;> rfl
  | maintain htx =>
    obtain ⟨-, ⟨-, rfl⟩ | ⟨-, rfl⟩⟩ := compactTx_ok htx <;> rfl
  | sweep => simp_all [sweeps]
  | _ => rfl

theorem step_some {sealer : SecretsSealer} {s t : State} {label : ℕ × Action} {now : ℕ}
    (h : step sealer s label = some t) (hsweeps : sweeps s label = some now) :
    t.tables.leases = s.tables.leases.filter fun row => now < row.expiresMs := by
  obtain ⟨i, a⟩ := label
  unfold sweeps at hsweeps
  split at hsweeps
  · rename_i elapsed hsession haction
    obtain rfl := Option.some.inj hsweeps
    dsimp only at hsession haction
    subst haction
    simp only [step, hsession] at h
    obtain ⟨result, hresult, rfl⟩ := Option.map_eq_some_iff.mp h
    cases hresult
    rfl
  · cases hsweeps

/-- The leases of a database file. -/
def backend (sealer : SecretsSealer) : Backend State (ℕ × Action) where
  step := step sealer
  leases s := s.tables.leases
  setLeases s leases := { s with tables := { s.tables with leases := leases } }
  sweeps := sweeps
  plus := plus
  exhausted := exhausted
  adds := adds
  plain := rfl
  leases_set _ _ := rfl
  step_none _ _ _ := step_none
  step_some _ _ _ _ := step_some

end Sqlite

namespace Postgres

/-- The time at which a step sweeps. -/
def sweeps (s : State) (label : ℕ × Action) : Option ℕ :=
  match s.sessions label.1, label.2 with
  | .sweeping, .advance now _ => some now
  | _, _ => none

theorem step_none {sealer : SecretsSealer} {s t : State} {label : ℕ × Action}
    (h : step sealer s label = some t) (hsweeps : sweeps s label = none) :
    t.db.tables.leases = s.db.tables.leases := by
  obtain ⟨i, a⟩ := label
  obtain ⟨d', session', hmoves, rfl⟩ := step_cases h
  generalize hsession : s.sessions i = session at hmoves
  cases hmoves with
  | sweep => simp_all [sweeps]
  | _ => rfl

theorem step_some {sealer : SecretsSealer} {s t : State} {label : ℕ × Action} {now : ℕ}
    (h : step sealer s label = some t) (hsweeps : sweeps s label = some now) :
    t.db.tables.leases = s.db.tables.leases.filter fun row => now < row.expiresMs := by
  obtain ⟨i, a⟩ := label
  unfold sweeps at hsweeps
  split at hsweeps
  · rename_i elapsed hsession haction
    obtain rfl := Option.some.inj hsweeps
    dsimp only at hsession haction
    subst haction
    simp only [step, hsession] at h
    obtain ⟨result, hresult, rfl⟩ := Option.map_eq_some_iff.mp h
    cases hresult
    rfl
  · cases hsweeps

/-- The leases of a database server. -/
def backend (sealer : SecretsSealer) : Backend State (ℕ × Action) where
  step := step sealer
  leases s := s.db.tables.leases
  setLeases s leases := { s with db := { s.db with tables := { s.db.tables with leases := leases } } }
  sweeps := sweeps
  plus := plus
  exhausted := exhausted
  adds := adds
  plain := rfl
  leases_set _ _ := rfl
  step_none _ _ _ := step_none
  step_some _ _ _ _ := step_some

end Postgres

/-! ## The accounts of leases -/

/-- What the answers say of a lease: its time to live, and when it ends. -/
structure Account where
  ttl : ℕ
  ends : ℕ
  deriving DecidableEq

def LeaseEvent.record (id : ℕ) (account : Option Account) : LeaseEvent → Option Account
  | .granted now ttl (.ok issued) => if issued = id then some ⟨ttl, now + ttl⟩ else account
  | .kept now lease (.ok _) =>
    if lease = id then account.map fun a => { a with ends := now + a.ttl } else account
  | _ => account

/-- The account of a lease, in exact numbers. -/
def account (events : List LeaseEvent) (id : ℕ) : Option Account :=
  events.foldl (LeaseEvent.record id) none

section Accounts

variable {events : List LeaseEvent} {event : LeaseEvent} {id lease now ttl deleted : ℕ}
  {a : Account} {known : Option Account}

theorem record_granted : (LeaseEvent.granted now ttl (.ok lease)).record id known =
    if lease = id then some ⟨ttl, now + ttl⟩ else known := rfl

theorem record_kept : (LeaseEvent.kept now lease (.ok ())).record id known =
    if lease = id then known.map fun a => { a with ends := now + a.ttl } else known := rfl

theorem record_swept : (LeaseEvent.swept now deleted).record id known = known := rfl

theorem account_append : account (events ++ [event]) id = event.record id (account events id) := by
  simp [account]

/-- The table agrees with the accounts; a lease that is gone ended before the latest sweep. -/
structure Sound (events : List LeaseEvent) (book : Book) : Prop where
  ids : (book.leases.map LeaseRow.id).Nodup
  issued_le : book.issued ≤ maxTime
  known : ∀ id a, account events id = some a → id ≤ book.issued ∧ a.ends ≤ maxTime
  row : ∀ row ∈ book.leases, account events row.id = some ⟨row.ttlMs, row.expiresMs⟩
  gone : ∀ id a, account events id = some a →
    ⟨id, a.ttl, a.ends⟩ ∈ book.leases ∨ ∃ e ∈ events, a.ends ≤ e.time

namespace Sound

variable {book : Book} {row row' : LeaseRow}

theorem initial : Sound [] ⟨[], 0⟩ where
  ids := List.nodup_nil
  issued_le := Nat.zero_le _
  known _ _ := nofun
  row _ := nofun
  gone _ _ := nofun

theorem id_le (h : Sound events book) (hrow : row ∈ book.leases) : row.id ≤ book.issued :=
  (h.known _ _ (h.row row hrow)).1

theorem eq_of_id (h : Sound events book) (hrow : row ∈ book.leases) (hrow' : row' ∈ book.leases)
    (hid : row.id = row'.id) : row = row' :=
  List.inj_on_of_nodup_map h.ids hrow hrow' hid

/-- An answer that no account records leaves the table alone. -/
theorem skip (h : Sound events book) (hevent : ∀ id account, event.record id account = account) :
    Sound (events ++ [event]) book where
  ids := h.ids
  issued_le := h.issued_le
  known id a := by
    rw [account_append, hevent]
    exact h.known id a
  row row hrow := by
    rw [account_append, hevent]
    exact h.row row hrow
  gone id a := by
    rw [account_append, hevent]
    intro ha
    rcases h.gone id a ha with hmem | ⟨e, he, hends⟩
    · exact .inl hmem
    · exact .inr ⟨e, List.mem_append_left _ he, hends⟩

theorem grant (h : Sound events book) (hfits : now + ttl ≤ maxTime) (hissued : book.issued < maxTime) :
    Sound (events ++ [.granted now ttl (.ok (book.issued + 1))])
      ⟨book.leases ++ [⟨book.issued + 1, ttl, now + ttl⟩], book.issued + 1⟩ where
  ids := by
    rw [List.map_append, List.map_singleton, List.nodup_append]
    refine ⟨h.ids, List.nodup_singleton _, ?_⟩
    intro id hid other hother
    obtain ⟨row, hrow, rfl⟩ := List.mem_map.mp hid
    rw [List.mem_singleton.mp hother]
    have := h.id_le hrow
    dsimp only
    omega
  issued_le := hissued
  known id a := by
    rw [account_append, record_granted]
    split_ifs with heq
    · intro ha
      rw [← Option.some.inj ha]
      exact ⟨heq.ge, hfits⟩
    · intro ha
      have := h.known id a ha
      exact ⟨this.1.trans (Nat.le_succ _), this.2⟩
  row row hrow := by
    rw [account_append, record_granted]
    rcases List.mem_append.mp hrow with hrow | hrow
    · have := h.id_le hrow
      rw [if_neg (by omega)]
      exact h.row row hrow
    · rw [List.mem_singleton.mp hrow, if_pos rfl]
  gone id a := by
    rw [account_append, record_granted]
    split_ifs with heq
    · intro ha
      rw [← Option.some.inj ha, ← heq]
      exact .inl (by simp)
    · intro ha
      rcases h.gone id a ha with hmem | ⟨e, he, hends⟩
      · exact .inl (List.mem_append_left _ hmem)
      · exact .inr ⟨e, List.mem_append_left _ he, hends⟩

theorem sweep (h : Sound events book) (deleted : ℕ) :
    Sound (events ++ [.swept now deleted])
      { book with leases := book.leases.filter fun row => now < row.expiresMs } where
  ids := h.ids.sublist (List.filter_sublist.map _)
  issued_le := h.issued_le
  known id a := by
    rw [account_append, record_swept]
    exact h.known id a
  row row hrow := by
    rw [account_append, record_swept]
    exact h.row row (List.mem_filter.mp hrow).1
  gone id a := by
    rw [account_append, record_swept]
    intro ha
    rcases h.gone id a ha with hmem | ⟨e, he, hends⟩
    · by_cases hlive : now < a.ends
      · exact .inl (List.mem_filter.mpr ⟨hmem, by simpa using hlive⟩)
      · exact .inr ⟨_, List.mem_append_right _ (List.mem_singleton_self _), not_lt.mp hlive⟩
    · exact .inr ⟨e, List.mem_append_left _ he, hends⟩

theorem renewed_of_ne (hid : row.id ≠ lease) : row.renewed now lease = row := by
  unfold LeaseRow.renewed
  rw [if_neg]
  intro halive
  exact hid (alive_iff.mp halive).1

theorem renewed_of_alive (halive : row.alive now lease = true) :
    row.renewed now lease = { row with expiresMs := now + row.ttlMs } := if_pos halive

theorem keep (h : Sound events book) (hfits : Fits now lease book.leases)
    (hrow : row ∈ book.leases) (halive : row.alive now lease = true) :
    Sound (events ++ [.kept now lease (.ok ())])
      { book with leases := book.leases.map (LeaseRow.renewed now lease) } := by
  have hlease := (alive_iff.mp halive).1
  have haccount : account events lease = some ⟨row.ttlMs, row.expiresMs⟩ := by
    rw [← hlease]
    exact h.row row hrow
  have hother : ∀ other ∈ book.leases, other.id = lease → other = row :=
    fun other hmem hid => h.eq_of_id hmem hrow (hid.trans hlease.symm)
  constructor
  case ids =>
    rw [List.map_map]
    have hmap : LeaseRow.id ∘ LeaseRow.renewed now lease = LeaseRow.id := funext fun _ => renewed_id
    rw [hmap]
    exact h.ids
  case issued_le => exact h.issued_le
  case known =>
    intro id a
    rw [account_append, record_kept]
    split_ifs with heq
    · rw [← heq, haccount, Option.map_some]
      intro ha
      rw [← Option.some.inj ha]
      exact ⟨(h.known lease _ haccount).1, hfits row hrow halive⟩
    · exact h.known id a
  case row =>
    intro renewed hrenewed
    obtain ⟨old, hold, rfl⟩ := List.mem_map.mp hrenewed
    rw [renewed_id, renewed_ttlMs, account_append, record_kept]
    by_cases hid : old.id = lease
    · rw [hother old hold hid, renewed_of_alive halive, if_pos hlease.symm, hlease, haccount,
        Option.map_some]
    · rw [if_neg (Ne.symm hid), renewed_of_ne hid]
      exact h.row old hold
  case gone =>
    intro id a
    rw [account_append, record_kept]
    split_ifs with heq
    · rw [← heq, haccount, Option.map_some]
      intro ha
      rw [← Option.some.inj ha]
      apply Or.inl
      rw [List.mem_map]
      refine ⟨row, hrow, ?_⟩
      rw [renewed_of_alive halive, ← hlease]
    · intro ha
      rcases h.gone id a ha with hmem | ⟨e, he, hends⟩
      · apply Or.inl
        rw [List.mem_map]
        exact ⟨_, hmem, renewed_of_ne (Ne.symm heq)⟩
      · exact .inr ⟨e, List.mem_append_left _ he, hends⟩

end Sound

/-- The sums that a call needs fit the column. -/
def LeaseCall.Room (book : Book) : LeaseCall → Prop
  | .keepalive now id => Fits now id book.leases
  | _ => True

variable {exhausted exhausted' : Error} {plus plus' : ℕ → ℕ → Result ℕ} {book : Book}
  {call : LeaseCall} {row : LeaseRow}

/-- Every answer keeps the table and the accounts in step. -/
theorem Sound.answers {book' : Book} (h : Sound events book) (hplus : Adds plus)
    (hroom : call.Room book) (hanswers : Book.Answers plus book call book' event) :
    Sound (events ++ [event]) book' := by
  cases hanswers with
  | denied => exact h.skip fun _ _ => rfl
  | granted hfits hissued => exact h.grant hfits hissued
  | lost => exact h.skip fun _ _ => rfl
  | @kept now id leases hany hrows =>
    obtain ⟨row, hrow, halive⟩ := List.any_eq_true.mp hany
    have hmap := mapM_renew hplus hroom
    rw [hrows] at hmap
    rw [Except.ok.inj hmap]
    exact h.keep hroom hrow halive
  | swept => exact h.sweep _

/-- Only a sweep loses a lease, and only one that has expired. -/
theorem expired_of_lost {book' : Book} (hanswers : Book.Answers plus book call book' event)
    (hrow : row ∈ book.leases) (hlost : ∀ row' ∈ book'.leases, row'.id ≠ row.id) :
    ∃ now deleted, event = .swept now deleted ∧ row.expiresMs ≤ now := by
  cases hanswers with
  | denied => exact absurd rfl (hlost row hrow)
  | granted => exact absurd rfl (hlost row (List.mem_append_left _ hrow))
  | lost => exact absurd rfl (hlost row hrow)
  | kept hany hrows =>
    obtain ⟨row', hrow', hrenew⟩ := mapM_mem_of_mem hrows hrow
    exact absurd (renew_ok hrenew).1 (hlost row' hrow')
  | @swept now =>
    refine ⟨now, _, rfl, not_lt.mp fun hlive => ?_⟩
    exact hlost row (List.mem_filter.mpr ⟨hrow, by simpa using hlive⟩) rfl

/-- A lease that has expired stays as it is. -/
theorem expired_stays {book' : Book} {since : ℕ}
    (hanswers : Book.Answers plus book call book' event) (hissued : id ≤ book.issued)
    (hsince : since ≤ event.time)
    (hexpired : ∀ row ∈ book.leases, row.id = id → row.expiresMs ≤ since) :
    id ≤ book'.issued ∧ (∀ row ∈ book'.leases, row.id = id → row ∈ book.leases) ∧
      ∀ now answer, event = .kept now id answer → ∃ e, answer = .error e := by
  cases hanswers with
  | denied => exact ⟨hissued, fun row hrow _ => hrow, fun _ _ => nofun⟩
  | granted =>
    refine ⟨hissued.trans (Nat.le_succ _), ?_, fun _ _ => nofun⟩
    intro row hrow hid
    rcases List.mem_append.mp hrow with hrow | hrow
    · exact hrow
    · rw [List.mem_singleton.mp hrow] at hid
      dsimp only at hid
      omega
  | @lost _ _ e =>
    refine ⟨hissued, fun row hrow _ => hrow, ?_⟩
    intro now answer h
    exact ⟨e, (LeaseEvent.kept.inj h).2.2.symm⟩
  | @kept now lease leases hany hrows =>
    have hdead : ∀ row ∈ book.leases, row.id = id → row.alive now lease = false := by
      intro row hrow hid
      rw [Bool.eq_false_iff]
      intro halive
      have hexpires := hexpired row hrow hid
      have hlive := (alive_iff.mp halive).2
      have : since ≤ now := hsince
      omega
    refine ⟨hissued, ?_, ?_⟩
    · intro row' hrow' hid
      obtain ⟨row, hrow, hrenew⟩ := mapM_mem hrows hrow'
      obtain ⟨hsame, -, hkeeps⟩ := renew_ok hrenew
      rw [hkeeps (hdead row hrow (hsame.symm.trans hid))]
      exact hrow
    · intro now' answer h
      obtain ⟨-, hlease, -⟩ := LeaseEvent.kept.inj h
      obtain ⟨row, hrow, halive⟩ := List.any_eq_true.mp hany
      have hid := (alive_iff.mp halive).1.trans hlease
      rw [hdead row hrow hid] at halive
      cases halive
  | swept =>
    refine ⟨hissued, ?_, fun _ _ => nofun⟩
    intro row hrow _
    exact (List.mem_filter.mp hrow).1

/-- An answer without the texts of one database. -/
def LeaseEvent.plain : LeaseEvent → ℕ × ℕ × Except (Option Error) ℕ
  | .granted now ttl answer => (now, ttl, answer.mapError Error.plain)
  | .kept now id answer => (now, id, (answer.map fun _ => id).mapError Error.plain)
  | .swept now deleted => (now, deleted, .ok deleted)

/-- Where the sums fit, two databases answer alike. -/
theorem answer_congr (hplus : Adds plus) (hplus' : Adds plus') (hplain : exhausted.plain = none)
    (hplain' : exhausted'.plain = none) (hroom : call.Room book) :
    (book.answer exhausted plus call).1 = (book.answer exhausted' plus' call).1 ∧
      (book.answer exhausted plus call).2.plain = (book.answer exhausted' plus' call).2.plain := by
  cases call with
  | grant now ttl =>
    cases hexpires : leaseExpiry now ttl with
    | error e =>
      have hgrant : ∀ error, leaseGrant error now ttl book = .error e := by
        intro error
        rw [leaseGrant, hexpires]
        rfl
      simp only [Book.answer, hgrant, and_self]
    | ok expires =>
      by_cases hissued : book.issued < maxTime
      · have hgrant : leaseGrant exhausted now ttl book = leaseGrant exhausted' now ttl book := by
          simp only [leaseGrant, hissued, if_true]
        simp only [Book.answer, hgrant, and_self]
      · have hgrant : ∀ error, leaseGrant error now ttl book = .error error := by
          intro error
          rw [leaseGrant, hexpires]
          exact if_neg hissued
        simp [Book.answer, hgrant, LeaseEvent.plain, Except.mapError, hplain, hplain']
  | keepalive now id =>
    have hkeep := leaseKeepalive_congr hplus hplus' hroom
    simp only [Book.answer, hkeep, and_self]
  | sweep now => exact ⟨rfl, rfl⟩

end Accounts

/-! ## Registries over time -/

/-- A registry, the ids it has given out, and the answers it has given on leases. -/
structure Ledger (σ : Type) where
  store : σ
  issued : ℕ
  events : List LeaseEvent

def Ledger.initial {σ : Type} (store : σ) : Ledger σ := ⟨store, 0, []⟩

inductive Move (ℓ : Type)
  | other (label : ℓ)
  | grant (now ttl : ℕ)
  | keepalive (now id : ℕ)

namespace Backend

variable {σ ℓ : Type} (b : Backend σ ℓ)

def book (s : Ledger σ) : Book := ⟨b.leases s.store, s.issued⟩

/-- The state after a call, with its answer. -/
def answered (s : Ledger σ) (call : LeaseCall) : Ledger σ :=
  let result := (b.book s).answer b.exhausted b.plus call
  ⟨b.setLeases s.store result.1.leases, result.1.issued, s.events ++ [result.2]⟩

def act (s : Ledger σ) : Move ℓ → Option (Ledger σ)
  | .grant now ttl => some (b.answered s (.grant now ttl))
  | .keepalive now id => some (b.answered s (.keepalive now id))
  | .other label => (b.step s.store label).map fun store =>
    { s with
      store
      events := s.events ++
        ((b.sweeps s.store label).map fun now =>
          ((b.book s).answer b.exhausted b.plus (.sweep now)).2).toList }

/-- A keepalive whose sum fits the column. -/
def Room (s : Ledger σ) : Move ℓ → Prop
  | .keepalive now id => Fits now id (b.leases s.store)
  | _ => True

variable {b} {s t : Ledger σ} {move : Move ℓ} {id since now : ℕ} {row : LeaseRow}

theorem answered_book (call : LeaseCall) :
    b.book (b.answered s call) = ((b.book s).answer b.exhausted b.plus call).1 := by
  unfold book answered
  rw [b.leases_set]
  rfl

/-- Every step gives the answer to one call on the leases, or leaves them alone. -/
theorem act_cases (h : b.act s move = some t) :
    (b.book t = b.book s ∧ t.events = s.events) ∨
      ∃ call, b.book t = ((b.book s).answer b.exhausted b.plus call).1 ∧
        t.events = s.events ++ [((b.book s).answer b.exhausted b.plus call).2] ∧
        (b.Room s move → call.Room (b.book s)) := by
  cases move with
  | grant now ttl =>
    obtain rfl := Option.some.inj h
    exact .inr ⟨_, answered_book _, rfl, fun _ => trivial⟩
  | keepalive now id =>
    obtain rfl := Option.some.inj h
    exact .inr ⟨_, answered_book _, rfl, fun hroom => hroom⟩
  | other label =>
    obtain ⟨store, hstore, rfl⟩ := Option.map_eq_some_iff.mp h
    cases hsweeps : b.sweeps s.store label with
    | none =>
      apply Or.inl
      simp [book, b.step_none _ _ _ hstore hsweeps]
    | some now =>
      refine .inr ⟨.sweep now, ?_, by simp, fun _ => trivial⟩
      unfold book Book.answer
      rw [b.step_some _ _ _ _ hstore hsweeps]

theorem act_answers (h : b.act s move = some t) :
    (b.book t = b.book s ∧ t.events = s.events) ∨
      ∃ call event, Book.Answers b.plus (b.book s) call (b.book t) event ∧
        t.events = s.events ++ [event] ∧ (b.Room s move → call.Room (b.book s)) := by
  rcases act_cases h with hsame | ⟨call, hbook, hevents, hroom⟩
  · exact .inl hsame
  · refine .inr ⟨call, _, ?_, hevents, hroom⟩
    rw [hbook]
    exact Book.answers _ _ _ _

/-- While the sums fit, the table holds what the accounts say. -/
theorem sound_of_run {store : σ} {moves : List (Move ℓ)} (hempty : b.leases store = [])
    (h : Run b.act b.Room (.initial store) moves s) : Sound s.events (b.book s) := by
  apply h.invariant (I := fun s => Sound s.events (b.book s))
  · unfold book Ledger.initial
    rw [hempty]
    exact Sound.initial
  · intro s move t hs hroom hact
    rcases act_answers hact with ⟨hbook, hevents⟩ | ⟨call, event, hanswers, hevents, hcall⟩
    · rw [hbook, hevents]
      exact hs
    · rw [hevents]
      exact hs.answers b.adds (hcall hroom) hanswers

/-- The answers of a run come after those that were there. -/
theorem run_expired {moves : List (Move ℓ)} (h : AnyRun b.act s moves t) (hissued : id ≤ s.issued)
    (hexpired : ∀ row ∈ b.leases s.store, row.id = id → row.expiresMs ≤ since) :
    ∃ events, t.events = s.events ++ events ∧ ((∀ e ∈ events, since ≤ e.time) →
      id ≤ t.issued ∧ (∀ row ∈ b.leases t.store, row.id = id → row ∈ b.leases s.store) ∧
        ∀ now answer, .kept now id answer ∈ events → ∃ e, answer = .error e) := by
  induction h with
  | nil =>
    refine ⟨[], (List.append_nil _).symm, fun _ => ⟨hissued, fun row hrow _ => hrow, ?_⟩⟩
    exact fun _ _ h => absurd h List.not_mem_nil
  | @snoc moves u t move _ _ hact ih =>
    obtain ⟨events, hevents, hlast⟩ := ih
    rcases act_answers hact with ⟨hbook, hsame⟩ | ⟨call, event, hanswers, hnext, -⟩
    · refine ⟨events, hsame.trans hevents, ?_⟩
      intro htimes
      obtain ⟨hissued, hrows, hkept⟩ := hlast htimes
      obtain ⟨hleases, hsame⟩ := Book.mk.inj hbook
      rw [hleases, hsame]
      exact ⟨hissued, hrows, hkept⟩
    · refine ⟨events ++ [event], by rw [hnext, hevents, List.append_assoc], ?_⟩
      intro htimes
      obtain ⟨hissued, hrows, hkept⟩ := hlast fun e he => htimes e (List.mem_append_left _ he)
      have hdead : ∀ row ∈ (b.book u).leases, row.id = id → row.expiresMs ≤ since :=
        fun row hrow hid => hexpired row (hrows row hrow hid) hid
      obtain ⟨hissued', hrows', hkept'⟩ := expired_stays hanswers hissued
        (htimes event (List.mem_append_right _ (List.mem_singleton_self _))) hdead
      refine ⟨hissued', fun row hrow hid => hrows row (hrows' row hrow hid) hid, ?_⟩
      intro now answer hmem
      rcases List.mem_append.mp hmem with hmem | hmem
      · exact hkept now answer hmem
      · exact hkept' now answer (List.mem_singleton.mp hmem).symm

/-- The answers to a list of calls, one after the other. -/
def replay (b : Backend σ ℓ) (calls : List LeaseCall) : Book × List LeaseEvent :=
  calls.foldl (fun done call =>
    ((done.1.answer b.exhausted b.plus call).1, done.2 ++ [(done.1.answer b.exhausted b.plus call).2]))
    (⟨[], 0⟩, [])

theorem replay_append (calls : List LeaseCall) (call : LeaseCall) :
    b.replay (calls ++ [call]) =
      (((b.replay calls).1.answer b.exhausted b.plus call).1,
        (b.replay calls).2 ++ [((b.replay calls).1.answer b.exhausted b.plus call).2]) := by
  simp [replay]

theorem answer_call (exhausted : Error) (plus : ℕ → ℕ → Result ℕ) (book : Book) (call : LeaseCall) :
    (book.answer exhausted plus call).2.call = call := by
  cases hanswers : book.answer exhausted plus call with
  | mk book' event =>
    have hanswer := Book.answers exhausted plus book call
    rw [hanswers] at hanswer
    cases hanswer <;> rfl

/-- The calls of a run decide the table and the answers. -/
theorem replay_of_run {store : σ} {moves : List (Move ℓ)} (hempty : b.leases store = [])
    (h : AnyRun b.act (.initial store) moves s) :
    b.replay (s.events.map LeaseEvent.call) = (b.book s, s.events) := by
  apply h.invariant (I := fun s => b.replay (s.events.map LeaseEvent.call) = (b.book s, s.events))
  · unfold book Ledger.initial
    rw [hempty]
    rfl
  · intro s move t hs _ hact
    rcases act_cases hact with ⟨hbook, hevents⟩ | ⟨call, hbook, hevents, -⟩
    · rw [hbook, hevents]
      exact hs
    · rw [hevents, List.map_append, List.map_singleton, answer_call, replay_append, hs, hbook]

/-- The calls of a run whose sums all fit have the same answers of another database. -/
theorem replay_of_room {τ κ : Type} (b' : Backend τ κ) {store : σ} {moves : List (Move ℓ)}
    (hempty : b.leases store = []) (h : Run b.act b.Room (.initial store) moves s) :
    (b'.replay (s.events.map LeaseEvent.call)).1 = b.book s ∧
      (b'.replay (s.events.map LeaseEvent.call)).2.map LeaseEvent.plain =
        s.events.map LeaseEvent.plain := by
  apply h.invariant (I := fun s => (b'.replay (s.events.map LeaseEvent.call)).1 = b.book s ∧
    (b'.replay (s.events.map LeaseEvent.call)).2.map LeaseEvent.plain =
      s.events.map LeaseEvent.plain)
  · unfold book Ledger.initial
    rw [hempty]
    exact ⟨rfl, rfl⟩
  · intro s move t hs hroom hact
    obtain ⟨hbook', hplain⟩ := hs
    rcases act_cases hact with ⟨hbook, hevents⟩ | ⟨call, hbook, hevents, hcall⟩
    · rw [hbook, hevents]
      exact ⟨hbook', hplain⟩
    · obtain ⟨hsame, hevent⟩ := answer_congr b.adds b'.adds b.plain b'.plain (hcall hroom)
      rw [hevents, List.map_append, List.map_singleton, answer_call, replay_append, hbook', hbook]
      refine ⟨hsame.symm, ?_⟩
      rw [List.map_append, List.map_append, hplain, List.map_singleton, List.map_singleton, hevent]

/-- What a registry does with its leases: it keeps one alive for exactly its time to live, wherever
the column holds the sum; it loses none before its end, and none comes back after it. -/
structure Keeps (b : Backend σ ℓ) (s : Ledger σ) : Prop where
  stored : ∀ row ∈ b.leases s.store, account s.events row.id = some ⟨row.ttlMs, row.expiresMs⟩
  kept : ∀ id a now, account s.events id = some a → (∀ e ∈ s.events, e.time ≤ now) →
    now < a.ends →
      ((∃ leases, Sqlite.leaseKeepalive now id (b.leases s.store) = .ok leases ∧
          Postgres.leaseKeepalive now id (b.leases s.store) = .ok leases ∧
          ⟨id, a.ttl, now + a.ttl⟩ ∈ leases) ↔ now + a.ttl ≤ maxTime)
  unexpired : ∀ move t, b.act s move = some t → ∀ row ∈ b.leases s.store,
    (∀ row' ∈ b.leases t.store, row'.id ≠ row.id) →
      ∃ now deleted, t.events = s.events ++ [.swept now deleted] ∧ row.expiresMs ≤ now
  expired : ∀ id since, id ≤ s.issued →
    (∀ row ∈ b.leases s.store, row.id = id → row.expiresMs ≤ since) →
      ∀ moves t, AnyRun b.act s moves t → ∃ events, t.events = s.events ++ events ∧
        ((∀ e ∈ events, since ≤ e.time) →
          (∀ row ∈ b.leases t.store, row.id = id → row ∈ b.leases s.store) ∧
          ∀ now answer, .kept now id answer ∈ events → ∃ e, answer = .error e)

theorem kept_iff {events : List LeaseEvent} {book : Book} {a : Account} (h : Sound events book)
    (haccount : account events id = some a) (hlatest : ∀ e ∈ events, e.time ≤ now)
    (hlive : now < a.ends) :
    (∃ leases, Sqlite.leaseKeepalive now id book.leases = .ok leases ∧
        Postgres.leaseKeepalive now id book.leases = .ok leases ∧
        ⟨id, a.ttl, now + a.ttl⟩ ∈ leases) ↔ now + a.ttl ≤ maxTime := by
  have hrow : ⟨id, a.ttl, a.ends⟩ ∈ book.leases := by
    rcases h.gone id a haccount with hmem | ⟨e, he, hends⟩
    · exact hmem
    · have := hlatest e he
      omega
  have halive : LeaseRow.alive now id ⟨id, a.ttl, a.ends⟩ = true := alive_iff.mpr ⟨rfl, hlive⟩
  constructor
  · rintro ⟨leases, -, hpostgres, -⟩
    obtain ⟨row, -, hrenew⟩ := mapM_mem_of_mem (leaseKeepalive_ok hpostgres).2 hrow
    rw [LeaseRow.renew, if_pos halive] at hrenew
    obtain ⟨expires, hplus, -⟩ := bind_eq_ok.mp hrenew
    unfold Postgres.plus at hplus
    split_ifs at hplus with hfits
    exact hfits
  · intro hsum
    have hfits : Fits now id book.leases := by
      intro row hmem hrowAlive
      rw [h.eq_of_id hmem hrow (alive_iff.mp hrowAlive).1]
      exact hsum
    obtain ⟨hknown, hends⟩ := h.known id a haccount
    have hnow : now ≤ maxTime := hlive.le.trans hends
    have hid : id ≤ maxTime := hknown.trans h.issued_le
    have hany : book.leases.any (LeaseRow.alive now id) = true :=
      List.any_eq_true.mpr ⟨_, hrow, halive⟩
    refine ⟨book.leases.map (LeaseRow.renewed now id), ?_, ?_, ?_⟩
    · rw [Sqlite.leaseKeepalive, leaseKeepalive_eq Sqlite.adds hfits hnow hid, if_pos hany]
    · rw [Postgres.leaseKeepalive, leaseKeepalive_eq Postgres.adds hfits hnow hid, if_pos hany]
    · rw [List.mem_map]
      exact ⟨_, hrow, Sound.renewed_of_alive halive⟩

theorem keeps_of_run {store : σ} {moves : List (Move ℓ)} (hempty : b.leases store = [])
    (h : Run b.act b.Room (.initial store) moves s) : b.Keeps s := by
  have hsound := sound_of_run hempty h
  constructor
  case stored => exact hsound.row
  case kept =>
    intro id a now haccount hlatest hlive
    exact kept_iff hsound haccount hlatest hlive
  case unexpired =>
    intro move t hact row hrow hlost
    rcases act_answers hact with ⟨hbook, -⟩ | ⟨call, event, hanswers, hevents, -⟩
    · have hleases := (Book.mk.inj hbook).1
      rw [hleases] at hlost
      exact absurd rfl (hlost row hrow)
    · obtain ⟨now, deleted, rfl, hexpires⟩ := expired_of_lost hanswers hrow hlost
      exact ⟨now, deleted, hevents, hexpires⟩
  case expired =>
    intro id since hissued hexpired moves t hrun
    obtain ⟨events, hevents, hlast⟩ := run_expired hrun hissued hexpired
    exact ⟨events, hevents, fun htimes => (hlast htimes).2⟩

end Backend

/-- While every keepalive of a live lease has a sum that its column holds, both databases keep
leases alive exactly, and the same calls have the same answers of both. -/
theorem lease_times_exact (sealer : SecretsSealer) :
    (∀ moves s, Run (Sqlite.backend sealer).act (Sqlite.backend sealer).Room
      (.initial .initial) moves s → (Sqlite.backend sealer).Keeps s) ∧
    (∀ moves s, Run (Postgres.backend sealer).act (Postgres.backend sealer).Room
      (.initial .initial) moves s → (Postgres.backend sealer).Keeps s) ∧
    ∀ moves s moves' s',
      Run (Sqlite.backend sealer).act (Sqlite.backend sealer).Room (.initial .initial) moves s →
      Run (Postgres.backend sealer).act (Postgres.backend sealer).Room
        (.initial .initial) moves' s' →
      s.events.map LeaseEvent.call = s'.events.map LeaseEvent.call →
      (Sqlite.backend sealer).book s = (Postgres.backend sealer).book s' ∧
        s.events.map LeaseEvent.plain = s'.events.map LeaseEvent.plain := by
  refine ⟨fun _ _ => Backend.keeps_of_run rfl, fun _ _ => Backend.keeps_of_run rfl, ?_⟩
  intro moves s moves' s' h h' hcalls
  obtain ⟨hbook, hplain⟩ := Backend.replay_of_room (Postgres.backend sealer) rfl h
  rw [hcalls, Backend.replay_of_run rfl h'.any] at hbook hplain
  exact ⟨hbook.symm, hplain.symm⟩

/-- A lease of all the time that is left is alive, and its sum is too large. -/
theorem longest_lease_fails :
    ¬∀ (now ttl later id : ℕ) (book : Book), Sqlite.leaseGrant now ttl ⟨[], 0⟩ = .ok (book, id) →
      Postgres.leaseGrant now ttl ⟨[], 0⟩ = .ok (book, id) → now ≤ later → later < now + ttl →
      ∃ leases, Sqlite.leaseKeepalive later id book.leases = .ok leases ∧
        Postgres.leaseKeepalive later id book.leases = .ok leases ∧
        ⟨id, ttl, later + ttl⟩ ∈ leases := by
  intro h
  obtain ⟨leases, -, hpostgres, -⟩ := h 1700000000000 (maxTime - 1700000000000) 1700000000001 1
    ⟨[⟨1, maxTime - 1700000000000, maxTime⟩], 1⟩ (toOption_eq_some.mp (by decide +kernel))
    (toOption_eq_some.mp (by decide +kernel)) (by decide) (by decide +kernel)
  have hnone : (Postgres.leaseKeepalive 1700000000001 1
      [⟨1, maxTime - 1700000000000, maxTime⟩]).toOption = none := by decide +kernel
  rw [hpostgres] at hnone
  cases hnone

/-- A lease of five seconds, kept alive after one. -/
theorem short_lease_kept :
    ∃ leases, Sqlite.leaseKeepalive 2000 1 [⟨1, 5000, 6000⟩] = .ok leases ∧
      Postgres.leaseKeepalive 2000 1 [⟨1, 5000, 6000⟩] = .ok leases ∧ ⟨1, 5000, 7000⟩ ∈ leases :=
  (((lease_times_exact unsealed).1 [.grant 1000 5000] _
    (Run.snoc .nil trivial rfl)).kept 1 ⟨5000, 6000⟩ 2000 rfl (by decide) (by decide)).mpr
    (by decide)

end Hedronetes.Storage
