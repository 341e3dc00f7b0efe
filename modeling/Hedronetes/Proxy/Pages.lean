import Hedronetes.Server.Values

/-!
# Paged lists

The proxy reads a list page by page. It keeps what it has read to itself until a page says that it
is the last, and gives up when a page belongs to another revision or the pages lead on too far.
-/

namespace Hedronetes.Proxy.Paging

open Fallible

inductive Error
  | transport
  | status (code : ℕ)
  | json
  | invalid (message : String)

/-- What comes back for a page: nothing, a refusal, or a body of a size that may be JSON. -/
inductive Response
  | failed
  | refused (code : ℕ)
  | body (size : ℕ) (value : Option Json)

def maxBytes : ℕ := 16 * 1024 * 1024

def maxItems : ℕ := 8192

structure Listing where
  items : List Json
  revision : String

structure Pages where
  items : List Json
  revision : Option String
  continuation : String
  cursors : Finset String

def Pages.start : Pages := ⟨[], none, "", ∅⟩

def demand (condition : Prop) [Decidable condition] (message : String) : Except Error Unit :=
  if condition then .ok () else .error (.invalid message)

def listRevision (value : Json) : Except Error String :=
  match value["metadata"]["resourceVersion"].asString.filter fun s =>
      s ≠ "" ∧ s.utf8ByteSize ≤ 128 with
  | some rv => .ok rv
  | none => .error (.invalid "list resourceVersion missing")

def listItems (value : Json) : Except Error (List Json) :=
  match value["items"].asArray with
  | some page => .ok page
  | none => .error (.invalid "list items missing")

def listContinuation (value : Json) : Except Error String :=
  match value["metadata"]["continue"] with
  | .null => .ok ""
  | .string s => .ok s
  | _ => .error (.invalid "invalid list continuation type")

/-- No partial list is exposed to the caller on any pagination failure. -/
def Pages.push (pages : Pages) (value : Json) : Except Error (Bool × Pages) := do
  let rv ← listRevision value
  demand (pages.revision.all (· = rv)) "list pagination changed revision"
  let page ← listItems value
  demand (pages.items.length + page.length ≤ maxItems) "API list exceeds item limit"
  let continuation ← listContinuation value
  let pages := { pages with items := pages.items ++ page, revision := some rv, continuation }
  if continuation = "" then return (true, pages)
  else do
    demand (continuation.utf8ByteSize ≤ 4096 ∧ continuation ∉ pages.cursors ∧
      (insert continuation pages.cursors).card ≤ 64) "invalid or excessive list continuation"
    return (false, { pages with cursors := insert continuation pages.cursors })

/-- The pages so far and the bytes that they have taken. -/
structure Loop where
  pages : Pages
  bytes : ℕ

def Loop.start : Loop := ⟨.start, 0⟩

def Loop.read (loop : Loop) (response : Response) : Except Error (Bool × Loop) :=
  match response with
  | .failed => .error .transport
  | .refused code => .error (.status code)
  | .body size value => do
    demand (loop.bytes + size ≤ maxBytes) "API list exceeds byte limit"
    match value with
    | none => .error .json
    | some value => do
      let (done, pages) ← loop.pages.push value
      return (done, ⟨pages, loop.bytes + size⟩)

/-- The loop over the pages, for a server that answers a request by its number and the token it
carries. Without fuel it has no result. -/
def list (server : ℕ → String → Response) : ℕ → ℕ → Loop → Option (Except Error Listing)
  | 0, _, _ => none
  | fuel + 1, n, loop =>
    match loop.read (server n loop.pages.continuation) with
    | .error e => some (.error e)
    | .ok (true, loop) => some (.ok ⟨loop.pages.items, loop.pages.revision.getD ""⟩)
    | .ok (false, loop) => list server fuel (n + 1) loop

/-! ## What a page adds -/

section Push

variable {pages next : Pages} {value : Json} {done : Bool}

theorem demand_ok {condition : Prop} [Decidable condition] {message : String} {u : Unit} :
    demand condition message = .ok u ↔ condition := by
  unfold demand
  split_ifs with h <;> simp [h]

/-- The last page carries no token. -/
def Last (value : Json) : Prop :=
  value["metadata"]["continue"] = .null ∨ value["metadata"]["continue"] = .string ""

/-- A page of a revision, with its items behind those before it. -/
structure Pushed (pages next : Pages) (value : Json) (rv : String) : Prop where
  version : value["metadata"]["resourceVersion"] = .string rv
  same : pages.revision.all (· = rv) = true
  items : next.items = pages.items ++ value["items"].items
  revision : next.revision = some rv

theorem listRevision_ok {rv : String} (h : listRevision value = .ok rv) :
    value["metadata"]["resourceVersion"] = .string rv := by
  unfold listRevision at h
  split at h
  · rename_i found hfound
    rw [← Except.ok.inj h]
    exact Json.asString_eq_some.mp (Option.filter_eq_some_iff.mp hfound).1
  · cases h

theorem listItems_ok {page : List Json} (h : listItems value = .ok page) :
    value["items"].items = page := by
  unfold listItems at h
  unfold Json.items
  split at h
  · rename_i found hfound
    rw [hfound, ← Except.ok.inj h]
    rfl
  · cases h

theorem listContinuation_ok {token : String} (h : listContinuation value = .ok token) :
    (token = "" → Last value) ∧ (token ≠ "" → value["metadata"]["continue"] = .string token) := by
  unfold listContinuation at h
  split at h
  · rename_i hnull
    rw [← Except.ok.inj h]
    exact ⟨fun _ => .inl hnull, fun hne => absurd rfl hne⟩
  · rename_i s hs
    obtain rfl := Except.ok.inj h
    refine ⟨?_, fun _ => hs⟩
    rintro rfl
    exact .inr hs
  · cases h

theorem push_ok (h : pages.push value = .ok (done, next)) :
    (∃ rv, Pushed pages next value rv) ∧
      if done then Last value
      else value["metadata"]["continue"] = .string next.continuation ∧ next.continuation ≠ "" ∧
        next.cursors.card = pages.cursors.card + 1 ∧ next.cursors.card ≤ 64 := by
  obtain ⟨rv, hrv, h⟩ := bind_eq_ok.mp h
  obtain ⟨_, hsame, h⟩ := bind_eq_ok.mp h
  obtain ⟨page, hpage, h⟩ := bind_eq_ok.mp h
  obtain ⟨_, -, h⟩ := bind_eq_ok.mp h
  obtain ⟨token, htoken, h⟩ := bind_eq_ok.mp h
  have hversion := listRevision_ok hrv
  have hitems := listItems_ok hpage
  obtain ⟨hlast, hon⟩ := listContinuation_ok htoken
  dsimp only at h
  split_ifs at h with hend
  · obtain ⟨rfl, rfl⟩ := Prod.mk.inj (Except.ok.inj h)
    exact ⟨⟨rv, hversion, demand_ok.mp hsame, by rw [hitems], rfl⟩, hlast hend⟩
  · obtain ⟨_, hcursor, h⟩ := bind_eq_ok.mp h
    obtain ⟨-, hnew, hfew⟩ := demand_ok.mp hcursor
    obtain ⟨rfl, rfl⟩ := Prod.mk.inj (Except.ok.inj h)
    exact ⟨⟨rv, hversion, demand_ok.mp hsame, by rw [hitems], rfl⟩, hon hend, hend,
      Finset.card_insert_of_notMem hnew, hfew⟩

end Push

/-! ## The loop -/

section Loop

variable {server : ℕ → String → Response} {loop next : Loop} {listing : Listing} {response : Response}
  {done : Bool}

theorem read_ok (h : loop.read response = .ok (done, next)) :
    ∃ size value, response = .body size (some value) ∧
      loop.pages.push value = .ok (done, next.pages) := by
  cases response with
  | failed => cases h
  | refused code => cases h
  | body size value =>
    obtain ⟨_, -, h⟩ := bind_eq_ok.mp h
    cases value with
    | none => cases h
    | some value =>
      obtain ⟨⟨flag, pages⟩, hpush, h⟩ := bind_eq_ok.mp h
      obtain ⟨rfl, rfl⟩ := Prod.mk.inj (Except.ok.inj h)
      exact ⟨size, value, rfl, hpush⟩

/-- The bodies of the answers to consecutive requests, each asked for with the token of the page
before it, up to one that carries none. -/
inductive Follows (server : ℕ → String → Response) : ℕ → String → List Json → Prop
  | last {n : ℕ} {token : String} {size : ℕ} {page : Json}
      (answer : server n token = .body size (some page)) (ends : Last page) :
      Follows server n token [page]
  | more {n : ℕ} {token : String} {size : ℕ} {page : Json} {token' : String} {pages : List Json}
      (answer : server n token = .body size (some page))
      (on : page["metadata"]["continue"] = .string token') (given : token' ≠ "")
      (rest : Follows server (n + 1) token' pages) : Follows server n token (page :: pages)

/-- A listing holds the items of all pages, which are of its revision. -/
structure Complete (server : ℕ → String → Response) (listing : Listing) (pages : List Json) :
    Prop where
  follows : Follows server 0 "" pages
  items : listing.items = pages.flatMap fun page => page["items"].items
  revision : ∀ page ∈ pages, page["metadata"]["resourceVersion"] = .string listing.revision

/-- A page ends the loop or leads on to the next. -/
theorem list_one (server : ℕ → String → Response) (n : ℕ) (loop : Loop) :
    (∃ result, ∀ fuel, list server (fuel + 1) n loop = some result) ∨
      ∃ next, loop.read (server n loop.pages.continuation) = .ok (false, next) ∧
        ∀ fuel, list server (fuel + 1) n loop = list server fuel (n + 1) next := by
  cases hread : loop.read (server n loop.pages.continuation) with
  | error e => exact .inl ⟨.error e, fun fuel => by simp only [list, hread]⟩
  | ok read =>
    obtain ⟨done, next⟩ := read
    cases done with
    | true =>
      exact .inl ⟨.ok ⟨next.pages.items, next.pages.revision.getD ""⟩, fun fuel => by
        simp only [list, hread]⟩
    | false => exact .inr ⟨next, rfl, fun fuel => by simp only [list, hread]⟩

/-- Every page that leads on takes one of the tokens that are left. -/
theorem list_ends {left n : ℕ} (h : 64 ≤ loop.pages.cursors.card + left) :
    ∃ result, ∀ fuel, left + 1 ≤ fuel → list server fuel n loop = some result := by
  induction left generalizing n loop with
  | zero =>
    rcases list_one server n loop with ⟨result, hresult⟩ | ⟨next, hread, -⟩
    · refine ⟨result, fun fuel hfuel => ?_⟩
      obtain ⟨fuel, rfl⟩ := Nat.exists_eq_add_of_le' hfuel
      exact hresult fuel
    · obtain ⟨_, value, -, hpush⟩ := read_ok hread
      obtain ⟨-, -, hcard, hfew⟩ := (push_ok hpush).2
      omega
  | succ left ih =>
    rcases list_one server n loop with ⟨result, hresult⟩ | ⟨next, hread, hnext⟩
    · refine ⟨result, fun fuel hfuel => ?_⟩
      obtain ⟨fuel, rfl⟩ := Nat.exists_eq_add_of_le' hfuel
      exact hresult (fuel + (left + 1))
    · obtain ⟨_, value, -, hpush⟩ := read_ok hread
      obtain ⟨-, -, hcard, -⟩ := (push_ok hpush).2
      have hroom : 64 ≤ next.pages.cursors.card + left := by omega
      obtain ⟨result, hresult⟩ := ih (n := n + 1) hroom
      refine ⟨result, fun fuel hfuel => ?_⟩
      obtain ⟨fuel, rfl⟩ := Nat.exists_eq_add_of_le' hfuel
      change list server (fuel + (left + 1) + 1) n loop = some result
      rw [hnext]
      exact hresult _ (Nat.le_add_left _ _)

/-- What is listed from a page on: the items that are there and those of the pages that follow. -/
theorem list_follows {fuel n : ℕ} (h : list server fuel n loop = some (.ok listing)) :
    ∃ pages, Follows server n loop.pages.continuation pages ∧
      listing.items = loop.pages.items ++ pages.flatMap (fun page => page["items"].items) ∧
      (∀ page ∈ pages, page["metadata"]["resourceVersion"] = .string listing.revision) ∧
      loop.pages.revision.all (· = listing.revision) = true := by
  induction fuel generalizing n loop with
  | zero => cases h
  | succ fuel ih =>
    cases hread : loop.read (server n loop.pages.continuation) with
    | error e =>
      simp only [list, hread] at h
      cases h
    | ok read =>
      obtain ⟨done, next⟩ := read
      obtain ⟨size, value, hanswer, hpush⟩ := read_ok hread
      obtain ⟨⟨rv, hpushed⟩, hend⟩ := push_ok hpush
      simp only [list, hread] at h
      cases done with
      | true =>
        obtain rfl := Except.ok.inj (Option.some.inj h)
        refine ⟨[value], .last hanswer hend, ?_, ?_, ?_⟩
        · rw [hpushed.items]
          simp
        · intro page hpage
          rw [List.mem_singleton.mp hpage, hpushed.version, hpushed.revision]
          rfl
        · rw [hpushed.revision]
          exact hpushed.same
      | false =>
        obtain ⟨pages, hfollows, hitems, hversions, hsame⟩ := ih h
        rw [hpushed.revision] at hsame
        have hrv : rv = listing.revision := by simpa using hsame
        refine ⟨value :: pages, .more hanswer hend.1 hend.2.1 hfollows, ?_, ?_, ?_⟩
        · rw [hitems, hpushed.items, List.flatMap_cons, List.append_assoc]
        · intro page hpage
          rcases List.mem_cons.mp hpage with rfl | hpage
          · rw [hpushed.version, hrv]
          · exact hversions page hpage
        · rw [← hrv]
          exact hpushed.same

/-- After 65 pages at most the loop ends, whatever the server sends, and a listing holds all pages
of one revision up to the last. -/
theorem list_all_or_nothing (server : ℕ → String → Response) :
    ∃ result, (∀ fuel, 65 ≤ fuel → list server fuel 0 .start = some result) ∧
      ∀ listing, result = .ok listing → ∃ pages, Complete server listing pages := by
  have hends : ∃ result, ∀ fuel, 64 + 1 ≤ fuel → list server fuel 0 .start = some result :=
    list_ends (by decide)
  obtain ⟨result, hresult⟩ := hends
  refine ⟨result, hresult, ?_⟩
  rintro listing rfl
  obtain ⟨pages, hfollows, hitems, hversions, -⟩ := list_follows (hresult 65 le_rfl)
  exact ⟨pages, hfollows, hitems, hversions⟩

end Loop

end Hedronetes.Proxy.Paging
