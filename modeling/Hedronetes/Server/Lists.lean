import Hedronetes.Server.Requests
import Hedronetes.Storage.SqliteInvariant

/-!
# Paged lists

A list reads the store page by page and streams the objects that match, until its
response holds as many as the limit allows. The token at its end names the last key
it looked at. A client follows the tokens while other connections write and compact.
-/

namespace Hedronetes.Server.Lists

open Apply
open Storage (StoredObject ListSelect ObjectList StoreKey startsWith)

/-- What a continue token carries. -/
structure Continue where
  revision : ℕ
  key : String
  selected : String
  labels : String
  fields : String
  deriving DecidableEq

/-- The texts of stored objects and of continue tokens. No object's text begins with the marker
of an envelope, and a token reads back as it was written. -/
structure Codec where
  /-- `serde_json::from_slice` of a stored value. -/
  parse : Bytes → Option Json
  write : Continue → String
  read : String → Outcome Continue
  parse_envelope : ∀ bytes, Storage.hasEnvelope bytes = true → parse bytes = none
  read_write : ∀ c, read (write c) = .ok c
  write_ne : ∀ c, write c ≠ ""

variable (codec : Codec)

/-- The stored object, read from its bytes. -/
def Codec.stored (obj : StoredObject) : Outcome Stored :=
  match codec.parse obj.value with
  | some value => .ok ⟨value, obj.revision⟩
  | none => .error (failure 500 "InternalError" "invalid stored object")

/-! ## One request -/

def number (query : Query) (name : String) : Outcome (Option ℕ) :=
  match query.get name with
  | none => .ok none
  | some v =>
    match parseU64 v with
    | some n => .ok (some n)
    | none => .error (bad "invalid numeric query value")

/-- What `list` has read off its request: the first store page, how many objects the response
may hold, and the texts of the selectors. -/
structure Asked where
  sel : ListSelect
  limit : ℕ
  labels : String
  fields : String

def labelsOf (query : Query) : String := (query.get "labelSelector").getD ""

def fieldsOf (query : Query) : String := (query.get "fieldSelector").getD ""

/-- The token of a request; an empty one counts as none. -/
def tokenOf (query : Query) : Option String := (query.get "continue").filter fun s => s ≠ ""

/-- How many objects a response may hold. -/
def responseLimit (limit : Option ℕ) : ℕ := min ((limit.filter fun l => 0 < l).getD 256) 4096

def asked (target : Target) (query : Query) : Outcome Asked := do
  let atRevision ← number query "resourceVersion"
  let limit ← number query "limit"
  let limit := responseLimit limit
  let labels := labelsOf query
  let fields := fieldsOf query
  let sel : ListSelect := ⟨target.pathPrefix, atRevision, none, 256⟩
  match tokenOf query with
  | none => return ⟨sel, limit, labels, fields⟩
  | some token =>
    let c ← codec.read token
    if c.selected ≠ target.pathPrefix ∨ c.labels ≠ labels ∨ c.fields ≠ fields then
      throw (bad "continue token scope or selector mismatch")
    else if atRevision.any fun rv => rv ≠ 0 ∧ rv ≠ c.revision then
      throw (bad "continue token resourceVersion mismatch")
    else
      let startAfter ← key c.key
      return ⟨{ sel with atRevision := some c.revision, startAfter := some startAfter },
        limit, labels, fields⟩

/-- The objects streamed so far, and how many were looked at. -/
structure Sent where
  items : List Json
  scanned : ℕ

/-- Where a response stops: not on this store page, or for good, with the key to resume from. -/
inductive Stopping where
  | goesOn
  | stops (next : Option StoreKey)
  deriving DecidableEq

variable (lib : Libraries) (grant : Grant)

/-- One object of a store page, sent while the registry is `now`. -/
def sendItem (now : Registry) (obj : StoredObject) : Outcome (Option Json) := do
  emitItem lib grant now (← codec.stored obj)

/-- Stream the objects of a store page. `more` says that the store has another page. -/
def send (now : StoreKey → Registry) (limit : ℕ) (more : Bool) :
    List StoredObject → Sent → Outcome (Sent × Stopping)
  | [], sent => .ok (sent, .goesOn)
  | obj :: rest, sent => do
    let item ← sendItem codec lib grant (now obj.key) obj
    let sent : Sent := ⟨sent.items ++ item.toList, sent.scanned + 1⟩
    if limit ≤ sent.items.length ∨ 4096 ≤ sent.scanned then
      return (sent, .stops (if rest ≠ [] ∨ more then some obj.key else none))
    else send now limit more rest sent

/-! ## Following the tokens -/

/-- A complete response: its items and its metadata. -/
structure Page where
  items : List Json
  revision : ℕ
  token : String
  deriving DecidableEq

/-- Why the body of a response breaks off. -/
inductive Cause where
  /-- An object could not be read, or its reader lost the right to it. -/
  | item (e : Stop)
  /-- The next store page could not be read. -/
  | snapshot (e : Storage.Error)
  deriving DecidableEq

/-- Where a client stands, with the pages it has. -/
inductive Listing where
  /-- No response is open. -/
  | paged (pages : List Page)
  /-- The response has read the store up to `next`. -/
  | streaming (request : Asked) (revision : ℕ) (next : StoreKey) (sent : Sent) (pages : List Page)
  | refused (e : Stop) (pages : List Page)
  | cut (cause : Cause) (pages : List Page)

def Listing.pages : Listing → List Page
  | paged pages => pages
  | streaming _ _ _ _ pages => pages
  | refused _ pages => pages
  | cut _ pages => pages

/-- The metadata of a response: where to go on, if there is more. -/
def closed (target : Target) (request : Asked) (revision : ℕ) (items : List Json)
    (next : Option StoreKey) : Page where
  items := items
  revision := revision
  token := match next with
    | some k => codec.write ⟨revision, k.value, target.pathPrefix, request.labels, request.fields⟩
    | none => ""

/-- What becomes of a response when it has read one more store page. -/
def deliver (target : Target) (request : Asked) (revision : ℕ) (now : StoreKey → Registry)
    (sent : Sent) (pages : List Page) (page : ObjectList) : Listing :=
  match send codec lib grant now request.limit page.nextAfter.isSome page.items sent with
  | .error e => .cut (.item e) pages
  | .ok (sent, .stops next) => .paged (pages ++ [closed codec target request revision sent.items next])
  | .ok (sent, .goesOn) =>
    match page.nextAfter with
    | none => .paged (pages ++ [closed codec target request revision sent.items none])
    | some next => .streaming request revision next sent pages

variable (sealer : Storage.SecretsSealer) (target : Target)

/-- A request up to the first store page. Its revision fixes that of the response. -/
def ask (query : Query) (now : StoreKey → Registry) (pages : List Page) (t : Storage.Tables) :
    Listing :=
  match asked codec target query with
  | .error e => .refused e pages
  | .ok request =>
    match Storage.Sqlite.list sealer request.sel t with
    | .error e => .refused (storageFailure e) pages
    | .ok page => deliver codec lib grant target request page.revision now ⟨[], 0⟩ pages page

/-- The next store page of an open response. -/
def resume (request : Asked) (revision : ℕ) (next : StoreKey) (now : StoreKey → Registry)
    (sent : Sent) (pages : List Page) (t : Storage.Tables) : Listing :=
  match Storage.Sqlite.list sealer
      { request.sel with atRevision := some revision, startAfter := some next } t with
  | .error e => .cut (.snapshot e) pages
  | .ok page => deliver codec lib grant target request revision now sent pages page

/-- The store with its connections, and one client's list. -/
structure System where
  store : Storage.Sqlite.State
  listing : Listing

def System.initial : System := ⟨.initial, .paged []⟩

/-- A connection of the store moves, the client asks for a page, or its open response reads the
store. `now` is the registry as each object is sent. -/
inductive Label where
  | storage (l : ℕ × Storage.Sqlite.Action)
  | ask (query : Query) (now : StoreKey → Registry)
  | resume (now : StoreKey → Registry)

def Label.lists : Label → Bool
  | storage _ => false
  | _ => true

def step (s : System) : Label → Option System
  | .storage l => (Storage.Sqlite.step sealer s.store l).map fun store => { s with store := store }
  | .ask query now =>
    match s.listing with
    | .paged pages =>
      some { s with listing := ask codec lib grant sealer target query now pages s.store.tables }
    | _ => none
  | .resume now =>
    match s.listing with
    | .streaming request revision next sent pages => some { s with
        listing := resume codec lib grant sealer target request revision next now sent pages
          s.store.tables }
    | _ => none

/-- The requests of a client that follows the tokens: the first one carries none, and every later
one the token of the page before it, with the same selectors and no other revision. -/
def Follows (labels fields : String) (s : System) : Label → Prop
  | .ask query _ => labelsOf query = labels ∧ fieldsOf query = fields ∧
      match s.listing.pages.getLast? with
      | none => tokenOf query = none
      | some page => page.token ≠ "" ∧ query.get "continue" = some page.token ∧
          (∃ rv, number query "resourceVersion" = .ok rv ∧ ∀ r, rv = some r → r = 0 ∨ r = page.revision) ∧
          ∃ limit, number query "limit" = .ok limit
  | _ => True

/-! ## A codec for the examples -/

/-- Texts as one: each character behind a sign, each text before a comma. -/
def pack (texts : List (List Char)) : List Char :=
  texts.flatMap fun s => s.flatMap (fun c => ['+', c]) ++ [',']

def unpack : List Char → List Char → List (List Char)
  | '+' :: c :: rest, read => unpack rest (read ++ [c])
  | ',' :: rest, read => read :: unpack rest []
  | _, _ => []

theorem unpack_text (s rest read : List Char) :
    unpack (s.flatMap (fun c => ['+', c]) ++ ',' :: rest) read = (read ++ s) :: unpack rest [] := by
  induction s generalizing read with
  | nil => simp [unpack]
  | cons c s ih => simpa [unpack] using ih (read ++ [c])

theorem unpack_pack (texts : List (List Char)) : unpack (pack texts) [] = texts := by
  induction texts with
  | nil => rfl
  | cons s texts ih =>
    have hpack : pack (s :: texts) = s.flatMap (fun c => ['+', c]) ++ ',' :: pack texts := by
      simp [pack]
    rw [hpack, unpack_text, ih, List.nil_append]

/-- Reads the one byte of a stored value as the number of the object in a table. -/
def Codec.plain (values : List Json) : Codec where
  parse bytes := if Storage.hasEnvelope bytes then none else values[(bytes.headD 0).toNat]?
  write c := String.ofList (pack [List.replicate c.revision '1', c.key.toList, c.selected.toList,
    c.labels.toList, c.fields.toList])
  read s :=
    match unpack s.toList [] with
    | [revision, key, selected, labels, fields] => .ok ⟨revision.length, String.ofList key,
        String.ofList selected, String.ofList labels, String.ofList fields⟩
    | _ => .error (bad "invalid continue token")
  parse_envelope bytes h := by rw [if_pos h]
  read_write c := by simp [unpack_pack]
  write_ne c h := by
    have hlist := congrArg String.toList h
    simp [pack] at hlist

end Hedronetes.Server.Lists
