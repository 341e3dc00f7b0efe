import Hedronetes.Storage.Backup
import Hedronetes.Storage.Sqlite

/-!
# Opening a registry

SQLite itself and the `geode` binary are parameters. SQLite reads a database from its file and the
write-ahead log beside it; the shared-memory file is an index that it makes anew. The custody of
Secrets is a key and a vault in a directory of their own.
-/

namespace Hedronetes.Storage

open FileTree Fallible

/-! ## The database -/

/-- What the opener reads of a database. -/
structure Database where
  userVersion : ℤ
  applicationId : ℤ
  /-- How many objects the schema has. -/
  objects : ℕ
  tables : Option Tables
  deriving DecidableEq

/-- The database that SQLite makes of a file and a log. -/
structure SqliteLibrary where
  database : Option Bytes → Option Bytes → Result Database

def APPLICATION : ℤ := 0x48335331

/-- `SqliteStore::open`, after SQLite has read the file. -/
def openDatabase (db : Database) : Result Tables :=
  if db.userVersion ≠ 0 ∧ db.userVersion ≠ 1 then .error (.schemaVersion db.userVersion)
  else if db.userVersion = 0 ∧ (db.objects ≠ 0 ∨ db.applicationId ≠ 0) then .error .foreignDatabase
  else if db.userVersion = 1 ∧ db.applicationId ≠ APPLICATION then .error .foreignDatabase
  else .ok (db.tables.getD .fresh)

/-- The registry of a data directory. -/
def openRegistry (sqlite : SqliteLibrary) (t : Option Tree) : Result Tables := do
  let db ← sqlite.database ((lookupPath t REGISTRY).bind content) ((lookupPath t WAL).bind content)
  openDatabase db

theorem openRegistry_congr {sqlite : SqliteLibrary} {t t' : Option Tree}
    (hdb : lookupPath t REGISTRY = lookupPath t' REGISTRY)
    (hwal : lookupPath t WAL = lookupPath t' WAL) : openRegistry sqlite t = openRegistry sqlite t' := by
  rw [openRegistry, openRegistry, hdb, hwal]

/-! ## Custody -/

/-- The commands of the binary: what `keygen` and `vault init` write, what a vault becomes with an
entry, and what `cat` prints of one. -/
structure Geode where
  keygen : ℕ → Result Bytes
  init : Bytes → Result Bytes
  sealEntry : Bytes → Bytes → Bytes → Bytes → Result Bytes
  cat : Bytes → Bytes → Bytes → Result Bytes

def SECRETS : Path := ["server", "secrets"]

def KEY : Path := ["server", "secrets", "secrets.gkey"]

def VAULT : Path := ["server", "secrets", "secrets.vault"]

def STAGING : Path := ["server", "secrets", "secrets.staging"]

def changeTree (f : Option Tree → Except Failure (Option Tree)) (t : Option Tree) (path : Path) :
    Result (Option Tree) :=
  (change true f t path).mapError (fileError path)

/-- The key, made on first use. -/
def ensureKey (geode : Geode) (draw : ℕ) (t : Option Tree) : Result (Option Tree) :=
  if (lookupPath t KEY).isSome then .ok t
  else do
    let key ← geode.keygen draw
    changeTree (writeFile key) t KEY

/-- The vault, made on first use with the key. -/
def ensureVault (geode : Geode) (t : Option Tree) : Result (Option Tree) :=
  if (lookupPath t VAULT).isSome then .ok t
  else
    match (lookupPath t KEY).bind content with
    | none => .error (.worker "geode failed")
    | some key => do
      let vault ← geode.init key
      changeTree (writeFile vault) t VAULT

/-- `GeodeSealer::create`. -/
def createCustody (geode : Geode) (draw : ℕ) (t : Option Tree) : Result (Option Tree) := do
  let t ← changeTree makeDir t SECRETS
  let t ← changeTree makeDir t STAGING
  let t ← ensureKey geode draw t
  ensureVault geode t

/-- The name of a vault entry. -/
def entryName (draw : ℕ) : Bytes :=
  (("s" ++ String.ofList (Nat.toDigits 16 draw)).toUTF8.toList)

def stripEnvelope (sealed : Bytes) : Option Bytes := geoEnvelope.isPrefixOf? sealed

/-- The sealer over the key and the vault of a data directory. -/
def geodeSealer (geode : Geode) (t : Option Tree) : SecretsSealer where
  sealBytes draw plaintext :=
    match (lookupPath t KEY).bind content, (lookupPath t VAULT).bind content with
    | some key, some vault => do
      let _ ← geode.sealEntry key vault (entryName draw) plaintext
      return geoEnvelope ++ entryName draw
    | _, _ => .error (.worker "geode failed")
  openBytes sealed :=
    match stripEnvelope sealed with
    | none => .error (.invalid "not a geode envelope")
    | some entry =>
      if (String.fromUTF8? ⟨entry.toArray⟩).isNone then
        .error (.invalid "geode envelope name is not utf8")
      else
        match (lookupPath t KEY).bind content, (lookupPath t VAULT).bind content with
        | some key, some vault => geode.cat key vault entry
        | _, _ => .error (.worker "geode failed")

/-! ## The server's store -/

structure Server where
  sealer : SecretsSealer
  tables : Tables

/-- How a server opens its SQLite store on a data directory, with or without encryption. -/
def openStore (geode : Geode) (sqlite : SqliteLibrary) (secretsEncryption : Bool) (draw : ℕ)
    (t : Option Tree) : Result Server :=
  if secretsEncryption then do
    let t ← createCustody geode draw t
    let tables ← openRegistry sqlite t
    return ⟨geodeSealer geode t, tables⟩
  else do
    let tables ← openRegistry sqlite t
    return ⟨unsealed, tables⟩

/-- A read of the server. -/
def Server.read (server : Server) (key : StoreKey) : Result (Option StoredObject) :=
  Sqlite.get server.sealer key server.tables

end Hedronetes.Storage
