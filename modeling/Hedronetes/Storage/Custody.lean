import Hedronetes.Storage.Contract

/-!
# Custody of Secret payloads

A write seals the payload of a Secret key; a read opens every value that begins
with the envelope marker. The sealer itself is a parameter: sealing the same
payload twice may give two envelopes, so each call carries its own draw.
-/

namespace Hedronetes.Storage

structure SecretsSealer where
  sealBytes : ℕ → Bytes → Result Bytes
  openBytes : Bytes → Result Bytes

/-- No custody: Secret payloads stay as written. -/
def unsealed : SecretsSealer := ⟨fun _ plaintext => .ok plaintext, fun sealed => .ok sealed⟩

/-- The bytes of `H3SGEO1:`. -/
def geoEnvelope : Bytes := [72, 51, 83, 71, 69, 79, 49, 58]

/-- `value.starts_with(GEO_ENVELOPE)`. -/
def hasEnvelope (value : Bytes) : Bool := geoEnvelope.isPrefixOf value

def isSecretKey (key : StoreKey) : Bool :=
  match "/registry/".toList.isPrefixOf? key.value.toList with
  | some tail => (tail.splitOn '/').head? = some "secrets".toList
  | none => false

/-- The text of an error. -/
def Error.text : Error → String
  | .invalid message => "invalid registry key or selection: " ++ message
  | .alreadyExists key => "object already exists: " ++ key.value
  | .notFound key => "object not found: " ++ key.value
  | .conflict expected actual =>
    "resource version conflict: expected " ++ toString expected ++ ", current " ++ toString actual
  | .compacted requested floor =>
    "revision " ++ toString requested ++ " is older than compaction floor " ++ toString floor
  | .futureRevision requested current =>
    "revision " ++ toString requested ++ " is newer than current revision " ++ toString current
  | .leaseExpired id => "lease " ++ toString id ++ " is missing or expired"
  | .foreignDatabase => "database is not an h3s registry; refusing to initialize or modify it"
  | .schemaVersion version => "unsupported registry schema version " ++ toString version
  | .database message => "registry database: " ++ message
  | .worker message => "registry worker: " ++ message
  | .custody message => "secrets custody: " ++ message

/-- What a create or an update stores for a payload. -/
def sealValue (sealer : SecretsSealer) (draw : ℕ) (key : StoreKey) (value : Bytes) :
    Result Bytes :=
  if isSecretKey key then sealer.sealBytes draw value else .ok value

/-- How the SQLite backend reads a stored value. -/
def decodeRowValue (sealer : SecretsSealer) (value : Bytes) : Result Bytes :=
  if hasEnvelope value then sealer.openBytes value else .ok value

/-- How the Postgres backend reads a stored value: any failure becomes a custody error. -/
def openRowValue (sealer : SecretsSealer) (value : Bytes) : Result Bytes :=
  if hasEnvelope value then (sealer.openBytes value).mapError fun e => .custody e.text
  else .ok value

/-- How the SQLite backend reads the predecessor of a change: by key and marker. -/
def decodePrevious (sealer : SecretsSealer) (key : StoreKey) (value : Bytes) : Result Bytes :=
  if isSecretKey key && hasEnvelope value then sealer.openBytes value else .ok value

/-- The backends agree on every value that either can read. -/
theorem openRowValue_ok {sealer : SecretsSealer} {value opened : Bytes} :
    openRowValue sealer value = .ok opened ↔ decodeRowValue sealer value = .ok opened := by
  unfold openRowValue decodeRowValue
  split_ifs
  · cases h : sealer.openBytes value <;> simp [Except.mapError]
  · rfl

/-- A value the SQLite backend can read as a current object it can read as a predecessor. -/
theorem decodePrevious_exists {sealer : SecretsSealer} (key : StoreKey) {value opened : Bytes}
    (h : decodeRowValue sealer value = .ok opened) :
    ∃ previous, decodePrevious sealer key value = .ok previous := by
  unfold decodePrevious
  unfold decodeRowValue at h
  split_ifs at h ⊢ with hk he
  · exact ⟨opened, h⟩
  · simp_all
  · exact ⟨value, rfl⟩
  · exact ⟨value, rfl⟩

end Hedronetes.Storage
