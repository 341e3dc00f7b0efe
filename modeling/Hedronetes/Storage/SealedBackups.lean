import Hedronetes.Storage.Durability

/-!
# Backups of sealed Secrets

A sealed row names an entry of the vault that the data directory keeps beside the registry. The
backup does not carry the vault, so a server on the restored directory starts with an empty one.
-/

namespace Hedronetes.Storage

open FileTree Fallible

variable {geode : Geode} {sqlite : SqliteLibrary} {draw draw' : ℕ} {display : String}
  {held inside secretsEncryption : Bool} {t t' dataDir target copy restored : Option Tree}
  {before after : Server}

/-! ## Custody of a directory -/

theorem ensureKey_frame {other : Path} (h : ensureKey geode draw t = .ok t') (hd : Diverge KEY other) :
    lookupPath t' other = lookupPath t other := by
  unfold ensureKey at h
  split_ifs at h
  · obtain rfl := Except.ok.inj h
    rfl
  · obtain ⟨_, _, h⟩ := bind_eq_ok.mp h
    exact changeTree_frame h hd

theorem ensureVault_frame {other : Path} (h : ensureVault geode t = .ok t')
    (hd : Diverge VAULT other) : lookupPath t' other = lookupPath t other := by
  unfold ensureVault at h
  split_ifs at h
  · obtain rfl := Except.ok.inj h
    rfl
  · split at h
    · cases h
    · obtain ⟨_, _, h⟩ := bind_eq_ok.mp h
      exact changeTree_frame h hd

/-- Custody leaves the registry alone. -/
theorem createCustody_registry (h : createCustody geode draw t = .ok t') :
    ∀ p ∈ registryFiles, lookupPath t' p = lookupPath t p := by
  obtain ⟨first, hfirst, h⟩ := bind_eq_ok.mp h
  obtain ⟨second, hsecond, h⟩ := bind_eq_ok.mp h
  obtain ⟨third, hthird, hlast⟩ := bind_eq_ok.mp h
  intro p hp
  have hd : ∀ p ∈ registryFiles, Diverge SECRETS p ∧ Diverge STAGING p ∧ Diverge KEY p ∧
      Diverge VAULT p := by decide
  obtain ⟨hsecrets, hstaging, hkey, hvault⟩ := hd p hp
  calc lookupPath t' p = lookupPath third p := ensureVault_frame hlast hvault
    _ = lookupPath second p := ensureKey_frame hthird hkey
    _ = lookupPath first p := changeTree_frame hsecond hstaging
    _ = lookupPath t p := changeTree_frame hfirst hsecrets

/-- Where there is no custody yet, the vault is a new one. -/
theorem createCustody_fresh (hnone : lookupPath t SECRETS = none)
    (h : createCustody geode draw t = .ok t') :
    ∃ key vault, geode.init key = .ok vault ∧ lookupPath t' VAULT = some (.file vault) := by
  obtain ⟨first, hfirst, h⟩ := bind_eq_ok.mp h
  obtain ⟨second, hsecond, h⟩ := bind_eq_ok.mp h
  obtain ⟨third, hthird, hlast⟩ := bind_eq_ok.mp h
  have hdir : lookupPath first SECRETS = some (.dir []) := by
    have hmade := lookupPath_change (mapError_eq_ok.mp hfirst)
    rw [hnone] at hmade
    exact (Except.ok.inj hmade).symm
  have hvault : lookupPath third VAULT = none := by
    calc lookupPath third VAULT = lookupPath second VAULT := ensureKey_frame hthird (by decide)
      _ = lookupPath first VAULT := changeTree_frame hsecond (by decide)
      _ = lookupPath (lookupPath first SECRETS) ["secrets.vault"] := lookupPath_append first SECRETS _
      _ = none := by rw [hdir]; rfl
  unfold ensureVault at hlast
  rw [if_neg (by simp [hvault])] at hlast
  split at hlast
  · cases hlast
  · rename_i key _
    obtain ⟨vault, hinit, hchange⟩ := bind_eq_ok.mp hlast
    exact ⟨key, vault, hinit, writeFile_ok (lookupPath_change (mapError_eq_ok.mp hchange))⟩

/-- A new vault has no entries. -/
def EmptyAtFirst (geode : Geode) : Prop :=
  ∀ key vault, geode.init key = .ok vault → ∀ k entry plaintext, geode.cat k vault entry ≠ .ok plaintext

theorem openBytes_fresh (hempty : EmptyAtFirst geode) (hnone : lookupPath t SECRETS = none)
    (h : createCustody geode draw t = .ok t') {sealed plaintext : Bytes} :
    (geodeSealer geode t').openBytes sealed ≠ .ok plaintext := by
  obtain ⟨key, vault, hinit, hread⟩ := createCustody_fresh hnone h
  intro hopen
  simp only [geodeSealer, hread, Option.bind_some, content] at hopen
  split at hopen
  · cases hopen
  · split_ifs at hopen
    split at hopen
    · rename_i hvault
      obtain rfl := Option.some.inj hvault
      exact hempty key _ hinit _ _ _ hopen
    · cases hopen

/-! ## Opening -/

theorem openStore_tables (h : openStore geode sqlite secretsEncryption draw t = .ok before) :
    openRegistry sqlite t = .ok before.tables := by
  unfold openStore at h
  split_ifs at h
  · obtain ⟨t', ht', h⟩ := bind_eq_ok.mp h
    obtain ⟨tables, htables, h⟩ := bind_eq_ok.mp h
    obtain rfl := Except.ok.inj h
    have hsame := createCustody_registry ht'
    rw [← openRegistry_congr (hsame REGISTRY (by decide)) (hsame WAL (by decide)), htables]
  · obtain ⟨tables, htables, h⟩ := bind_eq_ok.mp h
    obtain rfl := Except.ok.inj h
    exact htables

theorem openStore_sealer (h : openStore geode sqlite secretsEncryption draw t = .ok before) :
    if secretsEncryption then ∃ t', createCustody geode draw t = .ok t' ∧
      before.sealer = geodeSealer geode t'
    else before.sealer = unsealed := by
  unfold openStore at h
  split_ifs at h ⊢
  · obtain ⟨t', ht', h⟩ := bind_eq_ok.mp h
    obtain ⟨tables, _, h⟩ := bind_eq_ok.mp h
    obtain rfl := Except.ok.inj h
    exact ⟨t', ht', rfl⟩
  · obtain ⟨tables, _, h⟩ := bind_eq_ok.mp h
    obtain rfl := Except.ok.inj h
    rfl

theorem Server.read_ok {server : Server} {key : StoreKey} {obj : StoredObject} :
    server.read key = .ok (some obj) ↔
      ∃ stored, currentObject key server.tables.versions = some stored ∧
        ∃ value, decodeRowValue server.sealer stored.value = .ok value ∧
          obj = { stored with value := value } := by
  rw [Server.read, Sqlite.get, getObject]
  cases hcurrent : currentObject key server.tables.versions with
  | none => simp
  | some stored =>
    cases hdecode : decodeRowValue server.sealer stored.value with
    | error e => simp [Except.map, hdecode]
    | ok value => simp [Except.map, hdecode, eq_comm]

/-- Neither a registry nor custody is there yet. -/
structure Fresh (t : Option Tree) : Prop where
  registry : ∀ p ∈ registryFiles, lookupPath t p = none
  custody : lookupPath t SECRETS = none

/-- A backup restored into a fresh directory opens as the registry it was taken of. -/
theorem restored_registry (hbackup : backupCommand display held inside dataDir none = .ok copy)
    {display' : String} {held' : Bool} (htarget : Fresh target)
    (hrestore : restoreCommand display' held' target copy = .ok restored) :
    openRegistry sqlite restored = openRegistry sqlite dataDir ∧
      lookupPath restored SECRETS = none := by
  have hcopy := backupCommand_ok hbackup
  have hrestored := restoreCommand_ok hrestore
  have hreads : ∀ p ∈ registryFiles, lookupPath restored p = lookupPath dataDir p := by
    intro p hp
    have hempty : lookupPath (some (.dir [] : Tree)) p = none := by
      cases p with
      | nil => exact absurd hp (by decide)
      | cons name rest => exact lookupPath_none rest
    rw [hrestored.reads p hp, htarget.registry p hp, Option.or_none, hcopy.reads p hp, hempty,
      Option.or_none]
  constructor
  · exact openRegistry_congr (hreads REGISTRY (by decide)) (hreads WAL (by decide))
  · rw [hrestored.others SECRETS (by decide), htarget.custody]

/-- The restored server reads what was readable exactly where no readable row is sealed. -/
theorem self_sufficient_iff (hempty : EmptyAtFirst geode)
    (hbackup : backupCommand display held inside dataDir none = .ok copy)
    {display' : String} {held' : Bool} (htarget : Fresh target)
    (hrestore : restoreCommand display' held' target copy = .ok restored)
    (hbefore : openStore geode sqlite secretsEncryption draw dataDir = .ok before)
    (hafter : openStore geode sqlite secretsEncryption draw' restored = .ok after) :
    (∀ key obj, before.read key = .ok (some obj) → after.read key = .ok (some obj)) ↔
      (secretsEncryption = true → ∀ key obj stored,
        currentObject key before.tables.versions = some stored → before.read key = .ok (some obj) →
          hasEnvelope stored.value = false) := by
  have hrestored : openRegistry sqlite restored = openRegistry sqlite dataDir ∧
      lookupPath restored SECRETS = none := restored_registry hbackup htarget hrestore
  obtain ⟨hregistry, hcustody⟩ := hrestored
  have htables : after.tables = before.tables := by
    have hsame := openStore_tables hafter
    rw [hregistry, openStore_tables hbefore] at hsame
    exact (Except.ok.inj hsame).symm
  have hsealer := openStore_sealer hafter
  have hsealer' := openStore_sealer hbefore
  constructor
  · rintro hsame rfl key obj stored hcurrent hread
    rw [if_pos rfl] at hsealer
    obtain ⟨t', ht', hsealer⟩ := hsealer
    -- the envelope names an entry of a vault that the new one is not
    obtain ⟨stored', hstored', value, hdecode, -⟩ := Server.read_ok.mp (hsame key obj hread)
    rw [htables, hcurrent] at hstored'
    obtain rfl := Option.some.inj hstored'
    rw [decodeRowValue, hsealer] at hdecode
    by_contra henvelope
    rw [if_pos (by simpa using henvelope)] at hdecode
    exact openBytes_fresh hempty hcustody ht' hdecode
  · intro hplain key obj hread
    obtain ⟨stored, hcurrent, value, hdecode, rfl⟩ := Server.read_ok.mp hread
    apply Server.read_ok.mpr
    refine ⟨stored, by rw [htables, hcurrent], value, ?_, rfl⟩
    cases secretsEncryption with
    | false =>
      have hsame : after.sealer = before.sealer := hsealer.trans hsealer'.symm
      rw [hsame, hdecode]
    | true =>
      have hno := hplain rfl key _ stored hcurrent hread
      rw [decodeRowValue, if_neg (by simp [hno])] at hdecode ⊢
      exact hdecode

/-- A binary whose vaults hold one entry at most. -/
def oneEntry : Geode where
  keygen _ := .ok [1]
  init _ := .ok []
  sealEntry _ _ _ plaintext := .ok plaintext
  cat _ vault _ := if vault = [] then .error (.worker "geode failed") else .ok vault

theorem oneEntry_emptyAtFirst : EmptyAtFirst oneEntry := by
  intro key vault hinit k entry plaintext
  obtain rfl := Except.ok.inj hinit
  rintro ⟨⟩

def webSecret : StoreKey := ⟨"/registry/secrets/test/web", by decide⟩

/-- A database of one Secret, whose row holds the bytes of the file. -/
def oneSecret : SqliteLibrary where
  database db _ :=
    .ok ⟨1, APPLICATION, 3, some ⟨1, 0, [⟨webSecret, 1, ⟨db.getD [], 0⟩⟩], []⟩⟩

/-- A data directory with custody, whose one Secret is stored as the given bytes. -/
def custodyOf (stored : Bytes) : Tree :=
  .dir [("server", .dir [("ca.crt", .file [1]), ("db", .dir [("h3s.db", .file stored)]),
    ("node-token", .file [2]),
    ("secrets", .dir [("secrets.gkey", .file [1]), ("secrets.staging", .dir []),
      ("secrets.vault", .file [42])]),
    ("tls", .dir [])])]

def emptyRegistry : Tree := .dir [("server", .dir [("db", .dir [])])]

theorem emptyRegistry_fresh : Fresh (some emptyRegistry) := by
  constructor
  · decide
  · decide

theorem plain_secret_restored : ∃ copy restored before after,
    backupCommand "data" false false (some (custodyOf [7])) none = .ok copy ∧
      restoreCommand "backup" false (some emptyRegistry) copy = .ok restored ∧
      openStore oneEntry oneSecret true 0 (some (custodyOf [7])) = .ok before ∧
      openStore oneEntry oneSecret true 0 restored = .ok after ∧
      ((∀ key obj, before.read key = .ok (some obj) → after.read key = .ok (some obj)) ↔
        (true = true → ∀ key obj stored,
          currentObject key before.tables.versions = some stored → before.read key = .ok (some obj) →
            hasEnvelope stored.value = false)) :=
  ⟨_, _, _, _, rfl, rfl, rfl, rfl,
    @self_sufficient_iff oneEntry oneSecret 0 0 "data" false false true (some (custodyOf [7]))
      (some emptyRegistry) _ _ _ _ oneEntry_emptyAtFirst rfl "backup" false emptyRegistry_fresh rfl rfl rfl⟩

/-- The vault that the row's envelope names an entry of is not in the backup. -/
theorem sealed_secret_lost : ∃ copy restored before after,
    backupCommand "data" false false (some (custodyOf (geoEnvelope ++ [115, 49]))) none = .ok copy ∧
      restoreCommand "backup" false (some emptyRegistry) copy = .ok restored ∧
      openStore oneEntry oneSecret true 0 (some (custodyOf (geoEnvelope ++ [115, 49]))) =
        .ok before ∧
      openStore oneEntry oneSecret true 0 restored = .ok after ∧
      before.read webSecret = .ok (some ⟨webSecret, [42], 1⟩) ∧
      after.read webSecret = .error (.worker "geode failed") :=
  ⟨_, _, _, _, rfl, rfl, rfl, rfl, rfl, rfl⟩

end Hedronetes.Storage
