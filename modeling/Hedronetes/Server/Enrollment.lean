import Hedronetes.Network.NodeCidrs
import Hedronetes.Server.Concurrent

/-!
# Enrollment of nodes

A node joins with the cluster's token and a password of its own. The first join of a name records
the digest of its password; every later one must match it. The certificates that a node asks for
are signed for the names recorded.
-/

namespace Hedronetes.Server

open FirstMatch Apply Auth Effects Interleaving Network Runs
open Storage (StoreKey)

/-! ## Secrets -/

abbrev Hash := Vector UInt8 32

def isHexDigit (ch : Char) : Bool :=
  ch.isDigit || ('a' ≤ ch && ch ≤ 'f') || ('A' ≤ ch && ch ≤ 'F')

def validPassword (password : String) : Bool :=
  decide (password.utf8ByteSize = 64) && password.toList.all isHexDigit

/-! ## Records -/

structure Registration where
  version : ℕ
  passwordHash : Hash
  deriving DecidableEq

namespace Registration

def toJson (r : Registration) : Json :=
  .object [("password_hash",
      .array (r.passwordHash.toList.map fun b => .number (.int b.toNat))),
    ("version", .number (.int r.version))]

def readByte (j : Json) : Option UInt8 :=
  (j.asInt.filter fun n => 0 ≤ n ∧ n < 256).map fun n => UInt8.ofNat n.toNat

def readHash (j : Json) : Option Hash := do
  let items ← j.asArray
  let bytes ← items.mapM readByte
  if h : bytes.length = 32 then some ⟨bytes.toArray, h⟩ else none

def readVersion (j : Json) : Option ℕ :=
  (j.asInt.filter fun n => 0 ≤ n ∧ n < 2 ^ 32).map Int.toNat

/-- A record is read from its members, or from the list of their values; no other is allowed. -/
def ofJson : Json → Option Registration
  | .array [version, hash] => do return ⟨← readVersion version, ← readHash hash⟩
  | .object fields =>
    if onlyKeys (.object fields) ["version", "password_hash"] then do
      return ⟨← readVersion (Json.object fields)["version"],
        ← readHash (Json.object fields)["password_hash"]⟩
    else none
  | _ => none

theorem asInt_of_range {n : ℤ} (h : -2 ^ 63 ≤ n ∧ n < 2 ^ 63) :
    (Json.number (.int n)).asInt = some n := if_pos h

theorem asInt_ofNat {n : ℕ} (h : n < 2 ^ 32) : (Json.number (.int n)).asInt = some (n : ℤ) :=
  asInt_of_range (by omega)

theorem readByte_toNat (b : UInt8) : readByte (.number (.int b.toNat)) = some b := by
  have hb : b.toNat < 256 := b.toNat_lt
  have hbyte : 0 ≤ (b.toNat : ℤ) ∧ (b.toNat : ℤ) < 256 := by omega
  rw [readByte, asInt_ofNat (by omega), Option.filter_some_pos (by simpa using hbyte)]
  simp

theorem readBytes_toNat (bytes : List UInt8) :
    (bytes.map fun b => Json.number (.int b.toNat)).mapM readByte = some bytes := by
  induction bytes with
  | nil => rfl
  | cons b bytes ih =>
    rw [List.map_cons, List.mapM_cons, readByte_toNat, ih]
    rfl

theorem readHash_toList (hash : Hash) :
    readHash (.array (hash.toList.map fun b => .number (.int b.toNat))) = some hash := by
  have hlength : hash.toList.length = 32 := by simp
  unfold readHash
  rw [Json.asArray, Option.bind_eq_bind, Option.bind_some, readBytes_toNat, Option.bind_eq_bind,
    Option.bind_some, dif_pos hlength]
  exact congrArg some (Vector.toArray_inj.mp Array.toArray_toList)

theorem readVersion_toJson {version : ℕ} (h : version < 2 ^ 32) :
    readVersion (.number (.int version)) = some version := by
  have hversion : 0 ≤ (version : ℤ) ∧ (version : ℤ) < 2 ^ 32 := by omega
  rw [readVersion, asInt_ofNat h, Option.filter_some_pos (by simpa using hversion)]
  simp

/-- A stored record reads back as it was. -/
theorem ofJson_toJson {r : Registration} (h : r.version < 2 ^ 32) : ofJson r.toJson = some r := by
  have hkeys : onlyKeys r.toJson ["version", "password_hash"] = true := by
    simp [onlyKeys, toJson, Json.asObject]
  have hversion : r.toJson["version"] = .number (.int r.version) := rfl
  have hhash : r.toJson["password_hash"] =
      .array (r.passwordHash.toList.map fun b => .number (.int b.toNat)) := rfl
  unfold toJson at hkeys hversion hhash ⊢
  simp only [ofJson, if_pos hkeys, hversion, hhash, readVersion_toJson h, readHash_toList]
  rfl

end Registration

/-! ## Requests -/

/-- What arrives of a body: 10 seconds and 16384 bytes are its limits. -/
inductive Received
  | bytes (content : Bytes)
  | late
  | tooLarge

/-- A request for a certificate, by the parts of it that are looked at. -/
structure CertificateRequest where
  method : String
  query : Option String
  /-- The values of the headers of that name; none where one is no text. -/
  authorization : List (Option String)
  contentType : Option String
  /-- One of the four slots for signing is free. -/
  slot : Bool
  body : Received

structure JoinRequest where
  nodeName : String
  password : String
  csrPem : String
  deriving DecidableEq

/-- What the enrolment of a server is configured with. -/
structure Bootstrap where
  tokenHash : Hash
  signNode : String → String → Option String
  signKubelet : String → String → Option String

/-- The digest of secrets and the decoding of bodies. -/
structure Enrollment where
  digest : String → Hash
  joinRequest : Bytes → Option JoinRequest
  /-- The CSR of a request for a serving certificate. -/
  servingRequest : Bytes → Option String

def unauthorized : Stop := failure 401 "Unauthorized" "invalid agent enrollment credentials"

section

variable (lib : Enrollment)

def signerSlot (request : CertificateRequest) (message : String) : Outcome Unit :=
  if request.slot then .ok () else .error (failure 429 "TooManyRequests" message)

def receive (request : CertificateRequest) (late tooLarge : String) : Outcome Bytes :=
  match request.body with
  | .bytes content => .ok content
  | .late => .error (failure 408 "Timeout" late)
  | .tooLarge => .error (failure 413 "RequestEntityTooLarge" tooLarge)

/-- Exactly one header, with the cluster's token. -/
def hasToken (tokenHash : Hash) (authorization : List (Option String)) : Bool :=
  match authorization with
  | [some header] => (stripStart "Bearer " header).any fun token => lib.digest token = tokenHash
  | _ => false

/-- The request that passes the checks that look at no record. -/
def joinRequest (state : Bootstrap) (request : CertificateRequest) : Outcome JoinRequest := do
  if request.method ≠ "POST" then
    throw (failure 405 "MethodNotAllowed" "agent enrollment requires POST")
  if request.query.isSome then throw (bad "enrollment does not accept query parameters")
  if !hasToken lib state.tokenHash request.authorization then throw unauthorized
  if request.contentType ≠ some "application/json" then
    throw (failure 415 "UnsupportedMediaType" "enrollment requires application/json")
  signerSlot request "enrollment capacity reached"
  let content ← receive request "enrollment body timed out" "enrollment body exceeds limit"
  match lib.joinRequest content with
  | none => throw (bad "invalid enrollment request")
  | some joined =>
    if !validNodeName joined.nodeName || !validPassword joined.password ||
        decide (8192 < joined.csrPem.utf8ByteSize) then
      throw (bad "invalid node name, password format or CSR size")
    else return joined

/-- The CSR of a request of a node for its serving certificate. -/
def servingRequest (request : CertificateRequest) : Outcome String := do
  if request.method ≠ "POST" ∨ request.query.isSome then
    throw (bad "kubelet certificate requires POST without query")
  if request.contentType ≠ some "application/json" then
    throw (failure 415 "UnsupportedMediaType" "JSON required")
  signerSlot request "certificate signer capacity reached"
  let content ← receive request "certificate body timed out" "certificate body exceeds limit"
  match lib.servingRequest content with
  | none => throw (bad "invalid serving certificate request")
  | some csr => if 8192 < csr.utf8ByteSize then throw (bad "CSR exceeds limit") else return csr

/-! ## Handlers -/

/-- A certificate, and whether the node is new. -/
structure Certificate where
  created : Bool
  pem : String

def identityPath (node : String) : String := "/registry/h3s-node-identities/" ++ node

/-- The stored record must match the password. -/
def checkRecord (password : String) (value : Json) : Outcome Unit :=
  match Registration.ofJson value with
  | none => .error (failure 500 "InternalError" "invalid enrollment record")
  | some record =>
    if record.version ≠ 1 then
      .error (failure 500 "InternalError" "unsupported enrollment record")
    else if lib.digest password ≠ record.passwordHash then .error unauthorized
    else .ok ()

/-- A node without a record must not exist. -/
def checkUnknown (k : StoreKey) (reg : Registry) : Outcome Unit :=
  if (reg.get k).isSome then .error (failure 409 "Conflict"
    "node exists without an enrollment record; administrator recovery is required")
  else .ok ()

def sign (signer : String → String → Option String) (node csr message : String) :
    Outcome String :=
  match signer node csr with
  | some pem => .ok pem
  | none => .error (bad message)

/-- The record, or a check that the node is not there either. -/
def findRecord (joined : JoinRequest) (k : StoreKey) : Handler (Option Stored) := do
  match ← .reading .object fun reg => .ok (reg.get k) with
  | some previous =>
    checkRecord lib joined.password previous.value
    return some previous
  | none =>
    let nodeKey ← key ("/registry/nodes/" ++ joined.nodeName)
    .reading .node (checkUnknown nodeKey)
    return none

def join (state : Option Bootstrap) (request : CertificateRequest) : Handler Certificate :=
  match state with
  | none => .fail (failure 404 "NotFound" "agent enrollment is not configured")
  | some state => do
    let joined ← joinRequest lib state request
    let k ← key (identityPath joined.nodeName)
    let previous ← findRecord lib joined k
    let pem ← sign state.signNode joined.nodeName joined.csrPem "invalid node CSR"
    match previous with
    | some _ => return ⟨false, pem⟩
    | none =>
      let _ ← Handler.store (.create k (Registration.toJson ⟨1, lib.digest joined.password⟩))
      return ⟨true, pem⟩

/-- The node of a user that may ask for a serving certificate. -/
def servedNode (user : User) : Outcome String :=
  match user.nodeName.filter fun n => validNodeName n with
  | some node => .ok node
  | none => .error (forbidden "kubelet certificate requires a native node identity")

def registered (path : String) : Handler Unit := do
  let k ← key path
  .reading .node fun reg =>
    if (reg.get k).isSome then .ok () else .error (forbidden "registered native node required")

def serving (state : Option Bootstrap) (user : User) (request : CertificateRequest) :
    Handler Certificate := do
  let node ← servedNode user
  match state with
  | none => .fail (failure 404 "NotFound" "native bootstrap is not configured")
  | some state =>
    let csr ← servingRequest lib request
    registered ("/registry/nodes/" ++ node)
    registered (identityPath node)
    let pem ← sign state.signKubelet node csr "invalid kubelet CSR"
    return ⟨false, pem⟩

end

/-! ## What records are kept -/

/-- The records of enrolment that are there stay as they are. -/
def Kept (reg reg' : Registry) : Prop :=
  ∀ k stored, Family "h3s-node-identities" k → reg.get k = some stored → reg'.get k = some stored

/-- The record of the node has the digest of the password. -/
def Recorded (lib : Enrollment) (reg : Registry) (joined : JoinRequest) : Prop :=
  ∃ k stored record, k.value = identityPath joined.nodeName ∧ reg.get k = some stored ∧
    Registration.ofJson stored.value = some record ∧
      record.passwordHash = lib.digest joined.password

/-- What is asked of a server: to enrol a node, to sign for one, or to write an object. -/
inductive Asked
  | join (state : Option Bootstrap) (request : CertificateRequest)
  | serving (state : Option Bootstrap) (user : User) (request : CertificateRequest)
  | write (submitted : Submitted)

inductive Answer
  | certificate (certificate : Certificate)
  | written (response : Response)

def Asked.handler (lib : Libraries) (enrollment : Enrollment) : Asked → Handler Answer
  | .join state request => do return .certificate (← Server.join enrollment state request)
  | .serving state user request => do
    return .certificate (← Server.serving enrollment state user request)
  | .write submitted => do return .written (← submitted.handler lib)

/-- What a request that succeeded leaves behind. -/
inductive Enrolled (enrollment : Enrollment) (reg : Registry) : Asked → Answer → Prop
  | joined {state : Bootstrap} {request : CertificateRequest} {joined : JoinRequest}
      {certificate : Certificate} : joinRequest enrollment state request = .ok joined →
      Recorded enrollment reg joined →
      state.signNode joined.nodeName joined.csrPem = some certificate.pem →
      Enrolled enrollment reg (.join (some state) request) (.certificate certificate)
  | served {state : Bootstrap} {user : User} {request : CertificateRequest} {node csr : String}
      {certificate : Certificate} {k : StoreKey} {stored : Stored} :
      user.nodeName = some node → servingRequest enrollment request = .ok csr →
      k.value = identityPath node → reg.get k = some stored →
      state.signKubelet node csr = some certificate.pem →
      Enrolled enrollment reg (.serving (some state) user request) (.certificate certificate)
  | written {submitted : Submitted} {response : Response} :
      Enrolled enrollment reg (.write submitted) (.written response)

variable {lib : Libraries} {enrollment : Enrollment} {reg reg' : Registry}

theorem Kept.refl (reg : Registry) : Kept reg reg := fun _ _ _ h => h

theorem Kept.trans {a b d : Registry} (h : Kept a b) (h' : Kept b d) : Kept a d :=
  fun k stored hk hget => h' k stored hk (h k stored hk hget)

def enrollmentContract : Contract Registry Purpose Call Asked where
  inv _ := True
  rely := Kept
  guard _ _ _ _ := True
  ensures _ _ _ _ := True
  refl := Kept.refl
  trans := Kept.trans

/-- A creation changes no object that is there. -/
theorem create_kept (k : StoreKey) (value : Json) (reg : Registry) :
    Kept reg ((Call.create k value).perform reg).2 := by
  intro k' stored _ hget
  cases hown : reg.get k with
  | some current =>
    simp only [Call.perform, hown]
    exact hget
  | none =>
    simp only [Call.perform, hown]
    rw [Registry.get_put_ne, hget]
    rintro rfl
    rw [hget] at hown
    cases hown

theorem family_identity {k : StoreKey} {node : String} (h : k.value = identityPath node) :
    Family "h3s-node-identities" k := ⟨node, h⟩

section

variable {asked : Asked} {seen : List Observed} {s t : Registry} {joined : JoinRequest}
  {k : StoreKey}

theorem Recorded.kept (h : Recorded enrollment s joined) (hkept : Kept s t) :
    Recorded enrollment t joined := by
  obtain ⟨k, stored, record, hk, hget, hrecord, hhash⟩ := h
  exact ⟨k, stored, record, hk, hkept k stored (family_identity hk) hget, hrecord, hhash⟩

theorem checkRecord_ok {password : String} {value : Json}
    (h : checkRecord enrollment password value = .ok ()) :
    ∃ record, Registration.ofJson value = some record ∧
      record.passwordHash = enrollment.digest password := by
  unfold checkRecord at h
  cases hread : Registration.ofJson value with
  | none =>
    rw [hread] at h
    cases h
  | some record =>
    rw [hread] at h
    dsimp only at h
    split_ifs at h with hversion hdigest
    exact ⟨record, rfl, (not_not.mp hdigest).symm⟩

theorem sign_ok {signer : String → String → Option String} {node csr message pem : String}
    (h : sign signer node csr message = .ok pem) : signer node csr = some pem := by
  unfold sign at h
  cases hsigned : signer node csr with
  | none =>
    rw [hsigned] at h
    cases h
  | some signed =>
    rw [hsigned] at h
    rw [Except.ok.inj h]

/-- A record that is found matches. -/
theorem meets_findRecord (hk : k.value = identityPath joined.nodeName) :
    Meets Call.perform enrollmentContract asked
      (fun previous _ t => ∀ stored, previous = some stored → Recorded enrollment t joined)
      (findRecord enrollment joined k) seen s := by
  unfold findRecord
  apply Meets.reading_bind
  intro previous reg hprevious _ _ hpast
  cases previous with
  | none =>
    apply Meets.lift_bind
    intro nodeKey _
    apply Meets.reading_bind
    intro _ _ _ _ _ _
    refine .pure fun _ _ _ stored hstored => ?_
    cases hstored
  | some previous =>
    apply Meets.lift_bind
    intro _ hcheck
    obtain ⟨record, hrecord, hhash⟩ := checkRecord_ok hcheck
    refine .pure fun t _ hkept stored _ => ?_
    have hfound : Recorded enrollment reg joined :=
      ⟨k, previous, record, hk, Except.ok.inj hprevious, hrecord, hhash⟩
    exact hfound.kept hkept

theorem meets_join {state : Option Bootstrap} {request : CertificateRequest} :
    Meets Call.perform enrollmentContract asked
      (fun certificate _ t => Enrolled enrollment t (.join state request) (.certificate certificate))
      (join enrollment state request) seen s := by
  cases state with
  | none => exact .fail
  | some state =>
    unfold join
    apply Meets.lift_bind
    intro joined hjoined
    apply Meets.lift_bind
    intro k hk
    have hpath : k.value = identityPath joined.nodeName := key_ok.mp hk
    apply Meets.bind (meets_findRecord hpath)
    intro previous seen' t _ _ _ hfound
    apply Meets.lift_bind
    intro pem hpem
    cases previous with
    | some previous =>
      refine .pure fun u _ hkept => ?_
      exact .joined hjoined ((hfound previous rfl).kept hkept) (sign_ok hpem)
    | none =>
      apply Meets.bind (P := fun _ _ t => Recorded enrollment t joined)
      · apply meets_store
        · exact fun t _ _ _ => ⟨trivial, trivial, create_kept k _ t⟩
        · intro t u stored _ _ _ hperform _ v _ hkept
          have hrecorded : Recorded enrollment u joined := by
            have hperformed := Call.performed (.create k
              (Registration.toJson ⟨1, enrollment.digest joined.password⟩)) t
            rw [hperform] at hperformed
            cases hperformed with
            | created _ =>
              exact ⟨k, _, _, hpath, Registry.get_put _ _ _,
                Registration.ofJson_toJson (by norm_num), rfl⟩
          exact hrecorded.kept hkept
      · intro stored _ t _ _ _ hrecorded
        refine .pure fun u _ hkept => ?_
        exact .joined hjoined (hrecorded.kept hkept) (sign_ok hpem)

theorem meets_registered {path : String} :
    Meets Call.perform enrollmentContract asked
      (fun _ _ t => ∀ node, path = identityPath node →
        ∃ k stored, k.value = identityPath node ∧ t.get k = some stored)
      (registered path) seen s := by
  unfold registered
  apply Meets.lift_bind
  intro k hk
  apply Meets.reading
  intro _ reg u hread _ _ hpast node hnode
  split_ifs at hread with hsome
  obtain ⟨stored, hget⟩ := Option.isSome_iff_exists.mp hsome
  have hpath : k.value = identityPath node := (key_ok.mp hk).trans hnode
  exact ⟨k, stored, hpath, hpast.since k stored (family_identity hpath) hget⟩

theorem servedNode_ok {user : User} {node : String} (h : servedNode user = .ok node) :
    user.nodeName = some node := by
  unfold servedNode at h
  split at h
  · rename_i found hfound
    rw [← Except.ok.inj h]
    exact (Option.filter_eq_some_iff.mp hfound).1
  · cases h

theorem meets_serving {state : Option Bootstrap} {user : User} {request : CertificateRequest} :
    Meets Call.perform enrollmentContract asked
      (fun certificate _ t =>
        Enrolled enrollment t (.serving state user request) (.certificate certificate))
      (serving enrollment state user request) seen s := by
  unfold serving
  apply Meets.lift_bind
  intro node hnode
  cases state with
  | none => exact .fail
  | some state =>
    apply Meets.lift_bind
    intro csr hcsr
    apply Meets.bind meets_registered
    intro _ _ _ _ _ _ _
    apply Meets.bind meets_registered
    intro _ _ t _ _ _ hfound
    obtain ⟨k, stored, hk, hget⟩ := hfound node rfl
    apply Meets.lift_bind
    intro pem hpem
    refine .pure fun u _ hkept => ?_
    exact .served (servedNode_ok hnode) hcsr hk (hkept k stored (family_identity hk) hget)
      (sign_ok hpem)

theorem perform_kept {call : Call} (h : ¬ Family "h3s-node-identities" call.key) (reg : Registry) :
    Kept reg (call.perform reg).2 := by
  intro k stored hk hget
  rw [call.perform_same reg k, hget]
  rintro rfl
  exact h hk

/-- Writes of objects have keys of their own. -/
theorem meets_submitted {submitted : Submitted} :
    Meets Call.perform enrollmentContract asked (fun _ _ _ => True) (submitted.handler lib) seen s := by
  apply handler_frame
  intro seen t call hown _ _
  refine ⟨trivial, trivial, perform_kept (fun hfamily => ?_) t⟩
  rcases hown.plural submitted.valid (by decide) hfamily with h | ⟨_, h⟩ | ⟨_, h⟩
  · have hserved : ∀ r ∈ resources, r.plural ≠ "h3s-node-identities" := by decide
    exact hserved _ submitted.valid.served h
  · exact absurd h (by decide)
  · exact absurd h (by decide)

theorem Enrolled.kept {answer : Answer} (h : Enrolled enrollment s asked answer) (hkept : Kept s t) :
    Enrolled enrollment t asked answer := by
  cases h with
  | joined hjoined hrecorded hsigned => exact .joined hjoined (hrecorded.kept hkept) hsigned
  | served hnode hcsr hk hget hsigned =>
    exact .served hnode hcsr hk (hkept _ _ (family_identity hk) hget) hsigned
  | written => exact .written

theorem meets_asked : Meets Call.perform enrollmentContract asked
    (fun answer _ t => Enrolled enrollment t asked answer) (asked.handler lib enrollment) seen s := by
  cases asked with
  | join state request =>
    apply Meets.bind meets_join
    intro certificate _ t _ _ _ henrolled
    exact .pure fun u _ hkept => henrolled.kept hkept
  | serving state user request =>
    apply Meets.bind meets_serving
    intro certificate _ t _ _ _ henrolled
    exact .pure fun u _ hkept => henrolled.kept hkept
  | write submitted =>
    apply Meets.bind meets_submitted
    intro response _ _ _ _ _ _
    exact .pure fun _ _ _ => .written

end

/-! ## Servers that enrol -/

abbrev EnrollingServers := Pool Registry Purpose Call Reply Stop Answer Asked

/-- A join of the node, with the password, has succeeded. -/
def HasJoined (enrollment : Enrollment) (p : EnrollingServers) (joined : JoinRequest) : Prop :=
  ∃ t ∈ p.threads, ∃ state request answer, t.request = .join (some state) request ∧
    joinRequest enrollment state request = .ok joined ∧ t.rest = .done answer

variable {s : Registry} {ls ms : List (Turn Asked)} {p q : EnrollingServers}
  {joined joined' : JoinRequest}

theorem enrolling_delivers
    (h : AnyRun (Pool.step Call.perform (Asked.handler lib enrollment)) ⟨s, []⟩ ls p) :
    enrollmentContract.Delivers Call.perform
      (fun asked answer _ t => Enrolled enrollment t asked answer) s p :=
  Contract.delivers (fun _ _ _ => meets_asked) trivial
    (h.weaken fun _ l _ => Contract.unguarded (fun _ _ _ _ => trivial) l)

theorem enrolling_kept
    (h : AnyRun (Pool.step Call.perform (Asked.handler lib enrollment)) ⟨s, []⟩ ls p)
    (h' : AnyRun (Pool.step Call.perform (Asked.handler lib enrollment)) p ms q) :
    Kept p.state q.state :=
  ((enrolling_delivers h).run (fun _ _ _ => meets_asked)
    (h'.weaken fun _ l _ => Contract.unguarded (fun _ _ _ _ => trivial) l)).2

theorem HasJoined.recorded
    (h : AnyRun (Pool.step Call.perform (Asked.handler lib enrollment)) ⟨s, []⟩ ls p)
    (hjoined : HasJoined enrollment p joined) : Recorded enrollment p.state joined := by
  obtain ⟨t, ht, state, request, answer, hrequest, hread, hdone⟩ := hjoined
  have henrolled := (enrolling_delivers h).finished ht hdone
  rw [hrequest] at henrolled
  cases henrolled with
  | joined hread' hrecorded =>
    rw [hread] at hread'
    rwa [Except.ok.inj hread']

/-- A node has one record, with one digest. -/
theorem Recorded.unique {reg : Registry} (h : Recorded enrollment reg joined)
    (h' : Recorded enrollment reg joined') (hsame : joined'.nodeName = joined.nodeName) :
    enrollment.digest joined'.password = enrollment.digest joined.password := by
  obtain ⟨k, stored, record, hk, hget, hrecord, hhash⟩ := h
  obtain ⟨k', stored', record', hk', hget', hrecord', hhash'⟩ := h'
  have hkeys : k' = k := StoreKey.value_injective (by rw [hk', hk, hsame])
  rw [hkeys, hget] at hget'
  rw [← Option.some.inj hget', hrecord] at hrecord'
  rw [← hhash, ← hhash', Option.some.inj hrecord']

/-- However the requests of any number of servers interleave, every certificate goes to a node on
record, and all the joins of a node that ever succeed have passwords of the digest on record. -/
theorem joins_agree
    (h : AnyRun (Pool.step Call.perform (Asked.handler lib enrollment)) ⟨s, []⟩ ls p)
    (h' : AnyRun (Pool.step Call.perform (Asked.handler lib enrollment)) p ms q) :
    (∀ t ∈ p.threads, ∀ answer, t.rest = .done answer →
      Enrolled enrollment q.state t.request answer) ∧
    ∀ joined joined', HasJoined enrollment p joined → HasJoined enrollment q joined' →
      joined'.nodeName = joined.nodeName →
        enrollment.digest joined'.password = enrollment.digest joined.password := by
  have hkept := enrolling_kept h h'
  constructor
  · intro t ht answer hdone
    exact ((enrolling_delivers h).finished ht hdone).kept hkept
  · intro joined joined' hjoined hjoined' hsame
    exact ((hjoined.recorded h).kept hkept).unique (hjoined'.recorded (h.trans h')) hsame

/-! ## A node that joins twice -/

/-- The number of the body tells the password; digests are sums. -/
def plainEnrollment : Enrollment where
  digest s := .replicate 32 (UInt8.ofNat (s.toList.foldl (fun n ch => n + ch.toNat) 0))
  joinRequest content := some ⟨"n1",
    String.ofList (List.replicate 64 (if content = [0] then 'a' else 'b')), "csr"⟩
  servingRequest _ := some "csr"

def plainBootstrap : Bootstrap where
  tokenHash := plainEnrollment.digest "cluster"
  signNode node csr := some (node ++ "/" ++ csr)
  signKubelet node csr := some (node ++ "/" ++ csr)

def askJoin (number : UInt8) : Turn Asked :=
  .arrive (.join (some plainBootstrap) ⟨"POST", none, [some "Bearer cluster"],
    some "application/json", true, .bytes [number]⟩)

/-- The joins that have succeeded: the node, and whether it was new. -/
def succeeded (p : EnrollingServers) : List (String × Bool) :=
  p.threads.filterMap fun t =>
    match t.request, t.rest with
    | .join (some state) request, .done (.certificate certificate) =>
      (joinRequest plainEnrollment state request).toOption.map fun joined =>
        (joined.nodeName, certificate.created)
    | _, _ => none

theorem node_joins_twice : ∃ p : EnrollingServers,
    AnyRun (Pool.step Call.perform (Asked.handler (.plain []) plainEnrollment)) ⟨.empty, []⟩
      ([askJoin 0] ++ List.replicate 3 (.advance 0) ++ [askJoin 0, askJoin 1] ++
        [.advance 2, .advance 1]) p ∧
    succeeded p = [("n1", true), ("n1", false)] ∧
    (∀ t ∈ p.threads, ∀ answer, t.rest = .done answer →
      Enrolled plainEnrollment p.state t.request answer) ∧
    ∀ joined joined', HasJoined plainEnrollment p joined → HasJoined plainEnrollment p joined' →
      joined'.nodeName = joined.nodeName →
        plainEnrollment.digest joined'.password = plainEnrollment.digest joined.password := by
  have hexec : (exec (Pool.step Call.perform (Asked.handler (.plain []) plainEnrollment))
      ⟨.empty, []⟩ ([askJoin 0] ++ List.replicate 3 (.advance 0) ++ [askJoin 0, askJoin 1] ++
        [.advance 2, .advance 1])).map succeeded = some [("n1", true), ("n1", false)] := by
    decide +kernel
  obtain ⟨p, hrun, hend⟩ := run_of_exec_map hexec
  exact ⟨p, hrun, hend, joins_agree hrun .nil⟩

end Hedronetes.Server
