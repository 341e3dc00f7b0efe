import Hedronetes.Apply.Merge
import Hedronetes.Apply.MergeKeys
import Hedronetes.Apply.Shapes

/-!
# Server-side apply answers

Between objects of one type, and whatever the ownership records hold, server-side apply
ends in an object of the type or in a failure it answers with. No place that expects a
container, in the object or in the fields tree, finds anything else.
-/

namespace Hedronetes.Apply

open FirstMatch Fallible

/-- The request is answered. -/
def Stop.Answers : Stop → Prop
  | .failure _ _ _ => True
  | .panic _ => False

/-! ## The fields tree -/

section FieldsTree

variable (text : JsonText)

/-- The walk of `fields_v1` along one path, with what it expects at each level. -/
def plant : Json → Path → Outcome Json
  | root, [] => .ok root
  | .object fields, segment :: path => do
    let current := (lookup (keyOf text segment) fields).getD (.object [])
    return .object (insertKey (keyOf text segment) (← plant current path) fields)
  | _, _ :: _ => .error (.panic "fields tree")

def fieldsTree (paths : List Path) : Outcome Json := paths.foldlM (plant text) (.object [])

/-- Objects all the way down. -/
inductive Branching : Json → Prop
  | node {fields : List (String × Json)} : (∀ e ∈ fields, Branching e.2) →
      Branching (.object fields)

theorem plant_eq_ok {root : Json} (h : Branching root) (path : Path) :
    plant text root path = .ok (grow text root path) ∧ Branching (grow text root path) := by
  induction path generalizing root with
  | nil =>
    cases h with
    | node hfields => exact ⟨rfl, .node hfields⟩
  | cons segment path ih =>
    cases h with
    | @node fields hfields =>
      have hcurrent : Branching ((lookup (keyOf text segment) fields).getD (.object [])) := by
        cases hlookup : lookup (keyOf text segment) fields with
        | none => exact .node (by simp)
        | some current => exact hfields _ (mem_of_lookup hlookup)
      obtain ⟨hplant, hgrow⟩ := ih hcurrent
      constructor
      · rw [plant, hplant]
        rfl
      · apply Branching.node
        intro e he
        rcases mem_insertKey he with he | rfl
        · exact hfields e he
        · exact hgrow

/-- The walk along the paths of an entry finds what it expects. -/
theorem fieldsTree_eq (paths : List Path) : fieldsTree text paths = .ok (fieldsV1 text paths) := by
  have hfold : ∀ root, Branching root →
      paths.foldlM (plant text) root = .ok (paths.foldl (grow text) root) := by
    induction paths with
    | nil => exact fun _ _ => rfl
    | cons path paths ih =>
      intro root hroot
      obtain ⟨hplant, hgrow⟩ := plant_eq_ok text hroot path
      rw [List.foldlM_cons, hplant]
      exact ih _ hgrow
  exact hfold _ (.node (by simp))

end FieldsTree

/-! ## The steps of the merge -/

section Merge

variable {member metadata : String → Shape} {shape : Shape} {stored applied result : Json}

theorem claim_answers (options : Options) (existing : List Entry) (path : Path) :
    Ends (fun _ => True) Stop.Answers (claim stored applied options existing path) := by
  unfold claim
  split
  · trivial
  · split_ifs <;> trivial

/-- The applied object loses only what the API keeps for itself. -/
theorem dropBookkeeping_fits (h : Fits false (.object member) applied)
    (hmetadata : (applied.field "metadata").any Json.isObject = true) :
    ∃ kept, dropBookkeeping applied = .ok kept ∧ Fits false (.object member) kept := by
  cases h with
  | @object _ _ fields hfields =>
    obtain ⟨value, hvalue, hobject⟩ := (Option.any_eq_true _ _).mp hmetadata
    obtain ⟨inner, rfl⟩ := Json.isObject_iff.mp hobject
    change lookup "metadata" fields = _ at hvalue
    have hinner := hfields _ (mem_of_lookup hvalue) (by simp)
    refine ⟨_, by simp only [dropBookkeeping, hvalue]; rfl, ?_⟩
    apply (Fits.object hfields).insertKey
    intro _
    obtain ⟨metadata, hmember⟩ := hinner.of_object rfl
    rw [hmember] at hinner ⊢
    exact (((hinner.eraseKey managedFields).eraseKey "resourceVersion").eraseKey "uid").eraseKey
      "creationTimestamp"

theorem settle_fits (happlied : Fits false shape applied) {path : Path}
    (hpath : path ∈ declared applied) (h : Fits false shape result) :
    Ends (Fits false shape) Stop.Answers (settle applied result path) := by
  unfold settle
  cases hvalue : get applied path with
  | none => exact h
  | some value =>
    have htakes := (mem_declared.mp hpath).takes happlied happlied hvalue
    obtain ⟨written, hput, hfits⟩ := put_fits htakes fun _ => h
    cases path with
    | nil => exact h
    | cons segment path =>
      change Ends _ _ (put result (segment :: path) value)
      rw [hput]
      exact hfits

/-- The records enter the metadata of an object of the type. -/
theorem assign_records_fits {fields inner : List (String × Json)}
    (h : Fits false (.object member) (.object fields)) (hmetadata : member "metadata" = .object metadata)
    (hinner : lookup "metadata" fields = some (.object inner)) (managed : Json) :
    Ends (Fits false (.object member)) Stop.Answers (do
      let records ← assign (((Json.object fields).field "metadata").getD .null) managedFields managed
      assign (.object fields) "metadata" records) := by
  have hread : (Json.object fields).field "metadata" = some (.object inner) := hinner
  rw [hread]
  have hfits := h.field (by simp) hread
  rw [hmetadata] at hfits
  apply h.insertKey
  intro _
  rw [hmetadata]
  exact hfits.insertKey fun hskip => absurd ⟨by simp, rfl⟩ hskip

/-- Recording ownership keeps the type. -/
theorem record_fits (h : Fits false (.object member) result)
    (hmetadata : member "metadata" = .object metadata) (managed : List Json) :
    Ends (Fits false (.object member)) Stop.Answers (record result managed) := by
  cases h with
  | @object _ _ fields hfields =>
    have hfits := Fits.object hfields
    unfold record
    split_ifs with hmanaged hobject
    · exact hfits
    · obtain ⟨value, hvalue, hinner⟩ := (Option.any_eq_true _ _).mp hobject
      obtain ⟨inner, rfl⟩ := Json.isObject_iff.mp hinner
      exact assign_records_fits hfits hmetadata hvalue (.array managed)
    · have hempty : Fits false (.object member)
          (.object (insertKey "metadata" (.object []) fields)) := by
        apply hfits.insertKey
        intro _
        rw [hmetadata]
        exact .object (by simp)
      exact assign_records_fits hempty hmetadata (lookup_insertKey "metadata" _ fields)
        (.array managed)

end Merge

/-- For an applied and a stored object of one type, and whatever records of ownership the
stored one carries, server-side apply never panics, and what it returns is of the type. -/
theorem server_side_answers (text : JsonText) (time : String) (options : Options) {shape : Shape}
    {stored applied : Json} (hstored : Fits false shape stored) (happlied : Fits false shape applied)
    (hmetadata : (applied.field "metadata").any Json.isObject = true) :
    Ends (Fits false shape) Stop.Answers (serverSide text time stored applied options) ∧
      ∀ paths, fieldsTree text paths = .ok (fieldsV1 text paths) := by
  refine ⟨?_, fieldsTree_eq text⟩
  obtain ⟨fields, inner, rfl, hinner⟩ := metadata_object hmetadata
  obtain ⟨member, rfl⟩ := happlied.of_object rfl
  obtain ⟨metadata, hmember⟩ := (happlied.field (by simp) hinner).of_object rfl
  obtain ⟨kept, hkept, hfits⟩ := dropBookkeeping_fits happlied hmetadata
  rw [serverSide, hkept]
  have hclaims : Ends (fun _ => True) Stop.Answers
      ((declared kept).foldlM (claim stored kept options) (entries text stored)) :=
    .foldlM trivial fun existing path _ _ => claim_answers options existing path
  apply hclaims.bind
  intro existing _
  have hremoved : Fits false (.object member)
      (prune ((dropped (previousPaths (entries text stored) options.manager) (declared kept)).foldl
        remove stored)) := by
    apply Fits.prune
    exact List.foldlRecOn _ _ hstored fun root hroot path _ => hroot.remove path
  have hsettled : Ends (Fits false (.object member)) Stop.Answers
      ((declared kept).foldlM (settle kept) (prune ((dropped (previousPaths (entries text stored)
        options.manager) (declared kept)).foldl remove stored))) :=
    .foldlM hremoved fun result path hpath hresult => settle_fits hfits hpath hresult
  apply hsettled.bind
  intro result hresult
  exact record_fits hresult hmember _

/-! ## An unset field -/

/-- The part of a Service's type that names its ports. -/
def serviceShape : Shape :=
  .object fun name =>
    if name = "metadata" then .object fun _ => .scalar
    else if name = "spec" then
      .object fun name =>
        if name = "ports" then .list (.object fun _ => .scalar)
        else if name = "clusterIPs" then .list .scalar
        else .scalar
    else .scalar

def serviceWith (ports : List Json) (records addresses : Json) : Json :=
  .object [("metadata", .object [(managedFields, records), ("name", .string "web")]),
    ("spec", .object [("clusterIPs", addresses), ("ports", .array ports)])]

theorem serviceWith_fits {ports : List Json} {records addresses : Json}
    (hports : ∀ port ∈ ports, Fits false (.object fun _ => .scalar) port)
    (haddresses : Fits false (.list .scalar) addresses) :
    Fits false serviceShape (serviceWith ports records addresses) := by
  apply Fits.object
  simp only [List.forall_mem_cons, List.not_mem_nil, false_implies, implies_true, and_true]
  constructor
  · intro _
    apply Fits.object
    simp only [List.forall_mem_cons, List.not_mem_nil, false_implies, implies_true, and_true]
    exact ⟨fun hskip => absurd rfl hskip, fun _ => .scalar rfl rfl⟩
  · intro _
    apply Fits.object
    simp only [List.forall_mem_cons, List.not_mem_nil, false_implies, implies_true, and_true]
    exact ⟨fun _ => haddresses, fun _ => .list hports⟩

/-- A named port enters beside a nameless one with an unset `nodePort`. -/
theorem unset_port_answers :
    Ends (Fits false serviceShape) Stop.Answers (serverSide keyText "now"
      (serviceWith [.object [("nodePort", .null), ("port", .number (.int 53))]] (.string "odd") .null)
      (serviceWith [.object [("name", .string "http"), ("port", .number (.int 80))]] .null
        (.array [])) ⟨"a", false⟩) := by
  have hport : ∀ fields : List (String × Json), (∀ e ∈ fields, e.2.isObject = false ∧
      e.2.asArray = none) → Fits false (.object fun _ => .scalar) (.object fields) :=
    fun fields h => .object fun e he _ => .scalar (h e he).1 (h e he).2
  refine (server_side_answers keyText "now" ⟨"a", false⟩ (serviceWith_fits ?_ .unset)
    (serviceWith_fits ?_ (.list (by simp))) rfl).1
  · simp only [List.forall_mem_cons, List.not_mem_nil, false_implies, implies_true, and_true]
    exact hport _ (by decide)
  · simp only [List.forall_mem_cons, List.not_mem_nil, false_implies, implies_true, and_true]
    exact hport _ (by decide)

end Hedronetes.Apply
