import Hedronetes.Server.Runs

/-!
# Request paths

A path is split and each segment decoded once. The target that it parses to addresses keys below
its own resource and namespace.
-/

namespace Hedronetes.Server

open Apply Auth Fallible
open Storage (StoreKey Bytes underPrefix validKey validSegment)

/-! ## Decoding -/

def hexDigit (b : UInt8) : Option UInt8 :=
  if 48 ≤ b ∧ b ≤ 57 then some (b - 48)
  else if 65 ≤ b ∧ b ≤ 70 then some (b - 55)
  else if 97 ≤ b ∧ b ≤ 102 then some (b - 87)
  else none

/-- A percent sign that no two hexadecimal digits follow stands for itself. -/
def percentDecode : Bytes → Bytes
  | 37 :: high :: low :: rest =>
    match hexDigit high, hexDigit low with
    | some h, some l => (16 * h + l) :: percentDecode rest
    | _, _ => 37 :: percentDecode (high :: low :: rest)
  | b :: rest => b :: percentDecode rest
  | [] => []

/-- Encoded separators may not turn a name into a different resource. -/
def decodeSegment (segment : String) : Outcome String :=
  match String.fromUTF8? ⟨(percentDecode segment.toUTF8.toList).toArray⟩ with
  | none => .error (bad "path must be UTF-8")
  | some decoded =>
    if decoded.toList.any (fun c => c ∈ ['/', '\\', '\x00']) ∨ decoded = "." ∨ decoded = ".." then
      .error (bad "invalid path segment")
    else .ok decoded

def joinOn (separator : Char) (parts : List String) : String :=
  String.ofList ([separator].intercalate (parts.map String.toList))

/-- The decoded path of a request. -/
def path (raw : String) : Outcome String := do
  let segments ← (splitOn '/' raw).mapM decodeSegment
  return joinOn '/' segments

theorem decodeSegment_slash {segment decoded : String} (h : decodeSegment segment = .ok decoded) :
    '/' ∉ decoded.toList := by
  unfold decodeSegment at h
  split at h
  · cases h
  · split_ifs at h with hbad
    obtain rfl := Except.ok.inj h
    intro hm
    apply hbad
    exact .inl (List.any_eq_true.mpr ⟨'/', hm, by decide⟩)

theorem splitOn_joinOn {separator : Char} {parts : List String}
    (hparts : ∀ p ∈ parts, separator ∉ p.toList) (hne : parts ≠ []) :
    splitOn separator (joinOn separator parts) = parts := by
  have hlists : ∀ l ∈ parts.map String.toList, separator ∉ l := by
    intro l hl
    obtain ⟨p, hp, rfl⟩ := List.mem_map.mp hl
    exact hparts p hp
  rw [splitOn, joinOn, String.toList_ofList, List.splitOn_intercalate separator hlists (by simpa using hne),
    List.map_map]
  simp

/-- The segments that a target is read from are those of the raw path, each decoded once. -/
theorem path_segments {raw decoded : String} (h : path raw = .ok decoded) :
    (splitOn '/' raw).mapM decodeSegment = .ok (splitOn '/' decoded) := by
  obtain ⟨segments, hsegments, h⟩ := bind_eq_ok.mp h
  obtain rfl := Except.ok.inj h
  rw [splitOn_joinOn, hsegments]
  · intro p hp
    obtain ⟨segment, _, hone⟩ := mapM_mem hsegments hp
    exact decodeSegment_slash hone
  · have hlength := mapM_length hsegments
    rintro rfl
    rw [List.length_nil, splitOn, List.length_map] at hlength
    exact List.splitOn_ne_nil '/' raw.toList (List.length_eq_zero_iff.mp hlength.symm)

/-! ## Names and keys -/

/-- A character of the names that keys are made of. -/
def nameChar (c : Char) : Bool := c.isAlphanum || c ∈ ['-', '.', '_', ':']

theorem validSegment_iff {s : List Char} : validSegment s = true ↔
    s ≠ [] ∧ s ≠ ['.'] ∧ s ≠ ['.', '.'] ∧ ∀ c ∈ s, nameChar c = true := by
  simp only [validSegment, nameChar, Bool.and_eq_true, decide_eq_true_eq, List.all_eq_true, and_assoc]

theorem slash_notMem {s : List Char} (h : validSegment s = true) : '/' ∉ s := by
  intro hm
  exact absurd ((validSegment_iff.mp h).2.2.2 '/' hm) (by decide)

theorem validSegment_label {n : String} (h : validLabelName n = true) :
    validSegment n.toList = true := by
  simp only [validLabelName, Bool.and_eq_true, decide_eq_true_eq, List.all_eq_true,
    Bool.or_eq_true] at h
  obtain ⟨⟨⟨⟨hne, -⟩, hall⟩, hhead⟩, -⟩ := h
  have hdot : n.toList.head? ≠ some '.' := by
    intro hdot
    rw [hdot] at hhead
    exact absurd hhead (by decide)
  refine validSegment_iff.mpr ⟨by simpa using hne, ?_, ?_, ?_⟩
  · intro heq
    exact hdot (by rw [heq]; rfl)
  · intro heq
    exact hdot (by rw [heq]; rfl)
  · intro c hc
    obtain (hlower | hdigit) | hdash := hall c hc
    · simp [nameChar, Char.isAlphanum, Char.isAlpha, hlower]
    · simp [nameChar, Char.isAlphanum, hdigit]
    · simp [nameChar, hdash]

/-- Every character of a text is in one of its parts, or separates two of them. -/
theorem mem_splitOn (separator : Char) {c : Char} {l : List Char} (hc : c ∈ l) :
    c = separator ∨ ∃ part ∈ l.splitOn separator, c ∈ part := by
  have hl : [separator].intercalate (l.splitOn separator) = l := List.intercalate_splitOn separator
  rw [← hl] at hc
  generalize l.splitOn separator = parts at hc ⊢
  induction parts with
  | nil => simp at hc
  | cons part rest ih =>
    cases rest with
    | nil => exact .inr ⟨part, by simp, by simpa using hc⟩
    | cons next rest =>
      rw [List.intercalate_cons_cons, List.append_assoc, List.mem_append] at hc
      rcases hc with hc | hc
      · exact .inr ⟨part, by simp, hc⟩
      · rcases List.mem_append.mp hc with hc | hc
        · exact .inl (List.mem_singleton.mp hc)
        · rcases ih hc with heq | ⟨p, hp, hmem⟩
          · exact .inl heq
          · exact .inr ⟨p, List.mem_cons_of_mem _ hp, hmem⟩

theorem validSegment_name {n : String} (h : validName n = true) : validSegment n.toList = true := by
  simp only [validName, Bool.and_eq_true, decide_eq_true_eq, List.all_eq_true] at h
  obtain ⟨⟨hne, -⟩, hall⟩ := h
  have hparts : ∀ part ∈ n.toList.splitOn '.', validLabelName (String.ofList part) = true :=
    fun part hpart => hall _ (List.mem_map_of_mem hpart)
  refine validSegment_iff.mpr ⟨by simpa using hne, ?_, ?_, ?_⟩
  · intro heq
    rw [heq] at hparts
    exact absurd (hparts [] (by decide)) (by decide)
  · intro heq
    rw [heq] at hparts
    exact absurd (hparts [] (by decide)) (by decide)
  · intro c hc
    rcases mem_splitOn '.' hc with rfl | ⟨part, hpart, hmem⟩
    · decide
    · have hlabel := validSegment_label (hparts part hpart)
      rw [String.toList_ofList] at hlabel
      exact (validSegment_iff.mp hlabel).2.2.2 c hmem

theorem validSegment_resource {r : Resource} {n : String} (h : r.validName n = true) :
    validSegment n.toList = true := by
  unfold Resource.validName at h
  split_ifs at h
  · simp only [Bool.and_eq_true, decide_eq_true_eq, List.all_eq_true, Bool.or_eq_true] at h
    obtain ⟨⟨⟨⟨hne, -⟩, hdot⟩, hdots⟩, hall⟩ := h
    refine validSegment_iff.mpr ⟨by simpa using hne, ?_, ?_, ?_⟩
    · intro heq
      exact hdot (String.toList_inj.mp heq)
    · intro heq
      exact hdots (String.toList_inj.mp heq)
    · intro c hc
      simpa [nameChar] using hall c hc
  · exact validSegment_label h
  · exact validSegment_name h

theorem validSegment_plural {r : Resource} (h : r ∈ resources) :
    validSegment r.plural.toList = true := by
  have hall : ∀ r ∈ resources, validSegment r.plural.toList = true := by decide +kernel
  exact hall r h

/-- A path of two or three valid segments below the registry is a key. -/
theorem validKey_join {parts : List String} (hlength : parts.length = 2 ∨ parts.length = 3)
    (hparts : ∀ p ∈ parts, validSegment p.toList = true) :
    validKey (joinOn '/' ("" :: "registry" :: parts)) = true := by
  have hsplit : (joinOn '/' ("" :: "registry" :: parts)).toList.splitOn '/' =
      ("" :: "registry" :: parts).map String.toList := by
    rw [joinOn, String.toList_ofList]
    apply List.splitOn_intercalate
    · intro l hl
      obtain ⟨p, hp, rfl⟩ := List.mem_map.mp hl
      rcases List.mem_cons.mp hp with rfl | hp
      · decide
      · rcases List.mem_cons.mp hp with rfl | hp
        · decide
        · exact slash_notMem (hparts p hp)
    · simp
  rw [validKey, hsplit]
  have hall : (parts.map String.toList).all validSegment = true := by
    rw [List.all_eq_true]
    intro l hl
    obtain ⟨p, hp, rfl⟩ := List.mem_map.mp hl
    exact hparts p hp
  rcases hlength with hlength | hlength <;> simp [hlength] <;> simpa using hall

/-! ## The keys of a target -/

variable {target other : Target} {name name' : String} {k : StoreKey}

/-- What follows the resource in the key of an object. -/
def keyTail (target : Target) (name : String) : String :=
  match target.ns with
  | some ns => ns ++ "/" ++ name
  | none => name

theorem pathPrefix_append (target : Target) (name : String) :
    target.pathPrefix ++ name =
      "/registry/" ++ (target.resource.plural ++ "/" ++ keyTail target name) := by
  unfold Target.pathPrefix keyTail
  cases target.ns <;> simp only [String.append_assoc]

theorem key_of_segment (ht : target.Valid) (hname : validSegment name.toList = true) :
    ∃ k, key (target.pathPrefix ++ name) = .ok k := by
  have hplural := validSegment_plural ht.served
  have hvalid : validKey (target.pathPrefix ++ name) = true := by
    rw [pathPrefix_append, keyTail]
    cases hns : target.ns with
    | none =>
      have hjoin : validKey (joinOn '/' ("" :: "registry" :: [target.resource.plural, name])) = true :=
        validKey_join (by simp) (by simpa using ⟨hplural, hname⟩)
      have hsame : joinOn '/' ("" :: "registry" :: [target.resource.plural, name]) =
          "/registry/" ++ (target.resource.plural ++ "/" ++ name) := by
        apply String.toList_inj.mp
        simp [joinOn, String.toList_append, List.intercalate_cons_cons]
      exact hsame ▸ hjoin
    | some ns =>
      have hlabel := validSegment_label (ht.ns ns hns)
      have hjoin : validKey (joinOn '/' ("" :: "registry" :: [target.resource.plural, ns, name])) =
          true := validKey_join (by simp) (by simpa using ⟨hplural, hlabel, hname⟩)
      have hsame : joinOn '/' ("" :: "registry" :: [target.resource.plural, ns, name]) =
          "/registry/" ++ (target.resource.plural ++ "/" ++ (ns ++ "/" ++ name)) := by
        apply String.toList_inj.mp
        simp [joinOn, String.toList_append, List.intercalate_cons_cons]
      exact hsame ▸ hjoin
  exact ⟨⟨_, hvalid⟩, key_ok.mpr rfl⟩

/-- Different resources, namespaces or names have different keys. -/
theorem key_inj (ht : target.Valid) (ho : other.Valid) (hname : '/' ∉ name.toList)
    (hname' : '/' ∉ name'.toList) (h : target.pathPrefix ++ name = other.pathPrefix ++ name') :
    target.resource = other.resource ∧ target.ns = other.ns ∧ name = name' := by
  rw [pathPrefix_append, pathPrefix_append, String.append_right_inj] at h
  obtain ⟨hplural, htail⟩ := append_slash_inj (slash_notMem_plural ht.served)
    (slash_notMem_plural ho.served) h
  refine ⟨plural_inj ht.served ho.served hplural, ?_⟩
  unfold keyTail at htail
  cases hns : target.ns with
  | none =>
    cases hns' : other.ns with
    | none =>
      simp only [hns, hns'] at htail
      exact ⟨rfl, htail⟩
    | some ns' =>
      simp only [hns, hns'] at htail
      rw [htail] at hname
      simp [String.toList_append] at hname
  | some ns =>
    cases hns' : other.ns with
    | none =>
      simp only [hns, hns'] at htail
      rw [← htail] at hname'
      simp [String.toList_append] at hname'
    | some ns' =>
      simp only [hns, hns'] at htail
      obtain ⟨rfl, rfl⟩ := append_slash_inj (slash_notMem_of_validLabelName (ht.ns ns hns))
        (slash_notMem_of_validLabelName (ho.ns ns' hns')) htail
      exact ⟨rfl, rfl⟩

theorem underPrefix_iff {selected : String} :
    underPrefix selected k = true ↔ ∃ rest, k.value = selected ++ rest := by
  rw [← Storage.startsWith_eq_underPrefix, Storage.startsWith, List.isPrefixOf_iff_prefix]
  constructor
  · rintro ⟨rest, hrest⟩
    refine ⟨String.ofList rest, String.toList_inj.mp ?_⟩
    rw [String.toList_append, String.toList_ofList, hrest]
  · rintro ⟨rest, hrest⟩
    exact ⟨rest.toList, by rw [hrest, String.toList_append]⟩

/-- The selection of a namespaced list or watch is the keys of that namespace. -/
theorem underPrefix_namespaced {ns : String} (ht : target.Valid) (hns : target.ns = some ns) :
    underPrefix target.pathPrefix k = true ↔
      ∃ name, validSegment name.toList = true ∧ k.value = target.pathPrefix ++ name := by
  rw [underPrefix_iff]
  constructor
  · rintro ⟨rest, hrest⟩
    refine ⟨rest, ?_, hrest⟩
    have hvalid := k.valid
    have hlist : k.value.toList = [] ++ '/' :: ("registry".toList ++ '/' ::
        (target.resource.plural.toList ++ '/' :: (ns.toList ++ '/' :: rest.toList))) := by
      rw [hrest, pathPrefix_append, keyTail, hns]
      simp [String.toList_append]
    have hsplit : k.value.toList.splitOn '/' =
        [] :: "registry".toList :: target.resource.plural.toList :: ns.toList ::
          rest.toList.splitOn '/' := by
      rw [hlist, List.splitOn_append_cons_self_of_not_mem (by decide),
        List.splitOn_append_cons_self_of_not_mem (by decide),
        List.splitOn_append_cons_self_of_not_mem (slash_notMem_plural ht.served),
        List.splitOn_append_cons_self_of_not_mem (slash_notMem_of_validLabelName (ht.ns ns hns))]
    -- a key has no room for a second part after the namespace
    rw [validKey, hsplit] at hvalid
    simp only [List.length_cons, Bool.and_eq_true, Bool.or_eq_true, decide_eq_true_eq,
      List.drop_succ_cons, List.drop_zero, List.all_cons] at hvalid
    have hlength : (rest.toList.splitOn '/').length = 1 := by
      have hpos : 0 < (rest.toList.splitOn '/').length :=
        List.length_pos_iff.mpr (List.splitOn_ne_nil '/' rest.toList)
      omega
    obtain ⟨part, hpart⟩ := List.length_eq_one_iff.mp hlength
    have hrest : ['/'].intercalate (rest.toList.splitOn '/') = rest.toList :=
      List.intercalate_splitOn '/'
    rw [hpart, List.intercalate_singleton] at hrest
    rw [hpart, hrest] at hvalid
    simpa using hvalid.2.2.2
  · rintro ⟨name, -, hname⟩
    exact ⟨name, hname⟩

/-! ## Requests -/

section

variable (lib : Libraries) (fresh : Fresh)

/-- The keys that a request for a target speaks of: that of the object which the path or the body
names, and those which a list or a watch selects. -/
inductive Addresses (target : Target) : StoreKey → Prop
  | named {k : StoreKey} (h : named target = .ok k) : Addresses target k
  | body {user : User} {verb : String} {query : Query} {body : Body} {reg : Registry} {p : Proposal}
      (h : propose lib fresh ⟨user, target, verb⟩ query body reg = .ok p) : Addresses target p.key
  | selected {k : StoreKey} (h : underPrefix target.pathPrefix k = true) : Addresses target k

variable {lib fresh}

theorem Addresses.family (h : Addresses lib fresh target k) : Family target.resource.plural k := by
  cases h with
  | named h =>
    obtain ⟨name, -, hk⟩ := named_ok.mp h
    exact family_pathPrefix hk
  | body h =>
    obtain ⟨name, hk, -⟩ := propose_key h
    exact family_pathPrefix hk
  | selected h =>
    obtain ⟨rest, hk⟩ := underPrefix_iff.mp h
    exact family_pathPrefix hk

/-- The records that the server keeps of tokens, of node identities and of node ranges. -/
def internal : List String := ["h3s-bound-tokens", "h3s-node-identities", "h3s-node-cidrs"]

theorem internal_notServed : ∀ plural ∈ internal, '/' ∉ plural.toList ∧
    ∀ r ∈ resources, r.plural ≠ plural := by decide +kernel

/-- A target that some path of a request decodes and parses to. -/
def Requested (raw : String) (target : Target) : Prop :=
  ∃ decoded, path raw = .ok decoded ∧ Target.parse decoded = some target ∧
    (splitOn '/' raw).mapM decodeSegment = .ok (splitOn '/' decoded)

theorem Requested.of_parse {raw decoded : String} (hpath : path raw = .ok decoded)
    (hparse : Target.parse decoded = some target) : Requested raw target :=
  ⟨decoded, hpath, hparse, path_segments hpath⟩

theorem Requested.valid {raw : String} (h : Requested raw target) : target.Valid := by
  obtain ⟨decoded, -, hparse, -⟩ := h
  exact Target.parse_ok hparse

/-- What holds of the keys of every request: an object has its own key, a namespaced selection is
the keys of its namespace, and no internal record is among them. -/
structure Confined (lib : Libraries) (fresh : Fresh) (target : Target) : Prop where
  mapped : ∀ name, target.resource.validName name = true →
    ∃ k, key (target.pathPrefix ++ name) = .ok k
  injective : ∀ raw other, Requested raw other → ∀ name name' k,
    target.resource.validName name = true → other.resource.validName name' = true →
      key (target.pathPrefix ++ name) = .ok k → key (other.pathPrefix ++ name') = .ok k →
        target.resource = other.resource ∧ target.ns = other.ns ∧ name = name'
  selected : ∀ ns, target.ns = some ns → ∀ k, underPrefix target.pathPrefix k = true ↔
    ∃ name, validSegment name.toList = true ∧
      k.value = "/registry/" ++ target.resource.plural ++ "/" ++ ns ++ "/" ++ name
  covered : target.ns.isSome → ∀ raw other, Requested raw other → ∀ name k,
    other.resource.validName name = true → key (other.pathPrefix ++ name) = .ok k →
      (underPrefix target.pathPrefix k = true ↔
        other.resource = target.resource ∧ other.ns = target.ns)
  kept : ∀ k, Addresses lib fresh target k → ∀ plural ∈ internal, ¬Family plural k

/-- The target of any path, however it is encoded, keeps to the keys of its resource and
namespace. -/
theorem requests_confined (lib : Libraries) (fresh : Fresh) {raw decoded : String}
    (hpath : path raw = .ok decoded) (hparse : Target.parse decoded = some target) :
    (splitOn '/' raw).mapM decodeSegment = .ok (splitOn '/' decoded) ∧
      Confined lib fresh target := by
  have ht : target.Valid := Target.parse_ok hparse
  refine ⟨path_segments hpath, ?_, ?_, ?_, ?_, ?_⟩
  · intro name hname
    exact key_of_segment ht (validSegment_resource hname)
  · intro raw other hother name name' k hname hname' hk hk'
    apply key_inj ht hother.valid (slash_notMem (validSegment_resource hname))
      (slash_notMem (validSegment_resource hname'))
    rw [← key_ok.mp hk, ← key_ok.mp hk']
  · intro ns hns k
    rw [underPrefix_namespaced ht hns, Target.pathPrefix, hns]
  · intro hns raw other hother name k hname hk
    obtain ⟨ns, hns⟩ := Option.isSome_iff_exists.mp hns
    rw [underPrefix_namespaced ht hns]
    constructor
    · rintro ⟨name', hname', hk'⟩
      rw [key_ok.mp hk] at hk'
      obtain ⟨hresource, hsame, -⟩ := key_inj hother.valid ht
        (slash_notMem (validSegment_resource hname)) (slash_notMem hname') hk'
      exact ⟨hresource, hsame⟩
    · rintro ⟨hresource, hsame⟩
      refine ⟨name, validSegment_resource hname, ?_⟩
      rw [key_ok.mp hk, Target.pathPrefix, Target.pathPrefix, hresource, hsame]
  · intro k hk plural hplural hfamily
    obtain ⟨hslash, hserved⟩ := internal_notServed plural hplural
    have hsame := hk.family.unique (slash_notMem_plural ht.served) hslash hfamily
    exact hserved _ ht.served hsame

/-- An encoded name is decoded once. -/
theorem encoded_pod_confined :
    (splitOn '/' "/api/v1/namespaces/default/pods/%77eb").mapM decodeSegment =
        .ok (splitOn '/' "/api/v1/namespaces/default/pods/web") ∧
      Confined (.plain []) .plain
        ⟨⟨"", "v1", "pods", "Pod", true⟩, some "default", some "web", none⟩ :=
  requests_confined (.plain []) .plain (by decide +kernel) (by decide +kernel)

end

end Hedronetes.Server
