import Hedronetes.Server.Writes

/-!
# What a write keeps of the metadata

The strategy and the admission of an object set the members of its metadata that
belong to the server. Every other member stays as the client, or the object
stored before, has it.
-/

namespace Hedronetes.Server

open FirstMatch Apply Effects
open Storage (StoreKey)

variable {value result v old : Json} {resource : Resource} {name field : String}
  {rules : SpecRules}

/-- The metadata differs in the listed members only. -/
def MetaBut (members : List String) (value result : Json) : Prop :=
  ∀ f, f ∉ members → result["metadata"][f] = value["metadata"][f]

section

variable {members : List String}

theorem MetaBut.refl (value : Json) : MetaBut members value value := fun _ _ => rfl

theorem MetaBut.trans {a b c : Json} (h : MetaBut members a b) (h' : MetaBut members b c) :
    MetaBut members a c := fun f hf => (h' f hf).trans (h f hf)

theorem MetaBut.mono {others : List String} (h : MetaBut members value result)
    (hsub : members ⊆ others) : MetaBut others value result := fun f hf => h f fun hm => hf (hsub hm)

theorem MetaBut.of_eq (h : result["metadata"] = value["metadata"]) :
    MetaBut members value result := by
  intro f _
  rw [h]

theorem MetaBut.setAt_member (h : setAt value ["metadata", field] v = .ok result)
    (hfield : field ∈ members) : MetaBut members value result := by
  intro f hf
  apply getElem_setAt_ne (getElem_setAt_step h)
  rintro rfl
  exact hf hfield

theorem MetaBut.removeAt_member (h : removeAt value "metadata" field = .ok result)
    (hfield : field ∈ members) : MetaBut members value result := by
  intro f hf
  rw [getElem_removeAt h, if_neg]
  rintro rfl
  exact hf hfield

end

/-- The members of the metadata that the server sets. -/
def serverMembers : List String :=
  ["uid", "creationTimestamp", "generation", "resourceVersion", "managedFields"]

/-- The metadata differs in the server's members only. -/
def KeepsMeta (value result : Json) : Prop :=
  ∀ f, f ∉ serverMembers → result["metadata"][f] = value["metadata"][f]

theorem KeepsMeta.trans {a b c : Json} (h : KeepsMeta a b) (h' : KeepsMeta b c) :
    KeepsMeta a c := MetaBut.trans h h'

theorem KeepsMeta.setAt_member (h : setAt value ["metadata", field] v = .ok result)
    (hfield : field ∈ serverMembers) : KeepsMeta value result := MetaBut.setAt_member h hfield

/-! ## The strategy -/

theorem defaultAt_ne {key other : String} {fallback : Json}
    (h : defaultAt value key fallback = .ok result) (hne : other ≠ key) :
    result[other] = value[other] := by
  unfold defaultAt at h
  split_ifs at h
  · exact getElem_setAt_ne h hne
  · rw [Except.ok.inj h]

theorem withSpec_ne {rule : Json → Outcome Json} {other : String}
    (h : withSpec value rule = .ok result) (hne : other ≠ "spec") :
    result[other] = value[other] := by
  obtain ⟨spec, _, h⟩ := Fallible.bind_eq_ok.mp h
  exact getElem_setAt_ne h hne

theorem storageClass_metadata (h : storageClass value = .ok result) :
    result["metadata"] = value["metadata"] := by
  unfold storageClass at h
  dsimp only at h
  split_ifs at h with hname
  · cases h
  · obtain ⟨_, hreclaim, h⟩ := Fallible.bind_eq_ok.mp h
    obtain ⟨_, hbinding, h⟩ := Fallible.bind_eq_ok.mp h
    obtain ⟨_, _, h⟩ := Fallible.bind_eq_ok.mp h
    obtain ⟨_, _, h⟩ := Fallible.bind_eq_ok.mp h
    rw [← Except.ok.inj h, defaultAt_ne hbinding (by decide), defaultAt_ne hreclaim (by decide)]

theorem endpoints_metadata {validAddress : String → String → Bool}
    (h : endpoints validAddress value = .ok result) :
    result["metadata"] = value["metadata"] := by
  unfold endpoints at h
  obtain ⟨_, _, h⟩ := Fallible.bind_eq_ok.mp h
  obtain ⟨_, _, h⟩ := Fallible.bind_eq_ok.mp h
  cases hports : value["ports"].asArray with
  | none =>
    rw [hports] at h
    rw [Except.ok.inj h]
  | some ports =>
    rw [hports] at h
    obtain ⟨_, _, h⟩ := Fallible.bind_eq_ok.mp h
    exact getElem_setAt_ne h (by decide)

theorem nodeSpec_metadata {validCidr : String → Bool} (h : nodeSpec validCidr value = .ok result) :
    result["metadata"] = value["metadata"] := by
  unfold nodeSpec at h
  obtain ⟨_, hspec, h⟩ := Fallible.bind_eq_ok.mp h
  split_ifs at h with hcidr
  · cases h
  · rw [← Except.ok.inj h, defaultAt_ne hspec (by decide)]

theorem prepareKind_metadata {old : Option Json}
    (h : prepareKind rules resource value old = .ok result) :
    result["metadata"] = value["metadata"] := by
  unfold prepareKind at h
  split at h
  case h_7 => exact storageClass_metadata h
  case h_8 => exact nodeSpec_metadata h
  case h_9 => exact endpoints_metadata h
  case h_10 =>
    obtain ⟨_, _, h⟩ := Fallible.bind_eq_ok.mp h
    rw [Except.ok.inj h]
  case h_11 =>
    split_ifs at h
    rw [Except.ok.inj h]
  case h_12 => rw [Except.ok.inj h]
  all_goals exact withSpec_ne h (by decide)

theorem withGeneration_keeps {old : Option Json}
    (h : withGeneration resource value old = .ok result) :
    MetaBut ["generation"] value result := by
  unfold withGeneration at h
  dsimp only at h
  split_ifs at h
  · exact .setAt_member h (by decide)
  · exact .setAt_member h (by decide)
  · rw [Except.ok.inj h]
    exact .refl result

/-- A write that is no status write keeps the metadata it was given, but for its generation. -/
theorem prepare_keeps {old : Option Json}
    (h : prepare rules resource value old false = .ok result) :
    MetaBut ["generation"] value result := by
  unfold prepare at h
  rw [if_neg (by decide)] at h
  obtain ⟨base, hbase, h⟩ := Fallible.ite_bind_eq_ok.mp h
  have hstatus : base["metadata"] = value["metadata"] := by
    split_ifs at hbase
    · exact getElem_setAt_ne hbase (by decide)
    · rw [Except.ok.inj hbase]
  obtain ⟨prepared, hkind, h⟩ := Fallible.bind_eq_ok.mp h
  have hprepared : MetaBut ["generation"] value prepared :=
    .of_eq ((prepareKind_metadata hkind).trans hstatus)
  cases old with
  | some old =>
    obtain ⟨_, _, h⟩ := Fallible.bind_eq_ok.mp h
    obtain ⟨_, hgeneration, h⟩ := Fallible.bind_eq_ok.mp h
    exact hprepared.trans ((MetaBut.setAt_member hgeneration (by decide)).trans
      (withGeneration_keeps h))
  | none =>
    obtain ⟨_, hgeneration, h⟩ := Fallible.bind_eq_ok.mp h
    exact hprepared.trans ((MetaBut.removeAt_member hgeneration (by decide)).trans
      (withGeneration_keeps h))

theorem copyField_ne {key other : String} {source : Json}
    (h : copyField value key source = .ok result) (hne : other ≠ key) :
    result[other] = value[other] := by
  unfold copyField at h
  split_ifs at h
  · cases value with
    | object fields =>
      rw [← Except.ok.inj h, Json.getElem_eq, Json.getElem_eq, Json.field, Json.field,
        lookup_eraseKey_ne hne]
    | _ => rw [← Except.ok.inj h]
  · exact getElem_setAt_ne h hne

/-- A status write keeps the stored metadata, but for a Node. -/
theorem prepare_status_keeps (h : prepare rules resource value (some old) true = .ok result) :
    MetaBut ["resourceVersion"] (if resource.kind = "Node" then value else old) result := by
  unfold prepare at h
  rw [if_pos rfl] at h
  unfold prepareStatus at h
  obtain ⟨copied, hcopied, h⟩ := Fallible.bind_eq_ok.mp h
  obtain ⟨replaced, hreplaced, h⟩ := Fallible.ite_bind_eq_ok.mp h
  obtain ⟨versioned, hversioned, h⟩ := Fallible.bind_eq_ok.mp h
  have hkept : MetaBut ["resourceVersion"] (if resource.kind = "Node" then value else old)
      replaced := by
    split_ifs with hkind
    · rw [if_neg (not_not.mpr hkind)] at hreplaced
      rw [← Except.ok.inj hreplaced]
      exact .of_eq (copyField_ne hcopied (by decide))
    · rw [if_pos hkind] at hreplaced
      exact .of_eq (getElem_setAt hreplaced)
  have hsame : result = versioned := by
    split_ifs at h
    · obtain ⟨_, _, h⟩ := Fallible.bind_eq_ok.mp h
      exact (Except.ok.inj h).symm
    · exact (Except.ok.inj h).symm
  rw [hsame]
  exact hkept.trans (.setAt_member hversioned (by decide))

theorem prepare_status_ne (hspec : field ≠ "spec") (hmeta : field ≠ "metadata")
    (h : prepare rules resource value (some old) true = .ok result) :
    result[field] = value[field] := by
  unfold prepare at h
  rw [if_pos rfl] at h
  unfold prepareStatus at h
  obtain ⟨copied, hcopied, h⟩ := Fallible.bind_eq_ok.mp h
  obtain ⟨replaced, hreplaced, h⟩ := Fallible.ite_bind_eq_ok.mp h
  obtain ⟨versioned, hversioned, h⟩ := Fallible.bind_eq_ok.mp h
  have hsame : result = versioned := by
    split_ifs at h
    · obtain ⟨_, _, h⟩ := Fallible.bind_eq_ok.mp h
      exact (Except.ok.inj h).symm
    · exact (Except.ok.inj h).symm
  rw [hsame, getElem_setAt_ne hversioned hmeta, ← copyField_ne hcopied hspec]
  split_ifs at hreplaced
  · exact getElem_setAt_ne hreplaced hmeta
  · rw [Except.ok.inj hreplaced]

/-! ## Admission -/

theorem foldStringData_ne {lib : Libraries} (hplain : field ≠ "stringData")
    (hdata : field ≠ "data") (h : foldStringData lib value = .ok result) :
    result[field] = value[field] := by
  unfold foldStringData at h
  split at h
  · rw [Except.ok.inj h]
  · rename_i plain _
    obtain ⟨base, hbase, h⟩ := Fallible.ite_bind_eq_ok.mp h
    have herased : ∀ fields : List (String × Json),
        (Json.object (eraseKey "stringData" fields))[field] = (Json.object fields)[field] := by
      intro fields
      rw [Json.getElem_eq, Json.getElem_eq, Json.field, Json.field, lookup_eraseKey_ne hplain]
    apply Fallible.foldlM_invariant (I := fun j => j[field] = value[field]) h
    · split_ifs at hbase
      · rw [← Except.ok.inj hbase]
        cases value with
        | object fields => exact herased fields
        | _ => rfl
      · rw [getElem_setAt_ne hbase hdata]
        cases value with
        | object fields => exact herased fields
        | _ => rfl
    · intro j entry j' hstep hj
      split at hstep
      · rw [getElem_setAt_ne hstep hdata, hj]
      · cases hstep
  · cases h

theorem foldStringData_metadata {lib : Libraries} (h : foldStringData lib value = .ok result) :
    result["metadata"] = value["metadata"] := foldStringData_ne (by decide) (by decide) h

/-- Only a Secret has something folded in first. -/
theorem prepareWrite_eq {lib : Libraries} {write : Write} (value : Json) (old : Option Json)
    (h : write.target.resource.kind ≠ "Secret") : prepareWrite lib write value old =
      prepare lib.rules write.target.resource value old write.target.subresource.isSome := by
  unfold prepareWrite
  rw [if_neg h]
  rfl

theorem prepareWrite_but {lib : Libraries} {write : Write} {old : Option Json}
    (hplain : write.target.subresource = none)
    (h : prepareWrite lib write value old = .ok result) :
    MetaBut ["generation"] value result := by
  unfold prepareWrite at h
  obtain ⟨folded, hfolded, h⟩ := Fallible.ite_bind_eq_ok.mp h
  rw [hplain] at h
  have hmeta : folded["metadata"] = value["metadata"] := by
    split_ifs at hfolded
    · exact foldStringData_metadata hfolded
    · rw [Except.ok.inj hfolded]
  exact (MetaBut.of_eq hmeta).trans (prepare_keeps h)

theorem prepareWrite_keeps {lib : Libraries} {write : Write} {old : Option Json}
    (hplain : write.target.subresource = none)
    (h : prepareWrite lib write value old = .ok result) : KeepsMeta value result :=
  (prepareWrite_but hplain h).mono (by decide)

theorem prepareWrite_status_but {lib : Libraries} {write : Write}
    (hstatus : write.target.subresource.isSome = true)
    (h : prepareWrite lib write value (some old) = .ok result) :
    MetaBut ["resourceVersion"] (if write.target.resource.kind = "Node" then value else old)
      result := by
  unfold prepareWrite at h
  obtain ⟨folded, hfolded, h⟩ := Fallible.ite_bind_eq_ok.mp h
  rw [hstatus] at h
  have hmeta : folded["metadata"] = value["metadata"] := by
    split_ifs at hfolded
    · exact foldStringData_metadata hfolded
    · rw [Except.ok.inj hfolded]
  have hkept := prepare_status_keeps h
  split_ifs at hkept ⊢
  · exact (MetaBut.of_eq hmeta).trans hkept
  · exact hkept

theorem serviceAccountAdmit_metadata {accessSuffix ns : String} {reg : Registry}
    (h : serviceAccountAdmit accessSuffix ns value reg = .ok result) :
    result["metadata"] = value["metadata"] := by
  -- every way through the account's checks ends in the write of the specification
  have hyields : Fallible.Yields (fun result => result["metadata"] = value["metadata"])
      (serviceAccountAdmit accessSuffix ns value reg) := by
    unfold serviceAccountAdmit
    dsimp only
    repeat' first
      | exact .error
      | exact fun _ h => getElem_setAt_ne h (by decide)
      | refine .bind fun _ => ?_
      | split
  exact hyields result h

end Hedronetes.Server
