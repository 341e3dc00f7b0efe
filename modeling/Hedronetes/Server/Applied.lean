import Hedronetes.Apply.Ownership
import Hedronetes.Server.Values

/-!
# Members of the applied metadata

A text that an applied object has in its metadata, apart from the server's own
members, stands in the merged object; the texts of the server's own are those of the
stored object.
-/

namespace Hedronetes.Server

open FirstMatch Apply

variable {j value stored result : Json} {text : JsonText} {time name field s : String}
  {options : Options}

theorem getElem_eq_string : j[name] = .string s ↔ j.field name = some (.string s) := by
  rw [Json.getElem_eq]
  cases j.field name with
  | none => simp
  | some v => simp

theorem get_members : get j [.field "metadata", .field field] = some (.string s) ↔
    j["metadata"][field] = .string s := by
  rw [getElem_eq_string, Json.getElem_eq, get_cons, child_field]
  cases j.field "metadata" with
  | none =>
    simp only [Option.bind_none, Option.getD_none]
    constructor
    · intro h
      cases h
    · intro h
      cases h
  | some metadata =>
    simp only [Option.bind_some, Option.getD_some, get_cons, child_field]
    cases metadata.field field <;> simp

theorem object_of_member (h : j["metadata"][field] = .string s) :
    (j.field "metadata").any Json.isObject = true := by
  have hget := get_members.mpr h
  rw [get_cons, child_field] at hget
  cases hm : j.field "metadata" with
  | none =>
    rw [hm] at hget
    cases hget
  | some metadata =>
    rw [hm] at hget
    cases metadata with
    | object fields => rfl
    | _ => cases hget

/-- A merged object has the texts of the applied metadata. -/
theorem serverSide_member (h : serverSide text time stored value options = .ok result)
    (hmember : value["metadata"][field] = .string s)
    (hfield : field ∉ [managedFields, "resourceVersion", "uid", "creationTimestamp"]) :
    result["metadata"][field] = .string s := by
  obtain ⟨desired, existing, merged, hdesired, _, hmerged, managed, hrecord⟩ := serverSide_ok h
  obtain ⟨fields, metadata, hvalue, hmetadata, hkept⟩ :=
    dropBookkeeping_object hdesired (object_of_member hmember)
  simp only [List.mem_cons, List.not_mem_nil, or_false, not_or] at hfield
  obtain ⟨hrecords, hversion, huid, htime⟩ := hfield
  have happlied : lookup field metadata = some (.string s) := by
    rw [hvalue, getElem_eq_string, Json.getElem_eq, Json.field, hmetadata] at hmember
    exact hmember
  have hlookup : lookup field (eraseKey "creationTimestamp" (eraseKey "uid"
      (eraseKey "resourceVersion" (eraseKey managedFields metadata)))) = some (.string s) := by
    rw [lookup_eraseKey_ne htime, lookup_eraseKey_ne huid, lookup_eraseKey_ne hversion,
      lookup_eraseKey_ne hrecords, happlied]
  have hread : get desired [.field "metadata", .field field] = some (.string s) := by
    rw [hkept, get_cons, child_field, Json.field, lookup_insertKey, Option.bind_some, get_cons,
      child_field, Json.field, hlookup]
    rfl
  have hdeclared : [.field "metadata", .field field] ∈ declared desired := by
    rw [mem_declared, hkept]
    exact .member (mem_of_lookup (lookup_insertKey _ _ _)) (fun h => by cases h.1)
      (.member (mem_of_lookup hlookup) (fun h => hrecords h.2)
        (.whole rfl fun items h => by cases h))
  have hcovered : Covered desired [.field "metadata", .field field] :=
    ⟨_, hdeclared, by rw [hread]; rfl, List.prefix_refl _⟩
  have hapart : Apart [.field "metadata", .field managedFields] [.field "metadata", .field field] :=
    Or.inr ⟨rfl, Or.inl fun h => hrecords h.symm⟩
  rw [← get_members, ← get_unmanaged_apart hapart, get_result_apart hapart hrecord
    (fun key value q h => by cases h), hcovered.get_merged hdesired hmerged, hread]

/-! ## What the server keeps to itself -/

end Hedronetes.Server
