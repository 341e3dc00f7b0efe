import Hedronetes.Server.Concurrent

/-!
# What a write replaces

A commit is a compare-and-set, so it replaces the version it expects. Why it
expects that one depends on the request: an update names it, a patch, a binding
or a deletion has read it, and what Helm stores is taken as it is found.
-/

namespace Hedronetes.Server

open FirstMatch Apply Auth Effects Interleaving Runs
open Storage (StoreKey)

/-- The version that a call replaces. -/
def Call.expects : Call → Option ℕ
  | create _ _ => none
  | update _ _ rv => some rv
  | delete _ rv => some rv

/-- The typed object keeps the version that its metadata names. -/
def KeepsVersion (lib : Libraries) : Prop :=
  ∀ resource value result, lib.normalize resource value = .ok result →
    result["metadata"]["resourceVersion"].asString = value["metadata"]["resourceVersion"].asString

/-! ## Versions in texts -/

theorem revision_inj {n m : ℕ} (h : toString n = toString m) : n = m := by
  have hlist := congrArg (fun s : String => Nat.ofDigitChars 10 s.toList 0) h
  simpa [toString, Nat.toList_repr, Nat.ofDigitChars_ten_toDigits] using hlist

/-- A printed version is read back as itself. -/
theorem parseU64_toString {n m : ℕ} (h : parseU64 (toString n) = some m) : m = n := by
  have hlist : (toString n).toList = Nat.toDigits 10 n := by simp [toString, Nat.toList_repr]
  have hstart : stripStart "+" (toString n) = none := by
    unfold stripStart
    rw [hlist]
    cases hd : Nat.toDigits 10 n with
    | nil => rfl
    | cons c cs =>
      have hmem : c ∈ Nat.toDigits 10 n := by simp [hd]
      have hdigit : c.isDigit = true := Nat.isDigit_of_mem_toDigits (by decide) (by decide) hmem
      have hne : '+' ≠ c := by
        rintro rfl
        revert hdigit
        decide
      simp [List.isPrefixOf?, hne]
  unfold parseU64 at h
  rw [hstart] at h
  dsimp only [Option.getD] at h
  split_ifs at h
  rw [← Option.some.inj h, hlist, ← Nat.ofDigitChars_eq_foldl]
  exact Nat.ofDigitChars_ten_toDigits

section

variable {lib : Libraries} {fresh : Fresh} {write : Write} {body : Body} {reg : Registry}
  {k : StoreKey} {value result old : Json}

/-- Past its typed form, an object gets its name and its namespace. -/
theorem normalized_typed {decoded : Decoded} (h : normalized lib fresh write value reg = .ok decoded) :
    ∃ typed, lib.normalize write.target.resource value = .ok typed ∧
      ∀ f, f ≠ "name" → f ≠ "namespace" → decoded.value["metadata"][f] = typed["metadata"][f] := by
  obtain ⟨typed, generated, _, htyped, hgenerated, _, _, _, hplaced, _⟩ := normalized_steps h
  refine ⟨typed, htyped, fun f hname hnamespace => ?_⟩
  rw [(inNamespace_ok hplaced).1 f hnamespace]
  unfold generateName at hgenerated
  split_ifs at hgenerated
  · split at hgenerated
    · exact getElem_setAt_ne (getElem_setAt_step hgenerated) hname
    · rw [Except.ok.inj hgenerated]
  · rw [Except.ok.inj hgenerated]

theorem normalized_version (hkeep : KeepsVersion lib) {decoded : Decoded}
    (h : normalized lib fresh write value reg = .ok decoded) :
    decoded.value["metadata"]["resourceVersion"].asString =
      value["metadata"]["resourceVersion"].asString := by
  obtain ⟨typed, htyped, hmembers⟩ := normalized_typed h
  rw [hmembers "resourceVersion" (by decide) (by decide)]
  exact hkeep _ _ _ htyped

/-- An update names the version it replaces, or brings what Helm stores. -/
theorem expectedRevision_cases {kind : String} {stored : Stored} {rv : ℕ}
    (h : expectedRevision kind value stored = .ok rv) :
    (∃ version, value["metadata"]["resourceVersion"].asString = some version ∧
      parseU64 version = some rv) ∨
      value["metadata"]["resourceVersion"].hasText = false ∧
        (kind = "ConfigMap" ∨ kind = "Secret") ∧ helmOwned value kind = true := by
  unfold expectedRevision at h
  split at h
  · rename_i version hversion
    obtain ⟨htext, _⟩ := Option.filter_eq_some_iff.mp hversion
    cases hparse : parseU64 version with
    | none =>
      simp only [hparse] at h
      cases h
    | some n =>
      simp only [hparse] at h
      split_ifs at h
      exact Or.inl ⟨version, htext, by rw [hparse, Except.ok.inj h]⟩
  · rename_i hnone
    split_ifs at h with hhelm
    refine Or.inr ⟨?_, hhelm⟩
    unfold Json.hasText
    cases hv : value["metadata"]["resourceVersion"].asString with
    | none => rfl
    | some s => simpa [hv] using hnone

/-! ## What Helm stores stays so -/

theorem concurrency_ne {fresh : Fresh} {found : Option (ℕ × Json)} {field : String}
    (hne : field ≠ "metadata") (h : concurrency fresh write k value reg = .ok (result, found)) :
    result[field] = value[field] := by
  unfold concurrency at h
  split_ifs at h with hverb hversion
  · obtain ⟨identified, hidentified, hgo⟩ := Fallible.bind_eq_ok.mp h
    cases hgo
    obtain ⟨_, huid, htime⟩ := Fallible.bind_eq_ok.mp hidentified
    rw [getElem_setAt_ne htime hne, getElem_setAt_ne huid hne]
  · obtain ⟨_, _, h⟩ := Fallible.bind_eq_ok.mp h
    obtain ⟨_, _, h⟩ := Fallible.bind_eq_ok.mp h
    obtain ⟨_, _, h⟩ := Fallible.bind_eq_ok.mp h
    split_ifs at h
    obtain ⟨_, huid, h⟩ := Fallible.bind_eq_ok.mp h
    obtain ⟨_, htime, h⟩ := Fallible.bind_eq_ok.mp h
    cases h
    rw [getElem_setAt_ne htime hne, getElem_setAt_ne huid hne]

end

/-! ## Every call of a handler -/

section

variable {lib : Libraries} {q : Submitted} {seen : List Observed} {s t reg : Registry}
  {k : StoreKey} {value : Json} {o : Stored} {p : Proposal}

end

/-! ## An apply of an old version, and an update of what Helm does not own -/

end Hedronetes.Server
