import Hedronetes.Server.Rules
import Hedronetes.Controllers.DeploymentPass

/-!
# What the server accepts of the controllers

Server and controllers each decide whether a selector selects, and the controllers name what they
create after the start of its owner's name. A start that ends in a dot makes no name.
-/

namespace Hedronetes.Controllers

open Server Apply Deployments

/-! ## Selectors -/

theorem forM_eq_ok {α : Type} {f : α → Outcome Unit} {l : List α} {u : Unit} :
    l.forM f = .ok u ↔ ∀ a ∈ l, f a = .ok () := by
  induction l with
  | nil => simp [pure, Except.pure]
  | cons a l ih =>
    rw [List.forM_eq_forM, List.forM_cons, Fallible.bind_eq_ok, List.forall_mem_cons, ← ih]
    constructor
    · rintro ⟨_, ha, hrest⟩
      exact ⟨ha, hrest⟩
    · rintro ⟨ha, hrest⟩
      exact ⟨(), ha, hrest⟩

theorem operatorSelects_iff {operator : Option String} {vals : List Json} {labels : Json}
    {key : String} : operatorSelects operator vals labels key = .ok true ↔
      (match operator with
      | some "In" => vals ≠ [] && (labels.field key).isSome && labels[key] ∈ vals
      | some "NotIn" => vals ≠ [] && (!(labels.field key).isSome || labels[key] ∉ vals)
      | some "Exists" => vals = [] && (labels.field key).isSome
      | some "DoesNotExist" => vals = [] && !(labels.field key).isSome
      | _ => false) = true := by
  unfold operatorSelects
  split
  · simp
  · simp
  · simp
  · simp
  · -- no operator takes these values
    split
    · cases vals <;> simp_all
    · cases vals <;> simp_all
    · cases vals <;> simp_all
    · cases vals <;> simp_all
    · simp

/-- One requirement is met for the server as for the controllers. -/
theorem expressionSelects_iff (labels r : Json) :
    expressionSelects labels r = .ok () ↔ expressionMatches labels r = true := by
  unfold expressionSelects expressionMatches
  cases hkey : r["key"].asString.filter (· ≠ "") with
  | none =>
    have hempty : r["key"].asString.getD "" = "" := by
      cases hread : r["key"].asString with
      | none => rfl
      | some key => simpa [hread] using hkey
    simp only [Fallible.bind_eq_ok, require_ok, hempty]
    simp
  | some key =>
    obtain ⟨hread, hne⟩ := Option.filter_eq_some_iff.mp hkey
    simp only [Fallible.bind_eq_ok, require_ok, hread, Option.getD_some]
    refine Iff.trans ?_ operatorSelects_iff
    constructor
    · rintro ⟨_, _, selected, hselected, rfl⟩
      exact hselected
    · intro hselected
      exact ⟨(), of_decide_eq_true hne, true, hselected, rfl⟩

/-- A selector is accepted for its own template exactly when the controllers see it match. -/
theorem selectors_agree (selector labels : Json) :
    selectorMatches selector labels = .ok () ↔ labelsMatch selector labels = true := by
  unfold selectorMatches labelsMatch
  simp only [Fallible.bind_eq_ok, require_ok, forM_eq_ok, expressionSelects_iff, exists_const,
    Bool.and_eq_true, decide_eq_true_eq, List.all_eq_true]
  constructor
  · rintro ⟨hwanted, hexpressions, hcount⟩
    exact ⟨⟨by omega, hwanted⟩, hexpressions⟩
  · rintro ⟨⟨hcount, hwanted⟩, hexpressions⟩
    exact ⟨hwanted, hexpressions, by omega⟩

/-! ## Names -/

theorem validLabelName_iff {l : List Char} : validLabelName (String.ofList l) = true ↔
    l.length ≤ 63 ∧ (∀ ch ∈ l, ch.isLower ∨ ch.isDigit ∨ ch = '-') ∧
      (∃ ch, l.head? = some ch ∧ ch.isAlphanum) ∧ ∃ ch, l.getLast? = some ch ∧ ch.isAlphanum := by
  unfold validLabelName
  simp only [String.toList_ofList, Bool.and_eq_true, decide_eq_true_eq, List.all_eq_true,
    Option.any_eq_true, Bool.or_eq_true, or_assoc]
  constructor
  · rintro ⟨⟨⟨⟨_, hlength⟩, hchars⟩, hhead⟩, hlast⟩
    exact ⟨hlength, hchars, hhead, hlast⟩
  · rintro ⟨hlength, hchars, hhead, hlast⟩
    refine ⟨⟨⟨⟨?_, hlength⟩, hchars⟩, hhead⟩, hlast⟩
    rintro hempty
    obtain ⟨ch, hch, _⟩ := hhead
    have hnil : l = [] := by simpa using congrArg String.toList hempty
    rw [hnil] at hch
    cases hch

theorem validName_iff {name : String} : validName name = true ↔ name.toList ≠ [] ∧
    name.toList.length ≤ 253 ∧
      ∀ label ∈ name.toList.splitOn '.', validLabelName (String.ofList label) = true := by
  unfold validName splitOn
  simp only [Bool.and_eq_true, decide_eq_true_eq, List.all_map, List.all_eq_true, Function.comp_apply,
    and_assoc]
  apply and_congr_left'
  rw [Ne, Ne, not_iff_not]
  constructor
  · rintro rfl
    rfl
  · intro hnil
    exact String.toList_inj.mp hnil

/-- Up to its last dot a text has whole labels, and after it the start of one. -/
theorem splitOn_start (l : List Char) : ∃ (labels : List (List Char)) (start : List Char),
    '.' ∉ start ∧ start <:+ l ∧ (l ≠ [] → (start = [] ↔ l.getLast? = some '.')) ∧
      ∀ rest, (l ++ rest).splitOn '.' = labels ++ (start ++ rest).splitOn '.' := by
  by_cases hdot : '.' ∈ l
  · obtain ⟨rear, front, hreverse, hrear⟩ := List.eq_append_cons_of_mem (List.mem_reverse.mpr hdot)
    have hl : l = front.reverse ++ '.' :: rear.reverse := by
      simpa using congrArg List.reverse hreverse
    refine ⟨front.reverse.splitOn '.', rear.reverse, by simpa using hrear, ?_, fun _ => ?_, ?_⟩
    · rw [hl]
      exact (List.suffix_cons _ _).trans (List.suffix_append _ _)
    · rw [hl]
      cases rear with
      | nil => simp
      | cons ch rear =>
        have hne : ch ≠ '.' := fun h => hrear (by simp [h])
        rw [List.reverse_cons, ← List.cons_append, ← List.append_assoc, List.getLast?_concat]
        simp [hne]
    · intro rest
      rw [hl, List.append_assoc, List.cons_append, List.splitOn_append_cons_self]
  · refine ⟨[], l, hdot, List.suffix_refl l, fun hne => ?_, fun rest => rfl⟩
    constructor
    · intro hnil
      exact absurd hnil hne
    · intro hlast
      exact absurd (List.mem_of_getLast? hlast) hdot

/-- The first label continues the start that has no dot. -/
theorem splitOn_append {start : List Char} (h : '.' ∉ start) (rest : List Char) :
    ∃ more labels, (start ++ rest).splitOn '.' = (start ++ more) :: labels := by
  induction start with
  | nil =>
    obtain ⟨label, labels, hlabels⟩ := List.exists_cons_of_ne_nil (List.splitOn_ne_nil '.' rest)
    exact ⟨label, labels, hlabels⟩
  | cons ch start ih =>
    obtain ⟨hne, hstart⟩ := not_or.mp (fun hor => h (List.mem_cons.mpr hor))
    obtain ⟨more, labels, hlabels⟩ := ih hstart
    refine ⟨more, labels, ?_⟩
    rw [List.cons_append, List.splitOn_cons_eq_if_modifyHead, hlabels]
    simp [Ne.symm hne]

/-- A digit of a printed digest. -/
def isHex (ch : Char) : Bool := ch.isDigit || ('a' ≤ ch && ch ≤ 'f')

theorem isHex_spec {ch : Char} (h : isHex ch = true) :
    (ch.isLower ∨ ch.isDigit ∨ ch = '-') ∧ ch.isAlphanum = true ∧ ch ≠ '.' := by
  have hlower : 'a' ≤ ch ∧ ch ≤ 'f' → ch.isLower = true := by
    rintro ⟨ha, hf⟩
    rw [Char.isLower, Bool.and_eq_true, decide_eq_true_eq, decide_eq_true_eq]
    exact ⟨ha, hf.trans (by decide)⟩
  have hcases : ch.isLower = true ∨ ch.isDigit = true := by
    simp only [isHex, Bool.or_eq_true, Bool.and_eq_true, decide_eq_true_eq] at h
    exact h.symm.imp_left hlower
  refine ⟨hcases.imp_right Or.inl, ?_, ?_⟩
  · rcases hcases with h | h <;> simp [Char.isAlphanum, Char.isAlpha, h]
  · rintro rfl
    revert hcases
    decide

/-- The start of a label that is cut and continued by hexadecimal digits is a label, unless nothing
is left of it. -/
theorem validLabel_cut {start more tail : List Char} (hdigits : ∀ ch ∈ tail, isHex ch = true)
    (htail : tail ≠ []) (hlabel : validLabelName (String.ofList (start ++ more)) = true)
    (hlength : start.length + 1 + tail.length ≤ 63) :
    validLabelName (String.ofList (start ++ '-' :: tail)) = true ↔ start ≠ [] := by
  rw [validLabelName_iff]
  rw [validLabelName_iff] at hlabel
  obtain ⟨_, hchars, hhead, _⟩ := hlabel
  constructor
  · rintro ⟨_, _, ⟨ch, hch, halnum⟩, _⟩ rfl
    rw [← Option.some.inj hch] at halnum
    exact absurd halnum (by decide)
  · intro hne
    refine ⟨?_, ?_, ?_, ?_⟩
    · rw [List.length_append, List.length_cons]
      omega
    · intro ch hch
      rcases List.mem_append.mp hch with hch | hch
      · exact hchars ch (List.mem_append_left _ hch)
      · rcases List.mem_cons.mp hch with rfl | hch
        · exact .inr (.inr rfl)
        · exact (isHex_spec (hdigits ch hch)).1
    · rwa [List.head?_append_of_ne_nil _ hne] at hhead ⊢
    · refine ⟨tail.getLast htail, ?_, (isHex_spec (hdigits _ (List.getLast_mem htail))).2.1⟩
      rw [List.getLast?_append_of_ne_nil _ (by simp), List.getLast?_cons_of_ne_nil htail,
        List.getLast?_eq_some_getLast htail]

/-- A name ends in no dot. -/
theorem getLast?_of_validName {name : String} (h : validName name = true) :
    name.toList.getLast? ≠ some '.' := by
  obtain ⟨hne, _, hlabels⟩ := validName_iff.mp h
  obtain ⟨labels, start, hdot, _, hstart, hsplit⟩ := splitOn_start name.toList
  have hwhole := hsplit []
  rw [List.append_nil, List.append_nil, List.splitOn_eq_singleton hdot] at hwhole
  rw [Ne, ← hstart hne]
  rintro rfl
  have hlast := hlabels [] (by rw [hwhole]; simp)
  exact absurd hlast (by decide)

/-- A name that is cut and continued by hexadecimal digits is a name, unless the cut comes right
after a dot. -/
theorem validName_cut {name tail : String} {n : ℕ} (hname : validName name = true)
    (hdigits : ∀ ch ∈ tail.toList, isHex ch = true) (htail : tail.toList ≠ [])
    (hn : 0 < n) (hlength : n + 1 + tail.toList.length ≤ 63) :
    validName (String.ofList (name.toList.take n) ++ "-" ++ tail) = true ↔
      name.toList[n - 1]? ≠ some '.' := by
  obtain ⟨hne, _, hlabels⟩ := validName_iff.mp hname
  obtain ⟨labels, start, hdot, hsuffix, hstart, hsplit⟩ := splitOn_start (name.toList.take n)
  obtain ⟨more, others, hmore⟩ := splitOn_append hdot (name.toList.drop n)
  have hwhole : name.toList.splitOn '.' = labels ++ (start ++ more) :: others := by
    rw [← hmore, ← hsplit, List.take_append_drop]
  have htake : name.toList.take n ≠ [] := by
    rw [Ne, List.take_eq_nil_iff, not_or]
    exact ⟨Nat.ne_of_gt hn, hne⟩
  have hcut : (start = [] ↔ name.toList[n - 1]? = some '.') := by
    rw [hstart htake, List.getLast?_take, if_neg (by omega)]
    cases hread : name.toList[n - 1]? with
    | some ch => simp
    | none => simpa using getLast?_of_validName hname
  have hlist : (String.ofList (name.toList.take n) ++ "-" ++ tail).toList =
      name.toList.take n ++ '-' :: tail.toList := by
    simp
  have hlabel : validLabelName (String.ofList (start ++ more)) = true := by
    apply hlabels
    rw [hwhole]
    simp
  have hshort : start.length + 1 + tail.toList.length ≤ 63 := by
    have := hsuffix.length_le
    have := List.length_take_le n name.toList
    omega
  have hnodot : '.' ∉ start ++ '-' :: tail.toList := by
    simp only [List.mem_append, List.mem_cons, not_or]
    exact ⟨hdot, by decide, fun hmem => (isHex_spec (hdigits '.' hmem)).2.2 rfl⟩
  refine Iff.trans ?_ ((validLabel_cut hdigits htail hlabel hshort).trans (not_congr hcut))
  rw [validName_iff, hlist, hsplit, List.splitOn_eq_singleton hnodot]
  constructor
  · rintro ⟨_, _, hall⟩
    exact hall _ (by simp)
  · intro hvalid
    refine ⟨by simp, ?_, ?_⟩
    · have := List.length_take_le n name.toList
      rw [List.length_append, List.length_cons]
      omega
    · intro label hmem
      rcases List.mem_append.mp hmem with hmem | hmem
      · exact hlabels label (by rw [hwhole]; exact List.mem_append_left _ hmem)
      · rwa [List.mem_singleton.mp hmem]

/-- A printed digest of 64 hexadecimal digits. -/
def HexDigest (digest : Json → String) : Prop :=
  ∀ j, (∀ ch ∈ (digest j).toList, isHex ch = true) ∧ (digest j).toList.length = 64

theorem newSet_name {digest : Json → String} (hdigest : HexDigest digest) {d rs : Json}
    {sets : List Json} {minimum : ℤ} (h : newSet digest d sets minimum = .ok rs) :
    ∃ name hash, d["metadata"]["name"] = .string name ∧
      rs["metadata"]["name"] = .string (setName name hash) ∧
      (∀ ch ∈ hash.toList, isHex ch = true) ∧ hash.toList.length = 16 := by
  obtain ⟨name, hname, h⟩ := Fallible.bind_eq_ok.mp h
  obtain ⟨uid, _, h⟩ := Fallible.bind_eq_ok.mp h
  obtain ⟨template, _, h⟩ := Fallible.bind_eq_ok.mp h
  obtain ⟨selector, _, h⟩ := Fallible.bind_eq_ok.mp h
  obtain ⟨revision, _, h⟩ := Fallible.bind_eq_ok.mp h
  obtain ⟨hdigits, hlength⟩ := hdigest (.array [.string uid, d["spec"]["template"]])
  refine ⟨name, templateHash digest uid d["spec"]["template"], (text_ok hname).1, ?_, ?_, ?_⟩
  · rw [← Except.ok.inj h]
    simp [Json.getElem_ofPairs]
  · unfold templateHash
    rw [String.toList_ofList]
    exact fun ch hch => hdigits ch (List.mem_of_mem_take hch)
  · simp [templateHash, hlength]

theorem generateName_templatePod {fresh : Fresh} {template : Json}
    {metadata : List (String × Json)} (rs : Json) (name : String)
    (h : templateMetadata template = .ok metadata) :
    ∃ value, generateName fresh "create" (templatePod rs metadata name) = .ok value ∧
      value["metadata"]["name"] =
        .string (String.ofList (name.toList.take 54) ++ "-" ++ fresh.suffix) := by
  unfold templateMetadata at h
  split_ifs at h
  have hpairs := Except.ok.inj h
  have hmetadata : (templatePod rs metadata name)["metadata"] = .ofPairs (metadata ++
      [("generateName", .string (String.ofList (name.toList.take 54) ++ "-")),
        ("namespace", rs["metadata"]["namespace"]), ("ownerReferences", .array [owner rs])]) := by
    rw [templatePod, Json.getElem_ofPairs]
    rfl
  have hname : (templatePod rs metadata name)["metadata"]["name"] = .null := by
    rw [hmetadata, Json.getElem_ofPairs, ← hpairs]
    rfl
  have hstart : (templatePod rs metadata name)["metadata"]["generateName"] =
      .string (String.ofList (name.toList.take 54) ++ "-") := by
    rw [hmetadata, Json.getElem_ofPairs, ← hpairs]
    rfl
  unfold generateName
  rw [hname, hstart, if_pos ⟨rfl, rfl⟩]
  obtain ⟨value, hvalue⟩ : ∃ value, setAt (templatePod rs metadata name) ["metadata", "name"]
      (.string (String.ofList (name.toList.take 54) ++ "-" ++ fresh.suffix)) = .ok value := by
    have hobject : (templatePod rs metadata name).isObject = true := rfl
    obtain ⟨fields, hfields⟩ := Json.isObject_iff.mp hobject
    rw [Json.getElem_eq, hfields] at hmetadata
    change (FirstMatch.lookup "metadata" fields).getD .null = _ at hmetadata
    rw [hfields, setAt, hmetadata]
    exact ⟨_, rfl⟩
  exact ⟨value, hvalue, getElem_setAt (getElem_setAt_step hvalue)⟩

/-- A derived name is accepted unless the name it is derived from is cut after a dot: a
ReplicaSet's after 46 characters of the Deployment's, and a Pod's after 54 of the ReplicaSet's. -/
theorem derived_name_accepted_iff (fresh : Fresh) :
    (∀ (digest : Json → String) (d rs : Json) (sets : List Json) (minimum : ℤ), HexDigest digest →
      newSet digest d sets minimum = .ok rs → ∃ name child, d["metadata"]["name"] = .string name ∧
        rs["metadata"]["name"] = .string child ∧ (deployments.validName name = true →
          (replicaSets.validName child = true ↔ name.toList[45]? ≠ some '.'))) ∧
    ∀ (rs template : Json) (metadata : List (String × Json)) (name : String),
      (∀ ch ∈ fresh.suffix.toList, isHex ch = true) → fresh.suffix.toList.length = 8 →
        templateMetadata template = .ok metadata → replicaSets.validName name = true →
          ∃ value child, generateName fresh "create" (templatePod rs metadata name) = .ok value ∧
            value["metadata"]["name"] = .string child ∧
              (pods.validName child = true ↔ name.toList[53]? ≠ some '.') := by
  constructor
  · intro digest d rs sets minimum hdigest h
    obtain ⟨name, hash, hname, hchild, hdigits, hlength⟩ := newSet_name hdigest h
    refine ⟨name, setName name hash, hname, hchild, fun hvalid => ?_⟩
    apply validName_cut hvalid hdigits
    · rintro hnil
      simp [hnil] at hlength
    · omega
    · omega
  · intro rs template metadata name hdigits hlength hmetadata hvalid
    obtain ⟨value, hvalue, hchild⟩ := generateName_templatePod rs name hmetadata
    refine ⟨value, _, hvalue, hchild, ?_⟩
    apply validName_cut hvalid hdigits
    · rintro hnil
      simp [hnil] at hlength
    · omega
    · omega

theorem short_name_accepted : ∃ value child,
    generateName ⟨"01234567", "uid", "volume", "y", "now", "secret", 0⟩ "create"
      (templatePod (.object []) [("labels", .null), ("annotations", .null)] "web") = .ok value ∧
        value["metadata"]["name"] = .string child ∧
          (pods.validName child = true ↔ "web".toList[53]? ≠ some '.') :=
  (derived_name_accepted_iff ⟨"01234567", "uid", "volume", "y", "now", "secret", 0⟩).2 (.object [])
    .null [("labels", .null), ("annotations", .null)] "web"
    (List.all_eq_true.mp (by decide +kernel)) rfl rfl (by decide +kernel)

/-- A name that is accepted, whose 46th character is a dot. -/
def dottedName : String := String.ofList (List.replicate 45 'a' ++ ['.', 'b'])

theorem dotted_name_refused : deployments.validName dottedName = true ∧
    replicaSets.validName (setName dottedName "0123456789abcdef") = false := by
  decide +kernel

end Hedronetes.Controllers
