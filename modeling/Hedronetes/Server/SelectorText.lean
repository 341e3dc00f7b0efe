import Hedronetes.Apply.Answers
import Hedronetes.Auth.Nodes
import Hedronetes.Server.Rules

/-!
# The text of selectors

Label and field selectors as a request writes them. Values of field selectors may hold the
separators behind a backslash; what is written so is read back as it was meant.
-/

namespace Hedronetes.Server

open Apply Fallible

/-- `str::trim`. -/
def trim (s : List Char) : List Char := (s.dropWhile isWhiteSpace).rdropWhile isWhiteSpace

/-! ## Label selectors -/

/-- The requirements of a label selector: commas in parentheses do not part them. -/
def splitRequirements (inSet : Bool) (current : List Char) : List Char → Outcome (List (List Char))
  | [] => if inSet then .error (bad "unclosed selector set") else .ok [trim current]
  | '(' :: rest =>
    if inSet then .error (bad "nested label selector set")
    else splitRequirements true (current ++ ['(']) rest
  | ')' :: rest =>
    if inSet then splitRequirements false (current ++ [')']) rest
    else .error (bad "unmatched selector parenthesis")
  | ',' :: rest =>
    if inSet then splitRequirements true (current ++ [',']) rest
    else do return trim current :: (← splitRequirements false [] rest)
  | ch :: rest => splitRequirements inSet (current ++ [ch]) rest

def splitLabels (s : String) : Outcome (List (List Char)) :=
  if s.toList.all isWhiteSpace then .ok []
  else if 8192 < s.utf8ByteSize then .error (bad "label selector exceeds limit")
  else do
    let out ← splitRequirements false [] s.toList
    if [] ∈ out then .error (bad "empty selector requirement") else return out

def labelPart (s : List Char) (empty : Bool) : Bool :=
  (empty && s = []) || (s ≠ [] && decide (s.length ≤ 63) && s.head?.any Char.isAlphanum &&
    s.getLast?.any Char.isAlphanum && s.all fun c => c.isAlphanum || c ∈ ['-', '_', '.'])

def labelDomain (s : List Char) : Bool :=
  s ≠ [] && decide (s.length ≤ 63) && s.head?.any Char.isAlphanum &&
    s.getLast?.any Char.isAlphanum && s.all fun c => c.isLower || c.isDigit || c = '-'

def labelKey (key : List Char) : Bool :=
  match Auth.splitOnce '/' (String.ofList key) with
  | some (domains, name) => domains ≠ "" && decide (domains.utf8ByteSize ≤ 253) &&
      (splitOn '.' domains).all (fun s => labelDomain s.toList) && labelPart name.toList false
  | none => labelPart key false

def parseValue (value : List Char) : Outcome String :=
  if labelPart (trim value) true then .ok (String.ofList (trim value))
  else .error (bad "invalid label selector value")

/-- What is between the parentheses. -/
def setBody (value : List Char) : Option (List Char) :=
  match trim value with
  | '(' :: inside => if inside.getLast? = some ')' then some inside.dropLast else none
  | _ => none

def parseSet (value : List Char) : Outcome (List String) :=
  match setBody value with
  | some inside => (inside.splitOn ',').mapM parseValue
  | none => .error (bad "selector in/notin requires parentheses")

def parseInteger (value : List Char) : Outcome ℤ := do
  match parseI64 (← parseValue value) with
  | some n => return n
  | none => .error (bad "selector comparison needs an integer")

/-- The requirement on a label by what stands behind its key. -/
def parseOperator (rest : List Char) : Outcome Op :=
  match rest with
  | [] => .ok .present
  | 'n' :: 'o' :: 't' :: 'i' :: 'n' :: values => do return .notAmong (← parseSet values)
  | 'i' :: 'n' :: values => do return .among (← parseSet values)
  | '!' :: '=' :: value => do return .notAmong [← parseValue value]
  | '=' :: '=' :: value => do return .among [← parseValue value]
  | '=' :: value => do return .among [← parseValue value]
  | '>' :: value => do return .greater (← parseInteger value)
  | '<' :: value => do return .less (← parseInteger value)
  | _ => .error (bad "invalid label selector operator")

/-- A character that no key holds. -/
def endsKey (ch : Char) : Bool := isWhiteSpace ch || ch ∈ ['=', '!', '<', '>', '(', ')']

def parseLabel (s : List Char) : Outcome Requirement :=
  match s with
  | '!' :: rest =>
    if labelKey (trim rest) then .ok ⟨String.ofList (trim rest), .absent⟩
    else .error (bad "invalid label selector key")
  | s =>
    let key := s.takeWhile fun ch => !endsKey ch
    if labelKey key then do
      let op ← parseOperator (trim (s.dropWhile fun ch => !endsKey ch))
      return ⟨String.ofList key, op⟩
    else .error (bad "invalid label selector key")

/-! ## Field selectors -/

/-- The characters that a backslash may stand before. -/
def escapable (ch : Char) : Bool := ch ∈ [',', '=', '\\']

/-- The parts of a field selector, with their backslashes. -/
def splitParts (current : List Char) : Bool → List Char → Outcome (List (List Char))
  | true, [] => .error (bad "trailing selector escape")
  | false, [] => .ok [current]
  | true, ch :: rest =>
    if escapable ch then splitParts (current ++ ['\\', ch]) false rest
    else .error (bad "invalid field selector escape")
  | false, ch :: rest =>
    if ch = '\\' then splitParts current true rest
    else if ch = ',' then do return current :: (← splitParts [] false rest)
    else splitParts (current ++ [ch]) false rest

def splitFields (s : String) : Outcome (List (List Char)) :=
  if s.toList.all isWhiteSpace then .ok []
  else if 8192 < s.utf8ByteSize then .error (bad "field selector exceeds limit")
  else splitParts [] false s.toList

/-- A backslash gives way to the character behind it, that has to be there. -/
def unescape : List Char → Outcome (List Char)
  | [] => .ok []
  | ['\\'] => .error (.panic "called Option::unwrap() on a None value")
  | '\\' :: ch :: rest => do return ch :: (← unescape rest)
  | ch :: rest => do return ch :: (← unescape rest)

/-- What stands before the first operator that has no backslash, whether it negates, and what stands
behind it. -/
def findOperator (read : List Char) : Bool → List Char → Option (List Char × Bool × List Char)
  | _, [] => none
  | true, ch :: rest => findOperator (read ++ [ch]) false rest
  | false, '!' :: '=' :: rest => some (read, true, rest)
  | false, '=' :: '=' :: rest => some (read, false, rest)
  | false, '=' :: rest => some (read, false, rest)
  | false, ch :: rest => findOperator (read ++ [ch]) (ch = '\\') rest

def kindFields (kind : String) : List String :=
  match kind with
  | "Pod" => ["spec.nodeName", "spec.restartPolicy", "spec.schedulerName",
      "spec.serviceAccountName", "status.phase", "status.podIP", "status.nominatedNodeName"]
  | "Node" => ["spec.unschedulable"]
  | "Namespace" => ["status.phase"]
  | "Secret" => ["type"]
  | "Service" => ["spec.clusterIP", "spec.type"]
  | "ReplicaSet" => ["status.replicas"]
  | _ => []

def supported (kind key : String) : Bool :=
  key ∈ ["metadata.name", "metadata.namespace"] || key ∈ kindFields kind

def parseField (kind : String) (s : List Char) : Outcome Requirement :=
  match findOperator [] false (trim s) with
  | none => .error (bad "field selector requires =, == or !=")
  | some (before, negated, behind) => do
    let key := String.ofList (← unescape (trim before))
    let value := String.ofList (← unescape (trim behind))
    if supported kind key then
      return ⟨key, if negated then .notAmong [value] else .among [value]⟩
    else .error (bad "unsupported field selector for this resource")

/-- `Selection::parse`. -/
def Selection.parse (labels fields kind : String) : Outcome Selection := do
  let labels ← (← splitLabels labels).mapM parseLabel
  let fields ← (← splitFields fields).mapM (parseField kind)
  return ⟨labels, fields⟩

/-! ## Trimming -/

section Trim

variable {l : List Char} {ch : Char}

/-- There is no white space at either end. -/
def Trimmed (l : List Char) : Prop :=
  l.head?.all (fun c => !isWhiteSpace c) = true ∧ l.getLast?.all (fun c => !isWhiteSpace c) = true

theorem Trimmed.trim (h : Trimmed l) : trim l = l := by
  obtain ⟨hhead, hlast⟩ := h
  have hfront : l.dropWhile isWhiteSpace = l := by
    cases l with
    | nil => rfl
    | cons c l =>
      have hc : isWhiteSpace c = false := by simpa using hhead
      simp [hc]
  unfold Server.trim
  rw [hfront]
  induction l using List.reverseRecOn with
  | nil => rfl
  | append_singleton l c _ =>
    have hc : isWhiteSpace c = false := by simpa using hlast
    simp [hc]

/-- Trimming takes white space off both ends. -/
theorem trim_spec (l : List Char) : ∃ front back, l = front ++ trim l ++ back ∧
    (∀ c ∈ front, isWhiteSpace c = true) ∧ ∀ c ∈ back, isWhiteSpace c = true := by
  refine ⟨l.takeWhile isWhiteSpace, (l.dropWhile isWhiteSpace).rtakeWhile isWhiteSpace, ?_, ?_, ?_⟩
  · unfold trim
    rw [List.append_assoc, List.rdropWhile_append_rtakeWhile, List.takeWhile_append_dropWhile]
  · exact fun c hc => List.mem_takeWhile_imp hc
  · exact fun c hc => List.mem_rtakeWhile_imp hc

end Trim

/-! ## Parts that were cut where a comma stands alone -/

section Paired

variable {l m : List Char} {ch : Char}

/-- Every backslash stands before a character that it may stand before. -/
inductive Paired : List Char → Prop
  | nil : Paired []
  | plain {ch : Char} {l : List Char} (hch : ch ≠ '\\') (h : Paired l) : Paired (ch :: l)
  | escaped {ch : Char} {l : List Char} (hch : escapable ch = true) (h : Paired l) :
      Paired ('\\' :: ch :: l)

theorem Paired.append (h : Paired l) (h' : Paired m) : Paired (l ++ m) := by
  induction h with
  | nil => exact h'
  | plain hch _ ih => exact .plain hch ih
  | escaped hch _ ih => exact .escaped hch ih

theorem paired_cons (h : Paired (ch :: l)) : (ch ≠ '\\' ∧ Paired l) ∨
    (ch = '\\' ∧ ∃ d rest, l = d :: rest ∧ escapable d = true ∧ Paired rest) := by
  cases h with
  | plain hch h => exact .inl ⟨hch, h⟩
  | escaped hch h => exact .inr ⟨rfl, _, _, rfl, hch, h⟩

/-- No backslash stands before white space. -/
theorem Paired.of_append (h : Paired (l ++ m)) (hl : ∀ c ∈ l, isWhiteSpace c = true) :
    Paired m := by
  induction l with
  | nil => exact h
  | cons c l ih =>
    have hc := hl c List.mem_cons_self
    rcases paired_cons h with ⟨-, hrest⟩ | ⟨rfl, -⟩
    · exact ih hrest fun d hd => hl d (List.mem_cons_of_mem _ hd)
    · exact absurd hc (by decide)

theorem isWhiteSpace_of_escapable (h : escapable ch = true) : isWhiteSpace ch = false := by
  unfold escapable at h
  have hmem : ch ∈ [',', '=', '\\'] := of_decide_eq_true h
  simp only [List.mem_cons, List.not_mem_nil, or_false] at hmem
  rcases hmem with rfl | rfl | rfl <;> decide

theorem Paired.of_append_right (h : Paired (l ++ m)) (hm : ∀ c ∈ m, isWhiteSpace c = true) :
    Paired l := by
  generalize hall : l ++ m = all at h
  induction h generalizing l with
  | nil =>
    rw [(List.append_eq_nil_iff.mp hall).1]
    exact .nil
  | plain hch _ ih =>
    cases l with
    | nil => exact .nil
    | cons c l =>
      rw [List.cons_append, List.cons.injEq] at hall
      obtain ⟨rfl, hrest⟩ := hall
      exact .plain hch (ih hrest)
  | escaped hch _ ih =>
    match l with
    | [] => exact .nil
    | [c] =>
      rw [List.singleton_append, List.cons.injEq] at hall
      obtain ⟨rfl, rfl⟩ := hall
      exact absurd (hm _ List.mem_cons_self) (by simp [isWhiteSpace_of_escapable hch])
    | c :: d :: l =>
      rw [List.cons_append, List.cons_append, List.cons.injEq, List.cons.injEq] at hall
      obtain ⟨rfl, rfl, hrest⟩ := hall
      exact .escaped hch (ih hrest)

theorem Paired.trim (h : Paired l) : Paired (trim l) := by
  obtain ⟨front, back, hl, hfront, hback⟩ := trim_spec l
  rw [hl] at h
  exact Paired.of_append (Paired.of_append_right h hback) hfront

theorem unescape_plain (hch : ch ≠ '\\') :
    unescape (ch :: l) = (unescape l).map (ch :: ·) := by
  rw [unescape]
  · rfl
  · rintro rfl
    exact absurd rfl hch
  · rintro _ _ rfl
    exact absurd rfl hch

theorem unescape_escaped : unescape ('\\' :: ch :: l) = (unescape l).map (ch :: ·) := by
  rw [unescape]
  rfl

theorem Paired.unescape (h : Paired l) : ∃ r, unescape l = .ok r := by
  induction h with
  | nil => exact ⟨[], rfl⟩
  | plain hch _ ih =>
    obtain ⟨r, hr⟩ := ih
    exact ⟨_, by rw [unescape_plain hch, hr]; rfl⟩
  | escaped hch _ ih =>
    obtain ⟨r, hr⟩ := ih
    exact ⟨_, by rw [unescape_escaped, hr]; rfl⟩

/-- The parts of a field selector keep their backslashes in place. -/
theorem splitParts_paired {current : List Char} {escaped : Bool} {parts : List (List Char)}
    (hcurrent : Paired current) (h : splitParts current escaped l = .ok parts) :
    ∀ part ∈ parts, Paired part := by
  induction l generalizing current escaped parts with
  | nil =>
    cases escaped with
    | true => cases h
    | false =>
      obtain rfl := Except.ok.inj h
      simpa using hcurrent
  | cons ch rest ih =>
    cases escaped with
    | true =>
      unfold splitParts at h
      split_ifs at h with hch
      exact ih (hcurrent.append (.escaped hch .nil)) h
    | false =>
      unfold splitParts at h
      split_ifs at h with hback hcomma
      · exact ih hcurrent h
      · obtain ⟨parts', hparts, h⟩ := bind_eq_ok.mp h
        obtain rfl := Except.ok.inj h
        simpa using ⟨hcurrent, ih .nil hparts⟩
      · exact ih (hcurrent.append (.plain hback .nil)) h

theorem splitFields_paired {fields : String} {parts : List (List Char)}
    (h : splitFields fields = .ok parts) : ∀ part ∈ parts, Paired part := by
  unfold splitFields at h
  split_ifs at h
  · obtain rfl := Except.ok.inj h
    simp
  · exact splitParts_paired .nil h

theorem findOperator_escaped {read : List Char} :
    findOperator read false ('\\' :: ch :: l) = findOperator (read ++ ['\\', ch]) false l := by
  simp [findOperator]

theorem findOperator_plain {read : List Char} (hch : ch ≠ '\\') :
    findOperator read false (ch :: l) =
      if ch = '!' ∧ l.head? = some '=' then some (read, true, l.tail)
      else if ch = '=' then some (read, false, if l.head? = some '=' then l.tail else l)
      else findOperator (read ++ [ch]) false l := by
  by_cases hequal : ch = '='
  · subst hequal
    cases l with
    | nil => simp [findOperator]
    | cons d l =>
      by_cases hd : d = '='
      · simp [findOperator, hd]
      · simp [findOperator, hd]
  · by_cases hbang : ch = '!'
    · subst hbang
      cases l with
      | nil => simp [findOperator]
      | cons d l =>
        by_cases hd : d = '='
        · simp [findOperator, hd]
        · simp [findOperator, hd]
    · simp [findOperator, hequal, hbang, hch]

theorem Paired.tail_of_equal (h : Paired l) (hhead : l.head? = some '=') : Paired l.tail := by
  cases l with
  | nil => cases hhead
  | cons ch l =>
    obtain rfl := Option.some.inj hhead
    rcases paired_cons h with ⟨-, hrest⟩ | ⟨heq, -⟩
    · exact hrest
    · exact absurd heq (by decide)

/-- An operator without a backslash parts the text between its pairs. -/
theorem findOperator_paired {read before behind : List Char} {negated : Bool} (hread : Paired read)
    (hl : Paired l) (h : findOperator read false l = some (before, negated, behind)) :
    Paired before ∧ Paired behind := by
  induction hl generalizing read with
  | nil => cases h
  | @plain ch rest hch hrest ih =>
    rw [findOperator_plain hch] at h
    split_ifs at h with hbang hequal hagain
    · obtain ⟨rfl, -, rfl⟩ := Option.some.inj h
      exact ⟨hread, hrest.tail_of_equal hbang.2⟩
    · obtain ⟨rfl, -, rfl⟩ := Option.some.inj h
      exact ⟨hread, hrest.tail_of_equal hagain⟩
    · obtain ⟨rfl, -, rfl⟩ := Option.some.inj h
      exact ⟨hread, hrest⟩
    · exact ih (hread.append (.plain hch .nil)) h
  | escaped hch _ ih =>
    rw [findOperator_escaped] at h
    exact ih (hread.append (.escaped hch .nil)) h

end Paired

/-! ## Answers -/

section Answers

variable {α β : Type}

/-- The computation gives a value or the answer that refuses it. -/
def Answered (x : Outcome α) : Prop := Ends (fun _ => True) Stop.Answers x

theorem Answered.then {x : Outcome α} {f : α → Outcome β} (h : Answered x)
    (hf : ∀ a, Answered (f a)) : Answered (x >>= f) := Ends.bind h fun a _ => hf a

theorem Answered.mapM {f : α → Outcome β} {l : List α} (h : ∀ a ∈ l, Answered (f a)) :
    Answered (l.mapM f) := by
  induction l with
  | nil => trivial
  | cons a l ih =>
    rw [List.mapM_cons]
    apply (h a List.mem_cons_self).then
    intro b
    apply (ih fun c hc => h c (List.mem_cons_of_mem _ hc)).then
    intro bs
    trivial

theorem splitRequirements_answered (inSet : Bool) (current l : List Char) :
    Answered (splitRequirements inSet current l) := by
  fun_induction splitRequirements inSet current l with
  | case1 => trivial
  | case2 => trivial
  | case3 => trivial
  | case4 _ _ _ _ ih => exact ih
  | case5 _ _ ih => exact ih
  | case6 => trivial
  | case7 _ _ ih => exact ih
  | case8 _ _ _ _ ih => exact ih.then fun _ => trivial
  | case9 _ _ _ _ _ _ _ ih => exact ih

theorem splitLabels_answered (s : String) : Answered (splitLabels s) := by
  unfold splitLabels
  split_ifs
  · trivial
  · trivial
  · apply (splitRequirements_answered false [] s.toList).then
    intro out
    split_ifs <;> trivial

theorem parseValue_answered (value : List Char) : Answered (parseValue value) := by
  unfold parseValue
  split_ifs <;> trivial

theorem parseSet_answered (value : List Char) : Answered (parseSet value) := by
  unfold parseSet
  split
  · exact Answered.mapM fun v _ => parseValue_answered v
  · trivial

theorem parseInteger_answered (value : List Char) : Answered (parseInteger value) := by
  apply (parseValue_answered value).then
  intro v
  split <;> trivial

theorem parseOperator_answered (rest : List Char) : Answered (parseOperator rest) := by
  unfold parseOperator
  split
  · trivial
  · exact (parseSet_answered _).then fun _ => trivial
  · exact (parseSet_answered _).then fun _ => trivial
  · exact (parseValue_answered _).then fun _ => trivial
  · exact (parseValue_answered _).then fun _ => trivial
  · exact (parseValue_answered _).then fun _ => trivial
  · exact (parseInteger_answered _).then fun _ => trivial
  · exact (parseInteger_answered _).then fun _ => trivial
  · trivial

theorem parseLabel_answered (s : List Char) : Answered (parseLabel s) := by
  unfold parseLabel
  split
  · split_ifs <;> trivial
  · dsimp only
    split_ifs
    · exact (parseOperator_answered _).then fun _ => trivial
    · trivial

theorem splitParts_answered (current : List Char) (escaped : Bool) (l : List Char) :
    Answered (splitParts current escaped l) := by
  induction l generalizing current escaped with
  | nil => cases escaped <;> trivial
  | cons ch rest ih =>
    cases escaped with
    | true =>
      unfold splitParts
      split_ifs
      · exact ih _ false
      · trivial
    | false =>
      unfold splitParts
      split_ifs
      · exact ih current true
      · exact (ih [] false).then fun _ => trivial
      · exact ih _ false

theorem splitFields_answered (s : String) : Answered (splitFields s) := by
  unfold splitFields
  split_ifs
  · trivial
  · trivial
  · exact splitParts_answered [] false s.toList

theorem Paired.answered {l : List Char} (h : Paired l) : Answered (Server.unescape l) := by
  obtain ⟨r, hr⟩ := h.unescape
  rw [hr]
  trivial

/-- A part whose backslashes stand in place is read without a panic. -/
theorem parseField_answered {kind : String} {part : List Char} (h : Paired part) :
    Answered (parseField kind part) := by
  unfold parseField
  split
  · trivial
  · rename_i before negated behind hfind
    obtain ⟨hbefore, hbehind⟩ := findOperator_paired .nil h.trim hfind
    apply hbefore.trim.answered.then
    intro key
    apply hbehind.trim.answered.then
    intro value
    dsimp only
    split_ifs <;> trivial

/-- Whatever the text, there is a selection or an error. -/
theorem Selection.parse_answered (labels fields kind : String) :
    Answered (Selection.parse labels fields kind) := by
  apply (splitLabels_answered labels).then
  intro requirements
  apply (Answered.mapM fun s _ => parseLabel_answered s).then
  intro labels
  cases hparts : splitFields fields with
  | error stop =>
    have hstop := splitFields_answered fields
    rw [hparts] at hstop
    exact hstop
  | ok parts =>
    apply (Answered.mapM fun part hpart =>
      parseField_answered (splitFields_paired hparts part hpart)).then
    intro fields
    trivial

end Answers

/-! ## Terms as text -/

inductive Spelling
  | single
  | double
  | unequal
  deriving DecidableEq

def Spelling.text : Spelling → List Char
  | .single => ['=']
  | .double => ['=', '=']
  | .unequal => ['!', '=']

structure Term where
  key : String
  spelling : Spelling
  value : String

/-- A backslash before every separator. -/
def escape (value : List Char) : List Char :=
  value.flatMap fun ch => if escapable ch then ['\\', ch] else [ch]

def Term.text (term : Term) : List Char :=
  term.key.toList ++ (term.spelling.text ++ escape term.value.toList)

def fieldsText (terms : List Term) : String :=
  String.ofList ([','].intercalate (terms.map Term.text))

def Term.requirement (term : Term) : Requirement :=
  ⟨term.key,
    if term.spelling = .unequal then .notAmong [term.value] else .among [term.value]⟩

section Terms

variable {l : List Char} {ch : Char} {kind : String} {term : Term}

/-- Neither white space nor anything that parts a term. -/
def plainChar (ch : Char) : Bool := !isWhiteSpace ch && ch ∉ ['\\', ',', '=', '!']

theorem plainChar_ne (h : plainChar ch = true) : ch ≠ '\\' ∧ ch ≠ ',' ∧ ch ≠ '=' ∧ ch ≠ '!' := by
  unfold plainChar at h
  simp only [Bool.and_eq_true, decide_eq_true_eq, List.mem_cons, List.not_mem_nil, or_false,
    not_or] at h
  exact h.2

/-- The fields of a kind are named in plain characters. -/
theorem supported_plain {key : String} (h : supported kind key = true) :
    key.toList ≠ [] ∧ key.toList.all plainChar = true := by
  have hfields : ∀ k ∈ ["metadata.name", "metadata.namespace"] ++ kindFields kind,
      k.toList ≠ [] ∧ k.toList.all plainChar = true := by
    unfold kindFields
    split <;> decide
  apply hfields
  simpa [supported, or_assoc] using h

theorem escape_nil : escape [] = [] := rfl

theorem escape_cons : escape (ch :: l) =
    (if escapable ch then ['\\', ch] else [ch]) ++ escape l := List.flatMap_cons

theorem escapable_backslash (h : escapable ch = false) : ch ≠ '\\' ∧ ch ≠ ',' ∧ ch ≠ '=' := by
  unfold escapable at h
  simpa [and_assoc, and_left_comm, and_comm] using h

theorem unescape_escape (l : List Char) : unescape (escape l) = .ok l := by
  induction l with
  | nil => rfl
  | cons ch l ih =>
    rw [escape_cons]
    split_ifs with hch
    · rw [List.cons_append, List.singleton_append, unescape_escaped, ih]
      rfl
    · have hback := (escapable_backslash (Bool.eq_false_iff.mpr hch)).1
      rw [List.singleton_append, unescape_plain hback, ih]
      rfl

theorem unescape_of_plain (h : l.all plainChar = true) : unescape l = .ok l := by
  induction l with
  | nil => rfl
  | cons ch l ih =>
    simp only [List.all_cons, Bool.and_eq_true] at h
    rw [unescape_plain (plainChar_ne h.1).1, ih h.2]
    rfl

/-! ### Scanning a term -/

theorem splitParts_plain {current rest : List Char} (h : l.all plainChar = true) :
    splitParts current false (l ++ rest) = splitParts (current ++ l) false rest := by
  induction l generalizing current with
  | nil => rw [List.nil_append, List.append_nil]
  | cons ch l ih =>
    simp only [List.all_cons, Bool.and_eq_true] at h
    obtain ⟨hback, hcomma, -, -⟩ := plainChar_ne h.1
    rw [List.cons_append, splitParts, if_neg hback, if_neg hcomma, ih h.2, List.append_assoc,
      List.singleton_append]

theorem splitParts_spelling {current rest : List Char} (spelling : Spelling) :
    splitParts current false (spelling.text ++ rest) =
      splitParts (current ++ spelling.text) false rest := by
  cases spelling <;> simp [Spelling.text, splitParts]

theorem splitParts_escape {current rest : List Char} :
    splitParts current false (escape l ++ rest) = splitParts (current ++ escape l) false rest := by
  induction l generalizing current with
  | nil => rw [escape_nil, List.nil_append, List.append_nil]
  | cons ch l ih =>
    rw [escape_cons]
    split_ifs with hch
    · simp only [List.cons_append, List.nil_append]
      rw [splitParts, if_pos rfl, splitParts, if_pos hch, ih, List.append_assoc]
      rfl
    · obtain ⟨hback, hcomma, -⟩ := escapable_backslash (Bool.eq_false_iff.mpr hch)
      rw [List.singleton_append, List.cons_append, splitParts, if_neg hback, if_neg hcomma, ih,
        List.append_assoc, List.singleton_append]

theorem splitParts_term {current rest : List Char} (h : supported kind term.key = true) :
    splitParts current false (term.text ++ rest) =
      splitParts (current ++ term.text) false rest := by
  unfold Term.text
  rw [List.append_assoc, splitParts_plain (supported_plain h).2, List.append_assoc,
    splitParts_spelling, splitParts_escape]
  simp only [List.append_assoc]

/-- Commas part the terms where they stand between them. -/
theorem splitParts_terms {terms : List Term} (hne : terms ≠ [])
    (h : ∀ t ∈ terms, supported kind t.key = true) :
    splitParts [] false ([','].intercalate (terms.map Term.text)) = .ok (terms.map Term.text) := by
  induction terms with
  | nil => exact absurd rfl hne
  | cons t terms ih =>
    have ht := h t List.mem_cons_self
    cases terms with
    | nil =>
      have hscan : splitParts [] false (t.text ++ []) = .ok [t.text] := splitParts_term ht
      simpa using hscan
    | cons next terms =>
      have hrest := ih (List.cons_ne_nil _ _) fun t' ht' => h t' (List.mem_cons_of_mem _ ht')
      rw [List.map_cons, List.intercalate_cons_of_ne_nil (by simp), List.append_assoc,
        splitParts_term ht, List.singleton_append, splitParts,
        if_neg (by decide), if_pos rfl, hrest]
      rfl

theorem findOperator_plainPart {read rest : List Char} (h : l.all plainChar = true) :
    findOperator read false (l ++ rest) = findOperator (read ++ l) false rest := by
  induction l generalizing read with
  | nil => rw [List.nil_append, List.append_nil]
  | cons ch l ih =>
    simp only [List.all_cons, Bool.and_eq_true] at h
    obtain ⟨hback, -, hequal, hbang⟩ := plainChar_ne h.1
    rw [List.cons_append, findOperator_plain hback, if_neg fun hboth => hbang hboth.1,
      if_neg hequal, ih h.2, List.append_assoc, List.singleton_append]

/-- The first character of an escaped value is no equals sign. -/
theorem escape_head (l : List Char) : (escape l).head? ≠ some '=' := by
  cases l with
  | nil => simp [escape_nil]
  | cons ch l =>
    rw [escape_cons]
    split_ifs with hch
    · simp
    · simpa using (escapable_backslash (Bool.eq_false_iff.mpr hch)).2.2

theorem findOperator_spelling {read : List Char} (spelling : Spelling) :
    findOperator read false (spelling.text ++ escape l) =
      some (read, decide (spelling = .unequal), escape l) := by
  have hhead := escape_head l
  cases spelling with
  | single =>
    rw [Spelling.text, List.singleton_append, findOperator_plain (by decide), if_neg (by simp),
      if_pos rfl, if_neg hhead]
    rfl
  | double => rfl
  | unequal => rfl

theorem findOperator_term (h : supported kind term.key = true) :
    findOperator [] false term.text =
      some (term.key.toList, decide (term.spelling = .unequal), escape term.value.toList) := by
  unfold Term.text
  rw [findOperator_plainPart (supported_plain h).2, findOperator_spelling, List.nil_append]

/-! ### Terms without white space around them -/

theorem trimmed_cons (hch : isWhiteSpace ch = false)
    (hlast : (ch :: l).getLast?.all (fun c => !isWhiteSpace c) = true) : Trimmed (ch :: l) :=
  ⟨by simp [hch], hlast⟩

theorem plainChar_trimmed (h : l.all plainChar = true) : Trimmed l := by
  have hspace : ∀ c ∈ l, isWhiteSpace c = false := by
    intro c hc
    have hplain := List.all_eq_true.mp h c hc
    unfold plainChar at hplain
    simp only [Bool.and_eq_true] at hplain
    simpa using hplain.1
  constructor
  · rw [Option.all_eq_true]
    intro c hc
    simpa using hspace c (List.mem_of_head? hc)
  · rw [Option.all_eq_true]
    intro c hc
    simpa using hspace c (List.mem_of_getLast? hc)

/-- An escaped value ends as the value does. -/
theorem escape_getLast (l : List Char) : (escape l).getLast? = l.getLast? := by
  induction l using List.reverseRecOn with
  | nil => rfl
  | append_singleton l ch _ =>
    have hescape : escape (l ++ [ch]) =
        escape l ++ (if escapable ch then ['\\', ch] else [ch]) := by
      unfold escape
      rw [List.flatMap_append, List.flatMap_singleton]
    rw [hescape, List.getLast?_concat]
    split_ifs <;> simp [List.getLast?_append]

theorem Trimmed.escape (h : Trimmed l) : Trimmed (escape l) := by
  obtain ⟨hhead, hlast⟩ := h
  constructor
  · cases l with
    | nil => rfl
    | cons ch l =>
      have hch : isWhiteSpace ch = false := by simpa using hhead
      rw [escape_cons]
      split_ifs
      · rfl
      · simp [hch]
  · rw [escape_getLast]
    exact hlast

theorem spelling_last (spelling : Spelling) : spelling.text.getLast? = some '=' := by
  cases spelling <;> rfl

theorem term_trimmed (hkey : supported kind term.key = true) (hvalue : Trimmed term.value.toList) :
    Trimmed term.text := by
  obtain ⟨hne, hplain⟩ := supported_plain hkey
  obtain ⟨hhead, -⟩ := plainChar_trimmed hplain
  obtain ⟨ch, key, hcons⟩ := List.exists_cons_of_ne_nil hne
  unfold Term.text
  constructor
  · rw [hcons] at hhead ⊢
    simpa using hhead
  · rw [List.getLast?_append, List.getLast?_append, spelling_last, escape_getLast]
    cases hlast : term.value.toList.getLast? with
    | none => rfl
    | some c =>
      have hc := hvalue.2
      rw [hlast] at hc
      simpa using hc

theorem parseField_term (hkey : supported kind term.key = true)
    (hvalue : Trimmed term.value.toList) :
    parseField kind term.text = .ok term.requirement := by
  have hplain := (supported_plain hkey).2
  unfold parseField
  rw [(term_trimmed hkey hvalue).trim, findOperator_term hkey]
  dsimp only
  rw [(plainChar_trimmed hplain).trim, unescape_of_plain hplain, hvalue.escape.trim,
    unescape_escape]
  apply bind_eq_ok.mpr ⟨_, rfl, bind_eq_ok.mpr ⟨_, rfl, _⟩⟩
  rw [String.ofList_toList, String.ofList_toList, if_pos hkey]
  simp [Term.requirement, pure, Except.pure]

theorem equal_mem_text (term : Term) : '=' ∈ term.text := by
  have hspelling : '=' ∈ term.spelling.text := List.mem_of_getLast? (spelling_last _)
  unfold Term.text
  simp [hspelling]

theorem equal_mem_terms {terms : List Term} (hne : terms ≠ []) :
    '=' ∈ [','].intercalate (terms.map Term.text) := by
  cases terms with
  | nil => exact absurd rfl hne
  | cons t terms =>
    cases terms with
    | nil => simpa using equal_mem_text t
    | cons next terms =>
      rw [List.map_cons, List.intercalate_cons_of_ne_nil (by simp)]
      simp [equal_mem_text]

/-- The requirements of the terms come back, whatever the text of the values. -/
theorem parseFields_terms {terms : List Term} (hne : terms ≠ [])
    (hkeys : ∀ t ∈ terms, supported kind t.key = true)
    (hvalues : ∀ t ∈ terms, Trimmed t.value.toList)
    (hlimit : (fieldsText terms).utf8ByteSize ≤ 8192) :
    splitFields (fieldsText terms) >>= (·.mapM (parseField kind)) =
      .ok (terms.map Term.requirement) := by
  have hsplit : splitFields (fieldsText terms) = .ok (terms.map Term.text) := by
    have hblank : ¬(fieldsText terms).toList.all isWhiteSpace = true := by
      intro hall
      have hequal := List.all_eq_true.mp hall '=' (by
        rw [fieldsText, String.toList_ofList]
        exact equal_mem_terms hne)
      exact absurd hequal (by decide)
    unfold splitFields
    rw [if_neg hblank, if_neg (by omega)]
    simpa [fieldsText] using splitParts_terms hne hkeys
  have hparts : (terms.map Term.text).mapM (parseField kind) =
      .ok (terms.map Term.requirement) := by
    rw [mapM_eq_ok_iff, List.forall₂_map_left_iff, List.forall₂_map_right_iff, List.forall₂_same]
    exact fun t ht => parseField_term (hkeys t ht) (hvalues t ht)
  rw [hsplit]
  exact hparts

theorem parse_terms {labels : String} {terms : List Term} {selection : Selection}
    (hne : terms ≠ []) (hkeys : ∀ t ∈ terms, supported kind t.key = true)
    (hvalues : ∀ t ∈ terms, Trimmed t.value.toList)
    (hlimit : (fieldsText terms).utf8ByteSize ≤ 8192)
    (hlabels : Selection.parse labels "" kind = .ok selection) :
    Selection.parse labels (fieldsText terms) kind =
      .ok { selection with fields := terms.map Term.requirement } := by
  obtain ⟨parts, hparts, hlabels⟩ := bind_eq_ok.mp hlabels
  obtain ⟨requirements, hrequirements, hlabels⟩ := bind_eq_ok.mp hlabels
  obtain ⟨-, -, hlabels⟩ := bind_eq_ok.mp hlabels
  obtain ⟨-, -, hlabels⟩ := bind_eq_ok.mp hlabels
  obtain ⟨pieces, hpieces, hfields⟩ :=
    bind_eq_ok.mp (parseFields_terms hne hkeys hvalues hlimit)
  have hselection := Except.ok.inj hlabels
  rw [← hselection]
  apply bind_eq_ok.mpr ⟨parts, hparts, _⟩
  apply bind_eq_ok.mpr ⟨requirements, hrequirements, _⟩
  exact bind_eq_ok.mpr ⟨pieces, hpieces, bind_eq_ok.mpr ⟨_, hfields, rfl⟩⟩

end Terms

/-- Terms are read back from their text, every text is answered, and a list keeps all it selects
when it is narrowed to the value that the selection asks of a field. -/
theorem field_selectors_exact :
    (∀ (labels kind : String) (terms : List Term) (selection : Selection), terms ≠ [] →
      (∀ t ∈ terms, supported kind t.key = true) → (∀ t ∈ terms, Trimmed t.value.toList) →
      (fieldsText terms).utf8ByteSize ≤ 8192 →
      Selection.parse labels "" kind = .ok selection →
      Selection.parse labels (fieldsText terms) kind =
        .ok { selection with fields := terms.map Term.requirement }) ∧
    (∀ labels fields kind : String,
      Ends (fun _ => True) Stop.Answers (Selection.parse labels fields kind)) ∧
    (∀ (number : Json → String) (selection : Selection) (field v : String),
      selection.exactField field = some v →
      (∀ value, selection.isMatch number value = true → fieldValue number value field = v) ∧
      ∀ objects : List Json,
        (objects.filter fun value => fieldValue number value field = v).filter
          (selection.isMatch number) = objects.filter (selection.isMatch number)) := by
  constructor
  · intro labels kind terms selection hne hkeys hvalues hlimit hlabels
    exact parse_terms hne hkeys hvalues hlimit hlabels
  constructor
  · exact Selection.parse_answered
  · intro number selection field v hfield
    have hvalue : ∀ value, selection.isMatch number value = true →
        fieldValue number value field = v :=
      fun value h => Selection.fieldValue_of_matches h hfield
    constructor
    · exact hvalue
    · intro objects
      rw [List.filter_filter]
      apply List.filter_congr
      intro value _
      by_cases h : selection.isMatch number value = true
      · simp [h, hvalue value h]
      · simp [h]

/-- Two terms on one Pod list, a value with all the separators. -/
theorem separators_read_back :
    Selection.parse "app" "metadata.name==a\\,b\\=!\\\\,status.phase!=" "Pod" =
      .ok ⟨[⟨"app", .present⟩],
        [⟨"metadata.name", .among ["a,b=!\\"]⟩, ⟨"status.phase", .notAmong [""]⟩]⟩ :=
  field_selectors_exact.1 "app" "Pod"
    [⟨"metadata.name", .double, "a,b=!\\"⟩, ⟨"status.phase", .unequal, ""⟩]
    ⟨[⟨"app", .present⟩], []⟩ (by decide) (by decide) (by unfold Trimmed; decide) (by decide)
    (toOption_eq_some.mp (by decide +kernel))

end Hedronetes.Server
