import Hedronetes.Foundations.EncodedText

/-!
# Container logs

The records of a container's two output streams are assembled to lines in one buffer. The lines are
compared with those that each stream wrote.
-/

namespace Hedronetes.Kubelet

open EncodedText

/-! ## Formatting -/

def splitOnce : List Char → Option (List Char × List Char)
  | [] => none
  | ch :: rest =>
    if ch = ' ' then some ([], rest) else (splitOnce rest).map fun cut => (ch :: cut.1, cut.2)

/-- The timestamp, the tag and the content of a record. -/
def parseCri (line : List Char) : Option (List Char × List Char × List Char) :=
  match splitOnce line with
  | none => none
  | some (ts, rest) =>
    if 'T' ∉ ts then none
    else match splitOnce rest with
      | none => none
      | some (stream, rest) =>
        if stream ≠ "stdout".toList ∧ stream ≠ "stderr".toList then none
        else
          let (tag, content) := (splitOnce rest).getD (rest, [])
          if tag ≠ ['P'] ∧ tag ≠ ['F'] then none else some (ts, tag, content)

/-- The lines so far and the text of the partial records since the last of them. -/
def formatLine (timestamps : Bool) (state : List (List Char) × List Char) (raw : List UInt8) :
    List (List Char) × List Char :=
  let line := (decoded raw).rdropWhile (· ∈ ['\n', '\r'])
  match parseCri line with
  | some (ts, tag, content) =>
    if tag = ['P'] then (state.1, state.2 ++ content)
    else
      let body := state.2 ++ content
      (state.1 ++ [if timestamps then ts ++ ' ' :: body else body], [])
  | none =>
    let lines := if state.2 = [] then state.1 else state.1 ++ [state.2]
    (if line = [] then lines else lines ++ [line], [])

def formatContainerLog (bytes : List UInt8) (timestamps : Bool) (tailLines : Option ℕ) :
    List UInt8 :=
  let state := (splitInclusive 10 bytes).foldl (formatLine timestamps) ([], [])
  let lines := if state.2 = [] then state.1 else state.1 ++ [state.2]
  let lines := match tailLines with
    | some n => lines.drop (lines.length - n)
    | none => lines
  let out := encoded (['\n'].intercalate lines)
  if out = [] then out else out ++ [10]

/-! ## Records -/

inductive Stream
  | stdout
  | stderr
  deriving DecidableEq

namespace Stream

def name : Stream → String
  | stdout => "stdout"
  | stderr => "stderr"

def other : Stream → Stream
  | stdout => stderr
  | stderr => stdout

@[simp] theorem other_stdout : other stdout = stderr := rfl

@[simp] theorem other_stderr : other stderr = stdout := rfl

end Stream

/-- A record as the runtime writes it: the timestamp, the stream, the tag and any bytes but a
newline. -/
structure Record where
  timestamp : List Char
  stream : Stream
  full : Bool
  content : List UInt8
  dated : 'T' ∈ timestamp
  unspaced : ' ' ∉ timestamp
  unbroken : '\n' ∉ timestamp
  oneLine : 10 ∉ content

namespace Record

variable (r : Record)

def header : List Char :=
  r.timestamp ++ ' ' :: (r.stream.name.toList ++ [' ', if r.full then 'F' else 'P', ' '])

def bytes : List UInt8 := encoded r.header ++ r.content ++ [10]

/-- A line as it is shown, behind the timestamp of the record that ends it. -/
def shown (timestamps : Bool) (body : List UInt8) : List UInt8 :=
  if timestamps then encoded (r.timestamp ++ [' ']) ++ body else body

end Record

def logText (rs : List Record) : List UInt8 := rs.flatMap Record.bytes

/-! ## Logical lines -/

/-- What a stream wrote since its last full record. -/
def unfinished (s : Stream) (rs : List Record) : List UInt8 :=
  rs.foldl (fun pending r =>
    if r.stream = s then if r.full then [] else pending ++ r.content else pending) []

/-- The lines that are completed by full records, each from its own stream's records only. -/
def completedAfter (timestamps : Bool) (before : List Record) : List Record → List (List UInt8)
  | [] => []
  | r :: rest =>
    (if r.full then [r.shown timestamps (unfinished r.stream before ++ r.content)] else []) ++
      completedAfter timestamps (before ++ [r]) rest

def completed (timestamps : Bool) (rs : List Record) : List (List UInt8) :=
  completedAfter timestamps [] rs

/-- What the streams have left unfinished. -/
def leftover (rs : List Record) : List (List UInt8) :=
  [unfinished .stdout rs, unfinished .stderr rs].filter (· ≠ [])

/-- A log that holds the completed lines in order and then what each stream left unfinished. -/
def Keeps (timestamps : Bool) (rs : List Record) (log : List UInt8) : Prop :=
  ∃ rest, rest.Perm (leftover rs) ∧ log = terminated 10 (completed timestamps rs ++ rest)

/-- Every content is text, and no carriage return ends it. -/
def Textual (rs : List Record) : Prop :=
  ∀ r ∈ rs, Encodes r.content ∧ r.content.getLast? ≠ some 13

/-- A full record comes only when the other stream has left nothing unfinished. -/
def FullAlone (rs : List Record) : Prop :=
  ∀ before r after, rs = before ++ r :: after → r.full = true →
    unfinished r.stream.other before = []

/-- The streams take turns at whole lines, and in the end one of them has left nothing
unfinished. -/
structure Separate (rs : List Record) : Prop where
  full : FullAlone rs
  last : unfinished .stdout rs = [] ∨ unfinished .stderr rs = []

/-- A single empty line is all there is to show. -/
def Blank (timestamps : Bool) (rs : List Record) : Prop :=
  timestamps = false ∧ (rs.filter (·.full)).length = 1 ∧ ∀ r ∈ rs, r.content = []

variable {timestamps : Bool} {rs : List Record} {r : Record} {s : Stream}

/-! ## Reading a record -/

theorem splitOnce_cut {a : List Char} (ha : ' ' ∉ a) (rest : List Char) :
    splitOnce (a ++ ' ' :: rest) = some (a, rest) := by
  induction a with
  | nil => rfl
  | cons ch a ih =>
    have hch : ch ≠ ' ' := by
      rintro rfl
      exact ha List.mem_cons_self
    rw [List.cons_append, splitOnce, if_neg hch, ih fun hmem => ha (List.mem_cons_of_mem ch hmem)]
    rfl

theorem parseCri_header (r : Record) (content : List Char) :
    parseCri (r.header ++ content) =
      some (r.timestamp, [if r.full then 'F' else 'P'], content) := by
  have hstream : ' ' ∉ r.stream.name.toList := by
    cases r.stream <;> decide
  have htag : ' ' ∉ [if r.full then 'F' else 'P'] := by
    cases r.full <;> decide
  have hheader : r.header ++ content = r.timestamp ++ ' ' :: (r.stream.name.toList ++
      ' ' :: ([if r.full then 'F' else 'P'] ++ ' ' :: content)) := by
    simp [Record.header]
  rw [hheader, parseCri, splitOnce_cut r.unspaced]
  simp only
  rw [if_neg (not_not.mpr r.dated), splitOnce_cut hstream]
  simp only
  rw [splitOnce_cut htag, if_neg, Option.getD_some]
  · simp only
    rw [if_neg]
    cases r.full <;> decide
  · cases r.stream <;> decide

/-! ## One buffer of bytes -/

namespace Record

/-- What the reader keeps of a content. -/
def kept (r : Record) : Option (List UInt8) :=
  if Encodes r.content then some (r.content.rdropWhile (· = 13)) else none

end Record

def gather (timestamps : Bool) (state : List (List UInt8) × List UInt8) (r : Record) :
    List (List UInt8) × List UInt8 :=
  match r.kept with
  | some content =>
    if r.full then (state.1 ++ [r.shown timestamps (state.2 ++ content)], [])
    else (state.1, state.2 ++ content)
  | none => (if state.2 = [] then state.1 else state.1 ++ [state.2], [])

def gathered (timestamps : Bool) (rs : List Record) : List (List UInt8) × List UInt8 :=
  rs.foldl (gather timestamps) ([], [])

/-- The gathered lines, the last of them possibly unfinished. -/
def assembled (timestamps : Bool) (rs : List Record) : List (List UInt8) :=
  (gathered timestamps rs).1 ++ [(gathered timestamps rs).2].filter (· ≠ [])

/-- The bytes of the reader's state. -/
def image (state : List (List Char) × List Char) : List (List UInt8) × List UInt8 :=
  (state.1.map encoded, encoded state.2)

theorem trim_behind_blank (front : List Char) {text : List Char} (htext : '\n' ∉ text) :
    (front ++ ' ' :: text).rdropWhile (· ∈ ['\n', '\r']) =
      front ++ ' ' :: text.rdropWhile (· = '\r') := by
  induction text using List.reverseRecOn with
  | nil => rw [List.rdropWhile_concat, if_neg (by decide), List.rdropWhile_nil]
  | append_singleton text last ih =>
    rw [List.mem_append, List.mem_singleton, not_or] at htext
    rw [← List.cons_append, ← List.append_assoc, List.rdropWhile_concat, ih htext.1,
      List.rdropWhile_concat]
    by_cases hlast : last = '\r'
    · rw [if_pos (by simp [hlast]), if_pos (decide_eq_true hlast)]
    · rw [if_neg (by simpa [hlast] using Ne.symm htext.2), if_neg (by simpa using hlast),
        List.append_assoc, List.cons_append]

theorem newline_encoded {text : List Char} : 10 ∈ encoded text ↔ '\n' ∈ text :=
  mem_encoded_iff (by decide) rfl

theorem decoded_bytes (r : Record) (h : Encodes r.content) :
    (decoded r.bytes).rdropWhile (· ∈ ['\n', '\r']) =
      r.header ++ (decoded r.content).rdropWhile (· = '\r') := by
  obtain ⟨text, htext⟩ := encodes_iff.mp h
  have hbytes : r.bytes = encoded (r.header ++ text ++ ['\n']) := by
    rw [Record.bytes, htext, encoded_append, encoded_append]
    rfl
  have hline : '\n' ∉ text := by
    rw [← newline_encoded, ← htext]
    exact r.oneLine
  have hheader : ∃ front, r.header = front ++ [' '] :=
    ⟨r.timestamp ++ ' ' :: (r.stream.name.toList ++ [' ', if r.full then 'F' else 'P']), by
      simp [Record.header]⟩
  obtain ⟨front, hfront⟩ := hheader
  rw [hbytes, htext, decoded_encoded, decoded_encoded, List.rdropWhile_concat,
    if_pos (by decide), hfront, List.append_assoc, List.singleton_append,
    trim_behind_blank _ hline, List.append_assoc, List.singleton_append]

theorem kept_encodes (r : Record) (h : Encodes r.content) :
    r.kept = some (encoded ((decoded r.content).rdropWhile (· = '\r'))) := by
  obtain ⟨text, htext⟩ := encodes_iff.mp h
  rw [Record.kept, if_pos h, htext, decoded_encoded,
    encoded_rdropWhile (b := 13) (by decide) rfl]

theorem decoded_bytes_of_not (r : Record) (h : ¬ Encodes r.content) : decoded r.bytes = [] := by
  apply decoded_of_not
  rw [Record.bytes, List.append_assoc, encodes_append_iff]
  intro hvalid
  exact h (hvalid.of_concat (by decide))

theorem formatLine_bytes (state : List (List Char) × List Char) (r : Record) :
    image (formatLine timestamps state r.bytes) = gather timestamps (image state) r := by
  unfold formatLine gather
  by_cases h : Encodes r.content
  · simp only
    rw [decoded_bytes r h, parseCri_header, kept_encodes r h]
    cases r.full
    · simp [image]
    · cases timestamps <;> simp [image, Record.shown]
  · simp only
    rw [decoded_bytes_of_not r h, List.rdropWhile_nil, Record.kept, if_neg h]
    by_cases hpending : state.2 = []
    · simp [image, parseCri, splitOnce, hpending]
    · simp [image, parseCri, splitOnce, hpending]

theorem splitInclusive_text (rs : List Record) :
    splitInclusive 10 (logText rs) = rs.map Record.bytes := by
  have htext : logText rs = terminated 10 (rs.map fun r => encoded r.header ++ r.content) := by
    unfold logText terminated
    rw [List.flatMap_map]
    rfl
  rw [htext, splitInclusive_terminated, List.map_map]
  · rfl
  · intro line hline
    obtain ⟨r, -, rfl⟩ := List.mem_map.mp hline
    rw [List.mem_append, newline_encoded, not_or]
    refine ⟨?_, r.oneLine⟩
    have hstream : '\n' ∉ r.stream.name.toList := by
      cases r.stream <;> decide
    have htag : '\n' ≠ if r.full then 'F' else 'P' := by
      cases r.full <;> decide
    simp [Record.header, r.unbroken, hstream, htag]

/-- The reader gathers the records' bytes in one buffer. -/
theorem format_text (rs : List Record) :
    formatContainerLog (logText rs) timestamps none =
      if assembled timestamps rs = [[]] then [] else terminated 10 (assembled timestamps rs) := by
  have hrun (state : List (List Char) × List Char) :
      image ((rs.map Record.bytes).foldl (formatLine timestamps) state) =
        rs.foldl (gather timestamps) (image state) := by
    induction rs generalizing state with
    | nil => rfl
    | cons r rs ih => rw [List.map_cons, List.foldl_cons, List.foldl_cons, ih, formatLine_bytes]
  unfold formatContainerLog
  rw [splitInclusive_text]
  have hstate := hrun ([], [])
  unfold assembled gathered
  revert hstate
  generalize (rs.map Record.bytes).foldl (formatLine timestamps) ([], []) = state
  intro hstate
  rw [show (([], []) : List (List UInt8) × List UInt8) = image ([], []) from rfl, ← hstate]
  have hlines : (if state.2 = [] then state.1 else state.1 ++ [state.2]).map encoded =
      (image state).1 ++ [(image state).2].filter (· ≠ []) := by
    by_cases hpending : state.2 = []
    · simp [image, hpending]
    · simp [image, hpending]
  simp only
  rw [encoded_intercalate (b := 10) (by decide) rfl, hlines]
  generalize (image state).1 ++ [(image state).2].filter (· ≠ []) = lines
  by_cases hblank : lines = [[]]
  · rw [if_pos (intercalate_eq_nil.mpr (.inr hblank)), if_pos hblank,
      intercalate_eq_nil.mpr (.inr hblank)]
  rw [if_neg hblank]
  by_cases hnone : lines = []
  · rw [if_pos (intercalate_eq_nil.mpr (.inl hnone)), hnone]
    rfl
  · rw [if_neg (fun h => (intercalate_eq_nil.mp h).elim hnone hblank), intercalate_concat hnone]

/-! ## One more record -/

theorem unfinished_concat (s : Stream) (rs : List Record) (r : Record) :
    unfinished s (rs ++ [r]) =
      if r.stream = s then if r.full then [] else unfinished s rs ++ r.content
      else unfinished s rs := by
  unfold unfinished
  rw [List.foldl_append]
  rfl

theorem completedAfter_concat (before rs : List Record) (r : Record) :
    completedAfter timestamps before (rs ++ [r]) = completedAfter timestamps before rs ++
      if r.full then [r.shown timestamps (unfinished r.stream (before ++ rs) ++ r.content)]
      else [] := by
  induction rs generalizing before with
  | nil => simp [completedAfter]
  | cons first rs ih =>
    rw [List.cons_append, completedAfter, completedAfter, ih, List.append_assoc before,
      List.append_assoc, List.singleton_append]

theorem completed_concat (rs : List Record) (r : Record) :
    completed timestamps (rs ++ [r]) = completed timestamps rs ++
      if r.full then [r.shown timestamps (unfinished r.stream rs ++ r.content)] else [] := by
  rw [completed, completedAfter_concat, List.nil_append]
  rfl

theorem gathered_concat (rs : List Record) (r : Record) :
    gathered timestamps (rs ++ [r]) = gather timestamps (gathered timestamps rs) r := by
  unfold gathered
  rw [List.foldl_append]
  rfl

theorem fullAlone_concat :
    FullAlone (rs ++ [r]) ↔ FullAlone rs ∧ (r.full = true → unfinished r.stream.other rs = []) := by
  constructor
  · intro h
    constructor
    · rintro before first after rfl
      exact h before first (after ++ [r]) (by simp)
    · exact h rs r [] rfl
  · rintro ⟨hrs, hlast⟩ before first after heq
    rcases List.eq_nil_or_concat after with rfl | ⟨init, last, rfl⟩
    · obtain ⟨rfl, hr⟩ := List.append_inj' heq rfl
      obtain rfl := List.singleton_inj.mp hr
      exact hlast
    · rw [List.concat_eq_append, ← List.cons_append, ← List.append_assoc] at heq
      exact hrs before first init (List.append_inj_left' heq rfl)

theorem length_shown (r : Record) (body : List UInt8) :
    (r.shown timestamps body).length = (r.shown timestamps []).length + body.length := by
  unfold Record.shown
  cases timestamps
  · simp
  · simp [Nat.add_assoc]

/-! ## Bytes are counted -/

/-- The bytes that the records give to the log. -/
def weight (timestamps : Bool) (rs : List Record) : ℕ :=
  (rs.map fun r => (if r.full then (r.shown timestamps []).length else 0) + r.content.length).sum

theorem weight_concat (rs : List Record) (r : Record) :
    weight timestamps (rs ++ [r]) = weight timestamps rs +
      ((if r.full then (r.shown timestamps []).length else 0) + r.content.length) := by
  simp [weight]

/-- Lines and unfinished text hold each byte once. -/
theorem length_completed (rs : List Record) :
    (completed timestamps rs).flatten.length + (unfinished .stdout rs).length +
      (unfinished .stderr rs).length = weight timestamps rs := by
  induction rs using List.reverseRecOn with
  | nil => rfl
  | append_singleton rs r ih =>
    rw [completed_concat, unfinished_concat, unfinished_concat, weight_concat, ← ih]
    have hshown : (r.shown timestamps (unfinished r.stream rs ++ r.content)).length = _ :=
      length_shown r _
    cases hfull : r.full <;> cases hstream : r.stream <;> simp [hstream, hfull] at * <;> omega

/-- A content that is no text or ends in a carriage return loses bytes. -/
theorem length_kept (r : Record) : (r.kept.getD []).length ≤ r.content.length ∧
    ((r.kept.getD []).length = r.content.length →
      Encodes r.content ∧ r.content.getLast? ≠ some 13) := by
  unfold Record.kept
  by_cases h : Encodes r.content
  · rw [if_pos h, Option.getD_some]
    have hstart : r.content.rdropWhile (· = 13) <+: r.content := List.rdropWhile_prefix _ _
    refine ⟨hstart.length_le, fun hlen => ⟨h, fun hlast => ?_⟩⟩
    have hself := List.rdropWhile_eq_self_iff.mp (hstart.eq_of_length hlen)
    obtain ⟨init, hinit⟩ := List.getLast?_eq_some_iff.mp hlast
    exact hself (by simp [hinit]) (by simp [hinit])
  · rw [if_neg h]
    refine ⟨Nat.zero_le _, fun hlen => absurd ?_ h⟩
    rw [List.eq_nil_of_length_eq_zero hlen.symm]
    exact encodes_iff.mpr ⟨[], rfl⟩

/-- Gathering loses bytes unless every content is text. -/
theorem length_gathered (rs : List Record) :
    (gathered timestamps rs).1.flatten.length + (gathered timestamps rs).2.length ≤
      weight timestamps rs ∧
    ((gathered timestamps rs).1.flatten.length + (gathered timestamps rs).2.length =
      weight timestamps rs → Textual rs) := by
  induction rs using List.reverseRecOn with
  | nil => exact ⟨Nat.zero_le _, fun _ r hr => absurd hr List.not_mem_nil⟩
  | append_singleton rs r ih =>
    rw [gathered_concat, weight_concat]
    obtain ⟨hle, htextual⟩ := ih
    obtain ⟨hkept, hgood⟩ := length_kept r
    have hstep : (gather timestamps (gathered timestamps rs) r).1.flatten.length +
        (gather timestamps (gathered timestamps rs) r).2.length ≤
        (gathered timestamps rs).1.flatten.length + (gathered timestamps rs).2.length +
          (if r.full then (r.shown timestamps []).length else 0) + (r.kept.getD []).length := by
      unfold gather
      cases r.kept with
      | some content =>
        have hshown : (r.shown timestamps ((gathered timestamps rs).2 ++ content)).length = _ :=
          length_shown r _
        cases r.full
        · simp
          omega
        · simp [hshown]
          omega
      | none =>
        by_cases hpending : (gathered timestamps rs).2 = []
        · simp [hpending]
        · simp [hpending]
    constructor
    · omega
    · intro heq
      have hrs := htextual (by omega)
      have hr := hgood (by omega)
      intro other hother
      rcases List.mem_append.mp hother with hmem | hmem
      · exact hrs other hmem
      · rwa [List.mem_singleton.mp hmem]

/-! ## No line holds a newline -/

theorem newline_shown {body : List UInt8} (hbody : 10 ∉ body) : 10 ∉ r.shown timestamps body := by
  unfold Record.shown
  cases timestamps with
  | false => exact hbody
  | true =>
    rw [if_pos rfl, List.mem_append, newline_encoded]
    simp [r.unbroken, hbody]

theorem newline_unfinished (s : Stream) (rs : List Record) : 10 ∉ unfinished s rs := by
  induction rs using List.reverseRecOn with
  | nil => exact List.not_mem_nil
  | append_singleton rs r ih =>
    rw [unfinished_concat]
    split_ifs
    · exact List.not_mem_nil
    · simp [ih, r.oneLine]
    · exact ih

theorem newline_completed (rs : List Record) : ∀ line ∈ completed timestamps rs, 10 ∉ line := by
  induction rs using List.reverseRecOn with
  | nil => exact fun line hline => absurd hline List.not_mem_nil
  | append_singleton rs r ih =>
    rw [completed_concat]
    intro line hline
    rcases List.mem_append.mp hline with hmem | hmem
    · exact ih line hmem
    · split_ifs at hmem
      · rw [List.mem_singleton.mp hmem]
        exact newline_shown (by simp [newline_unfinished, r.oneLine])
      · exact absurd hmem List.not_mem_nil

theorem newline_kept {content : List UInt8} (h : r.kept = some content) : 10 ∉ content := by
  unfold Record.kept at h
  split_ifs at h
  obtain rfl := Option.some.inj h
  intro hmem
  exact r.oneLine ((List.rdropWhile_prefix _ _).subset hmem)

theorem newline_gathered (rs : List Record) :
    (∀ line ∈ (gathered timestamps rs).1, 10 ∉ line) ∧ 10 ∉ (gathered timestamps rs).2 := by
  induction rs using List.reverseRecOn with
  | nil => exact ⟨fun line hline => absurd hline List.not_mem_nil, List.not_mem_nil⟩
  | append_singleton rs r ih =>
    rw [gathered_concat]
    unfold gather
    obtain ⟨hlines, hpending⟩ := ih
    cases hkept : r.kept with
    | some content =>
      have hbody : 10 ∉ (gathered timestamps rs).2 ++ content := by
        simp [hpending, newline_kept hkept]
      cases r.full
      · exact ⟨hlines, hbody⟩
      · refine ⟨?_, List.not_mem_nil⟩
        intro line hline
        rcases List.mem_append.mp hline with hmem | hmem
        · exact hlines line hmem
        · rw [List.mem_singleton.mp hmem]
          exact newline_shown hbody
    | none =>
      refine ⟨?_, List.not_mem_nil⟩
      intro line hline
      simp only at hline
      split_ifs at hline
      · exact hlines line hline
      · rcases List.mem_append.mp hline with hmem | hmem
        · exact hlines line hmem
        · rwa [List.mem_singleton.mp hmem]

theorem newline_assembled (rs : List Record) : ∀ line ∈ assembled timestamps rs, 10 ∉ line := by
  intro line hline
  rcases List.mem_append.mp hline with hmem | hmem
  · exact (newline_gathered rs).1 line hmem
  · rw [List.mem_singleton.mp (List.mem_of_mem_filter hmem)]
    exact (newline_gathered rs).2

/-! ## Records of text -/

theorem kept_textual (h : Encodes r.content ∧ r.content.getLast? ≠ some 13) :
    r.kept = some r.content := by
  rw [Record.kept, if_pos h.1, Option.some.injEq, List.rdropWhile_eq_self_iff]
  intro hne hlast
  exact h.2 (by rw [List.getLast?_eq_some_getLast hne, of_decide_eq_true hlast])

theorem gather_textual (h : Encodes r.content ∧ r.content.getLast? ≠ some 13)
    (state : List (List UInt8) × List UInt8) :
    gather timestamps state r =
      if r.full then (state.1 ++ [r.shown timestamps (state.2 ++ r.content)], [])
      else (state.1, state.2 ++ r.content) := by
  rw [gather, kept_textual h]

theorem textual_concat : Textual (rs ++ [r]) ↔
    Textual rs ∧ Encodes r.content ∧ r.content.getLast? ≠ some 13 := by
  unfold Textual
  rw [List.forall_mem_append, List.forall_mem_singleton]

theorem shown_inj {body other : List UInt8} :
    r.shown timestamps body = r.shown timestamps other ↔ body = other := by
  unfold Record.shown
  cases timestamps <;> simp

/-- While full records come alone, the buffer holds as much as both streams have left
unfinished. -/
theorem length_pending (h : Textual rs) (halone : FullAlone rs) :
    (gathered timestamps rs).2.length =
      (unfinished .stdout rs).length + (unfinished .stderr rs).length := by
  induction rs using List.reverseRecOn with
  | nil => rfl
  | append_singleton rs r ih =>
    obtain ⟨hrs, hr⟩ := textual_concat.mp h
    obtain ⟨halone, hfull⟩ := fullAlone_concat.mp halone
    rw [gathered_concat, gather_textual hr, unfinished_concat, unfinished_concat]
    have hlen := ih hrs halone
    cases hf : r.full
    · cases hs : r.stream <;> simp [hlen] <;> omega
    · have hother := hfull hf
      cases hs : r.stream <;> simp_all

/-- What one stream has left unfinished is in the buffer, if the other has left nothing. -/
theorem pending_eq (h : Textual rs) (halone : FullAlone rs) (s : Stream)
    (hother : unfinished s.other rs = []) : (gathered timestamps rs).2 = unfinished s rs := by
  induction rs using List.reverseRecOn with
  | nil => rfl
  | append_singleton rs r ih =>
    obtain ⟨hrs, hr⟩ := textual_concat.mp h
    obtain ⟨halone, hfull⟩ := fullAlone_concat.mp halone
    rw [gathered_concat, gather_textual hr, unfinished_concat]
    rw [unfinished_concat] at hother
    cases hf : r.full
    · cases hs : r.stream <;> cases s <;> simp_all
    · have hnone := hfull hf
      cases hs : r.stream <;> cases s <;> simp_all

/-- The gathered lines are the streams' own exactly as long as each full record finds the other
stream at the start of a line. -/
theorem gathered_lines_iff (h : Textual rs) :
    (gathered timestamps rs).1 = completed timestamps rs ↔ FullAlone rs := by
  induction rs using List.reverseRecOn with
  | nil =>
    refine iff_of_true rfl ?_
    intro before r after heq
    simp at heq
  | append_singleton rs r ih =>
    obtain ⟨hrs, hr⟩ := textual_concat.mp h
    rw [gathered_concat, gather_textual hr, completed_concat, fullAlone_concat, ← ih hrs]
    cases hfull : r.full
    · simp
    · simp only [if_true, forall_const]
      constructor
      · intro heq
        obtain ⟨hlines, hline⟩ := List.append_inj' heq rfl
        refine ⟨hlines, ?_⟩
        have hbody := List.append_cancel_right (shown_inj.mp (List.singleton_inj.mp hline))
        have hlen : (gathered timestamps rs).2.length = _ :=
          length_pending hrs ((ih hrs).mp hlines)
        rw [hbody] at hlen
        apply List.eq_nil_of_length_eq_zero
        cases hs : r.stream <;> simp [hs] at hlen ⊢ <;> omega
      · rintro ⟨hlines, hother⟩
        rw [hlines, pending_eq hrs ((ih hrs).mp hlines) r.stream hother]

theorem length_lines (h : Textual rs) :
    (gathered timestamps rs).1.length = (rs.filter (·.full)).length := by
  induction rs using List.reverseRecOn with
  | nil => rfl
  | append_singleton rs r ih =>
    obtain ⟨hrs, hr⟩ := textual_concat.mp h
    rw [gathered_concat, gather_textual hr, List.filter_append, List.length_append, ← ih hrs]
    cases hfull : r.full <;> simp [hfull]

theorem length_completed_lines (rs : List Record) :
    (completed timestamps rs).length = (rs.filter (·.full)).length := by
  induction rs using List.reverseRecOn with
  | nil => rfl
  | append_singleton rs r ih =>
    rw [completed_concat, List.filter_append, List.length_append, List.length_append, ← ih]
    cases hfull : r.full <;> simp [hfull]

/-! ## What the log shows -/

theorem length_leftover (rs : List Record) : (leftover rs).flatten.length =
    (unfinished .stdout rs).length + (unfinished .stderr rs).length := by
  unfold leftover
  by_cases hout : unfinished .stdout rs = [] <;> by_cases herr : unfinished .stderr rs = [] <;>
    simp [hout, herr]

theorem ne_nil_of_mem_leftover {line : List UInt8} (h : line ∈ leftover rs) : line ≠ [] :=
  of_decide_eq_true (List.mem_filter.mp h).2

theorem length_shown_lines (rs : List Record) :
    (completed timestamps rs ++ leftover rs).flatten.length = weight timestamps rs := by
  rw [List.flatten_append, List.length_append, length_leftover, ← length_completed, Nat.add_assoc]

theorem weight_eq_zero : weight timestamps rs = 0 ↔
    ∀ r ∈ rs, r.content = [] ∧ (r.full = true → timestamps = false) := by
  unfold weight
  rw [List.sum_eq_zero_iff, List.forall_mem_map]
  apply forall₂_congr
  intro r _
  have hblank : ' '.utf8Size = 1 := rfl
  unfold Record.shown
  cases r.full <;> cases timestamps <;> simp [hblank]

/-- The lines are a single empty one only for records that hold nothing else. -/
theorem blank_iff (rs : List Record) :
    completed timestamps rs ++ leftover rs = [[]] ↔ Blank timestamps rs := by
  have hweight : (completed timestamps rs ++ leftover rs).flatten.length = _ :=
    length_shown_lines rs
  have hlines : (completed timestamps rs).length = _ := length_completed_lines rs
  constructor
  · intro heq
    rw [heq] at hweight
    have hzero := weight_eq_zero.mp hweight.symm
    have hnone : leftover rs = [] := by
      rw [List.eq_nil_iff_forall_not_mem]
      intro line hline
      have hmem : line ∈ [[]] := heq ▸ List.mem_append_right _ hline
      exact ne_nil_of_mem_leftover hline (List.mem_singleton.mp hmem)
    rw [hnone, List.append_nil] at heq
    rw [heq] at hlines
    refine ⟨?_, hlines.symm, fun r hr => (hzero r hr).1⟩
    have hpos : 0 < (rs.filter (·.full)).length := by
      rw [← hlines]
      exact Nat.one_pos
    obtain ⟨r, hr⟩ := List.exists_mem_of_length_pos hpos
    obtain ⟨hmem, hfull⟩ := List.mem_filter.mp hr
    exact (hzero r hmem).2 hfull
  · rintro ⟨htimestamps, hone, hempty⟩
    have hzero := weight_eq_zero.mpr fun r hr => ⟨hempty r hr, fun _ => htimestamps⟩
    rw [hzero, List.length_eq_zero_iff, List.flatten_eq_nil_iff] at hweight
    have hnone : leftover rs = [] := by
      rw [List.eq_nil_iff_forall_not_mem]
      intro line hline
      exact ne_nil_of_mem_leftover hline (hweight line (List.mem_append_right _ hline))
    rw [hone] at hlines
    obtain ⟨line, hline⟩ := List.length_eq_one_iff.mp hlines
    rw [hline, hnone, List.append_nil,
      hweight line (List.mem_append_left _ (hline ▸ List.mem_singleton_self line))]

theorem assembled_eq (h : Textual rs) (hseparate : Separate rs) :
    assembled timestamps rs = completed timestamps rs ++ leftover rs := by
  unfold assembled leftover
  rw [(gathered_lines_iff h).mpr hseparate.full]
  cases hseparate.last with
  | inl hout =>
    rw [pending_eq h hseparate.full .stderr hout]
    simp [hout]
  | inr herr =>
    rw [pending_eq h hseparate.full .stdout herr]
    simp [herr, List.filter_cons]

theorem length_assembled (rs : List Record) : (assembled timestamps rs).flatten.length =
    (gathered timestamps rs).1.flatten.length + (gathered timestamps rs).2.length := by
  unfold assembled
  by_cases hpending : (gathered timestamps rs).2 = []
  · simp [hpending]
  · simp [hpending]

theorem newline_shown_lines {rest : List (List UInt8)} (hrest : rest.Perm (leftover rs)) :
    ∀ line ∈ completed timestamps rs ++ rest, 10 ∉ line := by
  intro line hline
  rcases List.mem_append.mp hline with hmem | hmem
  · exact newline_completed rs line hmem
  · have hleft := (List.mem_filter.mp (hrest.mem_iff.mp hmem)).1
    simp only [List.mem_cons, List.not_mem_nil, or_false] at hleft
    rcases hleft with rfl | rfl
    · exact newline_unfinished .stdout rs
    · exact newline_unfinished .stderr rs

/-- The bytes of a log that keeps the lines are theirs. -/
theorem textual_of_keeps (h : Keeps timestamps rs (formatContainerLog (logText rs) timestamps none)) :
    Textual rs := by
  obtain ⟨rest, hrest, hlog⟩ := h
  have hbytes : (formatContainerLog (logText rs) timestamps none).filter (· ≠ 10) =
      (assembled timestamps rs).flatten := by
    rw [format_text]
    split_ifs with hblank
    · rw [hblank]
      rfl
    · exact filter_terminated (newline_assembled rs)
  rw [hlog, filter_terminated (newline_shown_lines hrest)] at hbytes
  have hlen := congrArg List.length hbytes
  have hperm := (hrest.append_left (completed timestamps rs)).flatten.length_eq
  rw [hperm, length_shown_lines, length_assembled] at hlen
  exact (length_gathered rs).2 hlen.symm

/-- A log that keeps the lines is assembled from just these lines. -/
theorem assembled_of_keeps (htextual : Textual rs)
    (h : Keeps timestamps rs (formatContainerLog (logText rs) timestamps none)) :
    ∃ rest, rest.Perm (leftover rs) ∧ assembled timestamps rs = completed timestamps rs ++ rest ∧
      assembled timestamps rs ≠ [[]] := by
  obtain ⟨rest, hrest, hlog⟩ := h
  rw [format_text] at hlog
  have hblank : assembled timestamps rs ≠ [[]] := by
    intro hblank
    rw [if_pos hblank] at hlog
    have hnone : completed timestamps rs ++ rest = [] := by
      apply (terminated_inj (newline_shown_lines hrest) fun line hline =>
        absurd hline List.not_mem_nil).mp
      exact hlog.symm
    have hlen : (gathered timestamps rs).1.length = (completed timestamps rs).length := by
      rw [length_lines htextual, length_completed_lines]
    rw [(List.append_eq_nil_iff.mp hnone).1] at hlen
    rw [assembled, List.eq_nil_of_length_eq_zero hlen, List.nil_append] at hblank
    have hmem : [] ∈ [(gathered timestamps rs).2].filter (· ≠ []) := by
      rw [hblank]
      exact List.mem_singleton_self []
    exact of_decide_eq_true (List.mem_filter.mp hmem).2 rfl
  rw [if_neg hblank] at hlog
  exact ⟨rest, hrest,
    (terminated_inj (newline_assembled rs) (newline_shown_lines hrest)).mp hlog, hblank⟩

theorem separate_of_keeps (htextual : Textual rs)
    (h : Keeps timestamps rs (formatContainerLog (logText rs) timestamps none)) : Separate rs := by
  obtain ⟨rest, hrest, hlines, -⟩ := assembled_of_keeps htextual h
  have hlen : (gathered timestamps rs).1.length = (completed timestamps rs).length := by
    rw [length_lines htextual, length_completed_lines]
  obtain ⟨hfirst, hlast⟩ := List.append_inj hlines hlen
  refine ⟨(gathered_lines_iff htextual).mp hfirst, ?_⟩
  by_contra hboth
  obtain ⟨hout, herr⟩ := not_or.mp hboth
  have htwo : (leftover rs).length = 2 := by
    simp [leftover, hout, herr]
  have hle := List.length_filter_le (· ≠ []) [(gathered timestamps rs).2]
  rw [hlast, hrest.length_eq, htwo] at hle
  simp at hle

/-- The log keeps the lines of both streams exactly if the contents are text, the streams do not
mix and there is more to show than an empty line. -/
theorem log_keeps_iff (timestamps : Bool) (rs : List Record) :
    Keeps timestamps rs (formatContainerLog (logText rs) timestamps none) ↔
      Textual rs ∧ Separate rs ∧ ¬ Blank timestamps rs := by
  constructor
  · intro h
    have htextual := textual_of_keeps h
    have hseparate := separate_of_keeps htextual h
    obtain ⟨-, -, -, hblank⟩ := assembled_of_keeps htextual h
    refine ⟨htextual, hseparate, ?_⟩
    rwa [← blank_iff, ← assembled_eq htextual hseparate]
  · rintro ⟨htextual, hseparate, hblank⟩
    refine ⟨leftover rs, .refl _, ?_⟩
    rw [format_text, assembled_eq htextual hseparate, if_neg (mt (blank_iff rs).mp hblank)]

/-- The start of a line on one stream is joined to a line of the other. -/
theorem streams_joined :
    ¬ ∀ (timestamps : Bool) (rs : List Record),
      Keeps timestamps rs (formatContainerLog (logText rs) timestamps none) := by
  intro hall
  let start : Record :=
    ⟨"2024-05-01T00:00:00Z".toList, .stdout, false, [97], by decide, by decide, by decide, by decide⟩
  let line : Record :=
    ⟨"2024-05-01T00:00:01Z".toList, .stderr, true, [98], by decide, by decide, by decide, by decide⟩
  have hkeeps := hall false [start, line]
  have hseparate := separate_of_keeps (textual_of_keeps hkeeps) hkeeps
  have hnone := hseparate.full [start] line [] rfl rfl
  exact absurd hnone (by decide)

end Hedronetes.Kubelet
