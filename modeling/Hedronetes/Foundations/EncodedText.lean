import Mathlib

/-!
# Texts as bytes

Lines of bytes, the UTF-8 encoding of a text, and how the two meet: a byte of seven bits in an
encoded text is always the encoding of its own character.
-/

namespace Hedronetes.EncodedText

universe u

variable {α : Type u} [DecidableEq α] {sep : α}

/-- The pieces of a list, each with the separator that ends it. -/
def splitInclusive (sep : α) : List α → List (List α)
  | [] => []
  | a :: rest =>
    if a = sep then [a] :: splitInclusive sep rest
    else match splitInclusive sep rest with
      | [] => [[a]]
      | piece :: pieces => (a :: piece) :: pieces

/-- The lines of a list of them, each ended by the separator. -/
def terminated (sep : α) (lines : List (List α)) : List α := lines.flatMap (· ++ [sep])

theorem splitInclusive_cons {line : List α} (hline : sep ∉ line) (rest : List α) :
    splitInclusive sep (line ++ sep :: rest) = (line ++ [sep]) :: splitInclusive sep rest := by
  induction line with
  | nil => simp [splitInclusive]
  | cons a line ih =>
    have ha : a ≠ sep := by
      rintro rfl
      exact hline List.mem_cons_self
    rw [List.cons_append, splitInclusive, if_neg ha,
      ih (fun hmem => hline (List.mem_cons_of_mem a hmem))]
    rfl

/-- Splitting terminated lines gives them back. -/
theorem splitInclusive_terminated {lines : List (List α)} (h : ∀ line ∈ lines, sep ∉ line) :
    splitInclusive sep (terminated sep lines) = lines.map (· ++ [sep]) := by
  induction lines with
  | nil => rfl
  | cons line lines ih =>
    have hsplit : terminated sep (line :: lines) = line ++ sep :: terminated sep lines := by
      simp [terminated]
    rw [hsplit, splitInclusive_cons (h line List.mem_cons_self), List.map_cons,
      ih fun other hmem => h other (List.mem_cons_of_mem line hmem)]

/-- Terminated lines determine the lines. -/
theorem terminated_inj {lines others : List (List α)} (hlines : ∀ line ∈ lines, sep ∉ line)
    (hothers : ∀ line ∈ others, sep ∉ line) :
    terminated sep lines = terminated sep others ↔ lines = others := by
  constructor
  · intro h
    have hsplit := congrArg (splitInclusive sep) h
    rw [splitInclusive_terminated hlines, splitInclusive_terminated hothers] at hsplit
    exact List.map_injective_iff.mpr (List.append_left_injective [sep]) hsplit
  · rintro rfl
    rfl

theorem filter_terminated {lines : List (List α)} (h : ∀ line ∈ lines, sep ∉ line) :
    (terminated sep lines).filter (· ≠ sep) = lines.flatten := by
  induction lines with
  | nil => rfl
  | cons line lines ih =>
    have hkeep : line.filter (· ≠ sep) = line := by
      rw [List.filter_eq_self]
      intro a ha
      exact decide_eq_true (ne_of_mem_of_not_mem ha (h line List.mem_cons_self))
    unfold terminated at *
    rw [List.flatMap_cons, List.filter_append, List.filter_append, hkeep,
      ih fun other hmem => h other (List.mem_cons_of_mem line hmem)]
    simp

omit [DecidableEq α] in
theorem intercalate_cons (line : List α) {lines : List (List α)} (h : lines ≠ []) :
    [sep].intercalate (line :: lines) = line ++ sep :: [sep].intercalate lines := by
  cases lines with
  | nil => exact absurd rfl h
  | cons other lines => simp [List.intercalate]

/-- Joined lines and a last separator are terminated lines. -/
theorem intercalate_concat {lines : List (List α)} (h : lines ≠ []) :
    [sep].intercalate lines ++ [sep] = terminated sep lines := by
  induction lines with
  | nil => exact absurd rfl h
  | cons line lines ih =>
    by_cases hlines : lines = []
    · simp [hlines, terminated, List.intercalate]
    · rw [intercalate_cons line hlines, List.append_assoc, List.cons_append, ih hlines]
      simp [terminated]

theorem intercalate_eq_nil {lines : List (List α)} :
    [sep].intercalate lines = [] ↔ lines = [] ∨ lines = [[]] := by
  cases lines with
  | nil => simp [List.intercalate]
  | cons line lines =>
    by_cases hlines : lines = []
    · simp [hlines, List.intercalate]
    · rw [intercalate_cons line hlines]
      simp [hlines]

/-! ## UTF-8 -/

def encoded (text : List Char) : List UInt8 := text.flatMap String.utf8EncodeChar

/-- The text that bytes encode, nothing if they encode none. -/
def decoded (bytes : List UInt8) : List Char :=
  match String.fromUTF8? bytes.toByteArray with
  | some text => text.toList
  | none => []

def Encodes (bytes : List UInt8) : Prop := bytes.toByteArray.IsValidUTF8

instance (bytes : List UInt8) : Decidable (Encodes bytes) :=
  inferInstanceAs (Decidable bytes.toByteArray.IsValidUTF8)

@[simp] theorem encoded_nil : encoded [] = [] := rfl

@[simp] theorem encoded_cons (ch : Char) (text : List Char) :
    encoded (ch :: text) = String.utf8EncodeChar ch ++ encoded text := rfl

@[simp] theorem encoded_append (a b : List Char) : encoded (a ++ b) = encoded a ++ encoded b := by
  simp [encoded]

@[simp] theorem encoded_eq_nil {text : List Char} : encoded text = [] ↔ text = [] := by
  cases text with
  | nil => simp
  | cons ch text => simp [encoded, String.utf8EncodeChar_ne_nil]

theorem encodes_iff {bytes : List UInt8} : Encodes bytes ↔ ∃ text, bytes = encoded text := by
  constructor
  · rintro ⟨text, htext⟩
    refine ⟨text, ?_⟩
    have hlist := congrArg (fun bytes => bytes.data.toList) htext
    simpa [List.utf8Encode, encoded] using hlist
  · rintro ⟨text, rfl⟩
    exact ⟨text, rfl⟩

theorem decoded_encoded (text : List Char) : decoded (encoded text) = text := by
  have hvalid : (encoded text).toByteArray.IsValidUTF8 := ⟨text, rfl⟩
  have hfrom : String.fromUTF8 (encoded text).toByteArray hvalid = String.ofList text := by
    apply String.toByteArray_inj.mp
    rw [String.toByteArray_ofList]
    rfl
  unfold decoded String.fromUTF8?
  rw [dif_pos hvalid, hfrom]
  exact String.toList_ofList

theorem decoded_of_not {bytes : List UInt8} (h : ¬ Encodes bytes) : decoded bytes = [] := by
  unfold decoded String.fromUTF8?
  rw [dif_neg (show ¬ bytes.toByteArray.IsValidUTF8 from h)]

/-- Bytes behind a text decide whether the whole encodes one. -/
theorem encodes_append_iff (text : List Char) {bytes : List UInt8} :
    Encodes (encoded text ++ bytes) ↔ Encodes bytes := by
  induction text with
  | nil => rfl
  | cons ch text ih =>
    have hfirst : (encoded (ch :: text) ++ bytes).toByteArray =
        [ch].utf8Encode ++ (encoded text ++ bytes).toByteArray := by
      simp [encoded, List.utf8Encode_singleton]
    rw [← ih, Encodes, hfirst]
    exact ByteArray.isValidUTF8_utf8Encode_singleton_append_iff

theorem encodeChar_low {b : UInt8} {ch : Char} (hb : b < 128) (hch : ch.toNat = b.toNat) :
    String.utf8EncodeChar ch = [b] := by
  have hlow : ch.val.toNat ≤ 127 := by
    have hnat : b.toNat < 128 := hb
    have hval : ch.val.toNat = b.toNat := hch
    omega
  unfold String.utf8EncodeChar
  simp only
  rw [if_pos hlow, List.singleton_inj]
  exact (congrArg UInt8.ofNat hch).trans UInt8.ofNat_toNat

/-- A byte of seven bits stands for its own character only. -/
theorem toNat_of_mem_encodeChar {b : UInt8} {ch : Char} (hb : b < 128)
    (hmem : b ∈ String.utf8EncodeChar ch) : ch.toNat = b.toNat := by
  have hlow : b.toNat < 128 := hb
  have hhigh (x m k : ℕ) (hk : 128 ≤ k) (hm : x % m + k < 256) : b ≠ UInt8.ofNat (x % m + k) := by
    rintro rfl
    rw [UInt8.toNat_ofNat_of_lt' hm] at hlow
    omega
  unfold String.utf8EncodeChar at hmem
  simp only at hmem
  split_ifs at hmem with h₁ h₂ h₃
  · obtain rfl := List.mem_singleton.mp hmem
    have hsmall : ch.val.toNat < 256 := by omega
    exact (UInt8.toNat_ofNat_of_lt' hsmall).symm
  all_goals
    exfalso
    simp only [List.mem_cons, List.not_mem_nil, or_false] at hmem
  · rcases hmem with h | h
    · exact hhigh _ _ _ (by omega) (by omega) h
    · exact hhigh _ _ _ (by omega) (by omega) h
  · rcases hmem with h | h | h
    · exact hhigh _ _ _ (by omega) (by omega) h
    · exact hhigh _ _ _ (by omega) (by omega) h
    · exact hhigh _ _ _ (by omega) (by omega) h
  · rcases hmem with h | h | h | h
    · exact hhigh _ _ _ (by omega) (by omega) h
    · exact hhigh _ _ _ (by omega) (by omega) h
    · exact hhigh _ _ _ (by omega) (by omega) h
    · exact hhigh _ _ _ (by omega) (by omega) h

theorem encoded_intercalate {b : UInt8} {ch : Char} (hb : b < 128) (hch : ch.toNat = b.toNat)
    (lines : List (List Char)) :
    encoded ([ch].intercalate lines) = [b].intercalate (lines.map encoded) := by
  induction lines with
  | nil => rfl
  | cons line lines ih =>
    by_cases hlines : lines = []
    · simp [hlines, List.intercalate]
    · rw [List.map_cons, intercalate_cons line hlines, intercalate_cons _ (by simpa using hlines),
        encoded_append, encoded_cons, encodeChar_low hb hch, ih, List.singleton_append]

/-- An encoded text that ends in a byte of seven bits is one without it. -/
theorem Encodes.of_concat {b : UInt8} {bytes : List UInt8} (hb : b < 128)
    (h : Encodes (bytes ++ [b])) : Encodes bytes := by
  obtain ⟨text, htext⟩ := encodes_iff.mp h
  rcases List.eq_nil_or_concat text with rfl | ⟨init, last, rfl⟩
  · simp at htext
  obtain ⟨front, x, hx⟩ := (List.eq_nil_or_concat (String.utf8EncodeChar last)).resolve_left
    String.utf8EncodeChar_ne_nil
  have hbytes : bytes ++ [b] = (encoded init ++ front) ++ [x] := by
    rw [htext, List.append_assoc, ← List.concat_eq_append, ← hx]
    simp
  obtain ⟨hfront, hlast⟩ := List.append_inj' hbytes rfl
  obtain rfl := List.singleton_inj.mp hlast
  have hmem : b ∈ String.utf8EncodeChar last := by
    rw [hx]
    simp
  have hself := encodeChar_low hb (toNat_of_mem_encodeChar hb hmem)
  have hnil : front = [] := by
    rw [hself] at hx
    simpa using hx.symm
  exact encodes_iff.mpr ⟨init, by rw [hfront, hnil, List.append_nil]⟩

theorem mem_encoded_iff {ch : Char} {b : UInt8} (hb : b < 128) (hch : ch.toNat = b.toNat)
    {text : List Char} : b ∈ encoded text ↔ ch ∈ text := by
  unfold encoded
  rw [List.mem_flatMap]
  constructor
  · rintro ⟨other, hother, hmem⟩
    have hnat := toNat_of_mem_encodeChar hb hmem
    rwa [← Char.toNat_inj.mp (hnat.trans hch.symm)]
  · intro h
    exact ⟨ch, h, by rw [encodeChar_low hb hch]; exact List.mem_singleton_self b⟩

/-- Trimming a character of seven bits off the end of a text trims its byte off the encoding. -/
theorem encoded_rdropWhile {ch : Char} {b : UInt8} (hb : b < 128) (hch : ch.toNat = b.toNat)
    (text : List Char) :
    encoded (text.rdropWhile (· = ch)) = (encoded text).rdropWhile (· = b) := by
  induction text using List.reverseRecOn with
  | nil => rfl
  | append_singleton text last ih =>
    by_cases hlast : last = ch
    · have hbyte : encoded [last] = [b] := by
        simp [encoded, hlast, encodeChar_low hb hch]
      rw [List.rdropWhile_concat, if_pos (decide_eq_true hlast), ih, encoded_append, hbyte,
        List.rdropWhile_concat, if_pos (decide_eq_true rfl)]
    · obtain ⟨init, x, hx⟩ := (List.eq_nil_or_concat (String.utf8EncodeChar last)).resolve_left
        String.utf8EncodeChar_ne_nil
      have hbytes : encoded (text ++ [last]) = (encoded text ++ init) ++ [x] := by
        rw [encoded_append, List.append_assoc, ← List.concat_eq_append, ← hx]
        simp [encoded]
      have hxb : x ≠ b := by
        rintro rfl
        have hmem : x ∈ String.utf8EncodeChar last := by
          rw [hx]
          simp
        exact hlast (Char.toNat_inj.mp ((toNat_of_mem_encodeChar hb hmem).trans hch.symm))
      rw [List.rdropWhile_concat, if_neg (by simpa using hlast), hbytes,
        List.rdropWhile_concat, if_neg (by simpa using hxb)]

end Hedronetes.EncodedText
