import Hedronetes.Foundations.FirstMatch

/-!
# Environment expansion

References to variables are replaced in one scan of the text. The scan is compared with the grammar
of the expansion: they differ where text goes on after a reference that nothing closes.
-/

namespace Hedronetes.Kubelet

open FirstMatch

/-! ## The scan -/

/-- What stands for a reference: the variable's value, or the reference itself. -/
def referenced (vars : List (String × String)) (name : List Char) : List Char :=
  match lookup (String.ofList name) vars with
  | some value => value.toList
  | none => '$' :: '(' :: name ++ [')']

mutual

def scan (vars : List (String × String)) : List Char → List Char
  | [] => []
  | '$' :: '$' :: rest => '$' :: scan vars rest
  | '$' :: '(' :: rest => scanName vars [] rest
  | ch :: rest => ch :: scan vars rest

/-- The scan for the parenthesis that closes a name, behind the characters of it that are read. -/
def scanName (vars : List (String × String)) (name : List Char) : List Char → List Char
  | [] => '$' :: '(' :: name
  | ')' :: rest => referenced vars name ++ scan vars rest
  | ch :: rest => scanName vars (name ++ [ch]) rest

end

def expand (value : String) (vars : List (String × String)) : String :=
  String.ofList (scan vars value.toList)

example : expand "$(NAME):$$(NAME):$(MISSING):$HOME:$" [("NAME", "$(HOME)")] =
    "$(HOME):$(NAME):$(MISSING):$HOME:$" := by decide

/-! ## The grammar -/

/-- The expansion of a text, read from the left. -/
@[mk_iff] inductive Expands (vars : List (String × String)) : List Char → List Char → Prop
  | nil : Expands vars [] []
  | escape {s r : List Char} : Expands vars s r → Expands vars ('$' :: '$' :: s) ('$' :: r)
  | defined {name s r : List Char} {value : String} : ')' ∉ name →
      lookup (String.ofList name) vars = some value → Expands vars s r →
      Expands vars ('$' :: '(' :: (name ++ ')' :: s)) (value.toList ++ r)
  | undefined {name s r : List Char} : ')' ∉ name → lookup (String.ofList name) vars = none →
      Expands vars s r →
      Expands vars ('$' :: '(' :: (name ++ ')' :: s)) ('$' :: '(' :: (name ++ ')' :: r))
  /-- Scanning goes on right after a reference that nothing closes. -/
  | unclosed {s r : List Char} : ')' ∉ s → Expands vars s r →
      Expands vars ('$' :: '(' :: s) ('$' :: '(' :: r)
  | dollar {s r : List Char} : s.head? ≠ some '$' → s.head? ≠ some '(' → Expands vars s r →
      Expands vars ('$' :: s) ('$' :: r)
  | plain {ch : Char} {s r : List Char} : ch ≠ '$' → Expands vars s r →
      Expands vars (ch :: s) (ch :: r)

/-- The dollars that a text ends in. -/
def dollars (s : List Char) : ℕ := (s.reverse.takeWhile (· = '$')).length

/-- A reference that is not escaped and that nothing closes is followed by an escaped dollar. -/
def Swallows (s : List Char) : Prop :=
  ∃ before rest, s = before ++ '$' :: '(' :: rest ∧ Even (dollars before) ∧ ')' ∉ rest ∧
    ['$', '$'] <:+: rest

/-- Each dollar escaped. -/
def escaped (s : List Char) : List Char := s.flatMap fun ch => if ch = '$' then ['$', '$'] else [ch]

variable {vars : List (String × String)} {s r rest name : List Char}

/-! ## What the scan does -/

theorem scan_dollar (hdollar : s.head? ≠ some '$') (hopen : s.head? ≠ some '(') :
    scan vars ('$' :: s) = '$' :: scan vars s := by
  rw [scan.eq_4]
  · intro rest _ heq
    exact hdollar (by rw [heq, List.head?_cons])
  · intro rest _ heq
    exact hopen (by rw [heq, List.head?_cons])

theorem scan_plain {ch : Char} (hch : ch ≠ '$') : scan vars (ch :: s) = ch :: scan vars s := by
  rw [scan.eq_4]
  · rintro rest rfl
    exact absurd rfl hch
  · rintro rest rfl
    exact absurd rfl hch

theorem scanName_plain {ch : Char} (hch : ch ≠ ')') :
    scanName vars name (ch :: s) = scanName vars (name ++ [ch]) s := by
  rw [scanName.eq_3]
  exact hch

/-- A name runs to the first parenthesis. -/
theorem scanName_closed (hname : ')' ∉ name) (read : List Char) :
    scanName vars read (name ++ ')' :: s) = referenced vars (read ++ name) ++ scan vars s := by
  induction name generalizing read with
  | nil => rw [List.nil_append, scanName, List.append_nil]
  | cons ch name ih =>
    obtain ⟨hch, hname⟩ := not_or.mp (fun h => hname (List.mem_cons.mpr h))
    rw [List.cons_append, scanName_plain (Ne.symm hch), ih hname, List.append_assoc,
      List.singleton_append]

/-- Without a parenthesis the rest is copied. -/
theorem scanName_unclosed (hrest : ')' ∉ rest) (read : List Char) :
    scanName vars read rest = '$' :: '(' :: (read ++ rest) := by
  induction rest generalizing read with
  | nil => rw [scanName, List.append_nil]
  | cons ch rest ih =>
    obtain ⟨hch, hrest⟩ := not_or.mp (fun h => hrest (List.mem_cons.mpr h))
    rw [scanName_plain (Ne.symm hch), ih hrest, List.append_assoc, List.singleton_append]

/-- A text with each dollar escaped is scanned back to itself. -/
theorem scan_escaped (s : List Char) : scan vars (escaped s) = s := by
  induction s with
  | nil => rfl
  | cons ch s ih =>
    unfold escaped at *
    rw [List.flatMap_cons]
    split_ifs with hch
    · rw [hch, List.cons_append, List.cons_append, List.nil_append, scan, ih]
    · rw [List.singleton_append, scan_plain hch, ih]

/-! ## The grammar gives each text one expansion -/

/-- Every text starts with one of the tokens of the grammar. -/
@[elab_as_elim] theorem tokens_induction {motive : List Char → Prop} (s : List Char)
    (nil : motive []) (escape : ∀ s, motive s → motive ('$' :: '$' :: s))
    (reference : ∀ name s, ')' ∉ name → motive s → motive ('$' :: '(' :: (name ++ ')' :: s)))
    (unclosed : ∀ s, ')' ∉ s → motive s → motive ('$' :: '(' :: s))
    (dollar : ∀ s, s.head? ≠ some '$' → s.head? ≠ some '(' → motive s → motive ('$' :: s))
    (plain : ∀ ch s, ch ≠ '$' → motive s → motive (ch :: s)) : motive s := by
  induction hn : s.length using Nat.strong_induction_on generalizing s with
  | _ n ih =>
    have shorter (rest : List Char) (hrest : rest.length < s.length) : motive rest :=
      ih _ (hn ▸ hrest) rest rfl
    match s with
    | [] => exact nil
    | ch :: s =>
      by_cases hch : ch = '$'
      · subst hch
        by_cases hdollar : s.head? = some '$'
        · obtain ⟨s, rfl⟩ := List.head?_eq_some_iff.mp hdollar
          exact escape s (shorter s (by simp))
        by_cases hopen : s.head? = some '('
        · obtain ⟨s, rfl⟩ := List.head?_eq_some_iff.mp hopen
          by_cases hclose : ')' ∈ s
          · obtain ⟨name, rest, rfl, hname⟩ := List.eq_append_cons_of_mem hclose
            exact reference name rest hname (shorter rest (by simp; omega))
          · exact unclosed s hclose (shorter s (by simp))
        · exact dollar s hdollar hopen (shorter s (by simp))
      · exact plain ch s hch (shorter s (by simp))

theorem expands_nil_iff : Expands vars [] r ↔ r = [] := by
  rw [expands_iff]
  simp

theorem expands_escape_iff :
    Expands vars ('$' :: '$' :: s) r ↔ ∃ r', Expands vars s r' ∧ r = '$' :: r' := by
  rw [expands_iff]
  simp

theorem expands_open_iff :
    Expands vars ('$' :: '(' :: s) r ↔
      (∃ name rest r', ')' ∉ name ∧ s = name ++ ')' :: rest ∧ Expands vars rest r' ∧
        r = referenced vars name ++ r') ∨
      ')' ∉ s ∧ ∃ r', Expands vars s r' ∧ r = '$' :: '(' :: r' := by
  rw [expands_iff]
  unfold referenced
  constructor
  · simp
    rintro (⟨name, hname, rest, r', value, hvalue, hr, rfl, rfl⟩ |
      ⟨name, hname, hvalue, rest, r', hr, rfl, rfl⟩ | ⟨hs, r', hr, rfl⟩)
    · exact .inl ⟨name, hname, rest, rfl, r', hr, by rw [hvalue]⟩
    · exact .inl ⟨name, hname, rest, rfl, r', hr, by rw [hvalue]; simp⟩
    · exact .inr ⟨hs, r', hr, rfl⟩
  · rintro (⟨name, rest, r', hname, rfl, hr, rfl⟩ | ⟨hs, r', hr, rfl⟩)
    · cases hvalue : lookup (String.ofList name) vars with
      | some value =>
        exact .inr (.inr (.inl ⟨name, rest, r', value, hname, hvalue, hr, rfl, rfl⟩))
      | none =>
        exact .inr (.inr (.inr (.inl ⟨name, rest, r', hname, hvalue, hr, rfl, by simp⟩)))
    · exact .inr (.inr (.inr (.inr (.inl ⟨s, r', hs, hr, rfl, rfl⟩))))

theorem expands_reference_iff (hname : ')' ∉ name) :
    Expands vars ('$' :: '(' :: (name ++ ')' :: s)) r ↔
      ∃ r', Expands vars s r' ∧ r = referenced vars name ++ r' := by
  rw [expands_open_iff]
  constructor
  · rintro (⟨name', rest, r', hname', heq, hr, rfl⟩ | ⟨hs, -⟩)
    · obtain ⟨rfl, rfl⟩ := FirstMatch.split_inj hname hname' heq
      exact ⟨r', hr, rfl⟩
    · exact absurd (by simp) hs
  · rintro ⟨r', hr, rfl⟩
    exact .inl ⟨name, s, r', hname, rfl, hr, rfl⟩

theorem expands_unclosed_iff (hs : ')' ∉ s) :
    Expands vars ('$' :: '(' :: s) r ↔ ∃ r', Expands vars s r' ∧ r = '$' :: '(' :: r' := by
  rw [expands_open_iff]
  constructor
  · rintro (⟨name, rest, r', -, rfl, -, -⟩ | ⟨-, h⟩)
    · exact absurd (by simp) hs
    · exact h
  · intro h
    exact .inr ⟨hs, h⟩

theorem expands_dollar_iff (hdollar : s.head? ≠ some '$') (hopen : s.head? ≠ some '(') :
    Expands vars ('$' :: s) r ↔ ∃ r', Expands vars s r' ∧ r = '$' :: r' := by
  rw [expands_iff]
  cases s with
  | nil => simp
  | cons ch s =>
    simp only [List.head?_cons, ne_eq, Option.some.injEq] at hdollar hopen
    simp [hdollar, hopen]

theorem expands_plain_iff {ch : Char} (hch : ch ≠ '$') :
    Expands vars (ch :: s) r ↔ ∃ r', Expands vars s r' ∧ r = ch :: r' := by
  rw [expands_iff]
  simp [hch]

theorem existsUnique_token {t : List Char} {f : List Char → List Char}
    (hexists : ∃! r, Expands vars s r)
    (htoken : ∀ r, Expands vars t r ↔ ∃ r', Expands vars s r' ∧ r = f r') :
    ∃! r, Expands vars t r := by
  obtain ⟨r, hr, huniq⟩ := hexists
  refine ⟨f r, (htoken (f r)).mpr ⟨r, hr, rfl⟩, ?_⟩
  intro r' hr'
  obtain ⟨rest, hrest, rfl⟩ := (htoken r').mp hr'
  rw [huniq rest hrest]

/-- The grammar gives each text one expansion. -/
theorem expands_existsUnique (s : List Char) : ∃! r, Expands vars s r := by
  induction s using tokens_induction with
  | nil => simp only [expands_nil_iff, existsUnique_eq]
  | escape s ih => exact existsUnique_token ih fun r => expands_escape_iff
  | reference name s hname ih => exact existsUnique_token ih fun r => expands_reference_iff hname
  | unclosed s hs ih => exact existsUnique_token ih fun r => expands_unclosed_iff hs
  | dollar s hdollar hopen ih =>
    exact existsUnique_token ih fun r => expands_dollar_iff hdollar hopen
  | plain ch s hch ih => exact existsUnique_token ih fun r => expands_plain_iff hch

/-! ## Text behind an unclosed reference -/

theorem pair_cons_iff {ch : Char} (h : ch ≠ '$' ∨ s.head? ≠ some '$') :
    ['$', '$'] <:+: ch :: s ↔ ['$', '$'] <:+: s := by
  rw [List.infix_cons_iff, or_iff_right]
  rintro ⟨t, ht⟩
  obtain ⟨rfl, rfl⟩ := List.cons.inj ht
  cases h with
  | inl h => exact h rfl
  | inr h => exact h rfl

/-- Without closed references an expansion is no longer than its text, and shorter where a dollar
is escaped. -/
theorem length_of_expands (hs : ')' ∉ s) (h : Expands vars s r) :
    r.length ≤ s.length ∧ (r.length = s.length → ¬ ['$', '$'] <:+: s) := by
  induction s using tokens_induction generalizing r with
  | nil =>
    rw [expands_nil_iff.mp h]
    simp
  | escape s ih =>
    obtain ⟨r, hr, rfl⟩ := expands_escape_iff.mp h
    have := (ih (by simpa using hs) hr).1
    simp only [List.length_cons]
    omega
  | reference name s hname ih => simp at hs
  | unclosed s hclose ih =>
    obtain ⟨r, hr, rfl⟩ := (expands_unclosed_iff hclose).mp h
    rw [pair_cons_iff (.inr (by simp)), pair_cons_iff (.inl (by decide))]
    simpa using ih hclose hr
  | dollar s hdollar hopen ih =>
    obtain ⟨r, hr, rfl⟩ := (expands_dollar_iff hdollar hopen).mp h
    rw [pair_cons_iff (.inr hdollar)]
    simpa using ih (by simpa using hs) hr
  | plain ch s hch ih =>
    obtain ⟨r, hr, rfl⟩ := (expands_plain_iff hch).mp h
    rw [pair_cons_iff (.inl hch)]
    simpa using ih (fun hmem => hs (List.mem_cons_of_mem ch hmem)) hr

/-- A text that closes no reference expands to itself as long as it escapes no dollar. -/
theorem expands_self_iff (hs : ')' ∉ s) : Expands vars s s ↔ ¬ ['$', '$'] <:+: s := by
  constructor
  · intro h
    exact (length_of_expands hs h).2 rfl
  intro hpair
  induction s using tokens_induction with
  | nil => exact .nil
  | escape s ih => exact absurd ⟨[], s, rfl⟩ hpair
  | reference name s hname ih => simp at hs
  | unclosed s hclose ih =>
    rw [pair_cons_iff (.inr (by simp)), pair_cons_iff (.inl (by decide))] at hpair
    exact .unclosed hclose (ih hclose hpair)
  | dollar s hdollar hopen ih =>
    rw [pair_cons_iff (.inr hdollar)] at hpair
    exact .dollar hdollar hopen (ih (by simpa using hs) hpair)
  | plain ch s hch ih =>
    rw [pair_cons_iff (.inl hch)] at hpair
    exact .plain hch (ih (fun hmem => hs (List.mem_cons_of_mem ch hmem)) hpair)

/-! ## Which references are escaped -/

theorem dollars_of_all (h : ∀ ch ∈ s, ch = '$') : dollars s = s.length := by
  unfold dollars
  rw [List.takeWhile_eq_self_iff.mpr, List.length_reverse]
  intro ch hch
  exact decide_eq_true (h ch (List.mem_reverse.mp hch))

theorem dollars_append (a b : List Char) :
    dollars (a ++ b) = if ∀ ch ∈ b, ch = '$' then b.length + dollars a else dollars b := by
  unfold dollars
  rw [List.reverse_append]
  split_ifs with hall
  · rw [List.takeWhile_append_of_pos, List.length_append, List.length_reverse]
    intro ch hch
    exact decide_eq_true (hall ch (List.mem_reverse.mp hch))
  · rw [List.takeWhile_append, if_neg]
    intro hlen
    have hself := (List.takeWhile_prefix _).eq_of_length hlen
    apply hall
    intro ch hch
    exact of_decide_eq_true (List.takeWhile_eq_self_iff.mp hself ch (List.mem_reverse.mpr hch))

theorem dollars_concat {ch : Char} (hch : ch ≠ '$') (s : List Char) : dollars (s ++ [ch]) = 0 := by
  rw [dollars_append, if_neg (by simpa using hch)]
  simp [dollars, hch]

theorem even_dollars_append {a : List Char} (ha : Even (dollars a)) (b : List Char) :
    Even (dollars (a ++ b)) ↔ Even (dollars b) := by
  rw [dollars_append]
  split_ifs with hall
  · rw [dollars_of_all hall, Nat.even_add]
    exact iff_of_eq (by simp [ha])
  · rfl

/-- Only what follows a token decides, as long as no open reference starts within it. -/
theorem swallows_append_iff (token : List Char)
    (hparity : ∀ before after, s = before ++ '$' :: after →
      (Even (dollars (token ++ before)) ↔ Even (dollars before)))
    (hinside : ∀ before after rest, token = before ++ '$' :: after → after ++ s = '(' :: rest →
      Even (dollars before) → ')' ∈ rest) :
    Swallows (token ++ s) ↔ Swallows s := by
  constructor
  · rintro ⟨before, rest, heq, heven, hrest, hpair⟩
    rcases List.append_eq_append_iff.mp heq with ⟨before, rfl, hs⟩ | ⟨after, htoken, hafter⟩
    · exact ⟨before, rest, hs, (hparity before _ hs).mp heven, hrest, hpair⟩
    · cases after with
      | nil =>
        rw [List.append_nil] at htoken
        rw [← htoken, ← List.append_nil token] at heven
        exact ⟨[], rest, hafter.symm, (hparity [] _ hafter.symm).mp heven, hrest, hpair⟩
      | cons ch after =>
        obtain ⟨rfl, hopen⟩ := List.cons.inj hafter
        exact absurd (hinside before after rest htoken hopen.symm heven) hrest
  · rintro ⟨before, rest, rfl, heven, hrest, hpair⟩
    exact ⟨token ++ before, rest, (List.append_assoc ..).symm,
      (hparity before _ rfl).mpr heven, hrest, hpair⟩

theorem swallows_escape_iff : Swallows ('$' :: '$' :: s) ↔ Swallows s := by
  apply swallows_append_iff ['$', '$']
  · intro before after _
    exact even_dollars_append (by decide) before
  · intro before after rest htoken hafter heven
    cases before with
    | nil =>
      obtain rfl := (List.cons.inj htoken).2
      simp at hafter
    | cons ch before =>
      obtain ⟨rfl, hrest⟩ := List.cons.inj htoken
      obtain ⟨rfl, -, -⟩ : before = [] ∧ _ := by simpa [List.singleton_eq_append_iff] using hrest
      exact absurd heven (by decide)

theorem swallows_reference_iff :
    Swallows ('$' :: '(' :: (name ++ ')' :: s)) ↔ Swallows s := by
  have htoken : '$' :: '(' :: (name ++ ')' :: s) = ('$' :: '(' :: name ++ [')']) ++ s := by simp
  rw [htoken]
  apply swallows_append_iff
  · intro before after _
    exact even_dollars_append (by rw [dollars_concat (by decide)]; exact Even.zero) before
  · intro before after rest htoken hafter _
    rcases List.eq_nil_or_concat after with rfl | ⟨init, last, rfl⟩
    · have hlast := List.append_inj_right' htoken rfl
      simp at hlast
    · rw [List.concat_eq_append, ← List.cons_append, ← List.append_assoc] at htoken
      obtain rfl := List.singleton_inj.mp (List.append_inj_right' htoken rfl)
      cases init with
      | nil => simp at hafter
      | cons ch init =>
        obtain ⟨-, rfl⟩ := List.cons.inj hafter
        simp

theorem swallows_dollar_iff (hdollar : s.head? ≠ some '$') (hopen : s.head? ≠ some '(') :
    Swallows ('$' :: s) ↔ Swallows s := by
  apply swallows_append_iff ['$']
  · intro before after hs
    cases before with
    | nil => exact absurd (by rw [hs]; rfl) hdollar
    | cons ch before =>
      have hch : ch ≠ '$' := by
        rintro rfl
        exact hdollar (by rw [hs]; rfl)
      rw [dollars_append, if_neg (by simp [hch])]
  · intro before after rest htoken hafter _
    obtain ⟨-, rfl⟩ : before = [] ∧ after = [] := by
      simpa [List.singleton_eq_append_iff] using htoken
    exact absurd (by rw [← List.nil_append s, hafter]; rfl) hopen

theorem swallows_plain_iff {ch : Char} (hch : ch ≠ '$') : Swallows (ch :: s) ↔ Swallows s := by
  apply swallows_append_iff [ch]
  · intro before after _
    exact even_dollars_append (by simp [dollars, hch]) before
  · intro before after rest htoken hafter heven
    have hmem : '$' ∈ [ch] := by rw [htoken]; simp
    exact absurd (List.mem_singleton.mp hmem).symm hch

/-- The text behind an open reference is copied, escapes included. -/
theorem swallows_unclosed_iff (hs : ')' ∉ s) :
    Swallows ('$' :: '(' :: s) ↔ ['$', '$'] <:+: s := by
  constructor
  · rintro ⟨before, rest, heq, -, -, hpair⟩
    match before with
    | [] =>
      obtain rfl := (List.cons.inj (List.cons.inj heq).2).2
      exact hpair
    | [_] => simp at heq
    | _ :: _ :: before =>
      obtain rfl := (List.cons.inj (List.cons.inj heq).2).2
      exact hpair.trans ⟨before ++ ['$', '('], [], by simp⟩
  · intro hpair
    exact ⟨[], s, rfl, by decide, hs, hpair⟩

/-! ## Comparison -/

theorem scan_expands_iff (s : List Char) : Expands vars s (scan vars s) ↔ ¬ Swallows s := by
  induction s using tokens_induction with
  | nil =>
    refine iff_of_true .nil ?_
    rintro ⟨before, rest, heq, -⟩
    simp at heq
  | escape s ih =>
    rw [scan, expands_escape_iff, swallows_escape_iff, ← ih]
    simp
  | reference name s hname ih =>
    rw [scan, scanName_closed hname, expands_reference_iff hname, swallows_reference_iff,
      ← ih]
    simp
  | unclosed s hs ih =>
    have hself : Expands vars s s ↔ ¬ ['$', '$'] <:+: s := expands_self_iff hs
    rw [scan, scanName_unclosed hs, expands_unclosed_iff hs, swallows_unclosed_iff hs, ← hself]
    simp
  | dollar s hdollar hopen ih =>
    rw [scan_dollar hdollar hopen, expands_dollar_iff hdollar hopen,
      swallows_dollar_iff hdollar hopen, ← ih]
    simp
  | plain ch s hch ih =>
    rw [scan_plain hch, expands_plain_iff hch, swallows_plain_iff hch, ← ih]
    simp

/-- Escaping the dollars of a text protects it. Expansion follows the grammar exactly where no open
reference is left before an escaped dollar. -/
theorem expand_follows_iff (value : String) (vars : List (String × String)) :
    expand (String.ofList (escaped value.toList)) vars = value ∧
      (Expands vars value.toList (expand value vars).toList ↔ ¬ Swallows value.toList) := by
  unfold expand
  constructor
  · rw [String.toList_ofList, scan_escaped, String.ofList_toList]
  · rw [String.toList_ofList]
    exact scan_expands_iff value.toList

/-- After an open reference, an escaped dollar is copied as it is written. -/
theorem open_reference_copied :
    ¬ ∀ (value : String) (vars : List (String × String)),
      expand (String.ofList (escaped value.toList)) vars = value ∧
        Expands vars value.toList (expand value vars).toList := by
  intro hall
  have hgrammar := (hall "$($$" []).2
  have hscan : (expand "$($$" []).toList = "$($$".toList := by
    unfold expand
    rw [String.toList_ofList]
    exact scanName_unclosed (by decide) []
  rw [hscan] at hgrammar
  exact (expands_self_iff (by decide)).mp hgrammar ⟨['$', '('], [], rfl⟩

end Hedronetes.Kubelet
