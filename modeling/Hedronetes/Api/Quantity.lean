import Mathlib

/-!
# Resource quantities

A quantity is a decimal number with a unit. Its conversions to millicores and to bytes run in
checked 128-bit arithmetic and round up.
-/

namespace Hedronetes.Api

namespace Quantity

/-! ## Syntax -/

/-- What the numeric part is made of. -/
def numeric (c : Char) : Bool := c.isDigit || c = '.'

def number (s : List Char) : List Char := s.takeWhile numeric

def suffix (s : List Char) : String := String.ofList (s.dropWhile numeric)

/-- The digits before the first point. -/
def whole (n : List Char) : List Char := n.takeWhile (· ≠ '.')

/-- What follows the first point. -/
def frac (n : List Char) : List Char := (n.dropWhile (· ≠ '.')).drop 1

def suffixes : List String := ["", "m", "u", "n", "Ki", "Mi", "Gi", "Ti", "k", "K", "M", "G"]

def syntaxValid (s : String) : Bool :=
  let n := number s.toList
  s ≠ "" && s.toList.head? ≠ some '-' && whole n ≠ [] && !(n.contains '.' && frac n = []) &&
    (frac n).length ≤ 9 && (frac n).all Char.isDigit && suffix s.toList ∈ suffixes

/-! ## Conversion -/

/-- The number some digits spell. -/
def decimal (digits : List Char) : ℕ := Nat.ofDigitChars 10 digits 0

/-- Checked `i128` arithmetic. -/
def checked (n : ℤ) : Option ℤ := if -2 ^ 127 ≤ n ∧ n < 2 ^ 127 then some n else none

/-- Unchecked `i128` arithmetic. -/
def wrapped (n : ℤ) : ℤ := n.bmod (2 ^ 128)

/-- `parse::<i128>` of text without a sign. -/
def parseI128 (s : List Char) : Option ℤ :=
  if s ≠ [] ∧ s.all Char.isDigit then checked (decimal s) else none

/-- What the unit multiplies and divides by. -/
def unit : String → Option (ℤ × ℤ)
  | "" => some (1, 1)
  | "m" => some (1, 1000)
  | "u" => some (1, 1000000)
  | "n" => some (1, 1000000000)
  | "Ki" => some (1024, 1)
  | "Mi" => some (1024 * 1024, 1)
  | "Gi" => some (1024 * 1024 * 1024, 1)
  | "Ti" => some (1024 ^ 4, 1)
  | "k" => some (1000, 1)
  | "K" => some (1000, 1)
  | "M" => some (1000000, 1)
  | "G" => some (1000000000, 1)
  | _ => none

/-- The quotient rounded up, as an `i64`. -/
def rounded (numerator denominator : ℤ) : Option ℤ :=
  let result := wrapped (numerator.tdiv denominator +
    if numerator.tmod denominator ≠ 0 then 1 else 0)
  if -2 ^ 63 ≤ result ∧ result < 2 ^ 63 then some result else none

/-- Exact fixed-point conversion; fractional units are rounded up. -/
def scaled (s : String) (cpu : Bool) : Option ℤ := do
  let n := number s.toList
  let scale := wrapped (10 ^ (frac n).length)
  let x ← parseI128 (whole n)
  let x ← checked (x * scale)
  let fraction ← (if frac n = [] then some 0 else parseI128 (frac n))
  let base ← checked (x + fraction)
  let (mul, div) ← unit (suffix s.toList)
  if cpu ∧ suffix s.toList ∈ ["Ki", "Mi", "Gi", "Ti", "k", "K", "M", "G"] then none
  else if !cpu ∧ suffix s.toList ∈ ["u", "n"] then none
  else
    let numerator ← checked (base * mul)
    let numerator ← checked (numerator * if cpu then 1000 else 1)
    rounded numerator (wrapped (scale * div))

end Quantity

structure Quantity where
  raw : String
  valid : Quantity.syntaxValid raw = true

namespace Quantity

def parse (s : String) : Option Quantity :=
  if h : syntaxValid s = true then some ⟨s, h⟩ else none

variable (q : Quantity)

/-- CPU semantics: bare numbers are cores. -/
def asMilliCpu : Option ℤ := scaled q.raw true

/-- Memory and storage semantics: bare numbers are bytes. -/
def asBytes : Option ℤ := scaled q.raw false

/-! ## The exact value -/

/-- What one of the unit is worth. -/
def worth : String → ℚ
  | "" => 1
  | "m" => 1 / 10 ^ 3
  | "u" => 1 / 10 ^ 6
  | "n" => 1 / 10 ^ 9
  | "Ki" => 2 ^ 10
  | "Mi" => 2 ^ 20
  | "Gi" => 2 ^ 30
  | "Ti" => 2 ^ 40
  | "k" => 10 ^ 3
  | "K" => 10 ^ 3
  | "M" => 10 ^ 6
  | "G" => 10 ^ 9
  | _ => 0

/-- The rational number the text of a quantity denotes. -/
def valueOf (s : String) : ℚ :=
  (decimal (whole (number s.toList)) +
    decimal (frac (number s.toList)) / 10 ^ (frac (number s.toList)).length) * worth (suffix s.toList)

def value : ℚ := valueOf q.raw

/-- The units of CPU and those of memory and storage. -/
def cpuSuffixes : List String := ["", "m", "u", "n"]

def byteSuffixes : List String := ["", "m", "Ki", "Mi", "Gi", "Ti", "k", "K", "M", "G"]

theorem unit_exact {s : String} (h : s ∈ suffixes) :
    ∃ mul div, unit s = some (mul, div) ∧ 1 ≤ mul ∧ 1 ≤ div ∧ div ≤ 10 ^ 9 ∧
      worth s = (mul : ℚ) / (div : ℚ) := by
  simp only [suffixes, List.mem_cons, List.not_mem_nil, or_false] at h
  rcases h with rfl | rfl | rfl | rfl | rfl | rfl | rfl | rfl | rfl | rfl | rfl | rfl
  all_goals
    refine ⟨_, _, rfl, by norm_num, by norm_num, by norm_num, ?_⟩
    norm_num [worth]

/-! ## The arithmetic -/

theorem checked_of_lt {n : ℤ} (h : 0 ≤ n) (hlt : n < 2 ^ 127) : checked n = some n :=
  if_pos ⟨by omega, hlt⟩

theorem checked_of_ge {n : ℤ} (h : 2 ^ 127 ≤ n) : checked n = none :=
  if_neg (by omega)

theorem wrapped_eq {n : ℤ} (h : 0 ≤ n) (hlt : n < 2 ^ 127) : wrapped n = n := by
  unfold wrapped
  apply Int.bmod_eq_of_le
  · norm_num
    omega
  · norm_num
    omega

theorem decimal_cons (c : Char) (digits : List Char) :
    decimal (c :: digits) = (c.toNat - '0'.toNat) * 10 ^ digits.length + decimal digits := by
  unfold decimal
  rw [Nat.ofDigitChars_cons, Nat.ofDigitChars_eq_ofDigitChars_zero]
  ring

theorem decimal_lt {digits : List Char} (h : digits.all Char.isDigit = true) :
    decimal digits < 10 ^ digits.length := by
  induction digits with
  | nil => simp [decimal]
  | cons c digits ih =>
    rw [List.all_cons, Bool.and_eq_true] at h
    have hrest := ih h.2
    have hdigit : c.toNat - '0'.toNat ≤ 9 := by
      have hc := h.1
      simp only [Char.isDigit, Bool.and_eq_true, decide_eq_true_eq, UInt32.le_iff_toNat_le] at hc
      have htop : c.toNat ≤ 57 := hc.2
      change c.toNat - 48 ≤ 9
      omega
    rw [decimal_cons, List.length_cons, pow_succ]
    nlinarith [Nat.mul_le_mul_right (10 ^ digits.length) hdigit]

/-- Rounding the quotient up, as the conversion does it. -/
theorem ceil_div {n d : ℤ} (hn : 0 ≤ n) (hd : 1 ≤ d) :
    n.tdiv d + (if n.tmod d ≠ 0 then 1 else 0) = ⌈(n : ℚ) / d⌉ := by
  rw [Int.tdiv_eq_ediv_of_nonneg hn, Int.tmod_eq_emod_of_nonneg hn]
  have hsplit := Int.mul_ediv_add_emod n d
  have hnonneg := Int.emod_nonneg n (by omega : d ≠ 0)
  have hlt := Int.emod_lt_of_pos n (by omega : 0 < d)
  have hpos : (0 : ℚ) < d := by exact_mod_cast hd
  have hvalue : (n : ℚ) = d * (n / d : ℤ) + (n % d : ℤ) := by exact_mod_cast hsplit.symm
  symm
  rw [Int.ceil_eq_iff, hvalue]
  split_ifs with hrem
  · have hrem : (1 : ℚ) ≤ (n % d : ℤ) := by
      exact_mod_cast (by omega : 1 ≤ n % d)
    have hle : ((n % d : ℤ) : ℚ) ≤ d := by exact_mod_cast hlt.le
    push_cast at hrem hle ⊢
    constructor
    · rw [lt_div_iff₀ hpos]
      nlinarith
    · rw [div_le_iff₀ hpos]
      nlinarith
  · have hrem : ((n % d : ℤ) : ℚ) = 0 := by exact_mod_cast not_ne_iff.mp hrem
    rw [hrem]
    push_cast
    constructor
    · rw [lt_div_iff₀ hpos]
      nlinarith
    · rw [div_le_iff₀ hpos]
      nlinarith

/-- A checked step towards a larger number: where it fails, the larger one is out of range too. -/
theorem checked_bind {n top : ℤ} {f : ℤ → Option ℤ} {result : Option ℤ} (h : 0 ≤ n) (hle : n ≤ top)
    (hf : f n = if top < 2 ^ 127 then result else none) :
    (checked n >>= f) = if top < 2 ^ 127 then result else none := by
  by_cases hlt : n < 2 ^ 127
  · rw [checked_of_lt h hlt]
    exact hf
  · rw [checked_of_ge (by omega), if_neg (by omega)]
    rfl

/-- What the syntax check leaves for the conversion. -/
structure Parts (s : String) : Prop where
  whole : parseI128 (whole (number s.toList)) = checked (decimal (Quantity.whole (number s.toList)))
  digits : (frac (number s.toList)).all Char.isDigit = true
  short : (frac (number s.toList)).length ≤ 9
  suffix : suffix s.toList ∈ suffixes

theorem parts_of_valid {s : String} (h : syntaxValid s = true) : Parts s := by
  simp only [syntaxValid, Bool.and_eq_true, decide_eq_true_eq] at h
  obtain ⟨⟨⟨⟨⟨_, hwhole⟩, _⟩, hshort⟩, hdigits⟩, hsuffix⟩ := h
  refine ⟨if_pos ⟨hwhole, List.all_eq_true.mpr ?_⟩, hdigits, hshort, hsuffix⟩
  intro c hc
  have hpoint := of_decide_eq_true (List.all_eq_true.mp List.all_takeWhile c hc)
  have hnumeric := List.all_eq_true.mp List.all_takeWhile c (List.takeWhile_subset _ hc)
  simpa [numeric, hpoint] using hnumeric

/-- What the conversion divides, and by what. -/
def numerator (s : String) (mul k : ℤ) : ℤ :=
  (decimal (whole (number s.toList)) * 10 ^ (frac (number s.toList)).length +
    decimal (frac (number s.toList))) * mul * k

def denominator (s : String) (div : ℤ) : ℤ := 10 ^ (frac (number s.toList)).length * div

/-- The arithmetic of the conversion: the checked steps lose nothing that would fit in the end. -/
theorem steps_eq {W F P mul k : ℤ} (hW : 0 ≤ W) (hF : 0 ≤ F) (hP : 1 ≤ P) (hmul : 1 ≤ mul)
    (hk : 1 ≤ k) {f : ℤ → Option ℤ} :
    (do
      let x ← checked W
      let x ← checked (x * P)
      let base ← checked (x + F)
      let numerator ← checked (base * mul)
      let numerator ← checked (numerator * k)
      f numerator) =
      if (W * P + F) * mul * k < 2 ^ 127 then f ((W * P + F) * mul * k) else none := by
  have hWP : W ≤ W * P := by nlinarith
  have hbase : 0 ≤ W * P + F := by nlinarith
  have hmuled : W * P + F ≤ (W * P + F) * mul := by nlinarith
  have htop : (W * P + F) * mul ≤ (W * P + F) * mul * k := by
    nlinarith [mul_nonneg hbase (by omega : 0 ≤ mul)]
  apply checked_bind hW (by omega)
  apply checked_bind (by omega) (by omega)
  apply checked_bind hbase (by omega)
  apply checked_bind (by omega) htop
  by_cases hlt : (W * P + F) * mul * k < 2 ^ 127
  · rw [checked_of_lt (by omega) hlt, if_pos hlt]
    rfl
  · rw [checked_of_ge (by omega), if_neg hlt]
    rfl

theorem rounded_eq {n d : ℤ} (hn : 0 ≤ n) (hlt : n < 2 ^ 127) (hd : 1 ≤ d) :
    rounded n d = if ⌈(n : ℚ) / d⌉ < 2 ^ 63 then some ⌈(n : ℚ) / d⌉ else none := by
  have hpos : (0 : ℚ) < d := by exact_mod_cast hd
  have hnonneg : 0 ≤ ⌈(n : ℚ) / d⌉ := Int.ceil_nonneg (by positivity)
  have hle : ⌈(n : ℚ) / d⌉ ≤ n := by
    rw [Int.ceil_le, div_le_iff₀ hpos]
    have hd' : (1 : ℚ) ≤ d := by exact_mod_cast hd
    have hn' : (0 : ℚ) ≤ n := by exact_mod_cast hn
    nlinarith
  unfold rounded
  rw [ceil_div hn hd, wrapped_eq hnonneg (by omega)]
  apply if_congr _ rfl rfl
  omega

theorem ceil_ge {n d : ℤ} (hn : 2 ^ 127 ≤ n) (hd : 1 ≤ d) (hle : d ≤ 10 ^ 18) :
    2 ^ 63 ≤ ⌈(n : ℚ) / d⌉ := by
  have hpos : (0 : ℚ) < d := by exact_mod_cast hd
  have hn' : (2 : ℚ) ^ 127 ≤ n := by exact_mod_cast hn
  have hle' : (d : ℚ) ≤ 10 ^ 18 := by exact_mod_cast hle
  have hquotient : ((2 ^ 63 : ℤ) : ℚ) ≤ (n : ℚ) / d := by
    rw [le_div_iff₀ hpos]
    push_cast
    nlinarith
  exact_mod_cast hquotient.trans (Int.le_ceil _)

/-- The conversion is the exact quotient rounded up, if that is in range. -/
theorem scaled_eq {s : String} {cpu : Bool} {mul div : ℤ} (h : Parts s)
    (hunit : unit (suffix s.toList) = some (mul, div)) (hmul : 1 ≤ mul) (hdiv : 1 ≤ div)
    (hbound : div ≤ 10 ^ 9)
    (hcpu : ¬ (cpu = true ∧ suffix s.toList ∈ ["Ki", "Mi", "Gi", "Ti", "k", "K", "M", "G"]))
    (hbytes : ¬ ((!cpu) = true ∧ suffix s.toList ∈ ["u", "n"])) :
    scaled s cpu =
      if ⌈(numerator s mul (if cpu then 1000 else 1) : ℚ) / denominator s div⌉ < 2 ^ 63 then
        some ⌈(numerator s mul (if cpu then 1000 else 1) : ℚ) / denominator s div⌉
      else none := by
  have hpow : (10 : ℤ) ^ (frac (number s.toList)).length ≤ 10 ^ 9 :=
    pow_le_pow_right₀ (by norm_num) h.short
  have hone : (1 : ℤ) ≤ 10 ^ (frac (number s.toList)).length := one_le_pow₀ (by norm_num)
  have hfrac : (decimal (frac (number s.toList)) : ℤ) < 10 ^ 9 :=
    lt_of_lt_of_le (by exact_mod_cast decimal_lt h.digits) hpow
  have hfraction : (if frac (number s.toList) = [] then some 0
      else parseI128 (frac (number s.toList))) = some (decimal (frac (number s.toList)) : ℤ) := by
    split_ifs with hnil
    · rw [hnil]
      rfl
    · rw [parseI128, if_pos ⟨hnil, h.digits⟩, checked_of_lt (by omega) (by omega)]
  have hscale : wrapped (10 ^ (frac (number s.toList)).length) =
      10 ^ (frac (number s.toList)).length := wrapped_eq (by omega) (by omega)
  have hdenominator : denominator s div = 10 ^ (frac (number s.toList)).length * div := rfl
  have hpos : 1 ≤ denominator s div := by
    rw [hdenominator]
    nlinarith
  have hsmall : denominator s div ≤ 10 ^ 18 := by
    rw [hdenominator]
    nlinarith
  have hwrapped : wrapped (denominator s div) = denominator s div :=
    wrapped_eq (by omega) (by omega)
  generalize hk : (if cpu then (1000 : ℤ) else 1) = k
  have hk1 : 1 ≤ k := by
    rw [← hk]
    split_ifs <;> norm_num
  have hnumerator : ((decimal (whole (number s.toList)) : ℤ) *
      10 ^ (frac (number s.toList)).length + (decimal (frac (number s.toList)) : ℤ)) * mul * k =
        numerator s mul k := rfl
  have hnonneg : 0 ≤ numerator s mul k :=
    Int.mul_nonneg (Int.mul_nonneg (Int.add_nonneg (Int.mul_nonneg (Int.natCast_nonneg _) (by omega))
      (Int.natCast_nonneg _)) (by omega)) (by omega)
  have hsteps := steps_eq (W := decimal (whole (number s.toList)))
    (F := decimal (frac (number s.toList))) (P := 10 ^ (frac (number s.toList)).length)
    (Int.natCast_nonneg _) (Int.natCast_nonneg _) hone hmul hk1
    (f := fun n => rounded n (denominator s div))
  rw [hnumerator] at hsteps
  have hscaled : scaled s cpu = if numerator s mul k < 2 ^ 127 then
      rounded (numerator s mul k) (denominator s div) else none := by
    rw [← hsteps]
    unfold scaled
    simp only [hscale, h.whole, hfraction, hunit, Option.bind_eq_bind, Option.bind_some, hcpu,
      hbytes, if_false, ← hdenominator, hwrapped, hk]
  rw [hscaled]
  by_cases hlt : numerator s mul k < 2 ^ 127
  · rw [if_pos hlt, rounded_eq hnonneg hlt hpos]
  · have hbig := ceil_ge (n := numerator s mul k) (by omega) hpos hsmall
    rw [if_neg hlt, if_neg (by omega)]

theorem quotient_eq {s : String} {mul div k : ℤ} (hdiv : 1 ≤ div)
    (hworth : worth (suffix s.toList) = (mul : ℚ) / div) :
    (numerator s mul k : ℚ) / denominator s div = valueOf s * k := by
  have hdiv' : (div : ℚ) ≠ 0 := by
    have : (1 : ℚ) ≤ div := by exact_mod_cast hdiv
    positivity
  unfold numerator denominator valueOf
  rw [hworth]
  push_cast
  field_simp

/-- The units of the other dimension are those that are not the own ones. -/
theorem mem_cpuSuffixes : ∀ s ∈ suffixes,
    s ∈ cpuSuffixes ↔ s ∉ ["Ki", "Mi", "Gi", "Ti", "k", "K", "M", "G"] := by
  decide

theorem mem_byteSuffixes : ∀ s ∈ suffixes, s ∈ byteSuffixes ↔ s ∉ ["u", "n"] := by
  decide

theorem scaled_other {s : String} {cpu : Bool} (h : Parts s)
    (hother : (cpu = true ∧ suffix s.toList ∈ ["Ki", "Mi", "Gi", "Ti", "k", "K", "M", "G"]) ∨
      (!cpu) = true ∧ suffix s.toList ∈ ["u", "n"]) :
    scaled s cpu = none := by
  obtain ⟨mul, div, hunit, _⟩ := unit_exact h.suffix
  unfold scaled
  rcases hother with hother | hother
  · simp only [hunit, Option.bind_eq_bind, hother, if_true, and_self, Option.bind_fun_none]
  · have hcpu : cpu = false := by simpa using hother.1
    simp only [hunit, Option.bind_eq_bind, hother.2, hcpu, Bool.false_eq_true, false_and,
      Bool.not_false, if_true, if_false, and_self, Option.bind_fun_none]

theorem asMilliCpu_eq (q : Quantity) : q.asMilliCpu =
    if suffix q.raw.toList ∈ cpuSuffixes ∧ ⌈q.value * 1000⌉ < 2 ^ 63 then
      some ⌈q.value * 1000⌉ else none := by
  have hparts := parts_of_valid q.valid
  obtain ⟨mul, div, hunit, hmul, hdiv, hbound, hworth⟩ := unit_exact hparts.suffix
  by_cases hsuffix : suffix q.raw.toList ∈ cpuSuffixes
  · have hown := (mem_cpuSuffixes _ hparts.suffix).mp hsuffix
    have hquotient := quotient_eq (k := 1000) hdiv hworth
    rw [asMilliCpu, scaled_eq hparts hunit hmul hdiv hbound (by simp [hown]) (by simp), if_pos rfl,
      hquotient]
    simp only [hsuffix, true_and]
    rfl
  · have hother := not_not.mp (mt (mem_cpuSuffixes _ hparts.suffix).mpr hsuffix)
    rw [asMilliCpu, scaled_other hparts (Or.inl ⟨rfl, hother⟩), if_neg (by simp [hsuffix])]

theorem asBytes_eq (q : Quantity) : q.asBytes =
    if suffix q.raw.toList ∈ byteSuffixes ∧ ⌈q.value⌉ < 2 ^ 63 then some ⌈q.value⌉ else none := by
  have hparts := parts_of_valid q.valid
  obtain ⟨mul, div, hunit, hmul, hdiv, hbound, hworth⟩ := unit_exact hparts.suffix
  by_cases hsuffix : suffix q.raw.toList ∈ byteSuffixes
  · have hown := (mem_byteSuffixes _ hparts.suffix).mp hsuffix
    have hquotient := quotient_eq (k := 1) hdiv hworth
    rw [asBytes, scaled_eq hparts hunit hmul hdiv hbound (by simp) (by simp [hown])]
    simp only [Bool.false_eq_true, if_false, hquotient, hsuffix, true_and, Int.cast_one, mul_one]
    rfl
  · have hother := not_not.mp (mt (mem_byteSuffixes _ hparts.suffix).mpr hsuffix)
    rw [asBytes, scaled_other hparts (Or.inr ⟨rfl, hother⟩), if_neg (by simp [hsuffix])]

theorem value_nonneg (q : Quantity) : 0 ≤ q.value := by
  have hworth : ∀ s, 0 ≤ worth s := by
    intro s
    unfold worth
    split <;> norm_num
  have hworth := hworth (suffix q.raw.toList)
  unfold value valueOf
  positivity

/-- A conversion is the exact value rounded up: nothing else stops it than a unit of the other
dimension or a result out of range. -/
theorem quantity_exact (q : Quantity) :
    (q.asMilliCpu = if suffix q.raw.toList ∈ cpuSuffixes ∧ ⌈q.value * 1000⌉ < 2 ^ 63 then
      some ⌈q.value * 1000⌉ else none) ∧
    q.asBytes = if suffix q.raw.toList ∈ byteSuffixes ∧ ⌈q.value⌉ < 2 ^ 63 then
      some ⌈q.value⌉ else none :=
  ⟨asMilliCpu_eq q, asBytes_eq q⟩

/-- One and a half Gibibytes, and a tenth of a millicore rounded up. -/
example : (parse "1.5Gi").map asBytes = some (some 1610612736) ∧
    (parse "0.0001").map asMilliCpu = some (some 1) := by
  decide +kernel

end Quantity

end Hedronetes.Api
