import Mathlib

/-!
# IPv4 addresses as texts

Four octets in decimal, without leading zeros, between dots. A printed address is
read back as itself.
-/

namespace Hedronetes.Network.Ipv4

/-- At most three digits, no leading zero, and below 256. -/
def octet (digits : List Char) : Option ℕ :=
  let n := Nat.ofDigitChars 10 digits 0
  if digits ≠ [] ∧ digits.length ≤ 3 ∧ digits.all Char.isDigit ∧ (digits.head? ≠ some '0' ∨
    digits.length = 1) ∧ n < 256 then some n else none

/-- `Ipv4Addr::from_octets`. -/
def ofOctets (a b c d : ℕ) : ℕ := ((a * 256 + b) * 256 + c) * 256 + d

/-- `parse::<Ipv4Addr>`. -/
def parse (s : String) : Option ℕ :=
  match s.toList.splitOn '.' with
  | [a, b, c, d] => do return ofOctets (← octet a) (← octet b) (← octet c) (← octet d)
  | _ => none

def octets (ip : ℕ) : List ℕ := [ip / 2 ^ 24, ip / 2 ^ 16 % 256, ip / 2 ^ 8 % 256, ip % 256]

/-- `to_string`. -/
def print (ip : ℕ) : String :=
  String.ofList (['.'].intercalate ((octets ip).map (Nat.toDigits 10)))

theorem octet_toDigits {n : ℕ} (h : n < 256) : octet (Nat.toDigits 10 n) = some n := by
  have hall : ∀ n < 256, octet (Nat.toDigits 10 n) = some n := by decide +kernel
  exact hall n h

theorem notMem_toDigits {c : Char} (h : c.isDigit = false) (n : ℕ) : c ∉ Nat.toDigits 10 n := by
  intro hmem
  have hdigit := Nat.isDigit_of_mem_toDigits (b := 10) (by decide) (by decide) hmem
  rw [h] at hdigit
  cases hdigit

theorem toDigits_inj {n m : ℕ} (h : Nat.toDigits 10 n = Nat.toDigits 10 m) : n = m := by
  have hread := congrArg (fun l => Nat.ofDigitChars 10 l 0) h
  simpa only [Nat.ofDigitChars_ten_toDigits] using hread

theorem splitOn_print (ip : ℕ) :
    (print ip).toList.splitOn '.' = (octets ip).map (Nat.toDigits 10) := by
  rw [print, String.toList_ofList]
  apply List.splitOn_intercalate
  · intro l hl
    obtain ⟨n, _, rfl⟩ := List.mem_map.mp hl
    exact notMem_toDigits (by decide) n
  · simp [octets]

theorem parse_print {ip : ℕ} (h : ip < 2 ^ 32) : parse (print ip) = some ip := by
  unfold parse
  rw [splitOn_print]
  simp only [octets, List.map_cons, List.map_nil]
  rw [octet_toDigits (by omega), octet_toDigits (by omega), octet_toDigits (by omega),
    octet_toDigits (by omega)]
  simp only [ofOctets, Option.pure_def, Option.bind_eq_bind, Option.bind_some, Option.some.injEq]
  omega

/-- The octets of any number tell it apart: the first of them is not bounded here. -/
theorem print_inj {ip other : ℕ} (h : print ip = print other) : ip = other := by
  have hoctets := congrArg (fun s : String => s.toList.splitOn '.') h
  simp only [splitOn_print, octets, List.map_cons, List.map_nil, List.cons.injEq, and_true] at hoctets
  obtain ⟨ha, hb, hc, hd⟩ := hoctets
  have ha := toDigits_inj ha
  have hb := toDigits_inj hb
  have hc := toDigits_inj hc
  have hd := toDigits_inj hd
  omega

end Hedronetes.Network.Ipv4
