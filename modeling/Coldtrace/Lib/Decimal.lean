import Mathlib.Tactic.Common
import Coldtrace.Lib.Numerals

/-!
# Decimal text

`decimal n` is the text of a number in base ten, and `value` reads a text of digits
back, whatever its length (`value_decimal`).  Texts are byte strings in ASCII.
-/

namespace Decimal

/-- The bytes of an ASCII text. -/
def ascii (s : String) : List UInt8 := s.toList.map fun c => UInt8.ofNat c.toNat

def isDigit (c : UInt8) : Bool := decide (48 ≤ c.toNat) && decide (c.toNat ≤ 57)

def numerals : Numerals where
  base := 10
  digit d := UInt8.ofNat (48 + d)
  value c := c.toNat - 48
  accepts := isDigit
  one_lt := by decide
  value_digit := by decide
  accepts_digit := by decide

/-- The text of a number. -/
def decimal (n : Nat) : List UInt8 := numerals.text n

/-- The number a text of digits spells. -/
def value (cs : List UInt8) : Nat := numerals.read cs

theorem isDigit_of_mem_decimal {n : Nat} {c : UInt8} (h : c ∈ decimal n) : isDigit c = true :=
  numerals.accepts_of_mem_text h

theorem decimal_ne_nil (n : Nat) : decimal n ≠ [] := numerals.text_ne_nil n

theorem value_decimal (n : Nat) : value (decimal n) = n := numerals.read_text n

theorem decimal_injective {m n : Nat} (h : decimal m = decimal n) : m = n :=
  numerals.text_injective h

theorem length_decimal_le {n k : Nat} (hk : 0 < k) (h : n < 10 ^ k) : (decimal n).length ≤ k :=
  numerals.length_text_le hk h

section

variable (n : Nat) {rest : List UInt8} (h : rest.head?.any isDigit = false)
include h

theorem takeWhile_decimal : (decimal n ++ rest).takeWhile isDigit = decimal n :=
  numerals.takeWhile_text h

theorem dropWhile_decimal : (decimal n ++ rest).dropWhile isDigit = rest :=
  numerals.dropWhile_text h

end

end Decimal
