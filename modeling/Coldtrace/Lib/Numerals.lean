import Mathlib.Data.Nat.Digits.Lemmas
import Mathlib.Tactic.Common

/-!
# Numerals

A numeral system prints a number most significant digit first and without leading
zeros (`text`), and `read` gives the number back.  A text of digits ends where a
character is not a digit of the system, so a number can be taken off the front of a
longer text (`takeWhile_text`, `cancel`).
-/

/-- A numeral system. -/
structure Numerals where
  base : Nat
  digit : Nat → UInt8
  value : UInt8 → Nat
  accepts : UInt8 → Bool
  one_lt : 1 < base
  value_digit : ∀ d < base, value (digit d) = d
  accepts_digit : ∀ d < base, accepts (digit d) = true

namespace Numerals

variable (N : Numerals)

/-- The digits of a number, the least significant one first. -/
def digits (n : Nat) : List Nat := if n = 0 then [0] else Nat.digits N.base n

/-- The text of a number. -/
def text (n : Nat) : List UInt8 := (N.digits n).reverse.map N.digit

/-- The number a text of digits spells. -/
def read (cs : List UInt8) : Nat := cs.foldl (fun v c => N.value c + N.base * v) 0

theorem lt_of_mem_digits {n d : Nat} (h : d ∈ N.digits n) : d < N.base := by
  rw [digits] at h
  split at h
  next =>
    rw [List.mem_singleton.mp h]
    exact Nat.lt_trans Nat.zero_lt_one N.one_lt
  next => exact Nat.digits_lt_base N.one_lt h

theorem ofDigits_digits (n : Nat) : Nat.ofDigits N.base (N.digits n) = n := by
  rw [digits]
  split
  next h => rw [h, Nat.ofDigits_singleton]
  next => exact Nat.ofDigits_digits ..

theorem text_ne_nil (n : Nat) : N.text n ≠ [] := by
  rw [text, digits]
  split
  next => simp
  next h => simpa [Nat.digits_eq_nil_iff_eq_zero] using h

theorem accepts_of_mem_text {n : Nat} {c : UInt8} (h : c ∈ N.text n) : N.accepts c = true := by
  obtain ⟨d, hd, rfl⟩ := List.mem_map.mp h
  exact N.accepts_digit d (N.lt_of_mem_digits (List.mem_reverse.mp hd))

/-- The most significant digit is read first. -/
theorem read_reverse {ds : List Nat} (h : ∀ d ∈ ds, d < N.base) :
    N.read (ds.reverse.map N.digit) = Nat.ofDigits N.base ds := by
  induction ds with
  | nil => rfl
  | cons d ds ih =>
      rw [List.forall_mem_cons] at h
      rw [List.reverse_cons, List.map_append, read, List.foldl_append, ← read, ih h.2,
        Nat.ofDigits_cons]
      change N.value (N.digit d) + N.base * _ = _
      rw [N.value_digit d h.1]

theorem read_text (n : Nat) : N.read (N.text n) = n := by
  rw [text, N.read_reverse fun d => N.lt_of_mem_digits, N.ofDigits_digits]

theorem text_injective {m n : Nat} (h : N.text m = N.text n) : m = n := by
  rw [← N.read_text m, h, N.read_text]

theorem length_text_le {n k : Nat} (hk : 0 < k) (h : n < N.base ^ k) : (N.text n).length ≤ k := by
  rw [text, List.length_map, List.length_reverse, digits]
  split
  next => exact hk
  next => exact (Nat.digits_length_le_iff N.one_lt n).mpr h

/-! ## Taking a number off a text -/

section

variable {n : Nat} {rest : List UInt8} (h : rest.head?.any N.accepts = false)
include h

/-- A number ends where its digits end. -/
theorem takeWhile_text : (N.text n ++ rest).takeWhile N.accepts = N.text n := by
  rw [List.takeWhile_append_of_pos fun c hc => N.accepts_of_mem_text hc]
  cases rest with
  | nil => simp
  | cons c cs =>
      have hc : N.accepts c = false := h
      simp [hc]

theorem dropWhile_text : (N.text n ++ rest).dropWhile N.accepts = rest := by
  rw [List.dropWhile_append_of_pos fun c hc => N.accepts_of_mem_text hc]
  cases rest with
  | nil => simp
  | cons c cs =>
      have hc : N.accepts c = false := h
      simp [hc]

theorem cancel {m : Nat} {rest' : List UInt8} (h' : rest'.head?.any N.accepts = false)
    (heq : N.text n ++ rest = N.text m ++ rest') : n = m ∧ rest = rest' := by
  have htext : N.text n = N.text m := by
    rw [← N.takeWhile_text h, heq, N.takeWhile_text h']
  refine ⟨N.text_injective htext, ?_⟩
  rw [htext] at heq
  exact List.append_cancel_left heq

end

end Numerals
