import Mathlib.Tactic.Common
import Coldtrace.Lib.Numerals

/-!
# Formatted text

A formatted text is a list of pieces: text that is fixed, and numbers.  A number
is printed in a numeral system.

Two formatted texts are alike if they differ in their numbers only, and every
number is followed by a character that is not a digit of its system.  Then the
text determines the numbers, whatever follows (`Alike.cancel`).
-/

namespace Template

/-! ## Pieces -/

inductive Piece where
  | text (s : List UInt8)
  | number (N : Numerals) (n : Nat)

def Piece.render : Piece → List UInt8
  | text s => s
  | number N n => N.text n

def render (ps : List Piece) : List UInt8 := ps.flatMap Piece.render

@[simp] theorem render_nil : render [] = [] := rfl

@[simp] theorem render_cons (p : Piece) (ps : List Piece) :
    render (p :: ps) = p.render ++ render ps := rfl

@[simp] theorem render_append (ps qs : List Piece) : render (ps ++ qs) = render ps ++ render qs :=
  List.flatMap_append

/-- The texts differ in their numbers only, and each number is followed by
something that is not a digit. -/
inductive Alike : List Piece → List Piece → Prop where
  | nil : Alike [] []
  | text {s : List UInt8} {ps qs : List Piece} : Alike ps qs →
      Alike (.text s :: ps) (.text s :: qs)
  | number {N : Numerals} {m n : Nat} {s : List UInt8} {ps qs : List Piece} :
      s.head?.map N.accepts = some false → Alike ps qs →
      Alike (.number N m :: .text s :: ps) (.number N n :: .text s :: qs)

/-- Texts that are alike are the same if they print the same. -/
theorem Alike.cancel {ps qs : List Piece} {rest rest' : List UInt8} (h : Alike ps qs)
    (heq : render ps ++ rest = render qs ++ rest') : ps = qs ∧ rest = rest' := by
  induction h with
  | nil => exact ⟨rfl, heq⟩
  | text _ ih =>
      rw [render_cons, render_cons, List.append_assoc, List.append_assoc] at heq
      obtain ⟨rfl, hrest⟩ := ih (List.append_cancel_left heq)
      exact ⟨rfl, hrest⟩
  | @number N m n s ps qs hs _ ih =>
      have hhead : ∀ tail : List UInt8, (s ++ tail).head?.any N.accepts = false := by
        intro tail
        cases s with
        | nil => cases hs
        | cons c s => exact Option.some.inj hs
      simp only [render_cons, Piece.render, List.append_assoc] at heq
      obtain ⟨rfl, htail⟩ := N.cancel (hhead _) (hhead _) heq
      obtain ⟨rfl, hrest⟩ := ih (List.append_cancel_left htail)
      exact ⟨rfl, hrest⟩

/-! ## Hexadecimal numbers -/

/-- The digits from ten on are small letters. -/
def hexadecimal : Numerals where
  base := 16
  digit d := UInt8.ofNat (if d < 10 then 48 + d else 87 + d)
  value c := if c.toNat ≤ 57 then c.toNat - 48 else c.toNat - 87
  accepts c := decide (48 ≤ c.toNat ∧ c.toNat ≤ 57 ∨ 97 ≤ c.toNat ∧ c.toNat ≤ 102)
  one_lt := by decide
  value_digit := by decide
  accepts_digit := by decide

end Template
