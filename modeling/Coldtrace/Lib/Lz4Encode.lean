import Mathlib.Algebra.GroupWithZero.Nat
import Mathlib.Data.List.Basic
import Mathlib.Tactic.Common
import Coldtrace.Lib.Bytes
import Coldtrace.Lib.Lz4

/-!
# Writing LZ4 blocks

A compressor cuts its source into sequences, each a run of literals and a match,
and a last run of literals.  `Sequence.bytes` is how the format spells a
sequence, and `Sequence.expand` what a decoder does with it.

`Spells src n seqs` says that the sequences stand for the first `n` bytes of the
source, and keep to the rules for the end of a block: a match begins at least 12
bytes before the end of the source and ends at least 5 bytes before it.
`Spells.decode_block` says that such sequences and the rest of the source make a block
of the source, and `Spells.length_flatMap_le` bounds its size.
-/

namespace Lz4

open Bytes

/-! ## Sequences -/

/-- A run of literals and a match.  `extra` is the length of the match without
the minimum of 4. -/
structure Sequence where
  literals : List UInt8
  offset : Nat
  extra : Nat
deriving DecidableEq, Repr

/-- The part of a length that its nibble has. -/
def nibble (n : Nat) : Nat := min n 15

/-- The bytes of a length after the token. -/
def lengthBytes (n : Nat) : List UInt8 := if n < 15 then [] else extensionBytes (n - 15)

def Sequence.token (s : Sequence) : UInt8 :=
  UInt8.ofNat (16 * nibble s.literals.length + nibble s.extra)

/-- The bytes of a sequence. -/
def Sequence.bytes (s : Sequence) : List UInt8 :=
  s.token :: (lengthBytes s.literals.length ++ s.literals ++ le 2 s.offset ++ lengthBytes s.extra)

/-- The output of a decoder after a sequence. -/
def Sequence.expand (out : List UInt8) (s : Sequence) : List UInt8 :=
  copyMatch s.offset (s.extra + 4) (out ++ s.literals)

/-- What a block is made of. -/
def block (seqs : List Sequence) (last : List UInt8) : List UInt8 :=
  seqs.flatMap Sequence.bytes ++ literalBlock last

theorem length_lengthBytes (n : Nat) : (lengthBytes n).length = (n + 240) / 255 := by
  rw [lengthBytes]
  split
  next h =>
    rw [List.length_nil]
    omega
  next h =>
    rw [extensionBytes, List.length_append, List.length_replicate, List.length_singleton]
    omega

theorem lengthFrom_lengthBytes (n : Nat) (rest : List UInt8) :
    lengthFrom (nibble n) (lengthBytes n ++ rest) = some (n, rest) := by
  rw [lengthFrom, lengthBytes, nibble]
  split
  next h =>
    rw [if_neg (by omega), extension_extensionBytes, Option.map_some]
    simp only [Option.some.injEq, Prod.mk.injEq, and_true]
    omega
  next h =>
    rw [if_pos (by omega), List.nil_append]
    simp only [Option.some.injEq, Prod.mk.injEq, and_true]
    omega

theorem Sequence.toNat_token (s : Sequence) :
    s.token.toNat = 16 * nibble s.literals.length + nibble s.extra := by
  rw [token, UInt8.toNat_ofNat']
  simp only [nibble]
  omega

/-! ## Decoding -/

/-- A decoder reads the bytes of a sequence, and then has the output of it. -/
theorem sequences_bytes {s : Sequence} {out : List UInt8} (hpos : 0 < s.offset)
    (hle : s.offset ≤ out.length + s.literals.length) (hlt : s.offset < 65536) (fuel : Nat)
    (tail : List UInt8) :
    sequences (fuel + 1) out (s.bytes ++ tail) = sequences fuel (s.expand out) tail := by
  have htoken := s.toNat_token
  have hlits : nibble s.literals.length ≤ 15 := Nat.min_le_right ..
  have hextra : nibble s.extra ≤ 15 := Nat.min_le_right ..
  have hhigh : s.token.toNat / 16 = nibble s.literals.length := by omega
  have hlow : s.token.toNat % 16 = nibble s.extra := by omega
  have hoffset : (UInt8.ofNat s.offset).toNat + 256 * (UInt8.ofNat (s.offset / 256)).toNat =
      s.offset := by
    simp only [UInt8.toNat_ofNat']
    omega
  have hbytes : s.bytes ++ tail = s.token :: (lengthBytes s.literals.length ++ (s.literals ++
      UInt8.ofNat s.offset :: UInt8.ofNat (s.offset / 256) :: (lengthBytes s.extra ++ tail))) := by
    simp [Sequence.bytes, le]
  rw [hbytes, sequences, hhigh, lengthFrom_lengthBytes]
  dsimp only
  rw [if_neg (by simp), List.drop_left, List.take_left]
  dsimp only
  rw [hoffset, if_neg (by omega), hlow, lengthFrom_lengthBytes]
  rfl

/-- A decoder ends with a run of literals. -/
theorem sequences_literalBlock (fuel : Nat) (out last : List UInt8) :
    sequences (fuel + 1) out (literalBlock last) = some (out ++ last) := by
  rw [literalBlock]
  split
  next h =>
    have ht : (UInt8.ofNat (16 * last.length)).toNat / 16 = last.length := by
      rw [UInt8.toNat_ofNat']
      omega
    rw [sequences, ht, lengthFrom, if_neg (by omega)]
    simp
  next h =>
    have ht : (240 : UInt8).toNat / 16 = 15 := rfl
    rw [sequences, ht, lengthFrom, if_pos rfl, extension_extensionBytes]
    have hsum : 15 + (last.length - 15) = last.length := by omega
    simp [hsum]

/-- A match copies what the source has, if the source repeats itself there. -/
theorem copyMatch_take {src : List UInt8} {p offset : Nat} (hpos : 0 < offset) (hle : offset ≤ p)
    {n : Nat} (hn : p + n ≤ src.length)
    (hcopies : ∀ i, i < n → src[p + i]? = src[p - offset + i]?) :
    copyMatch offset n (src.take p) = src.take (p + n) := by
  induction n generalizing p with
  | zero => rfl
  | succ n ih =>
      have hp : p < src.length := by omega
      have hlen : (src.take p).length = p := by
        rw [List.length_take]
        omega
      have hbyte : ((src.take p)[(src.take p).length - offset]?).getD 0 = src[p] := by
        have h0 := hcopies 0 (Nat.succ_pos n)
        rw [hlen, List.getElem?_take_of_lt (by omega)]
        rw [Nat.add_zero, Nat.add_zero, List.getElem?_eq_getElem hp] at h0
        rw [← h0, Option.getD_some]
      rw [copyMatch, hbyte, List.take_append_getElem, ih (by omega) (by omega)]
      · congr 1
        omega
      · intro i hi
        have hi' := hcopies (i + 1) (by omega)
        have hsub : p + 1 - offset + i = p - offset + (i + 1) := by omega
        rw [hsub, Nat.add_right_comm, Nat.add_assoc, hi']

/-! ## Sequences of a source -/

/-- A sequence stands for the bytes of the source from `n` on. -/
structure Sequence.Of (s : Sequence) (src : List UInt8) (n : Nat) : Prop where
  literals : s.literals = (src.drop n).take s.literals.length
  offset_pos : 0 < s.offset
  offset_le : s.offset ≤ n + s.literals.length
  offset_lt : s.offset < 65536
  copies : ∀ i, i < s.extra + 4 →
    src[n + s.literals.length + i]? = src[n + s.literals.length - s.offset + i]?
  begins : n + s.literals.length + 12 ≤ src.length
  ends : n + s.literals.length + (s.extra + 4) + 5 ≤ src.length

/-- Sequences that stand for the first bytes of a source. -/
inductive Spells (src : List UInt8) : Nat → List Sequence → Prop where
  | nil : Spells src 0 []
  | snoc {n : Nat} {seqs : List Sequence} {s : Sequence} : Spells src n seqs → s.Of src n →
      Spells src (n + s.literals.length + (s.extra + 4)) (seqs ++ [s])

theorem Sequence.Of.expand_take {s : Sequence} {src : List UInt8} {n : Nat} (h : s.Of src n) :
    s.expand (src.take n) = src.take (n + s.literals.length + (s.extra + 4)) := by
  have hends := h.ends
  have hliterals : src.take n ++ s.literals = src.take (n + s.literals.length) := by
    rw [h.literals, List.take_add, List.length_take, List.length_drop]
    congr 2
    omega
  rw [Sequence.expand, hliterals]
  exact copyMatch_take h.offset_pos h.offset_le (by omega) h.copies

section

variable {src : List UInt8} {n : Nat} {seqs : List Sequence}

theorem Spells.le_length (h : Spells src n seqs) : n ≤ src.length := by
  cases h with
  | nil => exact Nat.zero_le _
  | snoc _ hs => exact Nat.le_trans (Nat.le_add_right _ 5) hs.ends

/-- A decoder reads the sequences, and then has the first bytes of the source. -/
theorem Spells.sequences_flatMap (h : Spells src n seqs) (fuel : Nat) (tail : List UInt8) :
    sequences (fuel + seqs.length) [] (seqs.flatMap Sequence.bytes ++ tail) =
      sequences fuel (src.take n) tail := by
  induction h generalizing fuel tail with
  | nil => rfl
  | snoc h hs ih =>
      have hn := h.le_length
      rw [List.flatMap_append, List.append_assoc, List.length_append, ← Nat.add_assoc,
        Nat.add_right_comm, ih, List.flatMap_singleton, List.length_singleton,
        sequences_bytes hs.offset_pos _ hs.offset_lt, hs.expand_take]
      rw [List.length_take, Nat.min_eq_left hn]
      exact hs.offset_le

theorem Sequence.length_bytes (s : Sequence) : s.bytes.length =
    s.literals.length + (s.literals.length + 240) / 255 + (s.extra + 240) / 255 + 3 := by
  simp only [bytes, List.length_cons, List.length_append, length_lengthBytes, length_le]
  omega

theorem length_le_flatMap (seqs : List Sequence) :
    seqs.length ≤ (seqs.flatMap Sequence.bytes).length := by
  induction seqs with
  | nil => exact Nat.le_refl _
  | cons s seqs ih =>
      rw [List.flatMap_cons, List.length_append, List.length_cons, Sequence.length_bytes]
      omega

/-- The sequences take a byte more than the source for each run of 255 literals. -/
theorem Spells.length_flatMap_le (h : Spells src n seqs) :
    (seqs.flatMap Sequence.bytes).length ≤ n + n / 255 := by
  induction h with
  | nil => exact Nat.le_refl _
  | snoc h hs ih =>
      rw [List.flatMap_append, List.length_append, List.flatMap_singleton, Sequence.length_bytes]
      omega

theorem length_literalBlock (last : List UInt8) :
    (literalBlock last).length = last.length + (last.length + 240) / 255 + 1 := by
  have hlength := length_lengthBytes last.length
  rw [literalBlock, lengthBytes] at *
  split
  next h =>
    rw [List.length_cons]
    omega
  next h =>
    rw [if_neg h] at hlength
    rw [List.length_cons, List.length_append, hlength]
    omega

/-- The sequences and the rest of the source make a block of the source. -/
theorem Spells.decode_block (h : Spells src n seqs) :
    decode (block seqs (src.drop n)) = some src := by
  have hlen := length_literalBlock (src.drop n)
  have hseqs := length_le_flatMap seqs
  obtain ⟨fuel, hfuel⟩ : ∃ fuel, (block seqs (src.drop n)).length = fuel + 1 + seqs.length :=
    ⟨(block seqs (src.drop n)).length - 1 - seqs.length, by
      rw [block, List.length_append]
      omega⟩
  rw [decode, hfuel, block, h.sequences_flatMap, sequences_literalBlock, List.take_append_drop]

end

end Lz4
