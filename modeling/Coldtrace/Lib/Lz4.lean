import Mathlib.Algebra.GroupWithZero.Nat
import Mathlib.Tactic.Common

/-!
# The LZ4 block format

An LZ4 block is a list of sequences.  A sequence is a token byte, a literal
length, that many literal bytes and, unless it is the last one, a two-byte
offset and a match length.  The high nibble of the token starts the literal
length and the low nibble the match length, less the minimum match of 4.  A
nibble of 15 is extended by the bytes that follow, up to and including the
first one below 255.

`decode` is the meaning of a block.  A block of `n` bytes decodes to at most
`255 * n` bytes (`length_decode_le`): a byte of a length extension is worth at
most 255 bytes of output, and the token and the offset pay for the rest.

`literalBlock` is the block with one sequence and no match.  It decodes to its
source (`decode_literalBlock`), and its size is within the usual worst case
bound (`length_literalBlock_le`).
-/

namespace Lz4

/-! ## Decoding -/

/-- The value of the extension bytes of a length, and the bytes after them. -/
def extension : List UInt8 → Option (Nat × List UInt8)
  | [] => none
  | b :: bs =>
      if b = 255 then (extension bs).map fun p => (255 + p.1, p.2) else some (b.toNat, bs)

/-- A length that starts in a nibble of the token. -/
def lengthFrom (nibble : Nat) (bs : List UInt8) : Option (Nat × List UInt8) :=
  if nibble = 15 then (extension bs).map fun p => (15 + p.1, p.2) else some (nibble, bs)

/-- The output with `n` more bytes, each a copy of the byte `offset` before it.
The copy may overlap its own output. -/
def copyMatch (offset : Nat) : Nat → List UInt8 → List UInt8
  | 0, out => out
  | n + 1, out => copyMatch offset n (out ++ [(out[out.length - offset]?).getD 0])

/-- The output after the sequences of a block.  The fuel bounds the number of
sequences. -/
def sequences : Nat → List UInt8 → List UInt8 → Option (List UInt8)
  | 0, _, _ => none
  | _ + 1, _, [] => none
  | fuel + 1, out, token :: bs =>
      match lengthFrom (token.toNat / 16) bs with
      | none => none
      | some (lits, bs) =>
          if bs.length < lits then none
          else
            match bs.drop lits with
            | [] => some (out ++ bs.take lits)
            | [_] => none
            | lo :: hi :: rest =>
                let offset := lo.toNat + 256 * hi.toNat
                if offset = 0 ∨ out.length + lits < offset then none
                else
                  match lengthFrom (token.toNat % 16) rest with
                  | none => none
                  | some (n, rest) =>
                      sequences fuel (copyMatch offset (n + 4) (out ++ bs.take lits)) rest

/-- The meaning of a block.  A sequence takes at least one byte, so the length
of the block is fuel enough. -/
def decode (block : List UInt8) : Option (List UInt8) := sequences block.length [] block

/-! ## The expansion bound -/

@[simp] theorem length_copyMatch (offset : Nat) : ∀ (n : Nat) (out : List UInt8),
    (copyMatch offset n out).length = out.length + n
  | 0, _ => rfl
  | n + 1, out => by
      rw [copyMatch, length_copyMatch offset n, List.length_append, List.length_singleton]
      omega

theorem extension_le : ∀ {bs rest : List UInt8} {n : Nat}, extension bs = some (n, rest) →
    n + 255 * rest.length ≤ 255 * bs.length ∧ rest.length ≤ bs.length
  | [], _, _, h => by cases h
  | b :: bs, rest, n, h => by
      rw [extension] at h
      split at h
      next =>
        obtain ⟨⟨m, rest'⟩, hm, he⟩ := Option.map_eq_some_iff.mp h
        have ih := extension_le hm
        cases he
        simp only [List.length_cons]
        omega
      next =>
        have hb : b.toNat < 256 := b.toNat_lt
        cases h
        simp only [List.length_cons]
        omega

theorem lengthFrom_le {nibble n : Nat} {bs rest : List UInt8} (hn : nibble ≤ 15)
    (h : lengthFrom nibble bs = some (n, rest)) :
    n + 255 * rest.length ≤ 15 + 255 * bs.length ∧ rest.length ≤ bs.length := by
  rw [lengthFrom] at h
  split at h
  next =>
    obtain ⟨⟨m, rest'⟩, hm, he⟩ := Option.map_eq_some_iff.mp h
    have := extension_le hm
    cases he
    dsimp only
    omega
  next =>
    cases h
    omega

theorem length_sequences_le : ∀ (fuel : Nat) {out bs r : List UInt8},
    sequences fuel out bs = some r → r.length ≤ out.length + 255 * bs.length
  | 0, _, _, _, h => by cases h
  | _ + 1, _, [], _, h => by cases h
  | fuel + 1, out, token :: bs, r, h => by
      have htok : token.toNat < 256 := token.toNat_lt
      rw [sequences] at h
      split at h
      next => cases h
      next lits bs₁ hlit =>
        have hl := lengthFrom_le (by omega) hlit
        split at h
        next => cases h
        next hfit =>
          split at h
          next =>
            cases h
            simp only [List.length_append, List.length_take, List.length_cons]
            omega
          next => cases h
          next lo hi rest hrest =>
            have hlen : (bs₁.drop lits).length = rest.length + 2 := by rw [hrest]; rfl
            rw [List.length_drop] at hlen
            simp only at h
            split at h
            next => cases h
            next =>
              split at h
              next => cases h
              next n rest₁ hmatch =>
                have hm := lengthFrom_le (by omega) hmatch
                have ih := length_sequences_le fuel h
                simp only [length_copyMatch, List.length_append, List.length_take] at ih
                simp only [List.length_cons]
                omega

/-- A block of `n` bytes decodes to at most `255 * n` bytes. -/
theorem length_decode_le {block r : List UInt8} (h : decode block = some r) :
    r.length ≤ 255 * block.length := by
  have := length_sequences_le _ h
  simpa using this

/-! ## Literal blocks -/

/-- The extension bytes that spell `n`. -/
def extensionBytes (n : Nat) : List UInt8 := List.replicate (n / 255) 255 ++ [UInt8.ofNat (n % 255)]

theorem extension_extensionBytes (n : Nat) (rest : List UInt8) :
    extension (extensionBytes n ++ rest) = some (n, rest) := by
  have hlast : UInt8.ofNat (n % 255) ≠ 255 := by
    intro h
    have := congrArg UInt8.toNat h
    rw [UInt8.toNat_ofNat'] at this
    change n % 255 % 256 = 255 at this
    omega
  have hval : (UInt8.ofNat (n % 255)).toNat = n % 255 := by
    rw [UInt8.toNat_ofNat']
    omega
  have hrun : ∀ k, extension (List.replicate k 255 ++ [UInt8.ofNat (n % 255)] ++ rest)
      = some (255 * k + n % 255, rest) := by
    intro k
    induction k with
    | zero => simp only [List.replicate_zero, List.nil_append, List.singleton_append, extension,
        if_neg hlast, hval, Nat.mul_zero, Nat.zero_add]
    | succ k ih =>
        rw [List.replicate_succ, List.cons_append, List.cons_append, extension, if_pos rfl, ih,
          Option.map_some]
        simp only [Option.some.injEq, Prod.mk.injEq, and_true]
        omega
  rw [extensionBytes, hrun, Nat.div_add_mod]

/-- The block that stores its source as one run of literals. -/
def literalBlock (src : List UInt8) : List UInt8 :=
  if src.length < 15 then UInt8.ofNat (16 * src.length) :: src
  else 240 :: (extensionBytes (src.length - 15) ++ src)

theorem decode_literalBlock (src : List UInt8) : decode (literalBlock src) = some src := by
  rw [decode, literalBlock]
  split
  next h =>
    have ht : (UInt8.ofNat (16 * src.length)).toNat / 16 = src.length := by
      rw [UInt8.toNat_ofNat']
      omega
    rw [List.length_cons, sequences, ht, lengthFrom, if_neg (by omega)]
    simp
  next h =>
    have ht : (240 : UInt8).toNat / 16 = 15 := rfl
    rw [List.length_cons, sequences, ht, lengthFrom, if_pos rfl, extension_extensionBytes]
    have hsum : 15 + (src.length - 15) = src.length := by omega
    simp [hsum]

theorem length_literalBlock_le (src : List UInt8) :
    (literalBlock src).length ≤ src.length + src.length / 255 + 16 := by
  rw [literalBlock]
  split
  next =>
    rw [List.length_cons]
    omega
  next =>
    simp only [List.length_cons, List.length_append, extensionBytes, List.length_replicate,
      List.length_nil]
    omega

end Lz4
