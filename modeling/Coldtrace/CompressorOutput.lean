import Mathlib.Algebra.GroupWithZero.Nat
import Mathlib.Data.List.Basic
import Mathlib.Tactic.Common
import Coldtrace.Lib.Bytes
import Coldtrace.Lib.Lz4
import Coldtrace.Lib.Lz4Encode
import Coldtrace.Compressor
import Coldtrace.MatchLength

/-!
# The output of the compressor

The destination starts with what is written so far (`Starts`).  What lies behind
it does not matter: a copy in units of eight bytes and a length in units of four
leave bytes there, and the next write goes over them.

Each function that writes has one lemma: with enough room it appends the bytes
that the format has for its argument.
-/

namespace Coldtrace

open Bytes Lz4

namespace Compressor

/-- The destination starts with some bytes. -/
def Starts (dest : Mem) (bs : List UInt8) : Prop := ∀ i b, bs[i]? = some b → dest i = b

section

variable {cap : Nat} {src : List UInt8} {dest : Mem} {xs ys : List UInt8}

theorem starts_nil : Starts dest [] := fun i b h => by cases h

theorem Starts.of_append (h : Starts dest (xs ++ ys)) : Starts dest xs := by
  intro i b hb
  refine h i b ?_
  rw [List.getElem?_append_left (List.getElem?_eq_some_iff.mp hb).1, hb]

theorem Starts.store (h : Starts dest xs) (ys : List UInt8) :
    Starts (dest.store xs.length ys) (xs ++ ys) := by
  intro i b hb
  rw [Mem.store]
  by_cases hi : i < xs.length
  · rw [List.getElem?_append_left hi] at hb
    rw [if_neg (by omega)]
    exact h i b hb
  · rw [List.getElem?_append_right (Nat.le_of_not_lt hi)] at hb
    have hlt := (List.getElem?_eq_some_iff.mp hb).1
    rw [if_pos (by omega), hb, Option.getD_some]

theorem Starts.load (h : Starts dest xs) : dest.load 0 xs.length = xs := by
  apply List.ext_getElem (Mem.length_load ..)
  intro i hi hi'
  simp only [Mem.load, List.getElem_map, List.getElem_range, Nat.zero_add]
  exact h i _ (List.getElem?_eq_getElem hi')

theorem write_eq {op : Nat} (h : op + ys.length ≤ cap) :
    write cap dest op ys = some (dest.store op ys) := if_pos h

/-- The byte at an index, and what a store to it leaves. -/
theorem Starts.token {t : UInt8} (h : Starts dest (xs ++ t :: ys)) :
    dest xs.length = t ∧ ∀ t', Starts (dest.store xs.length [t']) (xs ++ t' :: ys) := by
  refine ⟨h _ t (by simp), fun t' i b hb => ?_⟩
  rw [Mem.store]
  rcases Nat.lt_trichotomy i xs.length with hlt | rfl | hgt
  · rw [if_neg (Nat.not_le_of_lt hlt)]
    refine h i b ?_
    rw [List.getElem?_append_left hlt] at hb ⊢
    exact hb
  · rw [if_pos (Nat.le_refl _)]
    simpa using hb
  · obtain ⟨k, rfl⟩ : ∃ k, i = xs.length + (k + 1) := ⟨i - xs.length - 1, by omega⟩
    rw [if_pos (Nat.le_add_right ..), List.getElem?_eq_none (by simp), Option.getD_none]
    refine h _ b ?_
    rw [List.getElem?_append_right (Nat.le_add_right ..), Nat.add_sub_cancel_left,
      List.getElem?_cons_succ] at hb ⊢
    exact hb

end

/-! ## Lengths and literals -/

section

variable {c : Call} {dest : Mem} {xs : List UInt8}

theorem extensionBytes_of_lt {n : Nat} (h : n < 255) : extensionBytes n = [UInt8.ofNat n] := by
  rw [extensionBytes, Nat.div_eq_of_lt h, Nat.mod_eq_of_lt h]
  rfl

theorem extensionBytes_of_le {n : Nat} (h : 255 ≤ n) :
    extensionBytes n = 255 :: extensionBytes (n - 255) := by
  obtain ⟨m, rfl⟩ : ∃ m, n = m + 255 := ⟨n - 255, by omega⟩
  rw [Nat.add_sub_cancel, extensionBytes, extensionBytes, Nat.add_div_right m (by decide),
    Nat.add_mod_right, List.replicate_succ, List.cons_append]

theorem Starts.putLength (h : Starts dest xs) {fuel len : Nat} (hfuel : len < fuel)
    (hroom : (xs ++ extensionBytes len).length ≤ c.cap) :
    ∃ dest', c.putLength fuel len xs.length dest =
        some ((xs ++ extensionBytes len).length, dest') ∧
      Starts dest' (xs ++ extensionBytes len) := by
  induction fuel generalizing len xs dest with
  | zero => exact absurd hfuel (Nat.not_lt_zero _)
  | succ fuel ih =>
      rw [Call.putLength]
      split
      next hlen =>
        have heq : xs ++ extensionBytes len = xs ++ [255] ++ extensionBytes (len - 255) := by
          rw [extensionBytes_of_le hlen, List.append_assoc, List.singleton_append]
        rw [heq] at hroom ⊢
        have hwrite : xs.length + [(255 : UInt8)].length ≤ c.cap := by
          rw [List.length_append, List.length_append] at hroom
          omega
        obtain ⟨dest', hput, hstarts⟩ := ih (h.store [255]) (by omega) hroom
        rw [List.length_append, List.length_singleton] at hput
        refine ⟨dest', ?_, hstarts⟩
        rw [write_eq hwrite]
        exact hput
      next hlen =>
        rw [extensionBytes_of_lt (Nat.lt_of_not_le hlen)] at hroom ⊢
        rw [List.length_append] at hroom ⊢
        rw [write_eq hroom]
        exact ⟨_, rfl, h.store _⟩

/-- The token of a run of literals, without the length of a match. -/
def runToken (n : Nat) : UInt8 := UInt8.ofNat (16 * nibble n)

theorem Starts.putRun (h : Starts dest xs) {n : Nat}
    (hroom : (xs ++ runToken n :: lengthBytes n).length ≤ c.cap) :
    ∃ dest', c.putRun xs.length n (xs.length + 1) dest =
        some ((xs ++ runToken n :: lengthBytes n).length, dest') ∧
      Starts dest' (xs ++ runToken n :: lengthBytes n) := by
  have hcons : xs ++ runToken n :: lengthBytes n = xs ++ [runToken n] ++ lengthBytes n := by
    rw [List.append_assoc, List.singleton_append]
  have hwrite : xs.length + [runToken n].length ≤ c.cap := by
    rw [hcons, List.length_append, List.length_append] at hroom
    omega
  have hstarts := h.store [runToken n]
  rw [hcons] at hroom ⊢
  rw [Call.putRun]
  split
  next hn =>
    have hn' : 15 ≤ n := hn
    have htoken : UInt8.ofNat (runMask * 16) = runToken n := by
      rw [runToken, nibble, Nat.min_eq_right hn']
      rfl
    have hbytes : lengthBytes n = extensionBytes (n - runMask) := if_neg (Nat.not_lt_of_le hn')
    rw [htoken, write_eq hwrite]
    rw [hbytes] at hroom ⊢
    have hfuel : n - runMask < n + 1 := by omega
    obtain ⟨dest', hput, hstarts'⟩ := hstarts.putLength hfuel hroom
    refine ⟨dest', ?_, hstarts'⟩
    rwa [List.length_append, List.length_singleton] at hput
  next hn =>
    have hn' : n < 15 := Nat.lt_of_not_le hn
    have htoken : UInt8.ofNat (n * 16) = runToken n := by
      rw [runToken, nibble, Nat.min_eq_left (Nat.le_of_lt hn'), Nat.mul_comm]
    have hbytes : lengthBytes n = [] := if_pos hn'
    rw [htoken, write_eq hwrite, hbytes, List.append_nil]
    refine ⟨_, ?_, hstarts⟩
    rw [List.length_append, List.length_singleton]
    rfl

/-- A copy in units of eight bytes needs room for at most seven more bytes. -/
theorem Starts.wildCopy8 {src : List UInt8} {cap : Nat} (h : Starts dest xs) {fuel s n : Nat}
    (hfuel : n < fuel) (hread : s + max 8 (n + 7) ≤ src.length)
    (hroom : xs.length + max 8 (n + 7) ≤ cap) :
    ∃ dest', wildCopy8 cap src (xs.length + n) fuel xs.length s dest = some dest' ∧
      Starts dest' (xs ++ (src.drop s).take n) := by
  induction fuel generalizing s n xs dest with
  | zero => exact absurd hfuel (Nat.not_lt_zero _)
  | succ fuel ih =>
      have hin : s + 8 ≤ src.length := by omega
      have hword := length_take_drop hin
      have hwrite : xs.length + ((src.drop s).take 8).length ≤ cap := by omega
      have hstarts := h.store ((src.drop s).take 8)
      rw [Compressor.wildCopy8, bytesAt_eq hin]
      dsimp only [Option.bind_eq_bind, Option.bind_some]
      rw [write_eq hwrite, Option.bind_some]
      split
      next hmore =>
        have hsplit : (src.drop s).take n =
            (src.drop s).take 8 ++ (src.drop (s + 8)).take (n - 8) := by
          rw [← List.drop_drop, ← List.take_add]
          congr 1
          omega
        obtain ⟨dest', hcopy, hstarts'⟩ := ih (s := s + 8) (n := n - 8) hstarts (by omega)
          (by omega) (by rw [List.length_append]; omega)
        rw [List.length_append, hword] at hcopy
        have hend : xs.length + 8 + (n - 8) = xs.length + n := by omega
        rw [hend] at hcopy
        rw [hsplit, ← List.append_assoc]
        exact ⟨dest', hcopy, hstarts'⟩
      next hdone =>
        have hsplit : xs ++ (src.drop s).take 8 =
            xs ++ (src.drop s).take n ++ ((src.drop s).take 8).drop n := by
          have htake : (src.drop s).take n = ((src.drop s).take 8).take n := by
            rw [List.take_take, Nat.min_eq_left (by omega)]
          rw [htake, List.append_assoc, List.take_append_drop]
        rw [hsplit] at hstarts
        exact ⟨_, rfl, hstarts.of_append⟩

/-! ## The length of a match -/

/-- The four bytes that stand at `op` are part of the length, or are written over. -/
theorem Starts.putFours (h : Starts dest (xs ++ List.replicate 4 255)) {fuel matchCode : Nat}
    (hfuel : matchCode < fuel) (hroom : xs.length + (matchCode / 255 + 4) ≤ c.cap) :
    ∃ k rest dest', c.putFours fuel matchCode xs.length dest =
        some (rest, xs.length + 4 * k, dest') ∧
      matchCode = 1020 * k + rest ∧ rest < 1020 ∧
      Starts dest' (xs ++ List.replicate (4 * k + 4) 255) := by
  induction fuel generalizing matchCode xs dest with
  | zero => exact absurd hfuel (Nat.not_lt_zero _)
  | succ fuel ih =>
      rw [Call.putFours]
      split
      next hlen =>
        have hlength : (xs ++ List.replicate 4 (255 : UInt8)).length = xs.length + 4 := by
          rw [List.length_append, List.length_replicate]
        have hstarts := h.store [255, 255, 255, 255]
        rw [hlength] at hstarts
        have hwrite : xs.length + 4 + [(255 : UInt8), 255, 255, 255].length ≤ c.cap := by
          rw [List.length_cons, List.length_cons, List.length_cons, List.length_singleton]
          omega
        have hfuel' : matchCode - 4 * 255 < fuel := by omega
        obtain ⟨k, rest, dest', hput, hcode, hrest, hstarts'⟩ :=
          ih hstarts hfuel' (by rw [hlength]; omega)
        refine ⟨k + 1, rest, dest', ?_, by omega, hrest, ?_⟩
        · rw [hlength] at hput
          rw [write_eq hwrite]
          dsimp only [Option.bind_eq_bind, Option.bind_some]
          have hop : xs.length + 4 + 4 * k = xs.length + 4 * (k + 1) := by omega
          rw [hput, hop]
        · have hcount : 4 * (k + 1) + 4 = 4 + (4 * k + 4) := by omega
          rw [hcount, List.replicate_add, ← List.append_assoc]
          exact hstarts'
      next hlen => exact ⟨0, matchCode, dest, rfl, by omega, by omega, h⟩

/-- The length of a match goes into the token, and behind what is written. -/
theorem Starts.encodeMatchLength {n matchCode : Nat} {ys : List UInt8}
    (h : Starts dest (xs ++ runToken n :: ys))
    (hroom : (xs ++ runToken n :: ys).length + (matchCode + 240) / 255 + 3 ≤ c.cap) :
    ∃ dest', c.encodeMatchLength xs.length matchCode (xs ++ runToken n :: ys).length dest =
        some ((xs ++ runToken n :: ys).length + (matchCode + 240) / 255, dest') ∧
      Starts dest' (xs ++ UInt8.ofNat (16 * nibble n + nibble matchCode) ::
        (ys ++ lengthBytes matchCode)) := by
  obtain ⟨htoken, hset⟩ := h.token
  have hlength : ∀ t, (xs ++ t :: ys).length = xs.length + ys.length + 1 := by
    intro t
    rw [List.length_append, List.length_cons, Nat.add_assoc]
  have hwriteToken : ∀ t : UInt8, xs.length + [t].length ≤ c.cap := by
    intro t
    rw [hlength] at hroom
    rw [List.length_singleton]
    omega
  have hsum : ∀ m, runToken n + UInt8.ofNat m = UInt8.ofNat (16 * nibble n + m) := fun m =>
    (UInt8.ofNat_add ..).symm
  rw [Call.encodeMatchLength, htoken]
  split
  next hlong =>
    have hlong' : 15 ≤ matchCode := hlong
    have hnibble : nibble matchCode = 15 := Nat.min_eq_right hlong'
    have hbytes : lengthBytes matchCode = extensionBytes (matchCode - 15) :=
      if_neg (Nat.not_lt_of_le hlong')
    have hstarts := (hset (runToken n + UInt8.ofNat mlMask)).store [255, 255, 255, 255]
    rw [hlength] at hroom hstarts
    have hwriteFour : xs.length + ys.length + 1 + [(255 : UInt8), 255, 255, 255].length ≤
        c.cap := by
      rw [List.length_cons, List.length_cons, List.length_cons, List.length_singleton]
      omega
    have hfuel : matchCode - mlMask < matchCode + 1 := by omega
    obtain ⟨k, rest, dest', hput, hcode, hrest, hstarts'⟩ := Starts.putFours (c := c) hstarts hfuel
      (by rw [hlength, mlMask]; omega)
    rw [hlength] at hput
    rw [mlMask] at hcode
    have hcount : 4 * k + 4 = 4 * k + rest / 255 + (4 - rest / 255) := by omega
    rw [hcount, List.replicate_add, ← List.append_assoc] at hstarts'
    have hlast := hstarts'.of_append.store [UInt8.ofNat (rest % 255)]
    rw [List.length_append, List.length_replicate, hlength] at hlast
    rw [write_eq (hwriteToken _), hlength]
    dsimp only [Option.bind_eq_bind, Option.bind_some]
    rw [write_eq hwriteFour, Option.bind_some, hput]
    dsimp only [Option.bind_some]
    have hwriteLast : xs.length + ys.length + 1 + 4 * k + rest / 255 +
        [UInt8.ofNat (rest % 255)].length ≤ c.cap := by
      rw [List.length_singleton]
      omega
    have hop : xs.length + ys.length + 1 + 4 * k + rest / 255 + 1 =
        xs.length + ys.length + 1 + (matchCode + 240) / 255 := by omega
    rw [write_eq hwriteLast, Option.bind_some, hop]
    refine ⟨_, rfl, ?_⟩
    have hdiv : (matchCode - 15) / 255 = 4 * k + rest / 255 := by omega
    have hmod : (matchCode - 15) % 255 = rest % 255 := by omega
    rw [hnibble, ← hsum, hbytes, extensionBytes, hdiv, hmod]
    rw [← Nat.add_assoc] at hlast
    simpa [mlMask] using hlast
  next hshort =>
    have hshort' : matchCode < 15 := Nat.lt_of_not_le hshort
    have hnibble : nibble matchCode = matchCode := Nat.min_eq_left (Nat.le_of_lt hshort')
    have hbytes : lengthBytes matchCode = [] := if_pos hshort'
    have hnone : (matchCode + 240) / 255 = 0 := by omega
    rw [write_eq (hwriteToken _), hnibble, ← hsum, hbytes, List.append_nil, hnone]
    exact ⟨_, rfl, hset _⟩

end

end Compressor

end Coldtrace
