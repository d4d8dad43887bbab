import Mathlib.Algebra.GroupWithZero.Nat
import Mathlib.Tactic.Common

/-!
# Little-endian words, packed records and byte memory

Three small pieces that every binary format with fixed-width fields needs.

*Words.*  `le w v` is the little-endian image of `v` on `w` bytes and `readLe`
reads a byte string back.  They are inverse to each other on strings of length
`w` (`le_readLe`) and on numbers below `256 ^ w` (`readLe_le_of_lt`).

*Packed records.*  A layout is a list of field widths.  `pack` concatenates the
fields, `unpack` takes them off the front of a byte string, and `unpackFrom`
reads them at an offset of a buffer, failing when the buffer is too short.

*Memory.*  `Mem` is an unbounded byte memory with block stores and loads.  A
load sees a store at the same place (`Mem.load_store_self`) and ignores a store
elsewhere (`Mem.load_store_before`).
-/

namespace Bytes

/-! ## Words -/

/-- The little-endian bytes of `v`, `w` of them.  Higher bits are dropped. -/
def le : Nat → Nat → List UInt8
  | 0, _ => []
  | w + 1, v => UInt8.ofNat v :: le w (v / 256)

/-- The number that a byte string spells, least significant byte first. -/
def readLe : List UInt8 → Nat
  | [] => 0
  | b :: bs => b.toNat + 256 * readLe bs

@[simp] theorem le_zero (v : Nat) : le 0 v = [] := rfl

@[simp] theorem length_le : ∀ w v : Nat, (le w v).length = w
  | 0, _ => rfl
  | w + 1, v => by simp [le, length_le w]

theorem readLe_le : ∀ w v : Nat, readLe (le w v) = v % 256 ^ w
  | 0, v => by simp [readLe, Nat.mod_one]
  | w + 1, v => by
      have hb : (UInt8.ofNat v).toNat = v % 256 := by simp
      rw [le, readLe, readLe_le w, hb, Nat.pow_succ', Nat.mod_mul]

theorem readLe_le_of_lt {w v : Nat} (h : v < 256 ^ w) : readLe (le w v) = v := by
  rw [readLe_le, Nat.mod_eq_of_lt h]

theorem readLe_lt : ∀ bs : List UInt8, readLe bs < 256 ^ bs.length
  | [] => by simp [readLe]
  | b :: bs => by
      have hb : b.toNat < 256 := b.toNat_lt
      have ih := readLe_lt bs
      rw [readLe, List.length_cons, Nat.pow_succ']
      omega

theorem le_readLe : ∀ bs : List UInt8, le bs.length (readLe bs) = bs
  | [] => rfl
  | b :: bs => by
      have hb : b.toNat < 256 := b.toNat_lt
      have hhead : UInt8.ofNat (b.toNat + 256 * readLe bs) = b := by
        apply UInt8.toNat_inj.mp
        rw [UInt8.toNat_ofNat']
        omega
      have htail : (b.toNat + 256 * readLe bs) / 256 = readLe bs := by omega
      rw [List.length_cons, readLe, le, hhead, htail, le_readLe bs]

theorem le_readLe_of_length {w : Nat} {bs : List UInt8} (h : bs.length = w) :
    le w (readLe bs) = bs := by
  subst h
  exact le_readLe bs

/-- A byte string spells zero exactly when all its bytes are zero. -/
theorem readLe_eq_zero : ∀ (bs : List UInt8), readLe bs = 0 ↔ ∀ b ∈ bs, b = 0
  | [] => by simp [readLe]
  | b :: bs => by
      have ih := readLe_eq_zero bs
      have hb : b.toNat = 0 ↔ b = 0 := by
        rw [← UInt8.toNat_inj, UInt8.toNat_zero]
      rw [readLe, Nat.add_eq_zero_iff, Nat.mul_eq_zero, List.forall_mem_cons, ← ih, hb]
      simp

/-! ## Packed records -/

/-- The concatenated fields of a record, each on its own width. -/
def pack : List Nat → List Nat → List UInt8
  | w :: ws, v :: vs => le w v ++ pack ws vs
  | _, _ => []

/-- The fields at the front of a byte string. -/
def unpack : List Nat → List UInt8 → List Nat
  | [], _ => []
  | w :: ws, bs => readLe (bs.take w) :: unpack ws (bs.drop w)

/-- The fields of a record at an offset of a buffer, or `none` when the buffer
ends before the record does. -/
def unpackFrom (ws : List Nat) (buffer : List UInt8) (offset : Nat) : Option (List Nat) :=
  if offset + ws.sum ≤ buffer.length then some (unpack ws (buffer.drop offset)) else none

/-- Every field fits its width. -/
def Fits : List Nat → List Nat → Prop
  | [], [] => True
  | w :: ws, v :: vs => v < 256 ^ w ∧ Fits ws vs
  | _, _ => False

theorem length_pack : ∀ {ws vs : List Nat}, Fits ws vs → (pack ws vs).length = ws.sum
  | [], [], _ => rfl
  | w :: ws, v :: vs, h => by simp [pack, length_pack h.2]
  | [], _ :: _, h => h.elim
  | _ :: _, [], h => h.elim

theorem unpack_pack : ∀ {ws vs : List Nat} (rest : List UInt8), Fits ws vs →
    unpack ws (pack ws vs ++ rest) = vs
  | [], [], _, _ => rfl
  | w :: ws, v :: vs, rest, h => by
      have hw : (le w v).length = w := length_le w v
      rw [pack, unpack, List.append_assoc, List.take_left' hw, List.drop_left' hw,
        unpack_pack rest h.2, readLe_le_of_lt h.1]
  | [], _ :: _, _, h => h.elim
  | _ :: _, [], _, h => h.elim

theorem fits_unpack : ∀ (ws : List Nat) (bs : List UInt8), ws.sum ≤ bs.length →
    Fits ws (unpack ws bs)
  | [], _, _ => trivial
  | w :: ws, bs, h => by
      rw [List.sum_cons] at h
      refine ⟨?_, fits_unpack ws (bs.drop w) (by rw [List.length_drop]; omega)⟩
      have hlt := readLe_lt (bs.take w)
      rwa [List.length_take, Nat.min_eq_left (by omega)] at hlt

theorem pack_unpack : ∀ (ws : List Nat) (bs : List UInt8), ws.sum ≤ bs.length →
    pack ws (unpack ws bs) = bs.take ws.sum
  | [], _, _ => by simp [pack]
  | w :: ws, bs, h => by
      rw [List.sum_cons] at h
      have hw : (bs.take w).length = w := by rw [List.length_take]; omega
      have hd : ws.sum ≤ (bs.drop w).length := by rw [List.length_drop]; omega
      rw [unpack, pack, le_readLe_of_length hw, pack_unpack ws (bs.drop w) hd, List.sum_cons,
        List.take_add]

theorem unpackFrom_of_drop {ws vs : List Nat} {buffer rest : List UInt8} {offset : Nat}
    (h : buffer.drop offset = pack ws vs ++ rest) (hv : Fits ws vs) (ho : offset ≤ buffer.length) :
    unpackFrom ws buffer offset = some vs := by
  have hlen : (buffer.drop offset).length = ws.sum + rest.length := by
    rw [h, List.length_append, length_pack hv]
  rw [List.length_drop] at hlen
  rw [unpackFrom, if_pos (by omega), h, unpack_pack rest hv]

theorem unpackFrom_eq_some {ws : List Nat} {buffer : List UInt8} {offset : Nat} {vs : List Nat}
    (h : unpackFrom ws buffer offset = some vs) :
    offset + ws.sum ≤ buffer.length ∧ Fits ws vs ∧
      buffer.drop offset = pack ws vs ++ buffer.drop (offset + ws.sum) := by
  rw [unpackFrom] at h
  split at h
  next hle =>
    have hd : ws.sum ≤ (buffer.drop offset).length := by rw [List.length_drop]; omega
    cases h
    refine ⟨hle, fits_unpack ws _ hd, ?_⟩
    rw [pack_unpack ws _ hd, ← List.drop_drop, List.take_append_drop]
  next => cases h

/-! ## Words of one width -/

/-- A list of numbers as consecutive words of `w` bytes. -/
def words (w : Nat) (vs : List Nat) : List UInt8 := vs.flatMap (le w)

@[simp] theorem words_nil (w : Nat) : words w [] = [] := rfl

@[simp] theorem words_cons (w v : Nat) (vs : List Nat) :
    words w (v :: vs) = le w v ++ words w vs := rfl

@[simp] theorem length_words (w : Nat) : ∀ vs : List Nat, (words w vs).length = w * vs.length
  | [] => rfl
  | v :: vs => by
      rw [words_cons, List.length_append, length_le, length_words w vs, List.length_cons,
        Nat.mul_succ, Nat.add_comm]

/-- A layout that starts with words of one width. -/
theorem pack_replicate_append (w : Nat) (ws us : List Nat) : ∀ vs : List Nat,
    pack (List.replicate vs.length w ++ ws) (vs ++ us) = words w vs ++ pack ws us
  | [] => rfl
  | v :: vs => by
      rw [List.length_cons, List.replicate_succ, List.cons_append, List.cons_append, pack,
        pack_replicate_append w ws us vs, words_cons, List.append_assoc]

theorem fits_replicate_append (w : Nat) (ws us : List Nat) : ∀ vs : List Nat,
    Fits (List.replicate vs.length w ++ ws) (vs ++ us) ↔ (∀ v ∈ vs, v < 256 ^ w) ∧ Fits ws us
  | [] => by simp
  | v :: vs => by
      rw [List.length_cons, List.replicate_succ, List.cons_append, List.cons_append, Fits,
        fits_replicate_append w ws us vs, List.forall_mem_cons, and_assoc]

/-- As many words of one width spell the same numbers when they start the same
byte string. -/
theorem words_inj {w : Nat} {vs us : List Nat} {x y : List UInt8} (hlen : vs.length = us.length)
    (hv : ∀ v ∈ vs, v < 256 ^ w) (hu : ∀ v ∈ us, v < 256 ^ w)
    (h : words w vs ++ x = words w us ++ y) : vs = us := by
  have hpack : ∀ ns : List Nat, words w ns = pack (List.replicate ns.length w) ns := fun ns => by
    have hp := pack_replicate_append w [] [] ns
    rw [List.append_nil, List.append_nil] at hp
    exact (hp.trans (List.append_nil _)).symm
  have hfits : ∀ ns : List Nat, (∀ v ∈ ns, v < 256 ^ w) → Fits (List.replicate ns.length w) ns :=
    fun ns hn => by
      have hf := (fits_replicate_append w [] [] ns).mpr ⟨hn, trivial⟩
      rwa [List.append_nil, List.append_nil] at hf
  have heq := congrArg (unpack (List.replicate vs.length w)) h
  rwa [hpack, hpack, unpack_pack x (hfits vs hv), hlen, unpack_pack y (hfits us hu)] at heq

theorem Fits.length_eq : ∀ {ws vs : List Nat}, Fits ws vs → vs.length = ws.length
  | [], [], _ => rfl
  | w :: ws, v :: vs, h => by rw [List.length_cons, List.length_cons, Fits.length_eq h.2]
  | [], _ :: _, h => h.elim
  | _ :: _, [], h => h.elim

/-! ## Zero bytes -/

theorem le_eq_zero {w v : Nat} (hv : v < 256 ^ w) : (∀ b ∈ le w v, b = 0) ↔ v = 0 := by
  rw [← readLe_eq_zero, readLe_le_of_lt hv]

/-- A record has zero bytes exactly when its fields are zero. -/
theorem pack_eq_zero : ∀ {ws vs : List Nat}, Fits ws vs →
    ((∀ b ∈ pack ws vs, b = 0) ↔ ∀ v ∈ vs, v = 0)
  | [], [], _ => by simp [pack]
  | w :: ws, v :: vs, h => by
      rw [pack, List.forall_mem_append, List.forall_mem_cons, le_eq_zero h.1, pack_eq_zero h.2]
  | [], _ :: _, h => h.elim
  | _ :: _, [], h => h.elim

/-! ## Memory -/

/-- An unbounded byte memory. -/
def Mem := Nat → UInt8

namespace Mem

/-- The memory of zeros. -/
def zero : Mem := fun _ => 0

/-- The memory with a byte string written at an offset. -/
def store (m : Mem) (offset : Nat) (bs : List UInt8) : Mem :=
  fun i => if offset ≤ i then (bs[i - offset]?).getD (m i) else m i

/-- The bytes of a range of the memory. -/
def load (m : Mem) (offset n : Nat) : List UInt8 := (List.range n).map fun i => m (offset + i)

@[simp] theorem length_load (m : Mem) (offset n : Nat) : (m.load offset n).length = n := by
  simp [load]

@[simp] theorem load_zero (m : Mem) (offset : Nat) : m.load offset 0 = [] := rfl

theorem load_add (m : Mem) (offset a b : Nat) :
    m.load offset (a + b) = m.load offset a ++ m.load (offset + a) b := by
  simp only [load, List.range_add, List.map_append, List.map_map]
  congr 1
  apply List.map_congr_left
  intro i _
  simp [Nat.add_assoc]

/-- A part of a load is a load. -/
theorem take_drop_load (m : Mem) {offset n a k : Nat} (h : k ≤ n - a) :
    ((m.load offset n).drop a).take k = m.load (offset + a) k := by
  rcases Nat.eq_zero_or_pos k with rfl | hk
  · rw [List.take_zero, load_zero]
  · obtain ⟨r, rfl⟩ : ∃ r, n = a + (k + r) := ⟨n - a - k, by omega⟩
    rw [load_add, load_add, List.drop_left' (length_load ..), List.take_left' (length_load ..)]

theorem load_congr {m m' : Mem} {offset n : Nat}
    (h : ∀ i, offset ≤ i → i < offset + n → m i = m' i) : m.load offset n = m'.load offset n := by
  apply List.map_congr_left
  intro i hi
  exact h _ (by omega) (by have := List.mem_range.mp hi; omega)

theorem load_store_self (m : Mem) (offset : Nat) (bs : List UInt8) :
    (m.store offset bs).load offset bs.length = bs := by
  apply List.ext_getElem
  · simp
  · intro i h₁ h₂
    simp [load, store, h₂]

/-- A load that ends before a store begins does not see it. -/
theorem load_store_before (m : Mem) {offset n at' : Nat} (bs : List UInt8) (h : offset + n ≤ at') :
    (m.store at' bs).load offset n = m.load offset n := by
  apply load_congr
  intro i _ hi
  rw [store, if_neg (by omega)]

/-- Two stores side by side are one store of the concatenation. -/
theorem store_append (m : Mem) (offset : Nat) (bs cs : List UInt8) :
    (m.store offset bs).store (offset + bs.length) cs = m.store offset (bs ++ cs) := by
  funext i
  simp only [store]
  by_cases h₁ : offset ≤ i
  · by_cases h₂ : offset + bs.length ≤ i
    · rw [if_pos h₂, if_pos h₁, if_pos h₁, List.getElem?_append_right (by omega),
        List.getElem?_eq_none (l := bs) (by omega), Nat.sub_add_eq, Option.getD_none]
    · rw [if_neg h₂, if_pos h₁, if_pos h₁, List.getElem?_append_left (by omega)]
  · rw [if_neg (by omega), if_neg h₁, if_neg h₁]

/-- Stores to disjoint places commute. -/
theorem store_comm (m : Mem) {offset at' : Nat} (bs cs : List UInt8)
    (h : offset + bs.length ≤ at') :
    (m.store at' cs).store offset bs = (m.store offset bs).store at' cs := by
  funext i
  simp only [store]
  by_cases h₁ : at' ≤ i
  · rw [if_pos h₁, if_pos h₁, if_pos (by omega), List.getElem?_eq_none (l := bs) (by omega),
      Option.getD_none, if_pos (by omega), Option.getD_none]
  · rw [if_neg h₁, if_neg h₁]

/-- A store at the end of a load extends it. -/
theorem load_store_append (m : Mem) (n : Nat) (bs : List UInt8) :
    (m.store n bs).load 0 (n + bs.length) = m.load 0 n ++ bs := by
  rw [load_add, load_store_before m bs (by omega), Nat.zero_add, load_store_self]

end Mem

end Bytes
