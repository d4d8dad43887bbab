import Mathlib.Algebra.GroupWithZero.Nat
import Mathlib.Data.List.Basic
import Mathlib.Data.Nat.Bitwise
import Mathlib.Tactic.Common
import Coldtrace.Lib.Bytes
import Coldtrace.Compressor

/-!
# The length of a match

`LZ4_count` compares the source with itself eight bytes at a time.  Where two
words differ, the trailing zeros of their difference say how many bytes are the
same.  At the end it compares four, two and one bytes.

`commonBytes` compares one byte after the other.  The two agree
(`count_eq_commonBytes`), and `LZ4_count` reads no byte behind its limit.
-/

namespace Coldtrace

open Bytes

namespace Compressor

/-! ## Repetitions -/

/-- The source has the same `n` bytes at two places. -/
def Same (src : List UInt8) (p q n : Nat) : Prop := ∀ i, i < n → src[p + i]? = src[q + i]?

/-- The number of bytes that are the same at two places, at most `n`. -/
def commonBytes (src : List UInt8) : Nat → Nat → Nat → Nat
  | 0, _, _ => 0
  | n + 1, p, q => if src[p]? = src[q]? then commonBytes src n (p + 1) (q + 1) + 1 else 0

section

variable {src : List UInt8} {p q n k : Nat}

theorem Same.mono (h : Same src p q n) (hk : k ≤ n) : Same src p q k :=
  fun i hi => h i (Nat.lt_of_lt_of_le hi hk)

theorem same_add : Same src p q (k + n) ↔ Same src p q k ∧ Same src (p + k) (q + k) n := by
  constructor
  · intro h
    refine ⟨h.mono (Nat.le_add_right ..), fun i hi => ?_⟩
    rw [Nat.add_assoc, Nat.add_assoc]
    exact h (k + i) (Nat.add_lt_add_left hi k)
  · rintro ⟨hk, hn⟩ i hi
    by_cases hik : i < k
    · exact hk i hik
    · have hi' := hn (i - k) (by omega)
      rwa [Nat.add_assoc, Nat.add_assoc, Nat.add_sub_cancel' (Nat.le_of_not_lt hik)] at hi'

theorem same_succ : Same src p q (n + 1) ↔
    src[p]? = src[q]? ∧ Same src (p + 1) (q + 1) n := by
  rw [Nat.add_comm, same_add]
  refine and_congr_left fun _ => ⟨fun h => h 0 Nat.one_pos, fun h i hi => ?_⟩
  obtain rfl : i = 0 := by omega
  exact h

/-- The bytes that are the same are counted, and no more. -/
theorem le_commonBytes_iff : k ≤ commonBytes src n p q ↔ k ≤ n ∧ Same src p q k := by
  induction n generalizing k p q with
  | zero =>
      rw [commonBytes]
      refine ⟨fun h => ⟨h, fun i hi => ?_⟩, fun h => h.1⟩
      omega
  | succ n ih =>
      cases k with
      | zero => exact ⟨fun _ => ⟨Nat.zero_le _, fun i hi => by omega⟩, fun _ => Nat.zero_le _⟩
      | succ k =>
          rw [commonBytes, same_succ]
          split
          next h =>
            rw [Nat.succ_le_succ_iff, ih, Nat.succ_le_succ_iff]
            simp [h]
          next h => simp [h]

theorem commonBytes_le : commonBytes src n p q ≤ n := (le_commonBytes_iff.mp (Nat.le_refl _)).1

theorem same_commonBytes : Same src p q (commonBytes src n p q) :=
  (le_commonBytes_iff.mp (Nat.le_refl _)).2

theorem commonBytes_add (h : Same src p q k) :
    commonBytes src (k + n) p q = k + commonBytes src n (p + k) (q + k) := by
  induction k generalizing p q with
  | zero => simp
  | succ k ih =>
      obtain ⟨h0, hrest⟩ := same_succ.mp h
      have hp : p + 1 + k = p + (k + 1) := by omega
      have hq : q + 1 + k = q + (k + 1) := by omega
      rw [Nat.add_right_comm, commonBytes, if_pos h0, ih hrest, hp, hq]
      omega

/-- Bytes that are read are the same exactly when the source repeats itself. -/
theorem take_drop_eq_iff :
    (src.drop p).take n = (src.drop q).take n ↔ Same src p q n := by
  have hget : ∀ r i, i < n → ((src.drop r).take n)[i]? = src[r + i]? := by
    intro r i hi
    rw [List.getElem?_take_of_lt hi, List.getElem?_drop]
  constructor
  · intro h i hi
    rw [← hget p i hi, ← hget q i hi, h]
  · intro h
    apply List.ext_getElem?
    intro i
    by_cases hi : i < n
    · rw [hget p i hi, hget q i hi]
      exact h i hi
    · rw [List.getElem?_eq_none, List.getElem?_eq_none] <;>
        · rw [List.length_take]
          omega

/-! ## Reading -/

theorem bytesAt_eq (h : p + n ≤ src.length) : bytesAt n src p = some ((src.drop p).take n) :=
  if_pos h

theorem read_eq (h : p + n ≤ src.length) : read n src p = some (readLe ((src.drop p).take n)) := by
  rw [read, bytesAt_eq h, Option.map_some]

theorem length_take_drop (h : p + n ≤ src.length) : ((src.drop p).take n).length = n := by
  rw [List.length_take, List.length_drop]
  omega

theorem readLe_eq_iff (hp : p + n ≤ src.length) (hq : q + n ≤ src.length) :
    readLe ((src.drop p).take n) = readLe ((src.drop q).take n) ↔ Same src p q n := by
  rw [← take_drop_eq_iff]
  refine ⟨fun h => ?_, fun h => by rw [h]⟩
  rw [← le_readLe_of_length (length_take_drop hp), ← le_readLe_of_length (length_take_drop hq), h]

end

/-! ## Words -/

theorem ctz_zero_mod (k bits : Nat) {v : Nat} (h : v % 2 ^ k = 0) :
    ctz (bits + k) v = ctz bits (v / 2 ^ k) + k := by
  induction k generalizing v with
  | zero => simp
  | succ k ih =>
      have hodd : ¬ v % 2 = 1 := by
        rw [Nat.pow_succ', Nat.mod_mul] at h
        omega
      have hhalf : v / 2 % 2 ^ k = 0 := by
        rw [Nat.pow_succ', Nat.mod_mul] at h
        omega
      rw [← Nat.add_assoc, ctz, if_neg hodd, ih hhalf, Nat.div_div_eq_div_mul, ← Nat.pow_succ',
        Nat.add_assoc]

theorem ctz_lt (k bits : Nat) {v : Nat} (h : v % 2 ^ k ≠ 0) : ctz (bits + k) v < k := by
  induction k generalizing v with
  | zero => exact absurd (Nat.mod_one v) h
  | succ k ih =>
      rw [← Nat.add_assoc, ctz]
      split
      next => exact Nat.succ_pos k
      next heven =>
        refine Nat.succ_lt_succ (ih fun hhalf => h ?_)
        rw [Nat.pow_succ', Nat.mod_mul, hhalf]
        omega

/-- The trailing zeros of the difference of two words say how many bytes of them
are the same. -/
theorem ctz_xor : ∀ {xs ys : List UInt8}, xs.length = ys.length → readLe xs ≠ readLe ys →
    ∃ c, c < xs.length ∧ ctz (8 * xs.length) (readLe xs ^^^ readLe ys) / 8 = c ∧
      (∀ i, i < c → xs[i]? = ys[i]?) ∧ xs[c]? ≠ ys[c]?
  | [], [], _, h => absurd rfl h
  | x :: xs, y :: ys, hlen, h => by
      have hx : x.toNat < 256 := x.toNat_lt
      have hy : y.toNat < 256 := y.toNat_lt
      have hmod : (readLe (x :: xs) ^^^ readLe (y :: ys)) % 2 ^ 8 = x.toNat ^^^ y.toNat := by
        rw [Nat.xor_mod_two_pow, readLe, readLe]
        congr 1 <;> omega
      have hdiv : (readLe (x :: xs) ^^^ readLe (y :: ys)) / 2 ^ 8 = readLe xs ^^^ readLe ys := by
        rw [Nat.xor_div_two_pow, readLe, readLe]
        congr 1 <;> omega
      have hbits : 8 * (x :: xs).length = 8 * xs.length + 8 := by
        rw [List.length_cons]
        omega
      rw [hbits]
      by_cases hxy : x = y
      · subst hxy
        have hne : readLe xs ≠ readLe ys := by
          intro heq
          exact h (by rw [readLe, readLe, heq])
        obtain ⟨c, hc, hctz, hsame, hdiff⟩ := ctz_xor (Nat.succ_inj.mp hlen) hne
        refine ⟨c + 1, Nat.succ_lt_succ hc, ?_, ?_, ?_⟩
        · rw [ctz_zero_mod 8 _ (by rw [hmod, Nat.xor_self]), hdiv]
          omega
        · intro i hi
          cases i with
          | zero => rfl
          | succ i => exact hsame i (Nat.lt_of_succ_lt_succ hi)
        · exact hdiff
      · have hne : x.toNat ^^^ y.toNat ≠ 0 := by
          intro h0
          exact hxy (UInt8.toNat_inj.mp (Nat.xor_eq_zero_iff.mp h0))
        have hlt := ctz_lt 8 (8 * xs.length) (by rw [hmod]; exact hne)
        refine ⟨0, Nat.succ_pos _, by omega, fun i hi => absurd hi (Nat.not_lt_zero i), ?_⟩
        simpa using hxy

section

variable {src : List UInt8} {p q limit : Nat}

theorem nbCommonBytes_read {n : Nat} (hp : p + 8 ≤ src.length) (hq : q + 8 ≤ src.length)
    (h : ¬ Same src p q 8) :
    nbCommonBytes (readLe ((src.drop q).take 8) ^^^ readLe ((src.drop p).take 8)) =
      commonBytes src (8 + n) p q := by
  have hlp := length_take_drop hp
  have hlq := length_take_drop hq
  have hne : readLe ((src.drop q).take 8) ≠ readLe ((src.drop p).take 8) := by
    intro heq
    exact h ((readLe_eq_iff hp hq).mp heq.symm)
  have hget : ∀ r i, i < 8 → ((src.drop r).take 8)[i]? = src[r + i]? := by
    intro r i hi
    rw [List.getElem?_take_of_lt hi, List.getElem?_drop]
  obtain ⟨c, hc, hctz, hsame, hdiff⟩ := ctz_xor (hlq.trans hlp.symm) hne
  rw [hlq] at hc hctz
  have hcommon : Same src p q c := fun i hi => by
    rw [← hget p i (by omega), ← hget q i (by omega)]
    exact (hsame i hi).symm
  rw [nbCommonBytes, hctz]
  apply Nat.le_antisymm
  · exact le_commonBytes_iff.mpr ⟨by omega, hcommon⟩
  · by_contra hlt
    have hsucc := (le_commonBytes_iff.mp (Nat.lt_of_not_le hlt)).2 c (Nat.lt_succ_self c)
    rw [← hget p c hc, ← hget q c hc] at hsucc
    exact hdiff hsucc.symm

/-- The loop over words stops at the first two that differ, or before the last
seven bytes. -/
theorem countWords_spec (hqp : q ≤ p) (hp : p ≤ limit) (hlimit : limit ≤ src.length) {fuel : Nat}
    (hfuel : limit - p < fuel) :
    (∃ q', countWords src limit fuel p q =
        some (true, p + commonBytes src (limit - p) p q, q')) ∨
      ∃ k, countWords src limit fuel p q = some (false, p + k, q + k) ∧ Same src p q k ∧
        p + k ≤ limit ∧ limit ≤ p + k + 7 := by
  induction fuel generalizing p q with
  | zero => exact absurd hfuel (Nat.not_lt_zero _)
  | succ fuel ih =>
      rw [countWords]
      split
      next hroom =>
        have hp8 : p + 8 ≤ src.length := by omega
        have hq8 : q + 8 ≤ src.length := by omega
        have hrest : limit - p = 8 + (limit - (p + 8)) := by omega
        rw [read_eq hp8, read_eq hq8]
        dsimp only [Option.bind_eq_bind, Option.bind_some]
        by_cases hsame : Same src p q 8
        · have hwords := (readLe_eq_iff hp8 hq8).mpr hsame
          rw [if_pos (Nat.xor_eq_zero_iff.mpr hwords.symm), hrest, commonBytes_add hsame]
          rcases ih (p := p + 8) (q := q + 8) (by omega) (by omega) (by omega) with
            ⟨q', heq⟩ | ⟨k, heq, hk, hle, hge⟩
          · refine .inl ⟨q', ?_⟩
            rw [heq, Nat.add_assoc]
          · refine .inr ⟨8 + k, ?_, same_add.mpr ⟨hsame, hk⟩, by omega, by omega⟩
            rw [heq, Nat.add_assoc, Nat.add_assoc]
        · have hwords : readLe ((src.drop q).take 8) ^^^ readLe ((src.drop p).take 8) ≠ 0 := by
            intro hzero
            exact hsame ((readLe_eq_iff hp8 hq8).mp (Nat.xor_eq_zero_iff.mp hzero).symm)
          rw [if_neg hwords, hrest, nbCommonBytes_read hp8 hq8 hsame]
          exact .inl ⟨q, rfl⟩
      next hroom =>
        refine .inr ⟨0, rfl, fun i hi => absurd hi (Nat.not_lt_zero i), hp, by omega⟩

/-- A comparison of `n` bytes leaves fewer than `n` bytes that are the same, if
there were fewer than twice as many. -/
theorem countRest_spec (hqp : q ≤ p) (hp : p ≤ limit) (hlimit : limit ≤ src.length) {n : Nat}
    (hn : 0 < n) (hlt : commonBytes src (limit - p) p q < 2 * n) :
    ∃ k, countRest src limit n (p, q) = some (p + k, q + k) ∧ p + k ≤ limit ∧
      commonBytes src (limit - p) p q = k + commonBytes src (limit - (p + k)) (p + k) (q + k) ∧
      commonBytes src (limit - (p + k)) (p + k) (q + k) < n := by
  rw [countRest]
  dsimp only
  split
  next hroom =>
    have hpn : p + n ≤ src.length := by omega
    have hqn : q + n ≤ src.length := by omega
    rw [read_eq hpn, read_eq hqn]
    dsimp only [Option.bind_eq_bind, Option.bind_some]
    by_cases hsame : Same src p q n
    · have hrest : limit - p = n + (limit - (p + n)) := by omega
      rw [if_pos ((readLe_eq_iff hpn hqn).mpr hsame).symm]
      rw [hrest, commonBytes_add hsame] at hlt ⊢
      exact ⟨n, rfl, by omega, rfl, by omega⟩
    · rw [if_neg (fun heq => hsame ((readLe_eq_iff hpn hqn).mp heq.symm))]
      refine ⟨0, rfl, hp, (Nat.zero_add _).symm, ?_⟩
      by_contra hge
      exact hsame (le_commonBytes_iff.mp (Nat.le_of_not_lt hge)).2
  next hroom =>
    refine ⟨0, rfl, hp, (Nat.zero_add _).symm, ?_⟩
    show commonBytes src (limit - p) p q < n
    refine Nat.lt_of_le_of_lt commonBytes_le ?_
    omega

/-- `LZ4_count` counts the bytes that are the same up to its limit. -/
theorem count_eq_commonBytes (src : List UInt8) (pIn pMatch pInLimit : Nat) (hqp : pMatch ≤ pIn)
    (hp : pIn ≤ pInLimit) (hlimit : pInLimit ≤ src.length) :
    count src pIn pMatch pInLimit =
      some (commonBytes src (pInLimit - pIn) pIn pMatch % 2 ^ 32) := by
  rw [count]
  rcases countWords_spec hqp hp hlimit
    (Nat.lt_succ_of_le (Nat.le_trans (Nat.sub_le ..) hlimit)) with
    ⟨q', heq⟩ | ⟨k, heq, hk, hle, hge⟩
  · rw [heq]
    simp
  · have hrest : pInLimit - pIn = k + (pInLimit - (pIn + k)) := by omega
    have hcount : commonBytes src (pInLimit - (pIn + k)) (pIn + k) (pMatch + k) < 2 * 4 := by
      refine Nat.lt_of_le_of_lt commonBytes_le ?_
      omega
    rw [heq, hrest, commonBytes_add hk]
    obtain ⟨k₄, h₄, hle₄, hsum₄, hlt₄⟩ := countRest_spec (by omega) hle hlimit (by decide) hcount
    obtain ⟨k₂, h₂, hle₂, hsum₂, hlt₂⟩ :=
      countRest_spec (n := 2) (q := pMatch + k + k₄) (by omega) hle₄ hlimit (by decide) (by omega)
    obtain ⟨k₁, h₁, hle₁, hsum₁, hlt₁⟩ :=
      countRest_spec (n := 1) (q := pMatch + k + k₄ + k₂) (by omega) hle₂ hlimit (by decide)
        (by omega)
    dsimp only [Option.bind_eq_bind, Option.bind_some]
    rw [if_neg Bool.false_ne_true, h₄, Option.bind_some, h₂, Option.bind_some, h₁,
      Option.bind_some, hsum₄, hsum₂, hsum₁, Option.some_inj]
    congr 1
    omega

/-- `LZ4_count` finds the longest repetition up to its limit, and reads nothing
behind the limit.  The length is cut off to an `unsigned`, which a source that
`LZ4_compress_fast` accepts does not need. -/
theorem count_longest (src : List UInt8) (pIn pMatch pInLimit : Nat) (hqp : pMatch ≤ pIn)
    (hp : pIn ≤ pInLimit) (hlimit : pInLimit ≤ src.length) :
    ∃ n, count (src.take pInLimit) pIn pMatch pInLimit = some (n % 2 ^ 32) ∧
      ∀ k, k ≤ n ↔ k ≤ pInLimit - pIn ∧ Same src pIn pMatch k := by
  have hlength : (src.take pInLimit).length = pInLimit := by
    rw [List.length_take, Nat.min_eq_left hlimit]
  refine ⟨_, count_eq_commonBytes _ _ _ _ hqp hp (Nat.le_of_eq hlength.symm), fun k => ?_⟩
  rw [le_commonBytes_iff]
  refine and_congr_right fun hk => forall₂_congr fun i hi => ?_
  rw [List.getElem?_take_of_lt (by omega), List.getElem?_take_of_lt (by omega)]

/-- The bytes at 2 repeat those at 0 for five bytes. -/
theorem count_longest_five :
    ∃ n, count (([1, 2, 1, 2, 1, 2, 1, 9] : List UInt8).take 8) 2 0 8 = some (n % 2 ^ 32) ∧
      ∀ k, k ≤ n ↔ k ≤ 8 - 2 ∧ Same [1, 2, 1, 2, 1, 2, 1, 9] 2 0 k :=
  count_longest [1, 2, 1, 2, 1, 2, 1, 9] 2 0 8 (by decide) (by decide) (by decide)

end

end Compressor

end Coldtrace
