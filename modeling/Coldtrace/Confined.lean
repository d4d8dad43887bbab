import Mathlib.Data.Nat.Bitwise
import Mathlib.Tactic.Common
import Coldtrace.Lib.Bytes
import Coldtrace.Entries
import Coldtrace.Writer
import Coldtrace.Walker

/-!
# Where the walk stays inside its page

`iter_next` and `iter_advance` take the size of a record from the record.  They
do not compare it with what is left of the page: `iter_advance` writes a line to
the log where it is larger, and subtracts all the same.  Then the remaining
size wraps and the walk goes on behind the page.  The words of a stack diff are
read without a look at the remaining size as well.

So the walk stays inside exactly the pages that are whole records up to a rest
that stops it (`walk_confined_iff`).
-/

namespace Coldtrace

open Bytes

/-! ## Pages that stop the walk -/

/-- The length that the record at the start of the bytes has, by its type and its
stack diff.  The number of frames is a difference of 32-bit words. -/
inductive HasLength : List UInt8 → Nat → Prop where
  | plain {b : UInt8} {bs : List UInt8} {t : EntryType} : entryType? b = some t →
      t.hasStack = false → HasLength (b :: bs) t.space
  | stack {b : UInt8} {bs : List UInt8} {t : EntryType} {popped depth : Nat} :
      entryType? b = some t → t.hasStack = true →
      unpackFrom [4, 4] (b :: bs) (8 * (t.arity + 1)) = some [popped, depth] →
      HasLength (b :: bs) (t.space + 8 * (UInt32.ofNat depth - UInt32.ofNat popped).toNat)

/-- The bytes are whole records, and then fewer than a word or a byte that is no
type. -/
inductive Walkable : List UInt8 → Prop where
  | short {bs : List UInt8} : bs.length < 8 → Walkable bs
  | unknown {b : UInt8} {bs : List UInt8} : entryType? b = none → Walkable (b :: bs)
  | record {bs : List UInt8} {n : Nat} : HasLength bs n → n ≤ bs.length → Walkable (bs.drop n) →
      Walkable bs

/-- The record at an offset, with the words that its size is read from, is inside
the page. -/
def Inside (page : List UInt8) (offset : Nat) : Prop :=
  ∃ size, entryGetSize page offset = some size ∧ offset + size.toNat ≤ page.length

/-- The walk over a page ends, and every record it visits is inside the page, with
the words that its size is read from. -/
def Confined (page : List UInt8) : Prop :=
  ∃ fuel offsets last, walk page fuel (iterInit (UInt64.ofNat page.length)) = some (offsets, last) ∧
    ∀ offset ∈ offsets, Inside page offset

theorem HasLength.unique {bs : List UInt8} {n m : Nat} (h : HasLength bs n) (h' : HasLength bs m) :
    n = m := by
  cases h with
  | plain ht hs =>
      cases h' with
      | plain ht' _ =>
          cases ht.symm.trans ht'
          rfl
      | stack ht' hs' _ =>
          cases ht.symm.trans ht'
          cases hs.symm.trans hs'
  | stack ht hs hdiff =>
      cases h' with
      | plain ht' hs' =>
          cases ht.symm.trans ht'
          cases hs.symm.trans hs'
      | stack ht' _ hdiff' =>
          cases ht.symm.trans ht'
          cases hdiff.symm.trans hdiff'
          rfl

theorem not_hasLength_of_unknown {b : UInt8} {bs : List UInt8} {n : Nat} (h : entryType? b = none) :
    ¬ HasLength (b :: bs) n := by
  intro hn
  cases hn with
  | plain ht => cases h.symm.trans ht
  | stack ht => cases h.symm.trans ht

theorem HasLength.eight_le {bs : List UInt8} {n : Nat} (h : HasLength bs n) : 8 ≤ n := by
  cases h with
  | @plain _ _ t => exact t.space_bounds.1
  | @stack _ _ t => exact Nat.le_add_right_of_le t.space_bounds.1

/-! ## The size of whatever is at an offset -/

theorem wordAt_zero {page bs : List UInt8} {offset : Nat} {b : UInt8}
    (h : page.drop offset = b :: bs) (hlen : 8 ≤ (b :: bs).length) :
    ∃ n, wordAt page offset 0 = some (UInt64.ofNat (b.toNat + 256 * n)) ∧
      b.toNat + 256 * n < 2 ^ 64 := by
  have hle : offset + 8 * 0 + [8].sum ≤ page.length := by
    rw [← h, List.length_drop] at hlen
    simp only [List.sum_cons, List.sum_nil]
    omega
  have hbound : readLe ((b :: bs).take 8) < 256 ^ 8 := by
    have := readLe_lt ((b :: bs).take 8)
    rw [List.length_take, Nat.min_eq_left hlen] at this
    exact this
  refine ⟨readLe (bs.take 7), ?_, hbound⟩
  rw [wordAt, unpackFrom, if_pos hle, Nat.mul_zero, Nat.add_zero, h]
  rfl

theorem and_zeroFlag (b : UInt8) :
    b.toNat &&& 0xFFFFFFFFFFFFFF7F = (b &&& ~~~zeroFlag).toNat := by
  have hb : b.toNat &&& 0xFF = b.toNat :=
    (Nat.and_two_pow_sub_one_eq_mod b.toNat 8).trans (Nat.mod_eq_of_lt b.toNat_lt)
  rw [UInt8.toNat_and, ← hb, Nat.and_assoc, Nat.and_assoc]
  rfl

/-- The type that the accessor finds is that of the first byte. -/
theorem entryParseType_eq {page bs : List UInt8} {offset : Nat} {b : UInt8}
    (h : page.drop offset = b :: bs) (hlen : 8 ≤ (b :: bs).length) :
    entryParseType page offset =
      some (match entryType? b with | some t => t.code | none => coldtraceEnd) := by
  obtain ⟨n, hword, hlt⟩ := wordAt_zero h hlen
  have hmask : (UInt64.ofNat (b.toNat + 256 * n) &&& typeMask &&& ~~~zeroFlag.toUInt64).toUInt8 =
      b &&& ~~~zeroFlag := by
    apply UInt8.toNat_inj.mp
    have hb := b.toNat_lt
    have hlow : b.toNat + 256 * n &&& 0xFF = b.toNat := by
      rw [show (0xFF : Nat) = 2 ^ 8 - 1 from rfl, Nat.and_two_pow_sub_one_eq_mod]
      omega
    rw [UInt64.toNat_toUInt8, UInt64.toNat_and, UInt64.toNat_and, UInt64.toNat_ofNat_of_lt' hlt]
    change (b.toNat + 256 * n &&& 0xFF &&& 0xFFFFFFFFFFFFFF7F) % 2 ^ 8 = _
    rw [hlow, and_zeroFlag]
    exact Nat.mod_eq_of_lt (UInt8.toNat_lt _)
  have htwice : b &&& ~~~zeroFlag &&& ~~~zeroFlag = b &&& ~~~zeroFlag := by
    rw [UInt8.and_assoc, UInt8.and_self]
  simp only [entryParseType, hword, Option.bind_eq_bind, Option.bind_some, hmask,
    isTypeValid, htwice]
  cases ht : entryType? b with
  | some t =>
      have hcode := code_of_entryTypes ht
      have heq : b &&& ~~~zeroFlag = t.code := UInt8.toNat_inj.mp hcode
      have hvalid : t.code < coldtraceEnd := UInt8.lt_iff_toNat_lt.mpr t.code_lt
      rw [heq, decide_eq_true hvalid, if_pos rfl]
  | none =>
      have hge : 25 ≤ (b &&& ~~~zeroFlag).toNat := List.getElem?_eq_none_iff.mp ht
      have hinvalid : ¬ (b &&& ~~~zeroFlag) < coldtraceEnd := fun hlt =>
        Nat.not_lt.mpr hge (UInt8.lt_iff_toNat_lt.mp hlt)
      rw [decide_eq_false hinvalid, if_neg (by decide)]

/-- What `coldtrace_entry_get_size` can do at an offset with a word left. -/
inductive Sized (bs : List UInt8) : Option UInt64 → Prop where
  | unknown {b : UInt8} {tail : List UInt8} : bs = b :: tail → entryType? b = none →
      Sized bs (some 0)
  /-- The stack diff is not in the page. -/
  | outside : ¬ Walkable bs → Sized bs none
  | sized {n : UInt64} : 8 ≤ n.toNat → HasLength bs n.toNat → Sized bs (some n)

theorem unpackFrom_drop (ws : List Nat) {page : List UInt8} {offset : Nat}
    (h : offset ≤ page.length) (k : Nat) :
    unpackFrom ws page (offset + k) = unpackFrom ws (page.drop offset) k := by
  have hiff : offset + k + ws.sum ≤ page.length ↔ k + ws.sum ≤ (page.drop offset).length := by
    rw [List.length_drop]
    omega
  rw [unpackFrom, unpackFrom, List.drop_drop]
  simp only [hiff]

/-- The words of a stack diff, or `none` where they are not in the bytes. -/
theorem unpackFrom_pair (bs : List UInt8) (k : Nat) :
    unpackFrom [4, 4] bs k = none ∨
      ∃ popped depth, unpackFrom [4, 4] bs k = some [popped, depth] := by
  rw [unpackFrom]
  split
  next => exact .inr ⟨_, _, rfl⟩
  next => exact .inl rfl

theorem entryGetSize_spec {page : List UInt8} {offset : Nat}
    (hlen : 8 ≤ (page.drop offset).length) :
    Sized (page.drop offset) (entryGetSize page offset) := by
  have hle : offset ≤ page.length := by
    rw [List.length_drop] at hlen
    omega
  have hdrop := unpackFrom_drop [4, 4] hle
  cases h : page.drop offset with
  | nil =>
      rw [h] at hlen
      exact absurd hlen (by decide)
  | cons b bs =>
      rw [h] at hlen hdrop
      have htype := entryParseType_eq h hlen
      cases ht : entryType? b with
      | none =>
          rw [ht] at htype
          have hzero : entryGetSize page offset = some 0 := by
            simp only [entryGetSize, htype, Option.bind_eq_bind, Option.bind_some]
            rfl
          rw [hzero]
          exact .unknown rfl ht
      | some t =>
          rw [ht] at htype
          have hspace := t.space_bounds
          have hfixed : (UInt64.ofNat t.space).toNat = t.space :=
            UInt64.toNat_ofNat_of_lt' (Nat.lt_of_le_of_lt hspace.2 (by decide))
          rw [entryGetSize_eq htype]
          split
          next hs =>
            rw [framesSizeAt, hdrop]
            rcases unpackFrom_pair (b :: bs) (8 * (t.arity + 1)) with hnone | ⟨popped, depth, hsome⟩
            · rw [hnone]
              refine .outside fun hwalkable => ?_
              cases hwalkable with
              | short hshort => exact absurd hlen (Nat.not_le.mpr hshort)
              | unknown hunknown => cases ht.symm.trans hunknown
              | record hn =>
                  cases hn with
                  | plain ht' hs' =>
                      cases ht.symm.trans ht'
                      cases hs.symm.trans hs'
                  | stack ht' _ hdiff =>
                      cases ht.symm.trans ht'
                      cases hnone.symm.trans hdiff
            · rw [hsome]
              have hlt := (UInt32.ofNat depth - UInt32.ofNat popped).toNat_lt
              have hn : (UInt64.ofNat t.space +
                  (UInt32.ofNat depth - UInt32.ofNat popped).toUInt64 * 8).toNat =
                  t.space + 8 * (UInt32.ofNat depth - UInt32.ofNat popped).toNat := by
                rw [UInt64.toNat_add, hfixed, UInt64.toNat_mul, UInt32.toNat_toUInt64]
                change (t.space + (UInt32.ofNat depth - UInt32.ofNat popped).toNat * 8 % 2 ^ 64) %
                  2 ^ 64 = _
                omega
              refine .sized ?_ ?_
              · rw [hn]
                omega
              · rw [hn]
                exact .stack ht hs hsome
          next hs =>
            refine .sized ?_ ?_
            · rw [hfixed]
              exact hspace.1
            · rw [hfixed]
              exact .plain ht (Bool.eq_false_iff.mpr hs)

/-! ## The walk -/

/-- What a round of the loop can do, with all of the page from the offset on
left. -/
inductive Round (page : List UInt8) (offset : Nat) (size : UInt64) : Prop where
  | ends : iterNext page ⟨offset, size⟩ = some false → Walkable (page.drop offset) →
      (∀ n, HasLength (page.drop offset) n → (page.drop offset).length < 8) → Round page offset size
  | outside : iterNext page ⟨offset, size⟩ = none → ¬ Walkable (page.drop offset) →
      Round page offset size
  | visits {n : UInt64} : iterNext page ⟨offset, size⟩ = some true →
      entryGetSize page offset = some n → 8 ≤ n.toNat → HasLength (page.drop offset) n.toNat →
      iterAdvance page ⟨offset, size⟩ = some ⟨offset + n.toNat, size - n⟩ → Round page offset size

theorem round_spec {page : List UInt8} {offset : Nat} {size : UInt64}
    (hsize : size.toNat = (page.drop offset).length) : Round page offset size := by
  by_cases hshort : size < 8
  · have hlt : (page.drop offset).length < 8 := by
      rw [← hsize]
      exact UInt64.lt_iff_toNat_lt.mp hshort
    exact .ends (by rw [iterNext, if_pos hshort]) (.short hlt) fun _ _ => hlt
  · have hlen : 8 ≤ (page.drop offset).length := by
      rw [← hsize]
      exact Nat.le_of_not_lt fun h => hshort (UInt64.lt_iff_toNat_lt.mpr h)
    have hspec := entryGetSize_spec hlen
    generalize hget : entryGetSize page offset = result at hspec
    cases hspec with
    | @unknown b tail hbs hnone =>
        refine .ends ?_ (hbs ▸ .unknown hnone) fun n hn => ?_
        · rw [iterNext, if_neg hshort, hget]
          rfl
        · rw [hbs] at hn
          exact absurd hn (not_hasLength_of_unknown hnone)
    | outside hno =>
        refine .outside ?_ hno
        rw [iterNext, if_neg hshort, hget]
        rfl
    | @sized n hmin hn =>
        have hpos : n > 0 := UInt64.lt_iff_toNat_lt.mpr (Nat.lt_of_lt_of_le (by decide) hmin)
        have hne : n ≠ 0 := by
          rintro rfl
          exact absurd hpos (by decide)
        refine .visits ?_ hget hmin hn ?_
        · rw [iterNext, if_neg hshort, hget]
          simp [hpos]
        · rw [iterAdvance, if_neg hshort, hget]
          simp [hne]

/-- What is left after a record inside the page. -/
theorem remaining_size {page : List UInt8} {offset : Nat} {size n : UInt64}
    (hsize : size.toNat = (page.drop offset).length) (hn : n.toNat ≤ (page.drop offset).length) :
    (size - n).toNat = (page.drop (offset + n.toNat)).length := by
  rw [UInt64.toNat_sub_of_le _ _ (UInt64.le_iff_toNat_le.mpr (by omega)), hsize, List.length_drop,
    List.length_drop]
  omega

theorem walkable_of_walk {page : List UInt8} (fuel : Nat) : ∀ {offset : Nat} {size : UInt64}
      {offsets : List Nat} {last : EntryIt},
    size.toNat = (page.drop offset).length →
    walk page fuel ⟨offset, size⟩ = some (offsets, last) → (∀ o ∈ offsets, Inside page o) →
    Walkable (page.drop offset) := by
  induction fuel with
  | zero => exact fun _ h => by cases h
  | succ fuel ih =>
      intro offset size offsets last hsize hwalk hinside
      rw [walk] at hwalk
      cases round_spec hsize with
      | ends _ hwalkable => exact hwalkable
      | outside hnone =>
          rw [hnone] at hwalk
          cases hwalk
      | @visits n hnext hget hmin hn hadv =>
          simp only [hnext, hadv, Option.bind_eq_bind, Option.bind_some, if_true] at hwalk
          obtain ⟨⟨offsets', last'⟩, hrest, heq⟩ := Option.bind_eq_some_iff.mp hwalk
          cases heq
          rw [List.forall_mem_cons] at hinside
          obtain ⟨⟨n', hget', hle⟩, hinside⟩ := hinside
          cases hget.symm.trans hget'
          have hle : n.toNat ≤ (page.drop offset).length := by
            rw [List.length_drop]
            omega
          refine .record hn hle ?_
          rw [List.drop_drop]
          exact ih (remaining_size hsize hle) hrest hinside

theorem walk_of_walkable {page bs : List UInt8} (h : Walkable bs) :
    ∀ {offset : Nat} {size : UInt64}, page.drop offset = bs → size.toNat = bs.length →
    ∃ fuel offsets last, walk page fuel ⟨offset, size⟩ = some (offsets, last) ∧
      ∀ o ∈ offsets, Inside page o := by
  have hstop : ∀ {offset : Nat} {size : UInt64}, iterNext page ⟨offset, size⟩ = some false →
      ∃ fuel offsets last, walk page fuel ⟨offset, size⟩ = some (offsets, last) ∧
        ∀ o ∈ offsets, Inside page o := by
    intro offset size hnext
    refine ⟨1, [], ⟨offset, size⟩, ?_, fun o ho => by cases ho⟩
    rw [walk, hnext]
    rfl
  induction h with
  | short hlt =>
      intro offset size hdrop hsize
      refine hstop ?_
      rw [iterNext, if_pos (UInt64.lt_iff_toNat_lt.mpr (by rw [hsize]; exact hlt))]
  | unknown hunknown =>
      intro offset size hdrop hsize
      rw [← hdrop] at hsize
      cases round_spec hsize with
      | ends hnext => exact hstop hnext
      | outside _ hno => exact absurd (hdrop ▸ .unknown hunknown) hno
      | visits _ _ _ hn =>
          rw [hdrop] at hn
          exact absurd hn (not_hasLength_of_unknown hunknown)
  | @record bs n hn hle hrest ih =>
      intro offset size hdrop hsize
      subst hdrop
      cases round_spec hsize with
      | ends _ _ hshort =>
          have hlt := hshort n hn
          have hmin := hn.eight_le
          omega
      | outside _ hno => exact absurd (.record hn hle hrest) hno
      | @visits n' hnext hget _ hn' hadv =>
          cases hn.unique hn'
          obtain ⟨fuel, offsets, last, hwalk, hinside⟩ := ih (List.drop_drop ..).symm
            ((remaining_size hsize hle).trans (by rw [List.drop_drop]))
          refine ⟨fuel + 1, offset :: offsets, last, ?_, List.forall_mem_cons.mpr ⟨?_, hinside⟩⟩
          · rw [walk, hnext, hadv]
            simp [hwalk]
          · rw [List.length_drop] at hle
            exact ⟨n', hget, by have := hn.eight_le; omega⟩

/-- The walk over a page ends and stays inside the page exactly where the page is
whole records and then fewer bytes than a word, or a byte that is no type. -/
theorem walk_confined_iff (page : List UInt8) (hheader : sizeofVersionHeader ≤ page.length)
    (hsize : page.length < 2 ^ 64) :
    Confined page ↔ Walkable (page.drop sizeofVersionHeader) := by
  have hleft : (UInt64.ofNat page.length - UInt64.ofNat sizeofVersionHeader).toNat =
      (page.drop sizeofVersionHeader).length := by
    have hnat : (UInt64.ofNat page.length).toNat = page.length := UInt64.toNat_ofNat_of_lt' hsize
    have height : (UInt64.ofNat sizeofVersionHeader).toNat = sizeofVersionHeader := rfl
    rw [UInt64.toNat_sub_of_le, hnat, height, List.length_drop]
    rw [UInt64.le_iff_toNat_le, hnat, height]
    exact hheader
  constructor
  · rintro ⟨fuel, offsets, last, hwalk, hinside⟩
    exact walkable_of_walk fuel hleft hwalk hinside
  · intro hwalkable
    exact walk_of_walkable hwalkable rfl hleft

/-- A marker, and then three bytes. -/
theorem walk_confined_marker :
    Confined (literalBuild.versionHeader ++ [24, 0, 0, 0, 0, 0, 0, 0, 1, 2, 3]) := by
  refine (walk_confined_iff _ (by decide +kernel) (by decide +kernel)).mpr ?_
  rw [List.drop_left' literalBuild.length_versionHeader]
  exact .record (.plain rfl rfl) (by decide) (.short (by decide))

/-- The first word of a `lock_acquire` record that has two.  The walk visits it,
and the size that is left wraps. -/
theorem walk_leaves_page :
    let page := literalBuild.versionHeader ++ [6, 0, 0, 0, 0, 0, 0, 0]
    iterNext page (iterInit 16) = some true ∧
      iterAdvance page (iterInit 16) = some ⟨24, 18446744073709551608⟩ ∧ ¬ Confined page := by
  refine ⟨by decide +kernel, by decide +kernel, ?_⟩
  rintro ⟨fuel, offsets, last, hwalk, hinside⟩
  have hwalkable := walkable_of_walk fuel (by decide +kernel) hwalk hinside
  rw [List.drop_left' literalBuild.length_versionHeader] at hwalkable
  cases hwalkable with
  | short hlt => exact absurd hlt (by decide)
  | unknown hunknown => cases hunknown
  | record hn hle =>
      cases hn.unique (.plain rfl rfl)
      exact absurd hle (by decide)

end Coldtrace
