import Mathlib.Algebra.GroupWithZero.Nat
import Mathlib.Tactic.Common

/-!
# The index set of the checker

The model of `indexes_checker.c`.  A set of indexes is an array of flags that
grows by doubling, with the largest index beside it.  The checker of the tests
has one for alloc indexes and one for atomic indexes.  At the end it looks for
an index that is missing below the largest.

`content` is `none` for `NULL`.  A read outside the array is undefined in C and
is `none` here.  The loop that doubles the capacity is over after 64 rounds,
for the capacity is a `size_t`, or it never ends.
-/

namespace Coldtrace

/-! ## The set -/

/-- `struct index_set`. -/
structure IndexSet where
  maxIdx : Nat := 0
  capacity : Nat := 0
  content : Option (List Bool) := none
deriving DecidableEq, Repr

/-- `INVALID_INDEX`, which is `UINT64_MAX`. -/
def invalidIndex : Nat := 2 ^ 64 - 1

namespace IndexSet

/-- `set_max_idx`. -/
def setMaxIdx (set : IndexSet) (idx : Nat) : IndexSet :=
  if idx > set.maxIdx then { set with maxIdx := idx } else set

/-- `destroy`. -/
def destroy (set : IndexSet) : IndexSet :=
  { set with content := none, capacity := 0, maxIdx := 0 }

/-- `contains`. -/
def contains (set : IndexSet) (idx : Nat) : Option Bool :=
  match set.content with
  | some content => content[idx]?
  | none => none

/-- The loop `while (idx >= new_capacity) new_capacity *= 2`. -/
def doubled (idx : Nat) : Nat → Nat → Option Nat
  | 0, _ => none
  | fuel + 1, capacity =>
      if idx ≥ capacity then doubled idx fuel (capacity * 2 % 2 ^ 64) else some capacity

/-- The block `insert` fills when the set has to grow.  What `mempool_alloc`
returns is not specified before it is written. -/
def grownBlock (set : IndexSet) (newCapacity : Nat) : List Bool :=
  (match set.content with
    | some content => content.take set.capacity
    | none => List.replicate set.capacity false) ++
  List.replicate (newCapacity - set.capacity) false

/-- The end of `insert`: `set->content[idx] = true` and `set_max_idx`. -/
def mark (set : IndexSet) (idx : Nat) : IndexSet :=
  let set := { set with content := set.content.map fun (flags : List Bool) => flags.set idx true }
  set.setMaxIdx idx

/-- `insert`, with the blocks that `mempool_alloc` has.  The result is `none`
where the loop does not end. -/
def insert (alloc : Nat → Bool) (set : IndexSet) (idx : Nat) : Option (Bool × IndexSet) :=
  if idx ≥ set.capacity then
    match doubled idx 64 (if set.capacity = 0 then 2 else set.capacity) with
    | none => none
    | some newCapacity =>
        if !alloc newCapacity then some (false, set)
        else
          let set :=
            { set with content := some (set.grownBlock newCapacity), capacity := newCapacity }
          some (true, set.mark idx)
  else some (true, set.mark idx)

/-- The loop of `check_not_seen_generic_indexes` from an index on. -/
def noneMissing (set : IndexSet) : Nat → Nat → Bool → Option Bool
  | 0, _, ret => some ret
  | n + 1, idx, ret => do
      let seen ← set.contains idx
      noneMissing set n (idx + 1) (if seen then ret else false)

/-- `check_not_seen_generic_indexes`. -/
def checkNotSeen (set : IndexSet) : Option (Bool × IndexSet) := do
  let ret ← set.noneMissing set.maxIdx 0 true
  some (ret, set.destroy)

/-- A sequence of insertions, and whether all of them succeed. -/
def addAll (alloc : Nat → Bool) : IndexSet → List Nat → Option (Bool × IndexSet)
  | set, [] => some (true, set)
  | set, idx :: is => do
      let (ok, set) ← set.insert alloc idx
      let (oks, set) ← addAll alloc set is
      some (ok && oks, set)

/-- The set after a sequence of insertions. -/
def insertAll (alloc : Nat → Bool) (set : IndexSet) (is : List Nat) : Option IndexSet :=
  (set.addAll alloc is).map Prod.snd

end IndexSet

/-- `check_ascending_generic`: the result, and `*prev` and the set after it. -/
def checkAscending (alloc : Nat → Bool) (prev idx : Nat) (set : IndexSet) :
    Option (Bool × Nat × IndexSet) :=
  if idx = invalidIndex then some (true, prev, set)
  else if prev ≠ invalidIndex ∧ idx ≤ prev then some (false, prev, set)
  else
    match set.insert alloc idx with
    | some (ok, set) => some (ok, idx, set)
    | none => none

/-! ## Growing -/

namespace IndexSet

/-- The loop ends with a power of two above the index. -/
theorem doubled_spec {idx : Nat} (hidx : idx < 2 ^ 63) : ∀ (fuel k : Nat), 64 ≤ k + fuel → k ≤ 63 →
    ∃ m, k ≤ m ∧ m ≤ 63 ∧ idx < 2 ^ m ∧ doubled idx fuel (2 ^ k) = some (2 ^ m)
  | 0, k, hk, hle => by omega
  | fuel + 1, k, hk, hle => by
      rw [doubled]
      split
      next hge =>
        have hlt : k < 63 := by
          by_contra hnot
          have : k = 63 := by omega
          subst this
          omega
        have hpow : 2 ^ k * 2 % 2 ^ 64 = 2 ^ (k + 1) := by
          rw [← Nat.pow_succ]
          exact Nat.mod_eq_of_lt (Nat.pow_lt_pow_right (by decide) (by omega))
        rw [hpow]
        obtain ⟨m, hkm, hm, hi, heq⟩ := doubled_spec hidx fuel (k + 1) (by omega) (by omega)
        exact ⟨m, by omega, hm, hi, heq⟩
      next hlt => exact ⟨k, Nat.le_refl _, hle, by omega, rfl⟩

/-- The set holds the indexes of a list.  There is no array before the first
index, and then it has a power of two of flags. -/
inductive Holds : List Nat → IndexSet → Prop where
  | empty : Holds [] {}
  | full {is : List Nat} {content : List Bool} {m max : Nat} : 1 ≤ m → m ≤ 63 →
      content.length = 2 ^ m → (∀ i, content[i]? = some true ↔ i ∈ is) → max ∈ is →
      (∀ i ∈ is, i ≤ max) → Holds is ⟨max, 2 ^ m, some content⟩

/-- The set with a flag raised that its array has room for. -/
theorem holds_mark {is : List Nat} {content : List Bool} {m max idx : Nat} (hm : 1 ≤ m)
    (hm' : m ≤ 63) (hlen : content.length = 2 ^ m) (hidx : idx < 2 ^ m)
    (hcontent : ∀ i, content[i]? = some true ↔ i ∈ is) (hmax : is ≠ [] → max ∈ is)
    (hzero : is = [] → max = 0) (hle : ∀ i ∈ is, i ≤ max) :
    Holds (is ++ [idx]) (mark ⟨max, 2 ^ m, some content⟩ idx) := by
  have hset : ∀ i, (content.set idx true)[i]? = some true ↔ i ∈ is ++ [idx] := by
    intro i
    rw [List.mem_append, List.mem_singleton, ← hcontent, List.getElem?_set]
    split
    next heq =>
      subst heq
      simp [hlen, hidx]
    next hne => simp [Ne.symm hne]
  rw [mark, setMaxIdx]
  split
  next hgt =>
    refine .full hm hm' (by simpa using hlen) hset (by simp) fun i hi => ?_
    rw [List.mem_append, List.mem_singleton] at hi
    rcases hi with hi | rfl
    · exact Nat.le_of_lt (Nat.lt_of_le_of_lt (hle i hi) hgt)
    · exact Nat.le_refl _
  next hle' =>
    have hle' : idx ≤ max := Nat.le_of_not_gt hle'
    refine .full hm hm' (by simpa using hlen) hset ?_ fun i hi => ?_
    · by_cases hnil : is = []
      · have : idx = max := by
          rw [hzero hnil] at hle' ⊢
          exact Nat.le_zero.mp hle'
        simp [this]
      · exact List.mem_append_left _ (hmax hnil)
    · rw [List.mem_append, List.mem_singleton] at hi
      rcases hi with hi | rfl
      · exact hle i hi
      · exact hle'

/-- Every capacity is at most an index above all of them, and the loop does not
end. -/
theorem doubled_none {idx : Nat} (hidx : 2 ^ 63 ≤ idx) : ∀ (fuel capacity : Nat),
    (capacity = 0 ∨ ∃ k ≤ 63, capacity = 2 ^ k) → doubled idx fuel capacity = none := by
  intro fuel
  induction fuel with
  | zero => exact fun _ _ => rfl
  | succ fuel ih =>
      rintro capacity (rfl | ⟨k, hk, rfl⟩)
      · rw [doubled, if_pos (Nat.zero_le _)]
        exact ih _ (.inl rfl)
      · have hpow : 2 ^ k ≤ 2 ^ 63 := Nat.pow_le_pow_right (by decide) hk
        rw [doubled, if_pos (Nat.le_trans hpow hidx), ← Nat.pow_succ]
        rcases Nat.eq_or_lt_of_le hk with rfl | hlt
        · exact ih _ (.inl (by decide))
        · refine ih _ (.inr ⟨k + 1, hlt, Nat.mod_eq_of_lt ?_⟩)
          exact Nat.pow_lt_pow_right (by decide) (by omega)

/-- What an insertion can do to a set. -/
inductive Inserted (alloc : Nat → Bool) (is : List Nat) (set : IndexSet) (idx : Nat) :
    Option (Bool × IndexSet) → Prop where
  | endless : 2 ^ 63 ≤ idx → Inserted alloc is set idx none
  | refused {n : Nat} : idx < 2 ^ 63 → alloc n = false →
      Inserted alloc is set idx (some (false, set))
  | inserted {set' : IndexSet} : idx < 2 ^ 63 → Holds (is ++ [idx]) set' →
      Inserted alloc is set idx (some (true, set'))

theorem Holds.insert_spec {is : List Nat} {set : IndexSet} (h : Holds is set) (alloc : Nat → Bool)
    (idx : Nat) : Inserted alloc is set idx (set.insert alloc idx) := by
  rw [IndexSet.insert]
  cases h with
  | empty =>
      rw [if_pos (Nat.zero_le _), if_pos rfl, show (2 : Nat) = 2 ^ 1 from rfl]
      by_cases hidx : idx < 2 ^ 63
      · obtain ⟨m, hm, hm', hlt, hdoubled⟩ := doubled_spec hidx 64 1 (by decide) (by decide)
        have hgrown : grownBlock {} (2 ^ m) = List.replicate (2 ^ m) false := rfl
        rw [hdoubled]
        dsimp only
        split
        next hno => exact .refused hidx (by simpa using hno)
        next =>
          rw [hgrown]
          refine .inserted hidx (holds_mark hm hm' List.length_replicate hlt (fun i => ?_)
            (fun h => absurd rfl h) (fun _ => rfl) (fun i hi => by cases hi))
          simp [List.getElem?_replicate]
      · rw [doubled_none (Nat.le_of_not_lt hidx) _ _ (.inr ⟨1, by decide, rfl⟩)]
        exact .endless (Nat.le_of_not_lt hidx)
  | @full _ content m max hm hm' hlen hcontent hmax hle =>
      have hnil : is ≠ [] := List.ne_nil_of_mem hmax
      have hstart : (if 2 ^ m = 0 then 2 else 2 ^ m) = 2 ^ m :=
        if_neg (Nat.ne_of_gt (Nat.two_pow_pos m))
      split
      next hge =>
        simp only [hstart]
        by_cases hidx : idx < 2 ^ 63
        · obtain ⟨m₁, hm₁, hm₁', hlt, hdoubled⟩ := doubled_spec hidx 64 m (by omega) hm'
          have hpow : 2 ^ m ≤ 2 ^ m₁ := Nat.pow_le_pow_right (by decide) hm₁
          have hgrown : grownBlock ⟨max, 2 ^ m, some content⟩ (2 ^ m₁) =
              content ++ List.replicate (2 ^ m₁ - 2 ^ m) false := by
            show content.take (2 ^ m) ++ _ = _
            rw [← hlen, List.take_length]
          rw [hdoubled]
          dsimp only
          split
          next hno => exact .refused hidx (by simpa using hno)
          next =>
            rw [hgrown]
            refine .inserted hidx (holds_mark (by omega) hm₁' ?_ hlt (fun i => ?_) (fun _ => hmax)
              (fun h => absurd h hnil) hle)
            · rw [List.length_append, List.length_replicate, hlen]
              omega
            · rw [← hcontent, List.getElem?_append]
              split
              next => rfl
              next hi =>
                rw [List.getElem?_eq_none (Nat.le_of_not_lt hi)]
                simp [List.getElem?_replicate]
        · rw [doubled_none (Nat.le_of_not_lt hidx) _ _ (.inr ⟨m, hm', rfl⟩)]
          exact .endless (Nat.le_of_not_lt hidx)
      next hlt =>
        have hlt : idx < 2 ^ m := Nat.lt_of_not_le hlt
        have hpow : 2 ^ m ≤ 2 ^ 63 := Nat.pow_le_pow_right (by decide) hm'
        exact .inserted (Nat.lt_of_lt_of_le hlt hpow)
          (holds_mark hm hm' hlen hlt hcontent (fun _ => hmax) (fun h => absurd h hnil) hle)

theorem Holds.insert {is : List Nat} {set : IndexSet} (h : Holds is set) {alloc : Nat → Bool}
    (halloc : ∀ n, alloc n = true) {idx : Nat} (hidx : idx < 2 ^ 63) :
    ∃ set', set.insert alloc idx = some (true, set') ∧ Holds (is ++ [idx]) set' := by
  have hspec := h.insert_spec alloc idx
  generalize set.insert alloc idx = result at hspec
  cases hspec with
  | endless hge => exact absurd hidx (Nat.not_lt.mpr hge)
  | refused _ hno => cases (halloc _).symm.trans hno
  | inserted _ hholds => exact ⟨_, rfl, hholds⟩

/-! ## The scan -/

/-- The scan of the flags stays inside the array. -/
theorem noneMissing_spec {max cap : Nat} {content : List Bool} : ∀ (n idx : Nat) (ret : Bool),
    idx + n ≤ content.length →
    ∃ b, noneMissing ⟨max, cap, some content⟩ n idx ret = some b ∧
      (b = true ↔ ret = true ∧ ∀ i, idx ≤ i → i < idx + n → content[i]? = some true)
  | 0, idx, ret, _ => by
      refine ⟨ret, rfl, fun hret => ⟨hret, fun i hle hlt => ?_⟩, And.left⟩
      omega
  | n + 1, idx, ret, h => by
      have hin : idx < content.length := by omega
      have hnext : idx + 1 + n ≤ content.length := by omega
      obtain ⟨b, hb, hiff⟩ := noneMissing_spec n (idx + 1) (if content[idx] then ret else false)
        hnext
      refine ⟨b, ?_, hiff.trans ?_⟩
      · rw [noneMissing, contains]
        simp only [List.getElem?_eq_getElem hin]
        exact hb
      · constructor
        · rintro ⟨hret, hall⟩
          obtain ⟨hseen, hret⟩ : content[idx] = true ∧ ret = true := by
            simpa using hret
          refine ⟨hret, fun i hle hlt => ?_⟩
          rcases Nat.eq_or_lt_of_le hle with rfl | hgt
          · rw [List.getElem?_eq_getElem hin, hseen]
          · exact hall i hgt (by omega)
        · rintro ⟨hret, hall⟩
          have hseen := hall idx (Nat.le_refl _) (by omega)
          rw [List.getElem?_eq_getElem hin, Option.some.injEq] at hseen
          exact ⟨by rw [hseen, hret]; rfl, fun i hle hlt => hall i (by omega) (by omega)⟩

theorem addAll_cons (alloc : Nat → Bool) (set : IndexSet) (idx : Nat) (is : List Nat) :
    set.addAll alloc (idx :: is) =
      (set.insert alloc idx).bind fun p =>
        (p.2.addAll alloc is).map fun q => (p.1 && q.1, q.2) := by
  rw [addAll]
  cases set.insert alloc idx with
  | none => rfl
  | some p => cases h : p.2.addAll alloc is <;> simp [h]

/-- Where all allocations succeed, all insertions do. -/
theorem Holds.addAll_of_lt {is is' : List Nat} {set : IndexSet} (h : Holds is set)
    {alloc : Nat → Bool} (halloc : ∀ n, alloc n = true) (hbelow : ∀ i ∈ is', i < 2 ^ 63) :
    ∃ set', set.addAll alloc is' = some (true, set') ∧ Holds (is ++ is') set' := by
  induction is' generalizing is set with
  | nil => exact ⟨set, rfl, by rw [List.append_nil]; exact h⟩
  | cons idx is' ih =>
      rw [List.forall_mem_cons] at hbelow
      obtain ⟨set₁, hins, h₁⟩ := h.insert halloc hbelow.1
      obtain ⟨set₂, hall, h₂⟩ := ih h₁ hbelow.2
      refine ⟨set₂, ?_, ?_⟩
      · rw [addAll_cons, hins, Option.bind_some, hall]
        rfl
      · rw [List.append_assoc] at h₂
        exact h₂

/-- `max_idx` is the largest index of the list, inside an array that has
`capacity` flags. -/
structure MaxOf (is : List Nat) (set : IndexSet) : Prop where
  mem : set.maxIdx ∈ is
  le : ∀ i ∈ is, i ≤ set.maxIdx
  lt : set.maxIdx < set.capacity
  length : set.content.map List.length = some set.capacity

/-- The final scan of a set that holds the indexes of a list. -/
theorem Holds.checkNotSeen {is : List Nat} {set : IndexSet} (h : Holds is set) :
    ∃ b, set.checkNotSeen = some (b, {}) ∧
      (b = true ↔ is = [] ∨ ∀ i, i ∈ is ↔ i ≤ set.maxIdx) := by
  cases h with
  | empty => exact ⟨true, rfl, by simp⟩
  | @full _ content m max hm hm' hlen hcontent hmax hle =>
      have hlt : max < content.length := (List.getElem?_eq_some_iff.mp ((hcontent max).mpr hmax)).1
      obtain ⟨b, hb, hiff⟩ : ∃ b, noneMissing ⟨max, 2 ^ m, some content⟩ max 0 true = some b ∧
          (b = true ↔ true = true ∧ ∀ i, 0 ≤ i → i < 0 + max → content[i]? = some true) :=
        noneMissing_spec max 0 true (by omega)
      refine ⟨b, ?_, hiff.trans ?_⟩
      · rw [IndexSet.checkNotSeen, hb]
        rfl
      · constructor
        · rintro ⟨-, hall⟩
          refine .inr fun i => ⟨hle i, fun (hi : i ≤ max) => ?_⟩
          rcases Nat.eq_or_lt_of_le hi with rfl | hlt'
          · exact hmax
          · exact (hcontent i).mp (hall i (Nat.zero_le _) (by omega))
        · rintro (hnil | hall)
          · exact absurd hmax (by simp [hnil])
          · refine ⟨rfl, fun i _ hi => (hcontent i).mpr ((hall i).mpr ?_)⟩
            show i ≤ max
            omega

end IndexSet

/-- Whatever indexes are inserted in whatever order, every insertion ends, the
flags are those of the indexes, and the final scan stays inside the array, finds
whether the indexes are an initial segment and leaves an empty set. -/
theorem index_set_decides (alloc : Nat → Bool) (halloc : ∀ n, alloc n = true) (is : List Nat)
    (hbelow : ∀ i ∈ is, i < 2 ^ 63) :
    ∃ set, IndexSet.insertAll alloc {} is = some set ∧
      (∀ i, set.contains i = some true ↔ i ∈ is) ∧ (is ≠ [] → set.MaxOf is) ∧
      ∃ b, set.checkNotSeen = some (b, {}) ∧
        (b = true ↔ is = [] ∨ ∀ i, i ∈ is ↔ i ≤ set.maxIdx) := by
  obtain ⟨set, hall, hholds⟩ := IndexSet.Holds.empty.addAll_of_lt halloc hbelow
  rw [List.nil_append] at hholds
  refine ⟨set, by rw [IndexSet.insertAll, hall]; rfl, ?_, ?_, hholds.checkNotSeen⟩
  · intro i
    cases hholds with
    | empty => simp [IndexSet.contains]
    | full _ _ _ hcontent => exact hcontent i
  · intro hne
    cases hholds with
    | empty => exact absurd rfl hne
    | @full _ content m max _ _ hlen hcontent hmax hle =>
        have hlt := (List.getElem?_eq_some_iff.mp ((hcontent max).mpr hmax)).1
        exact ⟨hmax, hle, hlen ▸ hlt, congrArg some hlen⟩

/-- Indexes out of order, over two growths of the array. -/
theorem index_set_decides_unordered :
    ∃ set, IndexSet.insertAll (fun _ => true) {} [3, 0, 1, 4, 2] = some set ∧ set.capacity = 8 ∧
      ∃ b, set.checkNotSeen = some (b, {}) ∧ b = true := by
  obtain ⟨set, hall, -, hmax, b, hcheck, hb⟩ := index_set_decides (fun _ => true) (fun _ => rfl)
    [3, 0, 1, 4, 2] (by decide)
  have hset : IndexSet.insertAll (fun _ => true) {} [3, 0, 1, 4, 2] =
      some ⟨4, 8, some [true, true, true, true, true, false, false, false]⟩ := by decide
  cases hset.symm.trans hall
  refine ⟨_, hall, rfl, b, hcheck, hb.mpr (.inr fun i => ?_)⟩
  simp
  omega

end Coldtrace
