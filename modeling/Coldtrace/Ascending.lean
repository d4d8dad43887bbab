import Mathlib.Algebra.GroupWithZero.Nat
import Mathlib.Data.List.Basic
import Mathlib.Tactic.Common
import Coldtrace.IndexSet

/-!
# Ascending indexes

The calls of `check_ascending_generic` for the records of a page, and for those
of several pages.  An index that is not above the previous one of its page is
reported and not inserted.  So where the calls for all pages return true, the
indexes of each page ascend, and the set holds all of them
(`checkPagesAscending_verdict`).

An index from `2 ^ 63` on, other than `INVALID_INDEX`, has no end: `insert` loops,
and no index before it can keep it from being inserted.
-/

namespace Coldtrace

/-! ## Insertions -/

namespace IndexSet

theorem addAll_append (alloc : Nat → Bool) (is js : List Nat) : ∀ set : IndexSet,
    set.addAll alloc (is ++ js) =
      (set.addAll alloc is).bind fun p =>
        (p.2.addAll alloc js).map fun q => (p.1 && q.1, q.2) := by
  induction is with
  | nil =>
      intro set
      cases h : set.addAll alloc js <;> simp [addAll, h]
  | cons idx is ih =>
      intro set
      rw [List.cons_append, addAll_cons, addAll_cons]
      cases set.insert alloc idx with
      | none => rfl
      | some p =>
          rw [Option.bind_some, Option.bind_some, ih]
          cases p.2.addAll alloc is with
          | none => rfl
          | some q => cases h : q.2.addAll alloc js <;> simp [h, Bool.and_assoc]

/-- Insertions that all succeed. -/
theorem Holds.addAll {is js : List Nat} {set set' : IndexSet} {alloc : Nat → Bool}
    (h : Holds js set) (hall : set.addAll alloc is = some (true, set')) :
    Holds (js ++ is) set' := by
  induction is generalizing js set with
  | nil =>
      cases hall
      rw [List.append_nil]
      exact h
  | cons idx is ih =>
      have hspec := h.insert_spec alloc idx
      rw [addAll_cons] at hall
      generalize set.insert alloc idx = result at hspec hall
      obtain ⟨p, rfl, hall⟩ := Option.bind_eq_some_iff.mp hall
      obtain ⟨⟨oks, set₂⟩, htail, heq⟩ := Option.map_eq_some_iff.mp hall
      cases hspec with
      | refused => cases heq
      | inserted _ hholds =>
          cases heq
          have hnext := ih hholds htail
          rw [List.append_assoc] at hnext
          exact hnext

/-- The scan of a set finds whether its indexes are those below some number. -/
theorem Holds.checkNotSeen_iff {is : List Nat} {set : IndexSet} (h : Holds is set) :
    ∃ b, set.checkNotSeen = some (b, {}) ∧ (b = true ↔ ∃ n, ∀ i, i ∈ is ↔ i < n) := by
  obtain ⟨b, hb, hiff⟩ := h.checkNotSeen
  refine ⟨b, hb, hiff.trans ⟨?_, ?_⟩⟩
  · rintro (rfl | hall)
    · exact ⟨0, fun i => by simp⟩
    · exact ⟨set.maxIdx + 1, fun i => (hall i).trans Nat.lt_succ_iff.symm⟩
  · rintro ⟨n, hall⟩
    cases h with
    | empty => exact .inl rfl
    | @full _ content m max _ _ _ _ hmax hle =>
        refine .inr fun i => ⟨hle i, fun (hi : i ≤ max) => (hall i).mpr ?_⟩
        exact Nat.lt_of_le_of_lt hi ((hall max).mp hmax)

end IndexSet

/-! ## The indexes of a page -/

/-- The indexes that are not `INVALID_INDEX`. -/
def validIndexes (is : List Nat) : List Nat := is.filter fun i => i ≠ invalidIndex

/-- The valid indexes ascend. -/
def IndexesAscend (is : List Nat) : Prop := (validIndexes is).Pairwise (· < ·)

/-- The calls of `check_ascending_generic` for the records of a page. -/
def checkAllAscending (alloc : Nat → Bool) :
    Nat → IndexSet → List Nat → Option (Bool × Nat × IndexSet)
  | prev, set, [] => some (true, prev, set)
  | prev, set, idx :: is => do
      let (ok, prev, set) ← checkAscending alloc prev idx set
      let (oks, prev, set) ← checkAllAscending alloc prev set is
      some (ok && oks, prev, set)

/-- The calls for several pages.  Each page starts without a previous index. -/
def checkPagesAscending (alloc : Nat → Bool) :
    IndexSet → List (List Nat) → Option (Bool × IndexSet)
  | set, [] => some (true, set)
  | set, is :: pages => do
      let (ok, _, set) ← checkAllAscending alloc invalidIndex set is
      let (oks, set) ← checkPagesAscending alloc set pages
      some (ok && oks, set)

/-- An index that `insert` has an end for, or that is not looked at. -/
def Insertable (i : Nat) : Prop := i = invalidIndex ∨ i < 2 ^ 63

/-- What the check of one index can do, where the previous index is one that was
inserted. -/
inductive CheckedIndex (alloc : Nat → Bool) (prev idx : Nat) (set : IndexSet) :
    Option (Bool × Nat × IndexSet) → Prop where
  | skipped : idx = invalidIndex → CheckedIndex alloc prev idx set (some (true, prev, set))
  | endless : ¬ Insertable idx → set.insert alloc idx = none → CheckedIndex alloc prev idx set none
  | refused : idx < 2 ^ 63 → prev ≠ invalidIndex → idx ≤ prev →
      CheckedIndex alloc prev idx set (some (false, prev, set))
  | inserted {ok : Bool} {set' : IndexSet} {js : List Nat} : idx < 2 ^ 63 →
      (prev ≠ invalidIndex → prev < idx) → set.insert alloc idx = some (ok, set') →
      set'.Holds js → CheckedIndex alloc prev idx set (some (ok, idx, set'))

theorem Insertable.lt {idx : Nat} (h : Insertable idx) (hne : idx ≠ invalidIndex) : idx < 2 ^ 63 :=
  h.resolve_left hne

theorem checkAscending_spec (alloc : Nat → Bool) {prev : Nat} {set : IndexSet} {js : List Nat}
    (h : set.Holds js) (hprev : Insertable prev) (idx : Nat) :
    CheckedIndex alloc prev idx set (checkAscending alloc prev idx set) := by
  rw [checkAscending]
  split
  next heq => exact .skipped heq
  next hne =>
    have hspec := h.insert_spec alloc idx
    split
    next hle =>
      exact .refused (Nat.lt_of_le_of_lt hle.2 (hprev.lt hle.1)) hle.1 hle.2
    next hgt =>
      have hgt : prev ≠ invalidIndex → prev < idx := by
        intro hprev
        by_contra hnot
        exact hgt ⟨hprev, Nat.le_of_not_lt hnot⟩
      generalize hins : set.insert alloc idx = result at hspec
      cases hspec with
      | endless hge =>
          exact .endless (fun hidx => absurd (hidx.lt hne) (Nat.not_lt.mpr hge)) hins
      | refused hlt _ => exact .inserted hlt hgt hins h
      | inserted hlt hholds => exact .inserted hlt hgt hins hholds

theorem checkAllAscending_cons (alloc : Nat → Bool) (prev : Nat) (set : IndexSet) (idx : Nat)
    (is : List Nat) :
    checkAllAscending alloc prev set (idx :: is) =
      (checkAscending alloc prev idx set).bind fun p =>
        (checkAllAscending alloc p.2.1 p.2.2 is).map fun q => (p.1 && q.1, q.2) := by
  rw [checkAllAscending]
  cases checkAscending alloc prev idx set with
  | none => rfl
  | some p => cases h : checkAllAscending alloc p.2.1 p.2.2 is <;> simp [h]

theorem validIndexes_cons_of_ne {idx : Nat} (h : idx ≠ invalidIndex) (is : List Nat) :
    validIndexes (idx :: is) = idx :: validIndexes is := by
  simp [validIndexes, h]

theorem validIndexes_cons_invalid (is : List Nat) :
    validIndexes (invalidIndex :: is) = validIndexes is := by
  simp [validIndexes]

/-- An index above the previous one starts again. -/
theorem ascending_cons_cons {prev idx : Nat} (hidx : idx ≠ invalidIndex)
    (h : prev ≠ invalidIndex → prev < idx) (is : List Nat) :
    IndexesAscend (prev :: idx :: is) ↔ IndexesAscend (idx :: is) := by
  by_cases hprev : prev = invalidIndex
  · subst hprev
    rw [IndexesAscend, IndexesAscend, validIndexes_cons_invalid]
  · rw [IndexesAscend, IndexesAscend, validIndexes_cons_of_ne hprev, validIndexes_cons_of_ne hidx,
      List.pairwise_cons, and_iff_right_iff_imp]
    intro hpairs i hi
    rcases List.mem_cons.mp hi with rfl | hi
    · exact h hprev
    · exact Nat.lt_trans (h hprev) ((List.pairwise_cons.mp hpairs).1 i hi)

/-- The calls for a page, where the previous index is one that was inserted: they
end where every index has an end, and they are insertions where the indexes
ascend. -/
theorem checkAllAscending_spec (alloc : Nat → Bool) (is : List Nat) :
    ∀ {prev : Nat} {set : IndexSet} {js : List Nat}, set.Holds js → Insertable prev →
      (∀ i ∈ is, Insertable i) →
      ∃ ok prev' set', checkAllAscending alloc prev set is = some (ok, prev', set') ∧
        (∃ js', set'.Holds js') ∧
        (IndexesAscend (prev :: is) → set.addAll alloc (validIndexes is) = some (ok, set')) ∧
        (¬ IndexesAscend (prev :: is) → ok = false) := by
  induction is with
  | nil =>
      intro prev set js h hprev _
      refine ⟨true, prev, set, rfl, ⟨js, h⟩, fun _ => rfl, fun hno => absurd ?_ hno⟩
      by_cases hinvalid : prev = invalidIndex
      · subst hinvalid
        rw [IndexesAscend, validIndexes_cons_invalid]
        exact .nil
      · rw [IndexesAscend, validIndexes_cons_of_ne hinvalid]
        exact List.pairwise_singleton _ _
  | cons idx is ih =>
      intro prev set js h hprev his
      rw [List.forall_mem_cons] at his
      obtain ⟨hidx, his⟩ := his
      rw [checkAllAscending_cons]
      have hspec := checkAscending_spec alloc h hprev idx
      generalize checkAscending alloc prev idx set = result at hspec
      cases hspec with
      | endless hno => exact absurd hidx hno
      | skipped hinvalid =>
          subst hinvalid
          obtain ⟨ok, prev', set', hall, hholds, hasc, hno⟩ := ih h hprev his
          have hsame : IndexesAscend (prev :: invalidIndex :: is) ↔ IndexesAscend (prev :: is) := by
            rw [IndexesAscend, IndexesAscend, validIndexes, validIndexes]
            simp [List.filter_cons]
          refine ⟨ok, prev', set', ?_, hholds, ?_, ?_⟩
          · rw [Option.bind_some, hall]
            rfl
          · rw [hsame, validIndexes_cons_invalid]
            exact hasc
          · rw [hsame]
            exact hno
      | refused hlt hne hle =>
          obtain ⟨ok, prev', set', hall, hholds, -⟩ := ih h hprev his
          have hnot : ¬ IndexesAscend (prev :: idx :: is) := by
            rw [IndexesAscend, validIndexes_cons_of_ne hne,
              validIndexes_cons_of_ne (Nat.ne_of_lt (Nat.lt_trans hlt (by decide))),
              List.pairwise_cons]
            exact fun hpairs => Nat.not_lt.mpr hle (hpairs.1 idx List.mem_cons_self)
          refine ⟨false, prev', set', ?_, hholds, fun hasc => absurd hasc hnot, fun _ => rfl⟩
          rw [Option.bind_some, hall]
          rfl
      | @inserted ok₁ set₁ js₁ hlt hgt hins hholds₁ =>
          have hvalid : idx ≠ invalidIndex := Nat.ne_of_lt (Nat.lt_trans hlt (by decide))
          obtain ⟨ok, prev', set', hall, hholds, hasc, hno⟩ := ih hholds₁ (.inr hlt) his
          refine ⟨ok₁ && ok, prev', set', ?_, hholds, ?_, ?_⟩
          · rw [Option.bind_some, hall]
            rfl
          · rw [ascending_cons_cons hvalid hgt, validIndexes_cons_of_ne hvalid,
              IndexSet.addAll_cons, hins]
            intro h'
            rw [Option.bind_some, hasc h']
            rfl
          · rw [ascending_cons_cons hvalid hgt]
            intro h'
            rw [hno h', Bool.and_false]

/-- An index without an end is inserted, since every previous one is below it. -/
theorem checkAllAscending_none {alloc : Nat → Bool} (is : List Nat) :
    ∀ {prev : Nat} {set : IndexSet} {js : List Nat}, set.Holds js → Insertable prev →
      (∃ i ∈ is, ¬ Insertable i) → checkAllAscending alloc prev set is = none := by
  induction is with
  | nil => exact fun _ _ ⟨_, hmem, _⟩ => by cases hmem
  | cons idx is ih =>
      rintro prev set js h hprev ⟨i, hmem, hi⟩
      rw [checkAllAscending_cons]
      have hspec := checkAscending_spec alloc h hprev idx
      generalize checkAscending alloc prev idx set = result at hspec
      have hlater : Insertable idx → ∃ i ∈ is, ¬ Insertable i := by
        intro hidx
        rcases List.mem_cons.mp hmem with rfl | hmem
        · exact absurd hidx hi
        · exact ⟨i, hmem, hi⟩
      cases hspec with
      | endless => rfl
      | skipped hinvalid => rw [Option.bind_some, ih h hprev (hlater (.inl hinvalid))]; rfl
      | refused hlt => rw [Option.bind_some, ih h hprev (hlater (.inr hlt))]; rfl
      | inserted hlt _ _ hholds =>
          rw [Option.bind_some, ih hholds (.inr hlt) (hlater (.inr hlt))]; rfl

theorem IndexSet.addAll_none {alloc : Nat → Bool} (is : List Nat) :
    ∀ {set : IndexSet} {js : List Nat}, set.Holds js → (∃ i ∈ is, 2 ^ 63 ≤ i) →
      set.addAll alloc is = none := by
  induction is with
  | nil => exact fun _ ⟨_, hmem, _⟩ => by cases hmem
  | cons idx is ih =>
      rintro set js h ⟨i, hmem, hi⟩
      rw [addAll_cons]
      have hspec := h.insert_spec alloc idx
      generalize set.insert alloc idx = result at hspec
      have hlater : idx < 2 ^ 63 → ∃ i ∈ is, 2 ^ 63 ≤ i := by
        intro hidx
        rcases List.mem_cons.mp hmem with rfl | hmem
        · exact absurd hidx (Nat.not_lt.mpr hi)
        · exact ⟨i, hmem, hi⟩
      cases hspec with
      | endless => rfl
      | refused hlt => rw [Option.bind_some, ih h (hlater hlt)]; rfl
      | inserted hlt hholds => rw [Option.bind_some, ih hholds (hlater hlt)]; rfl

/-! ## The indexes of several pages -/

theorem checkPagesAscending_cons (alloc : Nat → Bool) (set : IndexSet) (is : List Nat)
    (pages : List (List Nat)) :
    checkPagesAscending alloc set (is :: pages) =
      (checkAllAscending alloc invalidIndex set is).bind fun p =>
        (checkPagesAscending alloc p.2.2 pages).map fun q => (p.1 && q.1, q.2) := by
  rw [checkPagesAscending]
  cases checkAllAscending alloc invalidIndex set is with
  | none => rfl
  | some p => cases h : checkPagesAscending alloc p.2.2 pages <;> simp [h]

theorem ascending_cons_invalid (is : List Nat) : IndexesAscend (invalidIndex :: is) ↔
    IndexesAscend is := by
  rw [IndexesAscend, IndexesAscend, validIndexes_cons_invalid]

theorem validIndexes_append (is js : List Nat) :
    validIndexes (is ++ js) = validIndexes is ++ validIndexes js := List.filter_append ..

theorem checkPagesAscending_spec (alloc : Nat → Bool) (pages : List (List Nat)) :
    ∀ {set : IndexSet} {js : List Nat}, set.Holds js → (∀ i ∈ pages.flatten, Insertable i) →
      ∃ ok set', checkPagesAscending alloc set pages = some (ok, set') ∧ (∃ js', set'.Holds js') ∧
        ((∀ is ∈ pages, IndexesAscend is) →
          set.addAll alloc (validIndexes pages.flatten) = some (ok, set')) ∧
        (ok = true → ∀ is ∈ pages, IndexesAscend is) := by
  induction pages with
  | nil => exact fun h _ => ⟨true, _, rfl, ⟨_, h⟩, fun _ => rfl, fun _ _ hmem => by cases hmem⟩
  | cons is pages ih =>
      intro set js h hall
      rw [List.flatten_cons] at hall
      obtain ⟨ok₁, prev, set₁, hpage, ⟨js₁, hholds₁⟩, hasc₁, hno₁⟩ :=
        checkAllAscending_spec alloc is h (.inl rfl) fun i hi => hall i (List.mem_append_left _ hi)
      obtain ⟨ok, set', hpages, hholds, hasc, hyes⟩ := ih hholds₁
        fun i hi => hall i (List.mem_append_right _ hi)
      rw [ascending_cons_invalid] at hasc₁ hno₁
      refine ⟨ok₁ && ok, set', ?_, hholds, ?_, ?_⟩
      · rw [checkPagesAscending_cons, hpage, Option.bind_some, hpages]
        rfl
      · intro hpagesAsc
        rw [List.forall_mem_cons] at hpagesAsc
        rw [List.flatten_cons, validIndexes_append, IndexSet.addAll_append, hasc₁ hpagesAsc.1,
          Option.bind_some, hasc hpagesAsc.2]
        rfl
      · intro hok
        rw [Bool.and_eq_true] at hok
        refine List.forall_mem_cons.mpr ⟨?_, hyes hok.2⟩
        by_contra hnot
        cases (hno₁ hnot).symm.trans hok.1

theorem checkPagesAscending_none {alloc : Nat → Bool} (pages : List (List Nat)) :
    ∀ {set : IndexSet} {js : List Nat}, set.Holds js → (∃ i ∈ pages.flatten, ¬ Insertable i) →
      checkPagesAscending alloc set pages = none := by
  induction pages with
  | nil => exact fun _ ⟨_, hmem, _⟩ => by cases hmem
  | cons is pages ih =>
      rintro set js h ⟨i, hmem, hi⟩
      rw [checkPagesAscending_cons]
      by_cases hall : ∀ i ∈ is, Insertable i
      · obtain ⟨ok₁, prev, set₁, hpage, ⟨js₁, hholds₁⟩, -⟩ :=
          checkAllAscending_spec alloc is h (.inl rfl) hall
        have hlater : ∃ i ∈ pages.flatten, ¬ Insertable i := by
          rw [List.flatten_cons, List.mem_append] at hmem
          exact ⟨i, hmem.resolve_left fun his => hi (hall i his), hi⟩
        rw [hpage, Option.bind_some, ih hholds₁ hlater]
        rfl
      · push Not at hall
        rw [checkAllAscending_none is h (.inl rfl) hall]
        rfl

/-- All insertions succeed, and the indexes are those below some number. -/
def Complete (alloc : Nat → Bool) (is : List Nat) : Prop :=
  (∃ set, IndexSet.addAll alloc {} is = some (true, set)) ∧ ∃ n, ∀ i, i ∈ is ↔ i < n

/-- What the checker says about the indexes of pages, with the final scan. -/
theorem checkPagesAscending_verdict (alloc : Nat → Bool) {pages : List (List Nat)}
    (hall : ∀ i ∈ pages.flatten, Insertable i) :
    ∃ ok set b, checkPagesAscending alloc {} pages = some (ok, set) ∧
      set.checkNotSeen = some (b, {}) ∧
      (ok = true ∧ b = true ↔
        (∀ is ∈ pages, IndexesAscend is) ∧ Complete alloc (validIndexes pages.flatten)) := by
  obtain ⟨ok, set, hpages, ⟨js, hholds⟩, hasc, hyes⟩ :=
    checkPagesAscending_spec alloc pages .empty hall
  obtain ⟨b, hb, hiff⟩ := hholds.checkNotSeen_iff
  refine ⟨ok, set, b, hpages, hb, ?_, ?_⟩
  · rintro ⟨rfl, rfl⟩
    have hadd := hasc (hyes rfl)
    have hholds' := IndexSet.Holds.empty.addAll hadd
    obtain ⟨b', hb', hiff'⟩ := hholds'.checkNotSeen_iff
    cases hb.symm.trans hb'
    exact ⟨hyes rfl, ⟨set, hadd⟩, hiff'.mp rfl⟩
  · rintro ⟨hpagesAsc, ⟨set', hadd⟩, hbelow⟩
    cases (hasc hpagesAsc).symm.trans hadd
    obtain ⟨b', hb', hiff'⟩ := (IndexSet.Holds.empty.addAll hadd).checkNotSeen_iff
    cases hb.symm.trans hb'
    exact ⟨rfl, hiff'.mpr hbelow⟩

end Coldtrace
