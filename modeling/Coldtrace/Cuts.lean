import Mathlib.Algebra.GroupWithZero.Nat
import Mathlib.Data.List.Basic
import Mathlib.Tactic.Common
import Coldtrace.Lib.Bytes
import Coldtrace.Entries
import Coldtrace.Writer
import Coldtrace.Records
import Coldtrace.Coherence
import Coldtrace.Walker
import Coldtrace.IndexSet
import Coldtrace.Ascending
import Coldtrace.Matcher
import Coldtrace.Checker

/-!
# Verdicts and the ends of pages

A thread closes a page where its buffer is full, so the checker sees the records
of the thread in pieces that a test does not control.  The expected iterator,
the slots and the index sets live across pages.  The previous indexes are local
to a page, so an index that is not above the one before it is found only where
both are in one page.

The verdict is the same for all cuts of a sequence of records, whatever trace is
expected, exactly where the indexes ascend in every piece that fits in a page, or
where they are not those below some number, which no cut passes
(`verdict_same_iff`).
-/

namespace Coldtrace

open Bytes

/-! ## Records and what the checker reads of them -/

/-- The word of a record at a place among the fields. -/
def Record.field (r : Record) (place : Option Nat) : UInt64 :=
  UInt64.ofNat ((place.bind (r.fields[·]?)).getD invalid.toNat)

theorem fieldAt_eq_field {buffer rest : List UInt8} {offset : Nat} {r : Record}
    (h : buffer.drop offset = r.bytes ++ rest) {place : Option Nat}
    (hplace : ∀ k, place = some k → k < r.type.arity) :
    fieldAt buffer offset place = some (r.field place) := by
  obtain ⟨v, hv, hnat⟩ := Option.map_eq_some_iff.mp (fieldAt_of_record h place hplace)
  rw [hv, Record.field, ← hnat, UInt64.ofNat_toNat]

/-- What the checker reads of a record. -/
def Record.seen (r : Record) : Seen where
  type := r.type.code
  ptr := UInt64.ofNat r.pointer
  size := r.field r.type.sizeWord
  allocIndex := r.field r.type.allocWord
  atomicIndex := r.field r.type.atomicWord
  ptr_lt := by
    rw [UInt64.toNat_ofNat_of_lt' (Nat.lt_trans r.pointer_lt (by decide))]
    exact r.pointer_lt

theorem seenAt_of_record {buffer rest : List UInt8} {offset : Nat} {r : Record}
    (h : buffer.drop offset = r.bytes ++ rest) : seenAt buffer offset = some r.seen := by
  have htype := entryParseType_of_record h
  obtain ⟨hsize, halloc, hatomic⟩ := r.type.word_lt
  have hptr : entryParsePtr buffer offset = some (UInt64.ofNat r.pointer) := by
    obtain ⟨ptr, hptr, hnat⟩ := Option.map_eq_some_iff.mp (entryParsePtr_of_record h)
    rw [hptr, ← hnat, UInt64.ofNat_toNat]
  have hattach : (entryParsePtr buffer offset).attach = some ⟨UInt64.ofNat r.pointer, hptr⟩ :=
    Option.attach_eq_some_iff.mpr hptr
  rw [seenAt, entryParseAllocIndex_eq htype, entryParseAtomicIndex_eq htype,
    entryParseSize_eq htype, htype, fieldAt_eq_field h halloc, fieldAt_eq_field h hatomic,
    fieldAt_eq_field h hsize, hattach]
  rfl

namespace Closing

/-- The rounds of the loop for records in their order, without callbacks. -/
def entries (alloc : Nat → Bool) (tid : Nat) : Closing → List Seen → Option Closing
  | c, [] => some c
  | c, r :: rs => do
      let c ← c.entry alloc tid true r
      entries alloc tid c rs

theorem loop_of_records {alloc : Nat → Bool} {page : Page} (hcallbacks : page.callbacks = [])
    (rs : List Record) : ∀ (fuel n : Nat) {offset : Nat} {size : UInt64} {c : Closing},
      page.bytes.drop offset = recordsBytes rs → size.toNat = (recordsBytes rs).length →
      rs.length < fuel →
      loop alloc page fuel n ⟨offset, size⟩ c = entries alloc page.tid c (rs.map Record.seen) := by
  induction rs with
  | nil =>
      intro fuel n offset size c hdrop hsize hfuel
      obtain ⟨fuel, rfl⟩ : ∃ n, fuel = n + 1 := ⟨fuel - 1, by omega⟩
      have hzero : size = 0 := UInt64.toNat_inj.mp hsize
      subst hzero
      rfl
  | cons r rs ih =>
      intro fuel n offset size c hdrop hsize hfuel
      obtain ⟨fuel, rfl⟩ : ∃ n, fuel = n + 1 := ⟨fuel - 1, by omega⟩
      rw [recordsBytes_cons] at hdrop
      rw [recordsBytes_cons, List.length_append] at hsize
      rw [List.length_cons] at hfuel
      obtain ⟨hnext, size', hadv, hsize'⟩ := iterAdvance_of_record size hdrop (by omega)
      have hrest : page.bytes.drop (offset + r.bytes.length) = recordsBytes rs := by
        rw [← List.drop_drop, hdrop, List.drop_left]
      rw [loop, hnext, List.map_cons, entries]
      simp only [Option.bind_eq_bind, Option.bind_some, if_true, seenAt_of_record hdrop, hcallbacks,
        List.all_nil]
      cases c.entry alloc page.tid true r.seen with
      | none => rfl
      | some c₁ =>
          rw [Option.bind_some, Option.bind_some, hadv, Option.bind_some]
          exact ih fuel (n + 1) hrest (by omega) (by omega)

theorem failed_eq : ∀ failed a b m a' b' m' : Bool,
    (failed || !a || !b || !true || !m || !(a' && b' && m')) =
      (failed || !(a && a' && (b && b') && (m && m'))) := by
  decide

/-- The three checks of the records do not depend on each other. -/
theorem entries_eq (alloc : Nat → Bool) (tid : Nat) (rs : List Seen) : ∀ c : Closing,
    c.entries alloc tid rs =
      (checkAllAscending alloc c.previousAllocIndex c.checker.allocIndexes
          (rs.map fun r => r.allocIndex.toNat)).bind fun p =>
        (checkAllAscending alloc c.previousAtomicIndex c.checker.atomicIndexes
            (rs.map fun r => r.atomicIndex.toNat)).map fun q =>
          { checker :=
              { c.checker with
                matching := (c.checker.matching.matchAll tid rs).2
                allocIndexes := p.2.2
                atomicIndexes := q.2.2 }
            previousAllocIndex := p.2.1
            previousAtomicIndex := q.2.1
            failed := c.failed || !(p.1 && q.1 && (c.checker.matching.matchAll tid rs).1) } := by
  induction rs with
  | nil =>
      intro c
      simp [entries, checkAllAscending, MatchState.matchAll]
  | cons r rs ih =>
      intro c
      rw [entries, entry, List.map_cons, List.map_cons, checkAllAscending_cons,
        checkAllAscending_cons, MatchState.matchAll]
      cases checkAscending alloc c.previousAllocIndex r.allocIndex.toNat
          c.checker.allocIndexes with
      | none => rfl
      | some p =>
          cases checkAscending alloc c.previousAtomicIndex r.atomicIndex.toNat
              c.checker.atomicIndexes with
          | none =>
              cases h : checkAllAscending alloc p.2.1 p.2.2
                (rs.map fun r => r.allocIndex.toNat) <;> simp [h]
          | some q =>
              simp only [Option.bind_eq_bind, Option.bind_some, ih]
              cases checkAllAscending alloc p.2.1 p.2.2 (rs.map fun r => r.allocIndex.toNat) with
              | none => rfl
              | some p' =>
                  cases checkAllAscending alloc q.2.1 q.2.2
                      (rs.map fun r => r.atomicIndex.toNat) with
                  | none => rfl
                  | some q' => simp only [Option.bind_some, Option.map_some, failed_eq]

end Closing

namespace MatchState

theorem matchAll_cons (tid : Nat) (r : Seen) (rs : List Seen) (s : MatchState) :
    s.matchAll tid (r :: rs) =
      ((s.matchOne tid r).1 && ((s.matchOne tid r).2.matchAll tid rs).1,
        ((s.matchOne tid r).2.matchAll tid rs).2) := rfl

theorem matchAll_append (tid : Nat) (rs rs' : List Seen) : ∀ s : MatchState,
    s.matchAll tid (rs ++ rs') =
      ((s.matchAll tid rs).1 && ((s.matchAll tid rs).2.matchAll tid rs').1,
        ((s.matchAll tid rs).2.matchAll tid rs').2) := by
  induction rs with
  | nil =>
      intro s
      rw [List.nil_append, matchAll, Bool.true_and]
  | cons r rs ih =>
      intro s
      rw [List.cons_append, matchAll_cons, matchAll_cons, ih, Bool.and_assoc]

/-- The thread has its iterator, if it has an expected trace. -/
def Opened (s : MatchState) (tid : Nat) : Prop :=
  s.expected tid = none ∨ ∃ it, s.iterators tid = some it

theorem Opened.openPage {s : MatchState} {tid : Nat} (h : s.Opened tid) : s.openPage tid = s := by
  rw [MatchState.openPage]
  rcases h with hnone | ⟨it, hit⟩
  · rw [hnone]
    cases s.iterators tid <;> rfl
  · rw [hit]

theorem opened_openPage (s : MatchState) (tid : Nat) : (s.openPage tid).Opened tid := by
  rw [MatchState.openPage]
  split
  next => exact .inr ⟨_, Function.update_self ..⟩
  next hno =>
    cases hit : s.iterators tid with
    | some it => exact .inr ⟨it, hit⟩
    | none =>
        cases he : s.expected tid with
        | none => exact .inl he
        | some e => exact absurd he (hno e hit)

theorem Opened.matchOne {s : MatchState} {tid : Nat} (h : s.Opened tid) (r : Seen) :
    (s.matchOne tid r).2.Opened tid := by
  rw [MatchState.matchOne]
  split
  next => exact h
  next =>
    split
    next => exact h
    next => exact .inr ⟨_, Function.update_self ..⟩

/-- Without expected traces every record matches, and nothing changes. -/
theorem matchPage_unexpected (tid : Nat) (rs : List Seen) :
    ({ expected := fun _ => none } : MatchState).matchPage tid rs =
      (true, { expected := fun _ => none }) := by
  rw [matchPage]
  induction rs with
  | nil => rfl
  | cons r rs ih =>
      rw [matchAll_cons]
      exact ih

theorem Opened.matchAll {tid : Nat} (rs : List Seen) :
    ∀ {s : MatchState}, s.Opened tid → (s.matchAll tid rs).2.Opened tid := by
  induction rs with
  | nil => exact id
  | cons r rs ih => exact fun h => ih (h.matchOne r)

end MatchState

/-! ## The pages of a thread -/

/-- A page of records. -/
def recordPage (B : Build) (tid : Nat) (rs : List Record) : Page := { tid, bytes := pageOf B rs }

/-- The page has a size that a `size_t` has. -/
def FitsPage (B : Build) (rs : List Record) : Prop := (pageOf B rs).length < 2 ^ 64

/-- The alloc index of a record, as the checker reads it. -/
def Record.allocIndex (r : Record) : Nat := r.seen.allocIndex.toNat

/-- The atomic index of a record, as the checker reads it. -/
def Record.atomicIndex (r : Record) : Nat := r.seen.atomicIndex.toNat

theorem Record.length_le_length_recordsBytes (rs : List Record) :
    rs.length ≤ (recordsBytes rs).length := by
  induction rs with
  | nil => exact Nat.le_refl _
  | cons r rs ih =>
      have hmin := r.eight_le_length
      rw [recordsBytes_cons, List.length_append, List.length_cons]
      omega

namespace Checker

theorem writerClose_recordPage {B : Build} (alloc : Nat → Bool) (c : Checker) {tid : Nat}
    {rs : List Record} (htid : tid < maxNthreads) (hfits : FitsPage B rs) :
    c.writerClose B alloc (recordPage B tid rs) =
      (Closing.entries alloc tid { checker := { c with matching := c.matching.openPage tid } }
        (rs.map Record.seen)).map fun closed =>
          { closed.checker with failedClose := closed.checker.failedClose || closed.failed } := by
  have hheader : B.versionHeader.length = 8 := B.length_versionHeader
  have hlen : (pageOf B rs).length = 8 + (recordsBytes rs).length := by
    rw [pageOf, List.length_append, hheader]
  have hsize : (UInt64.ofNat (pageOf B rs).length - UInt64.ofNat 8).toNat =
      (recordsBytes rs).length := by
    have hnat : (UInt64.ofNat (pageOf B rs).length).toNat = (pageOf B rs).length :=
      UInt64.toNat_ofNat_of_lt' hfits
    have height : (UInt64.ofNat 8).toNat = 8 := rfl
    rw [UInt64.toNat_sub_of_le, hnat, height, hlen, Nat.add_sub_cancel_left]
    rw [UInt64.le_iff_toNat_le, hnat, height, hlen]
    exact Nat.le_add_right ..
  have hdrop : (pageOf B rs).drop 8 = recordsBytes rs := by
    rw [pageOf, List.drop_left' hheader]
  have htake : (pageOf B rs).take sizeofVersionHeader = B.versionHeader := by
    rw [pageOf, List.take_left' B.length_versionHeader]
  have hcount := Record.length_le_length_recordsBytes rs
  rw [writerClose_eq alloc c (recordPage B tid rs) htid
    (show sizeofVersionHeader ≤ (pageOf B rs).length by rw [hlen]; exact Nat.le_add_right ..) htake]
  congr 1
  exact Closing.loop_of_records rfl rs _ 0 hdrop hsize
    (show rs.length < (pageOf B rs).length + 1 by omega)

theorem failedClose_eq : ∀ failed a b m a' b' m' : Bool,
    (failed || (false || !(a && b && m)) || !(a' && b' && m')) =
      (failed || !(a && a' && (b && b') && (m && m'))) := by
  decide

/-- The pages of a thread that has its iterator. -/
theorem closeAll_recordPages {B : Build} (alloc : Nat → Bool) {tid : Nat} (htid : tid < maxNthreads)
    (pages : List (List Record)) : ∀ c : Checker, c.matching.Opened tid →
      (∀ rs ∈ pages, FitsPage B rs) →
      c.closeAll B alloc (pages.map (recordPage B tid)) =
        (checkPagesAscending alloc c.allocIndexes
            (pages.map fun rs => rs.map Record.allocIndex)).bind fun p =>
          (checkPagesAscending alloc c.atomicIndexes
              (pages.map fun rs => rs.map Record.atomicIndex)).map fun q =>
            { matching := (c.matching.matchAll tid (pages.flatten.map Record.seen)).2
              allocIndexes := p.2
              atomicIndexes := q.2
              failedClose := c.failedClose ||
                !(p.1 && q.1 && (c.matching.matchAll tid (pages.flatten.map Record.seen)).1) } := by
  induction pages with
  | nil =>
      intro c _ _
      simp [closeAll, checkPagesAscending, MatchState.matchAll]
  | cons rs pages ih =>
      intro c hopened hfits
      rw [List.forall_mem_cons] at hfits
      have halloc : (rs.map Record.seen).map (fun r => r.allocIndex.toNat) =
          rs.map Record.allocIndex := List.map_map
      have hatomic : (rs.map Record.seen).map (fun r => r.atomicIndex.toNat) =
          rs.map Record.atomicIndex := List.map_map
      rw [List.map_cons, closeAll, writerClose_recordPage alloc c htid hfits.1, hopened.openPage,
        Closing.entries_eq, halloc, hatomic, List.map_cons, List.map_cons,
        checkPagesAscending_cons, checkPagesAscending_cons, List.flatten_cons, List.map_append,
        MatchState.matchAll_append]
      dsimp only
      cases checkAllAscending alloc invalidIndex c.allocIndexes (rs.map Record.allocIndex) with
      | none => rfl
      | some p =>
          cases checkAllAscending alloc invalidIndex c.atomicIndexes
              (rs.map Record.atomicIndex) with
          | none =>
              cases h : checkPagesAscending alloc p.2.2
                (pages.map fun rs => rs.map Record.allocIndex) <;> simp [h]
          | some q =>
              simp only [Option.bind_eq_bind, Option.bind_some, Option.map_some]
              rw [ih _ (hopened.matchAll _) hfits.2]
              cases checkPagesAscending alloc p.2.2
                  (pages.map fun rs => rs.map Record.allocIndex) with
              | none => rfl
              | some p' =>
                  cases checkPagesAscending alloc q.2.2
                      (pages.map fun rs => rs.map Record.atomicIndex) with
                  | none => rfl
                  | some q' => simp only [Option.bind_some, Option.map_some, failedClose_eq]

end Checker

/-! ## Cuts -/

/-- The verdict on the pages of one thread.  The thread closes them one by one,
and then the main thread ends. -/
def verdict (B : Build) (alloc : Nat → Bool) (expected : Nat → Option (List ExpectedEntry))
    (tid : Nat) (pages : List (List Record)) : Option Bool := do
  let c ← Checker.closeAll B alloc { matching := { expected := expected } }
    (pages.map (recordPage B tid))
  c.mainThreadFini none

/-- The pages are a cut of the records. -/
structure Cut (B : Build) (rs : List Record) (pages : List (List Record)) : Prop where
  flatten : pages.flatten = rs
  nonempty : pages ≠ []
  fits : ∀ page ∈ pages, FitsPage B page

/-- The alloc indexes of the records ascend, and so do the atomic indexes. -/
structure AscendingRecords (rs : List Record) : Prop where
  alloc : IndexesAscend (rs.map Record.allocIndex)
  atomic : IndexesAscend (rs.map Record.atomicIndex)

/-- The records pass every check but that for ascending indexes. -/
structure Passable (alloc : Nat → Bool) (expected : Nat → Option (List ExpectedEntry)) (tid : Nat)
    (rs : List Record) : Prop where
  matched : (MatchState.matchPage { expected := expected } tid (rs.map Record.seen)).1 = true
  consumed : checkEmptyExpected
    (MatchState.matchPage { expected := expected } tid (rs.map Record.seen)).2 = true
  allocComplete : Complete alloc (validIndexes (rs.map Record.allocIndex))
  atomicComplete : Complete alloc (validIndexes (rs.map Record.atomicIndex))

section

variable {B : Build} (alloc : Nat → Bool) (expected : Nat → Option (List ExpectedEntry)) {tid : Nat}
  {rs : List Record} {pages : List (List Record)}

/-- The first page opens the iterator, and then the pages are those of a thread
that has it. -/
theorem closeAll_of_cut (htid : tid < maxNthreads) (hcut : Cut B rs pages) :
    Checker.closeAll B alloc { matching := { expected := expected } }
        (pages.map (recordPage B tid)) =
      Checker.closeAll B alloc
        { matching := MatchState.openPage { expected := expected } tid }
        (pages.map (recordPage B tid)) := by
  cases pages with
  | nil => exact absurd rfl hcut.nonempty
  | cons page pages =>
      have hfits := (List.forall_mem_cons.mp hcut.fits).1
      have hopened := MatchState.opened_openPage { expected := expected } tid
      rw [List.map_cons, Checker.closeAll, Checker.closeAll,
        Checker.writerClose_recordPage alloc _ htid hfits,
        Checker.writerClose_recordPage alloc _ htid hfits, hopened.openPage]

/-- The verdict as the three checks, each for all pages. -/
theorem verdict_of_cut (htid : tid < maxNthreads) (hcut : Cut B rs pages) :
    verdict B alloc expected tid pages =
      (checkPagesAscending alloc {} (pages.map fun page => page.map Record.allocIndex)).bind
        fun p =>
        (checkPagesAscending alloc {} (pages.map fun page => page.map Record.atomicIndex)).bind
          fun q =>
            Checker.mainThreadFini
              { matching := (MatchState.matchPage { expected } tid (rs.map Record.seen)).2
                allocIndexes := p.2
                atomicIndexes := q.2
                failedClose := !(p.1 && q.1 &&
                  (MatchState.matchPage { expected } tid (rs.map Record.seen)).1) } none := by
  rw [verdict, closeAll_of_cut alloc expected htid hcut,
    Checker.closeAll_recordPages alloc htid pages _
    (MatchState.opened_openPage _ tid) hcut.fits, hcut.flatten]
  cases checkPagesAscending alloc {} (pages.map fun page => page.map Record.allocIndex) with
  | none => rfl
  | some p =>
      cases checkPagesAscending alloc {} (pages.map fun page => page.map Record.atomicIndex) with
      | none => rfl
      | some q => rfl

/-- An index without an end: no cut has a verdict. -/
theorem verdict_none (htid : tid < maxNthreads) (hcut : Cut B rs pages)
    (h : ∃ r ∈ rs, ¬ Insertable r.allocIndex ∨ ¬ Insertable r.atomicIndex) :
    verdict B alloc expected tid pages = none := by
  obtain ⟨r, hmem, hr⟩ := h
  have hflat : ∀ f : Record → Nat, f r ∈ (pages.map fun page => page.map f).flatten := by
    intro f
    rw [← List.map_flatten, hcut.flatten]
    exact List.mem_map_of_mem hmem
  rw [verdict_of_cut alloc expected htid hcut]
  rcases hr with hr | hr
  · rw [checkPagesAscending_none _ .empty ⟨_, hflat Record.allocIndex, hr⟩]
    rfl
  · rw [checkPagesAscending_none (pages.map fun page => page.map Record.atomicIndex) .empty
      ⟨_, hflat Record.atomicIndex, hr⟩]
    exact Option.bind_fun_none _

/-- With indexes that all have an end, a cut passes where the records are passable
and the indexes of each page ascend. -/
theorem verdict_some (htid : tid < maxNthreads) (hcut : Cut B rs pages)
    (h : ∀ r ∈ rs, Insertable r.allocIndex ∧ Insertable r.atomicIndex) :
    ∃ b, verdict B alloc expected tid pages = some b ∧
      (b = true ↔ Passable alloc expected tid rs ∧ ∀ page ∈ pages, AscendingRecords page) := by
  have hflat : ∀ f : Record → Nat, (pages.map fun page => page.map f).flatten = rs.map f := by
    intro f
    rw [← List.map_flatten, hcut.flatten]
  have hpages : ∀ f : Record → Nat, (∀ is ∈ pages.map fun page => page.map f, IndexesAscend is) ↔
      ∀ page ∈ pages, IndexesAscend (page.map f) := fun f => List.forall_mem_map
  have halloc : ∀ i ∈ (pages.map fun page => page.map Record.allocIndex).flatten, Insertable i := by
    rw [hflat]
    exact List.forall_mem_map.mpr fun r hr => (h r hr).1
  have hatomic : ∀ i ∈ (pages.map fun page => page.map Record.atomicIndex).flatten,
      Insertable i := by
    rw [hflat]
    exact List.forall_mem_map.mpr fun r hr => (h r hr).2
  obtain ⟨ok, set, b, hcheck, hb, hiff⟩ := checkPagesAscending_verdict alloc halloc
  obtain ⟨ok', set', b', hcheck', hb', hiff'⟩ := checkPagesAscending_verdict alloc hatomic
  rw [hflat, hpages] at hiff hiff'
  rw [verdict_of_cut alloc expected htid hcut, hcheck, hcheck', Option.bind_some, Option.bind_some,
    Checker.mainThreadFini, hb, hb']
  refine ⟨_, rfl, ?_⟩
  simp only [Option.getD_none, Bool.and_eq_true, Bool.not_not, Bool.and_true]
  constructor
  · rintro ⟨⟨⟨hconsumed, hbt⟩, hbt'⟩, ⟨hok, hok'⟩, hmatched⟩
    obtain ⟨hasc, hcomplete⟩ := hiff.mp ⟨hok, hbt⟩
    obtain ⟨hasc', hcomplete'⟩ := hiff'.mp ⟨hok', hbt'⟩
    exact ⟨⟨hmatched, hconsumed, hcomplete, hcomplete'⟩,
      fun page hpage => ⟨hasc page hpage, hasc' page hpage⟩⟩
  · rintro ⟨hpassable, hasc⟩
    obtain ⟨hok, hbt⟩ :=
      hiff.mpr ⟨fun page hpage => (hasc page hpage).alloc, hpassable.allocComplete⟩
    obtain ⟨hok', hbt'⟩ :=
      hiff'.mpr ⟨fun page hpage => (hasc page hpage).atomic, hpassable.atomicComplete⟩
    exact ⟨⟨⟨hpassable.consumed, hbt⟩, hbt'⟩, ⟨hok, hok'⟩, hpassable.matched⟩

end

theorem Complete.insertable {alloc : Nat → Bool} {is : List Nat}
    (h : Complete alloc (validIndexes is)) : ∀ i ∈ is, Insertable i := by
  intro i hi
  by_contra hno
  rw [Insertable, not_or] at hno
  obtain ⟨⟨set, hadd⟩, -⟩ := h
  have hmem : i ∈ validIndexes is := List.mem_filter.mpr ⟨hi, by simpa using hno.1⟩
  cases (IndexSet.addAll_none _ .empty ⟨i, hmem, Nat.le_of_not_lt hno.2⟩).symm.trans hadd

theorem fitsPage_singleton (B : Build) (r : Record) : FitsPage B [r] := by
  have hspace := r.type.space_bounds
  have hdiff := r.diff_length
  have hdepth := r.depth_lt
  have hheader : B.versionHeader.length = 8 := B.length_versionHeader
  rw [FitsPage, pageOf, List.length_append, hheader, recordsBytes_cons, recordsBytes_nil,
    List.append_nil, r.length_bytes]
  omega

theorem ascendingRecords_singleton (r : Record) : AscendingRecords [r] :=
  ⟨(List.pairwise_singleton _ _).filter _, (List.pairwise_singleton _ _).filter _⟩

/-- Where the indexes of all records ascend, those of every piece do. -/
theorem AscendingRecords.part {rs piece : List Record} (h : AscendingRecords rs)
    (hpart : piece <:+: rs) : AscendingRecords piece :=
  ⟨h.alloc.sublist ((hpart.sublist.map _).filter _),
    h.atomic.sublist ((hpart.sublist.map _).filter _)⟩

/-- A cut with one piece as a page, and the records around it in pages of one. -/
theorem cut_around {B : Build} (before piece after : List Record) (hfits : FitsPage B piece) :
    Cut B (before ++ piece ++ after)
      ((before.map fun r => [r]) ++ [piece] ++ after.map fun r => [r]) where
  flatten := by
    rw [List.flatten_append, List.flatten_append, ← List.flatMap_def, ← List.flatMap_def,
      List.flatMap_singleton', List.flatMap_singleton', List.flatten_singleton]
  nonempty := by simp
  fits := by
    intro page hpage
    rw [List.mem_append, List.mem_append] at hpage
    rcases hpage with (hpage | hpage) | hpage
    · obtain ⟨r, -, rfl⟩ := List.mem_map.mp hpage
      exact fitsPage_singleton B r
    · rw [List.mem_singleton.mp hpage]
      exact hfits
    · obtain ⟨r, -, rfl⟩ := List.mem_map.mp hpage
      exact fitsPage_singleton B r

theorem Cut.part {B : Build} {rs page : List Record} {pages : List (List Record)}
    (hcut : Cut B rs pages) (hpage : page ∈ pages) : page <:+: rs := by
  obtain ⟨before, after, rfl⟩ := List.append_of_mem hpage
  refine ⟨before.flatten, after.flatten, ?_⟩
  rw [← hcut.flatten, List.flatten_append, List.flatten_cons, List.append_assoc]

/-- For one expected trace, all cuts have one verdict where the indexes ascend in
every piece that a page can have, or where the records do not pass the other
checks.  The result is `none` for all cuts where an index is too large for the
index set. -/
theorem verdict_eq_iff (B : Build) (alloc : Nat → Bool)
    (expected : Nat → Option (List ExpectedEntry)) {tid : Nat} (htid : tid < maxNthreads)
    (rs : List Record) :
    (∀ pages pages', Cut B rs pages → Cut B rs pages' →
      verdict B alloc expected tid pages = verdict B alloc expected tid pages') ↔
      (∀ piece, piece <:+: rs → FitsPage B piece → AscendingRecords piece) ∨
        ¬ Passable alloc expected tid rs := by
  constructor
  · intro hsame
    by_contra hno
    push Not at hno
    obtain ⟨⟨piece, hpart, hfits, hpiece⟩, hpassable⟩ := hno
    have hinsertable : ∀ r ∈ rs, Insertable r.allocIndex ∧ Insertable r.atomicIndex := fun r hr =>
      ⟨hpassable.allocComplete.insertable _ (List.mem_map_of_mem hr),
        hpassable.atomicComplete.insertable _ (List.mem_map_of_mem hr)⟩
    obtain ⟨before, after, hsplit⟩ := hpart
    have hcut := cut_around before piece after hfits
    rw [hsplit] at hcut
    obtain ⟨r, rs', rfl⟩ : ∃ r rs', rs = r :: rs' := by
      cases rs with
      | cons r rs' => exact ⟨r, rs', rfl⟩
      | nil =>
          rw [List.append_eq_nil_iff, List.append_eq_nil_iff] at hsplit
          rw [hsplit.1.2] at hpiece
          exact absurd ⟨.nil, .nil⟩ hpiece
    have hsingle : Cut B (r :: rs') ([] ++ [[r]] ++ rs'.map fun r => [r]) :=
      cut_around [] [r] rs' (fitsPage_singleton B r)
    obtain ⟨b, hb, hiff⟩ := verdict_some alloc expected htid hcut hinsertable
    obtain ⟨b', hb', hiff'⟩ := verdict_some alloc expected htid hsingle hinsertable
    -- one record a page passes, and the piece in a page of its own does not
    have hpass : b' = true := hiff'.mpr ⟨hpassable, fun page hpage => by
      obtain ⟨r', -, rfl⟩ := List.mem_map.mp (show page ∈ (r :: rs').map fun r => [r] from hpage)
      exact ascendingRecords_singleton r'⟩
    have hfail : ¬ b = true := fun h => hpiece ((hiff.mp h).2 piece (by simp))
    have heq := hsame _ _ hcut hsingle
    rw [hb, hb', Option.some.injEq] at heq
    exact hfail (heq.trans hpass)
  · intro hcond pages pages' hcut hcut'
    by_cases hbad : ∃ r ∈ rs, ¬ Insertable r.allocIndex ∨ ¬ Insertable r.atomicIndex
    · rw [verdict_none alloc expected htid hcut hbad, verdict_none alloc expected htid hcut' hbad]
    · push Not at hbad
      obtain ⟨b, hb, hiff⟩ := verdict_some alloc expected htid hcut hbad
      obtain ⟨b', hb', hiff'⟩ := verdict_some alloc expected htid hcut' hbad
      have heq : b = true ↔ b' = true := by
        rw [hiff, hiff']
        refine and_congr_right fun hpassable => ?_
        have hasc := hcond.resolve_right (not_not.mpr hpassable)
        exact ⟨fun _ page hpage => hasc page (hcut'.part hpage) (hcut'.fits page hpage),
          fun _ page hpage => hasc page (hcut.part hpage) (hcut.fits page hpage)⟩
      rw [hb, hb', Bool.eq_iff_iff.mpr heq]

/-- The verdict on the records of a thread does not depend on where its pages end,
whatever traces are expected and whichever allocations of the checker fail. -/
def CutIndependent (B : Build) (tid : Nat) (rs : List Record) : Prop :=
  ∀ alloc expected pages pages', Cut B rs pages → Cut B rs pages' →
    verdict B alloc expected tid pages = verdict B alloc expected tid pages'

/-- The alloc indexes of the records are those below some number that the checker
has room for, and so are the atomic indexes. -/
structure WholeRecords (rs : List Record) : Prop where
  alloc : ∃ n ≤ 2 ^ 63, ∀ i, i ∈ validIndexes (rs.map Record.allocIndex) ↔ i < n
  atomic : ∃ n ≤ 2 ^ 63, ∀ i, i ∈ validIndexes (rs.map Record.atomicIndex) ↔ i < n

theorem Complete.below {alloc : Nat → Bool} {is : List Nat} (h : Complete alloc is) :
    ∃ n ≤ 2 ^ 63, ∀ i, i ∈ is ↔ i < n := by
  obtain ⟨⟨set, hadd⟩, n, hall⟩ := h
  refine ⟨n, Nat.le_of_not_lt fun hlt => ?_, hall⟩
  cases (IndexSet.addAll_none is .empty ⟨2 ^ 63, (hall _).mpr hlt, Nat.le_refl _⟩).symm.trans hadd

/-- With room for every index, all insertions succeed. -/
theorem complete_of_below {is : List Nat} (h : ∃ n ≤ 2 ^ 63, ∀ i, i ∈ is ↔ i < n) :
    Complete (fun _ => true) is := by
  obtain ⟨n, hn, hall⟩ := h
  have halloc : ∀ n : Nat, (fun _ => true) n = true := fun _ => rfl
  obtain ⟨set, hadd, -⟩ := IndexSet.Holds.empty.addAll_of_lt halloc
    fun i hi => Nat.lt_of_lt_of_le ((hall i).mp hi) hn
  exact ⟨⟨set, hadd⟩, n, hall⟩

/-- Without expected traces the records match. -/
theorem passable_unexpected {rs : List Record} (h : WholeRecords rs) (tid : Nat) :
    Passable (fun _ => true) (fun _ => none) tid rs where
  matched := by rw [MatchState.matchPage_unexpected]
  consumed := by
    rw [MatchState.matchPage_unexpected]
    rfl
  allocComplete := complete_of_below h.alloc
  atomicComplete := complete_of_below h.atomic

/-- The verdict on the records of a thread does not depend on where its pages end
exactly where the indexes ascend in every piece that a page can have, or where
the indexes are not whole. -/
theorem verdict_same_iff (B : Build) (tid : Nat) (htid : tid < maxNthreads) (rs : List Record) :
    CutIndependent B tid rs ↔
      (∀ piece, piece <:+: rs → FitsPage B piece → AscendingRecords piece) ∨
        ¬ WholeRecords rs := by
  constructor
  · intro hsame
    refine ((verdict_eq_iff B (fun _ => true) (fun _ => none) htid rs).mp
      (hsame _ _)).imp_right fun hno hwhole => hno (passable_unexpected hwhole tid)
  · intro hcond alloc expected
    refine (verdict_eq_iff B alloc expected htid rs).mpr (hcond.imp_right fun hno hpass => hno ?_)
    exact ⟨hpass.allocComplete.below, hpass.atomicComplete.below⟩

/-- A `free` record with an alloc index. -/
def freeRecord (allocIndex : UInt64) : Record where
  type := .free
  zeroFlag := false
  padding := 0
  pointer := 64
  fields := [allocIndex.toNat, 0]
  popped := 0
  depth := 0
  diff := []
  pointer_lt := by decide
  fields_length := rfl
  fields_lt := by
    have hlt := allocIndex.toNat_lt
    simpa using hlt
  diff_length := rfl
  depth_lt := by decide
  diff_lt := by simp
  noStack := fun _ => rfl

/-- Two records with ascending indexes. -/
theorem verdict_same_ascending :
    CutIndependent literalBuild 1 [freeRecord 0, freeRecord 1] := by
  have hasc : AscendingRecords [freeRecord 0, freeRecord 1] :=
    ⟨show List.Pairwise _ _ by decide +kernel, show List.Pairwise _ _ by decide +kernel⟩
  exact (verdict_same_iff literalBuild 1 (by decide) [freeRecord 0, freeRecord 1]).mpr
    (.inl fun piece hpart _ => hasc.part hpart)

/-- The second record has a smaller index.  In one page the checker fails the
test, in two pages it passes. -/
theorem verdict_depends_on_cut :
    let expected : Nat → Option (List ExpectedEntry) :=
      fun tid => if tid = 1 then some [{ type := EntryType.free.code, atleast := 2, atmost := 2 }]
        else none
    let rs := [freeRecord 1, freeRecord 0]
    ∃ pages pages', Cut literalBuild rs pages ∧ Cut literalBuild rs pages' ∧
      verdict literalBuild (fun _ => true) expected 1 pages = some false ∧
      verdict literalBuild (fun _ => true) expected 1 pages' = some true := by
  refine ⟨[[freeRecord 1, freeRecord 0]], [[freeRecord 1], [freeRecord 0]], ⟨rfl, by simp, ?_⟩,
    cut_around [freeRecord 1] [freeRecord 0] [] (fitsPage_singleton _ _), by decide +kernel,
    by decide +kernel⟩
  rw [List.forall_mem_singleton, FitsPage]
  decide +kernel

end Coldtrace
