import Mathlib.Data.Nat.Find
import Mathlib.Data.Set.Basic
import Mathlib.Logic.Function.Basic
import Mathlib.Tactic.Common
import Coldtrace.Lib.Bytes
import Coldtrace.Entries
import Coldtrace.Writer
import Coldtrace.Walker
import Coldtrace.IndexSet
import Coldtrace.Matcher

/-!
# The checker of the tests

The rest of the model of `trace_checker.c`.  The checker replaces
`coldtrace_writer_close`, and so it sees every page before it is written.  For
each record it checks that alloc and atomic indexes ascend, calls the callbacks
of the test, and matches the record against the expected trace of the thread.
`coldtrace_main_thread_fini` has the verdict.

The result is `none` where the source reads outside the page or outside its
table of threads, or does not end.

The final loop over the table stops at the first thread without an expected
trace.  So a passed test has checked every registered thread exactly where the
registered threads are the first ones (`passed_checks_registered_iff`).
-/

namespace Coldtrace

open Bytes

/-! ## Pages -/

/-- `MAX_NTHREADS`. -/
def maxNthreads : Nat := 128

/-- What the checker keeps from one page to the next. -/
structure Checker where
  matching : MatchState
  /-- `alloc_indexes`. -/
  allocIndexes : IndexSet := {}
  /-- `atomic_indexes`. -/
  atomicIndexes : IndexSet := {}
  /-- `failed_writer_close`. -/
  failedClose : Bool := false

/-- A page that a thread closes, and what the callbacks of the test return at the
entries of the page. -/
structure Page where
  tid : Nat
  bytes : List UInt8
  callbacks : List (Nat → Bool) := []

theorem entryParsePtr_lt {buffer : List UInt8} {offset : Nat} {ptr : UInt64}
    (h : entryParsePtr buffer offset = some ptr) : ptr.toNat < 2 ^ 48 := by
  rw [entryParsePtr] at h
  obtain ⟨word, -, heq⟩ := Option.bind_eq_some_iff.mp h
  cases heq
  rw [UInt64.toNat_shiftRight]
  change (word &&& ptrMask).toNat >>> 16 < 2 ^ 48
  have hlt := (word &&& ptrMask).toNat_lt
  rw [Nat.shiftRight_eq_div_pow]
  omega

/-- What the checker reads of the record at an offset.  Without an expected trace
it does not read the type, the pointer and the size, which are in the words
that it reads for the index and the size of the record. -/
def seenAt (buffer : List UInt8) (offset : Nat) : Option Seen := do
  let allocIndex ← entryParseAllocIndex buffer offset
  let atomicIndex ← entryParseAtomicIndex buffer offset
  let type ← entryParseType buffer offset
  let ⟨ptr, hptr⟩ ← (entryParsePtr buffer offset).attach
  let size ← entryParseSize buffer offset
  some ⟨type, ptr, size, allocIndex, atomicIndex, entryParsePtr_lt hptr⟩

/-- The variables of the loop of `coldtrace_writer_close`. -/
structure Closing where
  checker : Checker
  previousAllocIndex : Nat := invalidIndex
  previousAtomicIndex : Nat := invalidIndex
  failed : Bool := false

namespace Closing

/-- The body of the loop, where the callbacks return true or not. -/
def entry (alloc : Nat → Bool) (tid : Nat) (c : Closing) (called : Bool) (r : Seen) :
    Option Closing := do
  let (allocOk, previousAllocIndex, allocIndexes) ←
    checkAscending alloc c.previousAllocIndex r.allocIndex.toNat c.checker.allocIndexes
  let (atomicOk, previousAtomicIndex, atomicIndexes) ←
    checkAscending alloc c.previousAtomicIndex r.atomicIndex.toNat c.checker.atomicIndexes
  let (matched, matching) := c.checker.matching.matchOne tid r
  some
    { checker := { c.checker with matching, allocIndexes, atomicIndexes }
      previousAllocIndex, previousAtomicIndex
      failed := c.failed || !allocOk || !atomicOk || !called || !matched }

/-- The loop of `coldtrace_writer_close`, `none` without enough fuel. -/
def loop (alloc : Nat → Bool) (page : Page) : Nat → Nat → EntryIt → Closing → Option Closing
  | 0, _, _, _ => none
  | fuel + 1, n, it, c => do
      let next ← iterNext page.bytes it
      if next then
        let r ← seenAt page.bytes it.offset
        let c ← c.entry alloc page.tid (page.callbacks.all (· n)) r
        let it ← iterAdvance page.bytes it
        loop alloc page fuel (n + 1) it c
      else some c

end Closing

namespace Checker

/-- `coldtrace_writer_close`.  Every round of the loop goes on by some bytes, so
there is fuel for all of them. -/
def writerClose (B : Build) (alloc : Nat → Bool) (c : Checker) (page : Page) : Option Checker :=
  if page.bytes.isEmpty then some c
  else if maxNthreads ≤ page.tid ∨ page.bytes.length < sizeofVersionHeader then none
  else do
    let failed := !decide (page.bytes.take sizeofVersionHeader = B.versionHeader)
    let c := { c with matching := c.matching.openPage page.tid }
    let closed ← Closing.loop alloc page (page.bytes.length + 1) 0
      (iterInit (UInt64.ofNat page.bytes.length)) { checker := c, failed }
    some { closed.checker with failedClose := closed.checker.failedClose || closed.failed }

/-- The pages of a run. -/
def closeAll (B : Build) (alloc : Nat → Bool) : Checker → List Page → Option Checker
  | c, [] => some c
  | c, page :: pages => do
      let c ← c.writerClose B alloc page
      closeAll B alloc c pages

end Checker

/-! ## The verdict -/

/-- The loop of `check_empty_expected_trace` from a thread on. -/
def checkEmptyFrom (s : MatchState) : Nat → Nat → Bool
  | 0, _ => true
  | n + 1, tid =>
      match s.expected tid with
      | none => true
      | some _ =>
          (match s.iterators tid with
            | none => false
            | some it => it.consumed) && checkEmptyFrom s n (tid + 1)

/-- `check_empty_expected_trace`. -/
def checkEmptyExpected (s : MatchState) : Bool := checkEmptyFrom s (maxNthreads - 1) 1

/-- `coldtrace_main_thread_fini`, with what the final callback returns if there is
one.  The result is true for `TEST PASSED`. -/
def Checker.mainThreadFini (c : Checker) (finalCallback : Option Bool) : Option Bool := do
  let (allocOk, _) ← c.allocIndexes.checkNotSeen
  let (atomicOk, _) ← c.atomicIndexes.checkNotSeen
  some (checkEmptyExpected c.matching && allocOk && atomicOk && finalCallback.getD true &&
    !c.failedClose)

/-! ## What a page changes -/

theorem Closing.matching_of_entry {alloc : Nat → Bool} {tid : Nat} {c c' : Closing} {called : Bool}
    {r : Seen} (h : c.entry alloc tid called r = some c') :
    c'.checker.matching = (c.checker.matching.matchOne tid r).2 := by
  rw [Closing.entry] at h
  obtain ⟨_, -, h⟩ := Option.bind_eq_some_iff.mp h
  obtain ⟨_, -, h⟩ := Option.bind_eq_some_iff.mp h
  cases h
  rfl

theorem Closing.moved_of_loop {alloc : Nat → Bool} {page : Page} (fuel : Nat) :
    ∀ {n : Nat} {it : EntryIt} {c c' : Closing}, Closing.loop alloc page fuel n it c = some c' →
      MatchState.Moved page.tid c.checker.matching c'.checker.matching := by
  induction fuel with
  | zero => exact fun h => by cases h
  | succ fuel ih =>
      intro n it c c' h
      rw [Closing.loop] at h
      obtain ⟨next, -, h⟩ := Option.bind_eq_some_iff.mp h
      split at h
      next =>
        obtain ⟨r, -, h⟩ := Option.bind_eq_some_iff.mp h
        obtain ⟨c₁, hentry, h⟩ := Option.bind_eq_some_iff.mp h
        obtain ⟨it₁, -, h⟩ := Option.bind_eq_some_iff.mp h
        have hone := MatchState.moved_matchOne c.checker.matching page.tid r
        rw [← Closing.matching_of_entry hentry] at hone
        exact hone.trans (ih h)
      next =>
        cases h
        exact .refl page.tid _

namespace Checker

theorem moved_of_writerClose {B : Build} {alloc : Nat → Bool} {c c' : Checker} {page : Page}
    (h : c.writerClose B alloc page = some c') :
    MatchState.Moved page.tid c.matching c'.matching ∧ (page.bytes = [] → c' = c) := by
  rw [writerClose] at h
  split at h
  next hempty =>
    cases h
    exact ⟨.refl page.tid _, fun _ => rfl⟩
  next hne =>
    split at h
    next => cases h
    next =>
      obtain ⟨closed, hloop, h⟩ := Option.bind_eq_some_iff.mp h
      cases h
      refine ⟨?_, fun hnil => absurd (List.isEmpty_iff.mpr hnil) hne⟩
      exact (MatchState.moved_openPage c.matching page.tid).trans (Closing.moved_of_loop _ hloop)

/-- A page with the header of the build. -/
theorem writerClose_eq {B : Build} (alloc : Nat → Bool) (c : Checker) (page : Page)
    (htid : page.tid < maxNthreads) (hlen : sizeofVersionHeader ≤ page.bytes.length)
    (hheader : page.bytes.take sizeofVersionHeader = B.versionHeader) :
    c.writerClose B alloc page =
      (Closing.loop alloc page (page.bytes.length + 1) 0
        (iterInit (UInt64.ofNat page.bytes.length))
        { checker := { c with matching := c.matching.openPage page.tid } }).map fun closed =>
          { closed.checker with failedClose := closed.checker.failedClose || closed.failed } := by
  have hne : ¬ page.bytes.isEmpty = true := by
    rw [List.isEmpty_iff_length_eq_zero]
    simp only [sizeofVersionHeader] at hlen
    omega
  have hfailed : (!decide (page.bytes.take sizeofVersionHeader = B.versionHeader)) = false := by
    rw [decide_eq_true hheader]
    rfl
  rw [writerClose, if_neg hne, if_neg (by omega), hfailed]
  exact Option.bind_eq_bind ▸ Option.map_eq_bind.symm

/-- The expected traces stay, and a thread with an iterator has had a page. -/
theorem closeAll_spec {B : Build} {alloc : Nat → Bool} (pages : List Page) :
    ∀ {c c' : Checker}, c.closeAll B alloc pages = some c' →
      c'.matching.expected = c.matching.expected ∧
      ∀ tid, (∃ page ∈ pages, page.tid = tid ∧ page.bytes ≠ []) ∨
        c'.matching.iterators tid = c.matching.iterators tid := by
  induction pages with
  | nil =>
      intro c c' h
      cases h
      exact ⟨rfl, fun _ => .inr rfl⟩
  | cons page pages ih =>
      intro c c' h
      obtain ⟨c₁, hclose, h⟩ := Option.bind_eq_some_iff.mp h
      obtain ⟨hmoved, hnil⟩ := moved_of_writerClose hclose
      obtain ⟨hexpected, hiterators⟩ := ih h
      refine ⟨hexpected.trans hmoved.expected, fun tid => ?_⟩
      rcases hiterators tid with ⟨page', hmem, hpage'⟩ | hsame
      · exact .inl ⟨page', List.mem_cons_of_mem page hmem, hpage'⟩
      · by_cases hbytes : page.bytes = []
        · exact .inr (by rw [hsame, hnil hbytes])
        · by_cases htid : page.tid = tid
          · exact .inl ⟨page, List.mem_cons_self, htid, hbytes⟩
          · exact .inr (hsame.trans (hmoved.others tid (Ne.symm htid)))

end Checker

/-! ## The threads of a passed test -/

theorem checkEmptyFrom_spec (s : MatchState) (n : Nat) : ∀ tid : Nat,
    checkEmptyFrom s n tid = true ↔ ∀ t, tid ≤ t → t < tid + n →
      (∀ t', tid ≤ t' → t' ≤ t → (s.expected t').isSome = true) →
      ∃ it, s.iterators t = some it ∧ it.consumed = true := by
  induction n with
  | zero =>
      intro tid
      refine ⟨fun _ t hle hlt _ => ?_, fun _ => rfl⟩
      omega
  | succ n ih =>
      intro tid
      rw [checkEmptyFrom]
      split
      next hnone =>
        refine ⟨fun _ t hle _ hall => ?_, fun _ => rfl⟩
        have hsome := hall tid (Nat.le_refl _) hle
        rw [hnone] at hsome
        cases hsome
      next es hes =>
        have hhead : (match s.iterators tid with | none => false | some it => it.consumed) = true ↔
            ∃ it, s.iterators tid = some it ∧ it.consumed = true := by
          cases s.iterators tid <;> simp
        rw [Bool.and_eq_true, hhead, ih (tid + 1)]
        constructor
        · rintro ⟨hfirst, hrest⟩ t hle hlt hall
          rcases Nat.eq_or_lt_of_le hle with rfl | hgt
          · exact hfirst
          · exact hrest t hgt (by omega) fun t' hle' => hall t' (by omega)
        · intro h
          refine ⟨h tid (Nat.le_refl _) (by omega) fun t' hle hle' => ?_, ?_⟩
          · rw [Nat.le_antisymm hle' hle, hes]
            rfl
          · intro t hle hlt hall
            refine h t (by omega) (by omega) fun t' hle' hlt' => ?_
            rcases Nat.eq_or_lt_of_le hle' with rfl | hgt
            · rw [hes]
              rfl
            · exact hall t' hgt hlt'

/-- A page of the thread was checked, and its expected trace has only optional
items left. -/
structure Checker.Checked (c : Checker) (pages : List Page) (tid : Nat) : Prop where
  page : ∃ page ∈ pages, page.tid = tid ∧ page.bytes ≠ []
  consumed : ∃ it, c.matching.iterators tid = some it ∧ it.consumed = true

/-- A test that passed has checked every thread with an expected trace. -/
def PassedChecksRegistered (B : Build) (registered : Set Nat) : Prop :=
  ∀ (expected : Nat → Option (List ExpectedEntry)) (alloc : Nat → Bool)
    (finalCallback : Option Bool) (pages : List Page) (c : Checker),
    (∀ tid, (expected tid).isSome = true ↔ tid ∈ registered) →
    Checker.closeAll B alloc { matching := { expected := expected } } pages = some c →
    c.mainThreadFini finalCallback = some true → ∀ tid ∈ registered, c.Checked pages tid

theorem Checker.empty_of_passed {c : Checker} {finalCallback : Option Bool}
    (h : c.mainThreadFini finalCallback = some true) : checkEmptyExpected c.matching = true := by
  rw [mainThreadFini] at h
  obtain ⟨_, -, h⟩ := Option.bind_eq_some_iff.mp h
  obtain ⟨_, -, h⟩ := Option.bind_eq_some_iff.mp h
  simp only [Option.some.injEq, Bool.and_eq_true] at h
  exact h.1.1.1.1

/-- The threads up to the first one without an expected trace are checked. -/
theorem Checker.checked_of_passed {B : Build} {alloc : Nat → Bool}
    {expected : Nat → Option (List ExpectedEntry)} {pages : List Page} {c : Checker}
    {finalCallback : Option Bool} {tid : Nat}
    (hrun : closeAll B alloc { matching := { expected := expected } } pages = some c)
    (hpassed : c.mainThreadFini finalCallback = some true) (hpos : 1 ≤ tid)
    (hlt : tid < maxNthreads)
    (hall : ∀ t, 1 ≤ t → t ≤ tid → (expected t).isSome = true) : c.Checked pages tid := by
  obtain ⟨hexpected, hiterators⟩ := closeAll_spec pages hrun
  have hall' : ∀ t, 1 ≤ t → t ≤ tid → (c.matching.expected t).isSome = true := by
    rw [hexpected]
    exact hall
  have hconsumed := (checkEmptyFrom_spec c.matching (maxNthreads - 1) 1).mp
    (empty_of_passed hpassed) tid hpos (show tid < 1 + (maxNthreads - 1) from hlt) hall'
  refine ⟨?_, hconsumed⟩
  rcases hiterators tid with hpage | hsame
  · exact hpage
  · obtain ⟨it, hit, -⟩ := hconsumed
    cases hit.symm.trans hsame

/-! ## A test that skips a thread -/

/-- A page without records. -/
def headerPage (B : Build) (tid : Nat) : Page := { tid, bytes := B.versionHeader }

theorem Checker.writerClose_headerPage (B : Build) (alloc : Nat → Bool) (c : Checker) {tid : Nat}
    (htid : tid < maxNthreads) :
    c.writerClose B alloc (headerPage B tid) =
      some { c with matching := c.matching.openPage tid } := by
  have hlen : B.versionHeader.length = 8 := B.length_versionHeader
  have htake : B.versionHeader.take sizeofVersionHeader = B.versionHeader :=
    List.take_of_length_le (Nat.le_of_eq hlen)
  rw [writerClose_eq alloc c (headerPage B tid) htid (Nat.le_of_eq hlen.symm) htake]
  simp only [headerPage, hlen]
  exact congrArg (fun b => some { c with matching := c.matching.openPage tid, failedClose := b })
    (Bool.or_false _)

/-- Pages without records of threads with empty expected traces. -/
theorem Checker.closeAll_headerPages (B : Build) (alloc : Nat → Bool) (tids : List Nat) :
    ∀ c : Checker, (∀ t ∈ tids, t < maxNthreads ∧ c.matching.expected t = some []) →
      (∀ t, c.matching.iterators t = none ∨ c.matching.iterators t = some (.init [])) →
      ∃ s : MatchState, c.closeAll B alloc (tids.map (headerPage B)) =
          some { c with matching := s } ∧
        ∀ t, t ∈ tids ∨ c.matching.iterators t = some (.init []) →
          s.iterators t = some (.init []) := by
  induction tids with
  | nil => exact fun c _ _ => ⟨c.matching, rfl, fun t ht => ht.resolve_left (by simp)⟩
  | cons tid tids ih =>
      intro c htids hiterators
      rw [List.forall_mem_cons] at htids
      obtain ⟨⟨hlt, hexpected⟩, htids⟩ := htids
      have hmoved := MatchState.moved_openPage c.matching tid
      have hopen : (c.matching.openPage tid).iterators tid = some (.init []) := by
        rw [MatchState.openPage]
        rcases hiterators tid with hnone | hsome
        · rw [hnone, hexpected]
          exact Function.update_self ..
        · rw [hsome]
          exact hsome
      have hkept : ∀ t, t ≠ tid → (c.matching.openPage tid).iterators t = c.matching.iterators t :=
        hmoved.others
      have hiterators' : ∀ t, (c.matching.openPage tid).iterators t = none ∨
          (c.matching.openPage tid).iterators t = some (.init []) := by
        intro t
        by_cases htid : t = tid
        · subst htid
          exact .inr hopen
        · rw [hkept t htid]
          exact hiterators t
      obtain ⟨s, hrun, hs⟩ := ih { c with matching := c.matching.openPage tid }
        (fun t ht => ⟨(htids t ht).1, by rw [hmoved.expected]; exact (htids t ht).2⟩) hiterators'
      refine ⟨s, ?_, fun t ht => hs t ?_⟩
      · rw [List.map_cons, closeAll, writerClose_headerPage B alloc c hlt]
        exact hrun
      · by_cases htid : t = tid
        · subst htid
          exact .inr hopen
        · rcases ht with ht | ht
          · exact .inl ((List.mem_cons.mp ht).resolve_left htid)
          · exact .inr ((hkept t htid).trans ht)

/-- Where a thread without an expected trace comes before one that has one, a
test can pass without a page of the second: the threads before the first write
pages without records, and every expected trace is empty. -/
theorem not_passedChecksRegistered (B : Build) {registered : Set Nat} {gap tid : Nat}
    (hpos : 1 ≤ gap) (hgap : gap ∉ registered) (hbefore : ∀ t, 1 ≤ t → t < gap → t ∈ registered)
    (hlt : gap < tid) (htid : tid ∈ registered) (hmax : tid < maxNthreads) :
    ¬ PassedChecksRegistered B registered := by
  classical
  intro hpassed
  let expected : Nat → Option (List ExpectedEntry) :=
    fun t => if t ∈ registered then some [] else none
  have hexpected : ∀ t, (expected t).isSome = true ↔ t ∈ registered := by
    intro t
    by_cases ht : t ∈ registered <;> simp [expected, ht]
  obtain ⟨s, hrun, hs⟩ := Checker.closeAll_headerPages B (fun _ => true) (List.range' 1 (gap - 1))
    { matching := { expected := expected } }
    (fun t ht => by
      rw [List.mem_range'_1] at ht
      exact ⟨by omega, if_pos (hbefore t ht.1 (by omega))⟩)
    (fun _ => .inl rfl)
  have hempty : checkEmptyExpected s = true := by
    refine (checkEmptyFrom_spec s (maxNthreads - 1) 1).mpr fun t ht _ hall => ?_
    have hbelow : t < gap := by
      by_contra hge
      have hsome := hall gap hpos (Nat.le_of_not_lt hge)
      rw [(Checker.closeAll_spec _ hrun).1] at hsome
      exact hgap ((hexpected gap).mp hsome)
    exact ⟨.init [], hs t (.inl (List.mem_range'_1.mpr ⟨ht, by omega⟩)), rfl⟩
  have hpass : Checker.mainThreadFini { matching := s } none = some true := by
    show some (checkEmptyExpected s && true && true && true && !false) = some true
    rw [hempty]
    rfl
  obtain ⟨page, hmem, hpage, -⟩ := (hpassed expected _ none _ _ hexpected hrun hpass tid htid).page
  obtain ⟨t, ht, rfl⟩ := List.mem_map.mp hmem
  rw [List.mem_range'_1] at ht
  have heq : t = tid := hpage
  omega

/-- A test that passed has checked every registered thread, whatever the threads
wrote, exactly where no thread before a registered one is left out. -/
theorem passed_checks_registered_iff (B : Build) (registered : Set Nat)
    (hregistered : ∀ tid ∈ registered, 1 ≤ tid ∧ tid < maxNthreads) :
    PassedChecksRegistered B registered ↔
      ∀ tid ∈ registered, ∀ t, 1 ≤ t → t ≤ tid → t ∈ registered := by
  constructor
  · intro hpassed tid htid
    by_contra hno
    push Not at hno
    have hex : ∃ t, 1 ≤ t ∧ t ∉ registered := by
      obtain ⟨t, hpos, -, ht⟩ := hno
      exact ⟨t, hpos, ht⟩
    classical
    obtain ⟨hpos, hgap⟩ := Nat.find_spec hex
    have hbefore : ∀ t, 1 ≤ t → t < Nat.find hex → t ∈ registered := by
      intro t ht hlt
      by_contra hmem
      exact Nat.find_min hex hlt ⟨ht, hmem⟩
    obtain ⟨t, ht, hle, hmem⟩ := hno
    have hfirst : Nat.find hex ≤ tid := Nat.le_trans (Nat.find_min' hex ⟨ht, hmem⟩) hle
    have hne : Nat.find hex ≠ tid := fun heq => hgap (heq ▸ htid)
    exact not_passedChecksRegistered B hpos hgap hbefore (Nat.lt_of_le_of_ne hfirst hne) htid
      (hregistered tid htid).2 hpassed
  · intro hclosed expected alloc finalCallback pages c hexpected hrun hpassed tid htid
    obtain ⟨hpos, hlt⟩ := hregistered tid htid
    exact Checker.checked_of_passed hrun hpassed hpos hlt fun t ht hle =>
      (hexpected t).mpr (hclosed tid htid t ht hle)

/-- Two threads. -/
theorem passed_checks_first_two : PassedChecksRegistered literalBuild {1, 2} := by
  refine (passed_checks_registered_iff literalBuild {1, 2} ?_).mpr ?_
  · rintro tid (rfl | rfl) <;> decide
  · rintro tid htid t hpos hle
    have hle : t ≤ 2 := by
      rcases htid with rfl | rfl
      · exact Nat.le_succ_of_le hle
      · exact hle
    have hcases : t = 1 ∨ t = 2 := by omega
    exact hcases

/-- The second thread alone is registered, with a read that it has to make.  It
never runs, and the test passes. -/
theorem second_thread_not_checked :
    let expected : Nat → Option (List ExpectedEntry) :=
      fun tid => if tid = 2 then some [{ type := EntryType.read.code }] else none
    ∃ c, Checker.closeAll literalBuild (fun _ => true) { matching := { expected := expected } } [] =
        some c ∧ c.mainThreadFini none = some true ∧ ¬ c.Checked [] 2 := by
  intro expected
  refine ⟨_, rfl, rfl, ?_⟩
  rintro ⟨⟨page, hmem, -⟩, -⟩
  cases hmem

end Coldtrace
