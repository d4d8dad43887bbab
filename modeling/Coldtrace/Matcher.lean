import Mathlib.Algebra.GroupWithZero.Nat
import Mathlib.Data.List.Forall2
import Mathlib.Logic.Function.Basic
import Mathlib.Tactic.Common

/-!
# The matcher of the checker

The model of the matching functions of `trace_checker.c`.  A test registers an
expected trace for a thread: items that each ask for records of one type, with
bounds on their number, and for a pointer that is the same at every item with
the same check slot.  The matcher reads the records of a thread one by one.

* A wild item skips records up to the first one of its type.
* Any other item takes as many records as it can.  Once it has enough, a record
  that it does not take goes to the next item.

An expected array ends with an entry that is not set.  Here it is the list of
the entries before that one, and the end of the list is `EXPECT_END`.  The
iterator of the source has a copy of the check slot of its entry, which is read
from the entry here.

Every record that the matcher takes for an item with a slot has the pointer that
the slot has in the end (`Slots.Le`), for a slot is written once.  What the
matcher accepts is cut into one segment for each item (`matcher_sound`).
-/

namespace Coldtrace

/-! ## Records and expected entries -/

/-- What the checker reads of a record. -/
structure Seen where
  type : UInt8
  ptr : UInt64
  size : UInt64
  allocIndex : UInt64
  atomicIndex : UInt64
  ptr_lt : ptr.toNat < 2 ^ 48
deriving DecidableEq

/-- `MAX_ENTRY_VALUES`. -/
def maxEntryValues : Nat := 128

/-- `struct expected_entry`.  `check` is `none` for `NO_CHECK`. -/
structure ExpectedEntry where
  atleast : UInt32 := 1
  atmost : UInt32 := 1
  check : Option (Fin maxEntryValues) := none
  type : UInt8
  wild : Bool := false
  size : Int32 := -1
deriving DecidableEq

/-- `_entry_ptr_values`. -/
def Slots := Fin maxEntryValues → UInt64

/-- `CHECK_UNINITIALIZED`. -/
def checkUninitialized : UInt64 := ~~~0

/-- `struct expected_entry_iterator`.  The counters are `int`s. -/
structure ExpectedIterator where
  atleast : Int
  atmost : Int
  e : List ExpectedEntry
deriving DecidableEq

namespace ExpectedIterator

/-- `init_expected_entry_iterator`. -/
def init : List ExpectedEntry → ExpectedIterator
  | [] => ⟨0, 0, []⟩
  | x :: e => ⟨x.atleast.toInt32.toInt, x.atmost.toInt32.toInt, x :: e⟩

@[simp] theorem init_e (e : List ExpectedEntry) : (init e).e = e := by cases e <;> rfl

/-- `next_expected_entry_and_reset`. -/
def next (it : ExpectedIterator) : ExpectedIterator :=
  match it.e with
  | [] => it
  | _ :: e => init e

/-- The end of `_check_non_wildcard`, once a record is taken. -/
def counted (it : ExpectedIterator) : ExpectedIterator :=
  let it := if it.atleast > 0 then { it with atleast := it.atleast - 1 } else it
  if it.atmost = 0 then it
  else
    let it' := { it with atmost := it.atmost - 1 }
    if it.atmost = 1 then it'.next else it'

end ExpectedIterator

/-! ## Matching one record -/

/-- `enum pointer_match`. -/
inductive PointerMatch where
  | matchPtr
  | matchInitPtr
  | mismatchPtr
  | nocheckPtr
deriving DecidableEq, Repr

/-- `enum size_match`. -/
inductive SizeMatch where
  | matchSize
  | mismatchSize
  | nocheckSize
deriving DecidableEq, Repr

/-- `_check_ptr`. -/
def checkPtr (ptr : UInt64) (x : ExpectedEntry) (slots : Slots) : PointerMatch × Slots :=
  match x.check with
  | none => (.nocheckPtr, slots)
  | some k =>
      if slots k = checkUninitialized then (.matchInitPtr, Function.update slots k ptr)
      else if slots k = ptr then (.matchPtr, slots)
      else (.mismatchPtr, slots)

/-- `_check_size`. -/
def checkSize (size : UInt64) (x : ExpectedEntry) : SizeMatch :=
  if x.size = -1 then .nocheckSize
  else if size ≠ x.size.toInt64.toUInt64 then .mismatchSize
  else .matchSize

/-- What a check returns, with the slots and the iterator after it. -/
structure Checked where
  ok : Bool
  slots : Slots
  it : ExpectedIterator

/-- `_check_non_wildcard`, at the entry of the iterator.  `skip` is what
`_check_next_expected` does. -/
def checkNonWildcard (r : Seen) (slots : Slots) (it : ExpectedIterator) (x : ExpectedEntry)
    (skip : Checked) : Checked :=
  if r.type ≠ x.type then
    if it.atleast > 0 then ⟨false, slots, it⟩ else skip
  else if checkSize r.size x = .mismatchSize then
    if it.atleast = 0 then skip else ⟨false, slots, it⟩
  else
    match checkPtr r.ptr x slots with
    | (.mismatchPtr, slots) => if it.atleast = 0 then skip else ⟨false, slots, it⟩
    | (_, slots) => ⟨true, slots, it.counted⟩

/-- `_check_wildcard`, at the entry of the iterator. -/
def checkWildcard (r : Seen) (slots : Slots) (it : ExpectedIterator)
    (x : ExpectedEntry) : Checked :=
  if r.type ≠ x.type then ⟨true, slots, it⟩
  else
    match checkPtr r.ptr x slots with
    | (.mismatchPtr, slots) => ⟨false, slots, it⟩
    | (_, slots) => ⟨true, slots, it.next⟩

/-- `_check_entry`, for an iterator with these counters at these entries.  It is
not called at the end of them. -/
def checkFrom (r : Seen) (slots : Slots) : Int → Int → List ExpectedEntry → Checked
  | atleast, atmost, [] => ⟨false, slots, ⟨atleast, atmost, []⟩⟩
  | atleast, atmost, x :: e =>
      if x.wild then checkWildcard r slots ⟨atleast, atmost, x :: e⟩ x
      else
        checkNonWildcard r slots ⟨atleast, atmost, x :: e⟩ x
          (if e.isEmpty then ⟨false, slots, .init []⟩
            else
              checkFrom r slots (ExpectedIterator.init e).atleast
                (ExpectedIterator.init e).atmost e)

/-- `_check_entry`. -/
def checkEntry (r : Seen) (slots : Slots) (it : ExpectedIterator) : Checked :=
  checkFrom r slots it.atleast it.atmost it.e

/-! ## Matching the records of all threads -/

/-- The expected traces, and how far the matcher is with each. -/
structure MatchState where
  /-- `_expected`. -/
  expected : Nat → Option (List ExpectedEntry)
  /-- `_expected_iterators`, `none` where the entry is `NULL`. -/
  iterators : Nat → Option ExpectedIterator := fun _ => none
  slots : Slots := fun _ => checkUninitialized

namespace MatchState

/-- The lines of `coldtrace_writer_close` before the loop. -/
def openPage (s : MatchState) (tid : Nat) : MatchState :=
  match s.iterators tid, s.expected tid with
  | none, some e => { s with iterators := Function.update s.iterators tid (some (.init e)) }
  | _, _ => s

/-- What the loop of `coldtrace_writer_close` does to match one record. -/
def matchOne (s : MatchState) (tid : Nat) (r : Seen) : Bool × MatchState :=
  match s.iterators tid with
  | none => (true, s)
  | some it =>
      if it.e.isEmpty then (true, s)
      else
        let c := checkEntry r s.slots it
        (c.ok,
          { s with slots := c.slots, iterators := Function.update s.iterators tid (some c.it) })

/-- The records of a page in their order, and whether no check returned
false. -/
def matchAll (s : MatchState) (tid : Nat) : List Seen → Bool × MatchState
  | [] => (true, s)
  | r :: rs =>
      let (ok, s) := s.matchOne tid r
      let (oks, s) := matchAll s tid rs
      (ok && oks, s)

/-- A page of a thread. -/
def matchPage (s : MatchState) (tid : Nat) (rs : List Seen) : Bool × MatchState :=
  (s.openPage tid).matchAll tid rs

/-- Pages of any threads, with the results for each. -/
def matchPages (s : MatchState) : List (Nat × List Seen) → List (Nat × Bool) × MatchState
  | [] => ([], s)
  | (tid, rs) :: pages =>
      let (ok, s) := s.matchPage tid rs
      let (oks, s) := matchPages s pages
      ((tid, ok) :: oks, s)

end MatchState

/-- The loop of `check_empty_expected_trace` that skips optional entries, for an
iterator with this counter at these entries. -/
def skipOptional : Int → Int → List ExpectedEntry → ExpectedIterator
  | atleast, atmost, [] => ⟨atleast, atmost, []⟩
  | atleast, atmost, x :: e =>
      if atleast = 0 then
        skipOptional (ExpectedIterator.init e).atleast (ExpectedIterator.init e).atmost e
      else ⟨atleast, atmost, x :: e⟩

/-- The iterator is at `EXPECT_END` once optional entries are skipped. -/
def ExpectedIterator.consumed (it : ExpectedIterator) : Bool :=
  (skipOptional it.atleast it.atmost it.e).e.isEmpty

/-! ## Slots -/

/-- A slot that is set keeps its pointer. -/
def Slots.Le (slots slots' : Slots) : Prop :=
  ∀ k, slots k ≠ checkUninitialized → slots' k = slots k

theorem Slots.Le.refl (slots : Slots) : slots.Le slots := fun _ _ => rfl

theorem Slots.Le.trans {slots₁ slots₂ slots₃ : Slots} (h : slots₁.Le slots₂)
    (h' : slots₂.Le slots₃) : slots₁.Le slots₃ := by
  intro k hk
  have hk₂ := h k hk
  rw [h' k (by rw [hk₂]; exact hk), hk₂]

theorem Seen.ptr_ne (r : Seen) : r.ptr ≠ checkUninitialized := by
  intro h
  have hlt := r.ptr_lt
  rw [h] at hlt
  exact absurd hlt (by decide)

/-- The record has the pointer of the slot of the item, if it has a slot. -/
def ExpectedEntry.Agrees (slots : Slots) (x : ExpectedEntry) (r : Seen) : Prop :=
  ∀ k, x.check = some k → slots k = r.ptr

theorem ExpectedEntry.Agrees.mono {slots slots' : Slots} {x : ExpectedEntry} {r : Seen}
    (h : x.Agrees slots r) (hle : slots.Le slots') : x.Agrees slots' r := by
  intro k hk
  have heq := h k hk
  rw [hle k (by rw [heq]; exact r.ptr_ne), heq]

/-- The record is one that an item that is not wild takes. -/
structure ExpectedEntry.Takes (slots : Slots) (x : ExpectedEntry) (r : Seen) : Prop where
  type : r.type = x.type
  size : x.size ≠ -1 → r.size = x.size.toInt64.toUInt64
  agrees : x.Agrees slots r

theorem ExpectedEntry.Takes.mono {slots slots' : Slots} {x : ExpectedEntry} {r : Seen}
    (h : x.Takes slots r) (hle : slots.Le slots') : x.Takes slots' r :=
  ⟨h.type, h.size, h.agrees.mono hle⟩

/-! ## What a check can do -/

/-- What `_check_ptr` can do. -/
inductive CheckedPtr (r : Seen) (x : ExpectedEntry) (slots : Slots) :
    PointerMatch × Slots → Prop where
  | refused : CheckedPtr r x slots (.mismatchPtr, slots)
  | agreed {m : PointerMatch} {slots' : Slots} : m ≠ .mismatchPtr → slots.Le slots' →
      x.Agrees slots' r → CheckedPtr r x slots (m, slots')

theorem checkPtr_spec (r : Seen) (x : ExpectedEntry) (slots : Slots) :
    CheckedPtr r x slots (checkPtr r.ptr x slots) := by
  rw [checkPtr]
  split
  next hnone =>
    exact .agreed (by simp) (.refl slots) fun k hk => by cases hnone.symm.trans hk
  next k hk =>
    split
    next hun =>
      refine .agreed (by simp) (fun j hj => Function.update_of_ne ?_ ..) fun j hj => ?_
      · rintro rfl
        exact hj hun
      · cases hk.symm.trans hj
        exact Function.update_self ..
    next =>
      split
      next heq =>
        refine .agreed (by simp) (.refl slots) fun j hj => ?_
        cases hk.symm.trans hj
        exact heq
      next => exact .refused

/-- What `_check_non_wildcard` can do. -/
inductive CheckedPlain (r : Seen) (slots : Slots) (it : ExpectedIterator) (x : ExpectedEntry)
    (skip : Checked) : Checked → Prop where
  | refused : CheckedPlain r slots it x skip ⟨false, slots, it⟩
  | skipped : it.atleast ≤ 0 → CheckedPlain r slots it x skip skip
  | taken {slots' : Slots} : slots.Le slots' → x.Takes slots' r →
      CheckedPlain r slots it x skip ⟨true, slots', it.counted⟩

theorem checkNonWildcard_spec (r : Seen) (slots : Slots) (it : ExpectedIterator)
    (x : ExpectedEntry) (skip : Checked) :
    CheckedPlain r slots it x skip (checkNonWildcard r slots it x skip) := by
  rw [checkNonWildcard]
  split
  next =>
    split
    next => exact .refused
    next hle => exact .skipped (Int.not_lt.mp hle)
  next htype =>
    split
    next =>
      split
      next hzero => exact .skipped (Int.le_of_eq hzero)
      next => exact .refused
    next hsize =>
      have hsize : x.size ≠ -1 → r.size = x.size.toInt64.toUInt64 := by
        intro hne
        by_contra hno
        exact hsize (by rw [checkSize, if_neg hne, if_pos hno])
      have hptr := checkPtr_spec r x slots
      generalize checkPtr r.ptr x slots = result at hptr
      cases hptr with
      | refused =>
          dsimp only
          split
          next hzero => exact .skipped (Int.le_of_eq hzero)
          next => exact .refused
      | @agreed m slots' hne hle hagrees =>
          have htaken : CheckedPlain r slots it x skip ⟨true, slots', it.counted⟩ :=
            .taken hle ⟨not_not.mp htype, hsize, hagrees⟩
          cases m with
          | mismatchPtr => exact absurd rfl hne
          | matchPtr => exact htaken
          | matchInitPtr => exact htaken
          | nocheckPtr => exact htaken

/-- What `_check_wildcard` can do. -/
inductive CheckedWild (r : Seen) (slots : Slots) (it : ExpectedIterator) (x : ExpectedEntry) :
    Checked → Prop where
  | refused : CheckedWild r slots it x ⟨false, slots, it⟩
  | passed : r.type ≠ x.type → CheckedWild r slots it x ⟨true, slots, it⟩
  | found {slots' : Slots} : slots.Le slots' → r.type = x.type → x.Agrees slots' r →
      CheckedWild r slots it x ⟨true, slots', it.next⟩

theorem checkWildcard_spec (r : Seen) (slots : Slots) (it : ExpectedIterator) (x : ExpectedEntry) :
    CheckedWild r slots it x (checkWildcard r slots it x) := by
  rw [checkWildcard]
  split
  next hne => exact .passed hne
  next htype =>
    have hptr := checkPtr_spec r x slots
    generalize checkPtr r.ptr x slots = result at hptr
    cases hptr with
    | refused => exact .refused
    | @agreed m slots' hne hle hagrees =>
        have hfound : CheckedWild r slots it x ⟨true, slots', it.next⟩ :=
          .found hle (not_not.mp htype) hagrees
        cases m with
        | mismatchPtr => exact absurd rfl hne
        | matchPtr => exact hfound
        | matchInitPtr => exact hfound
        | nocheckPtr => exact hfound

/-- A check sets slots and changes none. -/
theorem checkFrom_le (r : Seen) (slots : Slots) (e : List ExpectedEntry) : ∀ (atleast atmost : Int),
    slots.Le (checkFrom r slots atleast atmost e).slots := by
  induction e with
  | nil => exact fun _ _ => .refl slots
  | cons x e ih =>
      intro atleast atmost
      rw [checkFrom]
      split
      next =>
        have hspec := checkWildcard_spec r slots ⟨atleast, atmost, x :: e⟩ x
        generalize checkWildcard r slots ⟨atleast, atmost, x :: e⟩ x = c at hspec
        cases hspec with
        | refused => exact .refl slots
        | passed => exact .refl slots
        | found hle => exact hle
      next =>
        have hspec := checkNonWildcard_spec r slots ⟨atleast, atmost, x :: e⟩ x
          (if e.isEmpty then ⟨false, slots, .init []⟩
            else
              checkFrom r slots (ExpectedIterator.init e).atleast
                (ExpectedIterator.init e).atmost e)
        generalize checkNonWildcard r slots ⟨atleast, atmost, x :: e⟩ x _ = c at hspec
        cases hspec with
        | refused => exact .refl slots
        | taken hle => exact hle
        | skipped =>
            split
            next => exact .refl slots
            next => exact ih _ _

/-! ## Segments -/

/-- What is asked of an item: counts that an `int` has, a wild item that is not
optional, and bounds that some number of records meets. -/
structure ExpectedEntry.Valid (x : ExpectedEntry) : Prop where
  atleast_lt : x.atleast.toNat < 2 ^ 31
  atmost_lt : x.atmost.toNat < 2 ^ 31
  wild : x.wild = true → 1 ≤ x.atleast.toNat
  plain : x.wild = false → x.atmost = 0 ∨ x.atleast.toNat ≤ x.atmost.toNat

/-- The records are a segment of an item. -/
inductive ExpectedEntry.Accepts (slots : Slots) (x : ExpectedEntry) : List Seen → Prop where
  | wild {others : List Seen} {last : Seen} : x.wild = true → (∀ r ∈ others, r.type ≠ x.type) →
      last.type = x.type → x.Agrees slots last → x.Accepts slots (others ++ [last])
  | plain {seg : List Seen} : x.wild = false → (∀ r ∈ seg, x.Takes slots r) →
      x.atleast.toNat ≤ seg.length → (x.atmost ≠ 0 → seg.length ≤ x.atmost.toNat) →
      x.Accepts slots seg

theorem ExpectedEntry.Accepts.mono {slots slots' : Slots} {x : ExpectedEntry} {seg : List Seen}
    (h : x.Accepts slots seg) (hle : slots.Le slots') : x.Accepts slots' seg := by
  cases h with
  | wild hw hothers hlast hagrees => exact .wild hw hothers hlast (hagrees.mono hle)
  | plain hw htakes hmin hmax => exact .plain hw (fun r hr => (htakes r hr).mono hle) hmin hmax

/-- The segment leaves the item no room for another record. -/
def ExpectedEntry.Full (x : ExpectedEntry) (seg : List Seen) : Prop :=
  x.wild = true ∨ x.atmost ≠ 0 ∧ seg.length = x.atmost.toNat

/-- The items are used up with their segments, since the last has no room. -/
inductive UsedUp : List ExpectedEntry → List (List Seen) → Prop where
  | nil : UsedUp [] []
  | concat {es : List ExpectedEntry} {segs : List (List Seen)} {x : ExpectedEntry}
      {seg : List Seen} : x.Full seg → UsedUp (es ++ [x]) (segs ++ [seg])

theorem UsedUp.append {es₀ es : List ExpectedEntry} {segs₀ segs : List (List Seen)}
    (h : UsedUp es segs) (hne : es ≠ []) : UsedUp (es₀ ++ es) (segs₀ ++ segs) := by
  cases h with
  | nil => exact absurd rfl hne
  | concat hfull =>
      rw [← List.append_assoc, ← List.append_assoc]
      exact .concat hfull

/-- The records are one segment for each item, and then a rest that is empty
unless the items are used up. -/
def Segmented (slots : Slots) (es : List ExpectedEntry) (rs : List Seen) : Prop :=
  ∃ segs rest, rs = segs.flatten ++ rest ∧ List.Forall₂ (fun x seg => x.Accepts slots seg) es segs ∧
    (rest ≠ [] → UsedUp es segs)

/-! ## Progress -/

/-- What the counters of the iterator say about the records of its item so
far. -/
inductive Partway (slots : Slots) : ExpectedIterator → List Seen → Prop where
  | ended {atleast atmost : Int} {cur : List Seen} : Partway slots ⟨atleast, atmost, []⟩ cur
  | wild {x : ExpectedEntry} {e : List ExpectedEntry} {atleast atmost : Int} {cur : List Seen} :
      x.wild = true → 0 < atleast → (∀ r ∈ cur, r.type ≠ x.type) →
      Partway slots ⟨atleast, atmost, x :: e⟩ cur
  | plain {x : ExpectedEntry} {e : List ExpectedEntry} {atleast atmost : Int} {cur : List Seen} :
      x.wild = false → (∀ r ∈ cur, x.Takes slots r) →
      atleast = ((x.atleast.toNat - cur.length : Nat) : Int) → (x.atmost = 0 → atmost = 0) →
      (x.atmost ≠ 0 → cur.length < x.atmost.toNat ∧
        atmost = (x.atmost.toNat : Int) - (cur.length : Int)) →
      Partway slots ⟨atleast, atmost, x :: e⟩ cur

theorem Partway.mono {slots slots' : Slots} {it : ExpectedIterator} {cur : List Seen}
    (h : Partway slots it cur) (hle : slots.Le slots') : Partway slots' it cur := by
  cases h with
  | ended => exact .ended
  | wild hw hpos hcur => exact .wild hw hpos hcur
  | plain hw hcur hmin hzero hmax =>
      exact .plain hw (fun r hr => (hcur r hr).mono hle) hmin hzero hmax

/-- An item that needs no more records has its segment. -/
theorem Partway.accepts {slots : Slots} {x : ExpectedEntry} {e : List ExpectedEntry}
    {atleast atmost : Int} {cur : List Seen} (h : Partway slots ⟨atleast, atmost, x :: e⟩ cur)
    (hmin : atleast ≤ 0) : x.Accepts slots cur := by
  cases h with
  | wild _ hpos => exact absurd hpos (Int.not_lt.mpr hmin)
  | plain hw htaken heq _ hmax =>
      exact .plain hw htaken (by omega) fun hne => Nat.le_of_lt (hmax hne).1

/-- An unsigned count as an `int`. -/
theorem toInt_of_lt {n : UInt32} (h : n.toNat < 2 ^ 31) : n.toInt32.toInt = n.toNat := by
  have hmsb : n.toBitVec.msb = false := by
    rw [BitVec.msb_eq_false_iff_two_mul_lt]
    show 2 * n.toNat < 2 ^ 32
    omega
  exact BitVec.toInt_eq_toNat_of_msb hmsb

theorem partway_init {slots : Slots} {e : List ExpectedEntry} (hv : ∀ x ∈ e, x.Valid) :
    Partway slots (.init e) [] := by
  cases e with
  | nil => exact .ended
  | cons x e =>
      have hx := hv x List.mem_cons_self
      rw [ExpectedIterator.init, toInt_of_lt hx.atleast_lt, toInt_of_lt hx.atmost_lt]
      cases hw : x.wild with
      | true => exact .wild hw (by have := hx.wild hw; omega) (fun r hr => by cases hr)
      | false =>
          refine .plain hw (fun r hr => by cases hr) rfl (fun hzero => by rw [hzero]; rfl)
            (fun hne => ⟨?_, by simp⟩)
          have : x.atmost.toNat ≠ 0 := fun h => hne (UInt32.toNat_inj.mp h)
          exact Nat.pos_of_ne_zero this

/-- The matcher is through the items before those of the iterator, and has a
segment for each of them. -/
inductive Progress (slots : Slots) : List ExpectedEntry → List Seen → ExpectedIterator → Prop where
  | mk {past : List ExpectedEntry} {segs : List (List Seen)} {cur : List Seen}
      {it : ExpectedIterator} : List.Forall₂ (fun x seg => x.Accepts slots seg) past segs →
      Partway slots it cur → (it.e = [] → UsedUp past segs) →
      Progress slots (past ++ it.e) (segs.flatten ++ cur) it

theorem Progress.mono {slots slots' : Slots} {es : List ExpectedEntry} {rs : List Seen}
    {it : ExpectedIterator} (h : Progress slots es rs it) (hle : slots.Le slots') :
    Progress slots' es rs it := by
  obtain ⟨hsegs, hcur, hend⟩ := h
  exact .mk (hsegs.imp fun _ _ ha => ha.mono hle) (hcur.mono hle) hend

/-- Progress on the items of an iterator is progress on all of them. -/
theorem Progress.prepend {slots : Slots} {past es : List ExpectedEntry} {segs : List (List Seen)}
    {rs : List Seen} {it : ExpectedIterator} (h : Progress slots es rs it) (hne : es ≠ [])
    (hpast : List.Forall₂ (fun x seg => x.Accepts slots seg) past segs) :
    Progress slots (past ++ es) (segs.flatten ++ rs) it := by
  obtain @⟨past', segs', cur, it, hsegs, hcur, hend⟩ := h
  rw [← List.append_assoc, ← List.append_assoc, ← List.flatten_append]
  refine .mk (List.rel_append hpast hsegs) hcur fun hnil => (hend hnil).append ?_
  rintro rfl
  exact hne (by simpa using hnil)

/-- The counters after a record is taken. -/
theorem counted_eq (atleast atmost : Int) (x : ExpectedEntry) (e : List ExpectedEntry) :
    ExpectedIterator.counted ⟨atleast, atmost, x :: e⟩ =
      if atmost = 1 then .init e
      else ⟨if atleast > 0 then atleast - 1 else atleast,
        if atmost = 0 then 0 else atmost - 1, x :: e⟩ := by
  rw [ExpectedIterator.counted]
  by_cases hone : atmost = 1
  · subst hone
    by_cases hpos : atleast > 0 <;> simp [hpos, ExpectedIterator.next]
  · by_cases hzero : atmost = 0 <;> by_cases hpos : atleast > 0 <;> simp [hone, hzero, hpos]

/-- The iterator is still at the item. -/
theorem progress_stay {slots : Slots} {x : ExpectedEntry} {e : List ExpectedEntry}
    {atleast atmost : Int} {cur : List Seen} (h : Partway slots ⟨atleast, atmost, x :: e⟩ cur) :
    Progress slots (x :: e) cur ⟨atleast, atmost, x :: e⟩ :=
  .mk .nil h fun hnil => by cases hnil

/-- An item that has its segment and no room is done. -/
theorem progress_next {slots : Slots} {x : ExpectedEntry} {e : List ExpectedEntry} {seg : List Seen}
    (hv : ∀ y ∈ e, y.Valid) (haccepts : x.Accepts slots seg) (hfull : x.Full seg) :
    Progress slots (x :: e) seg (.init e) := by
  have hused : UsedUp ([] ++ [x]) ([] ++ [seg]) := .concat hfull
  have h : Progress slots ([x] ++ (ExpectedIterator.init e).e) ([seg].flatten ++ []) (.init e) :=
    .mk (.cons haccepts .nil) (partway_init hv) fun _ => hused
  simpa using h

/-- A record that an item has taken: the item keeps its counters, or it is full
and the iterator is at the next one. -/
theorem progress_counted {slots : Slots} {x : ExpectedEntry} {e : List ExpectedEntry}
    {atleast atmost : Int} {cur : List Seen} {r : Seen} (hv : ∀ y ∈ x :: e, y.Valid)
    (hw : x.wild = false) (hcur : Partway slots ⟨atleast, atmost, x :: e⟩ cur)
    (htakes : x.Takes slots r) :
    Progress slots (x :: e) (cur ++ [r])
      (ExpectedIterator.counted ⟨atleast, atmost, x :: e⟩) := by
  cases hcur with
  | wild hwild => cases hw.symm.trans hwild
  | plain _ htaken hmin hzero hmax =>
      have htaken' : ∀ r' ∈ cur ++ [r], x.Takes slots r' :=
        List.forall_mem_append.mpr ⟨htaken, List.forall_mem_singleton.mpr htakes⟩
      have hlen : (cur ++ [r]).length = cur.length + 1 := List.length_append
      rw [counted_eq]
      split
      next hone =>
        have hne : x.atmost ≠ 0 := fun h => by rw [hzero h] at hone; cases hone
        obtain ⟨hlt, hval⟩ := hmax hne
        have hcount : (cur ++ [r]).length = x.atmost.toNat := by omega
        have hbounds := ((hv x List.mem_cons_self).plain hw).resolve_left hne
        exact progress_next (fun y hy => hv y (List.mem_cons_of_mem x hy))
          (.plain hw htaken' (by omega) fun _ => by omega) (.inr ⟨hne, hcount⟩)
      next hone =>
        have hmin' : (if atleast > 0 then atleast - 1 else atleast)
            = ((x.atleast.toNat - (cur ++ [r]).length : Nat) : Int) := by
          rw [hlen]
          split <;> omega
        refine progress_stay (.plain hw htaken' hmin' (fun h => ?_) fun h => ?_)
        · rw [if_pos (hzero h)]
        · obtain ⟨hlt, hval⟩ := hmax h
          rw [if_neg (by omega)]
          omega

/-- A check that does not fail makes progress with the record.  By induction on
the entries, since the record goes on to the next one where an item leaves it. -/
theorem progress_checkFrom (r : Seen) (slots : Slots) (e : List ExpectedEntry) :
    ∀ (atleast atmost : Int) (cur : List Seen), (∀ x ∈ e, x.Valid) →
      Partway slots ⟨atleast, atmost, e⟩ cur → (checkFrom r slots atleast atmost e).ok = true →
      Progress (checkFrom r slots atleast atmost e).slots e (cur ++ [r])
        (checkFrom r slots atleast atmost e).it := by
  induction e with
  | nil => exact fun _ _ _ _ _ hok => by cases hok
  | cons x e ih =>
      intro atleast atmost cur hv hcur
      have hve : ∀ y ∈ e, y.Valid := fun y hy => hv y (List.mem_cons_of_mem x hy)
      rw [checkFrom]
      split
      next hw =>
        have hspec := checkWildcard_spec r slots ⟨atleast, atmost, x :: e⟩ x
        generalize checkWildcard r slots ⟨atleast, atmost, x :: e⟩ x = c at hspec
        intro hok
        cases hcur with
        | plain hplain => cases hw.symm.trans hplain
        | wild _ hpos hothers =>
            cases hspec with
            | refused => cases hok
            | passed hne =>
                have hpassed := List.forall_mem_append.mpr
                  ⟨hothers, List.forall_mem_singleton.mpr hne⟩
                exact progress_stay (.wild hw hpos hpassed)
            | found hle htype hagrees =>
                exact progress_next hve (.wild hw hothers htype hagrees) (.inl hw)
      next hw =>
        have hw : x.wild = false := Bool.eq_false_iff.mpr hw
        have hspec := checkNonWildcard_spec r slots ⟨atleast, atmost, x :: e⟩ x
          (if e.isEmpty then ⟨false, slots, .init []⟩
            else
              checkFrom r slots (ExpectedIterator.init e).atleast
                (ExpectedIterator.init e).atmost e)
        generalize checkNonWildcard r slots ⟨atleast, atmost, x :: e⟩ x _ = c at hspec
        intro hok
        cases hspec with
        | refused => cases hok
        | taken hle htakes => exact progress_counted hv hw (hcur.mono hle) htakes
        | skipped hmin =>
            cases e with
            | nil => cases hok
            | cons y e =>
                simp only [List.isEmpty_cons, Bool.false_eq_true, if_false] at hok ⊢
                have hle := checkFrom_le r slots (y :: e) (ExpectedIterator.init (y :: e)).atleast
                  (ExpectedIterator.init (y :: e)).atmost
                have hnext := ih _ _ [] hve (partway_init hve) hok
                have haccepts := (hcur.accepts hmin).mono hle
                have hflat : [cur].flatten ++ ([] ++ [r]) = cur ++ [r] := by simp
                rw [← hflat]
                exact hnext.prepend (by simp) (.cons haccepts .nil)

/-- The items that are left at the end are optional, and have the segment that is
open and empty ones. -/
theorem segments_of_consumed {slots : Slots} (e : List ExpectedEntry) :
    ∀ (atleast atmost : Int) (cur : List Seen), (∀ x ∈ e, x.Valid) →
      Partway slots ⟨atleast, atmost, e⟩ cur → (skipOptional atleast atmost e).e = [] → e ≠ [] →
      ∃ segs, segs.flatten = cur ∧ List.Forall₂ (fun x seg => x.Accepts slots seg) e segs := by
  induction e with
  | nil => exact fun _ _ _ _ _ _ hne => absurd rfl hne
  | cons x e ih =>
      intro atleast atmost cur hv hcur hskip _
      have hve : ∀ y ∈ e, y.Valid := fun y hy => hv y (List.mem_cons_of_mem x hy)
      rw [skipOptional] at hskip
      split at hskip
      next hzero =>
        have haccepts := hcur.accepts (Int.le_of_eq hzero)
        cases e with
        | nil => exact ⟨[cur], by simp, .cons haccepts .nil⟩
        | cons y e =>
            obtain ⟨segs, hflat, hsegs⟩ := ih _ _ [] hve (partway_init hve) hskip (by simp)
            exact ⟨cur :: segs, by simp [hflat], .cons haccepts hsegs⟩
      next => cases hskip

theorem Progress.segmented {slots : Slots} {es : List ExpectedEntry} {rs : List Seen}
    {it : ExpectedIterator} (h : Progress slots es rs it) (hv : ∀ x ∈ es, x.Valid)
    (hconsumed : it.consumed = true) : Segmented slots es rs := by
  obtain @⟨past, segs, cur, ⟨atleast, atmost, e⟩, hsegs, hcur, hend⟩ := h
  have hskip : (skipOptional atleast atmost e).e = [] := List.isEmpty_iff.mp hconsumed
  cases e with
  | nil => exact ⟨segs, cur, rfl, by simpa using hsegs, fun _ => by simpa using hend rfl⟩
  | cons x e =>
      obtain ⟨segs', hflat, hsegs'⟩ := segments_of_consumed (x :: e) atleast atmost cur
        (fun y hy => hv y (List.mem_append_right past hy)) hcur hskip (by simp)
      exact ⟨segs ++ segs', [], by simp [hflat], List.rel_append hsegs hsegs',
        fun h => absurd rfl h⟩

/-! ## Runs -/

namespace MatchState

/-- The records of a thread in its pages. -/
def recordsOf (tid : Nat) (pages : List (Nat × List Seen)) : List Seen :=
  (pages.filter fun page => page.1 = tid).flatMap Prod.snd

theorem recordsOf_cons_self (tid : Nat) (rs : List Seen) (pages : List (Nat × List Seen)) :
    recordsOf tid ((tid, rs) :: pages) = rs ++ recordsOf tid pages := by
  simp [recordsOf]

theorem recordsOf_cons_of_ne {tid t : Nat} (h : t ≠ tid) (rs : List Seen)
    (pages : List (Nat × List Seen)) :
    recordsOf tid ((t, rs) :: pages) = recordsOf tid pages := by
  simp [recordsOf, h]

/-- How far the matcher is with the expected trace of a thread. -/
def At (s : MatchState) (tid : Nat) (es : List ExpectedEntry) (rs : List Seen) : Prop :=
  ∃ it, s.iterators tid = some it ∧ Progress s.slots es rs it

theorem matchOne_at {s : MatchState} {tid : Nat} {es : List ExpectedEntry} {rs : List Seen}
    {r : Seen} (hv : ∀ x ∈ es, x.Valid) (h : s.At tid es rs) (hok : (s.matchOne tid r).1 = true) :
    (s.matchOne tid r).2.At tid es (rs ++ [r]) := by
  obtain ⟨it, hit, hprogress⟩ := h
  obtain @⟨past, segs, cur, ⟨atleast, atmost, e⟩, hsegs, hcur, hend⟩ := hprogress
  rw [matchOne, hit] at hok ⊢
  cases e with
  | nil =>
      refine ⟨⟨atleast, atmost, []⟩, hit, ?_⟩
      rw [List.append_assoc]
      exact .mk hsegs .ended hend
  | cons x e =>
      have hve : ∀ y ∈ x :: e, y.Valid := fun y hy => hv y (List.mem_append_right past hy)
      have hnext := progress_checkFrom r s.slots (x :: e) atleast atmost cur hve hcur hok
      have hle := checkFrom_le r s.slots (x :: e) atleast atmost
      refine ⟨_, Function.update_self .., ?_⟩
      rw [List.append_assoc]
      exact hnext.prepend (by simp) (hsegs.imp fun _ _ ha => ha.mono hle)

theorem matchAll_at {tid : Nat} {es : List ExpectedEntry} (hv : ∀ x ∈ es, x.Valid)
    (rs : List Seen) :
    ∀ (s : MatchState) (past : List Seen), s.At tid es past → (s.matchAll tid rs).1 = true →
      (s.matchAll tid rs).2.At tid es (past ++ rs) := by
  induction rs with
  | nil =>
      intro s past h _
      rw [List.append_nil]
      exact h
  | cons r rs ih =>
      intro s past h hok
      obtain ⟨hone, hall⟩ := Bool.and_eq_true_iff.mp hok
      have hnext := ih _ _ (matchOne_at hv h hone) hall
      rw [List.append_assoc] at hnext
      exact hnext

/-- What the pages of a thread leave as it is. -/
structure Moved (tid : Nat) (s s' : MatchState) : Prop where
  expected : s'.expected = s.expected
  slots : s.slots.Le s'.slots
  others : ∀ t, t ≠ tid → s'.iterators t = s.iterators t

theorem Moved.refl (tid : Nat) (s : MatchState) : Moved tid s s :=
  ⟨rfl, .refl s.slots, fun _ _ => rfl⟩

theorem Moved.trans {tid : Nat} {s₁ s₂ s₃ : MatchState} (h : Moved tid s₁ s₂)
    (h' : Moved tid s₂ s₃) : Moved tid s₁ s₃ :=
  ⟨h'.expected.trans h.expected, h.slots.trans h'.slots,
    fun t ht => (h'.others t ht).trans (h.others t ht)⟩

theorem moved_openPage (s : MatchState) (tid : Nat) : Moved tid s (s.openPage tid) := by
  rw [openPage]
  split
  next => exact ⟨rfl, .refl s.slots, fun t ht => Function.update_of_ne ht ..⟩
  next => exact .refl tid s

theorem moved_matchOne (s : MatchState) (tid : Nat) (r : Seen) :
    Moved tid s (s.matchOne tid r).2 := by
  rw [matchOne]
  split
  next => exact .refl tid s
  next it hit =>
    split
    next => exact .refl tid s
    next =>
      exact ⟨rfl, checkFrom_le r s.slots it.e it.atleast it.atmost,
        fun t ht => Function.update_of_ne ht ..⟩

theorem moved_matchAll (tid : Nat) (rs : List Seen) :
    ∀ s : MatchState, Moved tid s (s.matchAll tid rs).2 := by
  induction rs with
  | nil => exact fun s => .refl tid s
  | cons r rs ih => exact fun s => (moved_matchOne s tid r).trans (ih _)

theorem moved_matchPage (s : MatchState) (tid : Nat) (rs : List Seen) :
    Moved tid s (s.matchPage tid rs).2 :=
  (moved_openPage s tid).trans (moved_matchAll tid rs _)

/-- A thread is at its first item once it has a page. -/
inductive Reached (s : MatchState) (tid : Nat) (es : List ExpectedEntry) : List Seen → Prop where
  | fresh : s.iterators tid = none → s.Reached tid es []
  | opened {rs : List Seen} : s.At tid es rs → s.Reached tid es rs

theorem Reached.mono {s s' : MatchState} {tid tid' : Nat} {es : List ExpectedEntry} {rs : List Seen}
    (h : s.Reached tid es rs) (hmoved : Moved tid' s s') (hne : tid ≠ tid') :
    s'.Reached tid es rs := by
  cases h with
  | fresh hnone => exact .fresh ((hmoved.others tid hne).trans hnone)
  | opened hat =>
      obtain ⟨it, hit, hprogress⟩ := hat
      exact .opened ⟨it, (hmoved.others tid hne).trans hit, hprogress.mono hmoved.slots⟩

theorem openPage_at {s : MatchState} {tid : Nat} {es : List ExpectedEntry} {rs : List Seen}
    (hv : ∀ x ∈ es, x.Valid) (hexpected : s.expected tid = some es) (h : s.Reached tid es rs) :
    (s.openPage tid).At tid es rs := by
  cases h with
  | fresh hnone =>
      rw [openPage, hnone, hexpected]
      have hprogress : Progress s.slots ([] ++ (ExpectedIterator.init es).e) ([].flatten ++ [])
          (.init es) := .mk .nil (partway_init hv) fun _ => .nil
      exact ⟨_, Function.update_self .., by simpa using hprogress⟩
  | opened hat =>
      obtain ⟨it, hit, hprogress⟩ := hat
      refine ⟨it, ?_, ?_⟩ <;> rw [openPage, hit]
      · exact hit
      · exact hprogress

theorem matchPages_reached {tid : Nat} {es : List ExpectedEntry} (hv : ∀ x ∈ es, x.Valid)
    (pages : List (Nat × List Seen)) : ∀ (s : MatchState) (past : List Seen),
      s.expected tid = some es → s.Reached tid es past →
      (∀ ok, (tid, ok) ∈ (s.matchPages pages).1 → ok = true) →
      (s.matchPages pages).2.Reached tid es (past ++ recordsOf tid pages) := by
  induction pages with
  | nil =>
      intro s past _ h _
      rw [recordsOf, List.filter_nil, List.flatMap_nil, List.append_nil]
      exact h
  | cons page pages ih =>
      obtain ⟨t, rs⟩ := page
      intro s past hexpected h hoks
      have hmoved := moved_matchPage s t rs
      have hexpected' : (s.matchPage t rs).2.expected tid = some es := by
        rw [hmoved.expected, hexpected]
      have hoks' : ∀ ok, (tid, ok) ∈ ((s.matchPage t rs).2.matchPages pages).1 → ok = true :=
        fun ok hok => hoks ok (List.mem_cons_of_mem _ hok)
      by_cases ht : t = tid
      · subst ht
        have hok : (s.matchPage t rs).1 = true := hoks _ List.mem_cons_self
        have hat := matchAll_at hv rs _ past (openPage_at hv hexpected h) hok
        have hnext := ih _ _ hexpected' (.opened hat) hoks'
        rw [recordsOf_cons_self, ← List.append_assoc]
        exact hnext
      · have hnext := ih _ _ hexpected' (h.mono hmoved (Ne.symm ht)) hoks'
        rw [recordsOf_cons_of_ne ht]
        exact hnext

end MatchState

/-- The matcher is sound.  Where no check of a thread returned false, and its
iterator is in the end at `EXPECT_END` or at optional items only, the records of
the thread are cut into one segment for each item, and a rest that is empty
unless the items are used up.  The pointers of the slots are the same for all
threads. -/
theorem matcher_sound (expected : Nat → Option (List ExpectedEntry))
    (pages : List (Nat × List Seen)) :
    ∃ slots : Slots, ∀ (tid : Nat) (es : List ExpectedEntry) (it : ExpectedIterator),
      expected tid = some es → (∀ x ∈ es, x.Valid) →
      (∀ ok, (tid, ok) ∈ (MatchState.matchPages { expected := expected } pages).1 → ok = true) →
      (MatchState.matchPages { expected := expected } pages).2.iterators tid = some it →
      it.consumed = true →
      Segmented slots es (MatchState.recordsOf tid pages) := by
  refine ⟨(MatchState.matchPages { expected := expected } pages).2.slots, ?_⟩
  intro tid es it hexpected hv hoks hit hconsumed
  have hreached := MatchState.matchPages_reached hv pages { expected := expected } [] hexpected
    (.fresh rfl) hoks
  rw [List.nil_append] at hreached
  generalize MatchState.recordsOf tid pages = rs at hreached ⊢
  cases hreached with
  | fresh hnone => cases hnone.symm.trans hit
  | opened hat =>
      obtain ⟨it', hit', hprogress⟩ := hat
      cases hit'.symm.trans hit
      exact hprogress.segmented hv hconsumed

/-- A thread with an optional item that none of its records is for, a page of
another thread with the same slot in between, and a record after the last item. -/
theorem matcher_sound_two_threads :
    let slot : Option (Fin maxEntryValues) := some ⟨0, by decide⟩
    let read (size : UInt64) : Seen := ⟨2, 64, size, 0, 0, by decide⟩
    let exit : Seen := ⟨20, 0, 0, 0, 0, by decide⟩
    let first : List ExpectedEntry :=
      [{ type := 2, atmost := 0, check := slot, size := 4 },
        { type := 2, atleast := 0, check := slot, size := 8 }, { type := 20, wild := true }]
    let second : List ExpectedEntry := [{ type := 2, check := slot }]
    ∃ slots : Slots, Segmented slots first [read 4, read 4, exit, exit] ∧
      Segmented slots second [read 8] := by
  intro slot read exit first second
  obtain ⟨slots, h⟩ := matcher_sound
    (fun tid => if tid = 1 then some first else if tid = 2 then some second else none)
    [(1, [read 4, read 4]), (2, [read 8]), (1, [exit, exit])]
  have hv : ∀ x ∈ first ++ second, x.Valid := by
    intro x hx
    simp only [first, second, List.cons_append, List.nil_append, List.mem_cons, List.not_mem_nil,
      or_false] at hx
    obtain rfl | rfl | rfl | rfl := hx <;> exact ⟨by decide, by decide, by decide, by decide⟩
  refine ⟨slots, h 1 first ⟨0, 0, []⟩ rfl (fun x hx => hv x (List.mem_append_left _ hx)) ?_ ?_ rfl,
    h 2 second ⟨0, 0, []⟩ rfl (fun x hx => hv x (List.mem_append_right _ hx)) ?_ ?_ rfl⟩
  all_goals decide +kernel

end Coldtrace
