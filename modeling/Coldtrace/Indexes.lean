import Mathlib.Data.List.Range
import Mathlib.Data.List.Perm.Basic
import Mathlib.Tactic.Common
import Coldtrace.Lib.Machine
import Coldtrace.Lib.Keyed
import Coldtrace.Subscribers

/-!
# Indexes

Any number of threads publish their calls and events in any order.  The
subscribers of a paired call are a pair, and it is open between the two.  While
a pair of a thread is open no other subscriber of the thread takes an atomic
index.

Every index is then used once.  `Desk.Wf` says where the indexes are that were
taken so far: each is in one entry, or kept for one open pair.
-/

namespace Coldtrace

open Keyed

/-! ## Publications -/

/-- A publication by a thread, with the outcomes of its appends. -/
inductive Publication where
  | before (tid : Nat) (c : Call) (ok : Nat → Bool)
  | after (tid : Nat) (c : Call) (r : Result) (ok : Nat → Bool)
  | event (tid : Nat) (o : Occurrence) (ok : Nat → Bool)

/-- Every append of the publication succeeds. -/
def Publication.Appends : Publication → Prop
  | .before _ _ ok | .after _ _ _ ok | .event _ _ ok => ∀ k, ok k = true

/-- The tracer, and the pairs that are open with the threads they belong to. -/
structure Desk where
  tracer : Tracer := {}
  opened : List (Nat × Call) := []

namespace Desk

/-- The tracer after a subscriber that belongs to no pair, which takes no atomic
index while a pair of its thread is open. -/
def plain (s : Desk) (tid : Nat) (t : Tracer) : Option Desk :=
  if tid ∈ s.opened.map Prod.fst ∧ t.nextAtomicIndex ≠ s.tracer.nextAtomicIndex then none
  else some { s with tracer := t }

/-- One publication.  It is not enabled while it waits for an area. -/
def step (s : Desk) : Publication → Option Desk
  | .before tid c ok =>
      match s.tracer.before tid ok c with
      | none => none
      | some t =>
          if c.paired then
            if tid ∈ s.opened.map Prod.fst then none else some ⟨t, (tid, c) :: s.opened⟩
          else s.plain tid t
  | .after tid c r ok =>
      if c.paired then
        if (tid, c) ∈ s.opened then some ⟨s.tracer.after tid ok c r, s.opened.erase (tid, c)⟩
        else none
      else s.plain tid (s.tracer.after tid ok c r)
  | .event tid o ok => s.plain tid (s.tracer.event tid ok o)

end Desk

/-! ## The invariant -/

/-- The entries with an atomic index. -/
def atomics (l : List Logged) : List Logged := l.filter fun r => r.type.hasAtomicIndex

/-- The entries with an alloc index. -/
def allocs (l : List Logged) : List Logged := l.filter fun r => r.type.hasAllocIndex

/-- The entries of a thread. -/
def ofThread (tid : Nat) (l : List Logged) : List Logged := l.filter fun r => r.tid = tid

/-- The index kept for an open pair. -/
def Tracer.kept (t : Tracer) (p : Nat × Call) : Nat :=
  match p.2.slot with
  | some addr => (t.areas (getArea addr)).idxA
  | none => t.createdThreadIdx p.1

/-- Two pairs do not share an area. -/
def ApartAreas (p q : Nat × Call) : Prop :=
  ∀ a b, p.2.slot = some a → q.2.slot = some b → getArea a ≠ getArea b

structure Desk.Wf (s : Desk) : Prop where
  /-- The atomic indexes taken are those of the entries and those kept. -/
  atomic : ((atomics s.tracer.log).map Logged.index ++ s.opened.map s.tracer.kept).Perm
    (List.range s.tracer.nextAtomicIndex)
  alloc : (allocs s.tracer.log).map Logged.index = List.range s.tracer.nextAllocIndex
  ascending : ∀ tid, Ascending Logged.index (ofThread tid (atomics s.tracer.log))
  /-- The index kept for a thread is above those of its entries. -/
  above : ∀ p ∈ s.opened, ∀ r ∈ atomics s.tracer.log, r.tid = p.1 → r.index < s.tracer.kept p
  paired : ∀ p ∈ s.opened, p.2.paired = true
  tids : (s.opened.map Prod.fst).Nodup
  locked : ∀ p ∈ s.opened, ∀ a, p.2.slot = some a → (s.tracer.areas (getArea a)).locked = true
  apart : s.opened.Pairwise ApartAreas

theorem Desk.wf_init : Desk.Wf {} :=
  ⟨List.Perm.refl _, rfl, fun _ => List.Pairwise.nil, fun _ h => (nomatch h),
    fun _ h => (nomatch h), List.nodup_nil, fun _ h => (nomatch h), List.Pairwise.nil⟩

section

variable {s : Desk} {t : Tracer} {tid : Nat} {c : Call}

theorem Desk.Wf.index_lt (h : s.Wf) {r : Logged} (hr : r ∈ atomics s.tracer.log) :
    r.index < s.tracer.nextAtomicIndex := by
  rw [← List.mem_range, ← h.atomic.mem_iff]
  exact List.mem_append_left _ (List.mem_map_of_mem hr)

theorem Desk.Wf.kept_lt (h : s.Wf) {p : Nat × Call} (hp : p ∈ s.opened) :
    s.tracer.kept p < s.tracer.nextAtomicIndex := by
  rw [← List.mem_range, ← h.atomic.mem_iff]
  exact List.mem_append_right _ (List.mem_map_of_mem hp)

/-- Entries of one thread above its earlier ones keep each thread in order. -/
theorem Desk.Wf.ascending_append (h : s.Wf) {es : List Logged} (htid : ∀ r ∈ es, r.tid = tid)
    (hes : Ascending Logged.index es)
    (hlow : ∀ r ∈ es, ∀ q ∈ atomics s.tracer.log, q.tid = tid → q.index < r.index) (tid' : Nat) :
    Ascending Logged.index (ofThread tid' (atomics s.tracer.log ++ es)) := by
  rw [ofThread, List.filter_append]
  refine List.pairwise_append.mpr ⟨h.ascending tid', hes.filter _, fun q hq r hr => ?_⟩
  rw [List.mem_filter, decide_eq_true_eq] at hq hr
  exact hlow r hr.1 q hq.1 (hq.2.trans (hr.2.symm.trans (htid r hr.1)))

/-- Indexes go from the counter to the entries and to the open pairs, and from
there to the entries. -/
theorem Desk.Wf.atomic_append (h : s.Wf) {es : List Logged} {kept' : List Nat} {k : Nat}
    (hperm : (es.map Logged.index ++ kept').Perm
      (s.opened.map s.tracer.kept ++ List.range' s.tracer.nextAtomicIndex k)) :
    ((atomics s.tracer.log ++ es).map Logged.index ++ kept').Perm
      (List.range (s.tracer.nextAtomicIndex + k)) := by
  have hrange : List.range (s.tracer.nextAtomicIndex + k) =
      List.range s.tracer.nextAtomicIndex ++ List.range' s.tracer.nextAtomicIndex k := by
    rw [List.range_eq_range', List.range_eq_range', ← List.range'_append_1, Nat.zero_add]
  rw [hrange, List.map_append, List.append_assoc]
  refine (hperm.append_left _).trans ?_
  rw [← List.append_assoc]
  exact h.atomic.append_right _

theorem EntryType.not_alloc_of_atomic {type : EntryType} (h : type.hasAtomicIndex = true) :
    type.hasAllocIndex = false := by
  cases type <;> first | rfl | cases h

theorem EntryType.not_atomic_of_alloc {type : EntryType} (h : type.hasAllocIndex = true) :
    type.hasAtomicIndex = false := by
  cases type <;> first | rfl | cases h

/-- A subscriber that belongs to no pair. -/
theorem Desk.Wf.plain (h : s.Wf) (hp : Published tid s.tracer t) {s' : Desk}
    (hs : s.plain tid t = some s') : s'.Wf := by
  rw [Desk.plain] at hs
  split at hs
  next => cases hs
  next hopen =>
    cases hs
    cases hp with
    | quiet => exact h
    | @entry r _ ha hb =>
        have h₁ : atomics (s.tracer.log ++ [r]) = atomics s.tracer.log :=
          filter_append_of_not _ (by simpa using ha)
        have h₂ : allocs (s.tracer.log ++ [r]) = allocs s.tracer.log :=
          filter_append_of_not _ (by simpa using hb)
        exact ⟨h₁ ▸ h.atomic, h₂ ▸ h.alloc, h₁ ▸ h.ascending, h₁ ▸ h.above, h.paired, h.tids,
          h.locked, h.apart⟩
    | @alloc r _ hb =>
        have h₁ : atomics (s.tracer.log ++ [{ r with index := s.tracer.nextAllocIndex }]) =
            atomics s.tracer.log :=
          filter_append_of_not _ (by simpa using EntryType.not_atomic_of_alloc hb)
        refine ⟨h₁ ▸ h.atomic, ?_, h₁ ▸ h.ascending, h₁ ▸ h.above, h.paired, h.tids, h.locked,
          h.apart⟩
        change (allocs (s.tracer.log ++ [_])).map _ = List.range (s.tracer.nextAllocIndex + 1)
        rw [allocs, List.filter_append, List.map_append, List.range_succ, ← h.alloc]
        simp [allocs, hb]
    | @atomic r hr ha _ =>
        -- the thread has no open pair, for the counter moves
        have hclosed : tid ∉ s.opened.map Prod.fst := fun hmem =>
          hopen ⟨hmem, Nat.succ_ne_self _⟩
        have hlow : ∀ q ∈ [{ r with index := s.tracer.nextAtomicIndex }],
            ∀ p ∈ atomics s.tracer.log, p.tid = tid → p.index < q.index := by
          intro q hq p hmem _
          rw [List.mem_singleton] at hq
          exact hq ▸ h.index_lt hmem
        have h₁ : atomics (s.tracer.log ++ [{ r with index := s.tracer.nextAtomicIndex }]) =
            atomics s.tracer.log ++ [{ r with index := s.tracer.nextAtomicIndex }] :=
          filter_append_of _ (by simpa using ha)
        have h₂ : allocs (s.tracer.log ++ [{ r with index := s.tracer.nextAtomicIndex }]) =
            allocs s.tracer.log :=
          filter_append_of_not _ (by simpa using EntryType.not_alloc_of_atomic ha)
        refine ⟨?_, h₂ ▸ h.alloc, ?_, ?_, h.paired, h.tids, h.locked, h.apart⟩
        · change ((atomics (s.tracer.log ++ [_])).map _ ++ s.opened.map s.tracer.kept).Perm
            (List.range (s.tracer.nextAtomicIndex + 1))
          rw [h₁]
          exact h.atomic_append List.perm_append_comm
        · change ∀ tid', Ascending _ (ofThread tid' (atomics (s.tracer.log ++ [_])))
          rw [h₁]
          exact h.ascending_append (by simpa using hr) (List.pairwise_singleton ..) hlow
        · intro p hp q hq hqp
          change q ∈ atomics (s.tracer.log ++ [_]) at hq
          rw [h₁, List.mem_append, List.mem_singleton] at hq
          rcases hq with hq | rfl
          · exact h.above p hp q hq hqp
          · have hmem : p.1 ∈ s.opened.map Prod.fst := List.mem_map_of_mem hp
            rw [← hqp, hr] at hmem
            exact absurd hmem hclosed

/-! ## Pairs -/

/-- A pair of a thread without one opens, and the next index is kept for it. -/
theorem Desk.Wf.opens (h : s.Wf) (htid : tid ∉ s.opened.map Prod.fst) (hc : c.paired = true)
    (hlog : t.log = s.tracer.log) (hnext : t.nextAtomicIndex = s.tracer.nextAtomicIndex + 1)
    (halloc : t.nextAllocIndex = s.tracer.nextAllocIndex)
    (hnew : t.kept (tid, c) = s.tracer.nextAtomicIndex)
    (hkept : ∀ p ∈ s.opened, t.kept p = s.tracer.kept p)
    (hlocked : ∀ p ∈ (tid, c) :: s.opened, ∀ a, p.2.slot = some a →
      (t.areas (getArea a)).locked = true)
    (hapart : ∀ p ∈ s.opened, ApartAreas (tid, c) p) : Desk.Wf ⟨t, (tid, c) :: s.opened⟩ := by
  refine ⟨?_, ?_, ?_, ?_, ?_, List.nodup_cons.mpr ⟨htid, h.tids⟩, hlocked,
    List.pairwise_cons.mpr ⟨hapart, h.apart⟩⟩
  · rw [hlog, hnext, List.map_cons, hnew, List.map_congr_left hkept, List.range_succ]
    exact List.perm_middle.trans ((h.atomic.cons _).trans (List.perm_append_singleton ..).symm)
  · rw [hlog, halloc]
    exact h.alloc
  · rw [hlog]
    exact h.ascending
  · intro p hp r hr hrp
    rw [hlog] at hr
    rcases List.mem_cons.mp hp with rfl | hp
    · exact hnew ▸ h.index_lt hr
    · exact hkept p hp ▸ h.above p hp r hr hrp
  · intro p hp
    rcases List.mem_cons.mp hp with rfl | hp
    · exact hc
    · exact h.paired p hp

/-- A pair closes.  Its entries carry the index kept for it, and `k` more that
are taken for them. -/
theorem Desk.Wf.closes (h : s.Wf) (hp : (tid, c) ∈ s.opened) {es : List Logged} {k : Nat}
    (hlog : t.log = s.tracer.log ++ es) (htid : ∀ r ∈ es, r.tid = tid)
    (hatomic : ∀ r ∈ es, r.type.hasAtomicIndex = true)
    (hes : es.map Logged.index =
      s.tracer.kept (tid, c) :: List.range' s.tracer.nextAtomicIndex k)
    (hnext : t.nextAtomicIndex = s.tracer.nextAtomicIndex + k)
    (halloc : t.nextAllocIndex = s.tracer.nextAllocIndex)
    (hkept : ∀ p, t.kept p = s.tracer.kept p)
    (hlocked : ∀ p ∈ s.opened.erase (tid, c), ∀ a, p.2.slot = some a →
      (t.areas (getArea a)).locked = true) : Desk.Wf ⟨t, s.opened.erase (tid, c)⟩ := by
  have hlt := h.kept_lt hp
  have hsub : ∀ p ∈ s.opened.erase (tid, c), p ∈ s.opened := fun p hp => List.mem_of_mem_erase hp
  have hopen := List.perm_cons_erase hp
  have htids := (hopen.map Prod.fst).nodup_iff.mp h.tids
  have hasc : Ascending Logged.index es := by
    rw [ascending_iff, hes, List.pairwise_cons]
    refine ⟨fun i hi => ?_, List.pairwise_lt_range' ..⟩
    rw [List.mem_range'_1] at hi
    omega
  have hlow : ∀ r ∈ es, ∀ q ∈ atomics s.tracer.log, q.tid = tid → q.index < r.index := by
    intro r hr q hq hqt
    have hkq := h.above _ hp q hq hqt
    have hmem : r.index ∈ es.map Logged.index := List.mem_map_of_mem hr
    rw [hes, List.mem_cons, List.mem_range'_1] at hmem
    omega
  have h₁ : atomics (s.tracer.log ++ es) = atomics s.tracer.log ++ es := filter_append_of _ hatomic
  have h₂ : allocs (s.tracer.log ++ es) = allocs s.tracer.log :=
    filter_append_of_not _ fun r hr => EntryType.not_alloc_of_atomic (hatomic r hr)
  refine ⟨?_, ?_, ?_, ?_, fun p hp => h.paired p (hsub p hp), ?_, hlocked,
    h.apart.sublist List.erase_sublist⟩
  · rw [hlog, hnext, h₁, List.map_congr_left fun p _ => hkept p]
    refine h.atomic_append ?_
    rw [hes]
    refine List.Perm.trans ?_ ((hopen.map _).symm.append_right _)
    rw [List.map_cons, List.cons_append, List.cons_append]
    exact List.perm_append_comm.cons _
  · rw [hlog, halloc, h₂]
    exact h.alloc
  · rw [hlog, h₁]
    exact h.ascending_append htid hasc hlow
  · intro p hp' r hr hrp
    rw [hlog, h₁, List.mem_append] at hr
    rw [hkept]
    rcases hr with hr | hr
    · exact h.above p (hsub p hp') r hr hrp
    · -- the thread has no other pair
      have hmem : p.1 ∈ (s.opened.erase (tid, c)).map Prod.fst := List.mem_map_of_mem hp'
      rw [← hrp, htid r hr] at hmem
      exact absurd hmem (List.nodup_cons.mp htids).1
  · exact (List.nodup_cons.mp htids).2

theorem Call.paired_of_slot {addr : UInt64} (h : c.slot = some addr) : c.paired = true := by
  rw [Call.paired, h]
  rfl

theorem Tracer.kept_slot {addr : UInt64} (h : c.slot = some addr) (t : Tracer) (tid : Nat) :
    t.kept (tid, c) = (t.areas (getArea addr)).idxA := by
  rw [Tracer.kept, h]

theorem Desk.Wf.opensCreate (h : s.Wf) (htid : tid ∉ s.opened.map Prod.fst) :
    Desk.Wf ⟨s.tracer.setCreateIdx tid, (tid, .threadCreate) :: s.opened⟩ := by
  refine h.opens htid rfl rfl rfl rfl (Function.update_self ..) ?_ ?_ ?_
  · intro p hp
    have hne : p.1 ≠ tid := fun heq => htid (heq ▸ List.mem_map_of_mem hp)
    rw [Tracer.kept, Tracer.kept]
    split
    next => rfl
    next => exact Function.update_of_ne hne ..
  · intro p hp a ha
    rcases List.mem_cons.mp hp with rfl | hp
    · cases ha
    · exact h.locked p hp a ha
  · intro p _ a b ha
    cases ha

theorem Desk.Wf.opensSlot (h : s.Wf) (htid : tid ∉ s.opened.map Prod.fst) {addr : UInt64}
    (hslot : c.slot = some addr) (hf : Fetched s.tracer (getArea addr) t) :
    Desk.Wf ⟨t, (tid, c) :: s.opened⟩ := by
  -- no open pair has this area, for it is not locked
  have hother : ∀ p ∈ s.opened, ∀ a, p.2.slot = some a → getArea a ≠ getArea addr := by
    intro p hp a ha heq
    have hl := h.locked p hp a ha
    rw [heq, hf.free] at hl
    cases hl
  refine h.opens htid (Call.paired_of_slot hslot) hf.log hf.next hf.nextAlloc ?_ ?_ ?_ ?_
  · rw [Tracer.kept_slot hslot, hf.self]
  · intro p hp
    rw [Tracer.kept, Tracer.kept]
    split
    next a ha => rw [hf.other _ (hother p hp a ha)]
    next => rw [hf.created]
  · intro p hp a ha
    rcases List.mem_cons.mp hp with rfl | hp
    · cases hslot.symm.trans ha
      rw [hf.self]
    · rw [hf.other _ (hother p hp a ha)]
      exact h.locked p hp a ha
  · intro p hp a b ha hb heq
    cases hslot.symm.trans ha
    exact hother p hp b hb heq.symm

theorem Desk.Wf.closesCreate (h : s.Wf) (hp : (tid, .threadCreate) ∈ s.opened) {ok : Nat → Bool}
    (hok : ∀ k, ok k = true) (r : Result) :
    Desk.Wf ⟨s.tracer.after tid ok .threadCreate r, s.opened.erase (tid, .threadCreate)⟩ := by
  have hafter : s.tracer.after tid ok .threadCreate r = s.tracer.put
      { tid := tid, type := .threadCreate, ptr := r.ptr,
        index := s.tracer.createdThreadIdx tid } := by
    rw [Tracer.after, Tracer.logEntry, if_pos (hok 0)]
  rw [hafter]
  exact h.closes (k := 0) hp rfl (by simp) (by simp [EntryType.hasAtomicIndex, EntryType.hasStack])
    rfl rfl rfl (fun _ => rfl) fun p hp => h.locked p (List.mem_of_mem_erase hp)

theorem Desk.Wf.closesSlot (h : s.Wf) (hp : (tid, c) ∈ s.opened) {addr : UInt64}
    (hslot : c.slot = some addr) {ok : Nat → Bool} (hok : ∀ k, ok k = true) (r : Result) :
    Desk.Wf ⟨s.tracer.after tid ok c r, s.opened.erase (tid, c)⟩ := by
  obtain ⟨es, -, hes, hr⟩ := after_slot hslot s.tracer tid ok r
  obtain ⟨hindex, hentries⟩ := Call.entries_index hslot tid (s.tracer.areas (getArea addr)).idxA
    s.tracer.nextAtomicIndex r
  rw [← hes hok] at hindex hentries
  refine h.closes hp hr.log (fun e he => (hentries e he).1) (fun e he => (hentries e he).2.1)
    (by rw [hindex, Tracer.kept_slot hslot]) hr.next hr.nextAlloc (fun p => ?_) ?_
  · rw [Tracer.kept, Tracer.kept]
    split
    next => exact hr.idxA _
    next => rw [hr.created]
  · intro p hp' a ha
    have hapart := (List.perm_cons_erase hp).pairwise h.apart fun {p q} hpq a b ha hb heq =>
      hpq b a hb ha heq.symm
    have hne := (List.pairwise_cons.mp hapart).1 p hp' addr a hslot ha
    rw [hr.other _ hne.symm]
    exact h.locked p (List.mem_of_mem_erase hp') a ha

/-! ## Runs -/

theorem Call.slot_of_paired (h : c.paired = true) :
    c = .threadCreate ∨ ∃ addr, c.slot = some addr := by
  rw [Call.paired, Bool.or_eq_true, Option.isSome_iff_exists, decide_eq_true_eq] at h
  exact h.symm

/-- Every publication whose appends succeed keeps the invariant. -/
theorem Desk.Wf.step (h : s.Wf) {l : Publication} (hl : l.Appends) {s' : Desk}
    (hs : s.step l = some s') : s'.Wf := by
  cases l with
  | event tid o ok => exact h.plain (published_event o) hs
  | before tid c ok =>
      rw [Desk.step] at hs
      split at hs
      next => cases hs
      next t hbefore =>
        split at hs
        next hc =>
          split at hs
          next => cases hs
          next htid =>
            cases hs
            rcases Call.slot_of_paired hc with rfl | ⟨addr, hslot⟩
            · cases hbefore
              exact h.opensCreate htid
            · rw [before_slot hslot] at hbefore
              exact h.opensSlot htid hslot (fetchStackAcq_spec hbefore)
        next hc =>
          obtain ⟨t', ht', hp⟩ := published_before s.tracer tid ok (Bool.eq_false_iff.mpr hc)
          cases hbefore.symm.trans ht'
          exact h.plain hp hs
  | after tid c r ok =>
      rw [Desk.step] at hs
      split at hs
      next hc =>
        split at hs
        next hp =>
          cases hs
          rcases Call.slot_of_paired hc with rfl | ⟨addr, hslot⟩
          · exact h.closesCreate hp hl r
          · exact h.closesSlot hp hslot hl r
        next => cases hs
      next hc => exact h.plain (published_after (Bool.eq_false_iff.mpr hc) r) hs

theorem Desk.wf_reach (h : Machine.Reach Desk.step Publication.Appends {} s) : s.Wf :=
  h.invariant wf_init fun _ _ _ hw hl hs => hw.step hl hs

end

/-- In every interleaving of publications whose appends succeed, the atomic
indexes ascend along the entries of a thread, and so do the alloc indexes; no
two entries share one; and when no pair is open the entries carry exactly the
indexes below the counters. -/
theorem indexes_used_once {s : Desk} (h : Machine.Reach Desk.step Publication.Appends {} s) :
    (∀ tid, Ascending Logged.index (ofThread tid (atomics s.tracer.log)) ∧
      Ascending Logged.index (ofThread tid (allocs s.tracer.log))) ∧
    ((atomics s.tracer.log).map Logged.index).Nodup ∧
    ((allocs s.tracer.log).map Logged.index).Nodup ∧
    (s.opened = [] →
      (∀ i, i ∈ (atomics s.tracer.log).map Logged.index ↔ i < s.tracer.nextAtomicIndex) ∧
      ∀ i, i ∈ (allocs s.tracer.log).map Logged.index ↔ i < s.tracer.nextAllocIndex) := by
  have hw := Desk.wf_reach h
  have hallocs : Ascending Logged.index (allocs s.tracer.log) := by
    rw [ascending_iff, hw.alloc]
    exact List.pairwise_lt_range
  have hnodup := hw.atomic.nodup_iff.mpr List.nodup_range
  refine ⟨fun tid => ⟨hw.ascending tid, hallocs.filter _⟩, hnodup.of_append_left, hallocs.nodup,
    fun hopen => ⟨fun i => ?_, fun i => ?_⟩⟩
  · have hmem := hw.atomic.mem_iff (a := i)
    rw [hopen, List.map_nil, List.append_nil, List.mem_range] at hmem
    exact hmem
  · rw [hw.alloc, List.mem_range]

/-- An exchange by one thread, around an allocation by the same thread and an
unlock by another. -/
theorem indexes_used_once_xchg :
    ∃ s, Machine.Reach Desk.step Publication.Appends {} s ∧ s.opened = [] ∧
      s.tracer.nextAtomicIndex = 3 ∧ s.tracer.nextAllocIndex = 1 ∧
      ∀ i, i ∈ (atomics s.tracer.log).map Logged.index ↔ i < 3 := by
  let ok : Nat → Bool := fun _ => true
  let ls : List Publication :=
    [.before 1 (.xchg 64 8) ok, .after 1 (.malloc 16 0) { ptr := 4096 } ok,
      .before 2 (.mutexUnlock 128) ok, .after 1 (.xchg 64 8) {} ok]
  have hls : ∀ l ∈ ls, l.Appends := by
    intro l hl
    simp only [ls, List.mem_cons, List.not_mem_nil, or_false] at hl
    rcases hl with rfl | rfl | rfl | rfl <;> exact fun _ => rfl
  have hreach := Machine.Reach.of_run .start hls (rfl : Machine.run Desk.step {} ls = some _)
  exact ⟨_, hreach, rfl, rfl, rfl, ((indexes_used_once hreach).2.2.2 rfl).1⟩

end Coldtrace
