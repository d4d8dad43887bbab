import Mathlib.Logic.Function.Basic
import Mathlib.Tactic.Common
import Coldtrace.Lib.Keyed
import Coldtrace.Calls

/-!
# Lifetimes of blocks

Threads allocate and free blocks.  Inside a call the allocator takes a block
that is absent, or drops the one that the call frees; a `realloc` does both, in
any order, and may take the block that it dropped.  A block is handed to the
program by the second subscriber of the call that took it, and given back by the
first subscriber of the call that frees it.

`BlockState` is the state of an address.  The ALLOC entry of a lifetime is logged
when the block becomes handed, the FREE entry when it stops being handed, and
the block is live from before the first until after the second.  `lifetimeStep`
is what a reader of the trace expects at one address.
-/

namespace Coldtrace

open Keyed

/-! ## Blocks -/

/-- The block that a call frees. -/
def Call.freed : Call → Option UInt64
  | .free ptr _ | .realloc ptr _ _ => some ptr
  | _ => none

/-- The call returns a block. -/
def Call.allocates : Call → Bool
  | .malloc .. | .calloc .. | .realloc .. | .posixMemalign .. | .alignedAlloc .. => true
  | _ => false

/-- A block is live unless it is absent. -/
inductive BlockState where
  | absent
  /-- Taken from the allocator by a call of the thread. -/
  | taken (tid : Nat)
  /-- In the hands of the program. -/
  | handed
  /-- Given to a call of the thread that frees it. -/
  | given (tid : Nat)
deriving DecidableEq, Repr

structure Heap where
  block : UInt64 → BlockState := fun _ => .absent
  /-- How many blocks the allocator has taken at an address. -/
  lifetime : UInt64 → Nat := fun _ => 0
  /-- The entries that the calls log, each with the lifetime of its block. -/
  history : List (Logged × Nat) := []

namespace Heap

def note (e : Heap) (es : List Logged) : Heap :=
  { e with history := e.history ++ es.map fun r => (r, e.lifetime r.ptr) }

/-- A thread frees only what the program has been handed, or NULL. -/
def enter (e : Heap) (t t' : Tracer) (tid : Nat) (c : Call) : Option Heap :=
  match c.freed with
  | none => some (e.note (t.appended t'))
  | some p =>
      if p = 0 then some (e.note (t.appended t'))
      else if e.block p = .handed then
        some { e.note (t.appended t') with block := Function.update e.block p (.given tid) }
      else none

inductive Inner where
  | takes (p : UInt64)
  | drops (p : UInt64)
deriving DecidableEq, Repr

def inner (e : Heap) (tid : Nat) (c : Call) : Inner → Option Heap
  | .takes p =>
      if c.allocates = true ∧ p ≠ 0 ∧ e.block p = .absent then
        some
          { e with
            block := Function.update e.block p (.taken tid),
            lifetime := Function.update e.lifetime p (e.lifetime p + 1) }
      else none
  | .drops p =>
      if c.freed = some p ∧ e.block p = .given tid then
        some { e with block := Function.update e.block p .absent }
      else none

/-- No call fails.  The block it frees is dropped by then, and the block it
returns is taken. -/
def returns (e : Heap) (tid : Nat) (c : Call) (r : Result) : Option Heap :=
  if (c.freed.all fun p => e.block p ≠ .given tid) ∧
      (c.allocates = true → r.ret = 0 ∧ e.block r.ptr = .taken tid) then some e
  else none

def leave (e : Heap) (t t' : Tracer) (c : Call) (r : Result) : Heap :=
  if c.allocates then
    { e.note (t.appended t') with block := Function.update e.block r.ptr .handed }
  else e.note (t.appended t')

end Heap

/-- The calls that allocate and free. -/
def allocator : Runtime Heap Heap.Inner where
  calls c := c.freed.isSome || c.allocates
  events _ := false
  enter := Heap.enter
  inner := Heap.inner
  returns := Heap.returns
  leave e t t' _ c r := e.leave t t' c r
  occurs _ _ _ _ _ := none

/-! ## What the subscribers log -/

/-- The entries about the heap. -/
def isHeapEntry (e : Logged) : Bool := decide (e.type = .alloc ∨ e.type = .free)

section

variable {t : Tracer} {tid : Nat} {ok : Nat → Bool} {c : Call} {r : Result}

theorem before_freed (hok : ∀ k, ok k = true) {p : UInt64} (hc : c.freed = some p) :
    ∃ e : Logged, e.type = .free ∧ e.ptr = p ∧ e.index = t.nextAllocIndex ∧
      t.before tid ok c = some (t.takeAlloc.put e) := by
  cases c with
  | free =>
      cases hc
      exact ⟨_, rfl, rfl, rfl, congrArg some (Tracer.logAlloc_ok (hok 0) ..)⟩
  | realloc =>
      cases hc
      exact ⟨_, rfl, rfl, rfl, congrArg some (Tracer.logAlloc_ok (hok 0) ..)⟩
  | _ => cases hc

theorem before_not_freed (hc : c.freed = none) (ha : c.allocates = true) :
    t.before tid ok c = some t := by
  cases c with
  | malloc | calloc | posixMemalign | alignedAlloc => rfl
  | realloc => cases hc
  | _ => cases ha

theorem after_allocates (hok : ∀ k, ok k = true) (hc : c.allocates = true) (hr : r.ret = 0) :
    ∃ e : Logged, e.type = .alloc ∧ e.ptr = r.ptr ∧ e.index = t.nextAllocIndex ∧
      t.after tid ok c r = t.takeAlloc.put e := by
  cases c with
  | malloc | calloc | realloc | alignedAlloc =>
      exact ⟨_, rfl, rfl, rfl, Tracer.logAlloc_ok (hok 0) ..⟩
  | posixMemalign =>
      rw [Tracer.after, if_pos hr]
      exact ⟨_, rfl, rfl, rfl, Tracer.logAlloc_ok (hok 0) ..⟩
  | _ => cases hc

theorem after_not_allocates {p : UInt64} (hc : c.allocates = false) (hf : c.freed = some p) :
    t.after tid ok c r = t := by
  cases c with
  | free => rfl
  | realloc => cases hc
  | _ => cases hf

end

/-! ## The invariant -/

/-- What a reader expects at one address: an ALLOC, then a FREE of the same
lifetime, and so on. -/
def lifetimeStep : Option Nat → Logged × Nat → Option (Option Nat)
  | none, (e, n) => if e.type = .alloc then some (some n) else none
  | some m, (e, n) => if e.type = .free ∧ n = m then some none else none

/-- The entries about the block at `p`. -/
def Heap.at (h : Heap) (p : UInt64) : List (Logged × Nat) := h.history.filter fun x => x.1.ptr = p

/-- The lifetime that the trace has open at an address. -/
def Heap.open (h : Heap) (p : UInt64) : Option Nat :=
  if h.block p = .handed then some (h.lifetime p) else none

/-- The block that a call is to return is taken by it. -/
def Returned (frames : Nat → Option Frame) (block : UInt64 → BlockState) : Prop :=
  ∀ tid c r, frames tid = some ⟨c, some r⟩ → c.allocates = true →
    r.ret = 0 ∧ block r.ptr = .taken tid

structure Lifetimes (s : Process Heap) : Prop where
  records : s.env.history.map Prod.fst = s.tracer.log.filter isHeapEntry
  ascending : Ascending (fun x : Logged × Nat => x.1.index) s.env.history
  below : ∀ x ∈ s.env.history, x.1.index < s.tracer.nextAllocIndex
  runs : ∀ p, p ≠ 0 → Machine.run lifetimeStep none (s.env.at p) = some (s.env.open p)
  returned : Returned s.frames s.env.block

theorem Lifetimes.init : Lifetimes { env := {} } where
  records := rfl
  ascending := List.Pairwise.nil
  below _ h := by cases h
  runs _ _ := rfl
  returned _ _ _ h := by cases h

section

variable {s s' : Process Heap} {tid : Nat} {c : Call} {env : Heap}

/-- A step of a thread leaves the blocks that other threads have taken. -/
def KeepsTaken (tid : Nat) (block block' : UInt64 → BlockState) : Prop :=
  ∀ p tid', tid' ≠ tid → block p = .taken tid' → block' p = .taken tid'

theorem KeepsTaken.refl {block : UInt64 → BlockState} : KeepsTaken tid block block :=
  fun _ _ _ => id

theorem KeepsTaken.update {block : UInt64 → BlockState} {p : UInt64}
    (hp : ∀ tid', tid' ≠ tid → block p ≠ .taken tid') (b : BlockState) :
    KeepsTaken tid block (Function.update block p b) := by
  intro q tid' htid hq
  have hne : q ≠ p := by
    rintro rfl
    exact hp tid' htid hq
  rw [Function.update_of_ne hne]
  exact hq

theorem Returned.update {frames : Nat → Option Frame} {block block' : UInt64 → BlockState}
    {f : Option Frame} (h : Returned frames block) (hblock : KeepsTaken tid block block')
    (hf : ∀ c r, f = some ⟨c, some r⟩ → c.allocates = true → r.ret = 0 ∧
      block' r.ptr = .taken tid) :
    Returned (Function.update frames tid f) block' := by
  intro tid' c r hr hc
  by_cases htid : tid' = tid
  · subst htid
    rw [Function.update_self] at hr
    exact hf c r hr hc
  · rw [Function.update_of_ne htid] at hr
    obtain ⟨hret, hptr⟩ := h tid' c r hr hc
    exact ⟨hret, hblock _ _ htid hptr⟩

/-- An entry gets the next index.  It is the one expected at its address, and
nothing changes at the others. -/
theorem Lifetimes.log (h : Lifetimes s) {e : Logged} {n : Nat} {frames : Nat → Option Frame}
    (htype : isHeapEntry e = true) (hindex : e.index = s.tracer.nextAllocIndex)
    (hhistory : env.history = s.env.history ++ [(e, n)])
    (hself : e.ptr ≠ 0 → lifetimeStep (s.env.open e.ptr) (e, n) = some (env.open e.ptr))
    (hother : ∀ p, p ≠ 0 → p ≠ e.ptr → env.open p = s.env.open p)
    (hreturned : Returned frames env.block) :
    Lifetimes ⟨s.tracer.takeAlloc.put e, env, frames⟩ where
  records := by
    show env.history.map Prod.fst = (s.tracer.log ++ [e]).filter isHeapEntry
    rw [hhistory, List.map_append, h.records, filter_append_of _ (by simpa using htype)]
    rfl
  ascending := by
    show Ascending _ env.history
    rw [hhistory]
    refine h.ascending.concat fun x hx => ?_
    rw [hindex]
    exact h.below x hx
  below x hx := by
    change x ∈ env.history at hx
    show x.1.index < s.tracer.nextAllocIndex + 1
    rw [hhistory, List.mem_append, List.mem_singleton] at hx
    rcases hx with hx | rfl
    · exact Nat.lt_succ_of_lt (h.below x hx)
    · rw [hindex]
      exact Nat.lt_succ_self _
  runs p hp := by
    show Machine.run lifetimeStep none (env.at p) = some (env.open p)
    rw [Heap.at, hhistory]
    by_cases hpe : p = e.ptr
    · subst hpe
      rw [filter_append_of _ (by simp)]
      exact Machine.run_concat (h.runs _ hp) (hself hp)
    · rw [filter_append_of_not _ (by simpa using Ne.symm hpe), hother p hp hpe]
      exact h.runs p hp
  returned := hreturned

/-- A step that logs nothing. -/
theorem Lifetimes.silent (h : Lifetimes s) (hlog : s'.tracer.log.filter isHeapEntry =
      s.tracer.log.filter isHeapEntry) (hnext : s.tracer.nextAllocIndex ≤ s'.tracer.nextAllocIndex)
    (hhistory : s'.env.history = s.env.history) (hopen : ∀ p, s'.env.open p = s.env.open p)
    (hreturned : Returned s'.frames s'.env.block) : Lifetimes s' where
  records := by rw [hhistory, hlog, h.records]
  ascending := hhistory ▸ h.ascending
  below x hx := Nat.lt_of_lt_of_le (h.below x (hhistory ▸ hx)) hnext
  runs p hp := by
    rw [hopen, Heap.at, hhistory]
    exact h.runs p hp
  returned := hreturned

/-! ## Steps -/

theorem Lifetimes.enter (h : Lifetimes s) {ok : Nat → Bool} {t : Tracer} (hok : ∀ k, ok k = true)
    (hc : allocator.calls c = true) (ht : s.tracer.before tid ok c = some t)
    (he : s.env.enter s.tracer t tid c = some env) :
    Lifetimes ⟨t, env, Function.update s.frames tid (some { call := c })⟩ := by
  have hreturned : ∀ {block}, KeepsTaken tid s.env.block block →
      Returned (Function.update s.frames tid (some { call := c })) block :=
    fun hblock => h.returned.update hblock fun _ _ hf => (by cases hf)
  rw [Heap.enter] at he
  split at he
  next hfreed =>
    have hcalls : c.allocates = true := by simpa [allocator, hfreed] using hc
    rw [before_not_freed hfreed hcalls] at ht
    cases ht
    cases he
    refine h.silent rfl (Nat.le_refl _) ?_ (fun _ => rfl) (hreturned .refl)
    simp [Heap.note, Tracer.appended]
  next p hfreed =>
    obtain ⟨e, htype, hptr, hindex, hbefore⟩ := before_freed (t := s.tracer) hok hfreed
    rw [hbefore] at ht
    cases ht
    rw [Tracer.appended_takeAlloc] at he
    have hheap : isHeapEntry e = true := by simp [isHeapEntry, htype]
    split at he
    next hp =>
      cases he
      refine h.log hheap hindex rfl (fun hne => ?_) (fun _ _ _ => rfl) (hreturned .refl)
      exact absurd (hptr.trans hp) hne
    next hp =>
      split at he
      next hblock =>
        cases he
        refine h.log hheap hindex rfl (fun _ => ?_) (fun q _ hq => ?_)
          (hreturned (.update (fun tid' _ => ?_) _))
        · simp [hptr, Heap.open, hblock, lifetimeStep, htype]
        · rw [hptr] at hq
          simp [Heap.open, Heap.note, hq]
        · simp [hblock]
      next => cases he

theorem Lifetimes.inner (h : Lifetimes s) {k : Heap.Inner} (hframe : s.frames tid = some ⟨c, none⟩)
    (he : s.env.inner tid c k = some env) : Lifetimes { s with env } := by
  have hreturned : ∀ {block}, KeepsTaken tid s.env.block block → Returned s.frames block := by
    intro block hblock
    rw [← Function.update_eq_self tid s.frames]
    refine h.returned.update hblock fun c r hr => ?_
    cases hframe.symm.trans hr
  cases k with
  | takes p =>
      rw [Heap.inner] at he
      split at he
      next hp =>
        obtain ⟨-, -, habsent⟩ := hp
        cases he
        refine h.silent rfl (Nat.le_refl _) rfl (fun q => ?_)
          (hreturned (.update (fun tid' _ => ?_) _))
        · by_cases hq : q = p
          · subst hq
            simp [Heap.open, habsent]
          · simp [Heap.open, hq]
        · simp [habsent]
      next => cases he
  | drops p =>
      rw [Heap.inner] at he
      split at he
      next hp =>
        obtain ⟨-, hgiven⟩ := hp
        cases he
        refine h.silent rfl (Nat.le_refl _) rfl (fun q => ?_)
          (hreturned (.update (fun tid' _ => ?_) _))
        · by_cases hq : q = p
          · subst hq
            simp [Heap.open, hgiven]
          · simp [Heap.open, hq]
        · simp [hgiven]
      next => cases he

theorem Lifetimes.returns (h : Lifetimes s) {r : Result}
    (he : s.env.returns tid c r = some env) :
    Lifetimes { s with env, frames := Function.update s.frames tid (some ⟨c, some r⟩) } := by
  rw [Heap.returns] at he
  split at he
  next hr =>
    cases he
    refine h.silent rfl (Nat.le_refl _) rfl (fun _ => rfl)
      (h.returned.update .refl fun c' r' hf hc => ?_)
    cases hf
    exact hr.2 hc
  next => cases he

theorem Lifetimes.leave (h : Lifetimes s) {ok : Nat → Bool} {r : Result} (hok : ∀ k, ok k = true)
    (hc : allocator.calls c = true) (hframe : s.frames tid = some ⟨c, some r⟩) :
    Lifetimes ⟨s.tracer.after tid ok c r, s.env.leave s.tracer (s.tracer.after tid ok c r) c r,
      Function.update s.frames tid none⟩ := by
  have hreturned : ∀ {block}, KeepsTaken tid s.env.block block →
      Returned (Function.update s.frames tid none) block :=
    fun hblock => h.returned.update hblock fun _ _ hf => (by cases hf)
  rw [Heap.leave]
  split
  next hcalls =>
    obtain ⟨hret, htaken⟩ := h.returned tid c r hframe hcalls
    obtain ⟨e, htype, hptr, hindex, hafter⟩ := after_allocates (t := s.tracer) hok hcalls hret
    rw [hafter, Tracer.appended_takeAlloc]
    refine h.log (by simp [isHeapEntry, htype]) hindex rfl (fun _ => ?_) (fun q _ hq => ?_)
      (hreturned (.update (fun tid' hne => ?_) _))
    · simp [hptr, Heap.open, Heap.note, htaken, lifetimeStep, htype]
    · rw [hptr] at hq
      simp [Heap.open, Heap.note, hq]
    · rw [htaken]
      simpa using Ne.symm hne
  next hcalls =>
    have hnone : c.allocates = false := Bool.eq_false_iff.mpr hcalls
    obtain ⟨p, hp⟩ := Option.isSome_iff_exists.mp (by simpa [allocator, hnone] using hc)
    rw [after_not_allocates hnone hp]
    refine h.silent rfl (Nat.le_refl _) ?_ (fun _ => rfl) (hreturned .refl)
    simp [Heap.note, Tracer.appended]

theorem Call.types_not_heap (h : allocator.calls c = false) :
    ∀ type ∈ c.types, type ≠ .alloc ∧ type ≠ .free := by
  cases c <;> simp_all [Call.types, allocator, Call.freed, Call.allocates]

/-- The other subscribers log nothing about the heap. -/
theorem free_not_heap {l : Publication} (hl : allocator.Free l = true) :
    ∀ type ∈ l.types, type ≠ .alloc ∧ type ≠ .free := by
  cases l with
  | before tid c ok => exact Call.types_not_heap (Bool.not_eq_true' _ ▸ hl)
  | after tid c r ok => exact Call.types_not_heap (Bool.not_eq_true' _ ▸ hl)
  | event tid o ok => cases o <;> simp [Publication.types, Occurrence.types]

theorem Lifetimes.step (h : Lifetimes s) {l : Move Heap.Inner} (hans : allocator.Answers s)
    (hl : l.Appends) (hm : allocator.Moved s l s') : Lifetimes s' := by
  cases hm with
  | before hc hframe ht he => exact h.enter hl hc ht he
  | inner hframe he => exact h.inner hframe he
  | returns hframe he => exact h.returns he
  | after hframe ht =>
      subst ht
      exact h.leave hl (hans _ _ hframe) hframe
  | event ho => cases ho
  | other hfree ht =>
      have hg := publish_grows ht
      refine h.silent (hg.filter fun e he => ?_) hg.alloc rfl (fun _ => rfl) h.returned
      have hne := free_not_heap hfree _ he
      simp [isHeapEntry, hne]

theorem lifetimes_reach (h : allocator.Reaches {} s) : Lifetimes s :=
  h.invariant Lifetimes.init fun _ _ _ hans hI hl hm => hI.step hans hl hm

end

/-- In every interleaving whose appends succeed, the ALLOC and FREE entries about
an address other than NULL, in the order of their alloc indexes, alternate
from an ALLOC on, and a FREE is about the block of the ALLOC before it. -/
theorem reuse_ordered {s : Process Heap} (h : allocator.Reaches {} s) :
    s.env.history.map Prod.fst = s.tracer.log.filter isHeapEntry ∧
    ∀ p, p ≠ 0 → (Machine.run lifetimeStep none
      ((sort (fun x : Logged × Nat => x.1.index) s.env.history).filter
        fun x => x.1.ptr = p)).isSome := by
  have hl := lifetimes_reach h
  refine ⟨hl.records, fun p hp => ?_⟩
  have hsorted := filter_sort (hl.ascending.filter fun x => decide (x.1.ptr = p))
  have hruns := hl.runs p hp
  rw [Heap.at, ← hsorted] at hruns
  rw [hruns]
  rfl

/-- A block is freed by a thread that did not allocate it, taken again by
another before the first thread leaves the call, and grown in place. -/
theorem reuse_ordered_two_threads :
    ∃ s, allocator.Reaches {} s ∧
      s.env.history.map (fun x => (x.1.type, x.1.tid, x.1.index, x.2)) =
        [(.alloc, 1, 0, 1), (.free, 2, 1, 1), (.alloc, 1, 2, 2), (.free, 1, 3, 2),
          (.alloc, 1, 4, 3)] ∧
      (Machine.run lifetimeStep none
        ((sort (fun x : Logged × Nat => x.1.index) s.env.history).filter
          fun x => x.1.ptr = 4096)).isSome := by
  let ok : Nat → Bool := fun _ => true
  let ls : List (Move Heap.Inner) :=
    [.before 1 (.malloc 16 0) ok, .inner 1 (.takes 4096), .returns 1 { ptr := 4096 }, .after 1 ok,
      .before 2 (.free 4096 0) ok, .before 1 (.malloc 8 0) ok, .inner 2 (.drops 4096),
      .inner 1 (.takes 4096), .returns 1 { ptr := 4096 }, .after 1 ok, .returns 2 {}, .after 2 ok,
      .before 1 (.realloc 4096 32 0) ok, .inner 1 (.drops 4096), .inner 1 (.takes 4096),
      .returns 1 { ptr := 4096 }, .after 1 ok]
  have hls : ∀ l ∈ ls, l.Appends := by
    simp [ls, ok, Move.Appends]
  have hrun : (Machine.run allocator.step { env := {} } ls).map
      (fun s => s.env.history.map fun x => (x.1.type, x.1.tid, x.1.index, x.2)) =
        some [(.alloc, 1, 0, 1), (.free, 2, 1, 1), (.alloc, 1, 2, 2), (.free, 1, 3, 2),
          (.alloc, 1, 4, 3)] := by decide +kernel
  obtain ⟨s, hs, hhistory⟩ := Option.map_eq_some_iff.mp hrun
  have hreach : allocator.Reaches {} s := Machine.Reach.of_run .start hls hs
  exact ⟨s, hreach, hhistory, (reuse_ordered hreach).2 4096 (by decide)⟩

end Coldtrace
