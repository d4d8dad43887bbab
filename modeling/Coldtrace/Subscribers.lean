import Mathlib.Logic.Function.Basic
import Mathlib.Tactic.Common
import Coldtrace.Entries

/-!
# The subscribers

The model of the `subs_*.c` files and of `counters.c`.  An intercepted call is
published to its subscribers before and after it is made, and some events are
published once.  A subscriber appends entries to the trace of the calling
thread, and stores in them an index of one of the two global counters.

Most subscribers take the index of an entry right after they appended it.  The
index of `THREAD_CREATE` and that of an atomic access are taken before the call
and kept until after it, the first in the thread, the second in one of 128
areas that the addresses share.  An area is locked from before the access until
after it.

The tracer is what the subscribers of all threads share, and `log` is the list
of the entries in the order in which they are appended.  Whether an append
succeeds is up to the thread, so it is a parameter of every subscriber.  The
subscribers of `EVENT_STACKTRACE_ENTER` and `EVENT_STACKTRACE_EXIT` only move
the stack of their thread and are steps of the thread.

The counters of `counters.c` are unsigned numbers of 64 bits that wrap around.
Here they are natural numbers, so what is proved of the indices is about runs that
take fewer than `2 ^ 64` of each.
-/

namespace Coldtrace

/-! ## The tracer -/

/-- An entry as a subscriber leaves it.  `index` is the atomic or the alloc
index of a type that has one. -/
structure Logged where
  tid : Nat
  type : EntryType
  zeroFlag : Bool := false
  ptr : UInt64
  index : Nat := 0
  size : UInt64 := 0
  caller : UInt64 := 0
  threadStackPtr : UInt64 := 0
  threadStackSize : UInt64 := 0
deriving DecidableEq, Repr

/-- `area_t`. -/
structure Area where
  locked : Bool := false
  idxA : Nat := 0

/-- The counters, the areas, the slot of each thread for the index of a
`THREAD_CREATE`, and the entries appended so far. -/
structure Tracer where
  nextAllocIndex : Nat := 0
  nextAtomicIndex : Nat := 0
  areas : Fin 128 → Area := fun _ => {}
  createdThreadIdx : Nat → Nat := fun _ => 0
  log : List Logged := []

namespace Tracer

variable (t : Tracer)

def put (r : Logged) : Tracer := { t with log := t.log ++ [r] }

/-- `coldtrace_next_atomic_idx`, which returns the count before it. -/
def takeAtomic : Tracer := { t with nextAtomicIndex := t.nextAtomicIndex + 1 }

/-- `coldtrace_next_alloc_idx`, which returns the count before it. -/
def takeAlloc : Tracer := { t with nextAllocIndex := t.nextAllocIndex + 1 }

/-- Append an entry, if the thread can. -/
def logEntry (ok : Bool) (r : Logged) : Tracer := if ok then t.put r else t

/-- Append an entry and take an atomic index for it. -/
def logAtomic (ok : Bool) (r : Logged) : Tracer :=
  if ok then t.takeAtomic.put { r with index := t.nextAtomicIndex } else t

/-- Append an entry and take an alloc index for it. -/
def logAlloc (ok : Bool) (r : Logged) : Tracer :=
  if ok then t.takeAlloc.put { r with index := t.nextAllocIndex } else t

end Tracer

/-! ## Areas -/

/-- `get_area`. -/
def getArea (addr : UInt64) : Fin 128 := Fin.ofNat 128 (addr >>> 6).toNat

namespace Tracer

variable (t : Tracer) (md : Nat) (ok : Nat → Bool)

/-- `caslock_release`. -/
def release (a : Fin 128) : Tracer :=
  { t with areas := Function.update t.areas a { t.areas a with locked := false } }

/-- `FETCH_STACK_ACQ`.  It waits while the area is locked. -/
def fetchStackAcq (addr : UInt64) : Option Tracer :=
  let area := getArea addr
  if (t.areas area).locked then none
  else some
    { t.takeAtomic with
      areas := Function.update t.areas area { locked := true, idxA := t.nextAtomicIndex } }

/-- `REL_LOG_R`. -/
def relLogR (addr sz : UInt64) : Tracer :=
  let area := getArea addr
  let idxA := (t.areas area).idxA
  (t.release area).logEntry (ok 0)
    { tid := md, type := .atomicRead, ptr := addr, size := sz, index := idxA }

/-- `REL_LOG_W`. -/
def relLogW (addr sz : UInt64) : Tracer :=
  let area := getArea addr
  let idxA := (t.areas area).idxA
  (t.release area).logEntry (ok 0)
    { tid := md, type := .atomicWrite, ptr := addr, size := sz, index := idxA }

/-- `REL_LOG_RW`. -/
def relLogRW (addr sz : UInt64) : Tracer :=
  let area := getArea addr
  let idxA := (t.areas area).idxA
  let idxB := t.nextAtomicIndex
  let t := t.takeAtomic.release area
  if !ok 0 then t
  else
    let t := t.put { tid := md, type := .atomicRead, ptr := addr, size := sz, index := idxA }
    t.logEntry (ok 1) { tid := md, type := .atomicWrite, ptr := addr, size := sz, index := idxB }

/-- `REL_LOG_RW_COND`.  A failed compare-exchange takes no second index and
logs a read. -/
def relLogRWCond (addr sz : UInt64) (success : Bool) : Tracer :=
  let idxB := if success then t.nextAtomicIndex else 0
  let t := if success then t.takeAtomic else t
  let area := getArea addr
  let idxA := (t.areas area).idxA
  let t := t.release area
  if !ok 0 then t
  else
    let t := t.put { tid := md, type := .atomicRead, ptr := addr, size := sz, index := idxA }
    if success then
      t.logEntry (ok 1) { tid := md, type := .atomicWrite, ptr := addr, size := sz, index := idxB }
    else t

/-- `REL_LOG_FENCE`. -/
def relLogFence (addr : UInt64) : Tracer :=
  let area := getArea addr
  let idxA := (t.areas area).idxA
  (t.release area).logEntry (ok 0) { tid := md, type := .fence, ptr := addr, index := idxA }

/-- `coldtrace_thread_set_create_idx` with the next atomic index. -/
def setCreateIdx : Tracer :=
  { t.takeAtomic with
    createdThreadIdx := Function.update t.createdThreadIdx md t.nextAtomicIndex }

end Tracer

/-! ## Calls and events -/

/-- The intercepted calls, with the arguments their subscribers read. -/
inductive Call where
  | threadCreate
  | threadJoin (thread : UInt64)
  | mutexLock (mutex : UInt64)
  | mutexTrylock (mutex : UInt64)
  | mutexTimedlock (mutex : UInt64)
  | mutexClocklock (mutex : UInt64)
  | mutexUnlock (mutex : UInt64)
  | condWait (mutex : UInt64)
  | condTimedwait (mutex : UInt64)
  | condClockwait (mutex : UInt64)
  | rwlockRdlock (lock : UInt64)
  | rwlockTryrdlock (lock : UInt64)
  | rwlockTimedrdlock (lock : UInt64)
  | rwlockWrlock (lock : UInt64)
  | rwlockTrywrlock (lock : UInt64)
  | rwlockTimedwrlock (lock : UInt64)
  | rwlockUnlock (lock : UInt64)
  | spinLock (lock : UInt64)
  | spinTrylock (lock : UInt64)
  | spinUnlock (lock : UInt64)
  | semWait (sem : UInt64)
  | semTrywait (sem : UInt64)
  | semTimedwait (sem : UInt64)
  | semPost (sem : UInt64)
  | cxaGuardAcquire (addr : UInt64)
  | cxaGuardRelease (addr : UInt64)
  | cxaGuardAbort (addr : UInt64)
  | malloc (size pc : UInt64)
  | calloc (number size pc : UInt64)
  | realloc (ptr size pc : UInt64)
  | free (ptr pc : UInt64)
  | posixMemalign (size pc : UInt64)
  | alignedAlloc (size pc : UInt64)
  | mmap (length pc : UInt64)
  | munmap (addr length pc : UInt64)
  | memcpy (dest src num pc : UInt64)
  | memmove (dest src count pc : UInt64)
  | memset (ptr num pc : UInt64)
  | aread (addr size : UInt64)
  | awrite (addr size : UInt64)
  | rmw (addr size : UInt64)
  | xchg (addr size : UInt64)
  | cmpxchg (addr size : UInt64)
  | fence (pc : UInt64)
deriving DecidableEq, Repr

/-- What a call returned: an `int`, a pointer (for `posix_memalign` and
`pthread_create` the one stored through their first argument), and whether a
compare-exchange succeeded. -/
structure Result where
  ret : Int := 0
  ptr : UInt64 := 0
  ok : Bool := false
deriving DecidableEq, Repr

/-- The events that are published once. -/
inductive Occurrence where
  | threadStart (self stackaddr stacksize : UInt64)
  | threadExit (self : UInt64)
  /-- `main` says whether the thread is `MAIN_THREAD`. -/
  | selfFini (main : Bool) (self : UInt64)
  /-- `value` is the word at `addr`. -/
  | maRead (addr size pc value : UInt64)
  | maWrite (addr size pc : UInt64)
  | maReadRange (addr size pc value : UInt64)
  | maWriteRange (addr size pc : UInt64)
  | annotateRwlockCreate (lock : UInt64)
  | annotateRwlockDestroy (lock : UInt64)
  | annotateRwlockAcq (lock : UInt64) (isW : Bool)
  | annotateRwlockRel (lock : UInt64) (isW : Bool)
  | testMarker
deriving DecidableEq, Repr

/-! ## Subscriptions -/

namespace Tracer

variable (t : Tracer) (md : Nat) (ok : Nat → Bool)

/-- The subscribers of `CAPTURE_BEFORE`. -/
def before : Call → Option Tracer
  | .threadCreate => some (t.setCreateIdx md)
  | .mutexUnlock mutex =>
      some (t.logAtomic (ok 0) { tid := md, type := .lockRelease, ptr := mutex })
  | .condWait mutex => some (t.logAtomic (ok 0) { tid := md, type := .lockRelease, ptr := mutex })
  | .condTimedwait mutex =>
      some (t.logAtomic (ok 0) { tid := md, type := .lockRelease, ptr := mutex })
  | .condClockwait mutex =>
      some (t.logAtomic (ok 0) { tid := md, type := .lockRelease, ptr := mutex })
  | .rwlockUnlock lock => some (t.logAtomic (ok 0) { tid := md, type := .rwLockRel, ptr := lock })
  | .spinUnlock lock => some (t.logAtomic (ok 0) { tid := md, type := .lockRelease, ptr := lock })
  | .semPost sem => some (t.logAtomic (ok 0) { tid := md, type := .lockRelease, ptr := sem })
  | .cxaGuardRelease addr =>
      some (t.logAtomic (ok 0) { tid := md, type := .cxaGuardRelease, ptr := addr })
  | .cxaGuardAbort addr =>
      some (t.logAtomic (ok 0) { tid := md, type := .cxaGuardRelease, ptr := addr })
  | .realloc ptr _ pc =>
      some (t.logAlloc (ok 0) { tid := md, type := .free, ptr := ptr, caller := pc })
  | .free ptr pc => some (t.logAlloc (ok 0) { tid := md, type := .free, ptr := ptr, caller := pc })
  | .munmap addr length pc =>
      some (t.logAlloc (ok 0)
        { tid := md, type := .munmap, ptr := addr, size := length, caller := pc })
  | .memcpy _ src num pc =>
      some (t.logEntry (ok 0) { tid := md, type := .read, ptr := src, size := num, caller := pc })
  | .memmove _ src count pc =>
      some (t.logEntry (ok 0) { tid := md, type := .read, ptr := src, size := count, caller := pc })
  | .aread addr _ => t.fetchStackAcq addr
  | .awrite addr _ => t.fetchStackAcq addr
  | .rmw addr _ => t.fetchStackAcq addr
  | .xchg addr _ => t.fetchStackAcq addr
  | .cmpxchg addr _ => t.fetchStackAcq addr
  | .fence pc => t.fetchStackAcq pc
  | _ => some t

/-- Append an acquisition, if the call that was to acquire returned 0. -/
def acquired (r : Result) (type : EntryType) (lock : UInt64) : Tracer :=
  if r.ret = 0 then t.logAtomic (ok 0) { tid := md, type := type, ptr := lock } else t

/-- Append an allocation of `size` bytes at `ptr`. -/
def allocated (type : EntryType) (ptr size pc : UInt64) : Tracer :=
  t.logAlloc (ok 0) { tid := md, type := type, ptr := ptr, size := size, caller := pc }

/-- The subscribers of `CAPTURE_AFTER`. -/
def after : Call → Result → Tracer
  | .threadCreate, r =>
      t.logEntry (ok 0)
        { tid := md, type := .threadCreate, ptr := r.ptr, index := t.createdThreadIdx md }
  | .threadJoin thread, _ =>
      t.logAtomic (ok 0) { tid := md, type := .threadJoin, ptr := thread }
  | .mutexLock mutex, r => t.acquired md ok r .lockAcquire mutex
  | .mutexTrylock mutex, r => t.acquired md ok r .lockAcquire mutex
  | .mutexTimedlock mutex, r => t.acquired md ok r .lockAcquire mutex
  | .mutexClocklock mutex, r => t.acquired md ok r .lockAcquire mutex
  -- a wait holds its mutex again whatever it returns
  | .condWait mutex, _ => t.logAtomic (ok 0) { tid := md, type := .lockAcquire, ptr := mutex }
  | .condTimedwait mutex, _ => t.logAtomic (ok 0) { tid := md, type := .lockAcquire, ptr := mutex }
  | .condClockwait mutex, _ => t.logAtomic (ok 0) { tid := md, type := .lockAcquire, ptr := mutex }
  | .rwlockRdlock lock, r => t.acquired md ok r .rwLockAcqShr lock
  | .rwlockTryrdlock lock, r => t.acquired md ok r .rwLockAcqShr lock
  | .rwlockTimedrdlock lock, r => t.acquired md ok r .rwLockAcqShr lock
  | .rwlockWrlock lock, r => t.acquired md ok r .rwLockAcqExc lock
  | .rwlockTrywrlock lock, r => t.acquired md ok r .rwLockAcqExc lock
  | .rwlockTimedwrlock lock, r => t.acquired md ok r .rwLockAcqExc lock
  | .spinLock lock, r => t.acquired md ok r .lockAcquire lock
  | .spinTrylock lock, r => t.acquired md ok r .lockAcquire lock
  | .semWait sem, r => t.acquired md ok r .lockAcquire sem
  | .semTrywait sem, r => t.acquired md ok r .lockAcquire sem
  | .semTimedwait sem, r => t.acquired md ok r .lockAcquire sem
  | .cxaGuardAcquire addr, _ =>
      t.logAtomic (ok 0) { tid := md, type := .cxaGuardAcquire, ptr := addr }
  | .malloc size pc, r => t.allocated md ok .alloc r.ptr size pc
  | .calloc number size pc, r => t.allocated md ok .alloc r.ptr (number * size) pc
  | .realloc _ size pc, r => t.allocated md ok .alloc r.ptr size pc
  | .posixMemalign size pc, r =>
      if r.ret = 0 then t.allocated md ok .alloc r.ptr size pc else t
  | .alignedAlloc size pc, r => t.allocated md ok .alloc r.ptr size pc
  | .mmap length pc, r => t.allocated md ok .mmap r.ptr length pc
  | .memcpy dest _ num pc, _ =>
      t.logEntry (ok 0) { tid := md, type := .write, ptr := dest, size := num, caller := pc }
  | .memmove dest _ count pc, _ =>
      t.logEntry (ok 0) { tid := md, type := .write, ptr := dest, size := count, caller := pc }
  | .memset ptr num pc, _ =>
      t.logEntry (ok 0) { tid := md, type := .write, ptr := ptr, size := num, caller := pc }
  | .aread addr size, _ => t.relLogR md ok addr size
  | .awrite addr size, _ => t.relLogW md ok addr size
  | .rmw addr size, _ => t.relLogRW md ok addr size
  | .xchg addr size, _ => t.relLogRW md ok addr size
  | .cmpxchg addr size, r => t.relLogRWCond md ok addr size r.ok
  | .fence pc, _ => t.relLogFence md ok pc
  | _, _ => t

/-- Append a read, with `ZERO_FLAG` when it read a zero word. -/
def readEntry (addr size pc value : UInt64) : Tracer :=
  t.logEntry (ok 0)
    { tid := md, type := .read, zeroFlag := size == 8 && value == 0, ptr := addr, size := size,
      caller := pc }

/-- The subscribers of `CAPTURE_EVENT`. -/
def event : Occurrence → Tracer
  | .threadStart self stackaddr stacksize =>
      t.logAtomic (ok 0)
        { tid := md, type := .threadStart, ptr := self, threadStackPtr := stackaddr,
          threadStackSize := stacksize }
  | .threadExit self => t.logAtomic (ok 0) { tid := md, type := .threadExit, ptr := self }
  | .selfFini main self =>
      if main then t.logAtomic (ok 0) { tid := md, type := .threadExit, ptr := self } else t
  | .maRead addr size pc value => t.readEntry md ok addr size pc value
  | .maWrite addr size pc =>
      t.logEntry (ok 0) { tid := md, type := .write, ptr := addr, size := size, caller := pc }
  | .maReadRange addr size pc value => t.readEntry md ok addr size pc value
  | .maWriteRange addr size pc =>
      t.logEntry (ok 0) { tid := md, type := .write, ptr := addr, size := size, caller := pc }
  | .annotateRwlockCreate lock =>
      t.logAtomic (ok 0) { tid := md, type := .rwLockCreate, ptr := lock }
  | .annotateRwlockDestroy lock =>
      t.logAtomic (ok 0) { tid := md, type := .rwLockDestroy, ptr := lock }
  | .annotateRwlockAcq lock isW =>
      t.logAtomic (ok 0)
        { tid := md, type := if isW then .rwLockAcqExc else .rwLockAcqShr, ptr := lock }
  | .annotateRwlockRel lock isW =>
      t.logAtomic (ok 0)
        { tid := md, type := if isW then .rwLockRelExc else .rwLockRelShr, ptr := lock }
  | .testMarker => t.logEntry (ok 0) { tid := md, type := .testMarker, ptr := 0 }

end Tracer

/-! ## What a publication does -/

/-- The address whose area a call locks. -/
def Call.slot : Call → Option UInt64
  | .aread addr _ | .awrite addr _ | .rmw addr _ | .xchg addr _ | .cmpxchg addr _ => some addr
  | .fence pc => some pc
  | _ => none

/-- The calls whose index is taken before them and logged after them. -/
def Call.paired (c : Call) : Bool := c.slot.isSome || decide (c = .threadCreate)

/-- The call takes a second index after it. -/
def Call.second : Call → Result → Bool
  | .rmw .., _ | .xchg .., _ => true
  | .cmpxchg .., r => r.ok
  | _, _ => false

/-- The entries of a call that uses an area, for the index taken before it and
the one taken after it. -/
def Call.entries (md idxA idxB : Nat) : Call → Result → List Logged
  | .aread addr sz, _ =>
      [{ tid := md, type := .atomicRead, ptr := addr, size := sz, index := idxA }]
  | .awrite addr sz, _ =>
      [{ tid := md, type := .atomicWrite, ptr := addr, size := sz, index := idxA }]
  | .rmw addr sz, _ | .xchg addr sz, _ =>
      [{ tid := md, type := .atomicRead, ptr := addr, size := sz, index := idxA },
        { tid := md, type := .atomicWrite, ptr := addr, size := sz, index := idxB }]
  | .cmpxchg addr sz, r =>
      { tid := md, type := .atomicRead, ptr := addr, size := sz, index := idxA } ::
        if r.ok then
          [{ tid := md, type := .atomicWrite, ptr := addr, size := sz, index := idxB }]
        else []
  | .fence pc, _ => [{ tid := md, type := .fence, ptr := pc, index := idxA }]
  | _, _ => []

/-- What the subscribers of the other calls and of the events do. -/
inductive Published (md : Nat) (t : Tracer) : Tracer → Prop where
  | quiet : Published md t t
  | entry {r : Logged} : r.tid = md → r.type.hasAtomicIndex = false →
      r.type.hasAllocIndex = false → Published md t (t.put r)
  | atomic {r : Logged} : r.tid = md → r.type.hasAtomicIndex = true → r.type.isParked = false →
      Published md t (t.takeAtomic.put { r with index := t.nextAtomicIndex })
  | alloc {r : Logged} : r.tid = md → r.type.hasAllocIndex = true →
      Published md t (t.takeAlloc.put { r with index := t.nextAllocIndex })

section

variable {t : Tracer} {md : Nat} {ok : Nat → Bool} {c : Call} {r : Logged}

theorem published_logEntry {b : Bool} (hr : r.tid = md) (ha : r.type.hasAtomicIndex = false)
    (hb : r.type.hasAllocIndex = false) : Published md t (t.logEntry b r) := by
  rw [Tracer.logEntry]
  split
  next => exact .entry hr ha hb
  next => exact .quiet

theorem published_logAtomic {b : Bool} (hr : r.tid = md) (ha : r.type.hasAtomicIndex = true)
    (hp : r.type.isParked = false) : Published md t (t.logAtomic b r) := by
  rw [Tracer.logAtomic]
  split
  next => exact .atomic hr ha hp
  next => exact .quiet

theorem published_logAlloc {b : Bool} (hr : r.tid = md) (ha : r.type.hasAllocIndex = true) :
    Published md t (t.logAlloc b r) := by
  rw [Tracer.logAlloc]
  split
  next => exact .alloc hr ha
  next => exact .quiet

theorem published_acquired {res : Result} {type : EntryType} {lock : UInt64}
    (ha : type.hasAtomicIndex = true) (hp : type.isParked = false) :
    Published md t (t.acquired md ok res type lock) := by
  rw [Tracer.acquired]
  split
  next => exact published_logAtomic rfl ha hp
  next => exact .quiet

theorem published_before (t : Tracer) (md : Nat) (ok : Nat → Bool) (h : c.paired = false) :
    ∃ t', t.before md ok c = some t' ∧ Published md t t' := by
  cases c with
  | threadCreate => cases h
  | aread | awrite | rmw | xchg | cmpxchg | fence => cases h
  | realloc | free | munmap => exact ⟨_, rfl, published_logAlloc rfl rfl⟩
  | memcpy | memmove => exact ⟨_, rfl, published_logEntry rfl rfl rfl⟩
  | mutexUnlock | condWait | condTimedwait | condClockwait | rwlockUnlock | spinUnlock | semPost
  | cxaGuardRelease | cxaGuardAbort => exact ⟨_, rfl, published_logAtomic rfl rfl rfl⟩
  | _ => exact ⟨_, rfl, .quiet⟩

theorem published_after (h : c.paired = false) (res : Result) :
    Published md t (t.after md ok c res) := by
  cases c with
  | threadCreate => cases h
  | aread | awrite | rmw | xchg | cmpxchg | fence => cases h
  | mutexLock | mutexTrylock | mutexTimedlock | mutexClocklock | rwlockRdlock | rwlockTryrdlock
  | rwlockTimedrdlock | rwlockWrlock | rwlockTrywrlock | rwlockTimedwrlock | spinLock | spinTrylock
  | semWait | semTrywait | semTimedwait => exact published_acquired rfl rfl
  | threadJoin | condWait | condTimedwait | condClockwait | cxaGuardAcquire =>
      exact published_logAtomic rfl rfl rfl
  | malloc | calloc | realloc | alignedAlloc | mmap => exact published_logAlloc rfl rfl
  | posixMemalign =>
      rw [Tracer.after]
      split
      next => exact published_logAlloc rfl rfl
      next => exact .quiet
  | memcpy | memmove | memset => exact published_logEntry rfl rfl rfl
  | _ => exact .quiet

theorem published_event (o : Occurrence) : Published md t (t.event md ok o) := by
  cases o with
  | selfFini main =>
      cases main with
      | true => exact published_logAtomic rfl rfl rfl
      | false => exact .quiet
  | annotateRwlockAcq lock isW => cases isW <;> exact published_logAtomic rfl rfl rfl
  | annotateRwlockRel lock isW => cases isW <;> exact published_logAtomic rfl rfl rfl
  | maRead | maWrite | maReadRange | maWriteRange | testMarker =>
      exact published_logEntry rfl rfl rfl
  | _ => exact published_logAtomic rfl rfl rfl

/-- What locking an area does to the tracer. -/
structure Fetched (t : Tracer) (area : Fin 128) (t' : Tracer) : Prop where
  free : (t.areas area).locked = false
  self : t'.areas area = { locked := true, idxA := t.nextAtomicIndex }
  other : ∀ a, a ≠ area → t'.areas a = t.areas a
  next : t'.nextAtomicIndex = t.nextAtomicIndex + 1
  nextAlloc : t'.nextAllocIndex = t.nextAllocIndex
  created : t'.createdThreadIdx = t.createdThreadIdx
  log : t'.log = t.log

theorem fetchStackAcq_spec {addr : UInt64} {t' : Tracer} (h : t.fetchStackAcq addr = some t') :
    Fetched t (getArea addr) t' := by
  rw [Tracer.fetchStackAcq] at h
  split at h
  next => cases h
  next hfree =>
    cases h
    exact ⟨Bool.eq_false_iff.mpr hfree, Function.update_self .., fun a ha =>
      Function.update_of_ne ha .., rfl, rfl, rfl, rfl⟩

theorem before_slot {addr : UInt64} (h : c.slot = some addr) :
    t.before md ok c = t.fetchStackAcq addr := by
  cases c <;> cases h <;> rfl

/-- Appending one entry adds it or nothing. -/
theorem logEntry_prefix (t : Tracer) (ok : Nat → Bool) (k : Nat) (r : Logged) :
    ∃ es, es <+: [r] ∧ ((∀ k, ok k = true) → es = [r]) ∧
      t.logEntry (ok k) r = { t with log := t.log ++ es } := by
  cases hk : ok k with
  | true => exact ⟨[r], List.prefix_refl _, fun _ => rfl, rfl⟩
  | false =>
      refine ⟨[], List.nil_prefix, fun hok => absurd (hok k) (by simp [hk]), ?_⟩
      rw [List.append_nil]
      rfl

/-- Appending two entries stops at the first that cannot be appended. -/
theorem logEntry_prefix_two (t : Tracer) (ok : Nat → Bool) (r r' : Logged) :
    ∃ es, es <+: [r, r'] ∧ ((∀ k, ok k = true) → es = [r, r']) ∧
      (if !ok 0 then t else (t.put r).logEntry (ok 1) r') = { t with log := t.log ++ es } := by
  cases h₀ : ok 0 with
  | false =>
      refine ⟨[], List.nil_prefix, fun hok => absurd (hok 0) (by simp [h₀]), ?_⟩
      rw [List.append_nil]
      rfl
  | true =>
      obtain ⟨es, hpre, hall, heq⟩ := logEntry_prefix (t.put r) ok 1 r'
      refine ⟨r :: es, by simpa using hpre, fun hok => by rw [hall hok], ?_⟩
      change (t.put r).logEntry (ok 1) r' = _
      rw [heq]
      simp [Tracer.put]

/-- What unlocking the area of a call and logging its entries does to the
tracer. -/
structure Released (t : Tracer) (area : Fin 128) (k : Nat) (es : List Logged) (t' : Tracer) :
    Prop where
  unlocked : (t'.areas area).locked = false
  other : ∀ a, a ≠ area → t'.areas a = t.areas a
  idxA : ∀ a, (t'.areas a).idxA = (t.areas a).idxA
  next : t'.nextAtomicIndex = t.nextAtomicIndex + k
  nextAlloc : t'.nextAllocIndex = t.nextAllocIndex
  created : t'.createdThreadIdx = t.createdThreadIdx
  log : t'.log = t.log ++ es

theorem release_self (t : Tracer) (area : Fin 128) :
    (t.release area).areas area = { t.areas area with locked := false } := Function.update_self ..

theorem release_of_ne (t : Tracer) {area a : Fin 128} (h : a ≠ area) :
    (t.release area).areas a = t.areas a := Function.update_of_ne h ..

theorem released_release (t : Tracer) (area : Fin 128) (b : Bool) (es : List Logged) :
    Released t area (if b then 1 else 0) es
      { (if b then t.takeAtomic else t).release area with log := t.log ++ es } := by
  have hareas : (if b then t.takeAtomic else t).areas = t.areas := by cases b <;> rfl
  have hself := release_self (if b then t.takeAtomic else t) area
  have hother := fun a (ha : a ≠ area) => release_of_ne (if b then t.takeAtomic else t) ha
  rw [hareas] at hself hother
  refine ⟨congrArg Area.locked hself, hother, fun a => ?_, ?_, ?_, ?_, rfl⟩
  · by_cases ha : a = area
    · subst ha
      have hidx := congrArg Area.idxA hself
      exact hidx
    · exact congrArg Area.idxA (hother a ha)
  · cases b <;> rfl
  · cases b <;> rfl
  · cases b <;> rfl

/-- The entries of a call that uses an area are logged in order, up to the
first that cannot be appended. -/
theorem after_slot {addr : UInt64} (h : c.slot = some addr) (t : Tracer) (md : Nat)
    (ok : Nat → Bool) (res : Result) :
    ∃ es, es <+: c.entries md (t.areas (getArea addr)).idxA t.nextAtomicIndex res ∧
      ((∀ k, ok k = true) → es = c.entries md (t.areas (getArea addr)).idxA t.nextAtomicIndex res) ∧
      Released t (getArea addr) (if c.second res then 1 else 0) es (t.after md ok c res) := by
  have hlogged : ∃ es, es <+: c.entries md (t.areas (getArea addr)).idxA t.nextAtomicIndex res ∧
      ((∀ k, ok k = true) → es = c.entries md (t.areas (getArea addr)).idxA t.nextAtomicIndex res) ∧
      t.after md ok c res =
        { (if c.second res then t.takeAtomic else t).release (getArea addr) with
          log := t.log ++ es } := by
    cases c with
    | aread | awrite | fence =>
        cases h
        exact logEntry_prefix (t.release (getArea addr)) ok 0 _
    | rmw | xchg =>
        cases h
        exact logEntry_prefix_two (t.takeAtomic.release (getArea addr)) ok _ _
    | cmpxchg =>
        cases h
        cases hr : res.ok with
        | true =>
            simp only [Tracer.after, Tracer.relLogRWCond, Call.entries, Call.second, hr, if_true]
            exact logEntry_prefix_two (t.takeAtomic.release (getArea addr)) ok _ _
        | false =>
            simp only [Tracer.after, Tracer.relLogRWCond, Call.entries, Call.second, hr,
              Bool.false_eq_true, if_false]
            obtain ⟨es, hpre, hall, heq⟩ := logEntry_prefix (t.release (getArea addr)) ok 0 _
            refine ⟨es, hpre, hall, heq ▸ ?_⟩
            cases hk : ok 0 <;> rfl
    | _ => cases h
  obtain ⟨es, hpre, hall, heq⟩ := hlogged
  exact ⟨es, hpre, hall, heq ▸ released_release ..⟩

/-- The entries of a call that uses an area carry the index kept for it, and the
next one when it takes a second. -/
theorem Call.entries_index {addr : UInt64} (h : c.slot = some addr) (md idxA idxB : Nat)
    (res : Result) :
    (c.entries md idxA idxB res).map Logged.index =
        idxA :: List.range' idxB (if c.second res then 1 else 0) ∧
      ∀ e ∈ c.entries md idxA idxB res,
        e.tid = md ∧ e.type.hasAtomicIndex = true ∧ e.ptr = addr := by
  cases c with
  | aread | awrite | rmw | xchg | fence =>
      cases h
      simp [Call.entries, Call.second, EntryType.hasAtomicIndex, EntryType.hasStack]
  | cmpxchg =>
      cases h
      cases hr : res.ok <;>
        simp [Call.entries, Call.second, hr, EntryType.hasAtomicIndex, EntryType.hasStack]
  | _ => cases h

end

end Coldtrace
