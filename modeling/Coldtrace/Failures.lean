import Mathlib.Logic.Function.Basic
import Mathlib.Tactic.Common
import Coldtrace.Calls

/-!
# Failed calls

`View` is what a reader of the trace knows of the program: the heap blocks and
the mappings that are live, the holders of each lock, and the threads that were
created and joined.  There is no block at NULL.

Some calls fail and leave the program as it was.  Most subscribers look at the
result, or log a NULL block, and then the view stays as well.  The subscribers
of `realloc` and `munmap` log the release before the call, and those of `mmap`,
`pthread_create` and `pthread_join` do not look at the result.  What they log
changes the view unless it says what the view has already.
-/

namespace Coldtrace

/-! ## Views -/

structure View where
  live : UInt64 → Bool := fun _ => false
  mapped : Nat → Bool := fun _ => false
  holders : UInt64 → List Nat := fun _ => []
  created : UInt64 → Bool := fun _ => false
  joined : UInt64 → Bool := fun _ => false

/-- The addresses of a mapping. -/
def within (addr length : UInt64) (x : Nat) : Bool :=
  decide (addr.toNat ≤ x) && decide (x < addr.toNat + length.toNat)

namespace View

variable (v : View)

def setLive (p : UInt64) (b : Bool) : View :=
  if p = 0 then v else { v with live := Function.update v.live p b }

/-- Read one entry. -/
def read (e : Logged) : View :=
  match e.type with
  | .alloc => v.setLive e.ptr true
  | .free => v.setLive e.ptr false
  | .mmap => { v with mapped := fun x => within e.ptr e.size x || v.mapped x }
  | .munmap => { v with mapped := fun x => !within e.ptr e.size x && v.mapped x }
  | .lockAcquire | .rwLockAcqShr | .rwLockAcqExc =>
      { v with holders := Function.update v.holders e.ptr (e.tid :: v.holders e.ptr) }
  | .lockRelease | .rwLockRel | .rwLockRelShr | .rwLockRelExc =>
      { v with holders := Function.update v.holders e.ptr ((v.holders e.ptr).erase e.tid) }
  | .threadCreate => { v with created := Function.update v.created e.ptr true }
  | .threadJoin => { v with joined := Function.update v.joined e.ptr true }
  | _ => v

end View

/-! ## Calls that fail -/

def mapFailed : UInt64 := 0xFFFFFFFFFFFFFFFF

/-- The call failed. -/
def Call.failed : Call → Result → Prop
  | .mutexLock _, r | .mutexTrylock _, r | .mutexTimedlock _, r | .mutexClocklock _, r
  | .rwlockRdlock _, r | .rwlockTryrdlock _, r | .rwlockTimedrdlock _, r | .rwlockWrlock _, r
  | .rwlockTrywrlock _, r | .rwlockTimedwrlock _, r | .spinLock _, r | .spinTrylock _, r
  | .semWait _, r | .semTrywait _, r | .semTimedwait _, r | .posixMemalign .., r | .munmap .., r
  | .threadCreate, r | .threadJoin _, r => r.ret ≠ 0
  | .malloc .., r | .calloc .., r | .alignedAlloc .., r | .realloc .., r => r.ptr = 0
  | .mmap .., r => r.ptr = mapFailed
  | _, _ => False

/-- What the two subscribers of a call append, from the tracers that they
meet. -/
def Call.records (c : Call) (r : Result) (tid : Nat) (t t' : Tracer) (ok ok' : Nat → Bool) :
    List Logged :=
  (match t.before tid ok c with
    | some t₁ => t.appended t₁
    | none => []) ++ t'.appended (t'.after tid ok' c r)

section

variable {v : View} {t : Tracer} {b : Bool} {e : Logged}

end

end Coldtrace
