import Mathlib.Logic.Function.Basic
import Mathlib.Data.List.Basic
import Mathlib.Tactic.Common
import Coldtrace.Lib.Keyed
import Coldtrace.Calls

/-!
# Histories of locks

Threads acquire and release mutexes, spinlocks, rwlocks and semaphores, and wait
on conditions with a mutex.  An acquisition takes the lock inside the call, and
is logged by the second subscriber.  A release is logged by the first
subscriber, and drops the lock inside the call.  A wait is a release and an
acquisition around one call.

So a thread uses a lock from before its acquisition is logged until after its
release is.  `Lock` says which threads use it: those whose acquisition is logged
and not their release (`held`), those that took it and did not log that yet
(`taken`), and those that gave it back in the trace and did not drop it yet
(`given`).  What a reader of the trace knows is `held`, or for a semaphore the
number of permits, and one step of a reader is `mutexStep`, `rwlockStep` or
`semaphoreStep`.
-/

namespace Coldtrace

open Keyed

/-! ## Locks -/

inductive LockKind where
  /-- A mutex or a spinlock. -/
  | mutex
  | rwlock
  | semaphore
deriving DecidableEq, Repr

inductive Role where
  | acquire (exclusive : Bool)
  | release
  /-- Release, and acquire again before the call returns. -/
  | wait
deriving DecidableEq, Repr

/-- The lock a call is about, and what the call does with it. -/
def Call.lockUse : Call → Option (UInt64 × LockKind × Role)
  | .mutexLock m | .mutexTrylock m | .mutexTimedlock m | .mutexClocklock m =>
      some (m, .mutex, .acquire true)
  | .mutexUnlock m => some (m, .mutex, .release)
  | .condWait m | .condTimedwait m | .condClockwait m => some (m, .mutex, .wait)
  | .rwlockRdlock l | .rwlockTryrdlock l | .rwlockTimedrdlock l => some (l, .rwlock, .acquire false)
  | .rwlockWrlock l | .rwlockTrywrlock l | .rwlockTimedwrlock l => some (l, .rwlock, .acquire true)
  | .rwlockUnlock l => some (l, .rwlock, .release)
  | .spinLock l | .spinTrylock l => some (l, .mutex, .acquire true)
  | .spinUnlock l => some (l, .mutex, .release)
  | .semWait s | .semTrywait s | .semTimedwait s => some (s, .semaphore, .acquire true)
  | .semPost s => some (s, .semaphore, .release)
  | _ => none

/-- The threads that use a lock, each with whether it uses it exclusively, and
the value of a semaphore. -/
structure Lock where
  held : List (Nat × Bool) := []
  taken : List (Nat × Bool) := []
  given : List (Nat × Bool) := []
  value : Nat := 0

namespace Lock

variable (l : Lock)

def users : List (Nat × Bool) := l.held ++ l.taken ++ l.given

/-- An exclusive user waits for all others, and a shared one for an exclusive
one. -/
def grants (exclusive : Bool) : Bool :=
  if exclusive then l.users.isEmpty else l.users.all fun x => !x.2

def take (tid : Nat) (exclusive : Bool) (k : LockKind) : Option Lock :=
  if k = .semaphore then
    if 0 < l.value then
      some { l with value := l.value - 1, taken := (tid, exclusive) :: l.taken }
    else none
  else if l.grants exclusive then some { l with taken := (tid, exclusive) :: l.taken }
  else none

/-- A thread announces that it gives the lock back.  It must hold it, unless it
is a semaphore. -/
def give (tid : Nat) (k : LockKind) : Option Lock :=
  if k = .semaphore then some { l with given := (tid, true) :: l.given }
  else
    match l.held.find? fun x => x.1 = tid with
    | none => none
    | some x => some { l with held := l.held.eraseP fun x => x.1 = tid, given := x :: l.given }

def drop (tid : Nat) (k : LockKind) : Option Lock :=
  if l.given.any fun x => x.1 = tid then
    some
      { l with
        given := l.given.eraseP fun x => x.1 = tid,
        value := if k = .semaphore then l.value + 1 else l.value }
  else none

/-- The use that a thread is about to announce. -/
def settle (tid : Nat) (exclusive : Bool) : Lock :=
  if (tid, exclusive) ∈ l.taken then { l with taken := l.taken.erase (tid, exclusive) }
  else { l with given := l.given.erase (tid, exclusive) }

/-- A thread announces that it has the lock. -/
def hold (tid : Nat) (exclusive : Bool) (k : LockKind) : Lock :=
  let l' := l.settle tid exclusive
  if k = .semaphore then l' else { l' with held := (tid, exclusive) :: l'.held }

end Lock

/-! ## The calls -/

namespace Locks

/-- What happens to the lock inside a call. -/
inductive Inner where
  | takes
  | drops
deriving DecidableEq, Repr

/-- A thread releases, or waits with, only a lock that it holds. -/
def enter (kind : UInt64 → Option LockKind) (e : UInt64 → Lock) (tid : Nat) (c : Call) :
    Option (UInt64 → Lock) :=
  match c.lockUse with
  | none => none
  | some (a, k, role) =>
      if kind a = some k then
        match role with
        | .acquire _ => some e
        | .release | .wait => ((e a).give tid k).map (Function.update e a)
      else none

def inner (e : UInt64 → Lock) (tid : Nat) (c : Call) (i : Inner) : Option (UInt64 → Lock) :=
  match c.lockUse, i with
  | some (a, k, .acquire exclusive), .takes =>
      ((e a).take tid exclusive k).map (Function.update e a)
  | some (a, k, .wait), .takes => ((e a).take tid true k).map (Function.update e a)
  | some (a, k, .release), .drops => ((e a).drop tid k).map (Function.update e a)
  | some (a, k, .wait), .drops => ((e a).drop tid k).map (Function.update e a)
  | _, _ => none

/-- An acquisition returns 0 if and only if it took the lock.  A release
succeeds.  A wait returns with the lock, whatever else it returns; it may have
failed before it dropped it. -/
def returns (e : UInt64 → Lock) (tid : Nat) (c : Call) (r : Result) : Option (UInt64 → Lock) :=
  match c.lockUse with
  | some (a, _, .acquire exclusive) =>
      if r.ret = 0 ↔ (tid, exclusive) ∈ (e a).taken then some e else none
  | some (a, _, .release) => if r.ret = 0 ∧ tid ∉ (e a).given.map Prod.fst then some e else none
  | some (a, _, .wait) =>
      if (tid, true) ∈ (e a).taken ∨ (tid, true) ∈ (e a).given then some e else none
  | none => none

def leave (e : UInt64 → Lock) (tid : Nat) (c : Call) (r : Result) : UInt64 → Lock :=
  match c.lockUse with
  | some (a, k, .acquire exclusive) =>
      if r.ret = 0 then Function.update e a ((e a).hold tid exclusive k) else e
  | some (a, k, .wait) => Function.update e a ((e a).hold tid true k)
  | _ => e

end Locks

/-- The calls on locks.  Each lock has one kind.

Annotations are logged with the entry types of rwlocks, and the program may
annotate any address.  `occurs` has no step for an annotation of an address that is
also a `pthread` rwlock.  So every result about these runs assumes that the program
annotates none of those. -/
def locking (kind : UInt64 → Option LockKind) : Runtime (UInt64 → Lock) Locks.Inner where
  calls c := c.lockUse.isSome
  events
    | .annotateRwlockAcq .. => true
    | _ => false
  enter e _ _ tid c := Locks.enter kind e tid c
  inner := Locks.inner
  returns := Locks.returns
  leave e _ _ tid c r := Locks.leave e tid c r
  occurs e _ _ _
    | .annotateRwlockAcq lock _ => if kind lock = some .rwlock then none else some e
    | _ => none

/-! ## What the subscribers log -/

def LockKind.acquired : LockKind → Bool → EntryType
  | .rwlock, true => .rwLockAcqExc
  | .rwlock, false => .rwLockAcqShr
  | _, _ => .lockAcquire

def LockKind.released : LockKind → EntryType
  | .rwlock => .rwLockRel
  | _ => .lockRelease

/-- The entry types about a lock of this kind. -/
def LockKind.types : LockKind → List EntryType
  | .rwlock => [.rwLockAcqShr, .rwLockAcqExc, .rwLockRel]
  | _ => [.lockAcquire, .lockRelease]

section

variable {t : Tracer} {tid : Nat} {ok : Nat → Bool} {c : Call} {r : Result} {a : UInt64}
  {k : LockKind} {exclusive : Bool}

/-- Log an entry about a lock, with the next index. -/
def Tracer.logLock (t : Tracer) (tid : Nat) (type : EntryType) (a : UInt64) : Tracer :=
  t.takeAtomic.put { tid := tid, type := type, ptr := a, index := t.nextAtomicIndex }

theorem before_lock_acquire (hc : c.lockUse = some (a, k, .acquire exclusive)) :
    t.before tid ok c = some t := by
  cases c <;> first | rfl | cases hc

theorem before_lock_release {role : Role} (hok : ∀ k, ok k = true)
    (hc : c.lockUse = some (a, k, role)) (hrole : role = .release ∨ role = .wait) :
    t.before tid ok c = some (t.logLock tid k.released a) := by
  cases c with
  | mutexUnlock | spinUnlock | semPost | rwlockUnlock | condWait | condTimedwait | condClockwait =>
      cases hc
      exact congrArg some (Tracer.logAtomic_ok (hok 0) ..)
  | _ =>
      cases hc
      try rcases hrole with h | h <;> cases h

theorem after_lock_acquire (hok : ∀ k, ok k = true)
    (hc : c.lockUse = some (a, k, .acquire exclusive)) (hr : r.ret = 0) :
    t.after tid ok c r = t.logLock tid (k.acquired exclusive) a := by
  cases c with
  | mutexLock | mutexTrylock | mutexTimedlock | mutexClocklock | rwlockRdlock | rwlockTryrdlock
  | rwlockTimedrdlock | rwlockWrlock | rwlockTrywrlock | rwlockTimedwrlock | spinLock | spinTrylock
  | semWait | semTrywait | semTimedwait =>
      cases hc
      rw [Tracer.after, Tracer.acquired, if_pos hr]
      exact Tracer.logAtomic_ok (hok 0) ..
  | _ => cases hc

/-- A failed acquisition is not logged. -/
theorem after_lock_failed (hc : c.lockUse = some (a, k, .acquire exclusive)) (hr : r.ret ≠ 0) :
    t.after tid ok c r = t := by
  cases c with
  | mutexLock | mutexTrylock | mutexTimedlock | mutexClocklock | rwlockRdlock | rwlockTryrdlock
  | rwlockTimedrdlock | rwlockWrlock | rwlockTrywrlock | rwlockTimedwrlock | spinLock | spinTrylock
  | semWait | semTrywait | semTimedwait => exact if_neg hr
  | _ => cases hc

theorem after_lock_wait (hok : ∀ k, ok k = true) (hc : c.lockUse = some (a, k, .wait)) :
    t.after tid ok c r = t.logLock tid (k.acquired true) a := by
  cases c with
  | condWait | condTimedwait | condClockwait =>
      cases hc
      exact Tracer.logAtomic_ok (hok 0) ..
  | _ => cases hc

theorem after_lock_release (hc : c.lockUse = some (a, k, .release)) : t.after tid ok c r = t := by
  cases c with
  | mutexUnlock | spinUnlock | semPost | rwlockUnlock => rfl
  | _ => cases hc

end

/-! ## Readers -/

/-- One step of a reader of the entries about a mutex, who knows the thread that
holds it. -/
def mutexStep : Option Nat → Logged → Option (Option Nat)
  | none, e => if e.type = .lockAcquire then some (some e.tid) else none
  | some tid, e => if e.type = .lockRelease ∧ e.tid = tid then some none else none

/-- One step of a reader of the entries about a rwlock, who knows the
acquisitions that are not released. -/
def rwlockStep (held : List (Nat × Bool)) (e : Logged) : Option (List (Nat × Bool)) :=
  match e.type with
  | .rwLockAcqExc => if held.all fun x => x.1 = e.tid then some ((e.tid, true) :: held) else none
  | .rwLockAcqShr =>
      if held.all fun x => !x.2 || x.1 = e.tid then some ((e.tid, false) :: held) else none
  | .rwLockRel =>
      if held.any fun x => x.1 = e.tid then some (held.eraseP fun x => x.1 = e.tid) else none
  | _ => none

/-- One step of a reader of the entries about a semaphore, who knows its
permits. -/
def semaphoreStep (n : Nat) (e : Logged) : Option Nat :=
  match e.type with
  | .lockAcquire => if 0 < n then some (n - 1) else none
  | .lockRelease => some (n + 1)
  | _ => none

namespace Lock

/-- A reader of the entries about the lock knows what is so. -/
def Agrees (init : Nat) (l : Lock) (es : List Logged) : LockKind → Prop
  | .mutex => Machine.run mutexStep none es = some (l.held.head?.map Prod.fst)
  | .rwlock => Machine.run rwlockStep [] es = some l.held
  | .semaphore =>
      Machine.run semaphoreStep init es = some (l.value + l.taken.length + l.given.length)

/-- An exclusive user is the only one. -/
def Excludes (l : Lock) : LockKind → Prop
  | .mutex => l.users.length ≤ 1 ∧ ∀ x ∈ l.users, x.2 = true
  | .rwlock => ∀ x ∈ l.users, x.2 = true → l.users.length ≤ 1
  | .semaphore => True

/-- The uses of other threads that the trace does not show stay. -/
def Keeps (tid : Nat) (l l' : Lock) : Prop :=
  ∀ x : Nat × Bool, x.1 ≠ tid → (x ∈ l.taken → x ∈ l'.taken) ∧ (x ∈ l.given → x ∈ l'.given)

section

variable {l l' : Lock} {k : LockKind} {tid init : Nat} {exclusive : Bool} {es : List Logged}
  {x : Nat × Bool}

theorem Excludes.sublist (h : l.Excludes k) (hs : l'.users.Sublist l.users) : l'.Excludes k := by
  cases k with
  | mutex => exact ⟨Nat.le_trans hs.length_le h.1, fun x hx => h.2 x (hs.subset hx)⟩
  | rwlock => exact fun x hx hex => Nat.le_trans hs.length_le (h x (hs.subset hx) hex)
  | semaphore => trivial

theorem Excludes.perm (h : l.Excludes k) (hp : l'.users.Perm l.users) : l'.Excludes k := by
  cases k with
  | mutex => exact ⟨Nat.le_of_eq hp.length_eq |>.trans h.1, fun x hx => h.2 x (hp.subset hx)⟩
  | rwlock => exact fun x hx hex => Nat.le_of_eq hp.length_eq |>.trans (h x (hp.subset hx) hex)
  | semaphore => trivial

theorem length_users (l : Lock) :
    l.users.length = l.held.length + l.taken.length + l.given.length := by
  rw [users, List.length_append, List.length_append]

/-- The only user of a lock does not hold it before that is announced. -/
theorem held_nil (hlen : l.users.length ≤ 1) (hx : x ∈ l.taken ∨ x ∈ l.given) : l.held = [] := by
  rw [length_users] at hlen
  have hpos : 0 < l.taken.length + l.given.length := by
    rcases hx with hx | hx
    · exact Nat.add_pos_left (List.length_pos_of_mem hx) _
    · exact Nat.add_pos_right _ (List.length_pos_of_mem hx)
  exact List.eq_nil_of_length_eq_zero (by omega)

/-! ### What each step keeps -/

theorem grants_excludes (hk : k = .mutex → exclusive = true) (hg : l.grants exclusive = true) :
    ({ l with taken := (tid, exclusive) :: l.taken } : Lock).Excludes k := by
  rw [grants] at hg
  split at hg
  next hex =>
    have hnil : l.users = [] := List.isEmpty_iff.mp hg
    rw [users, List.append_eq_nil_iff, List.append_eq_nil_iff] at hnil
    obtain ⟨⟨hheld, htaken⟩, hgiven⟩ := hnil
    cases k <;> simp [Excludes, users, hheld, htaken, hgiven, hex]
  next hex =>
    cases k with
    | mutex => exact absurd (hk rfl) hex
    | semaphore => trivial
    | rwlock =>
        intro x hx hx2
        have hmem : x ∈ (tid, exclusive) :: l.users := by
          simp only [users, List.mem_append, List.mem_cons] at hx ⊢
          tauto
        rcases List.mem_cons.mp hmem with rfl | hmem
        · exact absurd hx2 hex
        · have hnot := List.all_eq_true.mp hg x hmem
          simp [hx2] at hnot

/-- What a step inside a call keeps: a reader sees nothing of it. -/
structure Silent (tid : Nat) (k : LockKind) (l l' : Lock) : Prop where
  excludes : l'.Excludes k
  agrees : ∀ {init es}, l.Agrees init es k → l'.Agrees init es k
  keeps : Keeps tid l l'

theorem take_silent (hk : k = .mutex → exclusive = true) (hl : l.take tid exclusive k = some l') :
    Silent tid k l l' := by
  have hkeeps : Keeps tid l { l with taken := (tid, exclusive) :: l.taken } :=
    fun x _ => ⟨List.mem_cons_of_mem _, id⟩
  rw [take] at hl
  split at hl
  next hsem =>
    subst hsem
    split at hl
    next hpos =>
      cases hl
      refine ⟨trivial, fun h => ?_, hkeeps⟩
      rw [Agrees, h]
      simp only [List.length_cons]
      congr 1
      omega
    next => cases hl
  next hsem =>
    split at hl
    next hg =>
      cases hl
      refine ⟨grants_excludes hk hg, fun h => ?_, hkeeps⟩
      cases k with
      | mutex | rwlock => exact h
      | semaphore => exact absurd rfl hsem
    next => cases hl

theorem drop_silent (h : l.Excludes k) (hl : l.drop tid k = some l') : Silent tid k l l' := by
  rw [drop] at hl
  split at hl
  next hany =>
    cases hl
    refine ⟨h.sublist ?_, fun h => ?_, fun x hx => ⟨id, fun hmem => ?_⟩⟩
    · exact List.Sublist.append_left List.eraseP_sublist _
    · cases k with
      | mutex | rwlock => exact h
      | semaphore =>
          obtain ⟨x, hx, hp⟩ := List.any_eq_true.mp hany
          have hlen := List.length_eraseP_of_mem (p := fun x => decide (x.1 = tid)) hx hp
          have hpos := List.length_pos_of_mem hx
          rw [Agrees, h]
          simp only [if_true, hlen]
          congr 1
          omega
    · rw [List.mem_eraseP_of_neg (by simpa using hx)]
      exact hmem
  next => cases hl

theorem perm_eraseP {p : Nat × Bool → Bool} {xs : List (Nat × Bool)} (h : xs.find? p = some x) :
    xs.Perm (x :: xs.eraseP p) := by
  induction xs with
  | nil => cases h
  | cons y xs ih =>
      rw [List.find?_cons] at h
      rw [List.eraseP_cons]
      split at h
      next hy =>
        cases h
        rw [hy]
        exact List.Perm.refl _
      next hy =>
        rw [hy]
        exact ((ih h).cons y).trans (List.Perm.swap ..)

/-- A reader sees the release of a lock, with the entry that the release logs. -/
theorem give_agrees (h : l.Excludes k) (hl : l.give tid k = some l') {e : Logged}
    (htype : e.type = k.released) (htid : e.tid = tid) :
    l'.Excludes k ∧ (l.Agrees init es k → l'.Agrees init (es ++ [e]) k) ∧ Keeps tid l l' := by
  have hkeeps : ∀ {held x}, Keeps tid l { l with held, given := x :: l.given } :=
    fun _ _ => ⟨id, List.mem_cons_of_mem _⟩
  rw [give] at hl
  split at hl
  next hsem =>
    subst hsem
    cases hl
    refine ⟨trivial, fun h => Machine.run_concat h ?_, hkeeps⟩
    simp only [semaphoreStep, htype, LockKind.released, List.length_cons]
    rfl
  next hsem =>
    split at hl
    next => cases hl
    next x hx =>
      cases hl
      have hperm := perm_eraseP hx
      have hfst : x.1 = tid := by simpa using List.find?_some hx
      refine ⟨h.perm ?_, fun ha => ?_, hkeeps⟩
      · simp only [users]
        refine (List.perm_middle.trans ?_)
        rw [← List.cons_append, ← List.cons_append]
        exact (hperm.symm.append_right _).append_right _
      · cases k with
        | semaphore => exact absurd rfl hsem
        | mutex =>
            -- the holder is the only user
            have hlen := h.1
            rw [length_users, hperm.length_eq, List.length_cons] at hlen
            have hnil : l.held.eraseP (fun x => decide (x.1 = tid)) = [] :=
              List.eq_nil_of_length_eq_zero (by omega)
            have hheld : l.held = [x] := by
              rw [hnil] at hperm
              exact List.perm_singleton.mp hperm
            refine Machine.run_concat ha ?_
            simp [mutexStep, htype, htid, hheld, hfst, LockKind.released]
        | rwlock =>
            refine Machine.run_concat ha ?_
            have hany : (l.held.any fun x => decide (x.1 = tid)) = true :=
              List.any_eq_true.mpr ⟨x, List.mem_of_find?_eq_some hx, by simpa using hfst⟩
            simp only [rwlockStep, htype, htid, LockKind.released, hany, if_true]

/-- What the announcement of a use takes out. -/
structure Settled (tid : Nat) (exclusive : Bool) (l l' : Lock) : Prop where
  held : l'.held = l.held
  value : l'.value = l.value
  users : l.users.Perm ((tid, exclusive) :: l'.users)
  keeps : Keeps tid l l'

theorem settle_settled (hx : (tid, exclusive) ∈ l.taken ∨ (tid, exclusive) ∈ l.given) :
    Settled tid exclusive l (l.settle tid exclusive) := by
  rw [settle]
  split
  next hmem =>
    refine ⟨rfl, rfl, ?_, fun x hx => ⟨fun h => ?_, id⟩⟩
    · have hperm := (List.perm_cons_erase hmem).append_left l.held
      exact ((hperm.trans List.perm_middle).append_right l.given)
    · exact (List.mem_erase_of_ne (fun heq => hx (congrArg Prod.fst heq))).mpr h
  next hmem =>
    have hgiven := hx.resolve_left hmem
    refine ⟨rfl, rfl, ?_, fun x hx => ⟨id, fun h => ?_⟩⟩
    · have hperm := (List.perm_cons_erase hgiven).append_left (l.held ++ l.taken)
      exact hperm.trans List.perm_middle
    · exact (List.mem_erase_of_ne (fun heq => hx (congrArg Prod.fst heq))).mpr h

/-- A reader sees the acquisition of a lock, with the entry that the acquisition
logs. -/
theorem hold_agrees (h : l.Excludes k)
    (hx : (tid, exclusive) ∈ l.taken ∨ (tid, exclusive) ∈ l.given) {e : Logged}
    (htype : e.type = k.acquired exclusive) (htid : e.tid = tid) :
    (l.hold tid exclusive k).Excludes k ∧
      (l.Agrees init es k → (l.hold tid exclusive k).Agrees init (es ++ [e]) k) ∧
      Keeps tid l (l.hold tid exclusive k) := by
  have hs := settle_settled hx
  have hlen := hs.users.length_eq
  rw [List.length_cons, length_users, length_users, hs.held] at hlen
  by_cases hsem : k = .semaphore
  · subst hsem
    have hhold : l.hold tid exclusive .semaphore = l.settle tid exclusive := rfl
    rw [hhold]
    refine ⟨trivial, fun ha => Machine.run_concat ha ?_, hs.keeps⟩
    have hpos : 0 < l.value + l.taken.length + l.given.length := by omega
    simp only [semaphoreStep, htype, LockKind.acquired, hpos, if_true, hs.value]
    congr 1
    omega
  · have hhold : l.hold tid exclusive k =
        { l.settle tid exclusive with
          held := (tid, exclusive) :: (l.settle tid exclusive).held } := if_neg hsem
    rw [hhold]
    refine ⟨h.perm hs.users.symm, fun ha => ?_, hs.keeps⟩
    cases k with
    | semaphore => exact absurd rfl hsem
    | mutex =>
        have hnil := held_nil h.1 hx
        refine Machine.run_concat ha ?_
        simp [mutexStep, hnil, htype, htid, LockKind.acquired]
    | rwlock =>
        refine Machine.run_concat ha ?_
        cases exclusive with
        | true =>
            have hmem : (tid, true) ∈ l.users := hs.users.symm.subset List.mem_cons_self
            have hnil := held_nil (h _ hmem rfl) hx
            simp [rwlockStep, hs.held, hnil, htype, htid, LockKind.acquired]
        | false =>
            have hshared : (l.held.all fun x => !x.2 || decide (x.1 = tid)) = true := by
              rw [List.all_eq_true]
              intro y hy
              cases hy2 : y.2 with
              | false => rfl
              | true =>
                  -- an exclusive holder would be the only user
                  have hmem : y ∈ l.users := by simp [users, hy]
                  have hnil := held_nil (h y hmem hy2) hx
                  rw [hnil] at hy
                  cases hy
            simp only [rwlockStep, htype, LockKind.acquired, htid, hshared, if_true, hs.held]

end

end Lock

/-! ## The invariant -/

/-- The types of the entries about any lock. -/
def EntryType.isLock (type : EntryType) : Bool :=
  LockKind.mutex.types.contains type || LockKind.rwlock.types.contains type

def isLockEntry (e : Logged) : Bool := e.type.isLock

/-- The entries about the lock at `a`, in the order of a list. -/
def lockEntries (k : LockKind) (a : UInt64) (es : List Logged) : List Logged :=
  es.filter fun e => e.ptr = a && k.types.contains e.type

/-- What holds of the call that a thread is in. -/
structure FrameFits (kind : UInt64 → Option LockKind) (e : UInt64 → Lock) (tid : Nat) (f : Frame)
    (a : UInt64) (k : LockKind) (role : Role) : Prop where
  kind : kind a = some k
  acquired : ∀ exclusive r, role = .acquire exclusive → f.result = some r → r.ret = 0 →
    (tid, exclusive) ∈ (e a).taken
  waited : ∀ r, role = .wait → f.result = some r →
    (tid, true) ∈ (e a).taken ∨ (tid, true) ∈ (e a).given

structure Legal (kind : UInt64 → Option LockKind) (init : UInt64 → Nat)
    (s : Process (UInt64 → Lock)) : Prop where
  ascending : Ascending Logged.index (s.tracer.log.filter isLockEntry)
  below : ∀ e ∈ s.tracer.log.filter isLockEntry, e.index < s.tracer.nextAtomicIndex
  agrees : ∀ a k, kind a = some k → (s.env a).Agrees (init a) (lockEntries k a s.tracer.log) k
  excludes : ∀ a k, kind a = some k → (s.env a).Excludes k
  fits : ∀ tid f, s.frames tid = some f → ∀ a k role, f.call.lockUse = some (a, k, role) →
    FrameFits kind s.env tid f a k role

section

variable {kind : UInt64 → Option LockKind} {init : UInt64 → Nat} {s s' : Process (UInt64 → Lock)}
  {tid : Nat} {c : Call} {a : UInt64} {k : LockKind} {role : Role} {t : Tracer}
  {env : UInt64 → Lock} {l : Lock}

theorem Legal.start : Legal kind init { env := fun a => { value := init a } } where
  ascending := List.Pairwise.nil
  below _ h := by cases h
  agrees a k _ := by
    cases k with
    | mutex | rwlock => rfl
    | semaphore => rfl
  excludes a k _ := by cases k <;> simp [Lock.Excludes, Lock.users]
  fits _ _ h := by cases h

theorem FrameFits.keep {e e' : UInt64 → Lock} {f : Frame} (h : FrameFits kind e tid f a k role)
    {tid' : Nat} (htid : tid ≠ tid') (hkeeps : (e a).Keeps tid' (e' a)) :
    FrameFits kind e' tid f a k role where
  kind := h.kind
  acquired exclusive _ hrole hr hret :=
    (hkeeps (tid, exclusive) htid).1 (h.acquired _ _ hrole hr hret)
  waited _ hrole hr :=
    (h.waited _ hrole hr).imp (hkeeps (tid, true) htid).1 (hkeeps (tid, true) htid).2

theorem Lock.Keeps.refl (tid : Nat) (l : Lock) : l.Keeps tid l := fun _ _ => ⟨id, id⟩

theorem keeps_update {e : UInt64 → Lock} (h : (e a).Keeps tid l) (b : UInt64) :
    (e b).Keeps tid (Function.update e a l b) := by
  by_cases hb : b = a
  · subst hb
    rw [Function.update_self]
    exact h
  · rw [Function.update_of_ne hb]
    exact Lock.Keeps.refl tid (e b)

/-- A step of a thread.  The calls of the others still fit. -/
theorem Legal.fits_update (h : Legal kind init s) {f : Option Frame}
    (hkeeps : ∀ a, (s.env a).Keeps tid (env a))
    (hf : ∀ f', f = some f' → ∀ a k role, f'.call.lockUse = some (a, k, role) →
      FrameFits kind env tid f' a k role) :
    ∀ tid' f', Function.update s.frames tid f tid' = some f' →
      ∀ a k role, f'.call.lockUse = some (a, k, role) → FrameFits kind env tid' f' a k role := by
  intro tid' f' hf' a k role hrole
  by_cases htid : tid' = tid
  · subst htid
    rw [Function.update_self] at hf'
    exact hf f' hf' a k role hrole
  · rw [Function.update_of_ne htid] at hf'
    exact (h.fits tid' f' hf' a k role hrole).keep htid (hkeeps a)

theorem LockKind.isLockEntry_of_types {e : Logged} (k : LockKind) (h : e.type ∈ k.types) :
    isLockEntry e = true := by
  rw [isLockEntry, EntryType.isLock, Bool.or_eq_true, List.contains_iff_mem, List.contains_iff_mem]
  cases k with
  | mutex | semaphore => exact .inl h
  | rwlock => exact .inr h

/-- The entries about a lock are among those about any lock. -/
theorem lockEntries_filter (k : LockKind) (a : UInt64) (p : Logged → Bool)
    (hp : ∀ e, isLockEntry e = true → p e = true) (es : List Logged) :
    lockEntries k a (es.filter p) = lockEntries k a es := by
  rw [lockEntries, lockEntries, List.filter_filter]
  refine List.filter_congr fun e _ => ?_
  cases hm : k.types.contains e.type with
  | true => simp [hp e (k.isLockEntry_of_types (List.contains_iff_mem.mp hm))]
  | false => simp

theorem lockEntries_log (t : Tracer) (tid : Nat) (type : EntryType) (a b : UInt64) (k : LockKind) :
    lockEntries k b (t.logLock tid type a).log = lockEntries k b t.log ++
      if a = b ∧ type ∈ k.types then
        [{ tid := tid, type := type, ptr := a, index := t.nextAtomicIndex }] else [] := by
  simp only [lockEntries, Tracer.logLock, Tracer.put, Tracer.takeAtomic, List.filter_append]
  congr 1
  split
  next h => simp [h]
  next h =>
    rw [List.filter_eq_nil_iff]
    intro e he
    rw [List.mem_singleton] at he
    subst he
    simpa using h

/-- A step that logs an entry about a lock keeps the order of the entries. -/
theorem Legal.ordered_log (h : Legal kind init s) (tid : Nat) (a : UInt64) {type : EntryType}
    (htype : ∃ k : LockKind, type ∈ k.types) :
    Ascending Logged.index ((s.tracer.logLock tid type a).log.filter isLockEntry) ∧
      ∀ e ∈ (s.tracer.logLock tid type a).log.filter isLockEntry,
        e.index < (s.tracer.logLock tid type a).nextAtomicIndex := by
  obtain ⟨k, hk⟩ := htype
  have hlog : (s.tracer.logLock tid type a).log.filter isLockEntry =
      s.tracer.log.filter isLockEntry ++
        [{ tid := tid, type := type, ptr := a, index := s.tracer.nextAtomicIndex }] :=
    filter_append_of _ (by simpa using k.isLockEntry_of_types hk)
  rw [hlog]
  refine ⟨h.ascending.concat h.below, fun e he => ?_⟩
  show e.index < s.tracer.nextAtomicIndex + 1
  rw [List.mem_append, List.mem_singleton] at he
  rcases he with he | rfl
  · exact Nat.lt_succ_of_lt (h.below e he)
  · exact Nat.lt_succ_self _

/-- A thread logs what it does with a lock of its own kind. -/
theorem Legal.logs (h : Legal kind init s) {type : EntryType} {frames : Nat → Option Frame}
    (hkind : kind a = some k) (htype : type ∈ k.types)
    (hagrees : (s.env a).Agrees (init a) (lockEntries k a s.tracer.log) k →
      l.Agrees (init a) (lockEntries k a s.tracer.log ++
        [{ tid := tid, type := type, ptr := a, index := s.tracer.nextAtomicIndex }]) k)
    (hexcludes : l.Excludes k)
    (hfits : ∀ tid f, frames tid = some f → ∀ b k role, f.call.lockUse = some (b, k, role) →
      FrameFits kind (Function.update s.env a l) tid f b k role) :
    Legal kind init ⟨s.tracer.logLock tid type a, Function.update s.env a l, frames⟩ where
  ascending := (h.ordered_log _ _ ⟨k, htype⟩).1
  below := (h.ordered_log _ _ ⟨k, htype⟩).2
  agrees b k' hb := by
    show (Function.update s.env a l b).Agrees _
      (lockEntries k' b (s.tracer.logLock tid type a).log) k'
    rw [lockEntries_log]
    by_cases hba : b = a
    · subst hba
      cases hkind.symm.trans hb
      rw [Function.update_self, if_pos ⟨rfl, htype⟩]
      exact hagrees (h.agrees b k hb)
    · rw [Function.update_of_ne hba, if_neg fun hand => hba hand.1.symm, List.append_nil]
      exact h.agrees b k' hb
  excludes b k' hb := by
    show (Function.update s.env a l b).Excludes k'
    by_cases hba : b = a
    · subst hba
      cases hkind.symm.trans hb
      rw [Function.update_self]
      exact hexcludes
    · rw [Function.update_of_ne hba]
      exact h.excludes b k' hb
  fits := hfits

/-- A step that logs nothing about locks. -/
theorem Legal.silent (h : Legal kind init s)
    (hlog : s'.tracer.log.filter isLockEntry = s.tracer.log.filter isLockEntry)
    (hnext : s.tracer.nextAtomicIndex ≤ s'.tracer.nextAtomicIndex)
    (hagrees : ∀ a k es, kind a = some k → (s.env a).Agrees (init a) es k →
      (s'.env a).Agrees (init a) es k)
    (hexcludes : ∀ a k, kind a = some k → (s'.env a).Excludes k)
    (hfits : ∀ tid f, s'.frames tid = some f → ∀ a k role, f.call.lockUse = some (a, k, role) →
      FrameFits kind s'.env tid f a k role) : Legal kind init s' where
  ascending := hlog ▸ h.ascending
  below e he := Nat.lt_of_lt_of_le (h.below e (hlog ▸ he)) hnext
  agrees a k hk := by
    rw [← lockEntries_filter k a isLockEntry fun _ => id, hlog,
      lockEntries_filter k a isLockEntry fun _ => id]
    exact hagrees a k _ hk (h.agrees a k hk)
  excludes := hexcludes
  fits := hfits

/-! ## Steps -/

theorem LockKind.released_mem (k : LockKind) : k.released ∈ k.types := by
  cases k <;> simp [LockKind.released, LockKind.types]

theorem LockKind.acquired_mem (k : LockKind) (exclusive : Bool) :
    k.acquired exclusive ∈ k.types := by
  cases k <;> cases exclusive <;> simp [LockKind.acquired, LockKind.types]

theorem Legal.enter (h : Legal kind init s) {ok : Nat → Bool} (hok : ∀ k, ok k = true)
    (ht : s.tracer.before tid ok c = some t) (he : Locks.enter kind s.env tid c = some env) :
    Legal kind init ⟨t, env, Function.update s.frames tid (some { call := c })⟩ := by
  rw [Locks.enter] at he
  split at he
  next => cases he
  next a k role huse =>
    split at he
    next hkind =>
      have hfits : ∀ {env}, (∀ a, (s.env a).Keeps tid (env a)) → ∀ tid' f',
          Function.update s.frames tid (some { call := c }) tid' = some f' →
          ∀ a k role, f'.call.lockUse = some (a, k, role) →
            FrameFits kind env tid' f' a k role := by
        intro env hkeeps
        refine h.fits_update hkeeps fun f' hf b k' role' huse' => ?_
        cases hf
        cases huse.symm.trans huse'
        exact ⟨hkind, fun _ _ _ hr => (by cases hr), fun _ _ hr => (by cases hr)⟩
      have hgive : ∀ {l}, role = .release ∨ role = .wait → (s.env a).give tid k = some l →
          Legal kind init
            ⟨t, Function.update s.env a l, Function.update s.frames tid (some { call := c })⟩ := by
        intro l hrole hl
        cases (before_lock_release hok huse hrole).symm.trans ht
        obtain ⟨hexcludes, hagrees, hkeeps⟩ := Lock.give_agrees (h.excludes a k hkind) hl
          (e := { tid := tid, type := k.released, ptr := a, index := s.tracer.nextAtomicIndex })
          rfl rfl
        exact h.logs hkind k.released_mem hagrees hexcludes (hfits (keeps_update hkeeps))
      cases role with
      | acquire exclusive =>
          cases he
          cases (before_lock_acquire huse).symm.trans ht
          exact h.silent rfl (Nat.le_refl _) (fun _ _ _ _ => id) h.excludes
            (hfits fun a => Lock.Keeps.refl tid _)
      | release =>
          obtain ⟨l, hl, rfl⟩ := Option.map_eq_some_iff.mp he
          exact hgive (.inl rfl) hl
      | wait =>
          obtain ⟨l, hl, rfl⟩ := Option.map_eq_some_iff.mp he
          exact hgive (.inr rfl) hl
    next => cases he

/-- A step inside a call changes a lock so that no reader sees it. -/
theorem Legal.inside (h : Legal kind init s) (hframe : s.frames tid = some ⟨c, none⟩)
    (huse : c.lockUse = some (a, k, role)) (hs : Lock.Silent tid k (s.env a) l) :
    Legal kind init { s with env := Function.update s.env a l } := by
  have hfits := h.fits tid _ hframe a k role huse
  refine h.silent rfl (Nat.le_refl _) (fun b k' es hb ha => ?_) (fun b k' hb => ?_) ?_
  · by_cases hba : b = a
    · subst hba
      cases hfits.kind.symm.trans hb
      show (Function.update s.env b l b).Agrees _ _ _
      rw [Function.update_self]
      exact hs.agrees ha
    · show (Function.update s.env a l b).Agrees _ _ _
      rw [Function.update_of_ne hba]
      exact ha
  · by_cases hba : b = a
    · subst hba
      cases hfits.kind.symm.trans hb
      show (Function.update s.env b l b).Excludes _
      rw [Function.update_self]
      exact hs.excludes
    · show (Function.update s.env a l b).Excludes _
      rw [Function.update_of_ne hba]
      exact h.excludes b k' hb
  · show ∀ tid f, s.frames tid = some f → _
    rw [← Function.update_eq_self tid s.frames]
    refine h.fits_update (keeps_update hs.keeps) fun f' hf b k' role' huse' => ?_
    cases hframe.symm.trans hf
    exact ⟨(h.fits tid _ hframe b k' role' huse').kind, fun _ _ _ hr => (by cases hr),
      fun _ _ hr => (by cases hr)⟩

theorem Call.lockUse_mutex {exclusive : Bool}
    (h : c.lockUse = some (a, .mutex, .acquire exclusive)) : exclusive = true := by
  cases c <;> cases h <;> rfl

theorem Legal.inner (h : Legal kind init s) {i : Locks.Inner}
    (hframe : s.frames tid = some ⟨c, none⟩) (he : Locks.inner s.env tid c i = some env) :
    Legal kind init { s with env } := by
  have hexcludes : ∀ {a k role}, c.lockUse = some (a, k, role) → (s.env a).Excludes k :=
    fun huse => h.excludes _ _ (h.fits tid _ hframe _ _ _ huse).kind
  unfold Locks.inner at he
  split at he
  next a k exclusive huse =>
    obtain ⟨l, hl, rfl⟩ := Option.map_eq_some_iff.mp he
    refine h.inside hframe huse (Lock.take_silent (fun hk => ?_) hl)
    subst hk
    exact Call.lockUse_mutex huse
  next a k huse =>
    obtain ⟨l, hl, rfl⟩ := Option.map_eq_some_iff.mp he
    exact h.inside hframe huse (Lock.take_silent (fun _ => rfl) hl)
  next a k huse =>
    obtain ⟨l, hl, rfl⟩ := Option.map_eq_some_iff.mp he
    exact h.inside hframe huse (Lock.drop_silent (hexcludes huse) hl)
  next a k huse =>
    obtain ⟨l, hl, rfl⟩ := Option.map_eq_some_iff.mp he
    exact h.inside hframe huse (Lock.drop_silent (hexcludes huse) hl)
  next => cases he

theorem Locks.returns_spec {e : UInt64 → Lock} {r : Result}
    (h : Locks.returns e tid c r = some env) : env = e ∧
      (∀ a k exclusive, c.lockUse = some (a, k, .acquire exclusive) → r.ret = 0 →
        (tid, exclusive) ∈ (e a).taken) ∧
      ∀ a k, c.lockUse = some (a, k, .wait) → (tid, true) ∈ (e a).taken ∨
        (tid, true) ∈ (e a).given := by
  rw [Locks.returns] at h
  split at h
  next a k exclusive huse =>
    split at h
    next hr =>
      cases h
      refine ⟨rfl, fun a' k' ex huse' hret => ?_, fun a' k' huse' => ?_⟩
      · cases huse.symm.trans huse'
        exact hr.mp hret
      · cases huse.symm.trans huse'
    next => cases h
  next a k huse =>
    split at h
    next =>
      cases h
      refine ⟨rfl, fun a' k' ex huse' => ?_, fun a' k' huse' => ?_⟩
      · cases huse.symm.trans huse'
      · cases huse.symm.trans huse'
    next => cases h
  next a k huse =>
    split at h
    next hr =>
      cases h
      refine ⟨rfl, fun a' k' ex huse' => ?_, fun a' k' huse' => ?_⟩
      · cases huse.symm.trans huse'
      · cases huse.symm.trans huse'
        exact hr
    next => cases h
  next => cases h

theorem Legal.returns (h : Legal kind init s) {r : Result} (hframe : s.frames tid = some ⟨c, none⟩)
    (he : Locks.returns s.env tid c r = some env) :
    Legal kind init { s with env, frames := Function.update s.frames tid (some ⟨c, some r⟩) } := by
  obtain ⟨rfl, hacquired, hwaited⟩ := Locks.returns_spec he
  refine h.silent rfl (Nat.le_refl _) (fun _ _ _ _ => id) h.excludes
    (h.fits_update (fun a => Lock.Keeps.refl tid _) fun f' hf a k role huse => ?_)
  cases hf
  refine ⟨(h.fits tid _ hframe a k role huse).kind, fun exclusive r' hrole hr hret => ?_,
    fun r' hrole hr => ?_⟩
  · subst hrole
    cases hr
    exact hacquired a k exclusive huse hret
  · subst hrole
    exact hwaited a k huse

theorem Legal.leave (h : Legal kind init s) {ok : Nat → Bool} {r : Result} (hok : ∀ k, ok k = true)
    (hframe : s.frames tid = some ⟨c, some r⟩) (hc : c.lockUse.isSome = true) :
    Legal kind init ⟨s.tracer.after tid ok c r, Locks.leave s.env tid c r,
      Function.update s.frames tid none⟩ := by
  have hfits : ∀ {env}, (∀ a, (s.env a).Keeps tid (env a)) → ∀ tid' f',
      Function.update s.frames tid none tid' = some f' →
      ∀ a k role, f'.call.lockUse = some (a, k, role) → FrameFits kind env tid' f' a k role :=
    fun hkeeps => h.fits_update hkeeps fun _ hf => (by cases hf)
  have hquiet : s.tracer.after tid ok c r = s.tracer →
      Legal kind init ⟨s.tracer.after tid ok c r, s.env, Function.update s.frames tid none⟩ := by
    intro hafter
    rw [hafter]
    exact h.silent rfl (Nat.le_refl _) (fun _ _ _ _ => id) h.excludes
      (hfits fun a => Lock.Keeps.refl tid _)
  have hhold : ∀ {a k exclusive}, kind a = some k →
      (tid, exclusive) ∈ (s.env a).taken ∨ (tid, exclusive) ∈ (s.env a).given →
      s.tracer.after tid ok c r = s.tracer.logLock tid (k.acquired exclusive) a →
      Legal kind init ⟨s.tracer.after tid ok c r,
        Function.update s.env a ((s.env a).hold tid exclusive k),
        Function.update s.frames tid none⟩ := by
    intro a k exclusive hkind hx hafter
    rw [hafter]
    obtain ⟨hexcludes, hagrees, hkeeps⟩ := Lock.hold_agrees (h.excludes a k hkind) hx
      (e := { tid := tid, type := k.acquired exclusive, ptr := a
              index := s.tracer.nextAtomicIndex })
      rfl rfl
    exact h.logs hkind (k.acquired_mem exclusive) hagrees hexcludes (hfits (keeps_update hkeeps))
  obtain ⟨⟨a, k, role⟩, huse⟩ := Option.isSome_iff_exists.mp hc
  have hf := h.fits tid _ hframe a k role huse
  rw [Locks.leave, huse]
  cases role with
  | acquire exclusive =>
      dsimp only
      split
      next hret =>
        exact hhold hf.kind (.inl (hf.acquired exclusive r rfl rfl hret))
          (after_lock_acquire hok huse hret)
      next hret => exact hquiet (after_lock_failed huse hret)
  | wait => exact hhold hf.kind (hf.waited r rfl rfl) (after_lock_wait hok huse)
  | release => exact hquiet (after_lock_release huse)

/-- An annotated lock is not a `pthread` rwlock. -/
theorem Legal.annotates (h : Legal kind init s) {ok : Nat → Bool} (hok : ∀ k, ok k = true)
    {isW : Bool} (hkind : kind a ≠ some .rwlock) :
    Legal kind init { s with tracer := s.tracer.event tid ok (.annotateRwlockAcq a isW) } := by
  have htype : (if isW then .rwLockAcqExc else .rwLockAcqShr) ∈ LockKind.rwlock.types := by
    cases isW <;> simp [LockKind.types]
  have hevent : s.tracer.event tid ok (.annotateRwlockAcq a isW) =
      s.tracer.logLock tid (if isW then .rwLockAcqExc else .rwLockAcqShr) a :=
    Tracer.logAtomic_ok (hok 0) ..
  rw [hevent]
  obtain ⟨hasc, hbelow⟩ := h.ordered_log tid a ⟨.rwlock, htype⟩
  refine ⟨hasc, hbelow, fun b k hb => ?_, h.excludes, h.fits⟩
  show (s.env b).Agrees _ (lockEntries k b (s.tracer.logLock tid _ a).log) k
  rw [lockEntries_log, if_neg, List.append_nil]
  · exact h.agrees b k hb
  · rintro ⟨rfl, hmem⟩
    cases k with
    | rwlock => exact hkind hb
    | mutex | semaphore => cases isW <;> simp [LockKind.types] at hmem

theorem Call.types_not_lock (h : c.lockUse = none) : ∀ type ∈ c.types, type.isLock = false := by
  cases c <;> simp_all [Call.lockUse, Call.types, EntryType.isLock, LockKind.types]

/-- The other subscribers log nothing about locks. -/
theorem free_not_lock {p : Publication} (hp : (locking kind).Free p = true) :
    ∀ type ∈ p.types, type.isLock = false := by
  have hnone : ∀ {c : Call}, (!c.lockUse.isSome) = true → c.lockUse = none := by
    intro c hc
    simpa using hc
  cases p with
  | before tid c ok => exact Call.types_not_lock (hnone hp)
  | after tid c r ok => exact Call.types_not_lock (hnone hp)
  | event tid o ok =>
      cases o <;>
        simp_all [Runtime.Free, locking, Publication.types, Occurrence.types, EntryType.isLock,
          LockKind.types]

theorem Legal.step (h : Legal kind init s) {l : Move Locks.Inner} (hans : (locking kind).Answers s)
    (hl : l.Appends) (hm : (locking kind).Moved s l s') : Legal kind init s' := by
  cases hm with
  | before _ _ ht he => exact h.enter hl ht he
  | inner hframe he => exact h.inner hframe he
  | returns hframe he => exact h.returns hframe he
  | after hframe ht =>
      subst ht
      exact h.leave hl hframe (hans _ _ hframe)
  | @event tid o ok t env ho ht he =>
      subst ht
      cases o with
      | annotateRwlockAcq lock isW =>
          change (if kind lock = some .rwlock then none else some s.env) = some env at he
          split at he
          next => cases he
          next hkind =>
            cases he
            exact h.annotates hl hkind
      | _ => cases ho
  | other hfree ht =>
      have hg := publish_grows ht
      exact h.silent (hg.filter fun e he => free_not_lock hfree _ he) hg.atomic (fun _ _ _ _ => id)
        h.excludes h.fits

theorem legal_reach (h : (locking kind).Reaches (fun a => { value := init a }) s) :
    Legal kind init s :=
  h.invariant Legal.start fun _ _ _ hans hI hl hm => hI.step hans hl hm

/-! ## Semaphores -/

def acquisitions (es : List Logged) : Nat := es.countP fun e => e.type = .lockAcquire

def releases (es : List Logged) : Nat := es.countP fun e => e.type = .lockRelease

theorem semaphore_count {n m : Nat} {es : List Logged}
    (h : Machine.run semaphoreStep n es = some m) : m + acquisitions es = n + releases es := by
  induction es generalizing n with
  | nil =>
      cases h
      rfl
  | cons e es ih =>
      rw [Machine.run] at h
      split at h
      next n' hn =>
        have hes := ih h
        rw [semaphoreStep] at hn
        rw [acquisitions, releases, List.countP_cons, List.countP_cons, ← acquisitions, ← releases]
        split at hn
        next htype =>
          split at hn
          next hpos =>
            cases hn
            simp only [htype]
            simp
            omega
          next => cases hn
        next htype =>
          cases hn
          simp only [htype]
          simp
          omega
        next => cases hn
      next => cases h

theorem semaphore_prefix {n m : Nat} {es pre : List Logged}
    (h : Machine.run semaphoreStep n es = some m) (hpre : pre <+: es) :
    acquisitions pre ≤ n + releases pre := by
  obtain ⟨rest, rfl⟩ := hpre
  rw [Machine.run_append] at h
  obtain ⟨m', hm', -⟩ := Option.bind_eq_some_iff.mp h
  have hcount := semaphore_count hm'
  omega

end

/-- The entries about the lock at `a`, in the order of their atomic indexes. -/
def lockHistory (k : LockKind) (a : UInt64) (log : List Logged) : List Logged :=
  lockEntries k a (sort Logged.index (atomics log))

theorem lockHistory_eq {log : List Logged} (h : Ascending Logged.index (log.filter isLockEntry))
    (k : LockKind) (a : UInt64) : lockHistory k a log = lockEntries k a log := by
  have hatomic : lockEntries k a (atomics log) = lockEntries k a log := by
    refine lockEntries_filter k a _ (fun e he => ?_) log
    revert he
    rw [isLockEntry]
    cases e.type <;> decide
  have hasc : Ascending Logged.index (lockEntries k a (atomics log)) := by
    rw [hatomic, ← lockEntries_filter k a isLockEntry fun _ => id]
    exact h.filter _
  rw [lockHistory, ← hatomic]
  exact filter_sort hasc

/-- In every interleaving whose appends succeed and in which the program annotates
no `pthread` rwlock, the entries about a lock in the order of their indexes are a
history of it.  Those about a mutex or a spinlock
alternate from an acquisition on, each with a release by the same thread.  A
rwlock is acquired exclusively only when no other thread has it, and shared only
when no other thread has it exclusively.  No prefix of the entries about a
semaphore has more acquisitions than there are permits.  A failed acquisition is
not logged. -/
theorem lock_histories_legal {kind : UInt64 → Option LockKind} {init : UInt64 → Nat}
    {s : Process (UInt64 → Lock)}
    (h : (locking kind).Reaches (fun a => { value := init a }) s) :
    (∀ a, kind a = some .mutex →
      (Machine.run mutexStep none (lockHistory .mutex a s.tracer.log)).isSome) ∧
    (∀ a, kind a = some .rwlock →
      (Machine.run rwlockStep [] (lockHistory .rwlock a s.tracer.log)).isSome) ∧
    (∀ a, kind a = some .semaphore → ∀ pre, pre <+: lockHistory .semaphore a s.tracer.log →
      acquisitions pre ≤ init a + releases pre) ∧
    ∀ (c : Call) a k exclusive, c.lockUse = some (a, k, .acquire exclusive) →
      ∀ (r : Result), r.ret ≠ 0 → ∀ (t : Tracer) tid ok,
        t.before tid ok c = some t ∧ t.after tid ok c r = t := by
  have hl := legal_reach h
  refine ⟨fun a ha => ?_, fun a ha => ?_, fun a ha pre hpre => ?_,
    fun c a k exclusive huse r hr t tid ok => ⟨before_lock_acquire huse, after_lock_failed huse hr⟩⟩
  · have hruns := hl.agrees a .mutex ha
    rw [Lock.Agrees] at hruns
    rw [lockHistory_eq hl.ascending, hruns]
    rfl
  · have hruns := hl.agrees a .rwlock ha
    rw [Lock.Agrees] at hruns
    rw [lockHistory_eq hl.ascending, hruns]
    rfl
  · have hruns := hl.agrees a .semaphore ha
    rw [Lock.Agrees] at hruns
    rw [lockHistory_eq hl.ascending] at hpre
    exact semaphore_prefix hruns hpre

/-- A wait that times out while another thread, whose try failed before, has the
mutex; two readers of a rwlock; and a semaphore with one permit. -/
theorem lock_histories_legal_wait :
    ∃ s, (locking fun a => if a = 100 then some .mutex else if a = 200 then some .rwlock
        else some .semaphore).Reaches (fun _ => { value := 1 }) s ∧
      s.tracer.log.map (fun e => (e.type, e.tid, e.ptr)) =
        [(.lockAcquire, 1, 100), (.lockRelease, 1, 100), (.lockAcquire, 2, 100),
          (.lockRelease, 2, 100), (.lockAcquire, 1, 100), (.rwLockAcqShr, 2, 200),
          (.rwLockAcqShr, 1, 200), (.rwLockRel, 2, 200), (.lockAcquire, 2, 300),
          (.lockRelease, 1, 300)] ∧
      (Machine.run mutexStep none (lockHistory .mutex 100 s.tracer.log)).isSome := by
  let ok : Nat → Bool := fun _ => true
  let kind : UInt64 → Option LockKind := fun a =>
    if a = 100 then some .mutex else if a = 200 then some .rwlock else some .semaphore
  let ls : List (Move Locks.Inner) :=
    [.before 1 (.mutexLock 100) ok, .inner 1 .takes, .returns 1 {}, .after 1 ok,
      .before 2 (.mutexTrylock 100) ok, .returns 2 { ret := 16 }, .after 2 ok,
      .before 1 (.condTimedwait 100) ok, .before 2 (.mutexLock 100) ok, .inner 1 .drops,
      .inner 2 .takes, .returns 2 {}, .after 2 ok, .before 2 (.mutexUnlock 100) ok,
      .inner 2 .drops, .inner 1 .takes, .returns 1 { ret := 110 }, .returns 2 {}, .after 1 ok,
      .after 2 ok, .before 1 (.rwlockRdlock 200) ok, .before 2 (.rwlockTryrdlock 200) ok,
      .inner 1 .takes, .inner 2 .takes, .returns 2 {}, .after 2 ok, .returns 1 {}, .after 1 ok,
      .before 2 (.rwlockUnlock 200) ok, .inner 2 .drops, .returns 2 {}, .after 2 ok,
      .before 2 (.semWait 300) ok, .inner 2 .takes, .returns 2 {}, .after 2 ok,
      .before 1 (.semPost 300) ok, .inner 1 .drops, .returns 1 {}, .after 1 ok]
  have hls : ∀ l ∈ ls, l.Appends := by
    simp [ls, ok, Move.Appends]
  have hrun : (Machine.run (locking kind).step { env := fun _ => { value := 1 } } ls).map
      (fun s => s.tracer.log.map fun e => (e.type, e.tid, e.ptr)) =
        some [(.lockAcquire, 1, 100), (.lockRelease, 1, 100), (.lockAcquire, 2, 100),
          (.lockRelease, 2, 100), (.lockAcquire, 1, 100), (.rwLockAcqShr, 2, 200),
          (.rwLockAcqShr, 1, 200), (.rwLockRel, 2, 200), (.lockAcquire, 2, 300),
          (.lockRelease, 1, 300)] := by decide +kernel
  obtain ⟨s, hs, hlog⟩ := Option.map_eq_some_iff.mp hrun
  have hreach : (locking kind).Reaches (fun _ => { value := 1 }) s :=
    Machine.Reach.of_run .start hls hs
  exact ⟨s, hreach, hlog, (lock_histories_legal hreach).1 100 rfl⟩

end Coldtrace
