import Mathlib.Algebra.GroupWithZero.Nat
import Mathlib.Data.List.Basic
import Mathlib.Tactic.Common
import Coldtrace.Lib.Bytes
import Coldtrace.Entries
import Coldtrace.Writer
import Coldtrace.Thread
import Coldtrace.Stack
import Coldtrace.Appending
import Coldtrace.Reinit

/-!
# The representation of the shadow stack

What the shadow stack is for is a list of callers: a push adds one at the end, a
pop takes the last away, and `coldtrace_thread_fini` empties it.  The array that
holds the list has room for a number of callers, and doubles where it is used
up.  Where it cannot grow, the thread has failed, and its stack stays as it is.

`ShadowStack` is that list with its room, over numbers that do not wrap.  A
thread represents it after every sequence of calls
(`stack_represents_callers`): the array is as long as the thread believes, the
used part is the list, and `stack_bottom` is inside it.
-/

namespace Coldtrace

/-! ## The list of callers -/

/-- The callers pushed and not yet popped, the room for them, and whether the
stack could not grow. -/
structure ShadowStack where
  callers : List UInt64 := []
  room : Nat := 0
  failed : Bool := false
deriving DecidableEq, Repr

namespace ShadowStack

/-- The room that a push needs. -/
def grown (a : ShadowStack) : Nat :=
  if a.callers.length = a.room then if a.room = 0 then initialStackCapacity else 2 * a.room
  else a.room

/-- A push, where memory is there or not. -/
def push (a : ShadowStack) (memory : Bool) (caller : UInt64) : ShadowStack :=
  if a.failed then a
  else if a.callers.length = a.room ∧ memory = false then { a with failed := true }
  else { a with callers := a.callers ++ [caller], room := a.grown }

/-- A pop.  It does nothing on an empty stack. -/
def pop (a : ShadowStack) : ShadowStack :=
  if a.failed then a else { a with callers := a.callers.dropLast }

/-- What a call does to the list. -/
def call (a : ShadowStack) (ev : Event) : ShadowStack :=
  match ev.op with
  | .init | .append _ => a
  | .fini => { a with callers := [], room := 0 }
  | .push caller => a.push ev.o.realloc caller
  | .pop => a.pop

/-- The list after a sequence of calls. -/
def after (evs : List Event) : ShadowStack := evs.foldl call {}

theorem after_concat (evs : List Event) (ev : Event) : after (evs ++ [ev]) = (after evs).call ev :=
  List.foldl_concat ..

end ShadowStack

/-! ## Representation -/

/-- The stack of a thread holds a list of callers. -/
structure Thread.Represents (th : Thread) (a : ShadowStack) : Prop where
  bottom_le : th.stackBottom ≤ th.stackSize
  size_le : th.stackSize ≤ th.stackCapacity
  length : th.stack.length = th.stackCapacity
  callers : th.stack.take th.stackSize = a.callers
  room : th.stackCapacity = a.room
  shape : th.stackCapacity = 0 ∨ ∃ k, th.stackCapacity = initialStackCapacity * 2 ^ k
  failed : th.failed = a.failed
  initd : th.failed = true → th.initd = true

/-- What a call that is no push, pop or fini leaves of the stack. -/
structure StackKept (th th' : Thread) : Prop where
  stack : th'.stack = th.stack
  size : th'.stackSize = th.stackSize
  capacity : th'.stackCapacity = th.stackCapacity
  failed : th'.failed = th.failed
  initd : th.initd = true → th'.initd = true
  bottom : th.stackBottom ≤ th.stackSize → th'.stackBottom ≤ th.stackSize

section

variable {th th' : Thread} {a : ShadowStack}

theorem Thread.Represents.size_eq (h : th.Represents a) : th.stackSize = a.callers.length := by
  rw [← h.callers, List.length_take, h.length, Nat.min_eq_left h.size_le]

theorem Thread.Represents.kept (h : th.Represents a) (hk : StackKept th th') :
    th'.Represents a where
  bottom_le := by
    rw [hk.size]
    exact hk.bottom h.bottom_le
  size_le := by
    rw [hk.size, hk.capacity]
    exact h.size_le
  length := by
    rw [hk.stack, hk.capacity]
    exact h.length
  callers := by
    rw [hk.stack, hk.size]
    exact h.callers
  room := hk.capacity.trans h.room
  shape := by
    rw [hk.capacity]
    exact h.shape
  failed := hk.failed.trans h.failed
  initd := by
    rw [hk.failed]
    exact fun hf => hk.initd (h.initd hf)

theorem kept_getColdtraceThread (tid : Nat) (th : Thread) :
    StackKept th (getColdtraceThread tid th) := by
  rw [getColdtraceThread]
  split
  next => exact ⟨rfl, rfl, rfl, rfl, fun _ => rfl, id⟩
  next => exact ⟨rfl, rfl, rfl, rfl, id, id⟩

/-! ## Pushing and popping -/

/-- The caller in an array that has room for it. -/
theorem Thread.Represents.put (h : th.Represents a) (hroom : th.stackSize < th.stackCapacity)
    (hsmall : th.stackSize < 2 ^ 31) (caller : UInt64) :
    (th.put caller).Represents { a with callers := a.callers ++ [caller] } := by
  have hmod : (th.stackSize + 1) % 2 ^ 32 = th.stackSize + 1 := by omega
  have hsize : (th.put caller).stackSize = th.stackSize + 1 := hmod
  have hbottom := h.bottom_le
  refine ⟨?_, ?_, ?_, ?_, h.room, h.shape, h.failed, h.initd⟩
  · rw [hsize]
    exact Nat.le_succ_of_le hbottom
  · rw [hsize]
    exact hroom
  · show (th.stack.set th.stackSize caller).length = th.stackCapacity
    rw [List.length_set, h.length]
  · show (th.stack.set th.stackSize caller).take ((th.stackSize + 1) % 2 ^ 32) = _
    rw [hmod, take_set_succ (by rw [h.length]; exact hroom), h.callers]

/-- The room of a list whose array is used up. -/
theorem Thread.Represents.grown_eq (h : th.Represents a) (hfull : th.stackSize = th.stackCapacity) :
    a.grown = if th.stackCapacity = 0 then initialStackCapacity else 2 * th.stackCapacity := by
  have hroom : a.callers.length = a.room := by rw [← h.size_eq, hfull, h.room]
  rw [ShadowStack.grown, if_pos hroom, h.room]

/-- The array after it grew. -/
theorem Thread.Represents.grow (h : th.Represents a) (hfull : th.stackSize = th.stackCapacity) :
    Thread.Represents { th with stack := resized th.stack a.grown, stackCapacity := a.grown }
      { a with room := a.grown } ∧ th.stackSize < a.grown := by
  have hinit : initialStackCapacity = 16 := rfl
  have hgrown := h.grown_eq hfull
  have hlt : th.stackSize < a.grown := by
    rw [hgrown]
    split <;> omega
  have hle : th.stack.length ≤ a.grown := by
    rw [h.length, ← hfull]
    exact Nat.le_of_lt hlt
  have hsize : th.stackSize ≤ th.stack.length := by
    rw [h.length]
    exact h.size_le
  refine ⟨⟨h.bottom_le, Nat.le_of_lt hlt, length_resized hle, ?_, rfl, ?_, h.failed, h.initd⟩, hlt⟩
  · show (resized th.stack a.grown).take th.stackSize = a.callers
    rw [take_resized hsize hle, h.callers]
  · refine .inr ?_
    show ∃ k, a.grown = initialStackCapacity * 2 ^ k
    rw [hgrown]
    split
    next => exact ⟨0, rfl⟩
    next hne =>
      obtain ⟨k, hk⟩ := h.shape.resolve_left hne
      exact ⟨k + 1, by rw [hk, Nat.pow_succ, Nat.mul_comm, Nat.mul_assoc]⟩

/-- A push of a thread that has been used. -/
theorem Thread.Represents.push (h : th.Represents a) {tid : Nat} (hi : th.initd = true)
    (hsmall : a.callers.length < 2 ^ 31) (o : Outcomes) (caller : UInt64) :
    (threadStackPush tid o th caller).Represents (a.push o.realloc caller) := by
  have hsize := h.size_eq
  have hcap := h.room
  rw [threadStackPush, getColdtraceThread_of_initd hi, ShadowStack.push]
  by_cases hf : th.failed = true
  · rw [if_pos hf, if_pos (h.failed.symm.trans hf)]
    exact h
  · have hfa : ¬ a.failed = true := fun ha => hf (h.failed.trans ha)
    rw [if_neg hf, if_neg hfa]
    by_cases hfull : th.stackSize = th.stackCapacity
    · have hroom : a.callers.length = a.room := by omega
      have hnew : (if th.stackCapacity = 0 then initialStackCapacity
          else th.stackCapacity * 2 % 2 ^ 32) = a.grown := by
        rw [h.grown_eq hfull]
        split <;> omega
      rw [if_pos hfull, growStack, hnew]
      cases o.realloc with
      | false =>
          rw [if_pos (show (!false) = true from rfl), if_pos ⟨hroom, rfl⟩]
          exact ⟨h.bottom_le, h.size_le, h.length, h.callers, h.room, h.shape, rfl, fun _ => hi⟩
      | true =>
          rw [if_neg (show ¬ (!true) = true from Bool.false_ne_true),
              if_neg (fun hand => by cases hand.2)]
          obtain ⟨hgrow, hlt⟩ := h.grow hfull
          exact hgrow.put hlt (by show th.stackSize < _; omega) caller
    · have hroom : ¬ a.callers.length = a.room := by omega
      have hgrown : a.grown = a.room := if_neg hroom
      rw [if_neg hfull, if_neg (fun hand => hroom hand.1), hgrown]
      exact h.put (Nat.lt_of_le_of_ne h.size_le hfull) (by omega) caller

/-- A pop of a thread that has been used. -/
theorem Thread.Represents.pop (h : th.Represents a) {tid : Nat} (hi : th.initd = true) :
    (threadStackPop tid th).Represents a.pop := by
  have hsize := h.size_eq
  rw [threadStackPop, getColdtraceThread_of_initd hi, ShadowStack.pop]
  by_cases hf : th.failed = true
  · rw [if_pos hf, if_pos (h.failed.symm.trans hf)]
    exact h
  · have hfa : ¬ a.failed = true := fun ha => hf (h.failed.trans ha)
    rw [if_neg hf, if_neg hfa]
    split
    next hpos =>
      have hlast : th.stack.take (th.stackSize - 1) = a.callers.dropLast := by
        rw [List.dropLast_eq_take, ← hsize, ← h.callers, List.take_take,
          Nat.min_eq_left (Nat.sub_le ..)]
      refine ⟨?_, Nat.le_trans (Nat.sub_le ..) h.size_le, h.length, hlast, h.room, h.shape,
        h.failed, h.initd⟩
      dsimp only
      split <;> omega
    next hzero =>
      have hnil : a.callers.dropLast = a.callers := by
        rw [List.eq_nil_of_length_eq_zero (show a.callers.length = 0 by omega)]
        rfl
      rw [hnil]
      exact h

/-! ## Appending -/

/-- An append moves the bottom of the stack, and the rest of it stays. -/
theorem kept_threadAppend (B : Build) (tid : Nat) (cfg : Config) (o : Outcomes) (w : World)
    (type : UInt8) (ptr : UInt64) (hi : th.initd = true) :
    StackKept th (threadAppend B tid cfg o th w type ptr).2.1 := by
  rw [threadAppend, getColdtraceThread_of_initd hi]
  split
  next => exact ⟨rfl, rfl, rfl, rfl, id, id⟩
  next =>
    split
    next => exact ⟨rfl, rfl, rfl, rfl, id, id⟩
    next =>
      split
      next =>
        have hkept : StackKept th (if writerNewTrace cfg th.writer (entryFixedSize type) then
            { th with stackBottom := 0 } else th) := by
          split
          next => exact ⟨rfl, rfl, rfl, rfl, id, fun _ => Nat.zero_le _⟩
          next => exact ⟨rfl, rfl, rfl, rfl, id, id⟩
        generalize (if writerNewTrace cfg th.writer (entryFixedSize type) then
          { th with stackBottom := 0 } else th) = th₁ at hkept
        obtain ⟨hstack, hsize, hcapacity, hfailed, hinitd, hbottom⟩ := hkept
        dsimp only
        split
        next => exact ⟨hstack, hsize, hcapacity, hfailed, hinitd, hbottom⟩
        next => exact ⟨hstack, hsize, hcapacity, hfailed, hinitd, hbottom⟩
      next =>
        dsimp only
        split
        next => exact ⟨rfl, rfl, rfl, rfl, id, id⟩
        next => exact ⟨rfl, rfl, rfl, rfl, id, fun _ => Nat.le_refl _⟩

theorem kept_subscriberAppend (B : Build) (tid : Nat) (cfg : Config) (o : Outcomes) {s : State}
    (hi : s.th.initd = true) (e : Entry) :
    StackKept s.th (subscriberAppend B tid cfg o s e).th := by
  have hkept := kept_threadAppend B tid cfg o s.world e.byte e.ptr hi
  rw [subscriberAppend]
  generalize threadAppend B tid cfg o s.th s.world e.byte e.ptr = result at hkept
  obtain ⟨off, th₁, w⟩ := result
  cases off with
  | none => exact hkept
  | some off =>
      exact ⟨hkept.stack, hkept.size, hkept.capacity, hkept.failed, hkept.initd, hkept.bottom⟩

/-! ## One call -/

theorem Thread.Represents.init (h : th.Represents a) {tid : Nat} (hi : th.initd = true) :
    (threadInit tid th).Represents a := by
  rw [threadInit, getColdtraceThread_of_initd hi]
  exact h.kept ⟨rfl, rfl, rfl, rfl, id, id⟩

theorem Thread.Represents.fini (h : th.Represents a) (B : Build) {tid : Nat} (o : Outcomes)
    (w : World) (hi : th.initd = true) :
    (threadFini B tid o th w).1.Represents { a with callers := [], room := 0 } := by
  rw [threadFini, getColdtraceThread_of_initd hi]
  exact ⟨Nat.le_refl _, Nat.le_refl _, rfl, rfl, rfl, .inl rfl, h.failed, fun _ => hi⟩

/-- A call does to the stack of a thread what it does to the list. -/
theorem Thread.Represents.step {s : State} (h : s.th.Represents a) (B : Build) (tid : Nat)
    (hsmall : a.callers.length < 2 ^ 31) (ev : Event) :
    (step B tid s ev).th.Represents (a.call ev) := by
  -- The first use of a thread only touches the writer, so it may come before the call.
  have hfirst := h.kept (kept_getColdtraceThread tid s.th)
  have hi : (getColdtraceThread tid s.th).initd = true := initd_getColdtraceThread tid s.th
  rw [← step_lazy B tid s.th s.world ev]
  generalize getColdtraceThread tid s.th = th at hfirst hi
  obtain ⟨cfg, o, op⟩ := ev
  cases op with
  | init => exact hfirst.init hi
  | fini => exact hfirst.fini B o s.world hi
  | push caller => exact hfirst.push hi hsmall o caller
  | pop => exact hfirst.pop hi
  | append e => exact hfirst.kept (kept_subscriberAppend B tid cfg o (s := ⟨th, s.world⟩) hi e)

/-! ## The diff of an entry -/

theorem Thread.Represents.diff_size (h : th.Represents a) (hsmall : a.callers.length < 2 ^ 31) :
    (th.stackSize + 2 ^ 32 - th.stackBottom) % 2 ^ 32 = th.stackSize - th.stackBottom := by
  have hsize := h.size_eq
  have hbottom := h.bottom_le
  omega

/-- The frames that an entry copies are in the array. -/
theorem Thread.Represents.diff_le (h : th.Represents a) (hsmall : a.callers.length < 2 ^ 31)
    (cfg : Config) (len : Nat) :
    8 * (stackRequest cfg th len).1 + (stackRequest cfg th len).2 ≤ 8 * th.stack.length := by
  have hbottom := h.bottom_le
  have hsize := h.size_le
  have hlength := h.length
  rw [stackRequest, h.diff_size hsmall]
  split
  next =>
    show 8 * 0 + th.stackSize * 8 ≤ _
    omega
  next =>
    show 8 * th.stackBottom + (th.stackSize - th.stackBottom) * 8 ≤ _
    omega

/-! ## Failing -/

/-- A push that cannot grow the stack only sets the flag. -/
theorem push_grow_failed {s : State} {ev : Event} {caller : UInt64} (B : Build) (tid : Nat)
    (hpush : ev.op = .push caller) (hf : s.th.failed = false)
    (hfull : s.th.stackSize = s.th.stackCapacity) (hr : ev.o.realloc = false) :
    step B tid s ev = { s with th := { getColdtraceThread tid s.th with failed := true } } := by
  have hk := kept_getColdtraceThread tid s.th
  have hfg : ¬ (getColdtraceThread tid s.th).failed = true := by simp [hk.failed, hf]
  have hfullg : (getColdtraceThread tid s.th).stackSize =
      (getColdtraceThread tid s.th).stackCapacity := by
    rw [hk.size, hk.capacity, hfull]
  rw [Coldtrace.step, hpush]
  show { s with th := threadStackPush tid ev.o s.th caller } = _
  rw [threadStackPush, if_neg hfg, if_pos hfullg, growStack, hr]
  rfl

/-- A failed thread does nothing but start again and end. -/
theorem step_failed {s : State} {ev : Event} (B : Build) (tid : Nat) (hi : s.th.initd = true)
    (hf : s.th.failed = true) (hinit : ev.op ≠ .init) (hfini : ev.op ≠ .fini) :
    step B tid s ev = s := by
  obtain ⟨cfg, o, op⟩ := ev
  cases op with
  | init => exact absurd rfl hinit
  | fini => exact absurd rfl hfini
  | push caller =>
      show { s with th := threadStackPush tid o s.th caller } = s
      rw [threadStackPush, getColdtraceThread_of_initd hi, if_pos hf]
  | pop =>
      show { s with th := threadStackPop tid s.th } = s
      rw [threadStackPop, getColdtraceThread_of_initd hi, if_pos hf]
  | append e =>
      exact subscriberAppend_failed B tid cfg o hi hf e

end

/-! ## Runs -/

/-- A new thread has an empty stack. -/
theorem represents_new : Thread.Represents {} {} :=
  ⟨Nat.le_refl _, Nat.le_refl _, rfl, rfl, rfl, .inl rfl, rfl, fun hf => by cases hf⟩

theorem represents_run (B : Build) (tid : Nat) (w : World) (evs : List Event)
    (hframes : ∀ pre, pre <+: evs → (ShadowStack.after pre).callers.length < 2 ^ 31) :
    (run B tid { world := w } evs).th.Represents (ShadowStack.after evs) := by
  -- The last call comes after a shorter sequence, which is one of the prefixes.
  induction evs using List.reverseRecOn with
  | nil => exact represents_new
  | append_singleton evs ev ih =>
      have hlast := hframes evs (List.prefix_append ..)
      have h := ih fun pre hpre => hframes pre (hpre.trans (List.prefix_append ..))
      rw [run_append, run_cons, run_nil, ShadowStack.after_concat]
      exact h.step B tid hlast ev

/-- What the calls of a thread may rely on in a state. -/
structure StackSafe (B : Build) (tid : Nat) (s : State) : Prop where
  /-- `stack_top - stack_bot` does not wrap. -/
  diff_size : (s.th.stackSize + 2 ^ 32 - s.th.stackBottom) % 2 ^ 32 =
    s.th.stackSize - s.th.stackBottom
  /-- The bytes an entry with a stack copies are in the array. -/
  diff_le : ∀ cfg len, 8 * (stackRequest cfg (getColdtraceThread tid s.th) len).1 +
    (stackRequest cfg (getColdtraceThread tid s.th) len).2 ≤ 8 * s.th.stack.length
  /-- A push that cannot grow the stack changes nothing but the flag. -/
  grow_failed : ∀ ev caller, ev.op = .push caller → s.th.failed = false →
    s.th.stackSize = s.th.stackCapacity → ev.o.realloc = false →
    step B tid s ev = { s with th := { getColdtraceThread tid s.th with failed := true } }
  /-- Then no push, pop or append changes anything. -/
  disabled : s.th.failed = true → ∀ ev, ev.op ≠ .init → ev.op ≠ .fini → step B tid s ev = s
  /-- The flag is never taken back. -/
  failed_step : s.th.failed = true → ∀ ev, (step B tid s ev).th.failed = true

theorem ShadowStack.failed_call {a : ShadowStack} (h : a.failed = true) (ev : Event) :
    (a.call ev).failed = true := by
  rw [call]
  split
  next => exact h
  next => exact h
  next => exact h
  next caller heq =>
    rw [push, if_pos h]
    exact h
  next =>
    rw [pop, if_pos h]
    exact h

/-- A thread with fewer than 2^31 frames holds its callers in its stack, and
stays inside it. -/
theorem stack_represents_callers (B : Build) (tid : Nat) (w : World) (evs : List Event)
    (hframes : ∀ pre, pre <+: evs → (ShadowStack.after pre).callers.length < 2 ^ 31) :
    (run B tid { world := w } evs).th.Represents (ShadowStack.after evs) ∧
      StackSafe B tid (run B tid { world := w } evs) := by
  have h := represents_run B tid w evs hframes
  have hsmall := hframes evs (List.prefix_refl evs)
  generalize run B tid { world := w } evs = s at h
  have hfirst := h.kept (kept_getColdtraceThread tid s.th)
  refine ⟨h, ⟨h.diff_size hsmall, fun cfg len => ?_, fun ev caller => push_grow_failed B tid,
    fun hf ev => step_failed B tid (h.initd hf) hf, fun hf ev => ?_⟩⟩
  · rw [← (kept_getColdtraceThread tid s.th).stack]
    exact hfirst.diff_le hsmall cfg len
  · rw [(h.step B tid hsmall ev).failed]
    exact ShadowStack.failed_call (h.failed.symm.trans hf) ev

/-- Two pushes and a pop around an entry that carries the stack leave one caller,
in an array of 16. -/
theorem stack_represents_one_caller :
    let cfg : Config := { traceSize := 4096 }
    let evs : List Event := [{ cfg, op := .push 7 }, { cfg, op := .push 8 },
      { cfg, op := .append { type := .write, ptr := 5 } }, { cfg, op := .pop }]
    (run literalBuild 3 {} evs).th.Represents { callers := [7], room := 16 } ∧
      StackSafe literalBuild 3 (run literalBuild 3 {} evs) := by
  intro cfg evs
  have hframes : ∀ pre ∈ evs.inits, (ShadowStack.after pre).callers.length < 2 ^ 31 := by decide
  exact stack_represents_callers literalBuild 3 {} evs
    fun pre hpre => hframes pre ((List.mem_inits ..).mpr hpre)

end Coldtrace
