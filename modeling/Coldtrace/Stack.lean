import Mathlib.Tactic.Common
import Coldtrace.Thread

/-!
# The shadow stack

The frames of a thread are the used part of its stack array.  A push adds one
and a pop removes one, as long as the counters do not wrap (`Thread.StackWf`).
Either way the frames below `stackBottom` stay the same, which is all that a
record relies on (`StackMove`).
-/

namespace Coldtrace

/-! ## Frames -/

/-- The frames of a thread, outermost first. -/
def Thread.frames (th : Thread) : List Nat := (th.stack.take th.stackSize).map UInt64.toNat

/-- The stack of a thread is consistent, and small enough for its counters. -/
structure Thread.StackWf (th : Thread) : Prop where
  bottom_le : th.stackBottom ≤ th.stackSize
  size_le : th.stackSize ≤ th.stack.length
  capacity : th.stackCapacity = th.stack.length
  small : th.stackSize < 2 ^ 31

theorem Thread.frames_lt (th : Thread) : ∀ v ∈ th.frames, v < 256 ^ 8 := by
  intro v hv
  obtain ⟨x, -, rfl⟩ := List.mem_map.mp hv
  exact x.toNat_lt

theorem Thread.StackWf.length_frames {th : Thread} (h : th.StackWf) :
    th.frames.length = th.stackSize := by
  have := h.size_le
  rw [Thread.frames, List.length_map, List.length_take]
  omega

/-! ## Moves of the stack -/

/-- A move of the stack keeps the frames below the bottom and never raises the
bottom. -/
structure StackMove (th th' : Thread) : Prop where
  writer : th'.writer = th.writer
  initd : th'.initd = th.initd
  bottom_le : th'.stackBottom ≤ th.stackBottom
  take : th'.frames.take th'.stackBottom = th.frames.take th'.stackBottom

theorem StackMove.refl (th : Thread) : StackMove th th := ⟨rfl, rfl, Nat.le_refl _, rfl⟩

/-- The used part of the array with one more entry. -/
theorem take_set_succ {stack : List UInt64} {n : Nat} (h : n < stack.length) (caller : UInt64) :
    (stack.set n caller).take (n + 1) = stack.take n ++ [caller] := by
  rw [List.take_add_one, List.take_set_of_le (Nat.le_refl _), List.getElem?_set_self h]
  rfl

/-- `stack[stack_size++] = caller` with room for it. -/
theorem put_frames {th : Thread} (h : th.stackSize < th.stack.length) (hs : th.stackSize < 2 ^ 31)
    (caller : UInt64) : (th.put caller).frames = th.frames ++ [caller.toNat] := by
  have hmod : (th.stackSize + 1) % 2 ^ 32 = th.stackSize + 1 := by omega
  simp only [Thread.frames, Thread.put, hmod, take_set_succ h, List.map_append, List.map_cons,
    List.map_nil]

/-- The stack is large enough after it grew. -/
theorem length_resized {stack : List UInt64} {n : Nat} (h : stack.length ≤ n) :
    (resized stack n).length = n := by
  rw [resized, List.length_append, List.length_replicate, List.length_take]
  omega

theorem take_resized {stack : List UInt64} {n k : Nat} (hk : k ≤ stack.length)
    (h : stack.length ≤ n) : (resized stack n).take k = stack.take k := by
  rw [resized, List.take_append_of_le_length (by rw [List.length_take]; omega), List.take_take,
    Nat.min_eq_left (by omega)]

/-- What a push does: nothing on a failed thread, else it adds a frame or it
fails to grow the stack. -/
inductive Pushed (o : Outcomes) (th : Thread) (caller : UInt64) (th' : Thread) : Prop where
  | refused : th.failed = true → th' = th → Pushed o th caller th'
  | failed : th.failed = false → o.realloc = false → th' = { th with failed := true } →
      Pushed o th caller th'
  | added : th.failed = false → th'.failed = false → th'.writer = th.writer →
      th'.initd = th.initd → th'.stackBottom = th.stackBottom →
      th'.frames = th.frames ++ [caller.toNat] → th'.stackSize = th.stackSize + 1 →
      th'.stackSize ≤ th'.stack.length → th'.stackCapacity = th'.stack.length →
      Pushed o th caller th'

theorem put_added {o : Outcomes} {th th₁ : Thread} {caller : UInt64} (hf : th.failed = false)
    (hf₁ : th₁.failed = false) (hw : th₁.writer = th.writer) (hi : th₁.initd = th.initd)
    (hb : th₁.stackBottom = th.stackBottom) (hfr : th₁.frames = th.frames)
    (hsize : th₁.stackSize = th.stackSize) (hroom : th₁.stackSize < th₁.stack.length)
    (hcap : th₁.stackCapacity = th₁.stack.length) (hs : th₁.stackSize < 2 ^ 31) :
    Pushed o th caller (th₁.put caller) := by
  have hmod : (th₁.stackSize + 1) % 2 ^ 32 = th₁.stackSize + 1 := by omega
  refine .added hf hf₁ hw hi hb ((put_frames hroom hs caller).trans (by rw [hfr])) ?_ ?_ ?_
  · change (th₁.stackSize + 1) % 2 ^ 32 = _
    rw [hmod, hsize]
  · change (th₁.stackSize + 1) % 2 ^ 32 ≤ (th₁.stack.set _ _).length
    rw [hmod, List.length_set]
    omega
  · change th₁.stackCapacity = (th₁.stack.set _ _).length
    rw [List.length_set, hcap]

theorem threadStackPush_spec (tid : Nat) (o : Outcomes) {th : Thread} (hi : th.initd = true)
    (h : th.StackWf) (caller : UInt64) : Pushed o th caller (threadStackPush tid o th caller) := by
  have hsmall := h.small
  have hle := h.size_le
  have hcap := h.capacity
  rw [threadStackPush, getColdtraceThread_of_initd hi]
  split
  next hf => exact .refused hf rfl
  next hf =>
    have hf : th.failed = false := by simpa using hf
    split
    next hfull =>
      rw [growStack]
      split
      next heq =>
        split at heq
        next hr =>
          cases heq
          exact .failed hf (by simpa using hr) rfl
        next => cases heq
      next heq =>
        split at heq
        next => cases heq
        next =>
          cases heq
          have hnew : th.stack.length < if th.stackCapacity = 0 then initialStackCapacity
              else th.stackCapacity * 2 % 2 ^ 32 := by
            have hinit : initialStackCapacity = 16 := rfl
            split <;> omega
          generalize (if th.stackCapacity = 0 then initialStackCapacity
            else th.stackCapacity * 2 % 2 ^ 32) = n at hnew ⊢
          have hlen := length_resized (Nat.le_of_lt hnew)
          refine put_added hf hf rfl rfl rfl ?_ rfl ?_ hlen.symm hsmall
          · simp only [Thread.frames, take_resized hle (Nat.le_of_lt hnew)]
          · change th.stackSize < (resized th.stack n).length
            omega
    next hroom => exact put_added hf hf rfl rfl rfl rfl rfl (by omega) hcap hsmall

theorem Pushed.stackWf {o : Outcomes} {th th' : Thread} {caller : UInt64}
    (hp : Pushed o th caller th') (h : th.StackWf) (hs : th'.stackSize < 2 ^ 31) : th'.StackWf := by
  cases hp with
  | refused _ heq => exact heq ▸ h
  | failed _ _ heq =>
      subst heq
      exact ⟨h.bottom_le, h.size_le, h.capacity, h.small⟩
  | added _ _ _ _ hb _ hsize hle hcap =>
      have := h.bottom_le
      exact ⟨by omega, hle, hcap, hs⟩

theorem Pushed.move {o : Outcomes} {th th' : Thread} {caller : UInt64}
    (hp : Pushed o th caller th') (h : th.StackWf) : StackMove th th' := by
  cases hp with
  | refused _ heq => exact heq ▸ .refl th
  | failed _ _ heq =>
      subst heq
      exact ⟨rfl, rfl, Nat.le_refl _, rfl⟩
  | added _ _ hw hi hb hfr _ _ _ =>
      have hle := h.bottom_le
      refine ⟨hw, hi, by omega, ?_⟩
      rw [hfr, List.take_append_of_le_length (by rw [h.length_frames]; omega)]

/-- A pop removes the last frame and lowers the bottom with it. -/
theorem threadStackPop_frames (tid : Nat) {th : Thread} (hi : th.initd = true)
    (hf : th.failed = false) (h : th.StackWf) :
    (threadStackPop tid th).frames = th.frames.dropLast := by
  have hle := h.size_le
  simp only [threadStackPop, getColdtraceThread_of_initd hi, hf, Bool.false_eq_true, if_false]
  split
  next hpos =>
    rw [List.dropLast_eq_take, h.length_frames]
    simp only [Thread.frames]
    rw [← List.map_take, List.take_take, Nat.min_eq_left (by omega)]
  next hzero =>
    have hnil : th.frames = [] := List.eq_nil_of_length_eq_zero (by rw [h.length_frames]; omega)
    rw [hnil]
    rfl

theorem threadStackPop_spec (tid : Nat) {th : Thread} (hi : th.initd = true) (h : th.StackWf) :
    (threadStackPop tid th).StackWf ∧ StackMove th (threadStackPop tid th) ∧
      (threadStackPop tid th).failed = th.failed := by
  have hb := h.bottom_le
  have hle := h.size_le
  have hcap := h.capacity
  have hsmall := h.small
  rw [threadStackPop, getColdtraceThread_of_initd hi]
  split
  next => exact ⟨h, .refl th, rfl⟩
  next =>
    split
    next hpos =>
      have hbot : (if th.stackBottom > th.stackSize - 1 then th.stackSize - 1 else th.stackBottom) ≤
          th.stackBottom ∧ (if th.stackBottom > th.stackSize - 1 then th.stackSize - 1
          else th.stackBottom) ≤ th.stackSize - 1 := by
        split <;> omega
      refine ⟨⟨hbot.2, by simp only; omega, hcap, by simp only; omega⟩,
        ⟨rfl, rfl, hbot.1, ?_⟩, rfl⟩
      simp only [Thread.frames, ← List.map_take, List.take_take]
      rw [Nat.min_eq_left hbot.2, Nat.min_eq_left (by omega)]
    next => exact ⟨h, .refl th, rfl⟩

end Coldtrace
