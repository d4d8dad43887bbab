import Mathlib.Tactic.Common
import Coldtrace.Writer
import Coldtrace.Reserve
import Coldtrace.Thread

/-!
# Sessions of a writer

A session is one `coldtrace_writer_init` and any sequence of calls after it.
The calls are those of `writer.h`, and the stores of the caller into the blocks
it reserved.  Each call meets its own configuration and its own outcomes of the
system calls.

A writer that failed or is finalised is dead.  It has no buffers, and no later
call touches the world again (`Session.run_dead`).
-/

namespace Coldtrace

/-! ## Calls -/

/-- What a caller does with a writer. -/
inductive WriterCall where
  /-- `coldtrace_writer_reserve`. -/
  | reserve (size : Nat)
  /-- A store into the trace buffer. -/
  | store (offset : Nat) (bs : List UInt8)
  /-- `coldtrace_writer_fini`. -/
  | fini
deriving DecidableEq, Repr

/-- One call, with the configuration and the outcomes it meets. -/
structure WriterEvent where
  cfg : Config
  o : Outcomes := {}
  call : WriterCall

/-- A writer and the world around it. -/
structure Session where
  impl : WriterImpl
  world : World

namespace Session

/-- A writer after `coldtrace_writer_init`. -/
def start (impl : WriterImpl) (tid : Nat) (w : World) : Session := ⟨writerInit impl (some tid), w⟩

/-- One call. -/
def step (B : Build) (s : Session) (ev : WriterEvent) : Session :=
  match ev.call with
  | .reserve size => ⟨(writerReserve B ev.cfg ev.o s.impl s.world size).2.1,
      (writerReserve B ev.cfg ev.o s.impl s.world size).2.2⟩
  | .store offset bs => { s with impl := s.impl.store offset bs }
  | .fini => ⟨(writerFini B ev.o s.impl s.world).1, (writerFini B ev.o s.impl s.world).2⟩

/-- What a call of `coldtrace_writer_reserve` returns, `none` for the others. -/
def result (B : Build) (s : Session) (ev : WriterEvent) : Option Nat :=
  match ev.call with
  | .reserve size => (writerReserve B ev.cfg ev.o s.impl s.world size).1
  | _ => none

/-- A sequence of calls. -/
def run (B : Build) (s : Session) (evs : List WriterEvent) : Session := evs.foldl (step B) s

@[simp] theorem run_nil (B : Build) (s : Session) : run B s [] = s := rfl

@[simp] theorem run_cons (B : Build) (s : Session) (ev : WriterEvent) (evs : List WriterEvent) :
    run B s (ev :: evs) = run B (step B s ev) evs := rfl

theorem run_append (B : Build) (s : Session) (evs evs' : List WriterEvent) :
    run B s (evs ++ evs') = run B (run B s evs) evs' := List.foldl_append ..

/-- What holds at the start and is kept by every call of a run holds after it. -/
theorem run_invariant {B : Build} {P : WriterEvent → Prop} {I : Session → Prop}
    (hstep : ∀ s ev, I s → P ev → I (step B s ev)) {s : Session} {evs : List WriterEvent}
    (h : I s) (hP : ∀ ev ∈ evs, P ev) : I (run B s evs) := by
  induction evs generalizing s with
  | nil => exact h
  | cons ev evs ih =>
      rw [List.forall_mem_cons] at hP
      exact ih (hstep s ev h hP.1) hP.2

/-! ## Dead writers -/

/-- The writer failed or is finalised, and has no buffers. -/
structure Dead (impl : WriterImpl) : Prop where
  ended : impl.failed = true ∨ impl.initd = false
  buffer : impl.buffer = none
  compBuf : impl.compBuf = none

theorem reserve_refused (B : Build) (cfg : Config) (o : Outcomes) {impl : WriterImpl} (w : World)
    (size : Nat) (h : impl.failed = true ∨ impl.initd = false) :
    writerReserve B cfg o impl w size = (none, impl, w) := by
  have hens : ensureBuffer B cfg o impl w = (false, impl, w) := by
    rw [ensureBuffer]
    rcases h with hf | hi
    · cases hi : impl.initd <;> simp [hf]
    · simp [hi]
  simp only [writerReserve, hens]

theorem step_dead (B : Build) {s : Session} (h : Dead s.impl) (ev : WriterEvent) :
    Dead (step B s ev).impl ∧ (step B s ev).world = s.world ∧ result B s ev = none := by
  obtain ⟨hover, hb, hc⟩ := h
  obtain ⟨cfg, o, call⟩ := ev
  cases call with
  | reserve size =>
      have hres : writerReserve B cfg o s.impl s.world size = (none, s.impl, s.world) :=
        reserve_refused B cfg o s.world size hover
      have hstep : step B s ⟨cfg, o, .reserve size⟩ = s := by simp only [step, hres]
      rw [hstep]
      exact ⟨⟨hover, hb, hc⟩, rfl, congrArg Prod.fst hres⟩
  | store offset bs =>
      refine ⟨⟨hover, ?_, hc⟩, rfl, rfl⟩
      simp only [step, WriterImpl.store, hb, Option.map_none]
  | fini =>
      cases hi : s.impl.initd with
      | false =>
          have hstep : step B s ⟨cfg, o, .fini⟩ = s := by
            simp only [step, writerFini, hi, Bool.not_false, if_true]
          rw [hstep]
          exact ⟨⟨hover, hb, hc⟩, rfl, rfl⟩
      | true =>
          have hrel : releaseBuffers s.impl s.world = (s.impl, s.world) := by
            simp only [releaseBuffers, hb, hc]
          have hfini : writerFini B o s.impl s.world =
              ({ s.impl with initd := false }, s.world) := by
            rw [writerFini, if_neg (by simp [hi]), if_neg (by simp [hb])]
            simp only [hrel]
          have hstep : step B s ⟨cfg, o, .fini⟩ = ⟨{ s.impl with initd := false }, s.world⟩ := by
            simp only [step, hfini]
          rw [hstep]
          exact ⟨⟨.inr rfl, hb, hc⟩, rfl, rfl⟩

/-- No call after the writer died changes the world. -/
theorem run_dead (B : Build) {s : Session} (h : Dead s.impl) (evs : List WriterEvent) :
    Dead (run B s evs).impl ∧ (run B s evs).world = s.world := by
  refine run_invariant (P := fun _ => True) (I := fun s' => Dead s'.impl ∧ s'.world = s.world) ?_
    ⟨h, rfl⟩ fun _ _ => trivial
  rintro s' ev ⟨hd, hw⟩ -
  obtain ⟨hd', hw', -⟩ := step_dead B hd ev
  exact ⟨hd', hw'.trans hw⟩

end Session

end Coldtrace
