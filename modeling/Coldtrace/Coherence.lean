import Mathlib.Tactic.Common
import Coldtrace.Lib.Bytes
import Coldtrace.Lib.Runs
import Coldtrace.Thread
import Coldtrace.Stack
import Coldtrace.Reserve
import Coldtrace.Records
import Coldtrace.Decoding
import Coldtrace.Fragments
import Coldtrace.Appending

/-!
# Coherence of a thread and its fragments

The invariant of a thread that writes fragments, over any sequence of its calls
and any outcomes of the system calls.  Every page handed over, and the page in
the buffer, is a version header followed by records that apply from the empty
stack.  For the page in the buffer the stack after its records agrees with the
thread's own stack up to `stackBottom`.

The thread decides what a record carries before the writer decides whether it
goes to a new fragment.  The invariant is what makes the two decisions agree: a
writer without a buffer that may still get one has `stackBottom = 0`.
-/

namespace Coldtrace

open Bytes Runs

/-! ## Agreement with the stack of a reader -/

/-- A stack agrees with the frames of a thread up to a bottom. -/
structure Agrees (bottom : Nat) (frames stack : List Nat) : Prop where
  le : bottom ≤ stack.length
  take : stack.take bottom = frames.take bottom

theorem agrees_zero (frames stack : List Nat) : Agrees 0 frames stack :=
  ⟨Nat.zero_le _, by rw [List.take_zero, List.take_zero]⟩

section

variable {th : Thread} {cfg : Config} {e : Entry} {stack : List Nat}

theorem Agrees.base (h : Agrees th.stackBottom th.frames stack) :
    Agrees (th.base cfg e) th.frames stack := by
  rw [Thread.base]
  split
  next => exact agrees_zero ..
  next => exact h

theorem Agrees.bottomBefore (h : Agrees th.stackBottom th.frames stack) :
    Agrees (th.bottomBefore cfg e) th.frames stack := by
  rw [Thread.bottomBefore]
  split
  next => exact agrees_zero ..
  next => exact h

/-- The stack of a reader after the record of an entry. -/
def Thread.stackAfter (th : Thread) (e : Entry) (stack : List Nat) : List Nat :=
  if e.type.hasStack then th.frames else stack

/-- The record of an entry applies to a stack that agrees up to its base. -/
theorem Agrees.apply (h : th.StackWf) (ha : Agrees (th.base cfg e) th.frames stack) :
    (th.record h cfg e).apply stack = some (th.stackAfter e stack) := by
  rw [Record.apply, Thread.stackAfter]
  change (if e.type.hasStack then _ else _) = _
  split
  next hs =>
    have hpop : (th.record h cfg e).popped = th.base cfg e := if_pos hs
    have hdiff : (th.record h cfg e).diff = th.frames.drop (th.base cfg e) := if_pos hs
    rw [hpop, hdiff, if_pos ha.le, ha.take, List.take_append_drop]
  next => rfl

/-- The bottom of the stack after an entry. -/
def Thread.bottomAfter (cfg : Config) (th : Thread) (e : Entry) : Nat :=
  if e.type.hasStack then th.stackSize else th.bottomBefore cfg e

theorem Agrees.after (h : th.StackWf)
    (ha : e.type.hasStack = false → Agrees (th.bottomBefore cfg e) th.frames stack) :
    Agrees (th.bottomAfter cfg e) th.frames (th.stackAfter e stack) := by
  rw [Thread.bottomAfter, Thread.stackAfter]
  split
  next => exact ⟨by rw [h.length_frames], rfl⟩
  next hs => exact ha (by simpa using hs)

/-- A thread that expects a fragment, or has nothing below its bottom, leaves a
record that applies to any stack. -/
theorem Agrees.of_fresh (stack : List Nat)
    (h : th.opensFragment cfg e = true ∨ th.stackBottom = 0) :
    Agrees (th.base cfg e) th.frames stack ∧
      (e.type.hasStack = false → Agrees (th.bottomBefore cfg e) th.frames stack) := by
  rcases h with h | h
  · refine ⟨?_, fun hs => ?_⟩
    · rw [Thread.base, if_pos h]
      exact agrees_zero ..
    · rw [Thread.bottomBefore, hs, h]
      exact agrees_zero ..
  · have hz : Agrees th.stackBottom th.frames stack := h ▸ agrees_zero ..
    exact ⟨hz.base, fun _ => hz.bottomBefore⟩

end

/-- The writer starts a fragment only when the thread expects it to. -/
theorem opensFragment_of_newTrace {th : Thread} (h : th.StackWf) {cfg : Config} {e : Entry}
    (hn : writerNewTrace cfg th.writer (th.record h cfg e).bytes.length = true) :
    th.opensFragment cfg e = true := by
  by_contra hno
  have hbase : th.base cfg e = th.stackBottom := by rw [Thread.base, if_neg hno]
  rw [Thread.record, Entry.length_record, h.length_frames, hbase] at hn
  exact hno hn

/-- A writer far from wrapping starts the fragment the thread expects. -/
theorem newTrace_of_opensFragment {th : Thread} (h : th.StackWf) {cfg : Config} {e : Entry}
    (hoff : th.writer.offset ≤ ptrdiffMax + 2 ^ 36) (ho : th.opensFragment cfg e = true) :
    writerNewTrace cfg th.writer (th.record h cfg e).bytes.length = true := by
  have hsmall := h.small
  have hbottom := h.bottom_le
  have hspace := e.type.space_bounds
  have hmax : ptrdiffMax = 2 ^ 63 - 1 := rfl
  have hbase : th.base cfg e = 0 := by rw [Thread.base, if_pos ho]
  rw [Thread.record, Entry.length_record, h.length_frames, hbase, Nat.sub_zero]
  simp only [Thread.opensFragment, writerNewTrace, decide_eq_true_eq] at ho ⊢
  by_cases hs : e.type.hasStack = true
  · simp only [hs, if_true] at ho ⊢
    rw [Nat.mod_eq_of_lt (by omega)] at ho ⊢
    omega
  · rw [if_neg hs] at ho ⊢
    exact ho

/-! ## The invariant -/

/-- The page of a list of records. -/
def pageOf (B : Build) (rs : List Record) : List UInt8 := B.versionHeader ++ recordsBytes rs

/-- The records in the buffer of a thread. -/
structure Current (B : Build) (th : Thread) (rs : List Record) : Prop where
  initd : th.writer.initd = true
  failed : th.writer.failed = false
  holds : th.writer.Holds (pageOf B rs)
  size_le : th.writer.size ≤ ptrdiffMax
  /-- The offset is far from wrapping, also after a record that is too large. -/
  offset_le : th.writer.offset ≤ ptrdiffMax + 2 ^ 36
  agrees : ∃ stack, Chain [] rs stack ∧ Agrees th.stackBottom th.frames stack

/-- A thread without a buffer.  As long as it may get one, nothing is below the
bottom of its stack. -/
structure Idle (th : Thread) : Prop where
  buffer : th.writer.buffer = none
  bottom : th.writer.initd = true → th.writer.failed = false → th.stackBottom = 0

/-- The pages a thread handed over are those before and the fragments, and the
page in its buffer has the records of `cur`. -/
structure Coherent (B : Build) (before : List (List UInt8)) (s : State)
    (frags : List (List Record)) (cur : Option (List Record)) : Prop where
  initd : s.th.initd = true
  stack : s.th.StackWf
  closed : s.world.closed = before ++ frags.map (pageOf B)
  sound : ∀ rs ∈ frags, ∃ stack, Chain [] rs stack
  current : ∀ rs, cur = some rs → Current B s.th rs
  idle : cur = none → Idle s.th

section

variable {B : Build} {before : List (List UInt8)} {s : State} {frags : List (List Record)}
  {cur : Option (List Record)} {cfg : Config} {o : Outcomes} {e : Entry} {tid : Nat}

/-- The invariant holds after the thread is initialised. -/
theorem coherent_init (B : Build) (tid : Nat) (w : World) :
    Coherent B w.closed ⟨threadInit tid {}, w⟩ [] none where
  initd := rfl
  stack := ⟨Nat.le_refl _, Nat.le_refl _, rfl, (by decide : 0 < 2 ^ 31)⟩
  closed := (List.append_nil _).symm
  sound := by simp
  current := fun _ h => nomatch h
  idle := fun _ => ⟨rfl, fun _ _ => rfl⟩

/-- A move of the stack keeps the invariant. -/
theorem Coherent.move (h : Coherent B before s frags cur) {th' : Thread} (hm : StackMove s.th th')
    (hwf : th'.StackWf) : Coherent B before ⟨th', s.world⟩ frags cur where
  initd := hm.initd.trans h.initd
  stack := hwf
  closed := h.closed
  sound := h.sound
  current := by
    intro rs hcur
    obtain ⟨hi, hf, hholds, hsize, hoff, stack, hchain, ha⟩ := h.current rs hcur
    rw [← hm.writer] at hi hf hholds hsize hoff
    refine ⟨hi, hf, hholds, hsize, hoff, stack, hchain, Nat.le_trans hm.bottom_le ha.le, ?_⟩
    have htake := congrArg (List.take th'.stackBottom) ha.take
    rwa [List.take_take, List.take_take, Nat.min_eq_left hm.bottom_le, ← hm.take] at htake
  idle := by
    intro hcur
    obtain ⟨hb, hbot⟩ := h.idle hcur
    have hle := hm.bottom_le
    rw [← hm.writer] at hb hbot
    exact ⟨hb, fun hi hf => Nat.le_zero.mp (hbot hi hf ▸ hle)⟩

theorem Coherent.sound_current (h : Coherent B before s frags cur) {rs : List Record}
    (hc : cur = some rs) : ∃ stack, Chain [] rs stack := by
  obtain ⟨stack, hchain, -⟩ := (h.current rs hc).agrees
  exact ⟨stack, hchain⟩

theorem Coherent.sound_append (h : Coherent B before s frags cur) {rs : List Record}
    (hc : cur = some rs) : ∀ rs' ∈ frags ++ [rs], ∃ stack, Chain [] rs' stack := by
  intro rs' hrs'
  rcases List.mem_append.mp hrs' with hmem | hmem
  · exact h.sound rs' hmem
  · rw [List.mem_singleton.mp hmem]
    exact h.sound_current hc

/-- The writer got or kept its buffer. -/
theorem Coherent.ensured (h : Coherent B before s frags cur) {impl : WriterImpl} {w : World}
    (he : ensureBuffer B cfg o s.th.writer s.world = (true, impl, w)) :
    Coherent B before ⟨{ s.th with writer := impl }, w⟩ frags (some (cur.getD [])) ∧
      (cur = none → s.th.stackBottom = 0) ∧ (∀ rs, cur = some rs → impl = s.th.writer) := by
  have hens := ensureBuffer_spec B cfg o s.th.writer s.world
  rw [he] at hens
  cases hens with
  | kept hi hf hsome =>
      cases cur with
      | none =>
          rw [(h.idle rfl).buffer] at hsome
          cases hsome
      | some rs =>
          exact ⟨⟨h.initd, h.stack, h.closed, h.sound, fun rs' hr => h.current rs' hr,
            fun hn => nomatch hn⟩, fun hn => (nomatch hn), fun _ _ => rfl⟩
  | fresh hi hf hnone hfresh hc _ =>
      cases cur with
      | some rs =>
          have hsome := (h.current rs rfl).holds.isSome
          rw [hnone] at hsome
          cases hsome
      | none =>
          have hbot := (h.idle rfl).bottom hi hf
          have hoff := hfresh.holds.offset_eq
          rw [B.length_versionHeader] at hoff
          have h8 : sizeofVersionHeader = 8 := rfl
          refine ⟨⟨h.initd, ⟨h.stack.bottom_le, h.stack.size_le, h.stack.capacity, h.stack.small⟩,
            hc.trans h.closed, h.sound, ?_, fun hn => nomatch hn⟩, fun _ => hbot,
            fun _ hn => nomatch hn⟩
          intro rs hr
          cases hr
          have hpage : pageOf B [] = B.versionHeader := List.append_nil _
          refine ⟨hfresh.initd, hfresh.failed, hpage ▸ hfresh.holds,
            hfresh.size ▸ hfresh.size_le, by change impl.offset ≤ _; omega, [], .nil, ?_⟩
          change Agrees s.th.stackBottom _ _
          rw [hbot]
          exact agrees_zero ..

theorem length_record_le {th : Thread} (h : th.StackWf) (cfg : Config) (e : Entry) :
    (th.record h cfg e).bytes.length ≤ 2 ^ 35 := by
  have hsmall := h.small
  have hspace := e.type.space_bounds
  rw [Thread.record, Entry.length_record, h.length_frames]
  split <;> omega

/-- A thread with a record added to its buffer. -/
def Thread.withRecord (th : Thread) (impl : WriterImpl) (bottom : Nat) (r : Record) : Thread :=
  { th with
    writer := (impl.reserved r.bytes.length).store impl.offset r.bytes
    stackBottom := bottom }

/-- Adding a record to a page that has room for it, or that it overruns. -/
theorem Current.add {impl : WriterImpl} (rs : List Record) {th : Thread} (h : th.StackWf)
    (hi : impl.initd = true) (hf : impl.failed = false) (hholds : impl.Holds (pageOf B rs))
    (hsize : impl.size ≤ ptrdiffMax)
    (hoff : impl.offset + (th.record h cfg e).bytes.length ≤ ptrdiffMax + 2 ^ 36)
    {stack : List Nat} (hchain : Chain [] rs stack) (hbase : Agrees (th.base cfg e) th.frames stack)
    (hbottom : e.type.hasStack = false → Agrees (th.bottomBefore cfg e) th.frames stack) :
    Current B (th.withRecord impl (th.bottomAfter cfg e) (th.record h cfg e))
      (rs ++ [th.record h cfg e]) := by
  have hmax : ptrdiffMax = 2 ^ 63 - 1 := rfl
  have hlt : impl.offset + (th.record h cfg e).bytes.length < 2 ^ 64 := by omega
  refine ⟨hi, hf, ?_, hsize, ?_, th.stackAfter e stack, ?_, hbottom |> Agrees.after h⟩
  · have hpage : pageOf B (rs ++ [th.record h cfg e]) =
        pageOf B rs ++ (th.record h cfg e).bytes := by
      rw [pageOf, pageOf, recordsBytes_append, recordsBytes_cons, recordsBytes_nil,
        List.append_nil, List.append_assoc]
    rw [hpage]
    exact hholds.store hlt
  · change (impl.offset + (th.record h cfg e).bytes.length) % 2 ^ 64 ≤ _
    rw [Nat.mod_eq_of_lt hlt]
    exact hoff
  · exact hchain.append (.cons (hbase.apply h) .nil)

theorem Thread.StackWf.withRecord {th : Thread} (h : th.StackWf) (impl : WriterImpl) :
    (th.withRecord impl (th.bottomAfter cfg e) (th.record h cfg e)).StackWf := by
  refine ⟨?_, h.size_le, h.capacity, h.small⟩
  have := h.bottom_le
  change th.bottomAfter cfg e ≤ th.stackSize
  rw [Thread.bottomAfter, Thread.bottomBefore]
  split
  next => exact Nat.le_refl _
  next => split <;> omega

/-- The record goes to the page in the buffer. -/
theorem Coherent.inPage (h : Coherent B before s frags cur) {impl : WriterImpl} {w : World}
    {rs : List Record}
    (h₁ : Coherent B before ⟨{ s.th with writer := impl }, w⟩ frags (some rs))
    (hn : writerNewTrace cfg impl (s.th.record h.stack cfg e).bytes.length = false) :
    Coherent B before
      ⟨s.th.withRecord impl (s.th.bottomAfter cfg e) (s.th.record h.stack cfg e), w⟩ frags
      (some (rs ++ [s.th.record h.stack cfg e])) := by
  obtain ⟨hi, hf, hholds, hsize, hoff, stack, hchain, ha⟩ := h₁.current rs rfl
  refine ⟨h.initd, h.stack.withRecord impl, h₁.closed, h₁.sound, ?_, fun hn => nomatch hn⟩
  intro rs' hr
  cases hr
  refine Current.add _ h.stack hi hf hholds hsize ?_ hchain (Agrees.base ha)
    (fun _ => Agrees.bottomBefore ha)
  have hlen := length_record_le h.stack cfg e
  have hmax : ptrdiffMax = 2 ^ 63 - 1 := rfl
  simp only [writerNewTrace, decide_eq_false_iff_not, Nat.not_lt] at hn hsize hoff
  rw [Nat.mod_eq_of_lt (by omega)] at hn
  split at hn <;> omega

/-- The record goes to a new page. -/
theorem Coherent.rolled (h : Coherent B before s frags cur) {impl impl' : WriterImpl} {w w' : World}
    {rs : List Record}
    (h₁ : Coherent B before ⟨{ s.th with writer := impl }, w⟩ frags (some rs))
    (hr : Rolled B cfg (pageOf B rs) impl w impl' w')
    (ho : s.th.opensFragment cfg e = true ∨ s.th.stackBottom = 0) :
    Coherent B before
      ⟨s.th.withRecord impl' (s.th.bottomAfter cfg e) (s.th.record h.stack cfg e), w'⟩
      (frags ++ [rs]) (some [s.th.record h.stack cfg e]) := by
  obtain ⟨hi, hf, hholds, hsize, hoff, -⟩ := h₁.current rs rfl
  refine ⟨h.initd, h.stack.withRecord impl', ?_, h₁.sound_append rfl, ?_, fun hn => nomatch hn⟩
  · change w'.closed = _
    rw [hr.closed, show w.closed = _ from h₁.closed, List.map_append, List.append_assoc]
    rfl
  · intro rs' hr'
    cases hr'
    have hlen := length_record_le h.stack cfg e
    have hmax : ptrdiffMax = 2 ^ 63 - 1 := rfl
    have h8 : sizeofVersionHeader = 8 := rfl
    have hoff' := hr.holds.offset_eq
    rw [B.length_versionHeader] at hoff'
    have hpage : pageOf B [] = B.versionHeader := List.append_nil _
    obtain ⟨hbase, hbottom⟩ := Agrees.of_fresh [] ho
    refine Current.add [] h.stack (hr.initd.trans hi) (hr.failed.trans hf)
      (hpage ▸ hr.holds) ?_ (by omega) .nil hbase hbottom
    rcases hr.size with heq | ⟨-, heq, -, hle⟩
    · rw [heq]
      exact hsize
    · rw [heq]
      exact hle

/-- A thread that lost its buffer for good, or did not get one. -/
theorem Coherent.idle_of (h : Coherent B before s frags cur) {impl : WriterImpl} {w : World}
    {bottom : Nat} {frags' : List (List Record)} (hb : bottom ≤ s.th.stackBottom)
    (hbuf : impl.buffer = none) (hbot : impl.initd = true → impl.failed = false → bottom = 0)
    (hc : w.closed = before ++ frags'.map (pageOf B))
    (hs : ∀ rs ∈ frags', ∃ stack, Chain [] rs stack) :
    Coherent B before ⟨{ s.th with writer := impl, stackBottom := bottom }, w⟩ frags' none where
  initd := h.initd
  stack := ⟨Nat.le_trans hb h.stack.bottom_le, h.stack.size_le, h.stack.capacity, h.stack.small⟩
  closed := hc
  sound := hs
  current := fun _ hn => nomatch hn
  idle := fun _ => ⟨hbuf, hbot⟩

theorem Thread.bottomBefore_le (cfg : Config) (th : Thread) (e : Entry) :
    th.bottomBefore cfg e ≤ th.stackBottom := by
  rw [Thread.bottomBefore]
  split <;> omega

/-- The writer did not get a buffer. -/
theorem Coherent.refused (h : Coherent B before s frags cur) {impl : WriterImpl} {w : World}
    (he : ensureBuffer B cfg o s.th.writer s.world = (false, impl, w)) :
    Coherent B before
      ⟨{ s.th with writer := impl, stackBottom := s.th.bottomBefore cfg e }, w⟩ frags none := by
  have hle := s.th.bottomBefore_le cfg e
  have hens := ensureBuffer_spec B cfg o s.th.writer s.world
  rw [he] at hens
  cases hens with
  | refused hno =>
      cases cur with
      | some rs =>
          have hcur := h.current rs rfl
          rw [hcur.initd, hcur.failed] at hno
          rcases hno with hno | hno <;> cases hno
      | none =>
          refine h.idle_of hle (h.idle rfl).buffer ?_ h.closed h.sound
          intro hi hf
          rw [hi, hf] at hno
          rcases hno with hno | hno <;> cases hno
  | pending hi hf hnone hi' hf' hbuf =>
      cases cur with
      | some rs =>
          have hsome := (h.current rs rfl).holds.isSome
          rw [hnone] at hsome
          cases hsome
      | none =>
          have hbot := (h.idle rfl).bottom hi hf
          exact h.idle_of hle hbuf (fun _ _ => by omega) h.closed h.sound
  | broken hi hf hnone hbr hi' hc _ =>
      refine h.idle_of hle hbr.buffer ?_ (hc.trans h.closed) h.sound
      intro _ hf'
      rw [hbr.failed] at hf'
      cases hf'

/-- What an append can do.  It leaves no record, or it adds its record to the
page in the buffer or to a new page. -/
inductive Recorded (B : Build) (before : List (List UInt8)) (s : State)
    (frags : List (List Record)) (cur : Option (List Record)) (cfg : Config) (e : Entry)
    (r : Record) : Option Nat → State → Prop where
  | failed : s.th.failed = true → Recorded B before s frags cur cfg e r none s
  | refused {s' : State} : cur = none → Coherent B before s' frags none →
      Recorded B before s frags cur cfg e r none s'
  | broken {s' : State} : Coherent B before s' (frags ++ [cur.getD []]) none →
      Recorded B before s frags cur cfg e r none s'
  | inPage {s' : State} {off : Nat} : off = (pageOf B (cur.getD [])).length →
      s.th.base cfg e = s.th.stackBottom → (cur = none → s.th.stackBottom = 0) →
      s'.th.frames = s.th.frames → s'.th.stackSize = s.th.stackSize →
      s'.th.stackBottom = (if e.type.hasStack then s.th.stackSize else s.th.stackBottom) →
      Coherent B before s' frags (some (cur.getD [] ++ [r])) →
      Recorded B before s frags cur cfg e r (some off) s'
  | rolled {s' : State} {off : Nat} : off = sizeofVersionHeader → s.th.base cfg e = 0 →
      s'.th.frames = s.th.frames → s'.th.stackSize = s.th.stackSize →
      s'.th.stackBottom = (if e.type.hasStack then s.th.stackSize else 0) →
      Coherent B before s' (frags ++ [cur.getD []]) (some [r]) →
      Recorded B before s frags cur cfg e r (some off) s'

/-- A thread with nothing below its bottom leaves a record of the whole stack. -/
theorem Thread.of_bottom_zero {th : Thread} (h : th.stackBottom = 0) (cfg : Config) (e : Entry) :
    th.base cfg e = 0 ∧ th.bottomBefore cfg e = 0 := by
  have hle := th.bottomBefore_le cfg e
  refine ⟨?_, by omega⟩
  rw [Thread.base, h]
  split <;> rfl

theorem append_recorded (tid : Nat) (cfg : Config) (o : Outcomes) (e : Entry)
    (h : Coherent B before s frags cur) :
    Recorded B before s frags cur cfg e (s.th.record h.stack cfg e)
      (threadAppend B tid cfg o s.th s.world e.byte e.ptr).1
        (subscriberAppend B tid cfg o s e) := by
  cases hfail : s.th.failed with
  | true =>
      have hnone : threadAppend B tid cfg o s.th s.world e.byte e.ptr = (none, s.th, s.world) := by
        rw [threadAppend, getColdtraceThread_of_initd h.initd]
        dsimp only
        rw [if_pos hfail]
      rw [subscriberAppend, hnone]
      exact .failed hfail
  | false =>
      rw [subscriberAppend_eq B tid cfg o h.initd hfail h.stack e,
        threadAppend_fst B tid cfg o s.world h.initd hfail h.stack e]
      rcases writerReserve_spec B cfg o s.th.writer s.world
        (s.th.record h.stack cfg e).bytes.length with ⟨impl, w, hens, hres⟩ | ⟨impl, w, hens, hres⟩
      · rw [hres]
        refine .refused ?_ (h.refused hens)
        cases cur with
        | none => rfl
        | some rs =>
            have hcur := h.current rs rfl
            rw [ensureBuffer_kept hcur.initd hcur.failed hcur.holds.isSome] at hens
            cases hens
      · obtain ⟨h₁, hbot, hkept⟩ := h.ensured hens
        have hholds := (h₁.current _ rfl).holds
        have hplaced := hres _ hholds
        generalize writerReserve B cfg o s.th.writer s.world _ = result at hplaced
        cases hplaced with
        | inPage hn =>
            have hbottoms : s.th.base cfg e = s.th.stackBottom ∧
                s.th.bottomBefore cfg e = s.th.stackBottom := by
              cases cur with
              | none =>
                  obtain ⟨hbase, hbefore⟩ := Thread.of_bottom_zero (hbot rfl) cfg e
                  rw [hbase, hbefore, hbot rfl]
                  exact ⟨rfl, rfl⟩
              | some rs =>
                  have hopens : ¬ s.th.opensFragment cfg e = true := by
                    intro ho
                    have hnew := newTrace_of_opensFragment h.stack (h.current rs rfl).offset_le ho
                    rw [← hkept rs rfl, hn] at hnew
                    cases hnew
                  exact ⟨if_neg hopens, if_neg (by simp [hopens])⟩
            refine .inPage hholds.offset_eq hbottoms.1 hbot rfl rfl ?_ (h.inPage h₁ hn)
            rw [← hbottoms.2]
        | rolled hn hr =>
            have hopens : s.th.opensFragment cfg e = true ∨ s.th.stackBottom = 0 := by
              cases cur with
              | none => exact .inr (hbot rfl)
              | some rs => exact .inl (opensFragment_of_newTrace h.stack (hkept rs rfl ▸ hn))
            have hbottoms : s.th.base cfg e = 0 ∧
                (e.type.hasStack = false → s.th.bottomBefore cfg e = 0) := by
              rcases hopens with ho | hz
              · exact ⟨if_pos ho, fun hs => if_pos (by simp [hs, ho])⟩
              · obtain ⟨hbase, hbefore⟩ := Thread.of_bottom_zero hz cfg e
                exact ⟨hbase, fun _ => hbefore⟩
            refine .rolled (hr.holds.offset_eq.trans B.length_versionHeader) hbottoms.1 rfl rfl ?_
              (h.rolled h₁ hr hopens)
            dsimp only
            split
            next => rfl
            next hs => exact hbottoms.2 (by simpa using hs)
        | broken hn _ hbr hi hc =>
            refine .broken (h.idle_of (s.th.bottomBefore_le cfg e) hbr.buffer ?_ ?_
              (h₁.sound_append rfl))
            · intro _ hf
              rw [hbr.failed] at hf
              cases hf
            · rw [hc, show w.closed = _ from h₁.closed, List.map_append, List.append_assoc]
              rfl

/-! ## Growing pages -/

/-- The pages only grow. -/
def Grows (frags : List (List Record)) (cur : Option (List Record)) (frags' : List (List Record))
    (cur' : Option (List Record)) : Prop :=
  ∀ (i : Nat) (rs : List Record), (frags ++ cur.toList)[i]? = some rs →
    ∃ rs', (frags' ++ cur'.toList)[i]? = some rs' ∧ rs <+: rs'

theorem grows_refl (frags : List (List Record)) (cur : Option (List Record)) :
    Grows frags cur frags cur := fun _ rs hi => ⟨rs, hi, List.prefix_refl rs⟩

theorem Grows.trans {frags' frags'' : List (List Record)}
    {cur' cur'' : Option (List Record)} (h : Grows frags cur frags' cur')
    (h' : Grows frags' cur' frags'' cur'') :
    Grows frags cur frags'' cur'' := by
  intro i rs hi
  obtain ⟨rs', hi', hp⟩ := h i rs hi
  obtain ⟨rs'', hi'', hp'⟩ := h' i rs' hi'
  exact ⟨rs'', hi'', hp.trans hp'⟩

/-- Pages after the current one are handed over, or the current one is. -/
theorem grows_close (frags : List (List Record)) (cur : Option (List Record))
    (more : List (List Record)) (cur' : Option (List Record))
    (h : ∀ rs, cur = some rs → ∃ rs', (more ++ cur'.toList)[0]? = some rs' ∧ rs <+: rs') :
    Grows frags cur (frags ++ more) cur' := by
  intro i rs hi
  rw [List.append_assoc]
  rcases Nat.lt_or_ge i frags.length with hlt | hge
  · rw [List.getElem?_append_left hlt] at hi ⊢
    exact ⟨rs, hi, List.prefix_refl rs⟩
  · rw [List.getElem?_append_right hge] at hi ⊢
    cases cur with
    | none => cases hi
    | some rs₀ =>
        cases hzero : i - frags.length with
        | zero =>
            rw [hzero] at hi
            cases hi
            exact h rs rfl
        | succ n =>
            rw [hzero] at hi
            cases hi

theorem grows_add (frags : List (List Record)) (cur : Option (List Record)) (r : Record) :
    Grows frags cur frags (some (cur.getD [] ++ [r])) := by
  have hgrows := grows_close frags cur [] (some (cur.getD [] ++ [r]))
    (fun rs hrs => ⟨_, rfl, by rw [hrs]; exact List.prefix_append rs [r]⟩)
  rwa [List.append_nil] at hgrows

theorem grows_roll (frags : List (List Record)) (cur cur' : Option (List Record)) :
    Grows frags cur (frags ++ [cur.getD []]) cur' :=
  grows_close frags cur [cur.getD []] cur' fun rs hrs =>
    ⟨rs, by rw [hrs]; rfl, List.prefix_refl rs⟩

/-- Appending keeps the invariant. -/
theorem Coherent.append (h : Coherent B before s frags cur) :
    ∃ frags' cur', Coherent B before (subscriberAppend B tid cfg o s e) frags' cur' ∧
      Grows frags cur frags' cur' := by
  have hcase := append_recorded tid cfg o e h
  generalize (threadAppend B tid cfg o s.th s.world e.byte e.ptr).1 = off at hcase
  generalize subscriberAppend B tid cfg o s e = s' at hcase
  cases hcase with
  | failed => exact ⟨frags, cur, h, grows_refl frags cur⟩
  | refused hnone h' => exact ⟨_, _, h', hnone ▸ grows_refl frags none⟩
  | inPage _ _ _ _ _ _ h' => exact ⟨_, _, h', grows_add frags cur _⟩
  | broken h' | rolled _ _ _ _ _ h' => exact ⟨_, _, h', grows_roll frags cur _⟩

/-- What `coldtrace_writer_fini` does: it hands over the page in the buffer and
releases the buffers. -/
theorem writerFini_spec (B : Build) (o : Outcomes) (impl : WriterImpl) (w : World) :
    (impl.initd = false → writerFini B o impl w = (impl, w)) ∧
    (impl.initd = true → (writerFini B o impl w).1.buffer = none ∧
      (writerFini B o impl w).1.initd = false ∧
      (impl.buffer = none → (writerFini B o impl w).2.closed = w.closed) ∧
      ∀ page, impl.Holds page → (writerFini B o impl w).2.closed = w.closed ++ [page]) := by
  refine ⟨fun hi => by simp [writerFini, hi], fun hi => ?_⟩
  rw [writerFini, if_neg (by simp [hi])]
  refine ⟨(releaseBuffers_spec ..).1, rfl, ?_, ?_⟩
  · intro hnone
    refine (releaseBuffers_spec ..).2.2.1.trans ?_
    rw [hnone]
    rfl
  · intro page hpage
    refine (releaseBuffers_spec ..).2.2.1.trans ?_
    rw [if_pos hpage.isSome]
    have hflush := flush_spec B o w hpage
    generalize flush B o impl w = result at hflush
    cases hflush <;> assumption

/-- `coldtrace_thread_fini` on a thread that is initialised. -/
theorem threadFini_eq (B : Build) (tid : Nat) (o : Outcomes) {th : Thread} (w : World)
    (hi : th.initd = true) :
    threadFini B tid o th w =
      ({ th with
          writer := (writerFini B o th.writer w).1, stack := [], stackSize := 0
          stackCapacity := 0, stackBottom := 0 }, (writerFini B o th.writer w).2) := by
  simp only [threadFini, getColdtraceThread, hi, Bool.not_true, Bool.false_eq_true, if_false]

/-- Finishing keeps the invariant and leaves no page in the buffer. -/
theorem Coherent.fini (tid : Nat) (o : Outcomes) (h : Coherent B before s frags cur) :
    Coherent B before
      ⟨(threadFini B tid o s.th s.world).1, (threadFini B tid o s.th s.world).2⟩
      (frags ++ cur.toList) none := by
  obtain ⟨hoff, hon⟩ := writerFini_spec B o s.th.writer s.world
  rw [threadFini_eq B tid o s.world h.initd]
  refine ⟨h.initd, ⟨Nat.le_refl _, Nat.le_refl _, rfl, (by decide : 0 < 2 ^ 31)⟩, ?_, ?_,
    fun _ hn => (nomatch hn), fun _ => ⟨?_, fun _ _ => rfl⟩⟩
  · change (writerFini B o s.th.writer s.world).2.closed = _
    cases cur with
    | none =>
        rw [Option.toList_none, List.append_nil, ← h.closed]
        cases hi : s.th.writer.initd with
        | false => rw [hoff hi]
        | true => exact (hon hi).2.2.1 (h.idle rfl).buffer
    | some rs =>
        have hcur := h.current rs rfl
        rw [(hon hcur.initd).2.2.2 _ hcur.holds, h.closed, Option.toList_some, List.map_append,
          List.append_assoc]
        rfl
  · cases cur with
    | none =>
        rw [Option.toList_none, List.append_nil]
        exact h.sound
    | some rs => exact h.sound_append rfl
  · change (writerFini B o s.th.writer s.world).1.buffer = none
    cases hi : s.th.writer.initd with
    | false =>
        rw [hoff hi]
        cases cur with
        | none => exact (h.idle rfl).buffer
        | some rs =>
            have hcur := (h.current rs rfl).initd
            rw [hi] at hcur
            cases hcur
    | true => exact (hon hi).1

/-! ## Runs -/

/-- Every call but another `init` keeps the invariant, as long as the stack
stays small. -/
theorem Coherent.step (h : Coherent B before s frags cur) {ev : Event} (hop : ev.op ≠ .init)
    (hs : (step B tid s ev).th.stackSize < 2 ^ 31) :
    ∃ frags' cur', Coherent B before (Coldtrace.step B tid s ev) frags' cur' ∧
      Grows frags cur frags' cur' := by
  obtain ⟨cfg, o, op⟩ := ev
  cases op with
  | init => exact absurd rfl hop
  | fini =>
      exact ⟨_, _, h.fini tid o, grows_close frags cur cur.toList none
        fun rs hrs => ⟨rs, by rw [hrs]; rfl, List.prefix_refl rs⟩⟩
  | push caller =>
      have hp := threadStackPush_spec tid o h.initd h.stack caller
      exact ⟨_, _, h.move (hp.move h.stack) (hp.stackWf h.stack hs), grows_refl frags cur⟩
  | pop =>
      obtain ⟨hwf, hm, -⟩ := threadStackPop_spec tid h.initd h.stack
      exact ⟨_, _, h.move hm hwf, grows_refl frags cur⟩
  | append e => exact h.append

/-- The states of a run from an initialised thread are coherent, and their
pages only grow. -/
theorem coherent_run (tid : Nat) : ∀ (evs : List Event) {s : State} {frags : List (List Record)}
    {cur : Option (List Record)}, Coherent B before s frags cur → (∀ ev ∈ evs, ev.op ≠ .init) →
    Throughout (step B tid) (fun s => s.th.stackSize < 2 ^ 31) s evs →
    ∃ frags' cur', Coherent B before (run B tid s evs) frags' cur' ∧ Grows frags cur frags' cur'
  | [], s, frags, cur, h, _, _ => ⟨frags, cur, h, grows_refl frags cur⟩
  | ev :: evs, s, frags, cur, h, hop, hs => by
      rw [List.forall_mem_cons] at hop
      rw [throughout_cons] at hs
      obtain ⟨frags₁, cur₁, h₁, hg₁⟩ := h.step hop.1 hs.2.start
      obtain ⟨frags₂, cur₂, h₂, hg₂⟩ := coherent_run tid evs h₁ hop.2 hs.2
      exact ⟨frags₂, cur₂, h₂, hg₁.trans hg₂⟩

end

end Coldtrace
