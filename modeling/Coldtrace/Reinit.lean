import Mathlib.Data.List.Forall2
import Mathlib.Tactic.Common
import Coldtrace.Lib.Runs
import Coldtrace.Writer
import Coldtrace.Reserve
import Coldtrace.Thread
import Coldtrace.Session
import Coldtrace.Ownership
import Coldtrace.Stack
import Coldtrace.Records
import Coldtrace.Appending
import Coldtrace.Coherence
import Coldtrace.RoundTrip
import Coldtrace.Files
import Coldtrace.Complete

/-!
# Initialising a thread again

A thread is initialised twice.  `get_coldtrace_thread` initialises it when it is
first used, and the handler of EVENT_THREAD_START calls `coldtrace_thread_init`,
whether or not the thread was used before.  `coldtrace_writer_init` forgets the
buffers of the writer.  So a thread that appended entries before its
EVENT_THREAD_START loses them with their page, and the two buffers are never
released.

Nothing is lost exactly when each `coldtrace_thread_init` meets a writer without
a buffer.
-/

namespace Coldtrace

open Bytes Runs

/-! ## What is accepted -/

/-- The entries of a run whose append returned a block, in order. -/
def accepted (B : Build) (tid : Nat) : State → List Event → List Entry
  | _, [] => []
  | s, ev :: evs =>
      (match ev.op with
      | .append e =>
          if (threadAppend B tid ev.cfg ev.o s.th s.world e.byte e.ptr).1.isSome then [e] else []
      | _ => []) ++ accepted B tid (step B tid s ev) evs

/-- The record has the header and the fields of an entry. -/
structure Record.Of (r : Record) (e : Entry) : Prop where
  type : r.type = e.type
  header : r.typedPointer = (makeEntryHeader e.byte e.ptr).toNat
  fields : r.fields = e.fields.words e.type

theorem record_of {th : Thread} (h : th.StackWf) (cfg : Config) (e : Entry) :
    (th.record h cfg e).Of e :=
  ⟨rfl, Entry.typedPointer_record, rfl⟩

/-! ## Writers whose records fit -/

/-- The buffer of the writer has the configured size, and its page fits. -/
structure Fitted (cfg : Config) (impl : WriterImpl) : Prop where
  size : impl.buffer.isSome = true → impl.size = cfg.traceSize
  mmapped : impl.buffer.isSome = true → impl.mmapped = !cfg.writesDisabled
  valid : impl.buffer.isSome = true →
    validateTraceSize cfg.traceSize (!cfg.writesDisabled) = true
  size_le : impl.buffer.isSome = true → cfg.traceSize ≤ ptrdiffMax
  offset_le : impl.buffer.isSome = true → impl.offset ≤ cfg.traceSize

/-- As many pages were handed over as files were written. -/
def Balanced (w w' : World) : Prop := w'.flushes + w.closed.length = w.flushes + w'.closed.length

theorem Balanced.of_eq {w w' : World} (hf : w'.flushes = w.flushes) (hc : w'.closed = w.closed) :
    Balanced w w' := by
  rw [Balanced, hf, hc]

theorem Balanced.trans {w w' w'' : World} (h : Balanced w w') (h' : Balanced w' w'') :
    Balanced w w'' := by
  rw [Balanced] at *
  omega

theorem fitted_of_none {cfg : Config} {impl : WriterImpl} (h : impl.buffer = none) :
    Fitted cfg impl := by
  constructor <;> intro hs <;> rw [h] at hs <;> cases hs

section

variable {B : Build} {cfg : Config} {o : Outcomes} {impl : WriterImpl} {w : World}

theorem firstFragment_flushes (o : Outcomes) : ∀ (fuel : Nat) (impl : WriterImpl) (w : World),
    (firstFragment o fuel impl w).2.2.flushes = w.flushes
  | 0, _, _ => rfl
  | fuel + 1, impl, w => by
      have hcall : (w.called (.openExcl impl.enumerator)).flushes = w.flushes := by
        simp [World.flushes, World.called, FsCall.isWrite]
      rw [firstFragment]
      split
      · exact hcall
      · split
        · rw [firstFragment_flushes o fuel]
          exact hcall
        · exact hcall

theorem fail_flushes (impl : WriterImpl) (w : World) : (fail impl w).2.flushes = w.flushes :=
  congrArg (List.countP FsCall.isWrite) (releaseBuffers_calls impl w)

theorem alloc_flushes {w w' : World} {ok : Bool} {n id : Nat} {source : Source}
    (h : w.alloc ok n source = some (id, w')) : w'.flushes = w.flushes :=
  congrArg (List.countP FsCall.isWrite) (alloc_calls h)

/-- `ensure_buffer_` writes nothing. -/
theorem ensureBuffer_flushes (B : Build) (cfg : Config) (o : Outcomes) (impl : WriterImpl)
    (w : World) : (ensureBuffer B cfg o impl w).2.2.flushes = w.flushes := by
  rw [ensureBuffer]
  split
  next => rfl
  split
  next => rfl
  split
  next => rfl
  dsimp only
  split
  next => rfl
  split
  next =>
    split
    next => rfl
    next id w₁ ha => exact alloc_flushes ha
  next =>
    split
    next => rfl
    next id w₁ ha =>
      split
      next => exact (fail_flushes ..).trans (alloc_flushes ha)
      next cid w₂ hm =>
        have hfirst : ∀ {impl₁ impl₂ : WriterImpl} {ok : Bool} {w₃ : World},
            firstFragment o (2 ^ 32) impl₁ w₂ = (ok, impl₂, w₃) → w₃.flushes = w.flushes := by
          intro impl₁ impl₂ ok w₃ heq
          have hflushes := firstFragment_flushes o (2 ^ 32) impl₁ w₂
          rw [heq] at hflushes
          exact hflushes.trans ((alloc_flushes hm).trans (alloc_flushes ha))
        split
        next heq => exact (fail_flushes ..).trans (hfirst heq)
        next heq => exact hfirst heq

/-- A flush without a failure of a page that fits keeps the writer. -/
theorem flush_fitted (hB : B.Lawful) (ho : o.NoFailure) (w : World) (hs : impl.buffer.isSome = true)
    (h : Fitted cfg impl) :
    (flush B o impl w).1 = impl ∧ (flush B o impl w).2.closed.length = w.closed.length + 1 ∧
      (cfg.writesDisabled = false → Balanced w (flush B o impl w).2) := by
  obtain ⟨b, hb⟩ := Option.isSome_iff_exists.mp hs
  have hholds : impl.Holds (b.mem.load 0 impl.offset) := ⟨b, hb, rfl⟩
  cases hw : cfg.writesDisabled with
  | true =>
      have hm : impl.mmapped = false := by rw [h.mmapped hs, hw]; rfl
      rw [flush_unmapped w hb hm]
      exact ⟨rfl, by simp, fun h => by cases h⟩
  | false =>
      have hm : impl.mmapped = true := by rw [h.mmapped hs, hw]; rfl
      have hmax : cfg.traceSize ≤ lz4MaxInputSize := by
        have hv := h.valid hs
        simp only [validateTraceSize, hw, Bool.not_false, Bool.true_and, decide_eq_true_eq] at hv
        split at hv
        next => cases hv
        next =>
          split at hv
          next => cases hv
          next hle => omega
      have hok := flush_ok (w := w) hB ho hholds (h.size hs ▸ hmax)
        (by rw [← hholds.offset_eq, h.size hs]; exact h.offset_le hs)
      have hflush := flush_files B o w hm hholds
      generalize flush B o impl w = result at hok hflush
      have hne : ∀ {impl' : WriterImpl}, impl'.Broken → impl' ≠ impl := by
        rintro impl' hbr rfl
        rw [hbr.buffer] at hb
        cases hb
      cases hflush with
      | written _ _ hc _ hcalls =>
          refine ⟨rfl, by rw [hc]; simp, fun _ => ?_⟩
          simp only [Balanced, World.flushes, hc, hcalls, List.countP_append, List.length_append]
          simp [FsCall.isWrite]
          omega
      | unopened _ hbr => exact absurd hok (hne hbr)
      | removed _ hbr => exact absurd hok (hne hbr)

/-- The next fragment, after a flush without a failure. -/
theorem newTrace_fitted (hB : B.Lawful) (ho : o.NoFailure) (w : World)
    (hs : impl.buffer.isSome = true) (h : Fitted cfg impl) :
    (newTrace B cfg o impl w).1.buffer.isSome = true ∧ Fitted cfg (newTrace B cfg o impl w).1 ∧
      (newTrace B cfg o impl w).1.offset = sizeofVersionHeader ∧
      (cfg.writesDisabled = false → Balanced w (newTrace B cfg o impl w).2) := by
  obtain ⟨hflush, -, hbal⟩ := flush_fitted hB ho w hs h
  rw [newTrace]
  generalize flush B o impl w = result at hflush hbal
  obtain ⟨impl₁, w₁⟩ := result
  obtain rfl : impl₁ = impl := hflush
  have hadv := advanceFragment_spec cfg o impl₁ w₁
  have hcalls := advanceFragment_calls cfg o impl₁ w₁
  simp only [if_neg (not_isNone hs)]
  generalize advanceFragment cfg o impl₁ w₁ = result at hadv hcalls
  have hsome : (beginFragment B result.1).buffer.isSome = true := by
    simpa [beginFragment] using hadv.isSome.trans hs
  refine ⟨hsome, ⟨fun _ => ?_, fun _ => hadv.mmapped.trans (h.mmapped hs), fun _ => h.valid hs,
    fun _ => h.size_le hs, fun _ => validateTraceSize_ge (h.valid hs)⟩, rfl, fun hw => ?_⟩
  · rcases hadv.size with heq | ⟨-, heq, -⟩
    · exact heq.trans (h.size hs)
    · exact heq
  · exact (hbal hw).trans (.of_eq (congrArg (List.countP FsCall.isWrite) hcalls) hadv.closed)

/-- The rest of a reservation that fits, once there is a buffer. -/
theorem place_fitted (hB : B.Lawful) (ho : o.NoFailure) {impl₁ : WriterImpl} {w₁ : World}
    (hens : ensureBuffer B cfg o impl w = (true, impl₁, w₁)) (hs : impl₁.buffer.isSome = true)
    (h : Fitted cfg impl₁) {size : Nat} (hsize : sizeofVersionHeader + size ≤ cfg.traceSize) :
    Fitted cfg (writerReserve B cfg o impl w size).2.1 ∧
      (writerReserve B cfg o impl w size).1.isSome = true ∧
      (cfg.writesDisabled = false → Balanced w₁ (writerReserve B cfg o impl w size).2.2) := by
  have hptr : ptrdiffMax = 2 ^ 63 - 1 := rfl
  have hle := h.size_le hs
  have hoff := h.offset_le hs
  have hadd : ∀ {impl' : WriterImpl}, impl'.buffer.isSome = true → Fitted cfg impl' →
      impl'.offset + size ≤ cfg.traceSize →
      Fitted cfg { impl' with offset := (impl'.offset + size) % 2 ^ 64 } := by
    intro impl' hs' h' hfit
    refine ⟨h'.size, h'.mmapped, h'.valid, h'.size_le, fun _ => ?_⟩
    dsimp only
    rwa [Nat.mod_eq_of_lt (by omega)]
  simp only [writerReserve, hens]
  split
  next =>
    obtain ⟨hs', h', hoff', hbal⟩ := newTrace_fitted hB ho w₁ hs h
    generalize newTrace B cfg o impl₁ w₁ = result at hs' h' hoff' hbal
    simp only [if_neg (not_isNone hs')]
    exact ⟨hadd hs' h' (by rw [hoff']; exact hsize), rfl, hbal⟩
  next hn =>
    simp only [writerNewTrace, decide_eq_true_eq, h.size hs, Nat.lt_irrefl, if_false,
      Nat.not_lt] at hn
    rw [Nat.mod_eq_of_lt (by omega)] at hn
    exact ⟨hadd hs h hn, rfl, fun _ => .of_eq rfl rfl⟩

/-- What a reservation that fits leaves. -/
structure ReservedFit (cfg : Config) (w : World) (result : Option Nat × WriterImpl × World) :
    Prop where
  fitted : Fitted cfg result.2.1
  /-- Without a block nothing is handed over. -/
  closed : result.1 = none → result.2.2.closed = w.closed
  balanced : cfg.writesDisabled = false → Balanced w result.2.2

/-- A reservation that fits, without a failure. -/
theorem reserve_fitted (hB : B.Lawful) (ho : o.NoFailure) (w : World) (h : Fitted cfg impl)
    {size : Nat} (hsize : sizeofVersionHeader + size ≤ cfg.traceSize) :
    ReservedFit cfg w (writerReserve B cfg o impl w size) := by
  have hspec := ensureBuffer_spec B cfg o impl w
  have hflushes := ensureBuffer_flushes B cfg o impl w
  generalize hens : ensureBuffer B cfg o impl w = result at hspec hflushes
  have hrefused : ∀ {impl' : WriterImpl} {w' : World},
      ensureBuffer B cfg o impl w = (false, impl', w') → Fitted cfg impl' → w'.closed = w.closed →
      w'.flushes = w.flushes → ReservedFit cfg w (writerReserve B cfg o impl w size) := by
    intro impl' w' hens hf hc hfl
    simp only [writerReserve, hens]
    exact ⟨hf, fun _ => hc, fun _ => .of_eq hfl hc⟩
  have hplaced : ∀ {impl' : WriterImpl} {w' : World},
      ensureBuffer B cfg o impl w = (true, impl', w') → impl'.buffer.isSome = true →
      Fitted cfg impl' → w'.closed = w.closed → w'.flushes = w.flushes →
      ReservedFit cfg w (writerReserve B cfg o impl w size) := by
    intro impl' w' hens hs hf hc hfl
    obtain ⟨hf', hsome, hbal⟩ := place_fitted hB ho hens hs hf hsize
    refine ⟨hf', fun hnone => ?_, fun hw => (Balanced.of_eq hfl hc).trans (hbal hw)⟩
    rw [hnone] at hsome
    cases hsome
  cases hspec with
  | refused => exact hrefused hens h rfl rfl
  | pending _ _ _ _ _ hb => exact hrefused hens (fitted_of_none hb) rfl rfl
  | broken _ _ _ hbr _ hc _ => exact hrefused hens (fitted_of_none hbr.buffer) hc hflushes
  | kept _ _ hs => exact hplaced hens hs h rfl rfl
  | fresh _ _ _ hfresh hc _ =>
      refine hplaced hens hfresh.holds.isSome ⟨fun _ => hfresh.size, fun _ => hfresh.mmapped,
        fun _ => hfresh.valid, fun _ => hfresh.size_le, fun _ => ?_⟩ hc hflushes
      rw [hfresh.holds.offset_eq, B.length_versionHeader]
      exact validateTraceSize_ge hfresh.valid

/-- `coldtrace_writer_fini` without a failure. -/
theorem fini_fitted (hB : B.Lawful) (ho : o.NoFailure) (w : World) (h : Fitted cfg impl)
    (hw : cfg.writesDisabled = false) : Balanced w (writerFini B o impl w).2 := by
  have hrel : ∀ (impl : WriterImpl) (w : World), Balanced w (releaseBuffers impl w).2 :=
    fun impl w => .of_eq (congrArg (List.countP FsCall.isWrite) (releaseBuffers_calls impl w))
      (releaseBuffers_spec impl w).2.2.1
  have hflush : Balanced w (if impl.buffer.isSome then flush B o impl w else (impl, w)).2 := by
    split
    next hs => exact (flush_fitted hB ho w hs h).2.2 hw
    next => exact .of_eq rfl rfl
  rw [writerFini]
  split
  next => exact .of_eq rfl rfl
  next => exact hflush.trans (hrel _ _)

end

/-! ## Initialising -/

/-- The first use of a thread initialises it. -/
theorem step_lazy (B : Build) (tid : Nat) (th : Thread) (w : World) (ev : Event) :
    step B tid ⟨getColdtraceThread tid th, w⟩ ev = step B tid ⟨th, w⟩ ev := by
  have hget := getColdtraceThread_of_initd (initd_getColdtraceThread tid th) tid
  obtain ⟨cfg, o, op⟩ := ev
  cases op with
  | append e => simp only [step, subscriberAppend, threadAppend, hget]
  | init => simp only [step, threadInit, hget]
  | fini => simp only [step, threadFini, hget]
  | push caller => simp only [step, threadStackPush, hget]
  | pop => simp only [step, threadStackPop, hget]

theorem accepted_lazy (B : Build) (tid : Nat) (th : Thread) (w : World) (evs : List Event) :
    accepted B tid ⟨getColdtraceThread tid th, w⟩ evs = accepted B tid ⟨th, w⟩ evs := by
  have hget := getColdtraceThread_of_initd (initd_getColdtraceThread tid th) tid
  cases evs with
  | nil => rfl
  | cons ev evs =>
      rw [accepted, accepted, step_lazy]
      congr 1
      split
      next => simp only [threadAppend, hget]
      next => rfl

section

variable {B : Build} {before : List (List UInt8)} {s : State} {frags : List (List Record)}
  {cfg : Config} {o : Outcomes} {tid : Nat}

/-- `coldtrace_thread_init` on a writer without a buffer. -/
theorem Coherent.reinit (tid : Nat) (h : Coherent B before s frags none)
    (hbottom : s.th.stackBottom = 0) :
    Coherent B before ⟨threadInit tid s.th, s.world⟩ frags none := by
  have hinit : threadInit tid s.th = { s.th with writer := writerInit s.th.writer (some tid) } := by
    simp [threadInit, getColdtraceThread, h.initd]
  rw [hinit]
  exact ⟨h.initd, ⟨h.stack.bottom_le, h.stack.size_le, h.stack.capacity, h.stack.small⟩, h.closed,
    h.sound, fun _ hn => (by cases hn), fun _ => ⟨rfl, fun _ _ => hbottom⟩⟩

/-! ## One call -/

theorem store_fitted {impl : WriterImpl} (h : Fitted cfg impl) (offset : Nat) (bs : List UInt8) :
    Fitted cfg (impl.store offset bs) := by
  have hs : (impl.store offset bs).buffer.isSome = impl.buffer.isSome := by
    rw [WriterImpl.store, Option.isSome_map]
  constructor <;> rw [hs]
  · exact h.size
  · exact h.mmapped
  · exact h.valid
  · exact h.size_le
  · exact h.offset_le

/-- What an append that fits, without a failure, does to its writer. -/
theorem append_fitted (tid : Nat) (hB : B.Lawful) (ho : o.NoFailure) (hi : s.th.initd = true)
    (hwf : s.th.StackWf) (h : Fitted cfg s.th.writer) {e : Entry}
    (hfit : sizeofVersionHeader +
      (e.type.space + if e.type.hasStack then 8 * s.th.stackSize else 0) ≤ cfg.traceSize) :
    Fitted cfg (subscriberAppend B tid cfg o s e).th.writer ∧
      (cfg.writesDisabled = false → Balanced s.world (subscriberAppend B tid cfg o s e).world) ∧
      ((threadAppend B tid cfg o s.th s.world e.byte e.ptr).1 = none →
        (subscriberAppend B tid cfg o s e).world.closed = s.world.closed ∧
        (subscriberAppend B tid cfg o s e).th.stackBottom ≤ s.th.stackBottom) := by
  cases hf : s.th.failed with
  | true =>
      rw [subscriberAppend_failed B tid cfg o hi hf e]
      exact ⟨h, fun _ => .of_eq rfl rfl, fun _ => ⟨rfl, Nat.le_refl _⟩⟩
  | false =>
      have hlen := length_record_le_full hwf cfg e
      rw [hwf.length_frames] at hlen
      have hres := reserve_fitted hB ho s.world h
        (Nat.le_trans (Nat.add_le_add_left hlen sizeofVersionHeader) hfit)
      rw [threadAppend_fst B tid cfg o s.world hi hf hwf e,
        subscriberAppend_eq B tid cfg o hi hf hwf e]
      generalize writerReserve B cfg o s.th.writer s.world _ = result at hres
      obtain ⟨off, impl, w⟩ := result
      cases off with
      | none =>
          exact ⟨hres.fitted, hres.balanced,
            fun _ => ⟨hres.closed rfl, s.th.bottomBefore_le cfg e⟩⟩
      | some off => exact ⟨store_fitted hres.fitted _ _, hres.balanced, fun hn => (by cases hn)⟩

end

/-- The invariant of a run that loses nothing: the records in the pages handed
over since `w` and in the buffer are those of the accepted entries. -/
structure Recording (B : Build) (cfg : Config) (w : World) (s : State) (frags : List (List Record))
    (cur : Option (List Record)) (done : List Entry) : Prop where
  coherent : Coherent B w.closed s frags cur
  bottom : cur = none → s.th.stackBottom = 0
  fitted : Fitted cfg s.th.writer
  records : List.Forall₂ Record.Of (frags ++ cur.toList).flatten done
  balanced : cfg.writesDisabled = false → Balanced w s.world

/-- What is asked of a call of such a run. -/
structure Event.Lossless (B : Build) (tid : Nat) (cfg : Config) (s : State) (ev : Event) :
    Prop where
  cfg_eq : ev.cfg = cfg
  outcomes : ev.o.NoFailure
  small : (step B tid s ev).th.stackSize < 2 ^ 31
  fits : ∀ e, ev.op = .append e → sizeofVersionHeader +
    (e.type.space + if e.type.hasStack then 8 * s.th.stackSize else 0) ≤ cfg.traceSize

section

variable {B : Build} {cfg : Config} {w : World} {s : State} {frags : List (List Record)}
  {cur : Option (List Record)} {done : List Entry} {tid : Nat} {ev : Event}

theorem Recording.step (hB : B.Lawful) (h : Recording B cfg w s frags cur done)
    (hev : ev.Lossless B tid cfg s) (hinit : ev.op = .init → s.th.writer.buffer = none) :
    ∃ frags' cur', Recording B cfg w (step B tid s ev) frags' cur'
      (done ++ accepted B tid s [ev]) := by
  obtain ⟨hco, hbottom, hfit, hrec, hbal⟩ := h
  obtain ⟨cfg', o, op⟩ := ev
  obtain ⟨rfl, ho, hsmall, hfits⟩ := hev
  cases op with
  | init =>
      have hnone := hinit rfl
      have hcur : cur = none := by
        cases cur with
        | none => rfl
        | some rs =>
            have hsome := (hco.current rs rfl).holds.isSome
            rw [hnone] at hsome
            cases hsome
      subst hcur
      refine ⟨frags, none, hco.reinit tid (hbottom rfl), fun _ => ?_, fitted_of_none ?_, ?_, hbal⟩
      · simp [Coldtrace.step, threadInit, getColdtraceThread, hco.initd, hbottom rfl]
      · rfl
      · simpa [accepted] using hrec
  | fini =>
      have hbuf := (hco.fini tid o).idle rfl
      refine ⟨frags ++ cur.toList, none, hco.fini tid o, fun _ => ?_, fitted_of_none hbuf.buffer,
        ?_, fun hw => ?_⟩
      · simp only [Coldtrace.step, threadFini_eq B tid o s.world hco.initd]
      · simpa [accepted] using hrec
      · refine (hbal hw).trans ?_
        simp only [Coldtrace.step, threadFini_eq B tid o s.world hco.initd]
        exact fini_fitted hB ho s.world hfit hw
  | push caller =>
      have hp := threadStackPush_spec tid o hco.initd hco.stack caller
      have hm := hp.move hco.stack
      refine ⟨frags, cur, hco.move hm (hp.stackWf hco.stack hsmall), fun hn => ?_, ?_, ?_, hbal⟩
      · have := hm.bottom_le
        have := hbottom hn
        change (threadStackPush tid o s.th caller).stackBottom = 0
        omega
      · change Fitted cfg' (threadStackPush tid o s.th caller).writer
        rw [hm.writer]
        exact hfit
      · simpa [accepted] using hrec
  | pop =>
      obtain ⟨hwf, hm, -⟩ := threadStackPop_spec tid hco.initd hco.stack
      refine ⟨frags, cur, hco.move hm hwf, fun hn => ?_, ?_, ?_, hbal⟩
      · have := hm.bottom_le
        have := hbottom hn
        change (threadStackPop tid s.th).stackBottom = 0
        omega
      · change Fitted cfg' (threadStackPop tid s.th).writer
        rw [hm.writer]
        exact hfit
      · simpa [accepted] using hrec
  | append e =>
      have hcase := append_recorded tid cfg' o e hco
      obtain ⟨hfit', hbal', hnone⟩ := append_fitted tid hB ho hco.initd hco.stack hfit
        (hfits e rfl)
      have hacc : accepted B tid s [⟨cfg', o, .append e⟩] =
          if (threadAppend B tid cfg' o s.th s.world e.byte e.ptr).1.isSome then [e] else [] :=
        List.append_nil _
      rw [hacc]
      change ∃ frags' cur', Recording B cfg' w (subscriberAppend B tid cfg' o s e) frags' cur' _
      generalize (threadAppend B tid cfg' o s.th s.world e.byte e.ptr).1 = off at hcase hnone
      generalize subscriberAppend B tid cfg' o s e = s' at hcase hfit' hbal' hnone
      have hadd : List.Forall₂ Record.Of
          ((frags ++ cur.toList).flatten ++ [s.th.record hco.stack cfg' e]) (done ++ [e]) :=
        List.rel_append hrec (.cons (record_of hco.stack cfg' e) .nil)
      cases hcase with
      | failed => exact ⟨frags, cur, hco, hbottom, hfit, by simpa using hrec, hbal⟩
      | refused hcur h' =>
          subst hcur
          have hle := (hnone rfl).2
          rw [hbottom rfl] at hle
          exact ⟨frags, none, h', fun _ => Nat.le_zero.mp hle, hfit', by simpa using hrec,
            fun hw => (hbal hw).trans (hbal' hw)⟩
      | broken h' =>
          -- a flush without a failure does not break the writer
          have hlen := congrArg List.length (hnone rfl).1
          rw [h'.closed, hco.closed] at hlen
          simp at hlen
      | inPage _ _ _ _ _ _ h' =>
          refine ⟨frags, _, h', fun hn => (by cases hn), hfit', ?_,
            fun hw => (hbal hw).trans (hbal' hw)⟩
          have hflat : (frags ++
              (some (cur.getD [] ++ [s.th.record hco.stack cfg' e])).toList).flatten =
              (frags ++ cur.toList).flatten ++ [s.th.record hco.stack cfg' e] := by
            cases cur <;> simp
          rw [hflat]
          exact hadd
      | rolled _ _ _ _ _ h' =>
          refine ⟨_, _, h', fun hn => (by cases hn), hfit', ?_,
            fun hw => (hbal hw).trans (hbal' hw)⟩
          have hflat : (frags ++ [cur.getD []] ++
              (some [s.th.record hco.stack cfg' e]).toList).flatten =
              (frags ++ cur.toList).flatten ++ [s.th.record hco.stack cfg' e] := by
            cases cur <;> simp
          rw [hflat]
          exact hadd

/-! ## Memory -/

/-- A call other than `coldtrace_thread_init` keeps what the writer owns. -/
theorem owned_step {H : List Block} (hi : s.th.initd = true) (hwf : s.th.StackWf)
    (hop : ev.op ≠ .init) (h : s.session.Owned H) : (step B tid s ev).session.Owned H := by
  rcases step_session B tid hi hwf hop with ⟨-, heq⟩ | ⟨call, -, heq | ⟨offset, bs, heq⟩⟩
  · rw [heq]
    exact h
  · rw [heq]
    exact h.step B _
  · rw [heq]
    exact (h.step B _).step B _

/-- `coldtrace_thread_init` gives up what the writer owns. -/
theorem owned_init {H : List Block} (hi : s.th.initd = true) (hop : ev.op = .init)
    (h : s.session.Owned H) : (step B tid s ev).session.Owned (H ++ s.th.writer.blocks) := by
  have hstep : (step B tid s ev).session = Session.start s.th.writer tid s.world := by
    simp [step, hop, threadInit, getColdtraceThread, hi, State.session, Session.start]
  have hheap : s.world.heap = H ++ s.th.writer.blocks := h.owns.heap
  rw [hstep, ← hheap]
  exact Session.owned_start _ _ h.owns.ok

theorem blocks_of_none {H : List Block} (h : s.session.Owned H) (hb : s.th.writer.buffer = none) :
    s.th.writer.blocks = [] := by
  have hc : s.th.writer.compBuf = none := h.shape.compBuf_none hb
  rw [WriterImpl.blocks, hb, hc]
  rfl

theorem blocks_pos (hb : s.th.writer.buffer ≠ none) : 0 < s.th.writer.blocks.length := by
  obtain ⟨b, hb⟩ := Option.ne_none_iff_exists'.mp hb
  rw [WriterImpl.blocks, hb]
  simp

/-- The stack of a thread stays well-formed. -/
theorem step_stackWf (hi : s.th.initd = true) (hwf : s.th.StackWf)
    (hs : (step B tid s ev).th.stackSize < 2 ^ 31) :
    (step B tid s ev).th.initd = true ∧ (step B tid s ev).th.StackWf := by
  obtain ⟨cfg, o, op⟩ := ev
  cases op with
  | init =>
      simp only [step, threadInit, getColdtraceThread, hi, Bool.not_true, Bool.false_eq_true,
        if_false]
      exact ⟨trivial, hwf.bottom_le, hwf.size_le, hwf.capacity, hwf.small⟩
  | fini =>
      simp only [step, threadFini_eq B tid o s.world hi]
      exact ⟨hi, Nat.le_refl _, Nat.le_refl _, rfl, (by decide : 0 < 2 ^ 31)⟩
  | push caller =>
      have hp := threadStackPush_spec tid o hi hwf caller
      exact ⟨(hp.move hwf).initd.trans hi, hp.stackWf hwf hs⟩
  | pop =>
      obtain ⟨hwf', hm, -⟩ := threadStackPop_spec tid hi hwf
      exact ⟨hm.initd.trans hi, hwf'⟩
  | append e =>
      cases hf : s.th.failed with
      | true =>
          simp only [step, subscriberAppend_failed B tid cfg o hi hf e]
          exact ⟨hi, hwf⟩
      | false =>
          have hle := s.th.bottomBefore_le cfg e
          have hbottom := hwf.bottom_le
          simp only [step, subscriberAppend_eq B tid cfg o hi hf hwf e]
          generalize writerReserve B cfg o s.th.writer s.world _ = result
          obtain ⟨off, impl, w⟩ := result
          cases off with
          | none => exact ⟨hi, Nat.le_trans hle hbottom, hwf.size_le, hwf.capacity, hwf.small⟩
          | some off =>
              refine ⟨hi, ?_, hwf.size_le, hwf.capacity, hwf.small⟩
              dsimp only
              split <;> omega

/-! ## Runs -/

/-- An init meets a writer without a buffer. -/
def Event.Harmless (s : State) (ev : Event) : Prop :=
  ev.op = .init → s.th.writer.buffer = none

/-- A run with harmless inits loses nothing. -/
theorem recording_run (hB : B.Lawful) : ∀ {evs : List Event} {s : State}
    {frags : List (List Record)} {cur : Option (List Record)} {done : List Entry},
    Recording B cfg w s frags cur done → s.session.Owned w.heap →
    Along (step B tid) (fun s ev => ev.Lossless B tid cfg s) s evs →
    Along (step B tid) Event.Harmless s evs →
    (∃ frags' cur', Recording B cfg w (run B tid s evs) frags' cur'
      (done ++ accepted B tid s evs)) ∧ (run B tid s evs).session.Owned w.heap
  | [], s, frags, cur, done, h, ho, _, _ => ⟨⟨frags, cur, by simpa [accepted] using h⟩, ho⟩
  | ev :: evs, s, frags, cur, done, h, ho, hev, hinit => by
      rw [along_cons] at hev hinit
      obtain ⟨frags₁, cur₁, h₁⟩ := h.step hB hev.1 hinit.1
      have ho₁ : (step B tid s ev).session.Owned w.heap := by
        by_cases hop : ev.op = .init
        · have hown : (step B tid s ev).session.Owned (w.heap ++ s.th.writer.blocks) :=
            owned_init h.coherent.initd hop ho
          rwa [blocks_of_none ho (hinit.1 hop), List.append_nil] at hown
        · exact owned_step h.coherent.initd h.coherent.stack hop ho
      obtain ⟨⟨frags', cur', h'⟩, ho'⟩ := recording_run hB h₁ ho₁ hev.2 hinit.2
      refine ⟨⟨frags', cur', ?_⟩, ho'⟩
      have hacc : accepted B tid s (ev :: evs) =
          accepted B tid s [ev] ++ accepted B tid (step B tid s ev) evs := by
        simp [accepted]
      rw [hacc, ← List.append_assoc]
      exact h'

/-- What was given up stays allocated. -/
theorem owned_grows : ∀ {evs : List Event} {s : State} {H : List Block}, s.th.initd = true →
    s.th.StackWf → s.session.Owned H →
    Along (step B tid) (fun s ev => (step B tid s ev).th.stackSize < 2 ^ 31) s evs →
    (run B tid s evs).th.initd = true ∧ (run B tid s evs).th.StackWf ∧
      ∃ H', (run B tid s evs).session.Owned H' ∧ H.length ≤ H'.length
  | [], _, H, hi, hwf, h, _ => ⟨hi, hwf, H, h, Nat.le_refl _⟩
  | ev :: evs, s, H, hi, hwf, h, hs => by
      rw [along_cons] at hs
      obtain ⟨hi₁, hwf₁⟩ := step_stackWf hi hwf hs.1
      have h₁ : ∃ H₁, (step B tid s ev).session.Owned H₁ ∧ H.length ≤ H₁.length := by
        by_cases hop : ev.op = .init
        · exact ⟨_, owned_init hi hop h, by simp⟩
        · exact ⟨H, owned_step hi hwf hop h, Nat.le_refl _⟩
      obtain ⟨H₁, h₁, hle₁⟩ := h₁
      obtain ⟨hi', hwf', H', h', hle'⟩ := owned_grows hi₁ hwf₁ h₁ hs.2
      exact ⟨hi', hwf', H', h', Nat.le_trans hle₁ hle'⟩

/-- `coldtrace_thread_fini` releases what the writer owns. -/
theorem fini_heap {H : List Block} (hi : s.th.initd = true) (hwf : s.th.StackWf)
    (hop : ev.op = .fini) (h : s.session.Owned H) :
    (step B tid s ev).world.heap = H ∧ (step B tid s ev).th.writer.buffer = none := by
  have hown : (step B tid s ev).session.Owned H := owned_step hi hwf (by simp [hop]) h
  have hinitd : (step B tid s ev).th.writer.initd = false := by
    simp only [step, hop, threadFini_eq B tid ev.o s.world hi]
    exact (writerFini_owns B ev.o h.owns h.shape).2.2
  have hbuf : (step B tid s ev).th.writer.buffer = none := (hown.final hinitd).1
  have hheap : (step B tid s ev).world.heap = H ++ (step B tid s ev).th.writer.blocks :=
    hown.owns.heap
  rw [blocks_of_none hown hbuf, List.append_nil] at hheap
  exact ⟨hheap, hbuf⟩

end

/-! ## Nothing is lost -/

/-- Nothing of a run is lost.  The pages handed over since `w` consist of the
records of the accepted entries, each of them once and in order.  Every page is
written to a file if writes are enabled, and what was allocated is released. -/
structure NothingLost (B : Build) (cfg : Config) (w : World) (entries : List Entry) (s : State) :
    Prop where
  pages : ∃ frags : List (List Record), s.world.closed = w.closed ++ frags.map (pageOf B) ∧
    List.Forall₂ Record.Of frags.flatten entries ∧
    (cfg.writesDisabled = false → s.world.flushes = w.flushes + frags.length)
  released : s.world.heap = w.heap

section

variable {B : Build} {cfg : Config} {w : World} {tid : Nat} {fini : Event}

/-- The lazy initialisation of a thread that was not used before. -/
theorem run_fresh (B : Build) (tid : Nat) (w : World) (ev : Event) (evs : List Event) :
    run B tid { world := w } (ev :: evs) = run B tid ⟨threadInit tid {}, w⟩ (ev :: evs) := by
  rw [run_cons, run_cons]
  exact congrArg (run B tid · evs) (step_lazy B tid {} w ev).symm

theorem along_fresh {P : State → Event → Prop} {evs : List Event}
    (hP : ∀ ev, P { world := w } ev ↔ P ⟨threadInit tid {}, w⟩ ev) :
    Along (step B tid) P { world := w } evs ↔ Along (step B tid) P ⟨threadInit tid {}, w⟩ evs := by
  cases evs with
  | nil => exact ⟨fun _ => along_nil, fun _ => along_nil⟩
  | cons ev evs =>
      rw [along_cons, along_cons, hP ev]
      have hstep : step B tid ⟨threadInit tid {}, w⟩ ev = step B tid { world := w } ev :=
        step_lazy B tid {} w ev
      rw [hstep]

/-- With harmless inits nothing is lost. -/
theorem nothing_lost_of_harmless (hB : B.Lawful) (hw : w.HeapOk) (hfini : fini.op = .fini)
    {evs : List Event}
    (hev : Along (step B tid) (fun s ev => ev.Lossless B tid cfg s) ⟨threadInit tid {}, w⟩
      (evs ++ [fini]))
    (hinit : Along (step B tid) Event.Harmless ⟨threadInit tid {}, w⟩ evs) :
    NothingLost B cfg w (accepted B tid ⟨threadInit tid {}, w⟩ evs)
      (run B tid ⟨threadInit tid {}, w⟩ (evs ++ [fini])) := by
  rw [along_append, along_cons] at hev
  have hstart : Recording B cfg w ⟨threadInit tid {}, w⟩ [] none [] :=
    ⟨coherent_init B tid w, fun _ => rfl, fitted_of_none rfl, .nil, fun _ => .of_eq rfl rfl⟩
  obtain ⟨⟨frags, cur, h⟩, hown⟩ := recording_run hB hstart (Session.owned_start {} tid hw)
    hev.1 hinit
  obtain ⟨hheap, hbuf⟩ := fini_heap (B := B) h.coherent.initd h.coherent.stack hfini hown
  obtain ⟨frags', cur', h'⟩ := h.step hB hev.2.1 (by simp [hfini])
  rw [run_append, run_cons, run_nil]
  have hcur : cur' = none := by
    cases cur' with
    | none => rfl
    | some rs =>
        have hsome := (h'.coherent.current rs rfl).holds.isSome
        rw [hbuf] at hsome
        cases hsome
  subst hcur
  refine ⟨⟨frags', h'.coherent.closed, ?_, fun hwrites => ?_⟩, hheap⟩
  · simpa [accepted, hfini] using h'.records
  · have hbal := h'.balanced hwrites
    rw [Balanced, h'.coherent.closed, List.length_append, List.length_map] at hbal
    omega

/-- An init of a writer with a buffer leaves that buffer allocated. -/
theorem leak_of_harmful (hw : w.HeapOk) (hfini : fini.op = .fini) {evs : List Event}
    (hev : Along (step B tid) (fun s ev => (step B tid s ev).th.stackSize < 2 ^ 31)
      ⟨threadInit tid {}, w⟩ (evs ++ [fini]))
    (hinit : ¬ Along (step B tid) Event.Harmless ⟨threadInit tid {}, w⟩ evs) :
    w.heap.length < (run B tid ⟨threadInit tid {}, w⟩ (evs ++ [fini])).world.heap.length := by
  simp only [Along, Event.Harmless, not_forall] at hinit
  obtain ⟨pre, ev, post, rfl, hop, hbuf⟩ := hinit
  rw [along_append, along_append, along_cons] at hev
  obtain ⟨⟨hpre, hstep, hpost⟩, -⟩ := hev
  have hco := coherent_init B tid w
  obtain ⟨hi₁, hwf₁, H₁, h₁, hle₁⟩ := owned_grows hco.initd hco.stack
    (Session.owned_start {} tid hw) hpre
  have h₂ : (step B tid (run B tid ⟨threadInit tid {}, w⟩ pre) ev).session.Owned _ :=
    owned_init hi₁ hop h₁
  obtain ⟨hi₂, hwf₂⟩ := step_stackWf hi₁ hwf₁ hstep
  obtain ⟨hi₃, hwf₃, H₃, h₃, hle₃⟩ := owned_grows hi₂ hwf₂ h₂ hpost
  obtain ⟨hheap, -⟩ := fini_heap (B := B) hi₃ hwf₃ hfini h₃
  rw [run_append, run_cons, run_nil, run_append, run_cons, hheap]
  have hpos : 0 < (run B tid ⟨threadInit tid {}, w⟩ pre).th.writer.blocks.length := blocks_pos hbuf
  have hle₁ : w.heap.length ≤ H₁.length := hle₁
  rw [List.length_append] at hle₃
  omega

end

/-- A run that ends with `coldtrace_thread_fini`, without failures and with
records that fit, loses nothing exactly when each of its inits meets a writer
without a buffer. -/
theorem nothing_lost_iff (B : Build) (hB : B.Lawful) (tid : Nat) (cfg : Config) (w : World)
    (hw : w.HeapOk) (evs : List Event) (fini : Event) (hfini : fini.op = .fini)
    (hev : Along (step B tid) (fun s ev => ev.Lossless B tid cfg s) { world := w }
      (evs ++ [fini])) :
    NothingLost B cfg w (accepted B tid { world := w } evs)
        (run B tid { world := w } (evs ++ [fini])) ↔
      Along (step B tid) Event.Harmless { world := w } evs := by
  have hlossless : ∀ ev : Event, ev.Lossless B tid cfg { world := w } ↔
      ev.Lossless B tid cfg ⟨threadInit tid {}, w⟩ := by
    intro ev
    have hstep : step B tid ⟨threadInit tid {}, w⟩ ev = step B tid { world := w } ev :=
      step_lazy B tid {} w ev
    constructor
    · exact fun h => ⟨h.cfg_eq, h.outcomes, hstep ▸ h.small, h.fits⟩
    · exact fun h => ⟨h.cfg_eq, h.outcomes, hstep ▸ h.small, h.fits⟩
  have hrun : run B tid { world := w } (evs ++ [fini]) =
      run B tid ⟨threadInit tid {}, w⟩ (evs ++ [fini]) := by
    cases evs with
    | nil => exact run_fresh B tid w fini []
    | cons ev evs => exact run_fresh B tid w ev (evs ++ [fini])
  have hharmless : Along (step B tid) Event.Harmless { world := w } evs ↔
      Along (step B tid) Event.Harmless ⟨threadInit tid {}, w⟩ evs := along_fresh fun ev => Iff.rfl
  have haccepted : accepted B tid { world := w } evs = accepted B tid ⟨threadInit tid {}, w⟩ evs :=
    (accepted_lazy B tid {} w evs).symm
  rw [along_fresh hlossless] at hev
  rw [hrun, hharmless, haccepted]
  constructor
  · intro h
    by_contra hno
    have hleak := leak_of_harmful hw hfini (fun pre ev post heq => (hev pre ev post heq).small) hno
    rw [h.released] at hleak
    exact absurd hleak (Nat.lt_irrefl _)
  · exact nothing_lost_of_harmless hB hw hfini hev

/-- A thread that is initialised before its first entry. -/
theorem nothing_lost_init_first :
    let cfg : Config := { traceSize := 64 }
    let e : Entry := { type := .write, ptr := 5 }
    let evs : List Event := [{ cfg, op := .init }, { cfg, op := .append e }]
    accepted literalBuild 3 {} evs = [e] ∧
      NothingLost literalBuild cfg {} [e]
        (run literalBuild 3 {} (evs ++ [{ cfg, op := .fini }])) := by
  intro cfg e evs
  have hno : ({} : Outcomes).NoFailure :=
    ⟨rfl, rfl, rfl, rfl, fun _ => rfl, rfl, rfl, by decide, rfl⟩
  have hheap : ({} : World).HeapOk := ⟨by simp, List.nodup_nil, rfl⟩
  have hacc : accepted literalBuild 3 {} evs = [e] := by decide
  have hev : Along (step literalBuild 3) (fun s ev => ev.Lossless literalBuild 3 cfg s) {}
      (evs ++ [{ cfg, op := .fini }]) := by
    refine along_cons.mpr
      ⟨⟨rfl, hno, by decide, by simp⟩, along_cons.mpr ⟨⟨rfl, hno, by decide, ?_⟩,
      along_cons.mpr ⟨⟨rfl, hno, by decide, by simp⟩, along_nil⟩⟩⟩
    rintro e' he
    cases he
    decide
  have hinit : Along (step literalBuild 3) Event.Harmless {} evs :=
    along_cons.mpr ⟨fun _ => rfl, along_cons.mpr ⟨by simp [Event.Harmless], along_nil⟩⟩
  refine ⟨hacc, hacc ▸ ?_⟩
  exact (nothing_lost_iff literalBuild literalBuild_lawful 3 cfg {} hheap evs
    { cfg, op := .fini } rfl hev).mpr hinit

/-- A thread that appends an entry before it is initialised: the entry is
accepted, but no page is handed over, and both buffers stay allocated. -/
theorem lost_by_late_init :
    let cfg : Config := { traceSize := 64 }
    let e : Entry := { type := .write, ptr := 5 }
    let evs : List Event := [{ cfg, op := .append e }, { cfg, op := .init }]
    let s := run literalBuild 3 {} (evs ++ [{ cfg, op := .fini }])
    accepted literalBuild 3 {} evs = [e] ∧ s.world.closed = [] ∧
      s.world.heap = [⟨0, .mmap 64⟩, ⟨1, .malloc⟩] := by
  decide

end Coldtrace
