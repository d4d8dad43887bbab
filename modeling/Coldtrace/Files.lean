import Mathlib.Tactic.Common
import Coldtrace.Lib.Runs
import Coldtrace.Writer
import Coldtrace.Reserve
import Coldtrace.Session

/-!
# What a writer does to its files

`Reserve` says what the writer's functions do to pages.  This module says what
they do to the files and which calls of the file system they make, for a writer
with writes enabled.

`flush_` writes the file of its number, or leaves the files as they are, or
removes the file of its number (`FlushedTo`).  `ensure_buffer_` in an empty
directory claims the file 0, which stays empty until the first flush
(`ensureBuffer_claims`).

A session with writes enabled is in one of three phases: it has no buffer yet,
it fills a fragment, or it is over.  `DiskRule` is the induction rule for what
holds of the files in each of them.
-/

namespace Coldtrace

open Runs

/-! ## File system calls -/

/-- The call writes a file. -/
def FsCall.isWrite : FsCall → Bool
  | .write _ => true
  | _ => false

/-- The number of the file a call is about. -/
def FsCall.number : FsCall → Nat
  | .openExcl n => n
  | .openTrunc n => n
  | .write n => n
  | .unlink n => n

/-- How many fragments were written. -/
def World.flushes (w : World) : Nat := w.calls.countP FsCall.isWrite

theorem release_calls (w : World) (id : Nat) (source : Source) :
    (w.release id source).calls = w.calls := by
  rw [World.release]
  split <;> rfl

theorem releaseBuffers_calls (impl : WriterImpl) (w : World) :
    (releaseBuffers impl w).2.calls = w.calls := by
  cases hb : impl.buffer <;> cases hc : impl.compBuf <;>
    simp [releaseBuffers, hb, hc, release_calls]

theorem alloc_calls {w w' : World} {ok : Bool} {n id : Nat} {source : Source}
    (h : w.alloc ok n source = some (id, w')) : w'.calls = w.calls := by
  rw [World.alloc] at h
  split at h
  next =>
    cases h
    rfl
  next => cases h

theorem advanceFragment_calls (cfg : Config) (o : Outcomes) (impl : WriterImpl) (w : World) :
    (advanceFragment cfg o impl w).2.calls = w.calls := by
  rw [advanceFragment]
  split
  next =>
    split
    next => rfl
    next =>
      split
      next =>
        split
        next => rfl
        next ha => exact (release_calls ..).trans (alloc_calls ha)
      next => rfl
  next => rfl

/-! ## Flushing -/

/-- The flush of a writer gets as far as its `write`: the page is compressed and
the file is opened. -/
def WriterImpl.opens (B : Build) (o : Outcomes) (impl : WriterImpl) : Bool :=
  match impl.buffer with
  | some b =>
      o.compress && (compressRaw B b.mem (impl.offset - sizeofVersionHeader) impl.size).isSome &&
        o.openTrunc
  | none => false

theorem WriterImpl.opens_eq_false {B : Build} {o : Outcomes} {impl : WriterImpl} {b : Buffer}
    (hb : impl.buffer = some b)
    (h : (if o.compress then compressRaw B b.mem (impl.offset - sizeofVersionHeader) impl.size
      else none) = none) : impl.opens B o = false := by
  simp only [WriterImpl.opens, hb]
  split at h
  next => simp [h]
  next hc => simp [hc]

theorem WriterImpl.opens_eq {B : Build} {o : Outcomes} {impl : WriterImpl} {b : Buffer}
    {block : List UInt8} (hb : impl.buffer = some b)
    (h : (if o.compress then compressRaw B b.mem (impl.offset - sizeofVersionHeader) impl.size
      else none) = some block) : impl.opens B o = o.openTrunc := by
  simp only [WriterImpl.opens, hb]
  split at h
  next hc => simp [h, hc]
  next => cases h

/-- What `flush_` can do to the files. -/
inductive FlushedTo (B : Build) (o : Outcomes) (impl : WriterImpl) (w : World)
    (page : List UInt8) : WriterImpl × World → Prop where
  | written {w' : World} {file : List UInt8} : impl.opens B o = true → IsImage B page file →
      w'.closed = w.closed ++ [page] →
      w'.dir = (w.dir.openEmpty impl.enumerator).put impl.enumerator file →
      w'.calls = w.calls ++ [.openTrunc impl.enumerator, .write impl.enumerator] →
      FlushedTo B o impl w page (impl, w')
  /-- The page is not compressed or the file is not opened. -/
  | unopened {impl' : WriterImpl} {w' : World} : impl.opens B o = false → impl'.Broken →
      impl'.initd = impl.initd → w'.closed = w.closed ++ [page] → w'.dir = w.dir →
      (w'.calls = w.calls ∨ o.openTrunc = false ∧
        w'.calls = w.calls ++ [.openTrunc impl.enumerator]) →
      FlushedTo B o impl w page (impl', w')
  /-- The file is not written, and removed. -/
  | removed {impl' : WriterImpl} {w' : World} : WriteResult.error ∈ o.writes → impl'.Broken →
      impl'.initd = impl.initd → w'.closed = w.closed ++ [page] →
      (∀ n, n ∈ w'.dir.names ↔ n ∈ w.dir.names ∧ n ≠ impl.enumerator) →
      (∀ n, n ≠ impl.enumerator → w'.dir.content n = w.dir.content n) →
      w'.calls = w.calls ++
        [.openTrunc impl.enumerator, .write impl.enumerator, .unlink impl.enumerator] →
      FlushedTo B o impl w page (impl', w')

section

variable {B : Build} {cfg : Config} {o : Outcomes} {impl : WriterImpl} {w : World}
  {page : List UInt8}

/-- What `fail_` leaves. -/
theorem fail_elim {P : WriterImpl × World → Prop} (impl : WriterImpl) (w : World)
    (h : ∀ impl' w', impl'.Broken → impl'.initd = impl.initd → w'.closed = w.closed →
      w'.dir = w.dir → w'.calls = w.calls → P (impl', w')) : P (fail impl w) := by
  obtain ⟨hbr, hi, hc, hd⟩ := fail_spec impl w
  exact h _ _ hbr hi hc hd (releaseBuffers_calls impl w)

theorem flush_files (B : Build) (o : Outcomes) (w : World) (hm : impl.mmapped = true)
    (h : impl.Holds page) : FlushedTo B o impl w page (flush B o impl w) := by
  obtain ⟨b, hb, hpage⟩ := h
  simp only [flush, hb, hm, Bool.not_true, Bool.false_eq_true, if_false]
  rw [hpage]
  split
  next hnone =>
    exact fail_elim impl _ fun _ _ hbr hi hc hd hcalls =>
      .unopened (WriterImpl.opens_eq_false hb hnone) hbr hi hc hd (.inl hcalls)
  next block hblock =>
    have hopens : impl.opens B o = o.openTrunc := WriterImpl.opens_eq hb hblock
    split
    next hopen =>
      have hopen : o.openTrunc = false := by simpa using hopen
      exact fail_elim impl _ fun _ _ hbr hi hc hd hcalls =>
        .unopened (hopens.trans hopen) hbr hi hc hd (.inr ⟨hopen, hcalls⟩)
    next hopen =>
      have hopen : o.openTrunc = true := by simpa using hopen
      split
      next hok =>
        have hcomp : compressRaw B b.mem (impl.offset - sizeofVersionHeader) impl.size =
            some block := (Option.ite_none_right_eq_some.mp hblock).2
        refine .written (hopens.trans hopen) (compressRaw_image hpage hcomp) rfl ?_ ?_
        · rw [writeAll_of_ok _ _ hok]
          rfl
        · simp [World.called]
      next hno =>
        have herr : WriteResult.error ∈ o.writes := by
          by_contra hnot
          exact hno (writeAll_ok _ _ hnot)
        refine fail_elim impl _ fun _ _ hbr hi hc hd hcalls =>
          .removed herr hbr hi hc (fun n => ?_) (fun n hn => ?_) ?_
        · rw [hd]
          simp only [World.called, Dir.unlink, List.mem_filter, decide_eq_true_eq]
          change n ∈ (w.dir.openEmpty impl.enumerator).names ∧ _ ↔ _
          rw [mem_names_openEmpty]
          tauto
        · rw [hd]
          simp only [World.called, Dir.unlink, content_put, content_openEmpty, if_neg hn]
        · rw [hcalls]
          simp [World.called]

/-! ## The first fragment -/

/-- What `ensure_buffer_` can do in an empty directory. -/
inductive Claimed (B : Build) (w : World) : Bool × WriterImpl × World → Prop where
  | broken {impl' : WriterImpl} {w' : World} : impl'.Broken → impl'.initd = true →
      w'.closed = w.closed → w'.dir = w.dir →
      (w'.calls = w.calls ∨ w'.calls = w.calls ++ [.openExcl 0]) →
      Claimed B w (false, impl', w')
  /-- The file 0 is claimed.  It stays empty until the first flush. -/
  | claimed {impl' : WriterImpl} {w' : World} : impl'.initd = true → impl'.failed = false →
      impl'.mmapped = true → impl'.Holds B.versionHeader → impl'.enumerator = 0 →
      w'.closed = w.closed → w'.dir = w.dir.openEmpty 0 → w'.calls = w.calls ++ [.openExcl 0] →
      Claimed B w (true, impl', w')

theorem ensureBuffer_claims (B : Build) (o : Outcomes) (hw : cfg.writesDisabled = false)
    (hi : impl.initd = true) (hf : impl.failed = false) (hb : impl.buffer = none)
    (hd : w.dir.names = []) : Claimed B w (ensureBuffer B cfg o impl w) := by
  rw [ensureBuffer, if_neg (by simp [hi]), if_neg (by simp [hf]), if_neg (by simp [hb])]
  dsimp only
  split
  next => exact .broken ⟨rfl, hb⟩ hi rfl rfl (.inl rfl)
  next =>
  rw [if_neg (by simp [hw])]
  split
  next => exact .broken ⟨rfl, rfl⟩ hi rfl rfl (.inl rfl)
  next id w₁ ha =>
    obtain ⟨-, hc₁, hd₁⟩ := alloc_spec ha
    have hcalls₁ := alloc_calls ha
    split
    next =>
      exact fail_elim (P := fun r => Claimed B w (false, r)) _ w₁ fun _ _ hbr hi' hc hd' hcalls =>
        .broken hbr (hi'.trans hi) (hc.trans hc₁) (hd'.trans hd₁) (.inl (hcalls.trans hcalls₁))
    next cid w₂ hm =>
      obtain ⟨-, hc₂, hd₂⟩ := alloc_spec hm
      have hdir : w₂.dir = w.dir := hd₂.trans hd₁
      have hclosed : w₂.closed = w.closed := hc₂.trans hc₁
      have hcalls₂ : w₂.calls = w.calls := (alloc_calls hm).trans hcalls₁
      rw [show (2 : Nat) ^ 32 = 4294967295 + 1 from rfl, firstFragment]
      simp only [World.called, Dir.has, hdir, hd, List.not_mem_nil, decide_false,
        Bool.false_eq_true, if_false, hcalls₂]
      cases hopen : o.openExcl 0 with
      | false =>
          simp only [Bool.not_false, if_true]
          exact fail_elim (P := fun r => Claimed B w (false, r)) _ _
            fun _ _ hbr hi' hc hd' hcalls =>
              .broken hbr (hi'.trans hi) (hc.trans hclosed) hd' (.inr hcalls)
      | true =>
          simp only [Bool.not_true, Bool.false_eq_true, if_false]
          exact .claimed hi hf rfl (holds_beginFragment B rfl) rfl hclosed rfl rfl

end

/-! ## Phases -/

/-- The part of the world that the files and the pages are in. -/
structure Disk where
  dir : Dir
  closed : List (List UInt8)
  calls : List FsCall

def World.disk (w : World) : Disk := ⟨w.dir, w.closed, w.calls⟩

/-- The writer that a call flushes, if it flushes. -/
def Session.flushing (B : Build) (s : Session) (ev : WriterEvent) : Option WriterImpl :=
  match ev.call with
  | .reserve size =>
      let ensured := ensureBuffer B ev.cfg ev.o s.impl s.world
      if ensured.1 && writerNewTrace ev.cfg ensured.2.1 size then some ensured.2.1 else none
  | .fini => if s.impl.initd && s.impl.buffer.isSome then some s.impl else none
  | .store _ _ => none

theorem Session.flushing_reserve {B : Build} {s : Session} {cfg : Config} {o : Outcomes}
    {impl : WriterImpl} {w : World} {size : Nat}
    (hens : ensureBuffer B cfg o s.impl s.world = (true, impl, w))
    (hnew : writerNewTrace cfg impl size = true) :
    s.flushing B ⟨cfg, o, .reserve size⟩ = some impl := by
  simp only [Session.flushing, hens, hnew, Bool.and_self, if_true]

/-- The call is to get the writer its buffer. -/
def Session.Acquires (s : Session) (ev : WriterEvent) : Prop :=
  (∃ size, ev.call = .reserve size) ∧ s.impl.initd = true ∧ s.impl.failed = false ∧
    s.impl.buffer = none

/-- What holds of the disk in each phase of a session: before the first buffer,
while the fragment with a number is filled, once it is written, and in the
end.  `P` is what is known of a call that flushes a writer, with the pages handed
over before. -/
structure DiskRule (B : Build) (N : UInt32) (P : List (List UInt8) → WriterImpl → Outcomes → Prop)
    (idle : Disk → Prop) (filling written : Disk → Nat → Prop) (ended : Disk → Prop) : Prop where
  empty : ∀ d, idle d → d.dir.names = []
  refuse : ∀ d calls, idle d → (calls = d.calls ∨ calls = d.calls ++ [.openExcl 0]) →
    ended ⟨d.dir, d.closed, calls⟩
  claim : ∀ d, idle d → filling ⟨d.dir.openEmpty 0, d.closed, d.calls ++ [.openExcl 0]⟩ 0
  write : ∀ d impl o page file, filling d impl.enumerator → P d.closed impl o →
    impl.offset = page.length → IsImage B page file →
    written ⟨(d.dir.openEmpty impl.enumerator).put impl.enumerator file, d.closed ++ [page],
      d.calls ++ [.openTrunc impl.enumerator, .write impl.enumerator]⟩ impl.enumerator
  fail : ∀ d impl o page calls, filling d impl.enumerator → impl.opens B o = false →
    P d.closed impl o →
    (calls = d.calls ∨
      o.openTrunc = false ∧ calls = d.calls ++ [.openTrunc impl.enumerator]) →
    ended ⟨d.dir, d.closed ++ [page], calls⟩
  remove : ∀ d impl o page dir', filling d impl.enumerator → WriteResult.error ∈ o.writes →
    P d.closed impl o → (∀ m, m ∈ dir'.names ↔ m ∈ d.dir.names ∧ m ≠ impl.enumerator) →
    (∀ m, m ≠ impl.enumerator → dir'.content m = d.dir.content m) →
    ended ⟨dir', d.closed ++ [page], d.calls ++
      [.openTrunc impl.enumerator, .write impl.enumerator, .unlink impl.enumerator]⟩
  next : ∀ d n, written d n → filling d ((n + 1) % 2 ^ 32 % N.toNat)
  finish : ∀ d n, written d n → ended d
  idle_ended : ∀ d, idle d → ended d

/-- The phase a session is in. -/
inductive Session.Phase (idle : Disk → Prop) (filling : Disk → Nat → Prop) (ended : Disk → Prop)
    (s : Session) : Prop where
  | idle : s.impl.initd = true → s.impl.failed = false → s.impl.buffer = none →
      idle s.world.disk → Phase idle filling ended s
  | filling : s.impl.initd = true → s.impl.failed = false → s.impl.mmapped = true →
      s.impl.buffer.isSome = true → filling s.world.disk s.impl.enumerator →
      Phase idle filling ended s
  | ended : s.impl.failed = true ∨ s.impl.initd = false → s.impl.buffer = none →
      ended s.world.disk → Phase idle filling ended s

section

variable {B : Build} {N : UInt32} {P : List (List UInt8) → WriterImpl → Outcomes → Prop}
  {idle ended : Disk → Prop} {filling written : Disk → Nat → Prop}

theorem releaseBuffers_disk (impl : WriterImpl) (w : World) :
    (releaseBuffers impl w).2.disk = w.disk := by
  obtain ⟨-, -, hc, hd⟩ := releaseBuffers_spec impl w
  rw [World.disk, hc, hd, releaseBuffers_calls]
  rfl

/-- Where the flush of a writer leads. -/
inductive FlushPhase (written : Disk → Nat → Prop) (ended : Disk → Prop) (impl : WriterImpl) :
    WriterImpl × World → Prop where
  | written {w' : World} : written w'.disk impl.enumerator →
      FlushPhase written ended impl (impl, w')
  | ended {impl' : WriterImpl} {w' : World} : impl'.Broken → impl'.initd = impl.initd →
      ended w'.disk → FlushPhase written ended impl (impl', w')

theorem DiskRule.flush (hr : DiskRule B N P idle filling written ended) {impl : WriterImpl}
    {w : World} {o : Outcomes} (hm : impl.mmapped = true) (hb : impl.buffer.isSome = true)
    (h : filling w.disk impl.enumerator) (hP : P w.closed impl o) :
    FlushPhase written ended impl (flush B o impl w) := by
  obtain ⟨b, hb⟩ := Option.isSome_iff_exists.mp hb
  have hholds : impl.Holds (b.mem.load 0 impl.offset) := ⟨b, hb, rfl⟩
  have hflush := flush_files B o w hm hholds
  generalize Coldtrace.flush B o impl w = result at hflush
  cases hflush with
  | @written w' file _ hfile hc hd hcalls =>
      refine .written ?_
      rw [World.disk, hc, hd, hcalls]
      exact hr.write _ _ _ _ _ h hP hholds.offset_eq hfile
  | @unopened impl' w' hopens hbr hi hc hd hcalls =>
      refine .ended hbr hi ?_
      rw [World.disk, hc, hd]
      exact hr.fail _ _ _ _ _ h hopens hP hcalls
  | @removed impl' w' herr hbr hi hc hnames hcontent hcalls =>
      refine .ended hbr hi ?_
      rw [World.disk, hc, hcalls]
      exact hr.remove _ _ _ _ _ h herr hP hnames hcontent

/-- The rest of a reservation once there is a buffer. -/
theorem DiskRule.reserve (hr : DiskRule B N P idle filling written ended) {cfg : Config}
    {o : Outcomes} {impl impl₁ : WriterImpl} {w w₁ : World} {size : Nat} (hN : cfg.maxFileCount = N)
    (hens : ensureBuffer B cfg o impl w = (true, impl₁, w₁)) (hi : impl₁.initd = true)
    (hf : impl₁.failed = false) (hm : impl₁.mmapped = true) (hb : impl₁.buffer.isSome = true)
    (h : filling w₁.disk impl₁.enumerator)
    (hP : writerNewTrace cfg impl₁ size = true → P w₁.closed impl₁ o) :
    Session.Phase idle filling ended ⟨(writerReserve B cfg o impl w size).2.1,
      (writerReserve B cfg o impl w size).2.2⟩ := by
  simp only [writerReserve, hens]
  split
  next hnew =>
    have hflush := hr.flush hm hb h (hP hnew)
    rw [newTrace]
    generalize Coldtrace.flush B o impl₁ w₁ = result at hflush
    cases hflush with
    | @written w' hw =>
        have hsome : ¬ impl₁.buffer.isNone = true := by
          simpa [Option.isSome_iff_ne_none, Option.isNone_iff_eq_none] using hb
        have hadv : advanceFragment cfg o impl₁ w' = ({ impl₁ with
            enumerator := (impl₁.enumerator + 1) % 2 ^ 32 % cfg.maxFileCount.toNat }, w') := by
          simp [advanceFragment, hm]
        simp only [if_neg hsome, hadv, beginFragment, Option.isNone_map]
        refine .filling hi hf hm (by simpa using hb) ?_
        have hnext := hr.next _ _ hw
        rw [← hN] at hnext
        exact hnext
    | @ended impl' w' hbr hi' ho =>
        simp only [hbr.buffer, Option.isNone_none, if_true]
        exact .ended (.inl hbr.failed) hbr.buffer ho
  next => exact .filling hi hf hm hb h

/-- A call keeps the phases. -/
theorem DiskRule.step (hr : DiskRule B N P idle filling written ended) {s : Session}
    {ev : WriterEvent} (h : s.Phase idle filling ended)
    (hw : s.Acquires ev → ev.cfg.writesDisabled = false) (hN : ev.cfg.maxFileCount = N)
    (hP : ∀ impl, s.flushing B ev = some impl → impl.mmapped = true →
      P s.world.closed impl ev.o) :
    (s.step B ev).Phase idle filling ended := by
  obtain ⟨cfg, o, call⟩ := ev
  cases call with
  | store offset bs =>
      cases h with
      | idle hi hf hb hd => exact .idle hi hf (by simp [Session.step, WriterImpl.store, hb]) hd
      | filling hi hf hm hb hd =>
          exact .filling hi hf hm (by simpa [Session.step, WriterImpl.store] using hb) hd
      | ended ho hb hd => exact .ended ho (by simp [Session.step, WriterImpl.store, hb]) hd
  | reserve size =>
      have hflushing : ∀ {impl₁ w₁}, ensureBuffer B cfg o s.impl s.world = (true, impl₁, w₁) →
          w₁.closed = s.world.closed → impl₁.mmapped = true →
          writerNewTrace cfg impl₁ size = true → P w₁.closed impl₁ o := by
        intro impl₁ w₁ hens hc hm hnew
        rw [hc]
        exact hP impl₁ (Session.flushing_reserve hens hnew) hm
      cases h with
      | idle hi hf hb hd =>
          have hw := hw ⟨⟨size, rfl⟩, hi, hf, hb⟩
          have hclaim := ensureBuffer_claims B o hw hi hf hb (hr.empty _ hd)
          generalize hens : ensureBuffer B cfg o s.impl s.world = result at hclaim
          cases hclaim with
          | @broken impl' w' hbr hi' hc hd' hcalls =>
              have hres : writerReserve B cfg o s.impl s.world size = (none, impl', w') := by
                simp only [writerReserve, hens]
              simp only [Session.step, hres]
              refine .ended (.inl hbr.failed) hbr.buffer ?_
              rw [World.disk, hc, hd']
              exact hr.refuse _ _ hd hcalls
          | @claimed impl' w' hi' hf' hm hholds hn hc hd' hcalls =>
              refine hr.reserve hN hens hi' hf' hm hholds.isSome ?_ (hflushing hens hc hm)
              rw [World.disk, hn, hc, hd', hcalls]
              exact hr.claim _ hd
      | filling hi hf hm hb hd =>
          have hens : ensureBuffer B cfg o s.impl s.world = (true, s.impl, s.world) :=
            ensureBuffer_kept hi hf hb
          exact hr.reserve hN hens hi hf hm hb hd (hflushing hens rfl hm)
      | ended ho hb hd =>
          have hres := Session.reserve_refused B cfg o s.world size ho
          simp only [Session.step, hres]
          exact .ended ho hb hd
  | fini =>
      have hfinal : ∀ {impl : WriterImpl} {w : World}, ended w.disk →
          Session.Phase idle filling ended
            ⟨{ (releaseBuffers impl w).1 with initd := false }, (releaseBuffers impl w).2⟩ := by
        intro impl w ho
        refine .ended (.inr rfl) (releaseBuffers_spec impl w).1 ?_
        rw [releaseBuffers_disk]
        exact ho
      have hnobuf : s.impl.initd = true → s.impl.buffer = none → ended s.world.disk →
          (s.step B ⟨cfg, o, .fini⟩).Phase idle filling ended := by
        intro hi hb hd
        simp only [Session.step, writerFini, hi, hb, Bool.not_true, Bool.false_eq_true, if_false,
          Option.isSome_none]
        exact hfinal hd
      cases h with
      | idle hi hf hb hd => exact hnobuf hi hb (hr.idle_ended _ hd)
      | filling hi hf hm hb hd =>
          have hflush := hr.flush hm hb hd (hP s.impl (by simp [Session.flushing, hi, hb]) hm)
          simp only [Session.step, writerFini, hi, hb, Bool.not_true, Bool.false_eq_true, if_false,
            if_true]
          generalize Coldtrace.flush B o s.impl s.world = result at hflush
          cases hflush with
          | written hw => exact hfinal (hr.finish _ _ hw)
          | ended _ _ ho => exact hfinal ho
      | ended ho hb hd =>
          cases hi : s.impl.initd with
          | true => exact hnobuf hi hb hd
          | false =>
              simp only [Session.step, writerFini, hi, Bool.not_false, if_true]
              exact .ended ho hb hd

/-- The phases of a session, from the state after `coldtrace_writer_init` on. -/
theorem DiskRule.run (hr : DiskRule B N P idle filling written ended) {s : Session}
    (h : s.Phase idle filling ended) (evs : List WriterEvent)
    (hcfg : ∀ ev ∈ evs, ev.cfg.writesDisabled = false ∧ ev.cfg.maxFileCount = N)
    (hP : Along (Session.step B)
      (fun s ev => ∀ impl, s.flushing B ev = some impl → P s.world.closed impl ev.o) s evs) :
    (s.run B evs).Phase idle filling ended := by
  induction evs generalizing s with
  | nil => exact h
  | cons ev evs ih =>
      rw [List.forall_mem_cons] at hcfg
      rw [along_cons] at hP
      exact ih (hr.step h (fun _ => hcfg.1.1) hcfg.1.2 fun impl hfl _ => hP.1 impl hfl) hcfg.2 hP.2

end

end Coldtrace
