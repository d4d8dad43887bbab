import Mathlib.Tactic.Common
import Coldtrace.Lib.Runs
import Coldtrace.Writer
import Coldtrace.Reserve
import Coldtrace.Thread
import Coldtrace.Session
import Coldtrace.Stack
import Coldtrace.Reader
import Coldtrace.Records
import Coldtrace.Fragments
import Coldtrace.Appending
import Coldtrace.Coherence
import Coldtrace.SelfContained
import Coldtrace.RoundTrip
import Coldtrace.Files

/-!
# What a writer leaves behind

A writer can fail in several places and cleans up differently in each.  When a
`write` fails the file is removed.  When the page is not compressed or the file
is not opened, the file is left as it is.  That is an older fragment, or none,
except at the first flush: `first_fragment_` created the file 0, and it is still
empty.  The dumper rejects an empty file.

So the files of a writer that failed or is finalised are complete as long as its
first flush gets to its `write`.
-/

namespace Coldtrace

open Runs

/-! ## Threads as sessions -/

/-- The writer of a thread and its world. -/
def State.session (s : State) : Session := ⟨s.th.writer, s.world⟩

/-- The call of the writer that a step of the thread makes.  After a reservation
it stores into the block it got. -/
def State.call (s : State) (ev : Event) : Option WriterCall :=
  match ev.op with
  | .append e =>
      if s.th.failed then none else some (.reserve (appendRequest ev.cfg s.th e.byte))
  | .fini => some .fini
  | _ => none

/-- The writer that a step of the thread flushes, if it flushes. -/
def State.flushing (B : Build) (s : State) (ev : Event) : Option WriterImpl :=
  (s.call ev).bind fun call => s.session.flushing B ⟨ev.cfg, ev.o, call⟩

/-- What a step of a thread is for its writer. -/
theorem step_session (B : Build) (tid : Nat) {s : State} (hi : s.th.initd = true)
    (hwf : s.th.StackWf) {ev : Event} (hop : ev.op ≠ .init) :
    (s.call ev = none ∧ (step B tid s ev).session = s.session) ∨
      ∃ call, s.call ev = some call ∧
        ((step B tid s ev).session = s.session.step B ⟨ev.cfg, ev.o, call⟩ ∨
          ∃ offset bs, (step B tid s ev).session =
            (s.session.step B ⟨ev.cfg, ev.o, call⟩).step B ⟨ev.cfg, ev.o, .store offset bs⟩) := by
  obtain ⟨cfg, o, op⟩ := ev
  cases op with
  | init => exact absurd rfl hop
  | push caller =>
      have hmove := (threadStackPush_spec tid o hi hwf caller).move hwf
      exact .inl ⟨rfl, congrArg (Session.mk · s.world) hmove.writer⟩
  | pop =>
      obtain ⟨-, hmove, -⟩ := threadStackPop_spec tid hi hwf
      exact .inl ⟨rfl, congrArg (Session.mk · s.world) hmove.writer⟩
  | fini =>
      refine .inr ⟨.fini, rfl, .inl ?_⟩
      simp only [step, threadFini_eq B tid o s.world hi, State.session, Session.step]
  | append e =>
      cases hf : s.th.failed with
      | true =>
          refine .inl ⟨by simp only [State.call, hf, if_true], ?_⟩
          simp only [step, subscriberAppend_failed B tid cfg o hi hf e]
      | false =>
          refine .inr ⟨.reserve (appendRequest cfg s.th e.byte),
            by simp only [State.call, hf, Bool.false_eq_true, if_false], ?_⟩
          simp only [step, subscriberAppend_eq B tid cfg o hi hf hwf e, Session.step, State.session,
            hwf.appendRequest_eq cfg e]
          generalize writerReserve B cfg o s.th.writer s.world _ = result
          obtain ⟨off, impl, w⟩ := result
          cases off with
          | none => exact .inl rfl
          | some off => exact .inr ⟨off, _, rfl⟩

/-! ## Writers without files -/

/-- The writer has a buffer that is not for files. -/
structure Session.Unmapped (s : Session) : Prop where
  initd : s.impl.initd = true
  failed : s.impl.failed = false
  buffer : s.impl.buffer.isSome = true
  mmapped : s.impl.mmapped = false

section

variable {B : Build} {cfg : Config} {o : Outcomes}

theorem flush_unmapped {impl : WriterImpl} (w : World) {b : Buffer} (hb : impl.buffer = some b)
    (hm : impl.mmapped = false) :
    flush B o impl w = (impl, { w with closed := w.closed ++ [b.mem.load 0 impl.offset] }) := by
  simp only [flush, hb, hm, Bool.not_false, if_true]

theorem not_isNone {impl : WriterImpl} (h : impl.buffer.isSome = true) :
    ¬ impl.buffer.isNone = true := by
  simpa [Option.isSome_iff_ne_none, Option.isNone_iff_eq_none] using h

theorem newTrace_unmapped (B : Build) (cfg : Config) (o : Outcomes) {s : Session}
    (h : s.Unmapped) :
    Session.Unmapped ⟨(newTrace B cfg o s.impl s.world).1, (newTrace B cfg o s.impl s.world).2⟩ ∧
      (newTrace B cfg o s.impl s.world).2.dir = s.world.dir := by
  obtain ⟨hi, hf, hb, hm⟩ := h
  obtain ⟨b, hsome⟩ := Option.isSome_iff_exists.mp hb
  have hadv := advanceFragment_spec cfg o s.impl
    { s.world with closed := s.world.closed ++ [b.mem.load 0 s.impl.offset] }
  simp only [newTrace, flush_unmapped s.world hsome hm, if_neg (not_isNone hb)]
  refine ⟨⟨hadv.initd.trans hi, hadv.failed.trans hf, ?_, hadv.mmapped.trans hm⟩, hadv.dir⟩
  simpa [beginFragment] using hadv.isSome.trans hb

/-- The rest of a reservation once there is a buffer that is not for files. -/
theorem reserve_unmapped {impl : WriterImpl} {w : World} {s : Session} (size : Nat)
    (hens : ensureBuffer B cfg o impl w = (true, s.impl, s.world)) (h : s.Unmapped) :
    Session.Unmapped ⟨(writerReserve B cfg o impl w size).2.1,
      (writerReserve B cfg o impl w size).2.2⟩ ∧
      (writerReserve B cfg o impl w size).2.2.dir = s.world.dir := by
  simp only [writerReserve, hens]
  split
  next =>
    obtain ⟨⟨hi, hf, hb, hm⟩, hdir⟩ := newTrace_unmapped B cfg o h
    generalize newTrace B cfg o s.impl s.world = result at hi hf hb hm hdir
    simp only [if_neg (not_isNone hb)]
    exact ⟨⟨hi, hf, hb, hm⟩, hdir⟩
  next => exact ⟨⟨h.initd, h.failed, h.buffer, h.mmapped⟩, rfl⟩

/-- What `ensure_buffer_` can do with writes disabled. -/
inductive EnsuredUnmapped (w : World) : Bool × WriterImpl × World → Prop where
  | failed {impl' : WriterImpl} : impl'.Broken → EnsuredUnmapped w (false, impl', w)
  | pending {impl' : WriterImpl} : impl'.initd = true → impl'.failed = false →
      impl'.buffer = none → EnsuredUnmapped w (false, impl', w)
  | fresh {impl' : WriterImpl} {w' : World} : Session.Unmapped ⟨impl', w'⟩ → w'.dir = w.dir →
      EnsuredUnmapped w (true, impl', w')

theorem ensureBuffer_unmapped (B : Build) (o : Outcomes) {impl : WriterImpl} (w : World)
    (hw : cfg.writesDisabled = true) (hi : impl.initd = true) (hf : impl.failed = false)
    (hb : impl.buffer = none) : EnsuredUnmapped w (ensureBuffer B cfg o impl w) := by
  rw [ensureBuffer, if_neg (by simp [hi]), if_neg (by simp [hf]), if_neg (by simp [hb])]
  dsimp only
  split
  next => exact .failed ⟨rfl, hb⟩
  next =>
    split
    next => exact .pending hi hf rfl
    next id w₁ ha => exact .fresh ⟨hi, hf, rfl, rfl⟩ (alloc_spec ha).2.2

end

/-! ## Complete files -/

/-- Every file is the image of a page handed over after the first `n`, of a size
that `flush_` does not truncate. -/
def AllImages (B : Build) (n : Nat) (d : Disk) : Prop :=
  ∀ i ∈ d.dir.names, ∃ page ∈ d.closed.drop n, page.length < 2 ^ 32 + sizeofVersionHeader ∧
    IsImage B page (d.dir.content i)

/-- What is asked of a step that flushes a writer, when `closed` are the pages
handed over before.  The page has a size that `flush_` does not truncate, and
the first flush compresses its page and opens its file. -/
def FlushSound (B : Build) (n : Nat) (closed : List (List UInt8)) (impl : WriterImpl)
    (o : Outcomes) : Prop :=
  impl.offset < 2 ^ 32 + sizeofVersionHeader ∧ (closed.length = n → impl.opens B o = true)

theorem AllImages.close {B : Build} {n : Nat} {d : Disk} (h : AllImages B n d)
    (hn : n < d.closed.length) (page : List UInt8) (calls : List FsCall) :
    AllImages B n ⟨d.dir, d.closed ++ [page], calls⟩ := by
  intro i hi
  obtain ⟨page', hmem, hlen, himage⟩ := h i hi
  refine ⟨page', ?_, hlen, himage⟩
  rw [List.drop_append_of_le_length (Nat.le_of_lt hn)]
  exact List.mem_append_left _ hmem

/-- The rule for complete files.  The file of the first fragment is empty while
it is filled. -/
theorem complete_rule (B : Build) (N : UInt32) (n : Nat) :
    DiskRule B N (FlushSound B n) (fun d => d.dir.names = [] ∧ d.closed.length = n)
      (fun d i => d.closed.length = n ∧ (∀ j ∈ d.dir.names, j = i) ∨
        n < d.closed.length ∧ AllImages B n d)
      (fun d _ => n < d.closed.length ∧ AllImages B n d) (AllImages B n) where
  empty := fun d h => h.1
  refuse := by
    rintro d calls ⟨hnames, -⟩ - i hi
    rw [hnames] at hi
    cases hi
  claim := by
    rintro d ⟨hnames, hlen⟩
    refine .inl ⟨hlen, fun j hj => ?_⟩
    simpa [mem_names_openEmpty, hnames] using hj
  write := by
    rintro d impl o page file hfilling ⟨hsize, -⟩ hpage himage
    have hlen : n ≤ d.closed.length := by
      rcases hfilling with ⟨hlen, -⟩ | ⟨hlt, -⟩ <;> omega
    have hdrop : (d.closed ++ [page]).drop n = d.closed.drop n ++ [page] :=
      List.drop_append_of_le_length hlen
    refine ⟨by rw [List.length_append]; exact Nat.lt_succ_of_le hlen, fun i hi => ?_⟩
    simp only [hdrop, content_put, content_openEmpty]
    rw [hpage] at hsize
    by_cases hin : i = impl.enumerator
    · exact ⟨page, by simp, hsize, by rwa [if_pos hin]⟩
    · have hold : i ∈ d.dir.names := by
        rcases mem_names_openEmpty.mp hi with hold | heq
        · exact hold
        · exact absurd heq hin
      rcases hfilling with ⟨-, honly⟩ | ⟨-, hall⟩
      · exact absurd (honly i hold) hin
      · obtain ⟨page', hmem, hlen', himage'⟩ := hall i hold
        exact ⟨page', List.mem_append_left _ hmem, hlen', by rwa [if_neg hin, if_neg hin]⟩
  fail := by
    rintro d impl o page calls hfilling hopens ⟨-, hfirst⟩ -
    rcases hfilling with ⟨hlen, -⟩ | ⟨hlt, hall⟩
    · rw [hfirst hlen] at hopens
      cases hopens
    · exact hall.close hlt page calls
  remove := by
    rintro d impl o page dir' hfilling - - hnames hcontent i hi
    obtain ⟨hold, hne⟩ := (hnames i).mp hi
    rcases hfilling with ⟨-, honly⟩ | ⟨hlt, hall⟩
    · exact absurd (honly i hold) hne
    · obtain ⟨page', hmem, hlen, himage⟩ := hall.close hlt page d.calls i hold
      exact ⟨page', hmem, hlen, by rwa [hcontent i hne]⟩
  next := fun d i h => .inr h
  finish := fun d i h => h.2
  idle_ended := by
    rintro d ⟨hnames, -⟩ i hi
    rw [hnames] at hi
    cases hi

/-! ## Sessions -/

/-- The phases of `complete_rule`, or a writer without files. -/
def Session.Kept (B : Build) (n : Nat) (s : Session) : Prop :=
  s.Phase (fun d => d.dir.names = [] ∧ d.closed.length = n)
      (fun d i => d.closed.length = n ∧ (∀ j ∈ d.dir.names, j = i) ∨
        n < d.closed.length ∧ AllImages B n d) (AllImages B n) ∨
    s.Unmapped ∧ s.world.dir.names = []

theorem allImages_of_names {B : Build} {n : Nat} {d : Disk} (h : d.dir.names = []) :
    AllImages B n d := by
  intro i hi
  rw [h] at hi
  cases hi

section

variable {B : Build} {n : Nat} {s : Session} {ev : WriterEvent}

/-- A call of a writer without files. -/
theorem Session.Unmapped.step (h : s.Unmapped) (hnames : s.world.dir.names = [])
    (ev : WriterEvent) : (s.step B ev).Kept B n := by
  obtain ⟨cfg, o, call⟩ := ev
  obtain ⟨hi, hf, hb, hm⟩ := h
  cases call with
  | store offset bs =>
      exact .inr ⟨⟨hi, hf, by simpa [Session.step, WriterImpl.store] using hb, hm⟩, hnames⟩
  | reserve size =>
      obtain ⟨h', hdir⟩ := reserve_unmapped size (ensureBuffer_kept (B := B) (o := o) hi hf hb)
        ⟨hi, hf, hb, hm⟩
      exact .inr ⟨h', by rw [← hnames, ← hdir]; rfl⟩
  | fini =>
      obtain ⟨b, hsome⟩ := Option.isSome_iff_exists.mp hb
      obtain ⟨-, -, -, hdir⟩ := releaseBuffers_spec s.impl
        { s.world with closed := s.world.closed ++ [b.mem.load 0 s.impl.offset] }
      have hfini : writerFini B o s.impl s.world =
          ({ (releaseBuffers s.impl { s.world with
              closed := s.world.closed ++ [b.mem.load 0 s.impl.offset] }).1 with initd := false },
            (releaseBuffers s.impl { s.world with
              closed := s.world.closed ++ [b.mem.load 0 s.impl.offset] }).2) := by
        simp only [writerFini, hi, hb, Bool.not_true, Bool.false_eq_true, if_false, if_true,
          flush_unmapped s.world hsome hm]
      simp only [Session.step, hfini]
      refine .inl (.ended (.inr rfl) (releaseBuffers_spec ..).1 (allImages_of_names ?_))
      rw [World.disk, hdir]
      exact hnames

/-- A call keeps the files complete. -/
theorem Session.Kept.step (h : s.Kept B n)
    (hflush : ∀ impl, s.flushing B ev = some impl → impl.mmapped = true →
      FlushSound B n s.world.closed impl ev.o) : (s.step B ev).Kept B n := by
  rcases h with hphase | ⟨hun, hnames⟩
  · by_cases hacq : s.Acquires ev ∧ ev.cfg.writesDisabled = true
    · obtain ⟨⟨⟨size, hcall⟩, hi, hf, hb⟩, hw⟩ := hacq
      obtain ⟨cfg, o, call⟩ := ev
      obtain rfl : call = .reserve size := hcall
      have hidle : s.world.dir.names = [] ∧ s.world.closed.length = n := by
        cases hphase with
        | idle _ _ _ h => exact h
        | filling _ _ _ hsome _ =>
            rw [hb] at hsome
            cases hsome
        | ended hover _ _ =>
            rw [hi, hf] at hover
            rcases hover with hover | hover <;> cases hover
      have hens := ensureBuffer_unmapped B o s.world hw hi hf hb
      generalize hres : ensureBuffer B cfg o s.impl s.world = result at hens
      cases hens with
      | @failed impl' hbr =>
          have hrefused : writerReserve B cfg o s.impl s.world size = (none, impl', s.world) := by
            simp only [writerReserve, hres]
          simp only [Session.step, hrefused]
          exact .inl (.ended (.inl hbr.failed) hbr.buffer (allImages_of_names hidle.1))
      | @pending impl' hi' hf' hb' =>
          have hrefused : writerReserve B cfg o s.impl s.world size = (none, impl', s.world) := by
            simp only [writerReserve, hres]
          simp only [Session.step, hrefused]
          exact .inl (.idle hi' hf' hb' hidle)
      | @fresh impl' w' hun hdir =>
          obtain ⟨h', hdir'⟩ := reserve_unmapped (s := ⟨impl', w'⟩) size hres hun
          exact .inr ⟨h', by rw [← hidle.1, ← hdir, ← hdir']; rfl⟩
    · refine .inl ((complete_rule B ev.cfg.maxFileCount n).step hphase ?_ rfl hflush)
      intro h
      simpa using fun hw => hacq ⟨h, hw⟩
  · exact hun.step hnames ev

end

/-! ## Threads -/

section

variable {B : Build} {tid n : Nat}

/-- What is asked of a step of a thread: if it flushes a page to a file, the flush
is sound. -/
def Event.Sound (B : Build) (n : Nat) (s : State) (ev : Event) : Prop :=
  ∀ impl, s.flushing B ev = some impl → impl.mmapped = true →
    FlushSound B n s.world.closed impl ev.o

theorem kept_step (tid : Nat) {s : State} {ev : Event} (hi : s.th.initd = true) (hwf : s.th.StackWf)
    (hop : ev.op ≠ .init) (h : s.session.Kept B n) (hsound : ev.Sound B n s) :
    (step B tid s ev).session.Kept B n := by
  rcases step_session B tid hi hwf hop with ⟨-, heq⟩ | ⟨call, hcall, hstep⟩
  · rw [heq]
    exact h
  · have hreserve : (s.session.step B ⟨ev.cfg, ev.o, call⟩).Kept B n := by
      refine h.step fun impl hflush => hsound impl ?_
      rw [State.flushing, hcall]
      exact hflush
    rcases hstep with heq | ⟨offset, bs, heq⟩
    · rw [heq]
      exact hreserve
    · rw [heq]
      exact hreserve.step fun impl hflush => by cases hflush

/-- Every state of a run in which all flushes are sound has only complete files
or is filling its first fragment. -/
theorem kept_run : ∀ (evs : List Event) {s : State} {before : List (List UInt8)}
    {frags : List (List Record)} {cur : Option (List Record)},
    Coherent B before s frags cur → s.session.Kept B n → (∀ ev ∈ evs, ev.op ≠ .init) →
    Throughout (step B tid) (fun s => s.th.stackSize < 2 ^ 31) s evs →
    Along (step B tid) (fun s ev => ev.Sound B n s) s evs →
    (run B tid s evs).session.Kept B n
  | [], s, before, frags, cur, _, hk, _, _, _ => hk
  | ev :: evs, s, before, frags, cur, h, hk, hops, hframes, hsound => by
      rw [List.forall_mem_cons] at hops
      rw [throughout_cons] at hframes
      rw [along_cons] at hsound
      obtain ⟨frags₁, cur₁, h₁, -⟩ := h.step hops.1 hframes.2.start
      have hk₁ := kept_step tid h.initd h.stack hops.1 hk hsound.1
      exact kept_run evs h₁ hk₁ hops.2 hframes.2 hsound.2

/-- The dumper decompresses the image of a page. -/
theorem decompress_of_image (hB : B.Lawful) {rs : List Record} {file : List UInt8}
    (hlen : (pageOf B rs).length < 2 ^ 32 + sizeofVersionHeader)
    (h : IsImage B (pageOf B rs) file) :
    decompress B lz4MaxInputSize file = .ok (pageOf B rs) := by
  have hle : (recordsBytes rs).length ≤ lz4MaxInputSize := by
    obtain ⟨-, -, hmod, -⟩ := h
    rw [length_pageOf] at hlen hmod
    rw [Nat.add_sub_cancel_left, Nat.mod_eq_of_lt (by omega)] at hmod
    exact hmod
  exact decompress_image hB h hle hle

end

/-- A writer that failed or is finalised leaves only complete fragments, in every
run whose flushes are sound: each file is a version header, a size and an LZ4
block, and the dumper decodes the files without an error. -/
theorem leaves_complete_fragments (B : Build) (hB : B.Lawful) (tid : Nat) (w : World)
    (hdir : w.dir.names = []) (init : Event) (hinit : init.op = .init) (evs : List Event)
    (hops : ∀ ev ∈ evs, ev.op ≠ .init)
    (hframes : ∀ pre, pre <+: evs →
      (run B tid { world := w } (init :: pre)).th.stackSize < 2 ^ 31)
    (hsound : ∀ pre ev post, evs = pre ++ ev :: post →
      ev.Sound B w.closed.length (run B tid { world := w } (init :: pre))) :
    let s := run B tid { world := w } (init :: evs)
    s.th.writer.failed = true ∨ s.th.writer.initd = false →
    (∀ i ∈ s.world.dir.names, ∃ rs block, (∃ stack, Chain [] rs stack) ∧
      s.world.dir.content i = fragmentImage B (recordsBytes rs).length block ∧
      B.blockDecompress block (recordsBytes rs).length = .ok (recordsBytes rs)) ∧
    ∀ (tid' : Nat) (stack : List Nat) (files : List (List UInt8)),
      (∀ file ∈ files, ∃ i ∈ s.world.dir.names, file = s.world.dir.content i) →
      ∃ es stack', TraceReader.entries { tid := tid' } B stack files = (es, .finished stack') := by
  intro s hended
  have hstart : run B tid { world := w } [init] = ⟨threadInit tid {}, w⟩ := by
    rw [run_cons, run_nil, step, hinit]
  have hcons : ∀ pre, run B tid { world := w } (init :: pre) =
      run B tid ⟨threadInit tid {}, w⟩ pre := by
    intro pre
    rw [← hstart, ← run_append]
    rfl
  simp only [hcons] at hframes hsound
  have hcoherent := coherent_init B tid w
  obtain ⟨frags, cur, h, -⟩ := coherent_run tid evs hcoherent hops hframes
  have hkept : s.session.Kept B w.closed.length := by
    rw [show s = _ from hcons evs]
    exact kept_run evs hcoherent (.inl (.idle rfl rfl rfl ⟨hdir, rfl⟩)) hops hframes hsound
  rw [← hcons evs] at h
  have hall : AllImages B w.closed.length s.world.disk := by
    rcases hkept with hphase | ⟨hun, hnames⟩
    · cases hphase with
      | idle hi hf _ _ | filling hi hf _ _ _ =>
          rw [show s.th.writer.initd = true from hi,
            show s.th.writer.failed = false from hf] at hended
          rcases hended with hended | hended <;> cases hended
      | ended _ _ h => exact h
    · exact allImages_of_names hnames
  have hfiles : ∀ i ∈ s.world.dir.names, ∃ rs, (∃ stack, Chain [] rs stack) ∧
      (pageOf B rs).length < 2 ^ 32 + sizeofVersionHeader ∧
      IsImage B (pageOf B rs) (s.world.dir.content i) := by
    intro i hi
    obtain ⟨page, hpage, hlen, himage⟩ := hall i hi
    rw [show s.world.disk.closed = _ from h.closed, List.drop_left] at hpage
    obtain ⟨rs, hrs, rfl⟩ := List.mem_map.mp hpage
    exact ⟨rs, h.sound rs hrs, hlen, himage⟩
  refine ⟨fun i hi => ?_, fun tid' stack files hmem => ?_⟩
  · obtain ⟨rs, hsound, hlen, block, cap, -, hblock, himage⟩ := hfiles i hi
    have hraw : (pageOf B rs).length - sizeofVersionHeader = (recordsBytes rs).length := by
      rw [length_pageOf, Nat.add_sub_cancel_left]
    have hsrc : (pageOf B rs).drop sizeofVersionHeader = recordsBytes rs := by
      rw [pageOf, List.drop_left' B.length_versionHeader]
    rw [hraw] at himage
    rw [length_pageOf] at hlen
    rw [hraw, hsrc, Nat.mod_eq_of_lt (by omega), List.take_length] at hblock
    exact ⟨rs, block, hsound, himage, hB.inverse _ _ _ hblock⟩
  · obtain ⟨stack', hentries⟩ := entries_eq_flatMap { tid := tid' } B files stack (by
      intro file hfile
      obtain ⟨i, hi, rfl⟩ := hmem file hfile
      obtain ⟨rs, hsound, hlen, himage⟩ := hfiles i hi
      exact ⟨rs, hsound, decompress_of_image hB hlen himage⟩)
    exact ⟨_, stack', hentries⟩

/-- An entry is appended and the thread is finished. -/
theorem leaves_complete_fragments_write :
    let cfg : Config := { traceSize := 64 }
    let evs : List Event :=
      [{ cfg, op := .append { type := .write, ptr := 5 } }, { cfg, op := .fini }]
    let s := run literalBuild 3 {} (⟨cfg, {}, .init⟩ :: evs)
    s.world.dir.names = [0] ∧ ∀ i ∈ s.world.dir.names, ∃ rs block,
      (∃ stack, Chain [] rs stack) ∧
      s.world.dir.content i = fragmentImage literalBuild (recordsBytes rs).length block ∧
      literalBuild.blockDecompress block (recordsBytes rs).length = .ok (recordsBytes rs) := by
  intro cfg evs s
  have hsound : ∀ pre ev post, evs = pre ++ ev :: post →
      ev.Sound literalBuild 0 (run literalBuild 3 {} (⟨cfg, {}, .init⟩ :: pre)) := by
    rintro (_ | ⟨e₁, _ | ⟨e₂, pre⟩⟩) ev post heq impl hflush -
    · obtain ⟨rfl, -⟩ := List.cons.inj heq
      have hnone : ((run literalBuild 3 {} [⟨cfg, {}, .init⟩]).flushing literalBuild
          { cfg, op := .append { type := .write, ptr := 5 } }).isSome = false := by decide
      rw [hflush] at hnone
      cases hnone
    · obtain ⟨rfl, hrest⟩ := List.cons.inj heq
      obtain ⟨rfl, -⟩ := List.cons.inj hrest
      have himpl := hflush.symm.trans (if_pos (by decide))
      obtain rfl := Option.some.inj himpl
      exact ⟨by decide, fun _ => by decide⟩
    · have hlen := congrArg List.length heq
      simp [evs] at hlen
  have hframes : ∀ pre, pre <+: evs →
      (run literalBuild 3 {} (⟨cfg, {}, .init⟩ :: pre)).th.stackSize < 2 ^ 31 := by
    intro pre hpre
    rw [← List.mem_inits] at hpre
    revert pre
    decide
  refine ⟨by decide, (leaves_complete_fragments literalBuild literalBuild_lawful 3 {} rfl
    ⟨cfg, {}, .init⟩ rfl evs (by simp [evs]) hframes hsound (.inr (by decide))).1⟩

/-- The first flush cannot compress its page, or cannot open its file: the file 0
stays, it is empty, and the dumper rejects it. -/
theorem leaves_empty_fragment :
    let cfg : Config := { traceSize := 64 }
    let write : Event := { cfg, op := .append { type := .write, ptr := 5 } }
    (∀ o ∈ [({ compress := false } : Outcomes), { openTrunc := false }],
      let s := run literalBuild 3 {} [⟨cfg, {}, .init⟩, write, ⟨cfg, o, .fini⟩]
      s.th.writer.failed = true ∧ s.th.writer.initd = false ∧ s.world.dir.names = [0] ∧
        s.world.dir.content 0 = []) ∧
    decompress literalBuild lz4MaxInputSize [] = .error
      (.traceDump 0 (.truncatedVersionHeader 0)) :=
  ⟨by decide, rfl⟩

end Coldtrace
