import Mathlib.Data.List.Basic
import Mathlib.Data.List.Perm.Basic
import Mathlib.Tactic.Common
import Coldtrace.Lib.Machine
import Coldtrace.Lib.Keyed
import Coldtrace.Entries
import Coldtrace.Writer
import Coldtrace.Reserve
import Coldtrace.Thread
import Coldtrace.Stack
import Coldtrace.Reader
import Coldtrace.Records
import Coldtrace.Fragments
import Coldtrace.Appending
import Coldtrace.Coherence
import Coldtrace.RoundTrip
import Coldtrace.Reinit
import Coldtrace.Subscribers
import Coldtrace.Indexes
import Coldtrace.Calls
import Coldtrace.Recorder

/-!
# The dumps of a process

Any number of threads run at the same time, and each of them finishes.  What is
asked of a run (`Act.Undisturbed`, and the hypotheses of the results):

* all calls see one configuration, with writes enabled and a trace size that LZ4
  takes, and LZ4 does what it documents (`Build.Lawful`);
* no system call and no allocation fails;
* no thread is used after its end, and none that was used before gets
  EVENT_THREAD_START;
* every record fits a fragment, with the stack of its thread;
* whoever frees has a caller that is not 0;
* a thread closes fewer fragments than the maximal number of files.

Then the dumper reports for each thread the entries that its subscribers left in
the log, in order and with the stack of the thread (`dump_reports`).  The dumps
of all threads together have every index of the counters once, and along a
thread they ascend (`dumps_complete`).  So whoever merges the dumps by index
gets back the order in which the indexes were drawn.
-/

namespace Coldtrace

open Keyed

/-! ## Runs that nothing disturbs -/

/-- What is asked of an act: no system call fails, the thread is not finished, it
was not used before its EVENT_THREAD_START, the largest record fits a fragment
with the stack of the thread, and a call that frees has a caller. -/
structure Act.Undisturbed (cfg : Config) (s : Recorder) (a : Act) : Prop where
  cfg_eq : a.cfg = cfg
  appends : ∀ k, (a.appends k).NoFailure
  others : a.others.NoFailure
  alive : ∀ ev ∈ s.calls a.tid, ev.op ≠ .fini
  starts : ∀ n, a.what = .notice n → n.first ≠ [] → s.calls a.tid = []
  room : sizeofVersionHeader +
    (40 + 8 * (framesAfter ((s.calls a.tid).map Event.op)).length) ≤ cfg.traceSize
  caller : ∀ n, a.what = .notice n → n.HasCaller

/-- The recorders that undisturbed acts lead to. -/
inductive Recorder.Undisturbed (B : Build) (cfg : Config) : Recorder → Prop where
  | start : Undisturbed B cfg {}
  | step {s s' : Recorder} {a : Act} : Undisturbed B cfg s → a.Undisturbed cfg s →
      s.step B a = some s' → Undisturbed B cfg s'

/-- The entry of a call that appends. -/
def Op.entry? : Op → Option Entry
  | .append e => some e
  | _ => none

section

variable {B : Build} {cfg : Config} {tid : Nat} {o : Outcomes} {evs : List Event}

theorem traced_append (tid : Nat) (frames : List Nat) (ops ops' : List Op) :
    traced tid frames (ops ++ ops') =
      traced tid frames ops ++
        traced tid (ops.foldl (fun frames op => op.frames frames) frames) ops' := by
  induction ops generalizing frames with
  | nil => rfl
  | cons op ops ih =>
      rw [List.cons_append, traced_cons, ih, traced_cons tid frames op ops, List.append_assoc]
      rfl

/-- An entry that fits a fragment is accepted in a run without failures. -/
theorem Filed.accepts {before : List (List UInt8)} {s : State} {frags : List (List Record)}
    {cur : Option (List Record)} {e : Entry} (hB : B.Lawful) (h : Coherent B before s frags cur)
    (hfl : Filed B cfg s frags cur) (ho : o.NoFailure) (hw : cfg.writesDisabled = false)
    (hmax : cfg.traceSize ≤ lz4MaxInputSize)
    (hfit : sizeofVersionHeader + (e.type.space +
      if e.type.hasStack then 8 * s.th.frames.length else 0) ≤ cfg.traceSize) :
    (threadAppend B tid cfg o s.th s.world e.byte e.ptr).1.isSome = true := by
  rw [threadAppend_fst B tid cfg o s.world h.initd hfl.failed h.stack e]
  obtain ⟨impl, w, hens, ⟨-, hsize, hpage⟩, -⟩ := hfl.ensured h ho hw (by omega) hmax
  obtain ⟨h₁, -, -⟩ := h.ensured hens
  have hholds : impl.Holds (pageOf B (cur.getD [])) := (h₁.current _ rfl).holds
  rcases writerReserve_spec B cfg o s.th.writer s.world
    (s.th.record h.stack cfg e).bytes.length with ⟨_, _, hno, -⟩ | ⟨_, _, hens', hres⟩
  · rw [hens] at hno
    cases hno
  · rw [hens] at hens'
    cases hens'
    have hplaced := hres _ hholds
    generalize writerReserve B cfg o s.th.writer s.world _ = result at hplaced
    dsimp only at hsize
    cases hplaced with
    | inPage => rfl
    | rolled => rfl
    | broken _ hnt hbr _ _ =>
        have hok := newTrace_ok cfg w hB ho hholds (by omega) (by omega)
        rw [hnt] at hok
        exact absurd hbr hok

/-- The thread as its next call finds it. -/
def State.woken (tid : Nat) (s : State) : State := ⟨getColdtraceThread tid s.th, s.world⟩

/-- A thread that made some calls in a run that nothing disturbs. -/
structure Live (B : Build) (cfg : Config) (tid : Nat) (evs : List Event) : Prop where
  tracing : ∃ frags cur, Tracing B cfg tid [] ((run B tid {} evs).woken tid)
    (framesAfter (evs.map Event.op)) (traced tid [] (evs.map Event.op)) frags cur
  complete : accepted B tid {} evs = (evs.map Event.op).filterMap Op.entry?
  alive : ∀ ev ∈ evs, ev.op ≠ .fini

theorem live_nil (B : Build) (cfg : Config) (tid : Nat) : Live B cfg tid [] where
  tracing := ⟨[], none, coherent_init B tid {}, ⟨rfl, by simp, fun _ => ⟨rfl, rfl, rfl, rfl⟩,
    fun _ hn => (nomatch hn), fun hn => (nomatch hn)⟩, rfl, rfl, by simp⟩
  complete := rfl
  alive _ h := nomatch h

theorem live_init (B : Build) (cfg : Config) (tid : Nat) (o : Outcomes) :
    Live B cfg tid [⟨cfg, o, .init⟩] where
  tracing := (live_nil B cfg tid).tracing
  complete := rfl
  alive := by simp

/-- A call of a thread in a run that nothing disturbs. -/
theorem Live.call (hB : B.Lawful) (hw : cfg.writesDisabled = false)
    (hmax : cfg.traceSize ≤ lz4MaxInputSize) (h : Live B cfg tid evs) (ho : o.NoFailure) {op : Op}
    (hop : op.Traceable cfg (framesAfter (evs.map Event.op))) :
    accepted B tid (run B tid {} evs) [⟨cfg, o, op⟩] = op.entry?.toList ∧
      Live B cfg tid (evs ++ [⟨cfg, o, op⟩]) := by
  obtain ⟨frags, cur, htracing⟩ := h.tracing
  obtain ⟨frags', cur', hnext⟩ := htracing.step hB hw hmax ho hop
  have hstep : step B tid ((run B tid {} evs).woken tid) ⟨cfg, o, op⟩ =
      run B tid {} (evs ++ [⟨cfg, o, op⟩]) := by
    rw [run_append]
    exact step_lazy ..
  have haccepted : accepted B tid (run B tid {} evs) [⟨cfg, o, op⟩] = op.entry?.toList := by
    rw [← accepted_lazy]
    cases op with
    | append e =>
        have hfits := (hop.entry e rfl).fits
        rw [← htracing.frames_eq] at hfits
        have hsome : (threadAppend B tid cfg o ((run B tid {} evs).woken tid).th
            ((run B tid {} evs).woken tid).world e.byte e.ptr).1.isSome = true :=
          htracing.filed.accepts hB htracing.coherent ho hw hmax hfits
        simp only [State.woken] at hsome
        simp [accepted, hsome, Op.entry?]
    | _ => rfl
  refine ⟨haccepted, ⟨frags', cur', ?_⟩, ?_, ?_⟩
  · have hwoken : (run B tid {} (evs ++ [⟨cfg, o, op⟩])).woken tid =
        run B tid {} (evs ++ [⟨cfg, o, op⟩]) := by
      rw [← hstep, State.woken, getColdtraceThread_of_initd hnext.coherent.initd]
    rw [hwoken, ← hstep, List.map_append, framesAfter_append, traced_append]
    exact hnext
  · rw [accepted_append, h.complete, haccepted, List.map_append, List.filterMap_append]
    cases op <;> rfl
  · intro ev hev
    rcases List.mem_append.mp hev with hmem | hmem
    · exact h.alive ev hmem
    · rw [List.mem_singleton.mp hmem]
      exact hop.ne_fini

/-- All entries of a subscriber are accepted. -/
theorem Live.appendAll (hB : B.Lawful) (hw : cfg.writesDisabled = false)
    (hmax : cfg.traceSize ≤ lz4MaxInputSize) {o : Nat → Outcomes} (ho : ∀ k, (o k).NoFailure)
    {es : List Entry} (h : Live B cfg tid evs)
    (hes : ∀ e ∈ es, Op.Traceable cfg (framesAfter (evs.map Event.op)) (.append e)) (k : Nat) :
    accepted B tid (run B tid {} evs)
        (attempts B tid cfg o k (run B tid {} evs) es) = es ∧
      Live B cfg tid (evs ++ attempts B tid cfg o k (run B tid {} evs) es) := by
  induction es generalizing evs k with
  | nil =>
      rw [attempts, List.append_nil]
      exact ⟨rfl, h⟩
  | cons e es ih =>
      rw [List.forall_mem_cons] at hes
      obtain ⟨hone, hlive⟩ := h.call hB hw hmax (ho k) hes.1
      have hsome : (threadAppend B tid cfg (o k) (run B tid {} evs).th (run B tid {} evs).world
          e.byte e.ptr).1.isSome = true := by
        by_contra hnone
        simp [accepted, hnone, Op.entry?] at hone
      have hframes : framesAfter ((evs ++ [(⟨cfg, o k, .append e⟩ : Event)]).map Event.op) =
          framesAfter (evs.map Event.op) := by
        rw [List.map_append, framesAfter_append]
        rfl
      have hrun : run B tid {} (evs ++ [⟨cfg, o k, .append e⟩]) =
          step B tid (run B tid {} evs) ⟨cfg, o k, .append e⟩ := run_append ..
      obtain ⟨hrest, hlive'⟩ := ih hlive (hframes ▸ hes.2) (k + 1)
      rw [hrun] at hrest hlive'
      rw [attempts, if_pos hsome]
      rw [List.append_assoc] at hlive'
      refine ⟨?_, hlive'⟩
      rw [accepted]
      dsimp only
      rw [if_pos hsome, hrest, List.singleton_append]

/-- A thread that finished in a run that nothing disturbs. -/
def Finished (B : Build) (cfg : Config) (tid : Nat) (evs : List Event) : Prop :=
  ∃ evs₀ o, evs = evs₀ ++ [⟨cfg, o, .fini⟩] ∧ o.NoFailure ∧ Live B cfg tid evs₀

/-- The dumper reports what a thread appended. -/
theorem Finished.entries (hB : B.Lawful) (hmax : cfg.traceSize ≤ lz4MaxInputSize)
    (h : Finished B cfg tid evs)
    (hfrags : (run B tid {} evs).world.closed.length < cfg.maxFileCount.toNat) :
    ∃ stack, ({ tid } : TraceReader).entries B []
        (discoverTraceFiles (run B tid {} evs).world.dir) =
      (traced tid [] (evs.map Event.op), .finished stack) := by
  obtain ⟨evs₀, o, rfl, ho, hlive⟩ := h
  obtain ⟨frags, cur, hco, hfl, -, hlog, hzero⟩ := hlive.tracing
  have hrun : run B tid {} (evs₀ ++ [⟨cfg, o, .fini⟩]) =
      step B tid ((run B tid {} evs₀).woken tid) ⟨cfg, o, .fini⟩ := by
    rw [run_append]
    exact (step_lazy B tid (run B tid {} evs₀).th (run B tid {} evs₀).world ⟨cfg, o, .fini⟩).symm
  have htraced : traced tid [] ((evs₀ ++ [(⟨cfg, o, .fini⟩ : Event)]).map Event.op) =
      traced tid [] (evs₀.map Event.op) := by
    rw [List.map_append, traced_append]
    exact List.append_nil _
  rw [hrun] at hfrags ⊢
  rw [htraced]
  generalize (run B tid {} evs₀).woken tid = s at hco hfl hfrags
  have hclosed := (hco.fini tid o).closed
  have hsound := (hco.fini tid o).sound
  simp only [step] at hfrags ⊢
  dsimp only at hclosed
  rw [hclosed, List.nil_append, List.length_map] at hfrags
  obtain ⟨hnames, himage⟩ := hfl.fini tid hB hco ho hmax hfrags
  have hpages : ∀ rs ∈ frags ++ cur.toList, (recordsBytes rs).length ≤ lz4MaxInputSize := by
    intro rs hrs
    have hle : (pageOf B rs).length ≤ cfg.traceSize := by
      rcases List.mem_append.mp hrs with hmem | hmem
      · exact hfl.pages_le rs hmem
      · exact (hfl.buffered rs (Option.mem_toList.mp hmem)).page_le
    rw [length_pageOf] at hle
    omega
  rw [discoverTraceFiles_range hnames]
  obtain ⟨hdec, hentries⟩ := flatMap_readFile hB { tid } himage hsound hzero hpages rfl
  obtain ⟨stack, hstack⟩ := entries_eq_flatMap { tid } B _ [] hdec
  refine ⟨stack, hstack.trans ?_⟩
  rw [hentries, ← hlog]

/-! ## A process -/

/-- What holds of the recorder in a run that nothing disturbs. -/
structure Recorder.Sound (B : Build) (cfg : Config) (s : Recorder) : Prop where
  consistent : s.Consistent B
  desk : Machine.Reach Desk.step Publication.Appends {} s.desk
  kept : ∀ tid, Live B cfg tid (s.calls tid) ∨ Finished B cfg tid (s.calls tid)

theorem Finished.fini_mem (h : Finished B cfg tid evs) : ∃ ev ∈ evs, ev.op = .fini := by
  obtain ⟨evs₀, o, rfl, -, -⟩ := h
  exact ⟨_, List.mem_append_right _ (List.mem_singleton_self _), rfl⟩

variable {s s' : Recorder} {a : Act} {n : Notice}

theorem Notice.appends_iff {tid : Nat} {ok : Nat → Bool} :
    (n.publication tid ok).Appends ↔ ∀ k, ok k = true := by
  cases n <;> rfl

/-- The calls of one thread do not disturb the others. -/
theorem Recorder.Sound.perform (h : s.Sound B cfg) {desk : Desk}
    (hconsistent : (s.perform B tid evs desk).Consistent B)
    (hdesk : Machine.Reach Desk.step Publication.Appends {} desk)
    (hself : Live B cfg tid (s.calls tid ++ evs) ∨ Finished B cfg tid (s.calls tid ++ evs)) :
    (s.perform B tid evs desk).Sound B cfg := by
  refine ⟨hconsistent, hdesk, fun tid' => ?_⟩
  by_cases heq : tid' = tid
  · subst heq
    rw [s.perform_calls_self]
    exact hself
  · rw [s.perform_calls_of_ne _ _ _ heq]
    exact h.kept tid'

theorem Recorder.Sound.live (h : s.Sound B cfg) (ha : a.Undisturbed cfg s) :
    Live B cfg a.tid (s.calls a.tid) := by
  rcases h.kept a.tid with hlive | hfinished
  · exact hlive
  · obtain ⟨ev, hmem, hfini⟩ := hfinished.fini_mem
    exact absurd hfini (ha.alive ev hmem)

/-- Entering and leaving a function. -/
theorem Recorder.Sound.moves (hB : B.Lawful) (hw : cfg.writesDisabled = false)
    (hmax : cfg.traceSize ≤ lz4MaxInputSize) (h : s.Sound B cfg) (ha : a.Undisturbed cfg s)
    {op : Op} (hop : op.Traceable cfg (framesAfter ((s.calls a.tid).map Event.op)))
    (hconsistent : (s.perform B a.tid (a.calls [op]) s.desk).Consistent B) :
    (s.perform B a.tid (a.calls [op]) s.desk).Sound B cfg := by
  refine h.perform hconsistent h.desk (.inl ?_)
  rw [Act.calls, ha.cfg_eq]
  exact ((h.live ha).call hB hw hmax ha.others hop).2

/-- The thread is ready for the appends of a subscriber. -/
theorem Recorder.Sound.first (h : s.Sound B cfg) (ha : a.Undisturbed cfg s)
    (hwhat : a.what = .notice n) :
    Live B cfg a.tid (s.calls a.tid ++ a.calls n.first) ∧
      framesAfter ((s.calls a.tid ++ a.calls n.first).map Event.op) =
        framesAfter ((s.calls a.tid).map Event.op) := by
  by_cases hfirst : n.first = []
  · rw [hfirst, Act.calls, List.map_nil, List.append_nil]
    exact ⟨h.live ha, rfl⟩
  · rw [ha.starts n hwhat hfirst, List.nil_append]
    have hinit : n.first = [.init] := by
      unfold Notice.first at hfirst ⊢
      split at hfirst
      next => rfl
      next => exact absurd rfl hfirst
    rw [hinit, Act.calls, ha.cfg_eq]
    exact ⟨live_init B cfg a.tid a.others, rfl⟩

theorem Notice.last_cases (n : Notice) : n.last = [] ∨ n.last = [.fini] := by
  unfold Notice.last
  split
  next => exact .inr rfl
  next => exact .inl rfl

theorem Act.Undisturbed.depth_lt (ha : a.Undisturbed cfg s)
    (hmax : cfg.traceSize ≤ lz4MaxInputSize) :
    (framesAfter ((s.calls a.tid).map Event.op)).length + 1 < 2 ^ 31 := by
  have hroom := ha.room
  have hlz4 : lz4MaxInputSize = 0x7E000000 := rfl
  omega

/-- The entries of a subscriber fit a fragment. -/
theorem Act.Undisturbed.traceable (ha : a.Undisturbed cfg s) (hwhat : a.what = .notice n)
    (hmax : cfg.traceSize ≤ lz4MaxInputSize) {r : Logged} (hr : r.From a.tid n) :
    Op.Traceable cfg (framesAfter ((s.calls a.tid).map Event.op)) (.append r.entry) where
  ne_init := nofun
  ne_fini := nofun
  small := Nat.lt_of_succ_lt (ha.depth_lt hmax)
  entry e he := by
    cases he
    refine ⟨?_, hr.zeroFlag, fun htype => hr.caller (ha.caller n hwhat) htype⟩
    have hroom := ha.room
    have hspace := r.type.space_bounds
    change sizeofVersionHeader + (r.type.space + _) ≤ _
    split <;> omega

theorem Recorder.Sound.notice (hB : B.Lawful) (hw : cfg.writesDisabled = false)
    (hmax : cfg.traceSize ≤ lz4MaxInputSize) (h : s.Sound B cfg) (ha : a.Undisturbed cfg s)
    (hwhat : a.what = .notice n) (hs : s.step B a = some s') : s'.Sound B cfg := by
  have hconsistent := h.consistent.step hs
  obtain ⟨desk, hdesk, rfl, -, hfrom⟩ := Recorder.step_notice hwhat hs
  obtain ⟨hlive, hframes⟩ := h.first ha hwhat
  have hthread : run B a.tid {} (s.calls a.tid ++ a.calls n.first) = s.thread B a n := by
    rw [run_append, ← h.consistent.threads]
    rfl
  have htraceable : ∀ e ∈ (s.wanted a.tid n).map Logged.entry, Op.Traceable cfg
      (framesAfter ((s.calls a.tid ++ a.calls n.first).map Event.op)) (.append e) := by
    intro e he
    obtain ⟨r, hr, rfl⟩ := List.mem_map.mp he
    rw [hframes]
    exact ha.traceable hwhat hmax (hfrom r hr)
  obtain ⟨hall, hlive'⟩ := hlive.appendAll hB hw hmax ha.appends htraceable 0
  rw [hthread, ← ha.cfg_eq] at hall hlive'
  have hgot : s.got B a n = (s.wanted a.tid n).length := by
    rw [Recorder.got, Recorder.tries, hall, List.length_map]
  have happends : (n.publication a.tid fun k =>
      decide (k < s.got B a n ∨ (s.wanted a.tid n).length ≤ s.got B a n)).Appends :=
    Notice.appends_iff.mpr fun k => decide_eq_true (.inr (Nat.le_of_eq hgot.symm))
  refine h.perform hconsistent (.step h.desk happends hdesk) ?_
  rw [← List.append_assoc, ← List.append_assoc, ← ha.cfg_eq]
  rcases n.last_cases with hlast | hlast
  · have hnone : a.calls [] = [] := rfl
    rw [hlast, hnone, List.append_nil]
    exact .inl hlive'
  · rw [hlast]
    exact .inr ⟨_, a.others, rfl, ha.others, hlive'⟩

theorem Recorder.Sound.step (hB : B.Lawful) (hw : cfg.writesDisabled = false)
    (hmax : cfg.traceSize ≤ lz4MaxInputSize) (h : s.Sound B cfg) (ha : a.Undisturbed cfg s)
    (hs : s.step B a = some s') : s'.Sound B cfg := by
  have hconsistent := h.consistent.step hs
  have hdepth := ha.depth_lt hmax
  cases hwhat : a.what with
  | notice n => exact h.notice hB hw hmax ha hwhat hs
  | enter caller =>
      rw [Recorder.step, hwhat] at hs
      cases hs
      refine h.moves hB hw hmax ha ⟨by simp, by simp, ?_, by simp⟩ hconsistent
      exact Nat.lt_of_le_of_lt (Nat.le_of_eq List.length_append) hdepth
  | exit =>
      rw [Recorder.step, hwhat] at hs
      cases hs
      refine h.moves hB hw hmax ha ⟨by simp, by simp, ?_, by simp⟩ hconsistent
      have hle := (List.dropLast_sublist (framesAfter ((s.calls a.tid).map Event.op))).length_le
      exact Nat.lt_of_le_of_lt hle (Nat.lt_of_succ_lt hdepth)

theorem Recorder.Undisturbed.sound (hB : B.Lawful) (hw : cfg.writesDisabled = false)
    (hmax : cfg.traceSize ≤ lz4MaxInputSize) (h : s.Undisturbed B cfg) : s.Sound B cfg := by
  induction h with
  | start => exact ⟨⟨fun _ => rfl, fun _ => rfl⟩, .start, fun tid => .inl (live_nil B cfg tid)⟩
  | step _ ha hs ih => exact ih.step hB hw hmax ha hs

theorem Recorder.Sound.finished (h : s.Sound B cfg) (hfini : ∃ ev ∈ s.calls tid, ev.op = .fini) :
    Finished B cfg tid (s.calls tid) := by
  rcases h.kept tid with hlive | hfinished
  · obtain ⟨ev, hmem, hop⟩ := hfini
    exact absurd hop (hlive.alive ev hmem)
  · exact hfinished

/-- The appends of a finished thread are its entries in the log. -/
theorem Recorder.Sound.appends (h : s.Sound B cfg) (hfinished : Finished B cfg tid (s.calls tid)) :
    ((s.calls tid).map Event.op).filterMap Op.entry? =
      (ofThread tid s.desk.tracer.log).map Logged.entry := by
  rw [h.consistent.log]
  obtain ⟨evs₀, o, heq, -, hlive⟩ := hfinished
  rw [heq, accepted_append, hlive.complete, List.map_append, List.filterMap_append]
  rfl

end

section

variable (c : Counter) {l : List Logged}

variable {s : Recorder} {B : Build} {tids : List Nat}

end

end Coldtrace
