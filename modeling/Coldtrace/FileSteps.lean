import Mathlib.Tactic.Common
import Mathlib.Logic.Function.Iterate
import Coldtrace.Writer
import Coldtrace.Reserve
import Coldtrace.Session
import Coldtrace.Files

/-!
# A writer between its file system calls

A session takes a call of `writer.h` in one step.  Writers that share their
files can meet between any two file system calls of one such call, so here a
call takes one step for each of them.

* `Party.call` enters a call and runs it up to its first file system call.
* `Party.next` makes that file system call and runs on to the next one.

`Point` says which call is next.  The calls of `write` in one `write_all_` are
one step, they go through one descriptor.  A call that nothing interrupts ends
where `Session.step` ends (`Party.call_uninterrupted`).
-/

namespace Coldtrace

/-! ## States -/

/-- What a writer goes on with once its page is flushed. -/
inductive Resume where
  | reserve (size : Nat)
  | fini

/-- The file system call a writer is about to make, with the configuration and
the outcomes its caller met. -/
inductive Point where
  /-- No call of `writer.h` is running. -/
  | rest
  /-- The `open` of `first_fragment_`. -/
  | claiming (cfg : Config) (o : Outcomes) (size : Nat)
  /-- The `open` of `flush_`, with the compression before it. -/
  | flushing (cfg : Config) (o : Outcomes) (k : Resume)
  /-- The `write` of `flush_`. -/
  | writing (cfg : Config) (o : Outcomes) (k : Resume) (image : List UInt8)

/-- A writer in its process. -/
structure Party where
  impl : WriterImpl
  world : World
  point : Point := .rest

/-! ## Steps -/

/-- How far `ensure_buffer_` gets without a file. -/
inductive Prepared where
  | refused (impl : WriterImpl) (w : World)
  | ready (impl : WriterImpl) (w : World)
  /-- `first_fragment_` is next. -/
  | claims (impl : WriterImpl) (w : World)

/-- `ensure_buffer_` up to the call of `first_fragment_`. -/
def prepare (B : Build) (cfg : Config) (o : Outcomes) (impl : WriterImpl) (w : World) : Prepared :=
  if !impl.initd then .refused impl w
  else if impl.failed then .refused impl w
  else if impl.buffer.isSome then .ready impl w
  else
    let impl := { impl with size := cfg.traceSize, offset := 0, enumerator := 0 }
    if !validateTraceSize impl.size (!cfg.writesDisabled) then
      .refused { impl with failed := true } w
    else if cfg.writesDisabled then
      match w.alloc o.mempoolAlloc impl.size .mempool with
      | none => .refused { impl with buffer := none, mmapped := false } w
      | some (id, w) =>
          .ready (beginFragment B { impl with buffer := some ⟨id, .zero⟩, mmapped := false }) w
    else
      match w.alloc o.mmap impl.size (.mmap impl.size) with
      | none => .refused { impl with buffer := none, failed := true } w
      | some (id, w) =>
          let impl := { impl with buffer := some ⟨id, .zero⟩, mmapped := true }
          match w.alloc o.malloc (fragHdrSize + compressBound impl.size) .malloc with
          | none => .refused (fail impl w).1 (fail impl w).2
          | some (cid, w) => .claims { impl with compBuf := some cid } w

namespace Party

/-- `coldtrace_writer_reserve` once there is a buffer, up to `new_trace_`. -/
def reserved (cfg : Config) (o : Outcomes) (size : Nat) (impl : WriterImpl) (w : World) : Party :=
  if writerNewTrace cfg impl size then ⟨impl, w, .flushing cfg o (.reserve size)⟩
  else ⟨{ impl with offset := (impl.offset + size) % 2 ^ 64 }, w, .rest⟩

/-- What follows `flush_` in `new_trace_` and `coldtrace_writer_reserve`, or in
`coldtrace_writer_fini`. -/
def resume (B : Build) (cfg : Config) (o : Outcomes) (impl : WriterImpl) (w : World) :
    Resume → Party
  | .reserve size =>
      if impl.buffer.isNone then ⟨impl, w, .rest⟩
      else
        let (impl, w) := advanceFragment cfg o impl w
        let impl := beginFragment B impl
        if impl.buffer.isNone then ⟨impl, w, .rest⟩
        else ⟨{ impl with offset := (impl.offset + size) % 2 ^ 64 }, w, .rest⟩
  | .fini =>
      let (impl, w) := releaseBuffers impl w
      ⟨{ impl with initd := false }, w, .rest⟩

/-- Enter a call. -/
def call (B : Build) (p : Party) (ev : WriterEvent) : Party :=
  match ev.call with
  | .reserve size =>
      match prepare B ev.cfg ev.o p.impl p.world with
      | .refused impl w => ⟨impl, w, .rest⟩
      | .ready impl w => reserved ev.cfg ev.o size impl w
      | .claims impl w => ⟨impl, w, .claiming ev.cfg ev.o size⟩
  | .store offset bs => { p with impl := p.impl.store offset bs }
  | .fini =>
      if !p.impl.initd then p
      else if p.impl.buffer.isSome then { p with point := .flushing ev.cfg ev.o .fini }
      else resume B ev.cfg ev.o p.impl p.world .fini

/-- Make the next file system call. -/
def next (B : Build) (p : Party) : Party :=
  match p.point with
  | .rest => p
  | .claiming cfg o size =>
      let n := p.impl.enumerator
      let w := p.world.called (.openExcl n)
      if !o.openExcl n then ⟨(fail p.impl w).1, (fail p.impl w).2, .rest⟩
      else if w.dir.has n then
        ⟨{ p.impl with enumerator := (n + 1) % 2 ^ 32 }, w, .claiming cfg o size⟩
      else reserved cfg o size (beginFragment B p.impl) { w with dir := w.dir.openEmpty n }
  | .flushing cfg o k =>
      match p.impl.buffer with
      | none => resume B cfg o p.impl p.world k
      | some b =>
          let w := { p.world with closed := p.world.closed ++ [b.mem.load 0 p.impl.offset] }
          if !p.impl.mmapped then resume B cfg o p.impl w k
          else
            let raw := p.impl.offset - sizeofVersionHeader
            match if o.compress then compressRaw B b.mem raw p.impl.size else none with
            | none => resume B cfg o (fail p.impl w).1 (fail p.impl w).2 k
            | some block =>
                let n := p.impl.enumerator
                let w := w.called (.openTrunc n)
                if !o.openTrunc then resume B cfg o (fail p.impl w).1 (fail p.impl w).2 k
                else ⟨p.impl, { w with dir := w.dir.openEmpty n },
                  .writing cfg o k (fragmentImage B raw block)⟩
  | .writing cfg o k image =>
      let n := p.impl.enumerator
      let (ok, out) := writeAll o.writes image
      -- The bytes go to the front of the file.  Another writer may have made it longer.
      let bs := out ++ (p.world.dir.content n).drop out.length
      let w := { p.world.called (.write n) with dir := p.world.dir.put n bs }
      if ok then resume B cfg o p.impl w k
      else
        let w := { w.called (.unlink n) with dir := w.dir.unlink n }
        resume B cfg o (fail p.impl w).1 (fail p.impl w).2 k

end Party

/-! ## Uninterrupted calls -/

theorem ensureBuffer_eq (B : Build) (cfg : Config) (o : Outcomes) (impl : WriterImpl) (w : World) :
    ensureBuffer B cfg o impl w =
      match prepare B cfg o impl w with
      | .refused impl w => (false, impl, w)
      | .ready impl w => (true, impl, w)
      | .claims impl w =>
          match firstFragment o (2 ^ 32) impl w with
          | (false, impl, w) => (false, fail impl w)
          | (true, impl, w) => (true, beginFragment B impl, w) := by
  unfold ensureBuffer prepare
  split
  next => rfl
  next =>
  split
  next => rfl
  next =>
  split
  next => rfl
  next =>
  dsimp only
  split
  next => rfl
  next =>
  split
  next =>
    rcases w.alloc o.mempoolAlloc cfg.traceSize .mempool with _ | ⟨id, w₁⟩
    · rfl
    · rfl
  next =>
    rcases w.alloc o.mmap cfg.traceSize (.mmap cfg.traceSize) with _ | ⟨id, w₁⟩
    · rfl
    · dsimp only
      rcases w₁.alloc o.malloc (fragHdrSize + compressBound cfg.traceSize)
        .malloc with _ | ⟨cid, w₂⟩
      · rfl
      · rfl

/-- The writer is to get its buffer. -/
structure WriterImpl.Unbuffered (impl : WriterImpl) : Prop where
  initd : impl.initd = true
  failed : impl.failed = false
  buffer : impl.buffer = none

theorem WriterImpl.not_unbuffered {impl : WriterImpl} (h : impl.buffer.isSome = true) :
    ¬ impl.Unbuffered := by
  intro hu
  rw [hu.buffer] at h
  cases h

theorem WriterImpl.Broken.not_unbuffered {impl : WriterImpl} (h : impl.Broken) :
    ¬ impl.Unbuffered := by
  intro hu
  cases h.failed.symm.trans hu.failed

/-- The files and the calls on them are the same. -/
structure World.SameFiles (w w' : World) : Prop where
  dir : w'.dir = w.dir
  calls : w'.calls = w.calls

theorem World.SameFiles.refl (w : World) : w.SameFiles w := ⟨rfl, rfl⟩

theorem World.SameFiles.trans {w w' w'' : World} (h : w.SameFiles w') (h' : w'.SameFiles w'') :
    w.SameFiles w'' := ⟨h'.dir.trans h.dir, h'.calls.trans h.calls⟩

theorem sameFiles_of_alloc {w w' : World} {ok : Bool} {n id : Nat} {source : Source}
    (h : w.alloc ok n source = some (id, w')) : w.SameFiles w' :=
  ⟨(alloc_spec h).2.2, alloc_calls h⟩

theorem sameFiles_releaseBuffers (impl : WriterImpl) (w : World) :
    w.SameFiles (releaseBuffers impl w).2 :=
  ⟨(releaseBuffers_spec impl w).2.2.2, releaseBuffers_calls impl w⟩

theorem sameFiles_fail (impl : WriterImpl) (w : World) : w.SameFiles (fail impl w).2 :=
  sameFiles_releaseBuffers impl w

theorem releaseBuffers_enumerator (impl : WriterImpl) (w : World) :
    (releaseBuffers impl w).1.enumerator = impl.enumerator := by
  cases hb : impl.buffer <;> cases hc : impl.compBuf <;> simp [releaseBuffers, hb, hc]

theorem fail_enumerator (impl : WriterImpl) (w : World) :
    (fail impl w).1.enumerator = impl.enumerator := releaseBuffers_enumerator impl w

/-- What `ensure_buffer_` can do without a file. -/
inductive PreparedFrom (impl : WriterImpl) (w : World) : Prepared → Prop where
  | refused {impl' : WriterImpl} {w' : World} :
      impl' = impl ∨ impl.Unbuffered ∧ impl'.enumerator = 0 →
      (impl'.Unbuffered → impl.Unbuffered) → w.SameFiles w' →
      PreparedFrom impl w (.refused impl' w')
  | ready {impl' : WriterImpl} {w' : World} :
      impl' = impl ∨ impl.Unbuffered ∧ impl'.enumerator = 0 →
      impl'.buffer.isSome = true → w.SameFiles w' → PreparedFrom impl w (.ready impl' w')
  | claims {impl' : WriterImpl} {w' : World} : impl.Unbuffered → impl'.buffer.isSome = true →
      impl'.enumerator = 0 → w.SameFiles w' → PreparedFrom impl w (.claims impl' w')

theorem prepare_spec (B : Build) (cfg : Config) (o : Outcomes) (impl : WriterImpl) (w : World) :
    PreparedFrom impl w (prepare B cfg o impl w) := by
  unfold prepare
  split
  next => exact .refused (.inl rfl) id (.refl w)
  next hi =>
  split
  next => exact .refused (.inl rfl) id (.refl w)
  next hf =>
  split
  next hb => exact .ready (.inl rfl) hb (.refl w)
  next hb =>
  have hun : impl.Unbuffered := ⟨by simpa using hi, by simpa using hf, by simpa using hb⟩
  dsimp only
  split
  next => exact .refused (.inr ⟨hun, rfl⟩) (fun _ => hun) (.refl w)
  next =>
  split
  next =>
    split
    next => exact .refused (.inr ⟨hun, rfl⟩) (fun _ => hun) (.refl w)
    next ha => exact .ready (.inr ⟨hun, rfl⟩) rfl (sameFiles_of_alloc ha)
  next =>
    split
    next => exact .refused (.inr ⟨hun, rfl⟩) (fun _ => hun) (.refl w)
    next ha =>
      split
      next =>
        exact .refused (.inr ⟨hun, fail_enumerator _ _⟩) (fun _ => hun)
          ((sameFiles_of_alloc ha).trans (sameFiles_fail _ _))
      next hc =>
        exact .claims hun rfl rfl ((sameFiles_of_alloc ha).trans (sameFiles_of_alloc hc))

namespace Party

variable {B : Build} {cfg : Config} {o : Outcomes} {impl : WriterImpl} {w : World}

/-- `p'` is reached from `p` by file system calls of the writer alone. -/
def Runs (B : Build) (p p' : Party) : Prop := ∃ k, (next B)^[k] p = p'

theorem Runs.refl (p : Party) : Runs B p p := ⟨0, rfl⟩

/-- One more file system call in front. -/
theorem Runs.of_next {p p' : Party} (h : Runs B (next B p) p') : Runs B p p' := by
  obtain ⟨k, hk⟩ := h
  exact ⟨k + 1, hk⟩

theorem Runs.trans {p p' p'' : Party} (h : Runs B p p') (h' : Runs B p' p'') : Runs B p p'' := by
  obtain ⟨k, rfl⟩ := h
  obtain ⟨k', rfl⟩ := h'
  exact ⟨k' + k, Function.iterate_add_apply ..⟩

/-- What `ensure_buffer_` and the test after it make of the result of
`first_fragment_`. -/
def claimed (B : Build) (cfg : Config) (o : Outcomes) (size : Nat) :
    Bool × WriterImpl × World → Party
  | (false, impl, w) => ⟨(fail impl w).1, (fail impl w).2, .rest⟩
  | (true, impl, w) => reserved cfg o size (beginFragment B impl) w

/-- The loop of `first_fragment_`, which ends at a number `m` without a file or
before it. -/
theorem runs_claiming (B : Build) (cfg : Config) (o : Outcomes) (size m : Nat) (hm : m < 2 ^ 32) :
    ∀ (fuel : Nat) (impl : WriterImpl) (w : World), m ∉ w.dir.names → impl.enumerator ≤ m →
      m < impl.enumerator + fuel →
      Runs B ⟨impl, w, .claiming cfg o size⟩
        (claimed B cfg o size (firstFragment o fuel impl w))
  | 0, impl, w, _, hle, hlt => by omega
  | fuel + 1, impl, w, hfree, hle, hlt => by
      apply Runs.of_next
      simp only [next, firstFragment]
      split
      next => exact .refl _
      next =>
        split
        next hhas =>
          have hne : impl.enumerator ≠ m := by
            rintro rfl
            exact hfree (of_decide_eq_true hhas)
          have hmod : (impl.enumerator + 1) % 2 ^ 32 = impl.enumerator + 1 :=
            Nat.mod_eq_of_lt (by omega)
          refine runs_claiming B cfg o size m hm fuel _ _ hfree ?_ ?_
          · show (impl.enumerator + 1) % 2 ^ 32 ≤ m
            omega
          · show m < (impl.enumerator + 1) % 2 ^ 32 + fuel
            omega
        next => exact .refl _

/-- `flush_` and what follows it. -/
theorem runs_flushing (B : Build) (cfg : Config) (o : Outcomes) (impl : WriterImpl) (w : World)
    (k : Resume) :
    Runs B ⟨impl, w, .flushing cfg o k⟩
      (resume B cfg o (flush B o impl w).1 (flush B o impl w).2 k) := by
  apply Runs.of_next
  cases hb : impl.buffer with
  | none =>
      simp only [next, flush, hb]
      exact .refl _
  | some b =>
  cases hm : impl.mmapped with
  | false =>
      simp only [next, flush, hb, hm, Bool.not_false, if_true]
      exact .refl _
  | true =>
  cases hc : if o.compress then
      compressRaw B b.mem (impl.offset - sizeofVersionHeader) impl.size else none with
  | none =>
      simp only [next, flush, hb, hm, hc, Bool.not_true, Bool.false_eq_true, if_false]
      exact .refl _
  | some block =>
  cases ho : o.openTrunc with
  | false =>
      simp only [next, flush, hb, hm, hc, ho, Bool.not_true, Bool.not_false, Bool.false_eq_true,
        if_false, if_true]
      exact .refl _
  | true =>
      simp only [next, flush, hb, hm, hc, ho, Bool.not_true, Bool.false_eq_true, if_false]
      apply Runs.of_next
      -- The file is empty after `open`, so nothing is left behind the bytes written.
      simp only [next, World.called, content_openEmpty, if_true, List.drop_nil, List.append_nil]
      split
      next => exact .refl _
      next => exact .refl _

/-- The end of `coldtrace_writer_reserve` on a writer with a buffer. -/
theorem runs_reserved {impl₁ : WriterImpl} {w₁ : World} {size : Nat}
    (hens : ensureBuffer B cfg o impl w = (true, impl₁, w₁)) :
    Runs B (reserved cfg o size impl₁ w₁)
      ⟨(writerReserve B cfg o impl w size).2.1, (writerReserve B cfg o impl w size).2.2,
        .rest⟩ := by
  simp only [writerReserve, hens, reserved]
  split
  next =>
    have hflush := runs_flushing B cfg o impl₁ w₁ (.reserve size)
    simp only [newTrace]
    generalize flush B o impl₁ w₁ = result at hflush
    obtain ⟨impl₂, w₂⟩ := result
    simp only [resume] at hflush
    dsimp only
    split at hflush
    next hnone =>
      simp only [if_pos hnone]
      exact hflush
    next hsome =>
      simp only [if_neg hsome]
      split at hflush
      next hnone =>
        simp only [if_pos hnone]
        exact hflush
      next hsome =>
        simp only [if_neg hsome]
        exact hflush
  next => exact .refl _

/-- A call that nothing interrupts is the step of a session, if there is a
number left for `first_fragment_` to find. -/
theorem call_uninterrupted (B : Build) (s : Session) (ev : WriterEvent) {m : Nat} (hm : m < 2 ^ 32)
    (hfree : m ∉ s.world.dir.names) :
    Runs B (call B ⟨s.impl, s.world, .rest⟩ ev)
      ⟨(s.step B ev).impl, (s.step B ev).world, .rest⟩ := by
  obtain ⟨cfg, o, call⟩ := ev
  cases call with
  | store offset bs => exact .refl _
  | fini =>
      simp only [Party.call, Session.step, writerFini]
      split
      next => exact .refl _
      next =>
        split
        next => exact runs_flushing B cfg o s.impl s.world .fini
        next => exact .refl _
  | reserve size =>
      have hens := ensureBuffer_eq B cfg o s.impl s.world
      simp only [Party.call, Session.step]
      cases hprep : prepare B cfg o s.impl s.world with
      | refused impl w =>
          rw [hprep] at hens
          simp only [writerReserve, hens]
          exact .refl _
      | ready impl w =>
          rw [hprep] at hens
          exact runs_reserved hens
      | claims impl w =>
          rw [hprep] at hens
          have hspec := prepare_spec B cfg o s.impl s.world
          rw [hprep] at hspec
          dsimp only at hens
          cases hspec with
          | claims _ _ hzero hsame =>
          have hclaim := runs_claiming B cfg o size m hm (2 ^ 32) impl w
            (by rw [hsame.dir]; exact hfree) (by omega) (by omega)
          refine hclaim.trans ?_
          generalize firstFragment o (2 ^ 32) impl w = result at hens ⊢
          obtain ⟨_ | _, impl₁, w₁⟩ := result
          · simp only [writerReserve, hens]
            exact .refl _
          · exact runs_reserved hens

end Party

/-! ## What a step can do -/

/-- No call on a file fails. -/
structure Outcomes.IoSucceeds (o : Outcomes) : Prop where
  openExcl : ∀ n, o.openExcl n = true
  openTrunc : o.openTrunc = true
  writes : WriteResult.error ∉ o.writes

namespace Point

def isClaiming : Point → Bool
  | .claiming .. => true
  | _ => false

def isWriting : Point → Bool
  | .writing .. => true
  | _ => false

/-- The call that is running meets no failure on a file. -/
def IoSucceeds : Point → Prop
  | .rest => True
  | .claiming _ o _ | .flushing _ o _ | .writing _ o _ _ => o.IoSucceeds

end Point

/-- Only a writer with files counts its fragments. -/
theorem advanceFragment_unmapped (cfg : Config) (o : Outcomes) {impl : WriterImpl} (w : World)
    (hm : impl.mmapped = false) :
    (advanceFragment cfg o impl w).1.enumerator = impl.enumerator := by
  rw [advanceFragment, if_pos (by simp [hm])]
  split
  next => rfl
  next =>
    split
    next => split <;> rfl
    next => rfl

namespace Party

variable {B : Build} {p p' : Party}

/-- The file a writer is about to truncate. -/
def opens (B : Build) (p : Party) : Option Nat :=
  match p.point with
  | .flushing _ o _ =>
      if p.impl.mmapped && p.impl.opens B o then some p.impl.enumerator else none
  | _ => none

/-- The number of the writer is that of a file: of a fragment with one, or of the
`open` of `first_fragment_`. -/
def Counts (p : Party) : Prop :=
  p.point.isClaiming = true ∨ p.impl.mmapped = true ∧ p.impl.buffer.isSome = true

theorem Counts.of_rest (h : p.Counts) (hrest : p.point.isClaiming = false) :
    p.impl.mmapped = true ∧ p.impl.buffer.isSome = true :=
  h.resolve_left (by simp [hrest])

theorem counts_of_opens {n : Nat} (h : p.opens B = some n) : p.Counts := by
  rw [opens] at h
  split at h
  next o _ _ =>
    rw [Option.ite_none_right_eq_some, Bool.and_eq_true] at h
    obtain ⟨⟨hm, hopens⟩, -⟩ := h
    refine .inr ⟨hm, ?_⟩
    cases hb : p.impl.buffer with
    | some b => rfl
    | none => simp [WriterImpl.opens, hb] at hopens
  next => cases h

/-- The writer goes past the number: it did before, or the file is there. -/
def Passes (p : Party) (k : Nat) : Prop :=
  k < p.impl.enumerator ∨
    k = p.impl.enumerator ∧ (p.point.isWriting = true ∨ p.world.dir.has k = true)

/-- What a step can do to the files. -/
inductive Moved (B : Build) (p : Party) : Party → Prop where
  | quiet {p' : Party} : p.point.isClaiming = false → p.opens B = none →
      p'.point.isWriting = false → p.world.SameFiles p'.world →
      p'.impl.enumerator = p.impl.enumerator ∨ p.impl.Unbuffered → Moved B p p'
  /-- The number is taken, and the next one is tried. -/
  | taken {p' : Party} : p.point.isClaiming = true → p'.point.isClaiming = true →
      p.world.dir.has p.impl.enumerator = true → p'.world.dir = p.world.dir →
      p'.world.calls = p.world.calls ++ [.openExcl p.impl.enumerator] → Moved B p p'
  | claimed {p' : Party} : p.point.isClaiming = true → p'.point.isWriting = false →
      p.world.dir.has p.impl.enumerator = false →
      p'.world.dir = p.world.dir.openEmpty p.impl.enumerator →
      p'.world.calls = p.world.calls ++ [.openExcl p.impl.enumerator] →
      p'.impl.enumerator = p.impl.enumerator → Moved B p p'
  | opened {p' : Party} : p.opens B = some p.impl.enumerator →
      p'.world.dir = p.world.dir.openEmpty p.impl.enumerator →
      p'.world.calls = p.world.calls ++ [.openTrunc p.impl.enumerator] →
      p'.impl.enumerator = p.impl.enumerator → Moved B p p'
  | written {p' : Party} {bs : List UInt8} : p.point.isWriting = true →
      p'.point.isWriting = false → p'.world.dir = p.world.dir.put p.impl.enumerator bs →
      p'.world.calls = p.world.calls ++ [.write p.impl.enumerator] → Moved B p p'

/-- A step, and what it keeps of the call that is running. -/
structure Steps (B : Build) (p p' : Party) : Prop where
  moved : Moved B p p'
  unbuffered : p'.impl.Unbuffered → p.impl.Unbuffered ∧ (p.point = .rest → p'.point = .rest)
  io : p'.point.IoSucceeds
  passes : p'.Counts → ∀ k < p'.impl.enumerator, p.Counts ∧ p.Passes k

/-- A step at a number the writer had before. -/
theorem passes_of_eq (hcounts : p'.Counts → p.Counts)
    (he : p'.impl.enumerator = p.impl.enumerator) :
    p'.Counts → ∀ k < p'.impl.enumerator, p.Counts ∧ p.Passes k := by
  intro hc k hk
  exact ⟨hcounts hc, .inl (he ▸ hk)⟩

theorem passes_of_zero (he : p'.impl.enumerator = 0) :
    p'.Counts → ∀ k < p'.impl.enumerator, p.Counts ∧ p.Passes k := by
  intro _ k hk
  omega

/-- What follows `flush_`. -/
structure ResumesAs (impl : WriterImpl) (w : World) (p : Party) : Prop where
  files : w.SameFiles p.world
  rest : p.point = .rest
  unbuffered : p.impl.Unbuffered → impl.Unbuffered
  enumerator : impl.mmapped = false ∨ impl.buffer = none → p.impl.enumerator = impl.enumerator
  counts : p.Counts → impl.mmapped = true ∧ impl.buffer.isSome = true ∧
    p.impl.enumerator ≤ impl.enumerator + 1

theorem resume_spec (B : Build) (cfg : Config) (o : Outcomes) (impl : WriterImpl) (w : World)
    (k : Resume) : ResumesAs impl w (resume B cfg o impl w k) := by
  cases k with
  | fini =>
      exact {
        files := sameFiles_releaseBuffers impl w
        rest := rfl
        unbuffered := fun hu => by cases hu.initd
        enumerator := fun _ => releaseBuffers_enumerator impl w
        counts := fun hc => by
          have hnone : (resume B cfg o impl w .fini).impl.buffer = none :=
            (releaseBuffers_spec impl w).1
          have hsome := (hc.of_rest rfl).2
          rw [hnone] at hsome
          cases hsome }
  | reserve size =>
      rw [resume]
      split
      next hb =>
        refine ⟨.refl w, rfl, id, fun _ => rfl, fun hc => ?_⟩
        simp [Option.isNone_iff_eq_none.mp hb, Counts, Point.isClaiming] at hc
      next hb =>
        have hadv := advanceFragment_spec cfg o impl w
        have hfiles : w.SameFiles (advanceFragment cfg o impl w).2 :=
          ⟨hadv.dir, advanceFragment_calls cfg o impl w⟩
        have hsome : impl.buffer.isSome = true := by simpa [Option.isSome_iff_ne_none] using hb
        have hnext : (beginFragment B (advanceFragment cfg o impl w).1).buffer.isSome = true := by
          simpa [beginFragment] using hadv.isSome.trans hsome
        have henum : impl.mmapped = false ∨ impl.buffer = none →
            (advanceFragment cfg o impl w).1.enumerator = impl.enumerator := by
          rintro (hm | hnone)
          · exact advanceFragment_unmapped cfg o w hm
          · simp [hnone] at hsome
        dsimp only
        rw [if_neg (by simpa [Option.isSome_iff_ne_none] using hnext)]
        refine ⟨hfiles, rfl, fun hu => absurd hu (WriterImpl.not_unbuffered hnext), henum,
          fun hc => ?_⟩
        have hm : impl.mmapped = true := hadv.mmapped.symm.trans (hc.of_rest rfl).1
        refine ⟨hm, hsome, ?_⟩
        show (advanceFragment cfg o impl w).1.enumerator ≤ impl.enumerator + 1
        rw [hadv.enumerator hm]
        exact Nat.le_trans (Nat.mod_le _ _) (Nat.mod_le _ _)

/-- A step that flushes no file. -/
theorem ResumesAs.quiet {impl : WriterImpl} {w : World} (h : ResumesAs impl w p')
    (hc : p.point.isClaiming = false) (ho : p.opens B = none) (hw : p.world.SameFiles w)
    (hu : impl.Unbuffered → p.impl.Unbuffered) (he : impl.enumerator = p.impl.enumerator)
    (hm : impl.mmapped = false ∨ impl.buffer = none) : Steps B p p' where
  moved := .quiet hc ho (by rw [h.rest]; rfl) (hw.trans h.files) (.inl ((h.enumerator hm).trans he))
  unbuffered hu' := ⟨hu (h.unbuffered hu'), fun _ => h.rest⟩
  io := by rw [h.rest]; trivial
  passes hcounts := by
    obtain ⟨hmapped, hsome, -⟩ := h.counts hcounts
    rcases hm with hm | hm
    · cases hm.symm.trans hmapped
    · simp [hm] at hsome

/-- A reservation up to `new_trace_`. -/
structure ReservesAs (impl : WriterImpl) (w : World) (p : Party) : Prop where
  world : p.world = w
  unbuffered : p.impl.Unbuffered → impl.Unbuffered
  enumerator : p.impl.enumerator = impl.enumerator
  writing : p.point.isWriting = false
  io : p.point.IoSucceeds
  counts : p.Counts → impl.mmapped = true ∧ impl.buffer.isSome = true

theorem reserved_spec (cfg : Config) {o : Outcomes} (size : Nat) (impl : WriterImpl) (w : World)
    (hio : o.IoSucceeds) : ReservesAs impl w (reserved cfg o size impl w) := by
  rw [reserved]
  split
  next => exact ⟨rfl, id, rfl, rfl, hio, fun hc => hc.of_rest rfl⟩
  next =>
    exact ⟨rfl, fun hu => ⟨hu.initd, hu.failed, hu.buffer⟩, rfl, rfl, trivial,
      fun hc => hc.of_rest rfl⟩

theorem opens_of_rest (h : p.point = .rest) : p.opens B = none := by
  rw [opens, h]

theorem call_steps (ev : WriterEvent) (h : p.point = .rest) (hio : ev.o.IoSucceeds) :
    Steps B p (p.call B ev) := by
  have hclaim : p.point.isClaiming = false := by rw [h]; rfl
  have hopens : p.opens B = none := opens_of_rest h
  obtain ⟨cfg, o, call⟩ := ev
  cases call with
  | store offset bs =>
      have hun : (p.impl.store offset bs).Unbuffered → p.impl.Unbuffered := fun hu =>
        ⟨hu.initd, hu.failed, by simpa [WriterImpl.store] using hu.buffer⟩
      have hsome : (p.impl.store offset bs).buffer.isSome = p.impl.buffer.isSome := by
        simp [WriterImpl.store]
      exact ⟨.quiet hclaim hopens (by rw [Party.call, h]; rfl) (.refl _) (.inl rfl),
        fun hu => ⟨hun hu, fun _ => h⟩, by rw [Party.call, h]; trivial,
        passes_of_eq (.imp id fun hc => ⟨hc.1, hsome.symm.trans hc.2⟩) rfl⟩
  | fini =>
      simp only [Party.call]
      split
      next =>
        exact ⟨.quiet hclaim hopens (by rw [h]; rfl) (.refl _) (.inl rfl),
          fun hu => ⟨hu, fun _ => h⟩, by rw [h]; trivial, passes_of_eq id rfl⟩
      next =>
        split
        next hb =>
          exact ⟨.quiet hclaim hopens rfl (.refl _) (.inl rfl),
            fun hu => absurd hu (WriterImpl.not_unbuffered hb), hio,
            passes_of_eq (fun hc => .inr (hc.of_rest rfl)) rfl⟩
        next hb =>
          exact (resume_spec B cfg o p.impl p.world .fini).quiet hclaim hopens (.refl _) id rfl
            (.inr (by simpa using hb))
  | reserve size =>
      have hspec := prepare_spec B cfg o p.impl p.world
      simp only [Party.call]
      generalize prepare B cfg o p.impl p.world = result at hspec ⊢
      cases hspec with
      | @refused impl w hsame hun hfiles =>
          refine ⟨.quiet hclaim hopens rfl hfiles ?_, fun hu => ⟨hun hu, fun _ => rfl⟩, trivial, ?_⟩
          · exact hsame.imp (congrArg WriterImpl.enumerator) And.left
          · rcases hsame with rfl | ⟨-, hzero⟩
            · exact passes_of_eq (fun hc => .inr (hc.of_rest rfl)) rfl
            · exact passes_of_zero hzero
      | @ready impl w hsame hb hfiles =>
          have hres := reserved_spec cfg size impl w hio
          refine ⟨.quiet hclaim hopens hres.writing (by rw [hres.world]; exact hfiles) ?_,
            fun hu => absurd (hres.unbuffered hu) (WriterImpl.not_unbuffered hb), hres.io, ?_⟩
          · exact hsame.imp
              (fun heq => hres.enumerator.trans (congrArg WriterImpl.enumerator heq)) And.left
          · rcases hsame with rfl | ⟨-, hzero⟩
            · exact passes_of_eq (fun hc => .inr (hres.counts hc)) hres.enumerator
            · exact passes_of_zero (hres.enumerator.trans hzero)
      | @claims impl w hun hb hzero hfiles =>
          exact ⟨.quiet hclaim hopens rfl hfiles (.inr hun),
            fun hu => absurd hu (WriterImpl.not_unbuffered hb), hio, passes_of_zero hzero⟩

section

variable (B : Build) {cfg : Config} {o : Outcomes} (impl : WriterImpl) (w : World)
  (hio : o.IoSucceeds)
include hio

/-- `open` with `O_EXCL` finds the number taken, or claims it. -/
theorem claiming_steps (size : Nat) : Steps B ⟨impl, w, .claiming cfg o size⟩
    (next B ⟨impl, w, .claiming cfg o size⟩) := by
  simp only [next, hio.openExcl, Bool.not_true, Bool.false_eq_true, if_false]
  split
  next hhas =>
    refine ⟨.taken rfl rfl hhas rfl rfl,
      fun hu => ⟨⟨hu.initd, hu.failed, hu.buffer⟩, fun h => by cases h⟩, hio, fun _ k hk => ?_⟩
    have hle : (impl.enumerator + 1) % 2 ^ 32 ≤ impl.enumerator + 1 := Nat.mod_le _ _
    refine ⟨.inl rfl, (Nat.lt_succ_iff_lt_or_eq.mp (Nat.lt_of_lt_of_le hk hle)).imp id ?_⟩
    rintro rfl
    exact ⟨rfl, .inr hhas⟩
  next hhas =>
    have hres := reserved_spec cfg size (beginFragment B impl)
      { w.called (.openExcl impl.enumerator) with dir := w.dir.openEmpty impl.enumerator } hio
    have hun : (beginFragment B impl).Unbuffered → impl.Unbuffered := fun hu =>
      ⟨hu.initd, hu.failed, by simpa [beginFragment] using hu.buffer⟩
    exact ⟨.claimed rfl hres.writing (eq_false_of_ne_true hhas)
        (congrArg World.dir hres.world) (congrArg World.calls hres.world) hres.enumerator,
      fun hu => ⟨hun (hres.unbuffered hu), fun h => by cases h⟩, hres.io,
      passes_of_eq (fun _ => .inl rfl) hres.enumerator⟩

/-- `flush_` opens its file, if it gets so far. -/
theorem flushing_steps (k : Resume) : Steps B ⟨impl, w, .flushing cfg o k⟩
    (next B ⟨impl, w, .flushing cfg o k⟩) := by
  simp only [next]
  split
  next hb =>
    have hopens : opens B ⟨impl, w, .flushing cfg o k⟩ = none := by
      simp [opens, WriterImpl.opens, hb]
    exact (resume_spec B cfg o impl w k).quiet rfl hopens (.refl _) id rfl (.inr hb)
  next b hb =>
    split
    next hm =>
      have hm : impl.mmapped = false := by simpa using hm
      have hopens : opens B ⟨impl, w, .flushing cfg o k⟩ = none := by simp [opens, hm]
      exact (resume_spec B cfg o impl _ k).quiet rfl hopens ⟨rfl, rfl⟩ id rfl (.inl hm)
    next hm =>
      have hm : impl.mmapped = true := by simpa using hm
      split
      next hnone =>
        have hopens : opens B ⟨impl, w, .flushing cfg o k⟩ = none := by
          have hno : impl.opens B o = false := WriterImpl.opens_eq_false hb hnone
          simp [opens, hno]
        have hfail := fail_spec impl { w with closed := w.closed ++ [b.mem.load 0 impl.offset] }
        have hfiles := sameFiles_fail impl
          { w with closed := w.closed ++ [b.mem.load 0 impl.offset] }
        exact (resume_spec B cfg o _ _ k).quiet rfl hopens ⟨hfiles.dir, hfiles.calls⟩
          (fun hu => absurd hu hfail.1.not_unbuffered) (fail_enumerator impl _)
          (.inr hfail.1.buffer)
      next block hblock =>
        have hopens : opens B ⟨impl, w, .flushing cfg o k⟩ = some impl.enumerator := by
          have hyes : impl.opens B o = true :=
            (WriterImpl.opens_eq hb hblock).trans hio.openTrunc
          simp [opens, hm, hyes]
        rw [if_neg (by simp [hio.openTrunc])]
        exact ⟨.opened hopens rfl rfl rfl, fun hu => ⟨hu, fun h => by cases h⟩, hio,
          passes_of_eq (fun _ => counts_of_opens hopens) rfl⟩

/-- `flush_` writes its file, and the call goes on. -/
theorem writing_steps (k : Resume) (image : List UInt8) : Steps B ⟨impl, w, .writing cfg o k image⟩
    (next B ⟨impl, w, .writing cfg o k image⟩) := by
  simp only [next, writeAll_ok _ image hio.writes, if_true]
  have hres := resume_spec B cfg o impl
    { w.called (.write impl.enumerator) with
      dir := w.dir.put impl.enumerator ((writeAll o.writes image).2 ++
        (w.dir.content impl.enumerator).drop (writeAll o.writes image).2.length) } k
  refine ⟨.written rfl (by rw [hres.rest]; rfl) hres.files.dir hres.files.calls,
    fun hu => ⟨hres.unbuffered hu, fun h => by cases h⟩, by rw [hres.rest]; trivial,
    fun hc k hk => ?_⟩
  obtain ⟨hm, hsome, hle⟩ := hres.counts hc
  exact ⟨.inr ⟨hm, hsome⟩, (Nat.lt_succ_iff_lt_or_eq.mp (Nat.lt_of_lt_of_le hk hle)).imp id
    fun heq => ⟨heq, .inl rfl⟩⟩

end

theorem next_steps (B : Build) (hio : p.point.IoSucceeds) : Steps B p (p.next B) := by
  obtain ⟨impl, w, point⟩ := p
  cases point with
  | rest =>
      exact ⟨.quiet rfl rfl rfl (.refl _) (.inl rfl), fun hu => ⟨hu, id⟩, trivial,
        passes_of_eq id rfl⟩
  | claiming cfg o size => exact claiming_steps B impl w hio size
  | flushing cfg o k => exact flushing_steps B impl w hio k
  | writing cfg o k image => exact writing_steps B impl w hio k image

end Party

end Coldtrace
