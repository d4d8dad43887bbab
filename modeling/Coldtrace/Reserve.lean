import Mathlib.Tactic.Common
import Coldtrace.Lib.Bytes
import Coldtrace.Writer

/-!
# What a reservation does

The writer's functions have many branches, one for each call that can fail.
This module says once what each of them can do, so that no later proof goes
through the branches again.

The bytes written so far are the page of the writer (`WriterImpl.Holds`).
`flush` hands the page over and leaves the writer as it was, or fails and
releases the buffer (`Flushed`).  A reservation is refused, or it returns the
end of the page, or it flushes the page and returns the end of a fresh one
(`Reserved`).
-/

namespace Coldtrace

open Bytes

/-! ## Pages -/

/-- The writer has a buffer, and the bytes before its offset are the page. -/
def WriterImpl.Holds (impl : WriterImpl) (page : List UInt8) : Prop :=
  ∃ b, impl.buffer = some b ∧ b.mem.load 0 impl.offset = page

/-- The writer failed for good. -/
structure WriterImpl.Broken (impl : WriterImpl) : Prop where
  failed : impl.failed = true
  buffer : impl.buffer = none

theorem WriterImpl.Holds.offset_eq {impl : WriterImpl} {page : List UInt8} (h : impl.Holds page) :
    impl.offset = page.length := by
  obtain ⟨b, -, rfl⟩ := h
  rw [Mem.length_load]

theorem WriterImpl.Holds.isSome {impl : WriterImpl} {page : List UInt8} (h : impl.Holds page) :
    impl.buffer.isSome = true := by
  obtain ⟨b, hb, -⟩ := h
  rw [hb]
  rfl

/-- The image of a page: its version header again, the size of the rest and the
compressed rest.  The sizes are those of the casts in `flush_`. -/
def IsImage (B : Build) (page file : List UInt8) : Prop :=
  ∃ block cap, (page.length - sizeofVersionHeader) % 2 ^ 32 ≤ lz4MaxInputSize ∧
    B.compressFast ((page.drop sizeofVersionHeader).take
      ((page.length - sizeofVersionHeader) % 2 ^ 32)) cap = some block ∧
    file = fragmentImage B (page.length - sizeofVersionHeader) block

@[simp] theorem World.release_closed (w : World) (id : Nat) (source : Source) :
    (w.release id source).closed = w.closed := by
  rw [World.release]
  split <;> rfl

@[simp] theorem World.release_dir (w : World) (id : Nat) (source : Source) :
    (w.release id source).dir = w.dir := by
  rw [World.release]
  split <;> rfl

theorem WriterImpl.Holds.not_isNone {impl : WriterImpl} {page : List UInt8} (h : impl.Holds page) :
    ¬ impl.buffer.isNone = true := by
  obtain ⟨b, hb, -⟩ := h
  simp [hb]

theorem releaseBuffers_spec (impl : WriterImpl) (w : World) :
    (releaseBuffers impl w).1.buffer = none ∧ (releaseBuffers impl w).1.initd = impl.initd ∧
      (releaseBuffers impl w).2.closed = w.closed ∧ (releaseBuffers impl w).2.dir = w.dir := by
  cases hb : impl.buffer <;> cases hc : impl.compBuf <;> simp [releaseBuffers, hb, hc]

/-- `fail_` breaks the writer and keeps the pages and the files. -/
theorem fail_spec (impl : WriterImpl) (w : World) :
    (fail impl w).1.Broken ∧ (fail impl w).1.initd = impl.initd ∧
      (fail impl w).2.closed = w.closed ∧ (fail impl w).2.dir = w.dir := by
  obtain ⟨hb, hi, hc, hd⟩ := releaseBuffers_spec impl w
  exact ⟨⟨rfl, hb⟩, hi, hc, hd⟩

/-! ## Flushing -/

/-- What `flush_` can do with a page. -/
inductive Flushed (B : Build) (impl : WriterImpl) (w : World) (page : List UInt8) :
    WriterImpl × World → Prop where
  /-- Writes are disabled.  The page is handed over and no file is written. -/
  | unwritten {w' : World} : impl.mmapped = false → w'.closed = w.closed ++ [page] →
      w'.dir = w.dir → Flushed B impl w page (impl, w')
  /-- The fragment file is written. -/
  | written {w' : World} {file : List UInt8} : impl.mmapped = true → IsImage B page file →
      w'.closed = w.closed ++ [page] →
      w'.dir = (w.dir.openEmpty impl.enumerator).put impl.enumerator file →
      Flushed B impl w page (impl, w')
  /-- A call failed.  A file that was opened is removed. -/
  | broken {impl' : WriterImpl} {w' : World} : impl'.Broken → impl'.initd = impl.initd →
      w'.closed = w.closed ++ [page] →
      (∀ n ∈ w'.dir.names, n ∈ w.dir.names ∧ w'.dir.content n = w.dir.content n) →
      Flushed B impl w page (impl', w')

theorem mem_names_openEmpty {d : Dir} {n m : Nat} :
    m ∈ (d.openEmpty n).names ↔ m ∈ d.names ∨ m = n := by
  rw [Dir.openEmpty, Dir.put, Dir.has]
  by_cases h : n ∈ d.names
  · simp only [h, decide_true, if_true]
    exact ⟨Or.inl, fun hm => hm.elim id (fun he => he ▸ h)⟩
  · simp [h]

theorem content_openEmpty {d : Dir} {n m : Nat} :
    (d.openEmpty n).content m = if m = n then [] else d.content m := rfl

theorem content_put {d : Dir} {n m : Nat} {bs : List UInt8} :
    (d.put n bs).content m = if m = n then bs else d.content m := rfl

/-- A write of the whole file without an error. -/
theorem writeAll_of_ok : ∀ (rs : List WriteResult) (bs : List UInt8),
    (writeAll rs bs).1 = true → (writeAll rs bs).2 = bs
  | _, [], _ => by rw [writeAll]
  | [], b :: bs, _ => rfl
  | .wrote n :: rs, b :: bs, h => by
      have ih := writeAll_of_ok rs ((b :: bs).drop n)
      rw [writeAll] at h ⊢
      cases hw : writeAll rs ((b :: bs).drop n) with
      | mk ok out =>
          rw [hw] at h ih
          dsimp only at h ih ⊢
          rw [ih h, List.take_append_drop]
  | .eintr :: rs, b :: bs, h => by
      rw [writeAll] at h ⊢
      exact writeAll_of_ok rs (b :: bs) h
  | .error :: rs, b :: bs, h => by cases h

/-- A write whose calls do not fail writes everything. -/
theorem writeAll_ok : ∀ (rs : List WriteResult) (bs : List UInt8), WriteResult.error ∉ rs →
    (writeAll rs bs).1 = true
  | _, [], _ => by rw [writeAll]
  | [], _ :: _, _ => rfl
  | .wrote n :: rs, b :: bs, h => by
      have ih := writeAll_ok rs ((b :: bs).drop n)
        (fun hmem => h (List.mem_cons_of_mem _ hmem))
      rw [writeAll]
      exact ih
  | .eintr :: rs, b :: bs, h => by
      rw [writeAll]
      exact writeAll_ok rs (b :: bs) (fun hmem => h (List.mem_cons_of_mem _ hmem))
  | .error :: _, _ :: _, h => absurd List.mem_cons_self h

theorem compressRaw_image {B : Build} {b : Buffer} {page block : List UInt8} {offset size : Nat}
    (hpage : b.mem.load 0 offset = page) 
    (h : compressRaw B b.mem (offset - sizeofVersionHeader) size = some block) :
    IsImage B page (fragmentImage B (offset - sizeofVersionHeader) block) := by
  have hlen : page.length = offset := by rw [← hpage, Mem.length_load]
  rw [compressRaw] at h
  split at h
  next => cases h
  next hle =>
    refine ⟨block, compressBound size, by rw [hlen]; omega, ?_, by rw [hlen]⟩
    rw [← h, ← hpage, Mem.length_load, Mem.take_drop_load _ (Nat.mod_le ..), Nat.zero_add]

theorem Flushed.of_fail {B : Build} {impl : WriterImpl} {w w₁ : World} {page : List UInt8}
    (hc : w₁.closed = w.closed ++ [page])
    (hd : ∀ n ∈ w₁.dir.names, n ∈ w.dir.names ∧ w₁.dir.content n = w.dir.content n) :
    Flushed B impl w page (fail impl w₁) := by
  obtain ⟨hbr, hi, hc', hd'⟩ := fail_spec impl w₁
  generalize fail impl w₁ = result at *
  exact .broken hbr hi (hc'.trans hc) (by rw [hd']; exact hd)

theorem flush_spec (B : Build) (o : Outcomes) {impl : WriterImpl} (w : World) {page : List UInt8}
    (h : impl.Holds page) : Flushed B impl w page (flush B o impl w) := by
  obtain ⟨b, hb, hpage⟩ := h
  simp only [flush, hb]
  rw [hpage]
  split
  next hm => exact .unwritten (by simpa using hm) rfl rfl
  next hm =>
    split
    next => exact .of_fail rfl fun n hn => ⟨hn, rfl⟩
    next block hblock =>
      have hcomp : compressRaw B b.mem (impl.offset - sizeofVersionHeader) impl.size =
          some block := by
        split at hblock
        next => exact hblock
        next => cases hblock
      split
      next => exact .of_fail rfl fun n hn => ⟨hn, rfl⟩
      next =>
        split
        next hok =>
          refine .written (by simpa using hm) (compressRaw_image hpage hcomp) rfl ?_
          rw [writeAll_of_ok _ _ hok]
          rfl
        next =>
          refine .of_fail rfl ?_
          intro n hn
          simp only [World.called, Dir.unlink, List.mem_filter, decide_eq_true_eq] at hn
          refine ⟨(mem_names_openEmpty.mp hn.1).resolve_right hn.2, ?_⟩
          simp only [World.called, Dir.unlink, content_put, content_openEmpty, if_neg hn.2]

/-! ## The first fragment -/

/-- Every file is one from before, or it is new and empty. -/
def FilesFrom (w w' : World) : Prop :=
  ∀ n ∈ w'.dir.names,
    (n ∈ w.dir.names ∧ w'.dir.content n = w.dir.content n) ∨ w'.dir.content n = []

theorem FilesFrom.of_eq {w w' : World} (h : w'.dir = w.dir) : FilesFrom w w' := by
  intro n hn
  rw [h] at hn ⊢
  exact .inl ⟨hn, rfl⟩

theorem FilesFrom.trans_eq {w w' w'' : World} (h : FilesFrom w w') (h' : w''.dir = w'.dir) :
    FilesFrom w w'' := by
  intro n hn
  rw [h'] at hn ⊢
  exact h n hn

/-- `first_fragment_` moves the enumerator and adds an empty file. -/
theorem firstFragment_spec (o : Outcomes) : ∀ (fuel : Nat) (impl : WriterImpl) (w : World),
    (∃ n, (firstFragment o fuel impl w).2.1 = { impl with enumerator := n }) ∧
      (firstFragment o fuel impl w).2.2.closed = w.closed ∧
      FilesFrom w (firstFragment o fuel impl w).2.2
  | 0, impl, w => ⟨⟨impl.enumerator, rfl⟩, rfl, .of_eq rfl⟩
  | fuel + 1, impl, w => by
      rw [firstFragment]
      split
      next => exact ⟨⟨impl.enumerator, rfl⟩, rfl, .of_eq rfl⟩
      next =>
        split
        next => exact firstFragment_spec o fuel _ _
        next =>
          refine ⟨⟨impl.enumerator, rfl⟩, rfl, ?_⟩
          intro n hn
          by_cases h : n = impl.enumerator
          · exact .inr (by rw [content_openEmpty, if_pos h])
          · exact .inl ⟨(mem_names_openEmpty.mp hn).resolve_right h, by
              rw [content_openEmpty, if_neg h]; rfl⟩

/-! ## The buffer -/

/-- What a writer with a fresh buffer is. -/
structure WriterImpl.Fresh (B : Build) (cfg : Config) (impl : WriterImpl) : Prop where
  initd : impl.initd = true
  failed : impl.failed = false
  holds : impl.Holds B.versionHeader
  size : impl.size = cfg.traceSize
  valid : validateTraceSize cfg.traceSize (!cfg.writesDisabled) = true
  size_le : cfg.traceSize ≤ ptrdiffMax
  mmapped : impl.mmapped = !cfg.writesDisabled

/-- What `ensure_buffer_` can do. -/
inductive Ensured (B : Build) (cfg : Config) (impl : WriterImpl) (w : World) :
    Bool × WriterImpl × World → Prop where
  | refused : impl.initd = false ∨ impl.failed = true → Ensured B cfg impl w (false, impl, w)
  | kept : impl.initd = true → impl.failed = false → impl.buffer.isSome = true →
      Ensured B cfg impl w (true, impl, w)
  /-- The buffer of a writer with writes disabled is not available now. -/
  | pending {impl' : WriterImpl} : impl.initd = true → impl.failed = false → impl.buffer = none →
      impl'.initd = true → impl'.failed = false → impl'.buffer = none →
      Ensured B cfg impl w (false, impl', w)
  | broken {impl' : WriterImpl} {w' : World} : impl.initd = true → impl.failed = false →
      impl.buffer = none → impl'.Broken → impl'.initd = true → w'.closed = w.closed →
      FilesFrom w w' → Ensured B cfg impl w (false, impl', w')
  | fresh {impl' : WriterImpl} {w' : World} : impl.initd = true → impl.failed = false →
      impl.buffer = none → impl'.Fresh B cfg → w'.closed = w.closed → FilesFrom w w' →
      Ensured B cfg impl w (true, impl', w')

theorem holds_beginFragment (B : Build) {impl : WriterImpl} (h : impl.buffer.isSome = true) :
    (beginFragment B impl).Holds B.versionHeader := by
  obtain ⟨b, hb⟩ := Option.isSome_iff_exists.mp h
  refine ⟨{ b with mem := b.mem.store 0 B.versionHeader }, by rw [beginFragment, hb]; rfl, ?_⟩
  have hlen := B.length_versionHeader
  change (b.mem.store 0 B.versionHeader).load 0 sizeofVersionHeader = _
  rw [← hlen, Mem.load_store_self]

theorem alloc_spec {w w' : World} {ok : Bool} {n id : Nat} {source : Source}
    (h : w.alloc ok n source = some (id, w')) :
    n ≤ ptrdiffMax ∧ w'.closed = w.closed ∧ w'.dir = w.dir := by
  rw [World.alloc] at h
  split at h
  next hok =>
    cases h
    simp only [Bool.and_eq_true, decide_eq_true_eq] at hok
    exact ⟨hok.2, rfl, rfl⟩
  next => cases h

theorem Ensured.of_fail {B : Build} {cfg : Config} {impl impl₁ : WriterImpl} {w w₁ : World}
    (hi : impl.initd = true) (hf : impl.failed = false) (hb : impl.buffer = none)
    (hi₁ : impl₁.initd = true) (hc : w₁.closed = w.closed) (hd : FilesFrom w w₁) :
    Ensured B cfg impl w (false, fail impl₁ w₁) := by
  obtain ⟨hbr, hi', hc', hd'⟩ := fail_spec impl₁ w₁
  generalize fail impl₁ w₁ = result at *
  exact .broken hi hf hb hbr (hi'.trans hi₁) (hc'.trans hc) (hd.trans_eq hd')

theorem ensureBuffer_spec (B : Build) (cfg : Config) (o : Outcomes) (impl : WriterImpl)
    (w : World) : Ensured B cfg impl w (ensureBuffer B cfg o impl w) := by
  rw [ensureBuffer]
  split
  next h => exact .refused (.inl (by simpa using h))
  next hi =>
  have hi : impl.initd = true := by simpa using hi
  split
  next h => exact .refused (.inr h)
  next hf =>
  have hf : impl.failed = false := by simpa using hf
  split
  next h => exact .kept hi hf h
  next hb =>
  have hb : impl.buffer = none := by simpa using hb
  dsimp only
  split
  next => exact .broken hi hf hb ⟨rfl, hb⟩ hi rfl (.of_eq rfl)
  next hv =>
  have hv : validateTraceSize cfg.traceSize (!cfg.writesDisabled) = true := by simpa using hv
  split
  next hdis =>
    split
    next => exact .pending hi hf hb hi hf rfl
    next id w' ha =>
      obtain ⟨hle, hc, hd⟩ := alloc_spec ha
      exact .fresh hi hf hb
        ⟨hi, hf, holds_beginFragment B rfl, rfl, hv, hle, by rw [hdis]; rfl⟩ hc (.of_eq hd)
  next hdis =>
    split
    next => exact .broken hi hf hb ⟨rfl, rfl⟩ hi rfl (.of_eq rfl)
    next id w₁ ha =>
      obtain ⟨hle, hc, hd⟩ := alloc_spec ha
      split
      next => exact .of_fail hi hf hb hi hc (.of_eq hd)
      next cid w₂ hm =>
        obtain ⟨-, hc₂, hd₂⟩ := alloc_spec hm
        have hdir : w₂.dir = w.dir := hd₂.trans hd
        generalize himpl : ({ impl with
          size := cfg.traceSize, offset := 0, enumerator := 0, buffer := some ⟨id, .zero⟩
          mmapped := true, compBuf := some cid } : WriterImpl) = impl₂
        obtain ⟨⟨n, hn⟩, hc₃, hd₃⟩ := firstFragment_spec o (2 ^ 32) impl₂ w₂
        have hfiles : FilesFrom w (firstFragment o (2 ^ 32) impl₂ w₂).2.2 := by
          intro m hm
          rcases hd₃ m hm with h | h
          · rw [hdir] at h
            exact .inl h
          · exact .inr h
        have hclosed := (hc₃.trans hc₂).trans hc
        generalize firstFragment o (2 ^ 32) impl₂ w₂ = result at *
        obtain ⟨ok, impl₃, w₃⟩ := result
        subst himpl
        cases hn
        cases ok with
        | false => exact .of_fail hi hf hb hi hclosed hfiles
        | true =>
            exact .fresh hi hf hb
              ⟨hi, hf, holds_beginFragment B rfl, rfl, hv, hle, by simp [hdis, beginFragment]⟩
              hclosed hfiles

theorem ensureBuffer_kept {B : Build} {cfg : Config} {o : Outcomes} {impl : WriterImpl} {w : World}
    (hi : impl.initd = true) (hf : impl.failed = false)
    (hb : impl.buffer.isSome = true) :
    ensureBuffer B cfg o impl w = (true, impl, w) := by
  simp [ensureBuffer, hi, hf, hb]

/-! ## The next fragment -/

/-- The page was flushed and the writer is at the start of the next fragment. -/
structure Rolled (B : Build) (cfg : Config) (page : List UInt8) (impl : WriterImpl) (w : World)
    (impl' : WriterImpl) (w' : World) : Prop where
  initd : impl'.initd = impl.initd
  failed : impl'.failed = impl.failed
  mmapped : impl'.mmapped = impl.mmapped
  holds : impl'.Holds B.versionHeader
  /-- Only a writer with writes disabled changes the size of its buffer. -/
  size : impl'.size = impl.size ∨ impl.mmapped = false ∧ impl'.size = cfg.traceSize ∧
    sizeofVersionHeader ≤ cfg.traceSize ∧ cfg.traceSize ≤ ptrdiffMax
  enumerator : impl.mmapped = true →
    impl'.enumerator = (impl.enumerator + 1) % 2 ^ 32 % cfg.maxFileCount.toNat
  closed : w'.closed = w.closed ++ [page]
  dir : impl.mmapped = false ∧ w'.dir = w.dir ∨ impl.mmapped = true ∧
    ∃ file, IsImage B page file ∧
      w'.dir = (w.dir.openEmpty impl.enumerator).put impl.enumerator file

/-- What `advance_fragment_` changes. -/
structure Advanced (cfg : Config) (impl : WriterImpl) (w : World) (impl' : WriterImpl)
    (w' : World) : Prop where
  initd : impl'.initd = impl.initd
  failed : impl'.failed = impl.failed
  mmapped : impl'.mmapped = impl.mmapped
  isSome : impl'.buffer.isSome = impl.buffer.isSome
  size : impl'.size = impl.size ∨ impl.mmapped = false ∧ impl'.size = cfg.traceSize ∧
    sizeofVersionHeader ≤ cfg.traceSize ∧ cfg.traceSize ≤ ptrdiffMax
  enumerator : impl.mmapped = true →
    impl'.enumerator = (impl.enumerator + 1) % 2 ^ 32 % cfg.maxFileCount.toNat
  closed : w'.closed = w.closed
  dir : w'.dir = w.dir

theorem validateTraceSize_ge {size : Nat} {compressed : Bool}
    (h : validateTraceSize size compressed = true) : sizeofVersionHeader ≤ size := by
  rw [validateTraceSize] at h
  split at h
  next => cases h
  next hge => omega

theorem advanceFragment_spec (cfg : Config) (o : Outcomes) (impl : WriterImpl) (w : World) :
    Advanced cfg impl w (advanceFragment cfg o impl w).1 (advanceFragment cfg o impl w).2 := by
  rw [advanceFragment]
  split
  next hm =>
    have hm : impl.mmapped = false := by simpa using hm
    have hen : impl.mmapped = true →
        impl.enumerator = (impl.enumerator + 1) % 2 ^ 32 % cfg.maxFileCount.toNat :=
      fun h => nomatch hm.symm.trans h
    split
    next => exact ⟨rfl, rfl, rfl, rfl, .inl rfl, hen, rfl, rfl⟩
    next b hb =>
      split
      next hv =>
        split
        next => exact ⟨rfl, rfl, rfl, rfl, .inl rfl, hen, rfl, rfl⟩
        next id w' ha =>
          obtain ⟨hle, hc, hd⟩ := alloc_spec ha
          exact ⟨rfl, rfl, rfl, by rw [hb]; rfl,
            .inr ⟨hm, rfl, validateTraceSize_ge hv.2, hle⟩, hen, by simp [hc], by simp [hd]⟩
      next => exact ⟨rfl, rfl, rfl, rfl, .inl rfl, hen, rfl, rfl⟩
  next hm => exact ⟨rfl, rfl, rfl, rfl, .inl rfl, fun _ => rfl, rfl, rfl⟩

/-- `new_trace_` goes to the next fragment or breaks the writer. -/
theorem newTrace_spec (B : Build) (cfg : Config) (o : Outcomes) {impl : WriterImpl} (w : World)
    {page : List UInt8} (h : impl.Holds page) :
    Rolled B cfg page impl w (newTrace B cfg o impl w).1 (newTrace B cfg o impl w).2 ∨
      (newTrace B cfg o impl w).1.Broken ∧ (newTrace B cfg o impl w).1.initd = impl.initd ∧
        (newTrace B cfg o impl w).2.closed = w.closed ++ [page] := by
  have hsome := h.isSome
  have hflush := flush_spec B o w h
  rw [newTrace]
  generalize flush B o impl w = result at hflush
  obtain ⟨impl₁, w₁⟩ := result
  dsimp only
  have hroll : impl₁ = impl → w₁.closed = w.closed ++ [page] →
      (impl.mmapped = false ∧ w₁.dir = w.dir ∨ impl.mmapped = true ∧ ∃ file, IsImage B page file ∧
        w₁.dir = (w.dir.openEmpty impl.enumerator).put impl.enumerator file) →
      Rolled B cfg page impl w (beginFragment B (advanceFragment cfg o impl₁ w₁).1)
        (advanceFragment cfg o impl₁ w₁).2 := by
    rintro rfl hc hd
    obtain ⟨hi, hf, hm, hs, hsize, hen, hc', hd'⟩ := advanceFragment_spec cfg o impl₁ w₁
    exact ⟨hi, hf, hm, holds_beginFragment B (hs.trans hsome), hsize, hen, hc'.trans hc,
      by rw [hd']; exact hd⟩
  cases hflush with
  | unwritten hm hc hd =>
      rw [if_neg h.not_isNone]
      exact .inl (hroll rfl hc (.inl ⟨hm, hd⟩))
  | written hm hfile hc hd =>
      rw [if_neg h.not_isNone]
      exact .inl (hroll rfl hc (.inr ⟨hm, _, hfile, hd⟩))
  | broken hbr hi hc _ =>
      rw [if_pos (by rw [hbr.buffer]; rfl)]
      exact .inr ⟨hbr, hi, hc⟩

/-! ## Reservations -/

/-- The writer after a reservation of `size` bytes at its offset. -/
def WriterImpl.reserved (impl : WriterImpl) (size : Nat) : WriterImpl :=
  { impl with offset := (impl.offset + size) % 2 ^ 64 }

/-- What a reservation does once there is a buffer. -/
inductive Placed (B : Build) (cfg : Config) (o : Outcomes) (page : List UInt8) (impl : WriterImpl)
    (w : World) (size : Nat) : Option Nat × WriterImpl × World → Prop where
  | inPage : writerNewTrace cfg impl size = false →
      Placed B cfg o page impl w size (some impl.offset, impl.reserved size, w)
  | rolled {impl' : WriterImpl} {w' : World} : writerNewTrace cfg impl size = true →
      Rolled B cfg page impl w impl' w' →
      Placed B cfg o page impl w size (some impl'.offset, impl'.reserved size, w')
  | broken {impl' : WriterImpl} {w' : World} : writerNewTrace cfg impl size = true →
      newTrace B cfg o impl w = (impl', w') → impl'.Broken → impl'.initd = impl.initd →
      w'.closed = w.closed ++ [page] → Placed B cfg o page impl w size (none, impl', w')

/-- A reservation makes sure that there is a buffer and then takes its place. -/
theorem writerReserve_spec (B : Build) (cfg : Config) (o : Outcomes) (impl : WriterImpl) (w : World)
    (size : Nat) :
    (∃ impl' w', ensureBuffer B cfg o impl w = (false, impl', w') ∧
      writerReserve B cfg o impl w size = (none, impl', w')) ∨
    ∃ impl₁ w₁, ensureBuffer B cfg o impl w = (true, impl₁, w₁) ∧ ∀ page, impl₁.Holds page →
      Placed B cfg o page impl₁ w₁ size (writerReserve B cfg o impl w size) := by
  rw [writerReserve]
  generalize ensureBuffer B cfg o impl w = result
  obtain ⟨ok, impl₁, w₁⟩ := result
  cases ok with
  | false => exact .inl ⟨impl₁, w₁, rfl, rfl⟩
  | true =>
      refine .inr ⟨impl₁, w₁, rfl, ?_⟩
      intro page hpage
      dsimp only
      split
      next hnew =>
        have hspec := newTrace_spec B cfg o w₁ hpage
        cases hresult : newTrace B cfg o impl₁ w₁ with
        | mk impl₂ w₂ =>
            rw [hresult] at hspec
            rcases hspec with hroll | ⟨hbr, hi, hc⟩
            · rw [if_neg hroll.holds.not_isNone]
              exact .rolled hnew hroll
            · rw [if_pos (by rw [hbr.buffer]; rfl)]
              exact .broken hnew hresult hbr hi hc
      next hnew => exact .inPage (by simpa using hnew)

end Coldtrace
