import Mathlib.Data.List.Nodup
import Mathlib.Tactic.Common
import Coldtrace.Writer
import Coldtrace.Thread
import Coldtrace.Session

/-!
# The memory of a writer

A writer owns the block of its buffer and the block of its compression buffer,
and nothing else.  Between two calls the allocated blocks are those from before
the session and the blocks it owns (`Owns`), whichever calls fail.

Releasing is where this can go wrong, for the two kinds of buffers have their
own release functions and `munmap` needs the length.  A release that does not
fit its block sets `World.misused`, so the invariant says that there is none.
-/

namespace Coldtrace

/-! ## The heap -/

/-- The blocks have ids of their own, and no block was released in a wrong way. -/
structure World.HeapOk (w : World) : Prop where
  fresh : ∀ b ∈ w.heap, b.id < w.fresh
  nodup : (w.heap.map Block.id).Nodup
  misused : w.misused = false

/-- What an allocation that succeeds does. -/
theorem alloc_heap {w w' : World} {ok : Bool} {n id : Nat} {source : Source}
    (h : w.alloc ok n source = some (id, w')) (hw : w.HeapOk) :
    w'.heap = w.heap ++ [⟨id, source⟩] ∧ w'.HeapOk := by
  rw [World.alloc] at h
  split at h
  next =>
    cases h
    refine ⟨rfl, ?_, ?_, hw.misused⟩
    · intro b hb
      change b.id < w.fresh + 1
      rcases List.mem_append.mp hb with hb | hb
      · have := hw.fresh b hb
        omega
      · rw [List.mem_singleton.mp hb]
        exact Nat.lt_succ_self _
    · change ((w.heap ++ [(⟨w.fresh, source⟩ : Block)]).map Block.id).Nodup
      rw [List.map_append, List.map_singleton, List.nodup_append]
      refine ⟨hw.nodup, List.nodup_singleton _, ?_⟩
      intro x hx y hy
      obtain ⟨b, hb, rfl⟩ := List.mem_map.mp hx
      have := hw.fresh b hb
      rw [List.mem_singleton.mp hy]
      dsimp only
      omega
  next => cases h

/-- What a release of an allocated block does. -/
theorem release_heap {w : World} {H T : List Block} {id : Nat} {source : Source} (hw : w.HeapOk)
    (h : w.heap = H ++ ⟨id, source⟩ :: T) :
    (w.release id source).heap = H ++ T ∧ (w.release id source).HeapOk := by
  have hmem : (⟨id, source⟩ : Block) ∈ w.heap := by rw [h]; simp
  have hnot : (⟨id, source⟩ : Block) ∉ H := by
    intro hH
    have hnd := hw.nodup
    rw [h, List.map_append, List.nodup_append] at hnd
    exact hnd.2.2 id (List.mem_map_of_mem hH) id (by simp) rfl
  have herase : w.heap.erase ⟨id, source⟩ = H ++ T := by
    rw [h, List.erase_append_right _ hnot, List.erase_cons_head]
  have hsub : (H ++ T).Sublist w.heap := by
    rw [h]
    exact (List.sublist_cons_self _ T).append_left H
  rw [World.release, if_pos hmem]
  exact ⟨herase, fun b hb => hw.fresh b (List.mem_of_mem_erase hb), by
    change ((w.heap.erase ⟨id, source⟩).map Block.id).Nodup
    rw [herase]
    exact hw.nodup.sublist (hsub.map Block.id), hw.misused⟩

/-! ## What a writer owns -/

/-- The blocks a writer refers to, with the way to release them. -/
def WriterImpl.blocks (impl : WriterImpl) : List Block :=
  (impl.buffer.map fun b => ⟨b.id, if impl.mmapped then .mmap impl.size else .mempool⟩).toList ++
    (impl.compBuf.map fun c => ⟨c, .malloc⟩).toList

/-- The allocated blocks are those of `H` and those of the writer. -/
structure Owns (H : List Block) (impl : WriterImpl) (w : World) : Prop where
  heap : w.heap = H ++ impl.blocks
  ok : w.HeapOk

/-- Which pointers of a writer are set. -/
structure WriterImpl.Shape (impl : WriterImpl) : Prop where
  failed : impl.failed = true → impl.buffer = none ∧ impl.compBuf = none
  paired : impl.buffer.isSome = true → impl.mmapped = true → impl.compBuf.isSome = true
  alone : impl.compBuf.isSome = true → impl.buffer.isSome = true ∧ impl.mmapped = true

section

variable {H : List Block} {impl : WriterImpl} {w : World}

theorem WriterImpl.Shape.compBuf_none (h : impl.Shape) (hb : impl.buffer = none) :
    impl.compBuf = none := by
  cases hc : impl.compBuf with
  | none => rfl
  | some c =>
      have := (h.alone (by rw [hc]; rfl)).1
      rw [hb] at this
      cases this

theorem shape_of_none (hb : impl.buffer = none) (hc : impl.compBuf = none) : impl.Shape where
  failed _ := ⟨hb, hc⟩
  paired h := by rw [hb] at h; cases h
  alone h := by rw [hc] at h; cases h

/-- `release_buffers_` releases what the writer owns. -/
theorem releaseBuffers_owns (h : Owns H impl w) :
    Owns H (releaseBuffers impl w).1 (releaseBuffers impl w).2 ∧
      (releaseBuffers impl w).1.buffer = none ∧ (releaseBuffers impl w).1.compBuf = none := by
  obtain ⟨hheap, hok⟩ := h
  rw [WriterImpl.blocks] at hheap
  cases hb : impl.buffer with
  | none =>
      cases hc : impl.compBuf with
      | none =>
          have hrel : releaseBuffers impl w = (impl, w) := by simp only [releaseBuffers, hb, hc]
          rw [hrel]
          exact ⟨⟨hheap, hok⟩, hb, hc⟩
      | some c =>
          have hrel : releaseBuffers impl w =
              ({ impl with compBuf := none }, w.release c .malloc) := by
            simp only [releaseBuffers, hb, hc]
          rw [hb, hc] at hheap
          obtain ⟨hheap', hok'⟩ := release_heap hok hheap
          rw [hrel]
          exact ⟨⟨by simp [hheap', WriterImpl.blocks, hb], hok'⟩, hb, rfl⟩
  | some b =>
      rw [hb] at hheap
      obtain ⟨hheap₁, hok₁⟩ := release_heap hok hheap
      cases hc : impl.compBuf with
      | none =>
          have hrel : releaseBuffers impl w = ({ impl with buffer := none },
              w.release b.id (if impl.mmapped then .mmap impl.size else .mempool)) := by
            simp only [releaseBuffers, hb, hc]
          rw [hc] at hheap₁
          rw [hrel]
          exact ⟨⟨by simp [hheap₁, WriterImpl.blocks, hc], hok₁⟩, rfl, hc⟩
      | some c =>
          have hrel : releaseBuffers impl w = ({ impl with buffer := none, compBuf := none },
              (w.release b.id (if impl.mmapped then .mmap impl.size else .mempool)).release c
                .malloc) := by
            simp only [releaseBuffers, hb, hc]
          rw [hc] at hheap₁
          obtain ⟨hheap₂, hok₂⟩ := release_heap hok₁ hheap₁
          rw [hrel]
          exact ⟨⟨hheap₂, hok₂⟩, rfl, rfl⟩

/-- `fail_` releases what the writer owns. -/
theorem fail_owns (h : Owns H impl w) :
    Owns H (fail impl w).1 (fail impl w).2 ∧ (fail impl w).1.Shape := by
  obtain ⟨hown, hb, hc⟩ := releaseBuffers_owns h
  exact ⟨⟨hown.heap, hown.ok⟩, shape_of_none hb hc⟩

/-- Only the heap matters. -/
theorem Owns.same {w' : World} (h : Owns H impl w) (hh : w'.heap = w.heap)
    (hf : w'.fresh = w.fresh) (hm : w'.misused = w.misused) : Owns H impl w' :=
  ⟨hh.trans h.heap, by rw [hh, hf]; exact h.ok.fresh, by rw [hh]; exact h.ok.nodup,
    hm.trans h.ok.misused⟩

/-- `flush_` keeps what the writer owns, or fails and releases it. -/
theorem flush_owns (B : Build) (o : Outcomes) (h : Owns H impl w) (hs : impl.Shape) :
    Owns H (flush B o impl w).1 (flush B o impl w).2 ∧ (flush B o impl w).1.Shape := by
  rw [flush]
  split
  next => exact ⟨h, hs⟩
  next b _ =>
    dsimp only
    split
    next => exact ⟨h.same rfl rfl rfl, hs⟩
    next =>
      split
      next => exact fail_owns (h.same rfl rfl rfl)
      next =>
        split
        next => exact fail_owns (h.same rfl rfl rfl)
        next =>
          split
          next => exact ⟨h.same rfl rfl rfl, hs⟩
          next => exact fail_owns (h.same rfl rfl rfl)

theorem firstFragment_heap (o : Outcomes) : ∀ (fuel : Nat) (impl : WriterImpl) (w : World),
    (firstFragment o fuel impl w).2.2.heap = w.heap ∧
      (firstFragment o fuel impl w).2.2.fresh = w.fresh ∧
      (firstFragment o fuel impl w).2.2.misused = w.misused
  | 0, _, _ => ⟨rfl, rfl, rfl⟩
  | fuel + 1, impl, w => by
      rw [firstFragment]
      split
      next => exact ⟨rfl, rfl, rfl⟩
      next =>
        split
        next => exact firstFragment_heap o fuel _ _
        next => exact ⟨rfl, rfl, rfl⟩

/-- The bytes of the buffer do not matter. -/
theorem blocks_map (f : Buffer → Buffer) (hf : ∀ b, (f b).id = b.id) (impl : WriterImpl) :
    ({ impl with buffer := impl.buffer.map f } : WriterImpl).blocks = impl.blocks := by
  cases hb : impl.buffer <;> simp [WriterImpl.blocks, hb, hf]

theorem beginFragment_owns (B : Build) (h : Owns H impl w) (hs : impl.Shape) :
    Owns H (beginFragment B impl) w ∧ (beginFragment B impl).Shape := by
  have hblocks : (beginFragment B impl).blocks = impl.blocks := 
    blocks_map (fun b => { b with mem := b.mem.store 0 B.versionHeader }) (fun _ => rfl) impl
  refine ⟨⟨h.heap.trans (by rw [hblocks]), h.ok⟩, fun hf => ?_, fun hb => ?_, fun hc => ?_⟩
  · obtain ⟨hb, hc⟩ := hs.failed hf
    exact ⟨by simp [beginFragment, hb], hc⟩
  · exact hs.paired (by simpa [beginFragment] using hb)
  · simpa [beginFragment] using hs.alone hc

/-- `ensure_buffer_` allocates what the writer owns after it. -/
theorem ensureBuffer_owns (B : Build) (cfg : Config) (o : Outcomes) (h : Owns H impl w)
    (hs : impl.Shape) : Owns H (ensureBuffer B cfg o impl w).2.1 (ensureBuffer B cfg o impl w).2.2 ∧
      (ensureBuffer B cfg o impl w).2.1.Shape := by
  rw [ensureBuffer]
  split
  next => exact ⟨h, hs⟩
  next =>
  split
  next => exact ⟨h, hs⟩
  next hf =>
  have hf : impl.failed = false := by simpa using hf
  split
  next => exact ⟨h, hs⟩
  next hb =>
  have hb : impl.buffer = none := by simpa using hb
  have hc := hs.compBuf_none hb
  have hheap : w.heap = H := by
    rw [h.heap, WriterImpl.blocks, hb, hc]
    exact List.append_nil H
  dsimp only
  split
  next => exact ⟨⟨by simp [hheap, WriterImpl.blocks, hb, hc], h.ok⟩, shape_of_none hb hc⟩
  next =>
  split
  next =>
    split
    next => exact ⟨⟨by simp [hheap, WriterImpl.blocks, hc], h.ok⟩, shape_of_none rfl hc⟩
    next id w' ha =>
      obtain ⟨hheap', hok'⟩ := alloc_heap ha h.ok
      refine beginFragment_owns B ⟨?_, hok'⟩ ⟨?_, ?_, ?_⟩
      · simp [hheap', hheap, WriterImpl.blocks, hc]
      · exact fun hf' => by rw [hf] at hf'; cases hf'
      · exact fun _ hm => by cases hm
      · exact fun hcomp => by rw [hc] at hcomp; cases hcomp
  next =>
    split
    next => exact ⟨⟨by simp [hheap, WriterImpl.blocks, hc], h.ok⟩, shape_of_none rfl hc⟩
    next id w₁ ha =>
      obtain ⟨hheap₁, hok₁⟩ := alloc_heap ha h.ok
      split
      next =>
        refine fail_owns ⟨?_, hok₁⟩
        simp [hheap₁, hheap, WriterImpl.blocks, hc]
      next cid w₂ hm =>
        obtain ⟨hheap₂, hok₂⟩ := alloc_heap hm hok₁
        generalize himpl : ({ impl with
          size := cfg.traceSize, offset := 0, enumerator := 0, buffer := some ⟨id, .zero⟩
          mmapped := true, compBuf := some cid } : WriterImpl) = impl₂
        obtain ⟨⟨n, hn⟩, -, -⟩ := firstFragment_spec o (2 ^ 32) impl₂ w₂
        obtain ⟨hh, hfr, hmi⟩ := firstFragment_heap o (2 ^ 32) impl₂ w₂
        generalize firstFragment o (2 ^ 32) impl₂ w₂ = result at *
        obtain ⟨ok, impl₃, w₃⟩ := result
        subst himpl
        cases hn
        have hown : Owns H { impl with
            size := cfg.traceSize, offset := 0, buffer := some ⟨id, .zero⟩, mmapped := true
            compBuf := some cid, enumerator := n } w₃ := by
          refine Owns.same ⟨?_, hok₂⟩ hh hfr hmi
          simp [hheap₂, hheap₁, hheap, WriterImpl.blocks]
        cases ok with
        | false => exact fail_owns hown
        | true =>
            refine beginFragment_owns B hown ⟨?_, fun _ _ => rfl, fun _ => ⟨rfl, rfl⟩⟩
            exact fun hf' => by rw [hf] at hf'; cases hf'

/-- `advance_fragment_` may swap the buffer for one of another size. -/
theorem advanceFragment_owns (cfg : Config) (o : Outcomes) (h : Owns H impl w) (hs : impl.Shape) :
    Owns H (advanceFragment cfg o impl w).1 (advanceFragment cfg o impl w).2 ∧
      (advanceFragment cfg o impl w).1.Shape := by
  rw [advanceFragment]
  split
  next hm =>
    have hm : impl.mmapped = false := by simpa using hm
    split
    next => exact ⟨⟨h.heap, h.ok⟩, hs.failed, hs.paired, hs.alone⟩
    next b hb =>
      split
      next =>
        split
        next => exact ⟨⟨h.heap, h.ok⟩, hs.failed, hs.paired, hs.alone⟩
        next id w' ha =>
          have hc : impl.compBuf = none := by
            cases hc : impl.compBuf with
            | none => rfl
            | some c =>
                have := (hs.alone (by rw [hc]; rfl)).2
                rw [hm] at this
                cases this
          obtain ⟨hheap', hok'⟩ := alloc_heap ha h.ok
          have hheap := h.heap
          simp only [WriterImpl.blocks, hb, hc, hm, Option.map_some, Option.map_none,
            Option.toList_some, Option.toList_none, Bool.false_eq_true, if_false,
            List.append_nil] at hheap
          rw [hheap, List.append_assoc] at hheap'
          obtain ⟨hheap₂, hok₂⟩ := release_heap hok' hheap'
          refine ⟨⟨?_, hok₂⟩, fun hf => ?_, fun _ hm' => ?_, fun hcomp => ?_⟩
          · simp [hheap₂, WriterImpl.blocks, hc, hm]
          · rw [(hs.failed hf).1] at hb
            cases hb
          · rw [hm] at hm'
            cases hm'
          · rw [hc] at hcomp
            cases hcomp
      next => exact ⟨⟨h.heap, h.ok⟩, hs.failed, hs.paired, hs.alone⟩
  next => exact ⟨⟨h.heap, h.ok⟩, hs.failed, hs.paired, hs.alone⟩

theorem newTrace_owns (B : Build) (cfg : Config) (o : Outcomes) (h : Owns H impl w)
    (hs : impl.Shape) : Owns H (newTrace B cfg o impl w).1 (newTrace B cfg o impl w).2 ∧
      (newTrace B cfg o impl w).1.Shape := by
  obtain ⟨h₁, hs₁⟩ := flush_owns B o h hs
  rw [newTrace]
  dsimp only
  split
  next => exact ⟨h₁, hs₁⟩
  next =>
    obtain ⟨h₂, hs₂⟩ := advanceFragment_owns cfg o h₁ hs₁
    exact beginFragment_owns B h₂ hs₂

theorem writerReserve_owns (B : Build) (cfg : Config) (o : Outcomes) (size : Nat)
    (h : Owns H impl w) (hs : impl.Shape) :
    Owns H (writerReserve B cfg o impl w size).2.1 (writerReserve B cfg o impl w size).2.2 ∧
      (writerReserve B cfg o impl w size).2.1.Shape := by
  have hens := ensureBuffer_owns B cfg o h hs
  rw [writerReserve]
  generalize ensureBuffer B cfg o impl w = result at hens
  obtain ⟨ok, impl₁, w₁⟩ := result
  obtain ⟨h₁, hs₁⟩ := hens
  cases ok with
  | false => exact ⟨h₁, hs₁⟩
  | true =>
      dsimp only
      split
      next =>
        obtain ⟨h₂, hs₂⟩ := newTrace_owns B cfg o h₁ hs₁
        split
        next => exact ⟨h₂, hs₂⟩
        next => exact ⟨⟨h₂.heap, h₂.ok⟩, hs₂.failed, hs₂.paired, hs₂.alone⟩
      next => exact ⟨⟨h₁.heap, h₁.ok⟩, hs₁.failed, hs₁.paired, hs₁.alone⟩

/-- `coldtrace_writer_fini` releases what an initialised writer owns. -/
theorem writerFini_owns (B : Build) (o : Outcomes) (h : Owns H impl w) (hs : impl.Shape) :
    Owns H (writerFini B o impl w).1 (writerFini B o impl w).2 ∧ (writerFini B o impl w).1.Shape ∧
      (writerFini B o impl w).1.initd = false := by
  rw [writerFini]
  split
  next hi => exact ⟨h, hs, by simpa using hi⟩
  next =>
    have hflush : Owns H (if impl.buffer.isSome then flush B o impl w else (impl, w)).1
        (if impl.buffer.isSome then flush B o impl w else (impl, w)).2 := by
      split
      next => exact (flush_owns B o h hs).1
      next => exact h
    generalize (if impl.buffer.isSome = true then flush B o impl w else (impl, w)) =
      result at hflush
    obtain ⟨hown, hb, hc⟩ := releaseBuffers_owns hflush
    exact ⟨⟨hown.heap, hown.ok⟩, shape_of_none hb hc, rfl⟩

end

/-! ## Sessions -/

/-- A reservation does not end a session. -/
theorem writerReserve_initd (B : Build) (cfg : Config) (o : Outcomes) (impl : WriterImpl)
    (w : World) (size : Nat) : (writerReserve B cfg o impl w size).2.1.initd = impl.initd := by
  have hspec := ensureBuffer_spec B cfg o impl w
  rcases writerReserve_spec B cfg o impl w size with
    ⟨impl₁, w₁, hens, hres⟩ | ⟨impl₁, w₁, hens, hres⟩
  · rw [hres]
    rw [hens] at hspec
    cases hspec with
    | refused => rfl
    | pending hi _ _ hi' _ _ => exact hi'.trans hi.symm
    | broken hi _ _ _ hi' _ _ => exact hi'.trans hi.symm
  · rw [hens] at hspec
    have hholds : (∃ page, impl₁.Holds page) ∧ impl₁.initd = impl.initd := by
      cases hspec with
      | kept _ _ hsome =>
          obtain ⟨b, hb⟩ := Option.isSome_iff_exists.mp hsome
          exact ⟨⟨_, b, hb, rfl⟩, rfl⟩
      | fresh hi _ _ hfresh _ _ => exact ⟨⟨_, hfresh.holds⟩, hfresh.initd.trans hi.symm⟩
    obtain ⟨⟨page, hpage⟩, hi⟩ := hholds
    have hplaced := hres page hpage
    generalize writerReserve B cfg o impl w size = result at hplaced
    cases hplaced with
    | inPage => exact hi
    | rolled _ hr => exact hr.initd.trans hi
    | broken _ _ _ hi' _ => exact hi'.trans hi

/-- The invariant of a session: the writer owns exactly what it refers to, and
nothing once it is finalised. -/
structure Session.Owned (H : List Block) (s : Session) : Prop where
  owns : Owns H s.impl s.world
  shape : s.impl.Shape
  final : s.impl.initd = false → s.impl.buffer = none ∧ s.impl.compBuf = none

namespace Session

theorem Owned.dead {H : List Block} {s : Session} (h : s.Owned H)
    (hover : s.impl.failed = true ∨ s.impl.initd = false) : Dead s.impl := by
  have hnone : s.impl.buffer = none ∧ s.impl.compBuf = none := by
    rcases hover with hf | hi
    · exact h.shape.failed hf
    · exact h.final hi
  exact ⟨hover, hnone.1, hnone.2⟩

theorem Owned.step (B : Build) {H : List Block} {s : Session} (h : s.Owned H) (ev : WriterEvent) :
    (step B s ev).Owned H := by
  obtain ⟨cfg, o, call⟩ := ev
  cases call with
  | reserve size =>
      obtain ⟨hown, hshape⟩ := writerReserve_owns B cfg o size h.owns h.shape
      refine ⟨hown, hshape, fun hi => ?_⟩
      -- a finalised writer is dead, and stays so
      have hi : (writerReserve B cfg o s.impl s.world size).2.1.initd = false := hi
      rw [writerReserve_initd] at hi
      obtain ⟨hdead, -, -⟩ := step_dead B (h.dead (.inr hi)) ⟨cfg, o, .reserve size⟩
      exact ⟨hdead.buffer, hdead.compBuf⟩
  | store offset bs =>
      have hblocks : (s.impl.store offset bs).blocks = s.impl.blocks :=
        blocks_map (fun b => { b with mem := b.mem.store offset bs }) (fun _ => rfl) s.impl
      refine ⟨⟨h.owns.heap.trans (by rw [← hblocks]; rfl), h.owns.ok⟩, ⟨fun hf => ?_, fun hb => ?_,
        fun hc => ?_⟩, fun hi => ?_⟩
      · obtain ⟨hb, hc⟩ := h.shape.failed hf
        exact ⟨by simp [Session.step, WriterImpl.store, hb], hc⟩
      · exact h.shape.paired (by simpa [Session.step, WriterImpl.store] using hb)
      · simpa [Session.step, WriterImpl.store] using h.shape.alone hc
      · obtain ⟨hb, hc⟩ := h.final hi
        exact ⟨by simp [Session.step, WriterImpl.store, hb], hc⟩
  | fini =>
      obtain ⟨hown, hshape, hi⟩ := writerFini_owns B o h.owns h.shape
      refine ⟨hown, hshape, fun _ => ?_⟩
      cases hinit : s.impl.initd with
      | false =>
          obtain ⟨hdead, -, -⟩ := step_dead B (h.dead (.inr hinit)) ⟨cfg, o, .fini⟩
          exact ⟨hdead.buffer, hdead.compBuf⟩
      | true =>
          have hb : (writerFini B o s.impl s.world).1.buffer = none := by
            rw [writerFini, if_neg (by simp [hinit])]
            exact (releaseBuffers_spec ..).1
          exact ⟨hb, hshape.compBuf_none hb⟩

theorem owned_start (impl : WriterImpl) (tid : Nat) {w : World} (hw : w.HeapOk) :
    (start impl tid w).Owned w.heap :=
  ⟨⟨(List.append_nil _).symm, hw⟩, shape_of_none rfl rfl, fun hi => nomatch hi⟩

theorem owned_run (B : Build) {H : List Block} {s : Session} (h : s.Owned H)
    (evs : List WriterEvent) : (run B s evs).Owned H :=
  run_invariant (P := fun _ => True) (fun _ ev hI _ => hI.step B ev) h fun _ _ => trivial

/-- A session with a `coldtrace_writer_fini` in it is over. -/
theorem initd_of_fini (B : Build) {H : List Block} {s : Session} (h : s.Owned H)
    {evs : List WriterEvent} (hfini : ∃ ev ∈ evs, ev.call = .fini) :
    Dead (run B s evs).impl ∧ (run B s evs).world.heap = H := by
  obtain ⟨⟨cfg, o, call⟩, hmem, rfl⟩ := hfini
  obtain ⟨pre, post, rfl⟩ := List.append_of_mem hmem
  have hpre := owned_run B h pre
  have hstep := hpre.step B ⟨cfg, o, .fini⟩
  obtain ⟨-, -, hi⟩ := writerFini_owns B o hpre.owns hpre.shape
  have hdead := hstep.dead (.inr hi)
  have hheap : (step B (run B s pre) ⟨cfg, o, .fini⟩).world.heap = H := by
    rw [hstep.owns.heap, WriterImpl.blocks, hdead.buffer, hdead.compBuf]
    exact List.append_nil H
  obtain ⟨hd, hw⟩ := run_dead B hdead post
  rw [run_append, run_cons]
  exact ⟨hd, hw.symm ▸ hheap⟩

/-- The memory of a writer, after any calls and any outcomes: the allocated
blocks are those it refers to, none was released in a wrong way, and a writer
that failed or is finalised owns nothing and does nothing any more. -/
theorem writer_owns_memory (B : Build) (impl₀ : WriterImpl) (tid : Nat) (w : World) (hw : w.HeapOk)
    (evs : List WriterEvent) :
    let s := run B (start impl₀ tid w) evs
    s.world.heap = w.heap ++ s.impl.blocks ∧ s.world.misused = false ∧
      (s.impl.failed = true → s.impl.buffer = none ∧ s.impl.compBuf = none) ∧
      (s.impl.buffer.isSome = true → s.impl.mmapped = true → s.impl.compBuf.isSome = true) ∧
      ((s.impl.failed = true ∨ ∃ ev ∈ evs, ev.call = .fini) → ∀ later : List WriterEvent,
        (∀ pre ev post, later = pre ++ ev :: post → result B (run B s pre) ev = none) ∧
        (run B s later).world.calls = s.world.calls) ∧
      ((∃ ev ∈ evs, ev.call = .fini) → s.world.heap = w.heap) := by
  intro s
  have hstart := owned_start impl₀ tid hw
  have h : s.Owned w.heap := owned_run B hstart evs
  refine ⟨h.owns.heap, h.owns.ok.misused, h.shape.failed, h.shape.paired, fun hover later => ?_,
    fun hfini => (initd_of_fini B hstart hfini).2⟩
  have hdead : Dead s.impl := by
    rcases hover with hf | hfini
    · exact h.dead (.inl hf)
    · exact (initd_of_fini B hstart hfini).1
  refine ⟨fun pre ev post _ => ?_, congrArg World.calls (run_dead B hdead later).2⟩
  exact (step_dead B (run_dead B hdead pre).1 ev).2.2

/-- A reservation and the end of the session. -/
theorem writer_owns_memory_reserve :
    let cfg : Config := { traceSize := 64 }
    let s := run literalBuild (start {} 3 {}) [⟨cfg, {}, .reserve 16⟩]
    s.world.heap = [⟨0, .mmap 64⟩, ⟨1, .malloc⟩] ∧
      (run literalBuild (start {} 3 {}) [⟨cfg, {}, .reserve 16⟩, ⟨cfg, {}, .fini⟩]).world.heap =
        [] := by
  intro cfg s
  have hok : ({} : World).HeapOk := ⟨by simp, List.nodup_nil, rfl⟩
  refine ⟨(writer_owns_memory literalBuild {} 3 {} hok [⟨cfg, {}, .reserve 16⟩]).1.trans ?_, ?_⟩
  · decide
  · exact (writer_owns_memory literalBuild {} 3 {} hok
      [⟨cfg, {}, .reserve 16⟩, ⟨cfg, {}, .fini⟩]).2.2.2.2.2 ⟨⟨cfg, {}, .fini⟩, by simp, rfl⟩

end Session

end Coldtrace
