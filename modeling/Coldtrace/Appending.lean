import Mathlib.Tactic.Common
import Coldtrace.Lib.Bytes
import Coldtrace.Entries
import Coldtrace.Writer
import Coldtrace.Thread
import Coldtrace.Stack
import Coldtrace.Reserve
import Coldtrace.Records

/-!
# The record an append leaves

`coldtrace_thread_append` and its subscriber fill a reserved block in four
pieces.  `subscriberAppend_eq` puts them together: an append reserves as many
bytes as its record has, and stores the bytes of that record in the block.

What remains of the thread is `stackBottom`, and which frames the record
carries.  Both depend on whether the thread expects a new fragment
(`opensFragment`).
-/

namespace Coldtrace

open Bytes

/-! ## The record -/

/-- The record of an entry, with the frames from `base` on. -/
def Entry.record (e : Entry) (base : Nat) (frames : List Nat) (hb : base ≤ frames.length)
    (hl : frames.length < 2 ^ 31) (hf : ∀ v ∈ frames, v < 256 ^ 8) : Record where
  type := e.type
  zeroFlag := e.zeroFlag
  padding := 0
  pointer := e.ptr.toNat % 2 ^ 48
  fields := e.fields.words e.type
  popped := if e.type.hasStack then base else 0
  depth := if e.type.hasStack then frames.length else 0
  diff := if e.type.hasStack then frames.drop base else []
  pointer_lt := Nat.mod_lt _ (by decide)
  fields_length := Fields.length_words ..
  fields_lt := e.fields.words_lt e.type
  diff_length := by
    split
    next => rw [List.length_drop]; omega
    next => rfl
  depth_lt := by split <;> omega
  diff_lt := by
    split
    next => exact fun v hv => hf v (List.mem_of_mem_drop hv)
    next => simp
  noStack h := by rw [h, if_neg Bool.false_ne_true]

section

variable {e : Entry} {base : Nat} {frames : List Nat} {hb : base ≤ frames.length}
  {hl : frames.length < 2 ^ 31} {hf : ∀ v ∈ frames, v < 256 ^ 8}

/-- The record starts with the header the append stores. -/
theorem Entry.typedPointer_record :
    (e.record base frames hb hl hf).typedPointer = (makeEntryHeader e.byte e.ptr).toNat := by
  rw [toNat_makeEntryHeader]
  simp [Record.typedPointer, Entry.record, Entry.byte]

theorem Entry.length_record :
    (e.record base frames hb hl hf).bytes.length =
      e.type.space + if e.type.hasStack then (frames.length - base) * 8 else 0 := by
  rw [Record.length_bytes]
  change e.type.space + 8 * (if e.type.hasStack then frames.drop base else []).length = _
  split
  next => rw [List.length_drop]; omega
  next => rfl

end

/-! ## Storing the record -/

theorem WriterImpl.store_append (impl : WriterImpl) {offset n : Nat} (bs cs : List UInt8)
    (h : bs.length = n) :
    (impl.store offset bs).store (offset + n) cs = impl.store offset (bs ++ cs) := by
  subst h
  simp only [WriterImpl.store, Option.map_map, Function.comp_def, Mem.store_append]

theorem WriterImpl.store_comm (impl : WriterImpl) {offset at' : Nat} (bs cs : List UInt8)
    (h : offset + bs.length ≤ at') :
    (impl.store at' cs).store offset bs = (impl.store offset bs).store at' cs := by
  simp only [WriterImpl.store, Option.map_map, Function.comp_def, Mem.store_comm _ bs cs h]

/-- Storing the bytes of a reservation at its offset extends the page. -/
theorem WriterImpl.Holds.store {impl : WriterImpl} {page : List UInt8} (h : impl.Holds page)
    {bs : List UInt8} (hlen : impl.offset + bs.length < 2 ^ 64) :
    ((impl.reserved bs.length).store impl.offset bs).Holds (page ++ bs) := by
  obtain ⟨b, hb, rfl⟩ := h
  refine ⟨{ b with mem := b.mem.store impl.offset bs }, ?_, ?_⟩
  · simp only [WriterImpl.store, WriterImpl.reserved, hb, Option.map_some]
  · change (b.mem.store impl.offset bs).load 0 ((impl.offset + bs.length) % 2 ^ 64) = _
    rw [Nat.mod_eq_of_lt hlen, Mem.load_store_append]

/-- The four stores of an entry with a stack are one store of its record. -/
theorem store_record_stack (impl : WriterImpl) (offset : Nat) (r : Record)
    (hs : r.type.hasStack = true) :
    ((((impl.store offset (le 8 r.typedPointer)).store (offset + r.type.space - sizeofStackDiff)
      (pack [4, 4] [r.popped, r.depth])).store (offset + r.type.space - sizeofStackDiff +
      sizeofStackDiff) (words 8 r.diff)).store (offset + 8) (words 8 r.fields)) =
    impl.store offset r.bytes := by
  have hspace := r.type.space_eq
  rw [if_pos hs] at hspace
  have hw : (words 8 r.fields).length = 8 * r.type.arity := by
    rw [length_words, r.fields_length]
  have hp : (pack [4, 4] [r.popped, r.depth]).length = sizeofStackDiff := by
    simp [pack, sizeofStackDiff]
  have hbuf : offset + r.type.space - sizeofStackDiff = offset + 8 + (words 8 r.fields).length := by
    rw [hw, hspace]
    omega
  rw [hbuf, WriterImpl.store_append _ _ _ hp, WriterImpl.store_comm _ _ _ (Nat.le_refl _),
    WriterImpl.store_append _ _ _ (length_le ..), Nat.add_assoc,
    WriterImpl.store_append _ _ _ (by rw [List.length_append, length_le]), Record.bytes,
    Record.stackBytes, if_pos hs]

/-- The two stores of an entry without a stack are one store of its record. -/
theorem store_record_plain (impl : WriterImpl) (offset : Nat) (r : Record)
    (hs : r.type.hasStack = false) :
    (impl.store offset (le 8 r.typedPointer)).store (offset + 8) (words 8 r.fields) =
      impl.store offset r.bytes := by
  rw [WriterImpl.store_append _ _ _ (length_le ..), Record.bytes, Record.stackBytes, hs,
    if_neg Bool.false_ne_true, List.append_nil]

/-! ## Appending -/

namespace Thread

/-- Whether the thread expects the entry to open a fragment. -/
def opensFragment (cfg : Config) (th : Thread) (e : Entry) : Bool :=
  writerNewTrace cfg th.writer
    (e.type.space + if e.type.hasStack then (th.stackSize - th.stackBottom) * 8 else 0)

/-- The first frame that the record of an entry carries. -/
def base (cfg : Config) (th : Thread) (e : Entry) : Nat :=
  if th.opensFragment cfg e then 0 else th.stackBottom

theorem StackWf.base_le {th : Thread} (h : th.StackWf) (cfg : Config) (e : Entry) :
    th.base cfg e ≤ th.frames.length := by
  have := h.bottom_le
  rw [base, h.length_frames]
  split <;> omega

/-- The record that appending an entry leaves. -/
def record {th : Thread} (h : th.StackWf) (cfg : Config) (e : Entry) : Record :=
  e.record (th.base cfg e) th.frames (h.base_le cfg e) (h.length_frames ▸ h.small) th.frames_lt

/-- The bottom of the stack once the fragment of an entry is known. -/
def bottomBefore (cfg : Config) (th : Thread) (e : Entry) : Nat :=
  if !e.type.hasStack && th.opensFragment cfg e then 0 else th.stackBottom

end Thread

theorem Thread.StackWf.stackRequest_eq {th : Thread} (h : th.StackWf) (cfg : Config) {e : Entry}
    (hs : e.type.hasStack = true) :
    stackRequest cfg th e.type.space =
      (th.base cfg e, (th.stackSize - th.base cfg e) * 8) := by
  have hb := h.bottom_le
  have hsmall := h.small
  have hdiff : (th.stackSize + 2 ^ 32 - th.stackBottom) % 2 ^ 32 =
      th.stackSize - th.stackBottom := by
    omega
  simp only [stackRequest, hdiff, Thread.base, Thread.opensFragment, if_pos hs]
  split <;> rfl

/-- The size an append reserves is the size of its record. -/
theorem Thread.StackWf.appendRequest_eq {th : Thread} (h : th.StackWf) (cfg : Config) (e : Entry) :
    appendRequest cfg th e.byte = (th.record h cfg e).bytes.length := by
  rw [Thread.record, Entry.length_record, h.length_frames]
  simp only [appendRequest, Entry.byte, entryFixedSize_byte, withStack_byte]
  split
  next hs => rw [h.stackRequest_eq cfg hs]
  next => rfl

/-- A failed thread appends nothing. -/
theorem subscriberAppend_failed (B : Build) (tid : Nat) (cfg : Config) (o : Outcomes) {s : State}
    (hi : s.th.initd = true) (hf : s.th.failed = true) (e : Entry) :
    subscriberAppend B tid cfg o s e = s := by
  rw [subscriberAppend, threadAppend, getColdtraceThread_of_initd hi, if_pos hf]

/-- Appending an entry reserves and stores its record. -/
theorem subscriberAppend_eq (B : Build) (tid : Nat) (cfg : Config) (o : Outcomes) {s : State}
    (hi : s.th.initd = true) (hf : s.th.failed = false) (h : s.th.StackWf) (e : Entry) :
    subscriberAppend B tid cfg o s e =
      match writerReserve B cfg o s.th.writer s.world (s.th.record h cfg e).bytes.length with
      | (none, impl, w) => ⟨{ s.th with writer := impl, stackBottom := s.th.bottomBefore cfg e }, w⟩
      | (some off, impl, w) =>
          ⟨{ s.th with
              writer := impl.store off (s.th.record h cfg e).bytes
              stackBottom := if e.type.hasStack then s.th.stackSize else s.th.bottomBefore cfg e },
            w⟩ := by
  have hspace := e.type.space_bounds
  have hreq := h.appendRequest_eq cfg e
  have htp : (s.th.record h cfg e).typedPointer = (makeEntryHeader e.byte e.ptr).toNat :=
    Entry.typedPointer_record
  have hpopped : e.type.hasStack = true → (s.th.record h cfg e).popped = s.th.base cfg e :=
    fun hs => if_pos hs
  have hdepth : e.type.hasStack = true → (s.th.record h cfg e).depth = s.th.stackSize :=
    fun hs => (if_pos hs).trans h.length_frames
  have hdiff : e.type.hasStack = true → (s.th.record h cfg e).diff =
      ((s.th.stack.drop (s.th.base cfg e)).take (s.th.stackSize - s.th.base cfg e)).map
        UInt64.toNat := by
    intro hs
    refine (if_pos hs).trans ?_
    rw [Thread.frames, ← List.map_drop, List.drop_take]
  rw [subscriberAppend, threadAppend, getColdtraceThread_of_initd hi]
  dsimp only
  rw [if_neg (by rw [hf]; exact Bool.false_ne_true)]
  simp only [Entry.byte, entryFixedSize_byte, withStack_byte, appendRequest] at hreq htp ⊢
  rw [if_neg (by omega)]
  by_cases hs : e.type.hasStack = true
  · have hstore := fun impl off => store_record_stack impl off (s.th.record h cfg e) hs
    have hbottom : s.th.bottomBefore cfg e = s.th.stackBottom := by
      simp [Thread.bottomBefore, hs]
    rw [if_pos hs, h.stackRequest_eq cfg hs] at hreq
    simp only [hs, Bool.not_true, Bool.false_eq_true, if_false, if_true, h.stackRequest_eq cfg hs,
      hreq, hbottom]
    generalize writerReserve B cfg o s.th.writer s.world _ = result
    obtain ⟨off, impl, w⟩ := result
    cases off with
    | none => rfl
    | some off =>
        dsimp only
        rw [← hstore impl off, htp, hpopped hs, hdepth hs, hdiff hs,
          Nat.mul_div_cancel _ (by decide : 0 < 8)]
        rfl
  · have hs' : e.type.hasStack = false := by simpa using hs
    have hstore := fun impl off => store_record_plain impl off (s.th.record h cfg e) hs'
    have hbottom : (if writerNewTrace cfg s.th.writer e.type.space = true then
        { s.th with stackBottom := 0 } else s.th) =
        { s.th with stackBottom := s.th.bottomBefore cfg e } := by
      rw [Thread.bottomBefore, Thread.opensFragment, if_neg hs, Nat.add_zero]
      split
      next hn => rw [if_pos (by simp [hs', hn])]
      next hn => rw [if_neg (by simp [hs', hn])]
    rw [if_neg hs] at hreq
    simp only [hs', Bool.not_false, if_true, Bool.false_eq_true, if_false, hbottom]
    rw [hreq]
    generalize writerReserve B cfg o s.th.writer s.world _ = result
    obtain ⟨off, impl, w⟩ := result
    cases off with
    | none => rfl
    | some off =>
        dsimp only
        rw [← hstore impl off, htp]
        rfl

/-- The place of an entry is the one the writer reserves for its record. -/
theorem threadAppend_fst (B : Build) (tid : Nat) (cfg : Config) (o : Outcomes) {th : Thread}
    (w : World) (hi : th.initd = true) (hf : th.failed = false) (h : th.StackWf) (e : Entry) :
    (threadAppend B tid cfg o th w e.byte e.ptr).1 =
      (writerReserve B cfg o th.writer w (th.record h cfg e).bytes.length).1 := by
  have hspace := e.type.space_bounds
  have hreq := h.appendRequest_eq cfg e
  rw [threadAppend, getColdtraceThread_of_initd hi]
  dsimp only
  rw [if_neg (by rw [hf]; exact Bool.false_ne_true)]
  simp only [Entry.byte, entryFixedSize_byte, withStack_byte, appendRequest] at hreq ⊢
  rw [if_neg (by omega), ← hreq]
  by_cases hs : e.type.hasStack = true
  · simp only [hs, Bool.not_true, Bool.false_eq_true, if_false, if_true]
    split <;> simp_all
  · have hwriter : (if writerNewTrace cfg th.writer e.type.space = true then
        { th with stackBottom := 0 } else th).writer = th.writer := by
      split <;> rfl
    simp only [hs, Bool.not_false, if_true, Bool.false_eq_true, if_false, hwriter]
    split <;> simp_all

end Coldtrace
