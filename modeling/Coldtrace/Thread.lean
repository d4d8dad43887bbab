import Mathlib.Tactic.Common
import Coldtrace.Lib.Bytes
import Coldtrace.Entries
import Coldtrace.Writer

/-!
# The thread

The model of `thread.c`.  A thread has a writer and a shadow stack of callers.
An entry that carries a stack stores the frames above `stackBottom`, the lowest
stack size since the last such entry, so a reader can rebuild the stack from
the entries before it.  When the entry opens a fragment it stores the whole
stack.

A step of a thread is one call with the configuration and the outcomes of the
system calls at that moment.  Appending includes what the subscriber does with
the entry it gets, which is to store the fields of its type.
-/

namespace Coldtrace

open Bytes

/-! ## The thread and its stack -/

/-- `INITIAL_STACK_CAPACITY`. -/
def initialStackCapacity : Nat := 16

/-- `struct coldtrace_thread`.  `stack` is the allocated array, empty for
`NULL`. -/
structure Thread where
  writer : WriterImpl := {}
  initd : Bool := false
  failed : Bool := false
  stackBottom : Nat := 0
  stack : List UInt64 := []
  stackSize : Nat := 0
  stackCapacity : Nat := 0
  createdThreadIdx : Nat := 0

/-- `get_coldtrace_thread`. -/
def getColdtraceThread (tid : Nat) (th : Thread) : Thread :=
  if !th.initd then { th with writer := writerInit th.writer (some tid), initd := true } else th

theorem getColdtraceThread_of_initd {th : Thread} (h : th.initd = true) (tid : Nat) :
    getColdtraceThread tid th = th := by
  simp [getColdtraceThread, h]

theorem initd_getColdtraceThread (tid : Nat) (th : Thread) :
    (getColdtraceThread tid th).initd = true := by
  cases h : th.initd <;> simp [getColdtraceThread, h]

/-- The array `realloc` returns.  The new entries are not specified, and no
entry is read before it is written. -/
def resized (stack : List UInt64) (n : Nat) : List UInt64 :=
  stack.take n ++ List.replicate (n - stack.length) 0

/-- `grow_stack_`. -/
def growStack (o : Outcomes) (th : Thread) : Bool × Thread :=
  let newCapacity :=
    if th.stackCapacity = 0 then initialStackCapacity else th.stackCapacity * 2 % 2 ^ 32
  if !o.realloc then (false, { th with failed := true })
  else (true, { th with stack := resized th.stack newCapacity, stackCapacity := newCapacity })

/-- `th->stack[th->stack_size++] = caller`. -/
def Thread.put (th : Thread) (caller : UInt64) : Thread :=
  { th with
    stack := th.stack.set th.stackSize caller
    stackSize := (th.stackSize + 1) % 2 ^ 32 }

/-- `coldtrace_thread_stack_push`. -/
def threadStackPush (tid : Nat) (o : Outcomes) (th : Thread) (caller : UInt64) : Thread :=
  let th := getColdtraceThread tid th
  if th.failed then th
  else if th.stackSize = th.stackCapacity then
    match growStack o th with
    | (false, th) => th
    | (true, th) => th.put caller
  else th.put caller

/-- `coldtrace_thread_stack_pop`. -/
def threadStackPop (tid : Nat) (th : Thread) : Thread :=
  let th := getColdtraceThread tid th
  if th.failed then th
  else if th.stackSize > 0 then
    let size := th.stackSize - 1
    { th with
      stackSize := size
      stackBottom := if th.stackBottom > size then size else th.stackBottom }
  else th

/-! ## Appending -/

/-- A store into the trace buffer. -/
def WriterImpl.store (impl : WriterImpl) (offset : Nat) (bs : List UInt8) : WriterImpl :=
  { impl with buffer := impl.buffer.map fun b => { b with mem := b.mem.store offset bs } }

/-- The base and the size in bytes of the diff of an entry with a stack, whose
fixed part has `len` bytes: the frames from `stack_bottom` on, or all of them
when the entry needs a new fragment. -/
def stackRequest (cfg : Config) (th : Thread) (len : Nat) : Nat × Nat :=
  let stackSize := (th.stackSize + 2 ^ 32 - th.stackBottom) % 2 ^ 32 * 8
  if writerNewTrace cfg th.writer (len + stackSize) then (0, th.stackSize * 8)
  else (th.stackBottom, stackSize)

/-- The size `coldtrace_thread_append` passes to `coldtrace_writer_reserve`. -/
def appendRequest (cfg : Config) (th : Thread) (type : UInt8) : Nat :=
  let len := entryFixedSize type
  if withStack type then len + (stackRequest cfg th len).2 else len

/-- `coldtrace_thread_append`.  The result is the offset of the entry in the
trace buffer. -/
def threadAppend (B : Build) (tid : Nat) (cfg : Config) (o : Outcomes) (th : Thread) (w : World)
    (type : UInt8) (ptr : UInt64) : Option Nat × Thread × World :=
  let th := getColdtraceThread tid th
  let len := entryFixedSize type
  let header := le 8 (makeEntryHeader type ptr).toNat
  if th.failed then (none, th, w)
  else if len = 0 then (none, th, w)
  else if !withStack type then
    let th := if writerNewTrace cfg th.writer len then { th with stackBottom := 0 } else th
    match writerReserve B cfg o th.writer w len with
    | (none, impl, w) => (none, { th with writer := impl }, w)
    | (some e, impl, w) => (some e, { th with writer := impl.store e header }, w)
  else
    let stackTop := th.stackSize
    let stackBot := (stackRequest cfg th len).1
    let stackSize := (stackRequest cfg th len).2
    match writerReserve B cfg o th.writer w (len + stackSize) with
    | (none, impl, w) => (none, { th with writer := impl }, w)
    | (some e, impl, w) =>
        let buf := e + len - sizeofStackDiff
        let diff := (th.stack.drop stackBot).take (stackSize / 8)
        let impl := impl.store e header
        let impl := impl.store buf (pack [4, 4] [stackBot, stackTop])
        let impl := impl.store (buf + sizeofStackDiff) (words 8 (diff.map UInt64.toNat))
        (some e, { th with writer := impl, stackBottom := stackTop }, w)

/-- `coldtrace_thread_init`. -/
def threadInit (tid : Nat) (th : Thread) : Thread :=
  let th := getColdtraceThread tid th
  { th with writer := writerInit th.writer (some tid) }

/-- `coldtrace_thread_fini`. -/
def threadFini (B : Build) (tid : Nat) (o : Outcomes) (th : Thread) (w : World) : Thread × World :=
  let th := getColdtraceThread tid th
  let (impl, w) := writerFini B o th.writer w
  ({ th with writer := impl, stack := [], stackSize := 0, stackCapacity := 0, stackBottom := 0 }, w)

/-! ## Runs -/

/-- What a subscriber appends: a type with or without `ZERO_FLAG`, a pointer,
and the fields it stores. -/
structure Entry where
  type : EntryType
  zeroFlag : Bool := false
  ptr : UInt64
  fields : Fields := {}
deriving DecidableEq, Repr

/-- The type byte a subscriber passes. -/
def Entry.byte (e : Entry) : UInt8 := e.type.byte e.zeroFlag

/-- The calls of `thread.h` that touch the writer or the stack. -/
inductive Op where
  | init
  | fini
  | push (caller : UInt64)
  | pop
  | append (e : Entry)
deriving DecidableEq, Repr

/-- One call, with the configuration and the outcomes it meets. -/
structure Event where
  cfg : Config
  o : Outcomes := {}
  op : Op

/-- A thread and the world around it. -/
structure State where
  th : Thread := {}
  world : World := {}

/-- Append an entry and store its fields. -/
def subscriberAppend (B : Build) (tid : Nat) (cfg : Config) (o : Outcomes) (s : State) (e : Entry) :
    State :=
  match threadAppend B tid cfg o s.th s.world e.byte e.ptr with
  | (none, th, w) => ⟨th, w⟩
  | (some off, th, w) =>
      ⟨{ th with writer := th.writer.store (off + 8) (words 8 (e.fields.words e.type)) }, w⟩

/-- One call of a thread. -/
def step (B : Build) (tid : Nat) (s : State) (ev : Event) : State :=
  match ev.op with
  | .init => { s with th := threadInit tid s.th }
  | .fini =>
      let (th, w) := threadFini B tid ev.o s.th s.world
      ⟨th, w⟩
  | .push caller => { s with th := threadStackPush tid ev.o s.th caller }
  | .pop => { s with th := threadStackPop tid s.th }
  | .append e => subscriberAppend B tid ev.cfg ev.o s e

/-- A sequence of calls. -/
def run (B : Build) (tid : Nat) (s : State) (evs : List Event) : State := evs.foldl (step B tid) s

@[simp] theorem run_nil (B : Build) (tid : Nat) (s : State) : run B tid s [] = s := rfl

@[simp] theorem run_cons (B : Build) (tid : Nat) (s : State) (ev : Event) (evs : List Event) :
    run B tid s (ev :: evs) = run B tid (step B tid s ev) evs := rfl

theorem run_append (B : Build) (tid : Nat) (s : State) (evs evs' : List Event) :
    run B tid s (evs ++ evs') = run B tid (run B tid s evs) evs' :=
  List.foldl_append ..

end Coldtrace
