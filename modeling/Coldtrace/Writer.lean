import Mathlib.Tactic.Common
import Coldtrace.Lib.Bytes
import Coldtrace.Lib.Lz4
import Coldtrace.Entries

/-!
# The writer

The model of `writer.c`, with the part of `config.c` it reads.  A writer owns a
trace buffer and fills it with entries.  When an entry does not fit, the buffer
is flushed as one fragment and starts over.

What the writer calls but does not contain is explicit.

* `Build` holds what the build fixes: the commit hash of the version header and
  the two LZ4 libraries, the one the writer links and the one the dumper imports.
* `Outcomes` says how the system calls of one step turn out.  A step makes each
  of these calls at most once, except `open` in `firstFragment` and `write` in
  `writeAll`, so a flag a call is enough.
* `World` is what the calls act on: the files of the thread, the allocated
  blocks, the pages handed to `coldtrace_writer_close` and the file system calls
  made.

`uint64_t` and `uint32_t` arithmetic that can wrap has its modulus written out.
The bytes of a buffer are a memory without an end.  The size of the block does
not limit a store, as it does not in C.
-/

namespace Coldtrace

open Bytes

/-! ## Configuration and build -/

/-- What the getters of `config.c` return. -/
structure Config where
  /-- `coldtrace_get_trace_size`. -/
  traceSize : Nat := 2097152
  /-- `coldtrace_writes_disabled`. -/
  writesDisabled : Bool := false
  /-- `coldtrace_get_max`. -/
  maxFileCount : UInt32 := 0xFFFFFFFF
deriving DecidableEq, Repr

/-- `LZ4_MAX_INPUT_SIZE`. -/
def lz4MaxInputSize : Nat := 0x7E000000

/-- `LZ4_compressBound`, at the `int` the size is cast to. -/
def compressBound (size : Nat) : Nat :=
  let isize := size % 2 ^ 32
  if isize > lz4MaxInputSize then 0 else isize + isize / 255 + 16

/-- What the build fixes. -/
structure Build where
  /-- `GIT_COMMIT_HASH`. -/
  gitHash : UInt32
  /-- `LZ4_compress_fast` on a source and a destination capacity.  `none` is a
  result of 0. -/
  compressFast : List UInt8 → Nat → Option (List UInt8)
  /-- `lz4.block.decompress` on a block and the size of its result, or the text
  of the exception it raises. -/
  blockDecompress : List UInt8 → Nat → Except String (List UInt8)

/-- What `lz4.h` and the `lz4` package document about a block that
`LZ4_compress_fast` made. -/
structure Build.Lawful (B : Build) : Prop where
  /-- Compression succeeds when the destination has the worst case size. -/
  succeeds : ∀ src cap, src.length ≤ lz4MaxInputSize → compressBound src.length ≤ cap →
    ∃ block, B.compressFast src cap = some block
  /-- The result is a block of the format, for the source. -/
  block : ∀ src cap block, B.compressFast src cap = some block → Lz4.decode block = some src
  /-- Decompression gives the source back. -/
  inverse : ∀ src cap block, B.compressFast src cap = some block →
    B.blockDecompress block src.length = .ok src

/-- A build whose compressor stores the source as literals.  LZ4 does the same
on a source of fewer than 13 bytes. -/
def literalBuild : Build where
  gitHash := 0
  compressFast src cap :=
    if (Lz4.literalBlock src).length ≤ cap then some (Lz4.literalBlock src) else none
  blockDecompress block size :=
    match Lz4.decode block with
    | some result => if result.length ≤ size then .ok result else .error "buffer too small"
    | none => .error "corrupt input"

theorem literalBuild_lawful : literalBuild.Lawful where
  succeeds := by
    intro src cap hmax hcap
    have hlen := Lz4.length_literalBlock_le src
    have hle : src.length ≤ 0x7E000000 := hmax
    have hmod : src.length % 2 ^ 32 = src.length := Nat.mod_eq_of_lt (by omega)
    simp only [compressBound, hmod] at hcap
    rw [if_neg (by omega)] at hcap
    exact ⟨_, if_pos (by omega)⟩
  block := by
    intro src cap block h
    obtain ⟨-, hblock⟩ := Option.ite_none_right_eq_some.mp h
    cases hblock
    exact Lz4.decode_literalBlock src
  inverse := by
    intro src cap block h
    obtain ⟨-, hblock⟩ := Option.ite_none_right_eq_some.mp h
    cases hblock
    simp [literalBuild, Lz4.decode_literalBlock]

/-- The bytes of `current_version_header`: the commit hash, the padding and the
version 0.2.0 of the project. -/
def Build.versionHeader (B : Build) : List UInt8 :=
  pack [4, 1, 1, 1, 1] [B.gitHash.toNat, 5, 0, 2, 0]

@[simp] theorem Build.length_versionHeader (B : Build) :
    B.versionHeader.length = sizeofVersionHeader := by
  simp [Build.versionHeader, pack, sizeofVersionHeader]

/-! ## The world -/

/-- The files of one thread.  A file is named by its fragment number. -/
structure Dir where
  /-- The numbers of the files that exist. -/
  names : List Nat := []
  /-- The bytes of each file. -/
  content : Nat → List UInt8 := fun _ => []

namespace Dir

/-- Whether the file exists. -/
def has (d : Dir) (n : Nat) : Bool := decide (n ∈ d.names)

/-- The directory with the bytes of one file replaced. -/
def put (d : Dir) (n : Nat) (bs : List UInt8) : Dir :=
  { d with content := fun m => if m = n then bs else d.content m }

/-- `open` with `O_CREAT`, for a file that ends up empty: new, or truncated. -/
def openEmpty (d : Dir) (n : Nat) : Dir :=
  ({ d with names := if d.has n then d.names else d.names ++ [n] } : Dir).put n []

/-- `unlink`. -/
def unlink (d : Dir) (n : Nat) : Dir := { d with names := d.names.filter (· ≠ n) }

end Dir

/-- Where a block of memory comes from, with its length for `mmap`. -/
inductive Source where
  | mmap (length : Nat)
  | mempool
  | malloc
deriving DecidableEq, Repr

/-- An allocated block. -/
structure Block where
  id : Nat
  source : Source
deriving DecidableEq, Repr

/-- A file system call of the writer on the file of a number. -/
inductive FsCall where
  | openExcl (n : Nat)
  | openTrunc (n : Nat)
  | write (n : Nat)
  | unlink (n : Nat)
deriving DecidableEq, Repr

/-- What the system calls act on. -/
structure World where
  dir : Dir := {}
  /-- The blocks allocated and not released. -/
  heap : List Block := []
  /-- The next block id. -/
  fresh : Nat := 0
  /-- A block was released that was not allocated, or by the wrong function, or
  with a length that is not its own. -/
  misused : Bool := false
  /-- The pages handed to `coldtrace_writer_close`, oldest first. -/
  closed : List (List UInt8) := []
  /-- The file system calls, oldest first. -/
  calls : List FsCall := []

/-- The largest object an allocator returns. -/
def ptrdiffMax : Nat := 2 ^ 63 - 1

namespace World

/-- Allocate `n` bytes.  No allocator returns more than `PTRDIFF_MAX` bytes. -/
def alloc (w : World) (ok : Bool) (n : Nat) (source : Source) : Option (Nat × World) :=
  if ok && decide (n ≤ ptrdiffMax) then
    some (w.fresh, { w with heap := w.heap ++ [⟨w.fresh, source⟩], fresh := w.fresh + 1 })
  else none

/-- Release a block. -/
def release (w : World) (id : Nat) (source : Source) : World :=
  if ⟨id, source⟩ ∈ w.heap then { w with heap := w.heap.erase ⟨id, source⟩ }
  else { w with misused := true }

/-- Log a file system call. -/
def called (w : World) (c : FsCall) : World := { w with calls := w.calls ++ [c] }

end World

/-! ## Outcomes of the system calls -/

/-- What one call of `write` does. -/
inductive WriteResult where
  /-- Some bytes are written, as many as `count` if there are so many left. -/
  | wrote (count : Nat)
  /-- The call is interrupted. -/
  | eintr
  /-- The call fails for good. -/
  | error
deriving DecidableEq, Repr

/-- How the system calls of one step turn out. -/
structure Outcomes where
  /-- `coldtrace_realloc` in `grow_stack_`. -/
  realloc : Bool := true
  /-- `mempool_alloc` in `ensure_buffer_`. -/
  mempoolAlloc : Bool := true
  /-- `coldtrace_mmap` in `ensure_buffer_`. -/
  mmap : Bool := true
  /-- `coldtrace_malloc` in `ensure_buffer_`. -/
  malloc : Bool := true
  /-- `open` in `first_fragment_`, for each number.  A failure is one with an
  error other than `EEXIST`. -/
  openExcl : Nat → Bool := fun _ => true
  /-- `LZ4_compress_fast` in `flush_`. -/
  compress : Bool := true
  /-- `open` in `flush_`. -/
  openTrunc : Bool := true
  /-- The calls of `write` in `write_all_`.  Once the list is used up, a call
  writes all that is left. -/
  writes : List WriteResult := []
  /-- `mempool_alloc` in `advance_fragment_`. -/
  resizeAlloc : Bool := true

/-- No call fails.  A short or an interrupted write is not a failure. -/
structure Outcomes.NoFailure (o : Outcomes) : Prop where
  realloc : o.realloc = true
  mempoolAlloc : o.mempoolAlloc = true
  mmap : o.mmap = true
  malloc : o.malloc = true
  openExcl : ∀ n, o.openExcl n = true
  compress : o.compress = true
  openTrunc : o.openTrunc = true
  writes : WriteResult.error ∉ o.writes
  resizeAlloc : o.resizeAlloc = true

/-! ## The writer -/

/-- The trace buffer: its block and its bytes. -/
structure Buffer where
  id : Nat
  mem : Mem

/-- `struct writer_impl`.  `buffer` and `compBuf` are `none` for `NULL`. -/
structure WriterImpl where
  initd : Bool := false
  failed : Bool := false
  mmapped : Bool := false
  buffer : Option Buffer := none
  compBuf : Option Nat := none
  size : Nat := 0
  offset : Nat := 0
  tid : Nat := 0
  enumerator : Nat := 0

/-- `FRAG_HDR_SIZE`. -/
def fragHdrSize : Nat := sizeofVersionHeader + 4

/-- `validate_trace_size_`. -/
def validateTraceSize (size : Nat) (compressed : Bool) : Bool :=
  if size < sizeofVersionHeader then false
  else if compressed && decide (size > lz4MaxInputSize) then false
  else true

/-- `release_buffers_`. -/
def releaseBuffers (impl : WriterImpl) (w : World) : WriterImpl × World :=
  let (impl, w) :=
    match impl.buffer with
    | some b =>
        ({ impl with buffer := none },
          w.release b.id (if impl.mmapped then .mmap impl.size else .mempool))
    | none => (impl, w)
  match impl.compBuf with
  | some c => ({ impl with compBuf := none }, w.release c .malloc)
  | none => (impl, w)

/-- `fail_`. -/
def fail (impl : WriterImpl) (w : World) : WriterImpl × World :=
  let (impl, w) := releaseBuffers impl w
  ({ impl with failed := true }, w)

/-- `first_fragment_`: claim the first number at or after the enumerator that
has no file.  The fuel is the number of fragment numbers.  When it runs out
every number is taken, and the loop of the source does not end. -/
def firstFragment (o : Outcomes) : Nat → WriterImpl → World → Bool × WriterImpl × World
  | 0, impl, w => (false, impl, w)
  | fuel + 1, impl, w =>
      let n := impl.enumerator
      let w := w.called (.openExcl n)
      if !o.openExcl n then (false, impl, w)
      else if w.dir.has n then
        firstFragment o fuel { impl with enumerator := (n + 1) % 2 ^ 32 } w
      else (true, impl, { w with dir := w.dir.openEmpty n })

/-- `write_all_`: whether everything is written, and the bytes that are. -/
def writeAll : List WriteResult → List UInt8 → Bool × List UInt8
  | _, [] => (true, [])
  | [], b :: bs => (true, b :: bs)
  | .wrote n :: rs, b :: bs =>
      let (ok, out) := writeAll rs ((b :: bs).drop n)
      (ok, (b :: bs).take n ++ out)
  | .eintr :: rs, b :: bs => writeAll rs (b :: bs)
  | .error :: _, _ :: _ => (false, [])

/-- The call of `LZ4_compress_fast` in `flush_`, on `raw` bytes of source cast
to `int`.  It refuses a size that is negative or over its limit. -/
def compressRaw (B : Build) (mem : Mem) (raw size : Nat) : Option (List UInt8) :=
  if raw % 2 ^ 32 > lz4MaxInputSize then none
  else B.compressFast (mem.load sizeofVersionHeader (raw % 2 ^ 32)) (compressBound size)

/-- The bytes of a fragment file. -/
def fragmentImage (B : Build) (raw : Nat) (block : List UInt8) : List UInt8 :=
  B.versionHeader ++ le 4 raw ++ block

/-- `flush_`.  It is called on a writer with a buffer only. -/
def flush (B : Build) (o : Outcomes) (impl : WriterImpl) (w : World) : WriterImpl × World :=
  match impl.buffer with
  | none => (impl, w)
  | some b =>
      let w := { w with closed := w.closed ++ [b.mem.load 0 impl.offset] }
      if !impl.mmapped then (impl, w)
      else
        let raw := impl.offset - sizeofVersionHeader
        match if o.compress then compressRaw B b.mem raw impl.size else none with
        | none => fail impl w
        | some block =>
            let n := impl.enumerator
            let w := w.called (.openTrunc n)
            if !o.openTrunc then fail impl w
            else
              let w := { w with dir := w.dir.openEmpty n }
              let (ok, out) := writeAll o.writes (fragmentImage B raw block)
              let w := { w.called (.write n) with dir := w.dir.put n out }
              if ok then (impl, w)
              else fail impl { w.called (.unlink n) with dir := w.dir.unlink n }

/-- `begin_fragment_`. -/
def beginFragment (B : Build) (impl : WriterImpl) : WriterImpl :=
  { impl with
    buffer := impl.buffer.map fun b => { b with mem := b.mem.store 0 B.versionHeader }
    offset := sizeofVersionHeader }

/-- `ensure_buffer_`.  The bytes of a fresh block are not specified.  They are
zero here, and no byte is read before it is written. -/
def ensureBuffer (B : Build) (cfg : Config) (o : Outcomes) (impl : WriterImpl) (w : World) :
    Bool × WriterImpl × World :=
  if !impl.initd then (false, impl, w)
  else if impl.failed then (false, impl, w)
  else if impl.buffer.isSome then (true, impl, w)
  else
    let impl := { impl with size := cfg.traceSize, offset := 0, enumerator := 0 }
    if !validateTraceSize impl.size (!cfg.writesDisabled) then
      (false, { impl with failed := true }, w)
    else if cfg.writesDisabled then
      match w.alloc o.mempoolAlloc impl.size .mempool with
      | none => (false, { impl with buffer := none, mmapped := false }, w)
      | some (id, w) =>
          (true, beginFragment B { impl with buffer := some ⟨id, .zero⟩, mmapped := false }, w)
    else
      match w.alloc o.mmap impl.size (.mmap impl.size) with
      | none => (false, { impl with buffer := none, failed := true }, w)
      | some (id, w) =>
          let impl := { impl with buffer := some ⟨id, .zero⟩, mmapped := true }
          match w.alloc o.malloc (fragHdrSize + compressBound impl.size) .malloc with
          | none => (false, fail impl w)
          | some (cid, w) =>
              match firstFragment o (2 ^ 32) { impl with compBuf := some cid } w with
              | (false, impl, w) => (false, fail impl w)
              | (true, impl, w) => (true, beginFragment B impl, w)

/-- `advance_fragment_`.  A maximum of 0 makes the remainder undefined in C.
It is the dividend here. -/
def advanceFragment (cfg : Config) (o : Outcomes) (impl : WriterImpl) (w : World) :
    WriterImpl × World :=
  if !impl.mmapped then
    match impl.buffer with
    | none => ({ impl with offset := 0 }, w)
    | some b =>
        if impl.size ≠ cfg.traceSize ∧ validateTraceSize cfg.traceSize false = true then
          match w.alloc o.resizeAlloc cfg.traceSize .mempool with
          | none => ({ impl with offset := 0 }, w)
          | some (id, w) =>
              ({ impl with buffer := some ⟨id, .zero⟩, size := cfg.traceSize, offset := 0 },
                w.release b.id .mempool)
        else ({ impl with offset := 0 }, w)
  else ({ impl with enumerator := (impl.enumerator + 1) % 2 ^ 32 % cfg.maxFileCount.toNat }, w)

/-- `new_trace_`. -/
def newTrace (B : Build) (cfg : Config) (o : Outcomes) (impl : WriterImpl) (w : World) :
    WriterImpl × World :=
  let (impl, w) := flush B o impl w
  if impl.buffer.isNone then (impl, w)
  else
    let (impl, w) := advanceFragment cfg o impl w
    (beginFragment B impl, w)

/-- `coldtrace_writer_new_trace`: whether an entry of that size needs a new
fragment. -/
def writerNewTrace (cfg : Config) (impl : WriterImpl) (size : Nat) : Bool :=
  let sz := cfg.traceSize
  let traceSize := if sz < impl.size then sz else impl.size
  decide ((impl.offset + size) % 2 ^ 64 > traceSize)

/-- `coldtrace_writer_reserve`.  The result is the offset of the reserved block
in the buffer. -/
def writerReserve (B : Build) (cfg : Config) (o : Outcomes) (impl : WriterImpl) (w : World)
    (size : Nat) : Option Nat × WriterImpl × World :=
  match ensureBuffer B cfg o impl w with
  | (false, impl, w) => (none, impl, w)
  | (true, impl, w) =>
      if writerNewTrace cfg impl size then
        let (impl, w) := newTrace B cfg o impl w
        if impl.buffer.isNone then (none, impl, w)
        else (some impl.offset, { impl with offset := (impl.offset + size) % 2 ^ 64 }, w)
      else (some impl.offset, { impl with offset := (impl.offset + size) % 2 ^ 64 }, w)

/-- `coldtrace_writer_init`.  The metadata is `none` for `NULL`, else it gives
the thread id. -/
def writerInit (impl : WriterImpl) : Option Nat → WriterImpl
  | none => { impl with initd := false, buffer := none, compBuf := none }
  | some tid => { initd := true, tid := tid }

/-- `coldtrace_writer_fini`. -/
def writerFini (B : Build) (o : Outcomes) (impl : WriterImpl) (w : World) : WriterImpl × World :=
  if !impl.initd then (impl, w)
  else
    let (impl, w) := if impl.buffer.isSome then flush B o impl w else (impl, w)
    let (impl, w) := releaseBuffers impl w
    ({ impl with initd := false }, w)

end Coldtrace
