import Mathlib.Tactic.Common
import Coldtrace.Lib.Bytes
import Coldtrace.Entries
import Coldtrace.Writer

/-!
# The reader

The model of `TraceReader` in `trace_dump.py`.  A reader decodes the fragments
of one thread one after the other.  It keeps the stack it rebuilt from one
entry to the next, also across fragments.

`_read_file` is a generator.  It yields entries and then finishes or raises.
`Decoded` keeps all of that: the entries yielded, where the last of them ended,
and the outcome.  A `TraceDumpError` has an offset and a message
(`FormatError`).  The other exceptions that the code could raise, those of
`struct` and of list indexing, are outcomes too, and so is not terminating.
-/

namespace Coldtrace

open Bytes

/-! ## Errors -/

/-- What a `TraceDumpError` about the format says. -/
inductive FormatError where
  | truncatedVersionHeader (found : Nat)
  | unsupportedVersion (major minor patch : Nat)
  | truncatedBlockHeader (found : Nat)
  | implausibleSize (rawSize payload limit : Nat)
  | decompressionFailed (error : String)
  | sizeMismatch (rawSize got : Nat)
  | truncatedEntryHeader (found : Nat)
  | unknownEntryType (rawType : Nat)
  | truncatedFields (description : String) (expected found : Nat)
  | poppedExceedsDepth (popped depth : Nat)
  | cannotRetain (popped frames : Nat)
  | truncatedStack (expected found : Nat)
deriving DecidableEq, Repr

/-- The message of an error, without the path and the offset. -/
def FormatError.message : FormatError → String
  | .truncatedVersionHeader found =>
      s!"truncated version header: expected 8 bytes, found {found}"
  | .unsupportedVersion major minor patch =>
      s!"unsupported trace version {major}.{minor}.{patch}; " ++
        "this dumper reads traces from Coldtrace 0.2.0 or newer"
  | .truncatedBlockHeader found => s!"truncated block header: expected 4 bytes, found {found}"
  | .implausibleSize rawSize payload limit =>
      s!"implausible uncompressed size {rawSize} for a {payload}-byte payload (limit {limit}); " ++
        "the file is corrupt or truncated"
  | .decompressionFailed error => s!"lz4 decompression failed: {error}"
  | .sizeMismatch rawSize got =>
      s!"decompressed size mismatch: header says {rawSize} bytes, got {got}"
  | .truncatedEntryHeader found => s!"truncated entry header: expected 8 bytes, found {found}"
  | .unknownEntryType rawType =>
      "unknown entry type 0x" ++ String.ofList (Nat.toDigits 16 rawType)
  | .truncatedFields description expected found =>
      s!"truncated {description}: expected {expected} bytes, found {found}"
  | .poppedExceedsDepth popped depth =>
      s!"invalid stack diff: popped {popped} exceeds depth {depth}"
  | .cannotRetain popped frames =>
      s!"invalid stack diff: cannot retain {popped} frames from a {frames}-frame stack"
  | .truncatedStack expected found =>
      s!"truncated stack addresses: expected {expected} bytes, found {found}"

/-- An exception of the reader. -/
inductive PyError where
  /-- `TraceDumpError`, at an offset of the file. -/
  | traceDump (offset : Nat) (e : FormatError)
  /-- `struct.error`: the buffer is too short for a layout. -/
  | structError
  /-- `IndexError`: a list is too short. -/
  | indexError
deriving DecidableEq, Repr

/-- `_format_error`: the text of a `TraceDumpError`. -/
def formatError (path : String) (offset : Nat) (e : FormatError) : String :=
  let message := e.message
  s!"{path}:{offset}: {message}"

/-! ## Layouts -/

/-- `VERSION_HEADER`, `<IBBBB`. -/
def versionHeaderLayout : List Nat := [4, 1, 1, 1, 1]

/-- `BLOCK_HEADER`, `<I`. -/
def blockHeaderLayout : List Nat := [4]

/-- `ENTRY_HEADER` and `ADDRESS`, `<Q`. -/
def entryHeaderLayout : List Nat := [8]

/-- `FREE_FIELDS`, `<QQII`. -/
def freeFields : List Nat := [8, 8, 4, 4]

/-- `ALLOC_FIELDS`, `<QQQII`. -/
def allocFields : List Nat := [8, 8, 8, 4, 4]

/-- `ACCESS_FIELDS`, `<QQII`. -/
def accessFields : List Nat := [8, 8, 4, 4]

/-- `ATOMIC_ACCESS_FIELDS`, `<QQ`. -/
def atomicAccessFields : List Nat := [8, 8]

/-- `ATOMIC_FIELDS`, `<Q`. -/
def atomicFields : List Nat := [8]

/-- `THREAD_START_FIELDS`, `<QQQ`. -/
def threadStartFields : List Nat := [8, 8, 8]

/-- `LZ4_MAX_RATIO`. -/
def lz4MaxRatio : Nat := 255

/-! ## Entries -/

/-- `TraceEntry`.  A field that the type does not have is `none`. -/
structure TraceEntry where
  tid : Nat
  type : EntryType
  pointer : Nat
  zeroFlag : Bool := false
  size : Option Nat := none
  allocIndex : Option Nat := none
  atomicIndex : Option Nat := none
  caller : Option Nat := none
  stackDepth : Nat := 0
  caller1 : Nat := 0
  caller2 : Nat := 0
  threadStackPtr : Option Nat := none
  threadStackSize : Option Nat := none
deriving DecidableEq, Repr

/-- `_unpack_from`: the fields of a layout and the offset after them. -/
def readFields (layout : List Nat) (description : String) (buffer : List UInt8) (offset : Nat) :
    Except PyError (List Nat × Nat) :=
  let fin := offset + layout.sum
  if fin > buffer.length then
    .error (.traceDump offset (.truncatedFields description layout.sum (buffer.length - offset)))
  else
    match unpackFrom layout buffer offset with
    | none => .error .structError
    | some fields => .ok (fields, fin)

/-- The loop of `_read_stack`: `count` addresses from an offset on. -/
def readAddresses (buffer : List UInt8) : Nat → Nat → Option (List Nat)
  | 0, _ => some []
  | count + 1, offset =>
      match unpackFrom entryHeaderLayout buffer offset with
      | some [address] => (readAddresses buffer count (offset + 8)).map (address :: ·)
      | _ => none

/-- What `_read_stack` returns, with the stack of the reader after it. -/
structure StackRead where
  depth : Nat
  caller1 : Nat
  caller2 : Nat
  offset : Nat
  stack : List Nat
deriving DecidableEq, Repr

/-- `_read_stack`. -/
def readStack (buffer : List UInt8) (stack : List Nat) (entryOffset offset popped depth : Nat) :
    Except PyError StackRead :=
  if popped > depth then .error (.traceDump entryOffset (.poppedExceedsDepth popped depth))
  else if popped > stack.length then
    .error (.traceDump entryOffset (.cannotRetain popped stack.length))
  else
    let stack := stack.take popped
    let added := depth - popped
    let stackEnd := offset + added * 8
    if stackEnd > buffer.length then
      .error (.traceDump offset (.truncatedStack (added * 8) (buffer.length - offset)))
    else
      match readAddresses buffer added offset with
      | none => .error .structError
      | some addresses =>
          let stack := stack ++ addresses
          let caller1 := (stack.getLast?).getD 0
          if depth ≥ 2 then
            if stack.length < 2 then .error .indexError
            else .ok ⟨depth, caller1, (stack[stack.length - 2]?).getD 0, stackEnd, stack⟩
          else .ok ⟨depth, caller1, 0, stackEnd, stack⟩

/-- An entry, the offset after it and the stack of the reader. -/
structure Yielded where
  entry : TraceEntry
  offset : Nat
  stack : List Nat
deriving DecidableEq, Repr

/-- The part of `_read_file` for the types READ and WRITE. -/
def readAccess (tid : Nat) (buffer : List UInt8) (stack : List Nat) (entryOffset offset : Nat)
    (type : EntryType) (pointer : Nat) (zeroFlag : Bool) : Except PyError Yielded :=
  match readFields accessFields "access entry fields" buffer offset with
  | .error e => .error e
  | .ok ([size, caller, popped, depth], offset) =>
      match readStack buffer stack entryOffset offset popped depth with
      | .error e => .error e
      | .ok r =>
          .ok
            { entry :=
                { tid, type, pointer, zeroFlag, size := some size, caller := some caller,
                  stackDepth := r.depth, caller1 := r.caller1, caller2 := r.caller2 }
              offset := r.offset
              stack := r.stack }
  | .ok _ => .error .structError

/-- The part of `_read_entry` for the type FREE.  `none` is the zero-filled
tail. -/
def readFree (tid : Nat) (buffer : List UInt8) (stack : List Nat) (entryOffset offset : Nat)
    (typedPointer pointer : Nat) (zeroFlag : Bool) : Except PyError (Option Yielded) :=
  let fieldsEnd := offset + freeFields.sum
  let availableEnd := min fieldsEnd buffer.length
  if typedPointer = 0 ∧ ((buffer.drop offset).take (availableEnd - offset)).all (· == 0) = true then
    .ok none
  else
    match readFields freeFields "free entry fields" buffer offset with
    | .error e => .error e
    | .ok ([allocIndex, caller, popped, depth], offset) =>
        match readStack buffer stack entryOffset offset popped depth with
        | .error e => .error e
        | .ok r =>
            .ok <| some
              { entry :=
                  { tid, type := .free, pointer, zeroFlag, allocIndex := some allocIndex,
                    caller := some caller, stackDepth := r.depth, caller1 := r.caller1,
                    caller2 := r.caller2 }
                offset := r.offset
                stack := r.stack }
    | .ok _ => .error .structError

/-- The part of `_read_entry` for the types ALLOC, MMAP and MUNMAP. -/
def readAlloc (tid : Nat) (buffer : List UInt8) (stack : List Nat) (entryOffset offset : Nat)
    (type : EntryType) (pointer : Nat) (zeroFlag : Bool) : Except PyError Yielded :=
  match readFields allocFields "allocation entry fields" buffer offset with
  | .error e => .error e
  | .ok ([size, allocIndex, caller, popped, depth], offset) =>
      match readStack buffer stack entryOffset offset popped depth with
      | .error e => .error e
      | .ok r =>
          .ok
            { entry :=
                { tid, type, pointer, zeroFlag, size := some size, allocIndex := some allocIndex,
                  caller := some caller, stackDepth := r.depth, caller1 := r.caller1,
                  caller2 := r.caller2 }
              offset := r.offset
              stack := r.stack }
  | .ok _ => .error .structError

/-- `_read_entry`, and before it the branch of `_read_file` for accesses. -/
def readEntry (tid : Nat) (buffer : List UInt8) (stack : List Nat) (entryOffset offset : Nat)
    (typedPointer : Nat) (type : EntryType) (pointer : Nat) (zeroFlag : Bool) :
    Except PyError (Option Yielded) :=
  match type with
  | .read | .write =>
      (readAccess tid buffer stack entryOffset offset type pointer zeroFlag).map some
  | .testMarker => .ok (some ⟨{ tid, type, pointer }, offset, stack⟩)
  | .free => readFree tid buffer stack entryOffset offset typedPointer pointer zeroFlag
  | .alloc | .mmap | .munmap =>
      (readAlloc tid buffer stack entryOffset offset type pointer zeroFlag).map some
  | .threadStart =>
      match readFields threadStartFields "thread-start entry fields" buffer offset with
      | .error e => .error e
      | .ok ([atomicIndex, ptr, size], offset) =>
          .ok <| some
            { entry :=
                { tid, type, pointer, zeroFlag, atomicIndex := some atomicIndex,
                  threadStackPtr := some ptr, threadStackSize := some size }
              offset, stack }
      | .ok _ => .error .structError
  | .atomicRead | .atomicWrite =>
      match readFields atomicAccessFields "atomic-access entry fields" buffer offset with
      | .error e => .error e
      | .ok ([size, atomicIndex], offset) =>
          .ok <| some
            { entry :=
                { tid, type, pointer, zeroFlag, size := some size,
                  atomicIndex := some atomicIndex }
              offset, stack }
      | .ok _ => .error .structError
  | _ =>
      match readFields atomicFields "atomic entry fields" buffer offset with
      | .error e => .error e
      | .ok ([atomicIndex], offset) =>
          .ok <| some
            { entry := { tid, type, pointer, zeroFlag, atomicIndex := some atomicIndex }
              offset, stack }
      | .ok _ => .error .structError

/-! ## Files -/

/-- The body of the loop of `_read_file`.  `none` is a `break` at the tail. -/
def readOne (tid : Nat) (buffer : List UInt8) (stack : List Nat) (offset : Nat) :
    Except PyError (Option Yielded) :=
  let headerEnd := offset + 8
  if headerEnd > buffer.length then
    if (buffer.drop offset).all (· == 0) then .ok none
    else .error (.traceDump offset (.truncatedEntryHeader (buffer.length - offset)))
  else
    match unpackFrom entryHeaderLayout buffer offset with
    | some [typedPointer] =>
        let rawType := typedPointer &&& 0xFF
        -- `raw_type & ~ZERO_FLAG` on a byte
        let typeValue := rawType &&& 0x7F
        match entryTypes[typeValue]? with
        | none => .error (.traceDump offset (.unknownEntryType rawType))
        | some type =>
            let pointer := (typedPointer >>> 16) &&& 0xFFFFFFFFFFFF
            let zeroFlag := decide (rawType &&& 0x80 ≠ 0)
            readEntry tid buffer stack offset headerEnd typedPointer type pointer zeroFlag
    | _ => .error .structError

/-- How a generator ends. -/
inductive Outcome where
  /-- It finishes, and the reader has this stack. -/
  | finished (stack : List Nat)
  | raised (e : PyError)
  | diverged
deriving DecidableEq, Repr

/-- What `_read_file` does. -/
structure Decoded where
  /-- The entries it yields. -/
  entries : List TraceEntry
  /-- The offset where the last of them ended. -/
  offset : Nat
  outcome : Outcome
deriving DecidableEq, Repr

/-- The loop of `_read_file`. -/
def readLoop (tid : Nat) (buffer : List UInt8) : Nat → List Nat → Nat → Decoded
  | 0, _, offset => ⟨[], offset, .diverged⟩
  | fuel + 1, stack, offset =>
      if offset < buffer.length then
        match readOne tid buffer stack offset with
        | .error e => ⟨[], offset, .raised e⟩
        | .ok none => ⟨[], offset, .finished stack⟩
        | .ok (some y) =>
            let d := readLoop tid buffer fuel y.stack y.offset
            { d with entries := y.entry :: d.entries }
      else ⟨[], offset, .finished stack⟩

/-- `_read_file` once the fragment is decompressed.  An entry takes at least 8
bytes, so the fuel is enough. -/
def readBuffer (tid : Nat) (stack : List Nat) (buffer : List UInt8) : Decoded :=
  readLoop tid buffer (buffer.length + 1) stack sizeofVersionHeader

/-- `version < MIN_SUPPORTED_VERSION`, for the version 0.2.0. -/
def unsupportedVersion (major minor _patch : Nat) : Bool := decide (major = 0 ∧ minor < 2)

/-- `_decompress`, on the bytes of the file. -/
def decompress (B : Build) (maxFragmentSize : Nat) (data : List UInt8) :
    Except PyError (List UInt8) :=
  if data.length < sizeofVersionHeader then
    .error (.traceDump 0 (.truncatedVersionHeader data.length))
  else
    match unpackFrom versionHeaderLayout data 0 with
    | some [_, _, major, minor, patch] =>
        if unsupportedVersion major minor patch then
          .error (.traceDump 0 (.unsupportedVersion major minor patch))
        else if data.length < fragHdrSize then
          .error (.traceDump sizeofVersionHeader
            (.truncatedBlockHeader (data.length - sizeofVersionHeader)))
        else
          match unpackFrom blockHeaderLayout data sizeofVersionHeader with
          | some [rawSize] =>
              let payload := data.drop fragHdrSize
              let limit := min maxFragmentSize (payload.length * lz4MaxRatio)
              if rawSize > limit then
                .error (.traceDump sizeofVersionHeader
                  (.implausibleSize rawSize payload.length limit))
              else if rawSize = 0 then .ok (data.take sizeofVersionHeader)
              else
                match B.blockDecompress payload rawSize with
                | .error e => .error (.traceDump fragHdrSize (.decompressionFailed e))
                | .ok entries =>
                    if entries.length ≠ rawSize then
                      .error (.traceDump fragHdrSize (.sizeMismatch rawSize entries.length))
                    else .ok (data.take sizeofVersionHeader ++ entries)
          | _ => .error .structError
    | _ => .error .structError

/-- A reader: the thread it reads, and its limit on the size of a fragment. -/
structure TraceReader where
  tid : Nat
  maxFragmentSize : Nat := lz4MaxInputSize

/-- `_read_file`. -/
def TraceReader.readFile (r : TraceReader) (B : Build) (stack : List Nat) (data : List UInt8) :
    Decoded :=
  match decompress B r.maxFragmentSize data with
  | .error e => ⟨[], sizeofVersionHeader, .raised e⟩
  | .ok buffer => readBuffer r.tid stack buffer

/-- `entries`: the files one after the other. -/
def TraceReader.entries (r : TraceReader) (B : Build) :
    List Nat → List (List UInt8) → List TraceEntry × Outcome
  | stack, [] => ([], .finished stack)
  | stack, file :: files =>
      match r.readFile B stack file with
      | ⟨es, _, .finished stack⟩ =>
          let (es', outcome) := r.entries B stack files
          (es ++ es', outcome)
      | ⟨es, _, outcome⟩ => (es, outcome)

/-- `discover_trace_files`: the files of the thread in the order of their
fragment numbers. -/
def discoverTraceFiles (d : Dir) : List (List UInt8) := (d.names.mergeSort (· ≤ ·)).map d.content

end Coldtrace
