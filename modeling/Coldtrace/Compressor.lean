import Mathlib.Algebra.GroupWithZero.Nat
import Mathlib.Data.List.Basic
import Mathlib.Logic.Function.Basic
import Mathlib.Tactic.Common
import Coldtrace.Lib.Bytes
import Coldtrace.Lib.Lz4
import Coldtrace.Lib.Lz4Encode
import Coldtrace.Writer

/-!
# The compressor

The model of `LZ4_compress_fast` in `deps/lz4/lz4.c`, which the writer calls to
compress a fragment, on a 64-bit little endian target.  It calls
`LZ4_compress_generic` with a table that is cleared, without a dictionary, and
either with a destination of the worst case size (`notLimited`) or with one that
it checks (`limitedOutput`).

A pointer into the source or the destination is an index.  A read outside the
source, a write outside the destination and an access outside the hash table
are undefined in C and are `none` here.  The destination is a memory: the
functions that copy in units of 4 and 8 bytes write behind the end of what they
copy, as they do in C.

The compressor goes through the source and looks up the hash of the next bytes
in a table of earlier positions.  Where the bytes at the position in the table
are the same, it writes the literals since the last match and the match.
-/

namespace Coldtrace

open Bytes

namespace Compressor

/-! ## Constants -/

/-- `MINMATCH`. -/
def minMatch : Nat := 4

/-- `LASTLITERALS`. -/
def lastLiterals : Nat := 5

/-- `MFLIMIT`. -/
def mfLimit : Nat := 12

/-- `LZ4_minLength`. -/
def minLength : Nat := mfLimit + 1

/-- `LZ4_64Klimit`. -/
def limit64K : Nat := 64 * 1024 + (mfLimit - 1)

/-- `LZ4_DISTANCE_MAX`, which is `LZ4_DISTANCE_ABSOLUTE_MAX`. -/
def distanceMax : Nat := 65535

/-- `LZ4_skipTrigger`. -/
def skipTrigger : Nat := 6

/-- `LZ4_HASHLOG`, where `LZ4_MEMORY_USAGE` is 14. -/
def hashLog : Nat := 14 - 2

/-- `RUN_MASK`. -/
def runMask : Nat := 15

/-- `ML_MASK`. -/
def mlMask : Nat := 15

/-- `LZ4_ACCELERATION_MAX`. -/
def accelerationMax : Nat := 65537

/-- `tableType_t`.  `byPtr` is for 32-bit targets. -/
inductive TableType where
  | byU32
  | byU16
deriving DecidableEq, Repr

/-- `limitedOutput_directive`.  `LZ4_compress_fast` does not use `fillOutput`. -/
inductive OutputDirective where
  | notLimited
  | limitedOutput
deriving DecidableEq, Repr

/-! ## Memory -/

/-- The bytes of the source from an index on. -/
def bytesAt (n : Nat) (src : List UInt8) (p : Nat) : Option (List UInt8) :=
  if p + n ≤ src.length then some ((src.drop p).take n) else none

/-- `LZ4_read16`, `LZ4_read32` and `LZ4_read_ARCH`, by the number of bytes. -/
def read (n : Nat) (src : List UInt8) (p : Nat) : Option Nat := (bytesAt n src p).map readLe

/-- `p[-1]`. -/
def readBefore (src : List UInt8) (p : Nat) : Option Nat :=
  if p = 0 then none else read 1 src (p - 1)

/-- A store to a destination of `cap` bytes. -/
def write (cap : Nat) (dest : Mem) (op : Nat) (bs : List UInt8) : Option Mem :=
  if op + bs.length ≤ cap then some (dest.store op bs) else none

/-- `LZ4_wildCopy8`, from `s` to `d`, until `e` is reached. -/
def wildCopy8 (cap : Nat) (src : List UInt8) (e : Nat) : Nat → Nat → Nat → Mem → Option Mem
  | 0, _, _, _ => none
  | fuel + 1, d, s, dest => do
      let word ← bytesAt 8 src s
      let dest ← write cap dest d word
      if d + 8 < e then wildCopy8 cap src e fuel (d + 8) (s + 8) dest else some dest

/-! ## Counting -/

/-- `__builtin_ctzll`. -/
def ctz : Nat → Nat → Nat
  | 0, _ => 0
  | bits + 1, v => if v % 2 = 1 then 0 else ctz bits (v / 2) + 1

/-- `LZ4_NbCommonBytes`. -/
def nbCommonBytes (val : Nat) : Nat := ctz 64 val / 8

/-- The loop of `LZ4_count` over words.  The flag says that two words differ.  The
source has the first round before the loop. -/
def countWords (src : List UInt8) (pInLimit : Nat) : Nat → Nat → Nat → Option (Bool × Nat × Nat)
  | 0, _, _ => none
  | fuel + 1, pIn, pMatch =>
      if pIn + 7 < pInLimit then do
        let theirs ← read 8 src pMatch
        let ours ← read 8 src pIn
        let diff := theirs ^^^ ours
        if diff = 0 then countWords src pInLimit fuel (pIn + 8) (pMatch + 8)
        else some (true, pIn + nbCommonBytes diff, pMatch)
      else some (false, pIn, pMatch)

/-- A comparison of `n` bytes at the end of `LZ4_count`. -/
def countRest (src : List UInt8) (pInLimit n : Nat) (p : Nat × Nat) : Option (Nat × Nat) :=
  if p.1 + (n - 1) < pInLimit then do
    let theirs ← read n src p.2
    let ours ← read n src p.1
    if theirs = ours then some (p.1 + n, p.2 + n) else some p
  else some p

/-- `LZ4_count`, which returns an `unsigned`. -/
def count (src : List UInt8) (pIn pMatch pInLimit : Nat) : Option Nat := do
  let (differ, p) ← countWords src pInLimit (src.length + 1) pIn pMatch
  if differ then some ((p.1 - pIn) % 2 ^ 32)
  else do
    let p ← countRest src pInLimit 4 p
    let p ← countRest src pInLimit 2 p
    let p ← countRest src pInLimit 1 p
    some ((p.1 - pIn) % 2 ^ 32)

/-! ## The hash table -/

/-- The table has `2 ^ tableLog` entries. -/
def tableLog : TableType → Nat
  | .byU32 => hashLog
  | .byU16 => hashLog + 1

/-- `LZ4_hash4`. -/
def hash4 (sequence : Nat) (tableType : TableType) : Nat :=
  (sequence * 2654435761 % 2 ^ 32) >>> (minMatch * 8 - tableLog tableType)

/-- `LZ4_hash5`. -/
def hash5 (sequence : Nat) (tableType : TableType) : Nat :=
  (sequence * 2 ^ 24 % 2 ^ 64 * 889523592379 % 2 ^ 64) >>> (64 - tableLog tableType)

/-- `LZ4_hashPosition`. -/
def hashPosition (src : List UInt8) (p : Nat) (tableType : TableType) : Option Nat :=
  match tableType with
  | .byU32 => (read 8 src p).map (hash5 · .byU32)
  | .byU16 => (read 4 src p).map (hash4 · .byU16)

/-- `LZ4_getIndexOnHash`. -/
def getIndexOnHash (h : Nat) (table : Nat → Nat) (tableType : TableType) : Option Nat :=
  if h < 2 ^ tableLog tableType then some (table h) else none

/-- `LZ4_putIndexOnHash`. -/
def putIndexOnHash (idx h : Nat) (table : Nat → Nat) (tableType : TableType) :
    Option (Nat → Nat) :=
  if h < 2 ^ tableLog tableType then
    some (Function.update table h
      (match tableType with
      | .byU32 => idx % 2 ^ 32
      | .byU16 => idx % 2 ^ 16))
  else none

/-! ## Compressing -/

/-- What a call of `LZ4_compress_generic_validated` does not change. -/
structure Call where
  src : List UInt8
  /-- The size of the destination. -/
  cap : Nat
  outputDirective : OutputDirective
  tableType : TableType
  acceleration : Nat

/-- The variables of `LZ4_compress_generic_validated`. -/
structure Vars where
  ip : Nat := 0
  anchor : Nat := 0
  op : Nat := 0
  forwardH : Nat := 0
  table : Nat → Nat := fun _ => 0
  dest : Mem := .zero

/-- Where the function goes on. -/
inductive Jump where
  | mainLoop (v : Vars)
  | nextMatch (v : Vars) (found token : Nat)
  | lastLiterals (v : Vars)
  | fail

namespace Call

variable (c : Call)

/-- `mflimitPlusOne`. -/
def mflimitPlusOne : Nat := c.src.length - mfLimit + 1

/-- `matchlimit`. -/
def matchlimit : Nat := c.src.length - lastLiterals

/-- `op + n > olimit`, where the output is limited. -/
def overflows (n : Nat) : Bool := c.outputDirective == .limitedOutput && decide (c.cap < n)

/-- The search of a match.  It ends with the position and the match, or with
`none` behind the last position where a match may start. -/
def search : Nat → Nat → Nat → Nat → Nat → (Nat → Nat) →
    Option (Option (Nat × Nat) × Nat × (Nat → Nat))
  | 0, _, _, _, _, _ => none
  | fuel + 1, forwardIp, step, searchMatchNb, h, table => do
      let current := forwardIp % 2 ^ 32
      let matchIndex ← getIndexOnHash h table c.tableType
      let ip := forwardIp
      let forwardIp := forwardIp + step
      let step := searchMatchNb >>> skipTrigger
      if c.mflimitPlusOne < forwardIp then some (none, h, table)
      else do
        let forwardH ← hashPosition c.src forwardIp c.tableType
        let table ← putIndexOnHash current h table c.tableType
        if c.tableType ≠ .byU16 ∧ matchIndex + distanceMax < current then
          search fuel forwardIp step (searchMatchNb + 1) forwardH table
        else do
          let theirs ← read 4 c.src matchIndex
          let ours ← read 4 c.src ip
          if theirs = ours then some (some (ip, matchIndex), forwardH, table)
          else search fuel forwardIp step (searchMatchNb + 1) forwardH table

/-- The loop that extends a match to the left. -/
def catchUpLoop (anchor : Nat) : Nat → Nat → Option (Nat × Nat)
  | 0, ip => some (ip, 0)
  | found + 1, ip =>
      if anchor < ip then do
        let ours ← readBefore c.src ip
        let theirs ← readBefore c.src (found + 1)
        if ours = theirs then catchUpLoop anchor found (ip - 1) else some (ip, found + 1)
      else some (ip, found + 1)

/-- The match extended to the left. -/
def catchUp (anchor ip found : Nat) : Option (Nat × Nat) :=
  if 0 < found then do
    let ours ← readBefore c.src ip
    let theirs ← readBefore c.src found
    if ours = theirs then c.catchUpLoop anchor (found - 1) (ip - 1) else some (ip, found)
  else some (ip, found)

/-- `for (; len >= 255; len -= 255) *op++ = 255; *op++ = len`. -/
def putLength : Nat → Nat → Nat → Mem → Option (Nat × Mem)
  | 0, _, _, _ => none
  | fuel + 1, len, op, dest =>
      if 255 ≤ len then do
        let dest ← write c.cap dest op [255]
        putLength fuel (len - 255) (op + 1) dest
      else do
        let dest ← write c.cap dest op [UInt8.ofNat len]
        some (op + 1, dest)

/-- The token and the length of a run of literals, the token at `token` and the
length from `op` on. -/
def putRun (token n op : Nat) (dest : Mem) : Option (Nat × Mem) :=
  if runMask ≤ n then do
    let dest ← write c.cap dest token [UInt8.ofNat (runMask * 16)]
    c.putLength (n + 1) (n - runMask) op dest
  else do
    let dest ← write c.cap dest token [UInt8.ofNat (n * 16)]
    some (op, dest)

/-- The literals before a match. -/
def encodeLiterals (v : Vars) : Option (Option Vars) :=
  let litLength := v.ip - v.anchor
  let token := v.op
  let op := v.op + 1
  if c.overflows (op + litLength + (2 + 1 + lastLiterals) + litLength / 255) then some none
  else do
    let (op, dest) ← c.putRun token litLength op v.dest
    let dest ← wildCopy8 c.cap c.src (op + litLength) (litLength + 1) op v.anchor dest
    some (some { v with op := op + litLength, dest })

/-- From the label of the main loop to `_next_match`. -/
def mainLoop (v : Vars) : Option Jump := do
  let (place, forwardH, table) ←
    c.search (c.src.length + 1) v.ip 1 (c.acceleration <<< skipTrigger) v.forwardH v.table
  match place with
  | none => some (.lastLiterals { v with forwardH, table })
  | some (ip, found) =>
      let (ip, found) ← c.catchUp v.anchor ip found
      match ← c.encodeLiterals { v with ip, forwardH, table } with
      | none => some .fail
      | some v' => some (.nextMatch v' found v.op)

/-- The loop that writes the length of a match four bytes at a time.  It leaves
`op` and the length at the last four. -/
def putFours : Nat → Nat → Nat → Mem → Option (Nat × Nat × Mem)
  | 0, _, _, _ => none
  | fuel + 1, matchCode, op, dest =>
      if 4 * 255 ≤ matchCode then do
        let dest ← write c.cap dest (op + 4) [255, 255, 255, 255]
        putFours fuel (matchCode - 4 * 255) (op + 4) dest
      else some (matchCode, op, dest)

/-- The length of a match. -/
def encodeMatchLength (token matchCode op : Nat) (dest : Mem) : Option (Nat × Mem) :=
  if mlMask ≤ matchCode then do
    let dest ← write c.cap dest token [dest token + UInt8.ofNat mlMask]
    let dest ← write c.cap dest op [255, 255, 255, 255]
    let (rest, op, dest) ← c.putFours (matchCode + 1) (matchCode - mlMask) op dest
    let op := op + rest / 255
    let dest ← write c.cap dest op [UInt8.ofNat (rest % 255)]
    some (op + 1, dest)
  else do
    let dest ← write c.cap dest token [dest token + UInt8.ofNat matchCode]
    some (op, dest)

/-- What comes after a match that ends at `ip`. -/
def afterMatch (v : Vars) : Option Jump :=
  if c.mflimitPlusOne ≤ v.ip then some (.lastLiterals v)
  else do
    let h ← hashPosition c.src (v.ip - 2) c.tableType
    let table ← putIndexOnHash ((v.ip - 2) % 2 ^ 32) h v.table c.tableType
    let h ← hashPosition c.src v.ip c.tableType
    let current := v.ip % 2 ^ 32
    let matchIndex ← getIndexOnHash h table c.tableType
    let table ← putIndexOnHash current h table c.tableType
    let repeats ←
      if c.tableType = .byU16 ∨ current ≤ matchIndex + distanceMax then do
        let theirs ← read 4 c.src matchIndex
        let ours ← read 4 c.src v.ip
        some (decide (theirs = ours))
      else some false
    if repeats then do
      let dest ← write c.cap v.dest v.op [0]
      some (.nextMatch { v with op := v.op + 1, table, dest } matchIndex v.op)
    else do
      let forwardH ← hashPosition c.src (v.ip + 1) c.tableType
      some (.mainLoop { v with ip := v.ip + 1, table, forwardH })

/-- From `_next_match` on. -/
def nextMatch (v : Vars) (found token : Nat) : Option Jump := do
  let dest ← write c.cap v.dest v.op (le 2 (v.ip - found))
  let op := v.op + 2
  let matchCode ← count c.src (v.ip + minMatch) (found + minMatch) c.matchlimit
  let ip := v.ip + (matchCode + minMatch)
  if c.overflows (op + (1 + lastLiterals) + (matchCode + 240) / 255) then some .fail
  else do
    let (op, dest) ← c.encodeMatchLength token matchCode op dest
    c.afterMatch { v with ip, op, dest, anchor := ip }

/-- From `_last_literals` on.  The result is the block. -/
def finish (v : Vars) : Option (Option (List UInt8)) :=
  let lastRun := c.src.length - v.anchor
  if c.overflows (v.op + lastRun + 1 + (lastRun + 255 - runMask) / 255) then some none
  else do
    let (op, dest) ← c.putRun v.op lastRun (v.op + 1) v.dest
    let literals ← bytesAt lastRun c.src v.anchor
    let dest ← write c.cap dest op literals
    some (some (dest.load 0 (op + lastRun)))

/-- The function from a label on.  `none` is a result of 0. -/
def run : Nat → Jump → Option (Option (List UInt8))
  | 0, _ => none
  | fuel + 1, j =>
      match j with
      | .mainLoop v => (c.mainLoop v).bind (run fuel)
      | .nextMatch v found token => (c.nextMatch v found token).bind (run fuel)
      | .lastLiterals v => c.finish v
      | .fail => some none

/-- `LZ4_compress_generic_validated`. -/
def compressGenericValidated : Option (Option (List UInt8)) :=
  let fuel := 2 * c.src.length + 3
  if c.src.length < minLength then c.run fuel (.lastLiterals {})
  else do
    let h ← hashPosition c.src 0 c.tableType
    let table ← putIndexOnHash 0 h (fun _ => 0) c.tableType
    let forwardH ← hashPosition c.src 1 c.tableType
    c.run fuel (.mainLoop { ip := 1, forwardH, table })

/-- `LZ4_compress_generic`, with the size of the destination beside the directive.
A size above `LZ4_MAX_INPUT_SIZE` is refused. -/
def compressGeneric : Option (Option (List UInt8)) :=
  if lz4MaxInputSize < c.src.length then some none
  else if c.src.length = 0 then
    if c.outputDirective = .limitedOutput ∧ c.cap = 0 then some none
    else do
      let dest ← write c.cap .zero 0 [0]
      some (some (dest.load 0 1))
  else c.compressGenericValidated

end Call

/-- `LZ4_compress_fast_extState`, on a state that is cleared. -/
def compressFastExtState (src : List UInt8) (cap : Nat) (acceleration : Int) :
    Option (Option (List UInt8)) :=
  let acceleration :=
    if acceleration < 1 then 1
    else if acceleration > accelerationMax then accelerationMax else acceleration.toNat
  let outputDirective :=
    if compressBound src.length ≤ cap then OutputDirective.notLimited else .limitedOutput
  let tableType := if src.length < limit64K then TableType.byU16 else .byU32
  Call.compressGeneric { src, cap, outputDirective, tableType, acceleration }

/-- `LZ4_compress_fast`.  The outer `none` is undefined behaviour, the inner one a
result of 0. -/
def compressFast (src : List UInt8) (cap : Nat) (acceleration : Int) :
    Option (Option (List UInt8)) :=
  compressFastExtState src cap acceleration

end Compressor

end Coldtrace
