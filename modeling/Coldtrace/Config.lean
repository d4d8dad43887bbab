import Mathlib.Tactic.Common
import Coldtrace.Lib.Decimal
import Coldtrace.Writer

/-!
# The configuration

The model of `config.c`.  The module reads environment variables when it is
loaded and keeps the settings in globals.  A C string is its bytes without the
terminating NUL, which no such string contains.

What `utils.c` finds and does in the directory is a parameter of `moduleInit`:
whether the directory exists in the end, and whether it could be emptied.
-/

namespace Coldtrace

open Decimal

/-! ## Parsing of numbers -/

/-- `isspace` in the C locale. -/
def isSpace (c : UInt8) : Bool := c == 32 || (decide (9 ≤ c.toNat) && decide (c.toNat ≤ 13))

/-- The sign `strtoul` accepts, and the text after it. -/
def takeSign : List UInt8 → Bool × List UInt8
  | [] => (false, [])
  | c :: cs => if c = 45 then (true, cs) else if c = 43 then (false, cs) else (false, c :: cs)

/-- `strtoul` in base 10, on the 64 bits of `unsigned long`.  Text without a
number is 0, a number that is too large is `ULONG_MAX`, and a minus sign negates
the result as an unsigned number. -/
def strtoul (s : List UInt8) : Nat :=
  let (negative, s) := takeSign (s.dropWhile isSpace)
  let v := value (s.takeWhile isDigit)
  if v ≥ 2 ^ 64 then 2 ^ 64 - 1
  else if negative then (2 ^ 64 - v) % 2 ^ 64
  else v

/-! ## The settings -/

/-- The globals of `config.c`. -/
structure Settings extends Config where
  path : List UInt8 := []
  pattern : List UInt8 := []

/-- `DEFAULT_PATH_SIZE`. -/
def defaultPathSize : Nat := 128

/-- `COLDTRACE_FILE_SUFFIX`. -/
def fileSuffix : List UInt8 := ascii "/freezer_log_%d_%d.bin"

/-- `coldtrace_set_path`. -/
def setPath (g : Settings) (path : List UInt8) : Bool × Settings :=
  if path.length ≥ defaultPathSize - (fileSuffix.length + 1) then (false, g)
  else (true, { g with path := path, pattern := path ++ fileSuffix })

/-- The environment variables.  `none` is one that is not set. -/
structure Env where
  /-- `COLDTRACE_MAX_FILES`. -/
  maxFiles : Option (List UInt8) := none
  /-- `COLDTRACE_DISABLE_WRITES`. -/
  disableWrites : Option (List UInt8) := none
  /-- `COLDTRACE_TRACE_SIZE`. -/
  traceSize : Option (List UInt8) := none
  /-- `COLDTRACE_PATH`. -/
  path : Option (List UInt8) := none
  /-- `COLDTRACE_DISABLE_CLEANUP`. -/
  disableCleanup : Option (List UInt8) := none

/-- `coldtrace_disable_writes`. -/
def disableWrites (g : Settings) : Settings := { g with writesDisabled := true }

/-- The settings once the numbers and the switch are read. -/
def readNumbers (env : Env) : Settings :=
  let g : Settings := {}
  let g :=
    match env.maxFiles with
    | some var => { g with maxFileCount := UInt32.ofNat (strtoul var) }
    | none => g
  let g :=
    if env.disableWrites = some (ascii "yes") ∨ env.disableWrites = some (ascii "true") then
      disableWrites g
    else g
  match env.traceSize with
  | some var => { g with traceSize := strtoul var }
  | none => g

/-- The `DICE_MODULE_INIT` of `config.c`. -/
def moduleInit (env : Env) (dirExists dirEmptied : Bool) : Settings :=
  let g := readNumbers env
  match env.path with
  | none => disableWrites g
  | some var =>
      let (ok, g) := setPath g var
      if !ok then disableWrites g
      else if !dirExists then disableWrites g
      else if env.disableCleanup.isNone && !dirEmptied then disableWrites g
      else g

/-- What `coldtrace_get_max` returns for a value of `COLDTRACE_MAX_FILES`. -/
def configuredMax : Option (List UInt8) → UInt32
  | some var => UInt32.ofNat (strtoul var)
  | none => 0xFFFFFFFF

@[simp] theorem setPath_maxFileCount (g : Settings) (path : List UInt8) :
    (setPath g path).2.maxFileCount = g.maxFileCount := by
  rw [setPath]
  split <;> rfl

theorem readNumbers_maxFileCount (env : Env) :
    (readNumbers env).maxFileCount = configuredMax env.maxFiles := by
  cases hm : env.maxFiles <;> cases ht : env.traceSize <;> simp only [readNumbers, hm, ht] <;>
    split <;> rfl

theorem moduleInit_maxFileCount (env : Env) (dirExists dirEmptied : Bool) :
    (moduleInit env dirExists dirEmptied).maxFileCount = configuredMax env.maxFiles := by
  rw [← readNumbers_maxFileCount, moduleInit]
  split
  next => rfl
  next var _ =>
    have hset := setPath_maxFileCount (readNumbers env) var
    dsimp only
    split
    · exact hset
    · split
      · exact hset
      · split <;> exact hset

end Coldtrace
