import Mathlib.Algebra.GroupWithZero.Nat
import Mathlib.Tactic.Common
import Coldtrace.Lib.Bytes

/-!
# Trace entries

The model of `entries.h` and of the size table of `entries.c`.  An entry starts
with a typed pointer, a 64-bit word with the low 48 bits of a pointer, a
padding byte and a type byte.  Its fixed part ends in a stack diff for the six
types that carry a stack, and the frames of the diff follow.

A type byte is one of the 25 codes, possibly with `ZERO_FLAG` set.  The code
masks the flag off before it looks a type up, and `entryTypes` is the table it
looks in.  A byte that is not in the table is an unknown type.
-/

namespace Coldtrace

open Bytes

/-! ## Types and their codes -/

/-- The entry types, in the order of their codes. -/
inductive EntryType where
  | free
  | alloc
  | read
  | write
  | atomicRead
  | atomicWrite
  | lockAcquire
  | lockRelease
  | threadCreate
  | threadStart
  | rwLockCreate
  | rwLockDestroy
  | rwLockAcqShr
  | rwLockAcqExc
  | rwLockRelShr
  | rwLockRelExc
  | rwLockRel
  | cxaGuardAcquire
  | cxaGuardRelease
  | threadJoin
  | threadExit
  | fence
  | mmap
  | munmap
  | testMarker
deriving DecidableEq, Repr

/-- The table of types, indexed by code. -/
def entryTypes : List EntryType :=
  [.free, .alloc, .read, .write, .atomicRead, .atomicWrite, .lockAcquire, .lockRelease,
    .threadCreate, .threadStart, .rwLockCreate, .rwLockDestroy, .rwLockAcqShr, .rwLockAcqExc,
    .rwLockRelShr, .rwLockRelExc, .rwLockRel, .cxaGuardAcquire, .cxaGuardRelease, .threadJoin,
    .threadExit, .fence, .mmap, .munmap, .testMarker]

/-- The code of a type, `COLDTRACE_FREE` to `COLDTRACE_TEST_MARKER`. -/
def EntryType.code : EntryType → UInt8
  | .free => 0
  | .alloc => 1
  | .read => 2
  | .write => 3
  | .atomicRead => 4
  | .atomicWrite => 5
  | .lockAcquire => 6
  | .lockRelease => 7
  | .threadCreate => 8
  | .threadStart => 9
  | .rwLockCreate => 10
  | .rwLockDestroy => 11
  | .rwLockAcqShr => 12
  | .rwLockAcqExc => 13
  | .rwLockRelShr => 14
  | .rwLockRelExc => 15
  | .rwLockRel => 16
  | .cxaGuardAcquire => 17
  | .cxaGuardRelease => 18
  | .threadJoin => 19
  | .threadExit => 20
  | .fence => 21
  | .mmap => 22
  | .munmap => 23
  | .testMarker => 24

/-- The bit of a type byte that says the value read was zero. -/
def zeroFlag : UInt8 := 0x80

/-- The type byte of a type, with or without `ZERO_FLAG`. -/
def EntryType.byte (t : EntryType) (zero : Bool) : UInt8 :=
  if zero then t.code ||| zeroFlag else t.code

/-- The type a type byte stands for, if `is_type_valid` accepts it. -/
def entryType? (type : UInt8) : Option EntryType := entryTypes[(type &&& ~~~zeroFlag).toNat]?

theorem EntryType.code_lt (t : EntryType) : t.code.toNat < 25 := by
  cases t <;> decide

theorem code_of_entryTypes {n : Nat} {t : EntryType} (h : entryTypes[n]? = some t) :
    n = t.code.toNat := by
  have hn : n < 25 := by
    by_contra hge
    rw [List.getElem?_eq_none (by simpa [entryTypes] using hge)] at h
    cases h
  have hall : ∀ i : Fin 25, ∀ t : EntryType, entryTypes[i.val]? = some t →
      i.val = t.code.toNat := by
    intro i t
    cases t <;> revert i <;> decide
  exact hall ⟨n, hn⟩ t h

@[simp] theorem entryType?_byte (t : EntryType) (zero : Bool) :
    entryType? (t.byte zero) = some t := by
  cases t <;> cases zero <;> rfl

theorem EntryType.toNat_byte (t : EntryType) (zero : Bool) :
    (t.byte zero).toNat = t.code.toNat + if zero then 128 else 0 := by
  cases t <;> cases zero <;> rfl

/-! ## Sizes -/

def sizeofVersionHeader : Nat := 8
def sizeofStackDiff : Nat := 8
def sizeofMarkerEntry : Nat := 8
def sizeofAccessEntry : Nat := 32
def sizeofAllocEntry : Nat := 40
def sizeofFreeEntry : Nat := 32
def sizeofAtomicAccessEntry : Nat := 24
def sizeofAtomicEntry : Nat := 16
def sizeofThreadInitEntry : Nat := 32

/-- `space_map_`: the size of the fixed part of an entry. -/
def EntryType.space : EntryType → Nat
  | .free => sizeofFreeEntry
  | .alloc | .mmap | .munmap => sizeofAllocEntry
  | .read | .write => sizeofAccessEntry
  | .atomicRead | .atomicWrite => sizeofAtomicAccessEntry
  | .lockAcquire | .lockRelease | .rwLockCreate | .rwLockDestroy | .rwLockAcqShr
  | .rwLockAcqExc | .rwLockRelShr | .rwLockRelExc | .rwLockRel | .cxaGuardAcquire
  | .cxaGuardRelease | .threadJoin | .threadExit | .fence | .threadCreate => sizeofAtomicEntry
  | .threadStart => sizeofThreadInitEntry
  | .testMarker => sizeofMarkerEntry

/-- The types that carry a stack. -/
def EntryType.hasStack : EntryType → Bool
  | .free | .alloc | .mmap | .munmap | .read | .write => true
  | _ => false

/-- `coldtrace_entry_fixed_size`: the size of the fixed part, 0 for an unknown
type byte. -/
def entryFixedSize (type : UInt8) : Nat :=
  match entryType? type with
  | some t => t.space
  | none => 0

/-- `with_stack_`. -/
def withStack (type : UInt8) : Bool :=
  match entryType? type with
  | some t => t.hasStack
  | none => false

@[simp] theorem entryFixedSize_byte (t : EntryType) (zero : Bool) :
    entryFixedSize (t.byte zero) = t.space := by
  simp [entryFixedSize]

@[simp] theorem withStack_byte (t : EntryType) (zero : Bool) :
    withStack (t.byte zero) = t.hasStack := by
  simp [withStack]

theorem EntryType.space_bounds (t : EntryType) : 8 ≤ t.space ∧ t.space ≤ 40 := by
  cases t <;> decide

theorem entryFixedSize_le (type : UInt8) : entryFixedSize type ≤ 40 := by
  rw [entryFixedSize]
  split
  next t _ => exact t.space_bounds.2
  next => omega

/-! ## The fields of an entry -/

/-- The values a subscriber stores in an entry once it is appended.  A type
uses the fields of its own structure and leaves the others alone. -/
structure Fields where
  size : UInt64 := 0
  allocIndex : UInt64 := 0
  atomicIndex : UInt64 := 0
  caller : UInt64 := 0
  threadStackPtr : UInt64 := 0
  threadStackSize : UInt64 := 0
deriving DecidableEq, Repr

/-- The words between the typed pointer and the stack diff, in the order of the
structure of the type. -/
def Fields.words (f : Fields) : EntryType → List Nat
  | .free => [f.allocIndex.toNat, f.caller.toNat]
  | .alloc | .mmap | .munmap => [f.size.toNat, f.allocIndex.toNat, f.caller.toNat]
  | .read | .write => [f.size.toNat, f.caller.toNat]
  | .atomicRead | .atomicWrite => [f.size.toNat, f.atomicIndex.toNat]
  | .threadStart => [f.atomicIndex.toNat, f.threadStackPtr.toNat, f.threadStackSize.toNat]
  | .testMarker => []
  | _ => [f.atomicIndex.toNat]

/-- The number of words between the typed pointer and the stack diff. -/
def EntryType.arity : EntryType → Nat
  | .free => 2
  | .alloc | .mmap | .munmap => 3
  | .read | .write => 2
  | .atomicRead | .atomicWrite => 2
  | .threadStart => 3
  | .testMarker => 0
  | _ => 1

/-- The types with a size. -/
def EntryType.hasSize : EntryType → Bool
  | .alloc | .mmap | .munmap | .read | .write | .atomicRead | .atomicWrite => true
  | _ => false

/-- The types with an alloc index. -/
def EntryType.hasAllocIndex : EntryType → Bool
  | .free | .alloc | .mmap | .munmap => true
  | _ => false

/-- The types with an atomic index: those without a stack, except the marker. -/
def EntryType.hasAtomicIndex (t : EntryType) : Bool := !t.hasStack && decide (t ≠ .testMarker)

/-- The types whose atomic index is taken before the call they log. -/
def EntryType.isParked : EntryType → Bool
  | .threadCreate | .atomicRead | .atomicWrite | .fence => true
  | _ => false

@[simp] theorem Fields.length_words (f : Fields) (t : EntryType) :
    (f.words t).length = t.arity := by
  cases t <;> rfl

theorem Fields.words_lt (f : Fields) (t : EntryType) : ∀ v ∈ f.words t, v < 256 ^ 8 := by
  have h : ∀ x ∈ f.words t, ∃ u : UInt64, x = u.toNat := by
    cases t <;> simp [Fields.words]
  intro v hv
  obtain ⟨u, rfl⟩ := h v hv
  exact u.toNat_lt

/-- The fixed part is the typed pointer, the words and, for the types that
carry a stack, the stack diff. -/
theorem EntryType.space_eq (t : EntryType) :
    t.space = 8 + 8 * t.arity + if t.hasStack then sizeofStackDiff else 0 := by
  cases t <;> rfl

/-! ## The typed pointer -/

def typeMask : UInt64 := 0x00000000000000FF
def ptrMask : UInt64 := 0xFFFFFFFFFFFF0000
def ptrShiftValue : UInt64 := 16

/-- `coldtrace_make_entry_header`, which `coldtrace_entry_init` calls. -/
def makeEntryHeader (type : UInt8) (ptr : UInt64) : UInt64 :=
  let typeMaskedShifted := type.toUInt64 &&& typeMask
  let ptrMaskedShifted := (ptr <<< ptrShiftValue) &&& ptrMask
  ptrMaskedShifted ||| typeMaskedShifted

/-- The typed pointer as arithmetic: the pointer keeps its low 48 bits. -/
theorem toNat_makeEntryHeader (type : UInt8) (ptr : UInt64) :
    (makeEntryHeader type ptr).toNat = 2 ^ 16 * (ptr.toNat % 2 ^ 48) + type.toNat := by
  have htype : (type.toUInt64 &&& typeMask).toNat = type.toNat := by
    have hlt : type.toNat < 2 ^ 8 := type.toNat_lt
    rw [UInt64.toNat_and, UInt8.toNat_toUInt64]
    change type.toNat &&& (2 ^ 8 - 1) = type.toNat
    rw [Nat.and_two_pow_sub_one_eq_mod, Nat.mod_eq_of_lt hlt]
  have hptr : ((ptr <<< ptrShiftValue) &&& ptrMask).toNat = 2 ^ 16 * (ptr.toNat % 2 ^ 48) := by
    have hmask : ptrMask = (UInt64.ofNat (2 ^ 48 - 1)) <<< (16 : UInt64) := by decide
    rw [hmask, ptrShiftValue, ← UInt64.shiftLeft_and, UInt64.toNat_shiftLeft, UInt64.toNat_and]
    change ((ptr.toNat &&& (2 ^ 48 - 1)) <<< 16) % 2 ^ 64 = _
    rw [Nat.and_two_pow_sub_one_eq_mod, Nat.shiftLeft_eq]
    omega
  rw [makeEntryHeader, UInt64.toNat_or, htype, hptr]
  exact (Nat.two_pow_add_eq_or_of_lt (Nat.lt_trans type.toNat_lt (by decide)) _).symm

end Coldtrace
