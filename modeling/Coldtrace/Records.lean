import Mathlib.Data.Nat.Bitwise
import Mathlib.Tactic.Common
import Coldtrace.Lib.Bytes
import Coldtrace.Entries
import Coldtrace.Reader

/-!
# Records

A record is one entry of a fragment as a value: what its bytes say, before a
reader interprets them against a stack.  The writer leaves a list of records
behind and the reader recovers it, so the two meet here.

A `Record` carries the facts that make its bytes well formed.  `Record.bytes`
is its image.  `Record.apply` is the stack after it and fails when the record
keeps more frames than there are.  `Record.entry` is the `TraceEntry` a reader
reports for it.  `Chain` runs a list of records from an initial stack.
-/

namespace Coldtrace

open Bytes

/-! ## Records and their bytes -/

/-- One entry of a fragment. -/
structure Record where
  type : EntryType
  zeroFlag : Bool
  /-- The byte between the pointer and the type. -/
  padding : UInt8
  pointer : Nat
  /-- The words of the structure of the type. -/
  fields : List Nat
  /-- The number of frames kept from the stack before. -/
  popped : Nat
  /-- The number of frames after the record. -/
  depth : Nat
  /-- The frames above those kept. -/
  diff : List Nat
  pointer_lt : pointer < 2 ^ 48
  fields_length : fields.length = type.arity
  fields_lt : ∀ v ∈ fields, v < 256 ^ 8
  diff_length : popped + diff.length = depth
  depth_lt : depth < 2 ^ 32
  diff_lt : ∀ v ∈ diff, v < 256 ^ 8
  noStack : type.hasStack = false → depth = 0
deriving DecidableEq

namespace Record

/-- The word a record starts with. -/
def typedPointer (r : Record) : Nat :=
  2 ^ 16 * r.pointer + (2 ^ 8 * r.padding.toNat + (r.type.byte r.zeroFlag).toNat)

/-- The stack diff of a record, empty for a type without a stack. -/
def stackBytes (r : Record) : List UInt8 :=
  if r.type.hasStack then pack [4, 4] [r.popped, r.depth] ++ words 8 r.diff else []

/-- The bytes of a record. -/
def bytes (r : Record) : List UInt8 := le 8 r.typedPointer ++ words 8 r.fields ++ r.stackBytes

/-- The stack after a record, `none` when it keeps frames that are not there. -/
def apply (r : Record) (stack : List Nat) : Option (List Nat) :=
  if r.type.hasStack then
    if r.popped ≤ stack.length then some (stack.take r.popped ++ r.diff) else none
  else some stack

/-- A FREE record all of whose bytes are zero, which a reader takes for the end
of the entries. -/
def ZeroFree (r : Record) : Prop := r.type = .free ∧ ∀ b ∈ r.bytes, b = 0

instance (r : Record) : Decidable r.ZeroFree := inferInstanceAs (Decidable (_ ∧ _))

end Record

/-- The caller at the top of a stack, 0 when it is empty. -/
def topCaller (stack : List Nat) : Nat := (stack.getLast?).getD 0

/-- The caller below the top of a stack, 0 when there is none. -/
def secondCaller (stack : List Nat) : Nat := (stack.dropLast.getLast?).getD 0

/-- The words of a type as the named fields of a `TraceEntry`. -/
def EntryType.named : EntryType → List Nat → TraceEntry → TraceEntry
  | .free, [allocIndex, caller], e =>
      { e with allocIndex := some allocIndex, caller := some caller }
  | .alloc, [size, allocIndex, caller], e
  | .mmap, [size, allocIndex, caller], e
  | .munmap, [size, allocIndex, caller], e =>
      { e with size := some size, allocIndex := some allocIndex, caller := some caller }
  | .read, [size, caller], e
  | .write, [size, caller], e => { e with size := some size, caller := some caller }
  | .atomicRead, [size, atomicIndex], e
  | .atomicWrite, [size, atomicIndex], e =>
      { e with size := some size, atomicIndex := some atomicIndex }
  | .threadStart, [atomicIndex, ptr, size], e =>
      { e with
        atomicIndex := some atomicIndex, threadStackPtr := some ptr, threadStackSize := some size }
  -- the reader does not report the flag of a marker
  | .testMarker, [], e => { e with zeroFlag := false }
  | _, [atomicIndex], e => { e with atomicIndex := some atomicIndex }
  | _, _, e => e

/-- The entry a reader reports for a type, a pointer and the words of the type,
when `stack` is the stack after it. -/
def reportedEntry (tid : Nat) (type : EntryType) (zeroFlag : Bool) (pointer : Nat)
    (fields : List Nat) (stack : List Nat) : TraceEntry :=
  type.named fields <|
    if type.hasStack then
      { tid, type, pointer, zeroFlag, stackDepth := stack.length, caller1 := topCaller stack,
        caller2 := secondCaller stack }
    else { tid, type, pointer, zeroFlag }

/-- The entry a reader reports for a record. -/
def Record.entry (r : Record) (tid : Nat) (stack : List Nat) : TraceEntry :=
  reportedEntry tid r.type r.zeroFlag r.pointer r.fields stack

/-! ## Chains -/

/-- The records apply one after the other, from one stack to another. -/
inductive Chain : List Nat → List Record → List Nat → Prop where
  | nil {s : List Nat} : Chain s [] s
  | cons {s s' s'' : List Nat} {r : Record} {rs : List Record} :
      r.apply s = some s' → Chain s' rs s'' → Chain s (r :: rs) s''

/-- The entries a reader reports for records that apply. -/
def reported (tid : Nat) : List Nat → List Record → List TraceEntry
  | _, [] => []
  | s, r :: rs =>
      match r.apply s with
      | some s' => r.entry tid s' :: reported tid s' rs
      | none => []

/-- The bytes of a list of records. -/
def recordsBytes (rs : List Record) : List UInt8 := rs.flatMap Record.bytes

@[simp] theorem recordsBytes_nil : recordsBytes [] = [] := rfl

@[simp] theorem recordsBytes_cons (r : Record) (rs : List Record) :
    recordsBytes (r :: rs) = r.bytes ++ recordsBytes rs := rfl

@[simp] theorem recordsBytes_append (rs rs' : List Record) :
    recordsBytes (rs ++ rs') = recordsBytes rs ++ recordsBytes rs' := List.flatMap_append

theorem Chain.append {s s' s'' : List Nat} {rs rs' : List Record} (h : Chain s rs s')
    (h' : Chain s' rs' s'') : Chain s (rs ++ rs') s'' := by
  induction h with
  | nil => exact h'
  | cons happ _ ih => exact .cons happ (ih h')

theorem Chain.reported_append {tid : Nat} {s s' : List Nat} {rs : List Record} (h : Chain s rs s')
    (rs' : List Record) :
    reported tid s (rs ++ rs') = reported tid s rs ++ reported tid s' rs' := by
  induction h with
  | nil => rfl
  | cons happ _ ih => simp only [List.cons_append, reported, happ, ih]

/-! ## Sizes -/

theorem Record.popped_le (r : Record) : r.popped ≤ r.depth := by
  have := r.diff_length
  omega

@[simp] theorem Record.length_stackBytes (r : Record) :
    r.stackBytes.length = if r.type.hasStack then sizeofStackDiff + 8 * r.diff.length else 0 := by
  rw [Record.stackBytes]
  split
  next =>
    simp only [pack, List.length_append, length_le, List.length_nil, length_words, sizeofStackDiff]
  next => rfl

/-- A record takes the fixed part of its type and a word a frame of its diff. -/
theorem Record.length_bytes (r : Record) : r.bytes.length = r.type.space + 8 * r.diff.length := by
  rw [Record.bytes, List.length_append, List.length_append, length_le, length_words,
    Record.length_stackBytes, r.fields_length, r.type.space_eq]
  split
  next => omega
  next h =>
    have hd := r.noStack (by simpa using h)
    have hl := r.diff_length
    omega

theorem Record.eight_le_length (r : Record) : 8 ≤ r.bytes.length := by
  have := r.type.space_bounds
  rw [r.length_bytes]
  omega

/-! ## The typed pointer -/

theorem Record.typedPointer_lt (r : Record) : r.typedPointer < 256 ^ 8 := by
  have h₁ := r.pointer_lt
  have h₂ : r.padding.toNat < 256 := r.padding.toNat_lt
  have h₃ : (r.type.byte r.zeroFlag).toNat < 256 := UInt8.toNat_lt _
  rw [Record.typedPointer]
  omega

theorem entryTypes_byte (t : EntryType) (zero : Bool) :
    entryTypes[(t.byte zero).toNat &&& 0x7F]? = some t := by
  cases t <;> cases zero <;> rfl

theorem flag_byte (t : EntryType) (zero : Bool) :
    decide ((t.byte zero).toNat &&& 0x80 ≠ 0) = zero := by
  cases t <;> cases zero <;> rfl

/-- A byte whose low seven bits are the code of a type is the byte of that type
with its own flag. -/
theorem byte_of_entryTypes {n : Nat} (hn : n < 256) {t : EntryType}
    (h : entryTypes[n &&& 0x7F]? = some t) : n = (t.byte (decide (n &&& 0x80 ≠ 0))).toNat := by
  have hcode := code_of_entryTypes h
  have hlow : n &&& 0x7F = n % 2 ^ 7 := Nat.and_two_pow_sub_one_eq_mod n 7
  have hbit : n.testBit 7 = decide (n / 2 ^ 7 % 2 = 1) := Nat.testBit_eq_decide_div_mod_eq
  have hhigh : n &&& 0x80 = 128 * (n / 128) := by
    change n &&& 2 ^ 7 = _
    rw [Nat.and_two_pow, hbit]
    by_cases hb : n / 2 ^ 7 % 2 = 1
    · simp only [hb, decide_true, Bool.toNat_true]
      omega
    · simp only [hb, decide_false, Bool.toNat_false]
      omega
  rw [EntryType.toNat_byte, ← hcode, hlow, hhigh]
  by_cases hb : n / 128 = 0
  · simp only [hb, Nat.mul_zero, ne_eq, not_true_eq_false, decide_false, Bool.false_eq_true,
      if_false]
    omega
  · have hne : 128 * (n / 128) ≠ 0 := by omega
    simp only [hne, ne_eq, not_false_eq_true, decide_true, if_true]
    omega

theorem Record.typedPointer_low (r : Record) :
    r.typedPointer &&& 0xFF = (r.type.byte r.zeroFlag).toNat := by
  have h : (r.type.byte r.zeroFlag).toNat < 256 := UInt8.toNat_lt _
  change r.typedPointer &&& (2 ^ 8 - 1) = _
  rw [Nat.and_two_pow_sub_one_eq_mod, Record.typedPointer]
  omega

theorem Record.typedPointer_high (r : Record) :
    (r.typedPointer >>> 16) &&& 0xFFFFFFFFFFFF = r.pointer := by
  have h₁ : (r.type.byte r.zeroFlag).toNat < 256 := UInt8.toNat_lt _
  have h₂ : r.padding.toNat < 256 := r.padding.toNat_lt
  have h₃ := r.pointer_lt
  change (r.typedPointer >>> 16) &&& (2 ^ 48 - 1) = _
  rw [Nat.and_two_pow_sub_one_eq_mod, Nat.shiftRight_eq_div_pow, Record.typedPointer]
  omega

end Coldtrace
