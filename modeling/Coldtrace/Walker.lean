import Mathlib.Tactic.Common
import Coldtrace.Lib.Bytes
import Coldtrace.Entries
import Coldtrace.Records
import Coldtrace.Decoding
import Coldtrace.Fragments

/-!
# The record walker

`entries.c` reads entries with accessors that find the fields of a type at
fixed words, and the checker of the tests walks a page by the size of one entry
after the other.  Both describe the format again, apart from the reader.

A read outside the buffer is undefined in C and is `none` here, so every
equation with `some` below also says that the accessor stays inside.

On a fragment that the reader decodes to its last byte the walk visits the
offsets of the reader and stops at the end, and at each of them the accessors
return what the reader reports (`walker_agrees`).
-/

namespace Coldtrace

open Bytes

/-! ## The accessors of `entries.c` -/

/-- `((uint64_t *)buf)[k]`, for the buffer at an offset. -/
def wordAt (buffer : List UInt8) (offset k : Nat) : Option UInt64 :=
  match unpackFrom [8] buffer (offset + 8 * k) with
  | some [v] => some (UInt64.ofNat v)
  | _ => none

/-- `COLDTRACE_END_`. -/
def coldtraceEnd : UInt8 := 25

/-- `INVALID_SIZE`, `INVALID_ALLOC_INDEX` and `INVALID_ATOMIC_INDEX`, as 64-bit
words. -/
def invalid : UInt64 := -1

/-- `is_type_valid`. -/
def isTypeValid (type : UInt8) : Bool := decide ((type &&& ~~~zeroFlag) < coldtraceEnd)

/-- `coldtrace_entry_parse_type`. -/
def entryParseType (buffer : List UInt8) (offset : Nat) : Option UInt8 := do
  let ptr ← wordAt buffer offset 0
  let type := (ptr &&& typeMask &&& ~~~zeroFlag.toUInt64).toUInt8
  if isTypeValid type then some type else some coldtraceEnd

/-- `coldtrace_entry_parse_ptr`. -/
def entryParsePtr (buffer : List UInt8) (offset : Nat) : Option UInt64 := do
  let typedPtr ← wordAt buffer offset 0
  some ((typedPtr &&& ptrMask) >>> ptrShiftValue)

/-- `coldtrace_entry_parse_alloc_index`. -/
def entryParseAllocIndex (buffer : List UInt8) (offset : Nat) : Option UInt64 := do
  let type ← entryParseType buffer offset
  if type = EntryType.alloc.code ∨ type = EntryType.mmap.code ∨ type = EntryType.munmap.code then
    wordAt buffer offset 2
  else if type = EntryType.free.code then wordAt buffer offset 1
  else some invalid

/-- `coldtrace_entry_parse_atomic_index`. -/
def entryParseAtomicIndex (buffer : List UInt8) (offset : Nat) : Option UInt64 := do
  let type ← entryParseType buffer offset
  if type ≥ EntryType.mmap.code ∨ type < EntryType.atomicRead.code then some invalid
  else if type = EntryType.atomicRead.code ∨ type = EntryType.atomicWrite.code then
    wordAt buffer offset 2
  else wordAt buffer offset 1

/-- `coldtrace_entry_parse_size`. -/
def entryParseSize (buffer : List UInt8) (offset : Nat) : Option UInt64 := do
  let type ← entryParseType buffer offset
  if type = EntryType.alloc.code ∨ type = EntryType.read.code ∨ type = EntryType.write.code ∨
      type = EntryType.mmap.code ∨ type = EntryType.atomicRead.code ∨
      type = EntryType.atomicWrite.code ∨ type = EntryType.munmap.code then
    wordAt buffer offset 1
  else some invalid

/-- The size of the frames of the stack diff at an offset.  The subtraction is
one of 32-bit words. -/
def framesSizeAt (buffer : List UInt8) (offset : Nat) : Option UInt64 :=
  match unpackFrom [4, 4] buffer offset with
  | some [popped, depth] => some ((UInt32.ofNat depth - UInt32.ofNat popped).toUInt64 * 8)
  | _ => none

/-- `coldtrace_entry_get_size`, with the offsets of `stack` in the structures. -/
def entryGetSize (buffer : List UInt8) (offset : Nat) : Option UInt64 := do
  let type ← entryParseType buffer offset
  match entryType? type with
  | some .free => (framesSizeAt buffer (offset + 24)).map (UInt64.ofNat sizeofFreeEntry + ·)
  | some .alloc | some .mmap | some .munmap =>
      (framesSizeAt buffer (offset + 32)).map (UInt64.ofNat sizeofAllocEntry + ·)
  | some .read | some .write =>
      (framesSizeAt buffer (offset + 24)).map (UInt64.ofNat sizeofAccessEntry + ·)
  | some .threadStart => some (UInt64.ofNat sizeofThreadInitEntry)
  | some .atomicRead | some .atomicWrite => some (UInt64.ofNat sizeofAtomicAccessEntry)
  | some .testMarker => some (UInt64.ofNat sizeofMarkerEntry)
  | some _ => some (UInt64.ofNat sizeofAtomicEntry)
  | none => some 0

/-! ## The iterator of the checker -/

/-- `struct entry_it`, with an offset for the pointer. -/
structure EntryIt where
  offset : Nat
  size : UInt64
deriving DecidableEq, Repr

/-- `iter_init`. -/
def iterInit (size : UInt64) : EntryIt :=
  ⟨sizeofVersionHeader, size - UInt64.ofNat sizeofVersionHeader⟩

/-- `iter_next`. -/
def iterNext (buffer : List UInt8) (it : EntryIt) : Option Bool :=
  if it.size < 8 then some false
  else do
    let size ← entryGetSize buffer it.offset
    some (decide (size > 0))

/-- `iter_advance`. -/
def iterAdvance (buffer : List UInt8) (it : EntryIt) : Option EntryIt :=
  if it.size < 8 then some it
  else do
    let size ← entryGetSize buffer it.offset
    if size = 0 then some it else some ⟨it.offset + size.toNat, it.size - size⟩

/-- The loop `for (; iter_next(it); iter_advance(&it))`: the offsets it visits
and the iterator it ends with, `none` without enough fuel. -/
def walk (buffer : List UInt8) : Nat → EntryIt → Option (List Nat × EntryIt)
  | 0, _ => none
  | fuel + 1, it => do
      let next ← iterNext buffer it
      if next then
        let it' ← iterAdvance buffer it
        let (offsets, last) ← walk buffer fuel it'
        some (it.offset :: offsets, last)
      else some ([], it)

/-! ## Words of a record -/

theorem wordAt_of_words {buffer rest : List UInt8} : ∀ {vs : List Nat} {offset k v : Nat},
    buffer.drop offset = words 8 vs ++ rest → (∀ v ∈ vs, v < 256 ^ 8) → vs[k]? = some v →
    wordAt buffer offset k = some (UInt64.ofNat v)
  | v :: vs, offset, 0, _, h, hv, rfl => by
      have hdrop : buffer.drop (offset + 8 * 0) = pack [8] [v] ++ (words 8 vs ++ rest) := by
        rw [Nat.mul_zero, Nat.add_zero, h]
        simp [pack]
      have hfit : Fits [8] [v] := ⟨hv v List.mem_cons_self, trivial⟩
      have ho : offset + 8 * 0 ≤ buffer.length := by
        have hlen := congrArg List.length hdrop
        rw [List.length_drop, List.length_append, length_pack hfit] at hlen
        simp only [List.sum_cons, List.sum_nil] at hlen
        omega
      rw [wordAt, unpackFrom_of_drop hdrop hfit ho]
  | v :: vs, offset, k + 1, w, h, hv, hk => by
      have hnext : buffer.drop (offset + 8) = words 8 vs ++ rest := by
        rw [← List.drop_drop, h, words_cons, List.append_assoc]
        exact List.drop_left' (length_le 8 v)
      have hrec := wordAt_of_words hnext (fun w hw => hv w (List.mem_cons_of_mem _ hw)) hk
      rw [wordAt, show offset + 8 * (k + 1) = offset + 8 + 8 * k by omega]
      exact hrec

section

variable {buffer rest : List UInt8} {offset : Nat} {r : Record}

theorem wordAt_zero_of_record (h : buffer.drop offset = r.bytes ++ rest) :
    wordAt buffer offset 0 = some (UInt64.ofNat r.typedPointer) := by
  have hwords : buffer.drop offset = words 8 [r.typedPointer] ++
      (words 8 r.fields ++ r.stackBytes ++ rest) := by
    rw [h, Record.bytes]
    simp
  exact wordAt_of_words hwords (by simpa using r.typedPointer_lt) rfl

theorem wordAt_succ_of_record (h : buffer.drop offset = r.bytes ++ rest) {k v : Nat}
    (hk : r.fields[k]? = some v) : wordAt buffer offset (k + 1) = some (UInt64.ofNat v) := by
  have hwords : buffer.drop offset =
      words 8 (r.typedPointer :: r.fields) ++ (r.stackBytes ++ rest) := by
    rw [h, Record.bytes]
    simp
  exact wordAt_of_words hwords (List.forall_mem_cons.mpr ⟨r.typedPointer_lt, r.fields_lt⟩) hk

theorem byte_mask (t : EntryType) (zero : Bool) :
    (t.byte zero).toNat &&& 0xFFFFFFFFFFFFFF7F = t.code.toNat := by
  cases t <;> cases zero <;> rfl

theorem isTypeValid_code (t : EntryType) : isTypeValid t.code = true := by
  cases t <;> rfl

theorem entryType?_code (t : EntryType) : entryType? t.code = some t := by
  cases t <;> rfl

theorem Record.toNat_typedPointer (r : Record) :
    (UInt64.ofNat r.typedPointer).toNat = r.typedPointer :=
  UInt64.toNat_ofNat_of_lt' r.typedPointer_lt

theorem entryParseType_of_record (h : buffer.drop offset = r.bytes ++ rest) :
    entryParseType buffer offset = some r.type.code := by
  have hmask : (UInt64.ofNat r.typedPointer &&& typeMask &&& ~~~zeroFlag.toUInt64).toUInt8 =
      r.type.code := by
    apply UInt8.toNat_inj.mp
    have hlt : r.type.code.toNat < 2 ^ 8 := r.type.code.toNat_lt
    rw [UInt64.toNat_toUInt8, UInt64.toNat_and, UInt64.toNat_and, r.toNat_typedPointer]
    change ((r.typedPointer &&& 0xFF) &&& 0xFFFFFFFFFFFFFF7F) % 2 ^ 8 = _
    rw [r.typedPointer_low, byte_mask, Nat.mod_eq_of_lt hlt]
  simp only [entryParseType, wordAt_zero_of_record h, Option.bind_eq_bind, Option.bind_some, hmask,
    isTypeValid_code, if_true]

theorem entryParsePtr_of_record (h : buffer.drop offset = r.bytes ++ rest) :
    (entryParsePtr buffer offset).map UInt64.toNat = some r.pointer := by
  rw [entryParsePtr, wordAt_zero_of_record h]
  show some ((UInt64.ofNat r.typedPointer &&& ptrMask) >>> ptrShiftValue).toNat = _
  have h₁ : (r.type.byte r.zeroFlag).toNat < 256 := UInt8.toNat_lt _
  have h₂ : r.padding.toNat < 256 := r.padding.toNat_lt
  have h₃ := r.pointer_lt
  have hhigh := r.typedPointer_high
  rw [UInt64.toNat_shiftRight, UInt64.toNat_and, r.toNat_typedPointer]
  congr 1
  change (r.typedPointer &&& 0xFFFFFFFFFFFF0000) >>> 16 = _
  rw [Nat.shiftRight_and_distrib]
  exact hhigh

/-! ## Fields of a record -/

/-- Where a type has its size, among the words after the typed pointer. -/
def EntryType.sizeWord : EntryType → Option Nat
  | .alloc | .mmap | .munmap | .read | .write | .atomicRead | .atomicWrite => some 0
  | _ => none

/-- Where a type has its alloc index. -/
def EntryType.allocWord : EntryType → Option Nat
  | .free => some 0
  | .alloc | .mmap | .munmap => some 1
  | _ => none

/-- Where a type has its atomic index. -/
def EntryType.atomicWord : EntryType → Option Nat
  | .free | .alloc | .mmap | .munmap | .read | .write | .testMarker => none
  | .atomicRead | .atomicWrite => some 1
  | _ => some 0

/-- The word at a place among the fields, `INVALID` where the type has none. -/
def fieldAt (buffer : List UInt8) (offset : Nat) : Option Nat → Option UInt64
  | some k => wordAt buffer offset (k + 1)
  | none => some invalid

theorem entryParseSize_eq {t : EntryType} (h : entryParseType buffer offset = some t.code) :
    entryParseSize buffer offset = fieldAt buffer offset t.sizeWord := by
  rw [entryParseSize, h]
  cases t <;> rfl

theorem entryParseAllocIndex_eq {t : EntryType} (h : entryParseType buffer offset = some t.code) :
    entryParseAllocIndex buffer offset = fieldAt buffer offset t.allocWord := by
  rw [entryParseAllocIndex, h]
  cases t <;> rfl

theorem entryParseAtomicIndex_eq {t : EntryType} (h : entryParseType buffer offset = some t.code) :
    entryParseAtomicIndex buffer offset = fieldAt buffer offset t.atomicWord := by
  rw [entryParseAtomicIndex, h]
  cases t <;> rfl

/-- What a reader reports in the three fields, by their places. -/
theorem Record.entry_fields (r : Record) (tid : Nat) (s : List Nat) :
    (r.entry tid s).size = r.type.sizeWord.bind (r.fields[·]?) ∧
      (r.entry tid s).allocIndex = r.type.allocWord.bind (r.fields[·]?) ∧
      (r.entry tid s).atomicIndex = r.type.atomicWord.bind (r.fields[·]?) := by
  have hlen := r.fields_length
  rw [Record.entry]
  generalize r.type = t at *
  generalize r.fields = fields at *
  cases t <;> rcases fields with _ | ⟨a, _ | ⟨b, _ | ⟨c, _ | ⟨d, fields⟩⟩⟩⟩ <;>
    first | (cases hlen; done) | exact ⟨rfl, rfl, rfl⟩

theorem Record.entry_header (r : Record) (tid : Nat) (s : List Nat) :
    (r.entry tid s).type = r.type ∧ (r.entry tid s).pointer = r.pointer := by
  have hlen := r.fields_length
  rw [Record.entry]
  generalize r.type = t at *
  generalize r.fields = fields at *
  cases t <;> rcases fields with _ | ⟨a, _ | ⟨b, _ | ⟨c, _ | ⟨d, fields⟩⟩⟩⟩ <;>
    first | (cases hlen; done) | exact ⟨rfl, rfl⟩

/-- A field of a record through an accessor and through the reader. -/
theorem fieldAt_of_record (h : buffer.drop offset = r.bytes ++ rest) (place : Option Nat)
    (hplace : ∀ k, place = some k → k < r.type.arity) :
    (fieldAt buffer offset place).map UInt64.toNat =
      some ((place.bind (r.fields[·]?)).getD invalid.toNat) := by
  cases place with
  | none => rfl
  | some k =>
      have hk : k < r.fields.length := by
        rw [r.fields_length]
        exact hplace k rfl
      have hv : r.fields[k]? = some r.fields[k] := List.getElem?_eq_getElem hk
      have hlt := r.fields_lt _ (List.getElem_mem hk)
      rw [fieldAt, wordAt_succ_of_record h hv, Option.map_some, UInt64.toNat_ofNat_of_lt' hlt]
      simp [hv]

/-! ## The size of a record -/

theorem framesSizeAt_of_record (h : buffer.drop offset = r.bytes ++ rest)
    (hs : r.type.hasStack = true) :
    (framesSizeAt buffer (offset + 8 * (r.type.arity + 1))).map UInt64.toNat =
      some (8 * (r.depth - r.popped)) := by
  have hle := r.popped_le
  have hlt := r.depth_lt
  have hfit : Fits [4, 4] [r.popped, r.depth] := by
    refine ⟨?_, ?_, trivial⟩ <;> omega
  have hdrop : buffer.drop (offset + 8 * (r.type.arity + 1)) =
      pack [4, 4] [r.popped, r.depth] ++ (words 8 r.diff ++ rest) := by
    rw [← List.drop_drop, h, Record.bytes, Record.stackBytes, if_pos hs]
    simp only [List.append_assoc]
    rw [← List.append_assoc]
    refine List.drop_left' ?_
    rw [List.length_append, length_le, length_words, r.fields_length]
    omega
  have ho : offset + 8 * (r.type.arity + 1) ≤ buffer.length := by
    have hlen := congrArg List.length hdrop
    rw [List.length_drop, List.length_append, length_pack hfit] at hlen
    simp only [List.sum_cons, List.sum_nil] at hlen
    omega
  have hsub : (UInt32.ofNat r.depth - UInt32.ofNat r.popped).toNat = r.depth - r.popped := by
    have hd : (UInt32.ofNat r.depth).toNat = r.depth := UInt32.toNat_ofNat_of_lt' hlt
    have hp : (UInt32.ofNat r.popped).toNat = r.popped :=
      UInt32.toNat_ofNat_of_lt' (Nat.lt_of_le_of_lt hle hlt)
    rw [UInt32.toNat_sub_of_le, hd, hp]
    rw [UInt32.le_iff_toNat_le, hd, hp]
    exact hle
  rw [framesSizeAt, unpackFrom_of_drop hdrop hfit ho]
  simp only [Option.map_some, UInt64.toNat_mul, UInt32.toNat_toUInt64, hsub, Option.some.injEq]
  change (r.depth - r.popped) * 8 % 2 ^ 64 = _
  omega

/-- The switch of `coldtrace_entry_get_size` on a type: the fixed part, and for
the types with a stack the frames of the diff that ends it. -/
theorem entryGetSize_eq {t : EntryType} (h : entryParseType buffer offset = some t.code) :
    entryGetSize buffer offset =
      if t.hasStack then
        (framesSizeAt buffer (offset + 8 * (t.arity + 1))).map (UInt64.ofNat t.space + ·)
      else some (UInt64.ofNat t.space) := by
  simp only [entryGetSize, h, Option.bind_eq_bind, Option.bind_some, entryType?_code]
  cases t <;> rfl

theorem entryGetSize_of_record (h : buffer.drop offset = r.bytes ++ rest) :
    (entryGetSize buffer offset).map UInt64.toNat = some r.bytes.length := by
  have hlen := r.length_bytes
  have hdiff := r.diff_length
  have hlt := r.depth_lt
  have hspace := r.type.space_bounds
  have hfixed : (UInt64.ofNat r.type.space).toNat = r.type.space :=
    UInt64.toNat_ofNat_of_lt' (Nat.lt_of_le_of_lt hspace.2 (by decide))
  rw [entryGetSize_eq (entryParseType_of_record h)]
  split
  next hs =>
    obtain ⟨frames, hframes, hnat⟩ := Option.map_eq_some_iff.mp (framesSizeAt_of_record h hs)
    rw [hframes, Option.map_some, Option.map_some, UInt64.toNat_add, hfixed, hnat,
      Option.some.injEq]
    omega
  next hs =>
    have hnone := r.noStack (by simpa using hs)
    rw [Option.map_some, hfixed, Option.some.injEq]
    omega

/-! ## The walk -/

/-- One round of the loop at a record that fits in what is left. -/
theorem iterAdvance_of_record (size : UInt64) (h : buffer.drop offset = r.bytes ++ rest)
    (hsize : r.bytes.length ≤ size.toNat) :
    iterNext buffer ⟨offset, size⟩ = some true ∧
      ∃ size', iterAdvance buffer ⟨offset, size⟩ = some ⟨offset + r.bytes.length, size'⟩ ∧
        size'.toNat = size.toNat - r.bytes.length := by
  have hmin := r.eight_le_length
  obtain ⟨n, hn, hnat⟩ := Option.map_eq_some_iff.mp (entryGetSize_of_record h)
  have hge : ¬ size < 8 := by
    rw [UInt64.lt_iff_toNat_lt]
    change ¬ size.toNat < 8
    omega
  have hpos : n > 0 := by
    rw [gt_iff_lt, UInt64.lt_iff_toNat_lt]
    change 0 < n.toNat
    omega
  have hne : ¬ n = 0 := by
    rintro rfl
    exact absurd hpos (by decide)
  constructor
  · simp only [iterNext, hge, if_false, hn, Option.bind_eq_bind, Option.bind_some, hpos,
      decide_true]
  · refine ⟨size - n, ?_, ?_⟩
    · simp only [iterAdvance, hge, if_false, hn, Option.bind_eq_bind, Option.bind_some, hne, hnat]
    · rw [UInt64.toNat_sub_of_le, hnat]
      rw [UInt64.le_iff_toNat_le, hnat]
      exact hsize

end

/-- The offsets of records that start at an offset. -/
def offsetsFrom : Nat → List Record → List Nat
  | _, [] => []
  | offset, r :: rs => offset :: offsetsFrom (offset + r.bytes.length) rs

theorem length_offsetsFrom (rs : List Record) : ∀ offset : Nat,
    (offsetsFrom offset rs).length = rs.length := by
  induction rs with
  | nil => intro offset; rfl
  | cons r rs ih => intro offset; rw [offsetsFrom, List.length_cons, List.length_cons, ih]

/-- The walk over records that fill the rest of the buffer. -/
theorem walk_of_records {buffer : List UInt8} (rs : List Record) : ∀ (fuel : Nat) {offset : Nat}
      {size : UInt64},
    buffer.drop offset = recordsBytes rs → size.toNat = (recordsBytes rs).length →
    rs.length < fuel →
    walk buffer fuel ⟨offset, size⟩ =
      some (offsetsFrom offset rs, ⟨offset + (recordsBytes rs).length, 0⟩) := by
  induction rs with
  | nil =>
      intro fuel offset size hdrop hsize hfuel
      obtain ⟨fuel, rfl⟩ : ∃ n, fuel = n + 1 := ⟨fuel - 1, by omega⟩
      have hzero : size = 0 := UInt64.toNat_inj.mp hsize
      subst hzero
      rfl
  | cons r rs ih =>
      intro fuel offset size hdrop hsize hfuel
      obtain ⟨fuel, rfl⟩ : ∃ n, fuel = n + 1 := ⟨fuel - 1, by omega⟩
      rw [recordsBytes_cons] at hdrop
      rw [recordsBytes_cons, List.length_append] at hsize
      rw [List.length_cons] at hfuel
      obtain ⟨hnext, size', hadv, hsize'⟩ := iterAdvance_of_record size hdrop (by omega)
      have hrest : buffer.drop (offset + r.bytes.length) = recordsBytes rs := by
        rw [← List.drop_drop, hdrop, List.drop_left]
      have hwalk := ih fuel hrest (show size'.toNat = _ by omega) (by omega)
      simp only [walk, hnext, hadv, hwalk, Option.bind_eq_bind, Option.bind_some, if_true,
        offsetsFrom, recordsBytes_cons, List.length_append, Nat.add_assoc]

/-! ## The offsets of the reader -/

/-- The loop of `_read_file` again, with the offset of each entry it yields. -/
def yields (tid : Nat) (buffer : List UInt8) : Nat → List Nat → Nat → List (Nat × TraceEntry)
  | 0, _, _ => []
  | fuel + 1, stack, offset =>
      if offset < buffer.length then
        match readOne tid buffer stack offset with
        | .ok (some y) => (offset, y.entry) :: yields tid buffer fuel y.stack y.offset
        | _ => []
      else []

theorem map_snd_yields (tid : Nat) (buffer : List UInt8) (fuel : Nat) :
    ∀ (stack : List Nat) (offset : Nat), (yields tid buffer fuel stack offset).map Prod.snd =
      (readLoop tid buffer fuel stack offset).entries := by
  induction fuel with
  | zero => intro stack offset; rfl
  | succ fuel ih =>
      intro stack offset
      rw [yields, readLoop]
      split
      next =>
        split
        next y hy => rw [hy, List.map_cons, ih]
        next hno =>
          split
          next => rfl
          next => rfl
          next y hy => exact absurd hy (hno y)
      next => rfl

/-- The accessors of `entries.c` at an offset return what the reader reports. -/
structure Matches (buffer : List UInt8) (offset : Nat) (e : TraceEntry) : Prop where
  type : entryParseType buffer offset = some e.type.code
  pointer : (entryParsePtr buffer offset).map UInt64.toNat = some e.pointer
  size : (entryParseSize buffer offset).map UInt64.toNat = some (e.size.getD invalid.toNat)
  allocIndex : (entryParseAllocIndex buffer offset).map UInt64.toNat =
    some (e.allocIndex.getD invalid.toNat)
  atomicIndex : (entryParseAtomicIndex buffer offset).map UInt64.toNat =
    some (e.atomicIndex.getD invalid.toNat)
  /-- The record that starts there has the size of its fixed part and its diff. -/
  getSize : ∃ (r : Record) (rest : List UInt8), buffer.drop offset = r.bytes ++ rest ∧
    r.type = e.type ∧ (entryGetSize buffer offset).map UInt64.toNat =
      some (entryFixedSize e.type.code +
        if withStack e.type.code then 8 * (r.depth - r.popped) else 0)

theorem EntryType.word_lt (t : EntryType) :
    (∀ k, t.sizeWord = some k → k < t.arity) ∧ (∀ k, t.allocWord = some k → k < t.arity) ∧
      ∀ k, t.atomicWord = some k → k < t.arity := by
  cases t <;> simp [EntryType.sizeWord, EntryType.allocWord, EntryType.atomicWord, EntryType.arity]

theorem matches_of_record {buffer rest : List UInt8} {offset : Nat} {r : Record}
    (h : buffer.drop offset = r.bytes ++ rest) (tid : Nat) (s : List Nat) :
    Matches buffer offset (r.entry tid s) := by
  have htype := entryParseType_of_record h
  obtain ⟨hsize, halloc, hatomic⟩ := r.entry_fields tid s
  obtain ⟨het, hep⟩ := r.entry_header tid s
  obtain ⟨hks, hka, hkt⟩ := r.type.word_lt
  refine ⟨?_, ?_, ?_, ?_, ?_, r, rest, h, het.symm, ?_⟩
  · rw [htype, het]
  · rw [entryParsePtr_of_record h, hep]
  · rw [entryParseSize_eq htype, fieldAt_of_record h _ hks, hsize]
  · rw [entryParseAllocIndex_eq htype, fieldAt_of_record h _ hka, halloc]
  · rw [entryParseAtomicIndex_eq htype, fieldAt_of_record h _ hkt, hatomic]
  · have hfixed : entryFixedSize r.type.code = r.type.space := entryFixedSize_byte r.type false
    have hstack : withStack r.type.code = r.type.hasStack := withStack_byte r.type false
    have hdiff := r.diff_length
    rw [entryGetSize_of_record h, het, hfixed, hstack, r.length_bytes, Option.some.injEq]
    split
    next => omega
    next hs =>
      have hnone := r.noStack (by simpa using hs)
      omega

/-- The offsets and entries of the reader over records that apply. -/
theorem yields_of_chain (tid : Nat) {buffer : List UInt8} {s s' : List Nat} {rs : List Record}
    (h : Chain s rs s') : ∀ (fuel : Nat) {offset : Nat}, (∀ r ∈ rs, ¬ r.ZeroFree) →
      buffer.drop offset = recordsBytes rs → rs.length < fuel →
      (yields tid buffer fuel s offset).map Prod.fst = offsetsFrom offset rs ∧
        ∀ p ∈ yields tid buffer fuel s offset, Matches buffer p.1 p.2 := by
  induction h with
  | @nil s =>
      intro fuel offset _ hdrop hfuel
      obtain ⟨fuel, rfl⟩ : ∃ n, fuel = n + 1 := ⟨fuel - 1, by omega⟩
      have hend : ¬ offset < buffer.length := by
        have hlen := congrArg List.length hdrop
        rw [List.length_drop, recordsBytes_nil, List.length_nil] at hlen
        omega
      rw [yields, if_neg hend]
      exact ⟨rfl, fun p hp => nomatch hp⟩
  | @cons s s₁ s' r rs happ hchain ih =>
      intro fuel offset hz hdrop hfuel
      obtain ⟨fuel, rfl⟩ : ∃ n, fuel = n + 1 := ⟨fuel - 1, by omega⟩
      rw [List.forall_mem_cons] at hz
      rw [recordsBytes_cons] at hdrop
      rw [List.length_cons] at hfuel
      have hrest : buffer.drop (offset + r.bytes.length) = recordsBytes rs := by
        rw [← List.drop_drop, hdrop, List.drop_left]
      have hlt : offset < buffer.length := by
        have hlen := congrArg List.length hdrop
        have hr := r.eight_le_length
        rw [List.length_drop, List.length_append] at hlen
        omega
      obtain ⟨hoffsets, hmatches⟩ := ih fuel hz.2 hrest (by omega)
      rw [yields, if_pos hlt, readOne_of_record hdrop happ hz.1]
      refine ⟨?_, List.forall_mem_cons.mpr ⟨matches_of_record hdrop tid s₁, hmatches⟩⟩
      rw [List.map_cons, hoffsets]
      rfl

/-! ## Agreement -/

/-- On a fragment that the reader decodes to its last byte, the walk visits the
offsets of the reader in their order and ends at the end of the buffer, and at
each of them the accessors return what the reader reports. -/
theorem walker_agrees (tid : Nat) (s : List Nat) (buffer : List UInt8) (size : UInt64)
    (hsize : size.toNat = buffer.length)
    (hfin : ∃ s', (readBuffer tid s buffer).outcome = .finished s')
    (hend : (readBuffer tid s buffer).offset = buffer.length) :
    let visits := yields tid buffer (buffer.length + 1) s sizeofVersionHeader
    visits.map Prod.snd = (readBuffer tid s buffer).entries ∧
      (∀ fuel, visits.length < fuel →
        walk buffer fuel (iterInit size) = some (visits.map Prod.fst, ⟨buffer.length, 0⟩)) ∧
      ∀ p ∈ visits, Matches buffer p.1 p.2 := by
  obtain ⟨s', hfin⟩ := hfin
  obtain ⟨rs, hchain, hz, -, hdrop, -⟩ := chain_of_readBuffer hfin
  rw [hend, List.drop_length, List.append_nil] at hdrop
  have hread := readBuffer_of_chain tid hchain hz (hdrop.trans (List.append_nil _).symm) (by simp)
  have hlen : sizeofVersionHeader + (recordsBytes rs).length = buffer.length := by
    rw [← hend, hread]
  have hrs := length_le_recordsBytes rs
  obtain ⟨hoffsets, hmatches⟩ := yields_of_chain tid hchain (buffer.length + 1) hz hdrop (by omega)
  refine ⟨map_snd_yields tid buffer _ s _, fun fuel hfuel => ?_, hmatches⟩
  have hcount : rs.length < fuel := by
    rw [← List.length_map Prod.fst, hoffsets, length_offsetsFrom] at hfuel
    exact hfuel
  have hleft : (size - UInt64.ofNat sizeofVersionHeader).toNat = (recordsBytes rs).length := by
    rw [UInt64.toNat_sub_of_le, hsize, ← hlen]
    · exact Nat.add_sub_cancel_left ..
    · rw [UInt64.le_iff_toNat_le, hsize, ← hlen]
      exact Nat.le_add_right ..
  rw [hoffsets, iterInit, walk_of_records rs fuel hdrop hleft hcount, hlen]

/-- A page with a marker and a write of one frame. -/
def writePage : List UInt8 := words 8 [0, 24, 3, 4, 7, 2 ^ 32, 9]

theorem walker_agrees_write :
    (readBuffer 1 [] writePage).outcome = .finished [9] ∧
      walk writePage 3 (iterInit 56) = some ([8, 16], ⟨56, 0⟩) := by
  have h := walker_agrees 1 [] writePage 56 (by decide) ⟨[9], by decide⟩ (by decide)
  have hvisits : (yields 1 writePage (writePage.length + 1) [] sizeofVersionHeader).map Prod.fst =
      [8, 16] := by decide
  refine ⟨by decide, ?_⟩
  rw [h.2.1 3 (by decide), hvisits]
  rfl

end Coldtrace
