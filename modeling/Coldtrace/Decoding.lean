import Mathlib.Data.List.Basic
import Mathlib.Tactic.Common
import Coldtrace.Lib.Bytes
import Coldtrace.Records

/-!
# Decoding one record

The body of the reader's loop against the records of the format.  Each part of
it has two lemmas.  One runs the reader on the bytes of a record that applies
to its stack.  The other takes a successful read apart and finds the record.

The two directions meet in `readOne_of_record` and `record_of_readOne`: reading
at an offset yields an entry exactly when a record that applies starts there
and is not an all-zero FREE record.
-/

namespace Coldtrace

open Bytes

/-! ## Fields -/

theorem readFields_of_drop {layout vs : List Nat} {d : String} {buffer rest : List UInt8}
    {offset : Nat} (h : buffer.drop offset = pack layout vs ++ rest) (hv : Fits layout vs)
    (ho : offset ≤ buffer.length) :
    readFields layout d buffer offset = .ok (vs, offset + layout.sum) := by
  have hlen : (buffer.drop offset).length = layout.sum + rest.length := by
    rw [h, List.length_append, length_pack hv]
  rw [List.length_drop] at hlen
  rw [readFields, if_neg (by omega), unpackFrom_of_drop h hv ho]

theorem readFields_ok {layout vs : List Nat} {d : String} {buffer : List UInt8} {offset fin : Nat}
    (h : readFields layout d buffer offset = .ok (vs, fin)) :
    fin = offset + layout.sum ∧ fin ≤ buffer.length ∧ Fits layout vs ∧
      buffer.drop offset = pack layout vs ++ buffer.drop fin := by
  simp only [readFields] at h
  split at h
  next => cases h
  next =>
    split at h
    next => cases h
    next fields hf =>
      obtain ⟨hle, hfit, hdrop⟩ := unpackFrom_eq_some hf
      cases h
      exact ⟨rfl, hle, hfit, hdrop⟩

/-! ## The stack -/

theorem readAddresses_of_drop {buffer rest : List UInt8} : ∀ {diff : List Nat} {offset : Nat},
    buffer.drop offset = words 8 diff ++ rest → (∀ v ∈ diff, v < 256 ^ 8) →
    readAddresses buffer diff.length offset = some diff
  | [], _, _, _ => rfl
  | v :: diff, offset, h, hv => by
      have hpack : buffer.drop offset = pack entryHeaderLayout [v] ++ (words 8 diff ++ rest) := by
        rw [h]
        simp [pack, entryHeaderLayout]
      have ho : offset ≤ buffer.length := by
        by_contra hlt
        rw [List.drop_eq_nil_of_le (by omega)] at hpack
        have hlen := congrArg List.length hpack
        simp only [pack, entryHeaderLayout, List.length_nil, List.length_append, length_le] at hlen
        omega
      have hfit : Fits entryHeaderLayout [v] := ⟨hv v List.mem_cons_self, trivial⟩
      have hnext : buffer.drop (offset + 8) = words 8 diff ++ rest := by
        rw [← List.drop_drop, hpack]
        exact List.drop_left' (length_pack hfit)
      rw [List.length_cons, readAddresses, unpackFrom_of_drop hpack hfit ho]
      simp only
      rw [readAddresses_of_drop hnext (fun w hw => hv w (List.mem_cons_of_mem _ hw)),
        Option.map_some]

theorem readAddresses_eq_some {buffer : List UInt8} : ∀ {n : Nat} {offset : Nat} {diff : List Nat},
    readAddresses buffer n offset = some diff →
    diff.length = n ∧ (∀ v ∈ diff, v < 256 ^ 8) ∧
      buffer.drop offset = words 8 diff ++ buffer.drop (offset + 8 * n)
  | 0, _, _, h => by
      cases h
      simp
  | n + 1, offset, diff, h => by
      rw [readAddresses] at h
      split at h
      next address ha =>
        obtain ⟨-, hfit, hdrop⟩ := unpackFrom_eq_some ha
        obtain ⟨diff', hd', rfl⟩ := Option.map_eq_some_iff.mp h
        obtain ⟨hlen, hlt, hrest⟩ := readAddresses_eq_some hd'
        refine ⟨by rw [List.length_cons, hlen], ?_, ?_⟩
        · intro v hv
          rcases List.mem_cons.mp hv with rfl | hv'
          · exact hfit.1
          · exact hlt v hv'
        · have hnext : buffer.drop (offset + entryHeaderLayout.sum) =
              buffer.drop (offset + 8) := rfl
          rw [hdrop, hnext, hrest, show offset + 8 * (n + 1) = offset + 8 + 8 * n by omega]
          simp [pack, entryHeaderLayout]
      next => cases h

/-- The second caller as the reader computes it. -/
theorem secondCaller_eq {stack : List Nat} (h : 2 ≤ stack.length) :
    (stack[stack.length - 2]?).getD 0 = secondCaller stack := by
  rw [secondCaller, List.getLast?_eq_getElem?, List.length_dropLast, List.getElem?_dropLast,
    if_pos (by omega)]
  rfl

theorem secondCaller_of_short {stack : List Nat} (h : stack.length < 2) :
    secondCaller stack = 0 := by
  have hnil : stack.dropLast.length = 0 := by
    rw [List.length_dropLast]
    omega
  rw [secondCaller, List.eq_nil_of_length_eq_zero hnil]
  rfl

/-- The reader on a stack diff that applies. -/
theorem readStack_of_drop {buffer rest : List UInt8} {stack diff : List Nat}
    {entryOffset offset popped depth : Nat} (h : buffer.drop offset = words 8 diff ++ rest)
    (ho : offset ≤ buffer.length) (hlen : popped + diff.length = depth)
    (hs : popped ≤ stack.length) (hd : ∀ v ∈ diff, v < 256 ^ 8) :
    readStack buffer stack entryOffset offset popped depth =
      .ok ⟨(stack.take popped ++ diff).length, topCaller (stack.take popped ++ diff),
        secondCaller (stack.take popped ++ diff), offset + 8 * diff.length,
        stack.take popped ++ diff⟩ := by
  have hbuf : (buffer.drop offset).length = 8 * diff.length + rest.length := by
    rw [h, List.length_append, length_words]
  rw [List.length_drop] at hbuf
  have hadded : depth - popped = diff.length := by omega
  have hstack : (stack.take popped ++ diff).length = depth := by
    rw [List.length_append, List.length_take]
    omega
  simp only [readStack]
  rw [if_neg (by omega), if_neg (by omega), hadded, if_neg (by omega), readAddresses_of_drop h hd]
  simp only
  have hfin : offset + diff.length * 8 = offset + 8 * diff.length := by omega
  by_cases htwo : depth ≥ 2
  · rw [if_pos htwo, if_neg (by omega), secondCaller_eq (by omega), hfin, hstack]
    rfl
  · rw [if_neg htwo, secondCaller_of_short (by omega), hfin, hstack]
    rfl

/-- A stack diff the reader accepts applies, and its frames are in the buffer. -/
theorem readStack_ok {buffer : List UInt8} {stack : List Nat}
    {entryOffset offset popped depth : Nat} {r : StackRead}
    (h : readStack buffer stack entryOffset offset popped depth = .ok r) :
    ∃ diff : List Nat, popped + diff.length = depth ∧ popped ≤ stack.length ∧
      (∀ v ∈ diff, v < 256 ^ 8) ∧ r.offset = offset + 8 * diff.length ∧ r.offset ≤ buffer.length ∧
      r.stack = stack.take popped ++ diff ∧ r.depth = r.stack.length ∧
      r.caller1 = topCaller r.stack ∧ r.caller2 = secondCaller r.stack ∧
      buffer.drop offset = words 8 diff ++ buffer.drop r.offset := by
  simp only [readStack] at h
  split at h
  next => cases h
  next hdepth =>
    split at h
    next => cases h
    next hpop =>
      split at h
      next => cases h
      next hfit =>
        split at h
        next => cases h
        next diff hd =>
          obtain ⟨hlen, hlt, hdrop⟩ := readAddresses_eq_some hd
          have hstack : (stack.take popped ++ diff).length = depth := by
            rw [List.length_append, List.length_take]
            omega
          have hfin : offset + (depth - popped) * 8 = offset + 8 * diff.length := by omega
          have hdrop' : buffer.drop offset =
              words 8 diff ++ buffer.drop (offset + 8 * diff.length) := by
            rw [hdrop, hlen]
          split at h
          next htwo =>
            split at h
            next => cases h
            next =>
              cases h
              dsimp only
              rw [hfin]
              exact ⟨diff, by omega, by omega, hlt, rfl, by omega, rfl, hstack.symm, rfl,
                secondCaller_eq (by omega), hdrop'⟩
          next htwo =>
            cases h
            dsimp only
            rw [hfin]
            exact ⟨diff, by omega, by omega, hlt, rfl, by omega, rfl, hstack.symm, rfl,
              (secondCaller_of_short (by omega)).symm, hdrop'⟩

/-! ## The fields of a record -/

/-- The layout of what follows the typed pointer of a record. -/
def EntryType.layout (t : EntryType) : List Nat :=
  List.replicate t.arity 8 ++ if t.hasStack then [4, 4] else []

/-- The numbers that follow the typed pointer of a record, before its frames. -/
def Record.numbers (r : Record) : List Nat :=
  r.fields ++ if r.type.hasStack then [r.popped, r.depth] else []

theorem Record.fits_numbers (r : Record) : Fits r.type.layout r.numbers := by
  have hp := r.popped_le
  have hd := r.depth_lt
  rw [EntryType.layout, Record.numbers, ← r.fields_length, fits_replicate_append]
  refine ⟨r.fields_lt, ?_⟩
  split
  next => exact ⟨by omega, by omega, trivial⟩
  next => trivial

theorem Record.diff_eq_nil (r : Record) (h : r.type.hasStack = false) : r.diff = [] := by
  have hd := r.noStack h
  have hl := r.diff_length
  exact List.eq_nil_of_length_eq_zero (by omega)

/-- What follows the typed pointer: the numbers and then the frames. -/
theorem Record.body_eq (r : Record) :
    words 8 r.fields ++ r.stackBytes = pack r.type.layout r.numbers ++ words 8 r.diff := by
  rw [EntryType.layout, Record.numbers, Record.stackBytes, ← r.fields_length,
    pack_replicate_append]
  by_cases h : r.type.hasStack = true
  · rw [if_pos h, if_pos h, if_pos h, List.append_assoc]
  · rw [if_neg h, if_neg h, if_neg h, r.diff_eq_nil (by simpa using h)]
    simp [pack]

theorem Record.length_body (r : Record) :
    (words 8 r.fields ++ r.stackBytes).length = r.type.layout.sum + 8 * r.diff.length := by
  rw [r.body_eq, List.length_append, length_pack r.fits_numbers, length_words]

section

variable {tid : Nat} {buffer rest : List UInt8} {stack stack' : List Nat} {r : Record}
  {entryOffset offset : Nat} {d : String}

/-- The reader on the numbers of a record. -/
theorem readFields_of_record
    (h : buffer.drop offset = words 8 r.fields ++ r.stackBytes ++ rest)
    (ho : offset ≤ buffer.length) :
    readFields r.type.layout d buffer offset = .ok (r.numbers, offset + r.type.layout.sum) := by
  rw [r.body_eq, List.append_assoc] at h
  exact readFields_of_drop h r.fits_numbers ho

/-- The reader on the frames of a record that applies. -/
theorem readStack_of_record (entryOffset : Nat)
    (h : buffer.drop offset = words 8 r.fields ++ r.stackBytes ++ rest)
    (ho : offset ≤ buffer.length) (hs : r.type.hasStack = true)
    (happ : r.apply stack = some stack') :
    readStack buffer stack entryOffset (offset + r.type.layout.sum) r.popped r.depth =
      .ok ⟨stack'.length, topCaller stack', secondCaller stack',
        offset + (words 8 r.fields ++ r.stackBytes).length, stack'⟩ := by
  have hbody : buffer.drop offset = pack r.type.layout r.numbers ++ (words 8 r.diff ++ rest) := by
    rw [h, r.body_eq, List.append_assoc]
  have hlen : (buffer.drop offset).length =
      r.type.layout.sum + (words 8 r.diff ++ rest).length := by
    rw [hbody, List.length_append, length_pack r.fits_numbers]
  rw [List.length_drop] at hlen
  have hdrop : buffer.drop (offset + r.type.layout.sum) = words 8 r.diff ++ rest := by
    rw [← List.drop_drop, hbody]
    exact List.drop_left' (length_pack r.fits_numbers)
  rw [Record.apply, if_pos hs] at happ
  split at happ
  next hpop =>
    cases happ
    rw [readStack_of_drop hdrop (by omega) r.diff_length hpop r.diff_lt, r.length_body,
      Nat.add_assoc]
  next => cases happ

/-- A FREE record whose typed pointer and fields are zero has only zero bytes. -/
theorem Record.zeroFree_of_numbers (ht : r.type = .free) (hp : r.typedPointer = 0)
    (hn : ∀ v ∈ r.numbers, v = 0) : r.ZeroFree := by
  have hdepth : r.depth = 0 := hn _ (by simp [Record.numbers, ht, EntryType.hasStack])
  have hdiff : r.diff = [] := by
    have := r.diff_length
    exact List.eq_nil_of_length_eq_zero (by omega)
  refine ⟨ht, ?_⟩
  rw [Record.bytes, List.append_assoc, r.body_eq, hdiff, words_nil, List.append_nil,
    List.forall_mem_append]
  exact ⟨(le_eq_zero r.typedPointer_lt).mpr hp, (pack_eq_zero r.fits_numbers).mpr hn⟩

/-! ## Running the reader on a record -/

/-- The bytes a FREE record is recognised as the tail by are the numbers of it. -/
theorem take_numbers (h : buffer.drop offset = words 8 r.fields ++ r.stackBytes ++ rest) 
    (ht : r.type.layout.sum = freeFields.sum) :
    (buffer.drop offset).take (min (offset + freeFields.sum) buffer.length - offset) =
      pack r.type.layout r.numbers := by
  have hbody : buffer.drop offset = pack r.type.layout r.numbers ++ (words 8 r.diff ++ rest) := by
    rw [h, r.body_eq, List.append_assoc]
  have hp := length_pack r.fits_numbers
  have hlen : (buffer.drop offset).length =
      r.type.layout.sum + (words 8 r.diff ++ rest).length := by
    rw [hbody, List.length_append, hp]
  rw [List.length_drop] at hlen
  rw [hbody]
  exact List.take_left' (by omega)

theorem readFree_of_record (ht : r.type = .free)
    (h : buffer.drop offset = words 8 r.fields ++ r.stackBytes ++ rest)
    (ho : offset ≤ buffer.length) (happ : r.apply stack = some stack') (hz : ¬ r.ZeroFree) :
    readFree tid buffer stack entryOffset offset r.typedPointer r.pointer r.zeroFlag =
      .ok (some ⟨r.entry tid stack', offset + (words 8 r.fields ++ r.stackBytes).length,
        stack'⟩) := by
  have hlayout : r.type.layout = freeFields := by rw [ht]; rfl
  have hs : r.type.hasStack = true := by rw [ht]; rfl
  obtain ⟨a, b, hf⟩ :=
    List.length_eq_two.mp (show r.fields.length = 2 by rw [r.fields_length, ht]; rfl)
  have hnum : r.numbers = [a, b, r.popped, r.depth] := by rw [Record.numbers, hf, if_pos hs]; rfl
  have hfields := readFields_of_record (d := "free entry fields") h ho
  have hstack := readStack_of_record entryOffset h ho hs happ
  rw [hlayout] at hfields hstack
  rw [readFree, take_numbers h (by rw [hlayout]), if_neg]
  · rw [hfields, hnum]
    simp only [hstack]
    rw [Record.entry, ht, hf]
    rfl
  · rintro ⟨htp, hall⟩
    refine hz (Record.zeroFree_of_numbers ht htp ((pack_eq_zero r.fits_numbers).mp ?_))
    simpa using hall

theorem readAccess_of_record (tid entryOffset : Nat) (ht : r.type = .read ∨ r.type = .write)
    (h : buffer.drop offset = words 8 r.fields ++ r.stackBytes ++ rest)
    (ho : offset ≤ buffer.length) (happ : r.apply stack = some stack') :
    readAccess tid buffer stack entryOffset offset r.type r.pointer r.zeroFlag =
      .ok ⟨r.entry tid stack', offset + (words 8 r.fields ++ r.stackBytes).length, stack'⟩ := by
  have hlayout : r.type.layout = accessFields := by rcases ht with ht | ht <;> rw [ht] <;> rfl
  have hs : r.type.hasStack = true := by rcases ht with ht | ht <;> rw [ht] <;> rfl
  have harity : r.type.arity = 2 := by rcases ht with ht | ht <;> rw [ht] <;> rfl
  obtain ⟨a, b, hf⟩ := List.length_eq_two.mp (r.fields_length.trans harity)
  have hnum : r.numbers = [a, b, r.popped, r.depth] := by rw [Record.numbers, hf, if_pos hs]; rfl
  have hfields := readFields_of_record (d := "access entry fields") h ho
  have hstack := readStack_of_record entryOffset h ho hs happ
  rw [hlayout] at hfields hstack
  rw [readAccess, hfields, hnum]
  simp only [hstack]
  rw [Record.entry, hf]
  rcases ht with ht | ht <;> rw [ht] <;> rfl

theorem readAlloc_of_record (tid entryOffset : Nat)
    (ht : r.type = .alloc ∨ r.type = .mmap ∨ r.type = .munmap)
    (h : buffer.drop offset = words 8 r.fields ++ r.stackBytes ++ rest)
    (ho : offset ≤ buffer.length) (happ : r.apply stack = some stack') :
    readAlloc tid buffer stack entryOffset offset r.type r.pointer r.zeroFlag =
      .ok ⟨r.entry tid stack', offset + (words 8 r.fields ++ r.stackBytes).length, stack'⟩ := by
  have hlayout : r.type.layout = allocFields := by rcases ht with ht | ht | ht <;> rw [ht] <;> rfl
  have hs : r.type.hasStack = true := by rcases ht with ht | ht | ht <;> rw [ht] <;> rfl
  have harity : r.type.arity = 3 := by rcases ht with ht | ht | ht <;> rw [ht] <;> rfl
  obtain ⟨a, b, c, hf⟩ := List.length_eq_three.mp (r.fields_length.trans harity)
  have hnum : r.numbers = [a, b, c, r.popped, r.depth] := by rw [Record.numbers, hf, if_pos hs]; rfl
  have hfields := readFields_of_record (d := "allocation entry fields") h ho
  have hstack := readStack_of_record entryOffset h ho hs happ
  rw [hlayout] at hfields hstack
  rw [readAlloc, hfields, hnum]
  simp only [hstack]
  rw [Record.entry, hf]
  rcases ht with ht | ht | ht <;> rw [ht] <;> rfl

theorem readEntry_of_record (h : buffer.drop offset = words 8 r.fields ++ r.stackBytes ++ rest)
    (ho : offset ≤ buffer.length) (happ : r.apply stack = some stack') (hz : ¬ r.ZeroFree) :
    readEntry tid buffer stack entryOffset offset r.typedPointer r.type r.pointer r.zeroFlag =
      .ok (some ⟨r.entry tid stack', offset + (words 8 r.fields ++ r.stackBytes).length,
        stack'⟩) := by
  have hread : ∀ d, readFields r.type.layout d buffer offset =
      .ok (r.numbers, offset + r.type.layout.sum) := fun _ => readFields_of_record h ho
  by_cases hs : r.type.hasStack = true
  · cases ht : r.type with
    | free => exact readFree_of_record ht h ho happ hz
    | read | write =>
        have hacc := readAccess_of_record tid entryOffset
          (by rw [ht]; simp) h ho happ
        rw [ht] at hacc
        rw [readEntry, hacc]
        rfl
    | alloc | mmap | munmap =>
        have hacc := readAlloc_of_record tid entryOffset
          (by rw [ht]; simp) h ho happ
        rw [ht] at hacc
        rw [readEntry, hacc]
        rfl
    | _ => exact absurd hs (by rw [ht]; decide)
  · have hdiff := r.diff_eq_nil (by simpa using hs)
    have hstack : stack' = stack := by
      rw [Record.apply, if_neg hs] at happ
      exact (Option.some.inj happ).symm
    have hnum : r.numbers = r.fields := by rw [Record.numbers, if_neg hs, List.append_nil]
    rw [r.length_body, hdiff, hstack, Record.entry, List.length_nil, Nat.mul_zero, Nat.add_zero]
    rw [hnum] at hread
    have hlen := r.fields_length
    cases ht : r.type with
    | free | read | write | alloc | mmap | munmap => exact absurd (by rw [ht]; rfl) hs
    | testMarker =>
        rw [ht] at hlen
        rw [List.eq_nil_of_length_eq_zero hlen]
        rfl
    | threadStart =>
        rw [ht] at hlen hread
        obtain ⟨a, b, c, hf⟩ := List.length_eq_three.mp hlen
        have hr : readFields threadStartFields "thread-start entry fields" buffer offset = _ :=
          hread _
        rw [readEntry, hr, hf]
        rfl
    | atomicRead | atomicWrite =>
        rw [ht] at hlen hread
        obtain ⟨a, b, hf⟩ := List.length_eq_two.mp hlen
        have hr : readFields atomicAccessFields "atomic-access entry fields" buffer offset = _ :=
          hread _
        rw [readEntry, hr, hf]
        rfl
    | _ =>
        rw [ht] at hlen hread
        obtain ⟨a, hf⟩ := List.length_eq_one_iff.mp hlen
        have hr : readFields atomicFields "atomic entry fields" buffer offset = _ := hread _
        rw [readEntry, hr, hf]
        · rfl
        all_goals exact fun h => EntryType.noConfusion h

theorem readOne_of_record (h : buffer.drop offset = r.bytes ++ rest)
    (happ : r.apply stack = some stack') (hz : ¬ r.ZeroFree) :
    readOne tid buffer stack offset =
      .ok (some ⟨r.entry tid stack', offset + r.bytes.length, stack'⟩) := by
  have hlen : (buffer.drop offset).length = r.bytes.length + rest.length := by
    rw [h, List.length_append]
  have hmin := r.eight_le_length
  rw [List.length_drop] at hlen
  have hhead : buffer.drop offset = pack entryHeaderLayout [r.typedPointer] ++
      (words 8 r.fields ++ r.stackBytes ++ rest) := by
    rw [h, Record.bytes]
    simp [pack, entryHeaderLayout]
  have hfit : Fits entryHeaderLayout [r.typedPointer] := ⟨r.typedPointer_lt, trivial⟩
  have hbody : buffer.drop (offset + 8) = words 8 r.fields ++ r.stackBytes ++ rest := by
    rw [← List.drop_drop, hhead]
    exact List.drop_left' (length_pack hfit)
  have hbytes : r.bytes.length = 8 + (words 8 r.fields ++ r.stackBytes).length := by
    rw [Record.bytes, List.append_assoc, List.length_append, length_le]
  simp only [readOne]
  rw [if_neg (by omega), unpackFrom_of_drop hhead hfit (by omega)]
  simp only [r.typedPointer_low, r.typedPointer_high, entryTypes_byte, flag_byte]
  rw [readEntry_of_record hbody (by omega) happ hz, hbytes, Nat.add_assoc]

/-! ## The tail -/

/-- The bytes a reader takes for a zero-filled tail at an offset: those of a
FREE record without frames, or what is left. -/
theorem readFree_eq_none {typedPointer pointer : Nat} {zeroFlag : Bool} :
    readFree tid buffer stack entryOffset offset typedPointer pointer zeroFlag = .ok none ↔
      typedPointer = 0 ∧ ∀ b ∈ (buffer.drop offset).take 24, b = 0 := by
  have htake : (buffer.drop offset).take (min (offset + freeFields.sum) buffer.length - offset) =
      (buffer.drop offset).take 24 := by
    have hsum : freeFields.sum = 24 := rfl
    rw [List.take_eq_take_iff, List.length_drop]
    omega
  rw [readFree, htake]
  constructor
  · intro h
    split at h
    next hz => simpa using hz
    next =>
      split at h
      next => cases h
      next =>
        split at h
        next => cases h
        next => cases h
      next => cases h
  · intro h
    rw [if_pos (by simpa using h)]

/-- Only the branch for FREE ends the entries. -/
theorem readEntry_eq_none {typedPointer pointer : Nat} {type : EntryType} {zeroFlag : Bool}
    (h : readEntry tid buffer stack entryOffset offset typedPointer type pointer zeroFlag =
      .ok none) :
    type = .free ∧ typedPointer = 0 ∧ ∀ b ∈ (buffer.drop offset).take 24, b = 0 := by
  cases type with
  | free => exact ⟨rfl, readFree_eq_none.mp h⟩
  | read | write =>
      rw [readEntry] at h
      cases hr : readAccess tid buffer stack entryOffset offset _ pointer zeroFlag <;>
        rw [hr] at h <;> cases h
  | alloc | mmap | munmap =>
      rw [readEntry] at h
      cases hr : readAlloc tid buffer stack entryOffset offset _ pointer zeroFlag <;>
        rw [hr] at h <;> cases h
  | testMarker => cases h
  | _ =>
      simp only [readEntry] at h
      split at h <;> cases h

/-- The entries end where the next 32 bytes, or those that are left, are
zero. -/
theorem readOne_eq_none :
    readOne tid buffer stack offset = .ok none ↔ ∀ b ∈ (buffer.drop offset).take 32, b = 0 := by
  simp only [readOne]
  split
  next hshort =>
    rw [List.take_of_length_le (by rw [List.length_drop]; omega)]
    split
    next hz => simpa using hz
    next hz =>
      simp only [reduceCtorEq, false_iff]
      simpa using hz
  next hlong =>
    have hunpack : unpackFrom entryHeaderLayout buffer offset =
        some [readLe ((buffer.drop offset).take 8)] := by
      rw [unpackFrom, if_pos (by simp only [entryHeaderLayout, List.sum_cons, List.sum_nil]; omega)]
      rfl
    have hsplit : (buffer.drop offset).take 32 =
        (buffer.drop offset).take 8 ++ (buffer.drop (offset + 8)).take 24 := by
      rw [← List.drop_drop, ← List.take_add]
    rw [hunpack, hsplit, List.forall_mem_append, ← readLe_eq_zero]
    simp only
    constructor
    · intro h
      split at h
      next => cases h
      next => exact (readEntry_eq_none h).2
    · rintro ⟨htp, hrest⟩
      rw [htp]
      exact readFree_eq_none.mpr ⟨rfl, hrest⟩

/-! ## Finding the record behind an entry -/

/-- An entry of the reader comes from a record whose fields and frames are at
an offset. -/
structure Reads (r : Record) (tid : Nat) (buffer : List UInt8) (stack : List Nat) (offset : Nat)
    (y : Yielded) : Prop where
  drop : buffer.drop offset = words 8 r.fields ++ r.stackBytes ++ buffer.drop y.offset
  le : y.offset ≤ buffer.length
  apply : r.apply stack = some y.stack
  entry : y.entry = r.entry tid y.stack

/-- A record with the typed pointer the reader decoded. -/
def Record.HasHeader (r : Record) (type : EntryType) (zeroFlag : Bool) (padding : UInt8)
    (pointer : Nat) : Prop :=
  r.type = type ∧ r.zeroFlag = zeroFlag ∧ r.padding = padding ∧ r.pointer = pointer

variable {type : EntryType} {zeroFlag : Bool} {padding : UInt8} {pointer popped depth fin : Nat}
  {fields : List Nat} {sr : StackRead} {y : Yielded}

/-- The record behind numbers and frames that follow each other in the buffer. -/
theorem record_of_numbers (zeroFlag : Bool) (padding : UInt8) {diff : List Nat} {fin' : Nat}
    (hp : pointer < 2 ^ 48) (hlen : fields.length = type.arity)
    (hno : type.hasStack = false → depth = 0)
    (hf : readFields type.layout d buffer offset =
      .ok (fields ++ if type.hasStack then [popped, depth] else [], fin))
    (hdiff : popped + diff.length = depth) (hlt : ∀ v ∈ diff, v < 256 ^ 8)
    (hdrop : buffer.drop fin = words 8 diff ++ buffer.drop fin') :
    ∃ r : Record, r.HasHeader type zeroFlag padding pointer ∧ r.fields = fields ∧
      r.popped = popped ∧ r.diff = diff ∧
      buffer.drop offset = words 8 r.fields ++ r.stackBytes ++ buffer.drop fin' := by
  obtain ⟨-, -, hfit, hbuf⟩ := readFields_ok hf
  have hparts := hfit
  rw [EntryType.layout, ← hlen, fits_replicate_append] at hparts
  have hdepth : depth < 2 ^ 32 := by
    by_cases hs : type.hasStack = true
    · rw [if_pos hs, if_pos hs] at hparts
      exact hparts.2.2.1
    · rw [hno (by simpa using hs)]
      decide
  let r : Record :=
    { type, zeroFlag, padding, pointer, fields, popped, depth, diff, pointer_lt := hp
      fields_length := hlen, fields_lt := hparts.1, diff_length := hdiff, depth_lt := hdepth
      diff_lt := hlt, noStack := hno }
  refine ⟨r, ⟨rfl, rfl, rfl, rfl⟩, rfl, rfl, rfl, ?_⟩
  rw [r.body_eq, hbuf, hdrop, List.append_assoc]
  rfl

theorem record_of_fields (type : EntryType) (fields : List Nat) (hs : type.hasStack = false)
    (hp : pointer < 2 ^ 48) (hlen : fields.length = type.arity)
    (hf : readFields type.layout d buffer offset = .ok (fields, fin)) :
    ∃ r : Record, r.HasHeader type zeroFlag padding pointer ∧
      Reads r tid buffer stack offset
        ⟨reportedEntry tid type zeroFlag pointer fields stack, fin, stack⟩ := by
  obtain ⟨-, hle, -, -⟩ := readFields_ok hf
  have hf' : readFields type.layout d buffer offset =
      .ok (fields ++ if type.hasStack then [0, 0] else [], fin) := by
    rw [hf, hs, if_neg Bool.false_ne_true, List.append_nil]
  obtain ⟨r, hh, hfields, -, -, hdrop⟩ := record_of_numbers zeroFlag padding hp hlen
    (fun _ => rfl) hf' (Nat.zero_add [].length) (fun _ hv => (nomatch hv)) (List.nil_append _).symm
  refine ⟨r, hh, hdrop, hle, ?_, ?_⟩
  · rw [Record.apply, hh.1, hs, if_neg Bool.false_ne_true]
  · rw [Record.entry, hh.1, hh.2.1, hh.2.2.2, hfields]

theorem record_of_stack (tid : Nat) (zeroFlag : Bool) (padding : UInt8) (fields : List Nat)
    (hs : type.hasStack = true) (hp : pointer < 2 ^ 48)
    (hlen : fields.length = type.arity)
    (hf : readFields type.layout d buffer offset = .ok (fields ++ [popped, depth], fin))
    (hst : readStack buffer stack entryOffset fin popped depth = .ok sr) :
    sr = ⟨sr.stack.length, topCaller sr.stack, secondCaller sr.stack, sr.offset, sr.stack⟩ ∧
    ∃ r : Record, r.HasHeader type zeroFlag padding pointer ∧
      Reads r tid buffer stack offset
        ⟨reportedEntry tid type zeroFlag pointer fields sr.stack, sr.offset, sr.stack⟩ := by
  obtain ⟨diff, hdiff, hpop, hlt, -, hle, hstack, hdepth, hc₁, hc₂, hdrop⟩ := readStack_ok hst
  have hf' : readFields type.layout d buffer offset =
      .ok (fields ++ if type.hasStack then [popped, depth] else [], fin) := by
    rw [hf, hs, if_pos rfl]
  obtain ⟨r, hh, hfields, hpopped, hd, hbuf⟩ := record_of_numbers zeroFlag padding hp hlen
    (by rw [hs]; exact fun h => nomatch h) hf' hdiff hlt hdrop
  refine ⟨?_, r, hh, hbuf, hle, ?_, ?_⟩
  · rw [← hdepth, ← hc₁, ← hc₂]
  · rw [Record.apply, hh.1, hs, if_pos rfl, hpopped, hd, if_pos hpop, hstack]
  · rw [Record.entry, hh.1, hh.2.1, hh.2.2.2, hfields]

theorem record_of_readAccess (ht : type = .read ∨ type = .write) (hp : pointer < 2 ^ 48)
    (h : readAccess tid buffer stack entryOffset offset type pointer zeroFlag = .ok y) :
    ∃ r : Record, r.HasHeader type zeroFlag padding pointer ∧
      Reads r tid buffer stack offset y := by
  rw [readAccess] at h
  split at h
  next => cases h
  next size caller popped depth fin hf =>
    split at h
    next => cases h
    next sr hst =>
      have hs : type.hasStack = true := by rcases ht with rfl | rfl <;> rfl
      have hlen : [size, caller].length = type.arity := by rcases ht with rfl | rfl <;> rfl
      have hlayout : accessFields = type.layout := by rcases ht with rfl | rfl <;> rfl
      rw [hlayout] at hf
      obtain ⟨hsr, r, hh, hr⟩ := record_of_stack tid zeroFlag padding
        [size, caller] hs hp hlen hf hst
      refine ⟨r, hh, ?_⟩
      cases h
      rw [hsr]
      rcases ht with rfl | rfl <;> exact hr
  next => cases h

theorem record_of_readAlloc (ht : type = .alloc ∨ type = .mmap ∨ type = .munmap)
    (hp : pointer < 2 ^ 48)
    (h : readAlloc tid buffer stack entryOffset offset type pointer zeroFlag = .ok y) :
    ∃ r : Record, r.HasHeader type zeroFlag padding pointer ∧
      Reads r tid buffer stack offset y := by
  rw [readAlloc] at h
  split at h
  next => cases h
  next size allocIndex caller popped depth fin hf =>
    split at h
    next => cases h
    next sr hst =>
      have hs : type.hasStack = true := by rcases ht with rfl | rfl | rfl <;> rfl
      have hlen : [size, allocIndex, caller].length = type.arity := by
        rcases ht with rfl | rfl | rfl <;> rfl
      have hlayout : allocFields = type.layout := by rcases ht with rfl | rfl | rfl <;> rfl
      rw [hlayout] at hf
      obtain ⟨hsr, r, hh, hr⟩ := record_of_stack tid zeroFlag padding
        [size, allocIndex, caller] hs hp hlen hf hst
      refine ⟨r, hh, ?_⟩
      cases h
      rw [hsr]
      rcases ht with rfl | rfl | rfl <;> exact hr
  next => cases h

theorem record_of_readFree {typedPointer : Nat} (hp : pointer < 2 ^ 48)
    (h : readFree tid buffer stack entryOffset offset typedPointer pointer zeroFlag =
      .ok (some y)) :
    ∃ r : Record, r.HasHeader .free zeroFlag padding pointer ∧
      Reads r tid buffer stack offset y := by
  rw [readFree] at h
  split at h
  next => cases h
  next =>
    split at h
    next => cases h
    next allocIndex caller popped depth fin hf =>
      split at h
      next => cases h
      next sr hst =>
        obtain ⟨hsr, r, hh, hr⟩ := record_of_stack tid zeroFlag padding [allocIndex, caller]
          (show EntryType.free.hasStack = true from rfl) hp rfl
          hf hst
        refine ⟨r, hh, ?_⟩
        cases h
        rw [hsr]
        exact hr
    next => cases h

theorem record_of_readEntry (padding : UInt8) {typedPointer : Nat} (hp : pointer < 2 ^ 48)
    (ho : offset ≤ buffer.length)
    (h : readEntry tid buffer stack entryOffset offset typedPointer type pointer zeroFlag =
      .ok (some y)) :
    ∃ r : Record, r.HasHeader type zeroFlag padding pointer ∧
      Reads r tid buffer stack offset y := by
  cases type with
  | free => exact record_of_readFree hp h
  | read | write =>
      rw [readEntry] at h
      cases hr : readAccess tid buffer stack entryOffset offset _ pointer zeroFlag with
      | error e => rw [hr] at h; cases h
      | ok y' =>
          rw [hr] at h
          cases h
          exact record_of_readAccess (by simp) hp hr
  | alloc | mmap | munmap =>
      rw [readEntry] at h
      cases hr : readAlloc tid buffer stack entryOffset offset _ pointer zeroFlag with
      | error e => rw [hr] at h; cases h
      | ok y' =>
          rw [hr] at h
          cases h
          exact record_of_readAlloc (by simp) hp hr
  | testMarker =>
      cases h
      have hf : readFields EntryType.testMarker.layout "" buffer offset = .ok ([], offset) :=
        readFields_of_drop (show _ = pack [] [] ++ _ from rfl) trivial ho
      exact record_of_fields _ _ rfl hp rfl hf
  | threadStart =>
      simp only [readEntry] at h
      split at h
      next => cases h
      next a b c fin hf =>
        cases h
        exact record_of_fields .threadStart [a, b, c] rfl hp rfl hf
      next => cases h
  | atomicRead | atomicWrite =>
      simp only [readEntry] at h
      split at h
      next => cases h
      next a b fin hf =>
        cases h
        exact record_of_fields _ [a, b] rfl hp rfl hf
      next => cases h
  | _ =>
      simp only [readEntry] at h
      split at h
      next => cases h
      next a fin hf =>
        cases h
        exact record_of_fields _ [a] rfl hp rfl hf
      next => cases h

/-- The typed pointer a reader takes apart is the one of a record with the
parts. -/
theorem Record.HasHeader.typedPointer_eq {typedPointer : Nat}
    (hh : r.HasHeader type (decide (typedPointer &&& 0xFF &&& 0x80 ≠ 0))
      (UInt8.ofNat (typedPointer / 256)) ((typedPointer >>> 16) &&& 0xFFFFFFFFFFFF))
    (htp : typedPointer < 256 ^ 8) (ht : entryTypes[typedPointer &&& 0xFF &&& 0x7F]? = some type) :
    r.typedPointer = typedPointer := by
  have hlow : typedPointer &&& 0xFF = typedPointer % 2 ^ 8 :=
    Nat.and_two_pow_sub_one_eq_mod typedPointer 8
  have hhigh : (typedPointer >>> 16) &&& 0xFFFFFFFFFFFF = typedPointer / 2 ^ 16 % 2 ^ 48 := by
    change _ &&& (2 ^ 48 - 1) = _
    rw [Nat.and_two_pow_sub_one_eq_mod, Nat.shiftRight_eq_div_pow]
  obtain ⟨h₁, h₂, h₃, h₄⟩ := hh
  rw [Record.typedPointer, h₁, h₂, h₃, h₄, ← byte_of_entryTypes (by omega) ht, hlow, hhigh,
    UInt8.toNat_ofNat']
  omega

/-- An entry of the reader comes from a record at the offset that applies and is
not an all-zero FREE record. -/
theorem record_of_readOne (h : readOne tid buffer stack offset = .ok (some y)) :
    ∃ r : Record, buffer.drop offset = r.bytes ++ buffer.drop y.offset ∧
      y.offset = offset + r.bytes.length ∧ y.offset ≤ buffer.length ∧
      r.apply stack = some y.stack ∧ y.entry = r.entry tid y.stack ∧ ¬ r.ZeroFree := by
  have hone := h
  simp only [readOne] at h
  split at h
  next => split at h <;> cases h
  next hlong =>
    split at h
    next typedPointer hu =>
      obtain ⟨-, hfit, hdrop⟩ := unpackFrom_eq_some hu
      split at h
      next => cases h
      next type ht =>
        have hp : (typedPointer >>> 16) &&& 0xFFFFFFFFFFFF < 2 ^ 48 :=
          Nat.lt_of_le_of_lt Nat.and_le_right (by decide)
        obtain ⟨r, hh, hr⟩ := record_of_readEntry (UInt8.ofNat (typedPointer / 256)) hp
          (by omega) h
        have hbytes : buffer.drop offset = r.bytes ++ buffer.drop y.offset := by
          rw [hdrop, Record.bytes, hh.typedPointer_eq hfit.1 ht]
          change le 8 typedPointer ++ [] ++ buffer.drop (offset + 8) = _
          rw [hr.drop]
          simp
        have hlen := congrArg List.length hbytes
        have hle := hr.le
        rw [List.length_append, List.length_drop, List.length_drop] at hlen
        refine ⟨r, hbytes, by omega, hr.le, hr.apply, hr.entry, ?_⟩
        rintro ⟨htype, hz⟩
        have hspace : r.bytes.length = 32 + 8 * r.diff.length := by rw [r.length_bytes, htype]; rfl
        have hnone : readOne tid buffer stack offset = .ok none := by
          rw [readOne_eq_none, hbytes, List.take_append_of_le_length (by omega)]
          exact fun b hb => hz b (List.mem_of_mem_take hb)
        rw [hnone] at hone
        cases hone
    next => cases h

end

end Coldtrace
