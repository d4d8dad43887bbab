import Mathlib.Data.List.Basic
import Mathlib.Tactic.Common
import Coldtrace.Lib.Bytes
import Coldtrace.Records
import Coldtrace.Decoding
import Coldtrace.Fragments

/-!
# The grammar of a fragment

What follows the version header of a fragment is a list of records that apply
one after the other, none of them a FREE record of zeros, and then a tail.
`Parses` says this of a byte string.  The reader finishes on a fragment exactly
when its bytes parse, and reports the records of the parse (`decoder_grammar`).

A byte string parses in one way at most.  Records are self-delimiting, for the
type is in the first byte and the depth of the stack in the fixed part, and a
tail does not start with a record that could be read.
-/

namespace Coldtrace

open Bytes

/-! ## Parses -/

/-- The end of a fragment: nothing, less than a typed pointer of zeros, or more
with the part a FREE record would take zero as far as it is there. -/
def Tail (t : List UInt8) : Prop :=
  t = [] ∨ (t.length < 8 ∧ ∀ b ∈ t, b = 0) ∨
    (8 ≤ t.length ∧ ∀ b ∈ t.take (min 32 t.length), b = 0)

/-- The bytes are these records and then this tail, and the records lead from
the first stack to the second. -/
structure Parses (s : List Nat) (bytes : List UInt8) (rs : List Record) (t : List UInt8)
    (s' : List Nat) : Prop where
  chain : Chain s rs s'
  notZeroFree : ∀ r ∈ rs, ¬ r.ZeroFree
  bytes_eq : bytes = recordsBytes rs ++ t
  tail : Tail t

theorem tail_iff {t : List UInt8} : Tail t ↔ ∀ b ∈ t.take 32, b = 0 := by
  have hmin : t.take (min 32 t.length) = t.take 32 := by
    rcases Nat.le_total t.length 32 with h | h
    · rw [Nat.min_eq_right h, List.take_length, List.take_of_length_le h]
    · rw [Nat.min_eq_left h]
  rw [Tail, hmin]
  constructor
  · rintro (rfl | ⟨_, h⟩ | ⟨_, h⟩)
    · exact fun b hb => nomatch hb
    · exact fun b hb => h b (List.mem_of_mem_take hb)
    · exact h
  · intro h
    rcases Nat.lt_or_ge t.length 8 with hlt | hge
    · rw [List.take_of_length_le (by omega)] at h
      exact .inr (.inl ⟨hlt, h⟩)
    · exact .inr (.inr ⟨hge, h⟩)

/-! ## Records are self-delimiting -/

theorem Record.typedPointer_inj {r r' : Record} (h : r.typedPointer = r'.typedPointer) :
    r.type = r'.type ∧ r.zeroFlag = r'.zeroFlag ∧ r.padding = r'.padding ∧
      r.pointer = r'.pointer := by
  have hbyte : (r.type.byte r.zeroFlag).toNat = (r'.type.byte r'.zeroFlag).toNat := by
    rw [← r.typedPointer_low, ← r'.typedPointer_low, h]
  have htype : r.type = r'.type := by
    have ht := entryTypes_byte r.type r.zeroFlag
    rw [hbyte, entryTypes_byte] at ht
    exact (Option.some.inj ht).symm
  have hflag : r.zeroFlag = r'.zeroFlag := by
    rw [← flag_byte r.type r.zeroFlag, ← flag_byte r'.type r'.zeroFlag, hbyte]
  have hpointer : r.pointer = r'.pointer := by
    rw [← r.typedPointer_high, ← r'.typedPointer_high, h]
  have hpadding : r.padding.toNat = r'.padding.toNat := by
    have hr : r.padding.toNat < 256 := r.padding.toNat_lt
    have hr' : r'.padding.toNat < 256 := r'.padding.toNat_lt
    rw [Record.typedPointer, Record.typedPointer, hbyte, hpointer] at h
    omega
  exact ⟨htype, hflag, UInt8.toNat_inj.mp hpadding, hpointer⟩

theorem Record.bytes_eq (r : Record) :
    r.bytes = le 8 r.typedPointer ++ (pack r.type.layout r.numbers ++ words 8 r.diff) := by
  rw [Record.bytes, List.append_assoc, r.body_eq]

/-- The record at the start of a byte string is the only one there. -/
theorem Record.bytes_inj {r r' : Record} {x y : List UInt8} (h : r.bytes ++ x = r'.bytes ++ y) :
    r = r' := by
  simp only [Record.bytes_eq, List.append_assoc] at h
  obtain ⟨hhead, hbody⟩ := List.append_inj h (by rw [length_le, length_le])
  have hptr : r.typedPointer = r'.typedPointer := by
    rw [← readLe_le_of_lt r.typedPointer_lt, ← readLe_le_of_lt r'.typedPointer_lt, hhead]
  obtain ⟨htype, hflag, hpadding, hpointer⟩ := Record.typedPointer_inj hptr
  have hnumbers : r.numbers = r'.numbers := by
    have hu := congrArg (unpack r.type.layout) hbody
    rw [unpack_pack _ r.fits_numbers, htype, unpack_pack _ r'.fits_numbers] at hu
    exact hu
  have hlen : r.fields.length = r'.fields.length := by
    rw [r.fields_length, r'.fields_length, htype]
  rw [Record.numbers, Record.numbers, htype] at hnumbers
  obtain ⟨hfields, hstack⟩ := List.append_inj hnumbers hlen
  have hl := r.diff_length
  have hl' := r'.diff_length
  have hdepth : r.popped = r'.popped ∧ r.depth = r'.depth := by
    split at hstack
    next => exact ⟨by injection hstack, by simpa using (List.cons.inj hstack).2⟩
    next hno =>
      have hd := r.noStack (by rw [htype]; simpa using hno)
      have hd' := r'.noStack (by simpa using hno)
      omega
  have hdiff : r.diff = r'.diff := by
    have hp := length_pack r.fits_numbers
    have hp' := length_pack r'.fits_numbers
    obtain ⟨-, hwords⟩ := List.append_inj hbody (by rw [hp, hp', htype])
    exact words_inj (by omega) r.diff_lt r'.diff_lt hwords
  cases r
  cases r'
  dsimp only at *
  obtain ⟨hpopped, hdepth⟩ := hdepth
  subst htype hflag hpadding hpointer hfields hpopped hdepth hdiff
  rfl

theorem recordsBytes_inj : ∀ {rs rs' : List Record}, recordsBytes rs = recordsBytes rs' → rs = rs'
  | [], [], _ => rfl
  | [], r :: rs, h => by
      have hr := r.eight_le_length
      have hlen := congrArg List.length h
      rw [recordsBytes_cons, List.length_append, recordsBytes_nil, List.length_nil] at hlen
      omega
  | r :: rs, [], h => by
      have hr := r.eight_le_length
      have hlen := congrArg List.length h
      rw [recordsBytes_cons, List.length_append, recordsBytes_nil, List.length_nil] at hlen
      omega
  | r :: rs, r' :: rs', h => by
      rw [recordsBytes_cons, recordsBytes_cons] at h
      have hr := Record.bytes_inj h
      subst hr
      rw [recordsBytes_inj (List.append_cancel_left h)]

/-- A byte string parses in one way at most. -/
theorem Parses.unique {s s₁ s₂ : List Nat} {bytes t₁ t₂ : List UInt8} {rs₁ rs₂ : List Record}
    (h₁ : Parses s bytes rs₁ t₁ s₁) (h₂ : Parses s bytes rs₂ t₂ s₂) :
    rs₁ = rs₂ ∧ t₁ = t₂ ∧ s₁ = s₂ := by
  -- the reader stops where the records end, so both lists have the same length
  have hdrop : (List.replicate sizeofVersionHeader 0 ++ bytes).drop sizeofVersionHeader = bytes :=
    List.drop_left' List.length_replicate
  have hread₁ := readBuffer_of_chain 0 h₁.chain h₁.notZeroFree (hdrop.trans h₁.bytes_eq)
    (tail_iff.mp h₁.tail)
  have hread₂ := readBuffer_of_chain 0 h₂.chain h₂.notZeroFree (hdrop.trans h₂.bytes_eq)
    (tail_iff.mp h₂.tail)
  rw [hread₁] at hread₂
  injection hread₂ with _ hoffset hstack
  injection hstack with hstack
  obtain ⟨hrecords, htail⟩ := List.append_inj (h₁.bytes_eq.symm.trans h₂.bytes_eq) (by omega)
  exact ⟨recordsBytes_inj hrecords, htail, hstack⟩

/-! ## Exceptions -/

/-- The only exception is a `TraceDumpError`. -/
inductive Guarded {α : Type} : Except PyError α → Prop where
  | ok (a : α) : Guarded (.ok a)
  | traceDump (offset : Nat) (f : FormatError) : Guarded (.error (.traceDump offset f))

theorem Guarded.of_error {α β : Type} {e : PyError} (h : Guarded (.error e : Except PyError α)) :
    Guarded (.error e : Except PyError β) := by
  cases h
  exact .traceDump ..

theorem Guarded.map {α β : Type} {x : Except PyError α} (h : Guarded x) (f : α → β) :
    Guarded (x.map f) := by
  cases h
  · exact .ok _
  · exact .traceDump ..

theorem guarded_readFields (layout : List Nat) (d : String) (buffer : List UInt8) (offset : Nat) :
    Guarded (readFields layout d buffer offset) := by
  simp only [readFields]
  split
  next => exact .traceDump ..
  next hle =>
    rw [unpackFrom, if_pos (by omega)]
    exact .ok _

theorem readFields_length {layout vs : List Nat} {d : String} {buffer : List UInt8}
    {offset fin : Nat} (h : readFields layout d buffer offset = .ok (vs, fin)) :
    vs.length = layout.length :=
  (readFields_ok h).2.2.1.length_eq

theorem readAddresses_isSome (buffer : List UInt8) : ∀ (n offset : Nat),
    offset + 8 * n ≤ buffer.length → ∃ diff, readAddresses buffer n offset = some diff
  | 0, _, _ => ⟨[], rfl⟩
  | n + 1, offset, h => by
      have hu : unpackFrom entryHeaderLayout buffer offset =
          some [readLe ((buffer.drop offset).take 8)] := by
        rw [unpackFrom, if_pos
          (by simp only [entryHeaderLayout, List.sum_cons, List.sum_nil]; omega)]
        rfl
      obtain ⟨diff, hd⟩ := readAddresses_isSome buffer n (offset + 8) (by omega)
      exact ⟨readLe ((buffer.drop offset).take 8) :: diff, by rw [readAddresses, hu]; simp [hd]⟩

theorem guarded_readStack (buffer : List UInt8) (stack : List Nat)
    (entryOffset offset popped depth : Nat) :
    Guarded (readStack buffer stack entryOffset offset popped depth) := by
  simp only [readStack]
  split
  next => exact .traceDump ..
  next hdepth =>
    split
    next => exact .traceDump ..
    next hpop =>
      split
      next => exact .traceDump ..
      next hfit =>
        obtain ⟨diff, hd⟩ := readAddresses_isSome buffer (depth - popped) offset (by omega)
        have hlen : (stack.take popped ++ diff).length = depth := by
          rw [List.length_append, List.length_take, (readAddresses_eq_some hd).1]
          omega
        rw [hd]
        dsimp only
        split
        next htwo =>
          rw [if_neg (by omega)]
          exact .ok _
        next => exact .ok _

section

variable (tid : Nat) (buffer : List UInt8) (stack : List Nat) (entryOffset offset : Nat)

theorem guarded_readAccess (type : EntryType) (pointer : Nat) (zeroFlag : Bool) :
    Guarded (readAccess tid buffer stack entryOffset offset type pointer zeroFlag) := by
  have hg := guarded_readFields accessFields "access entry fields" buffer offset
  rw [readAccess]
  cases hr : readFields accessFields "access entry fields" buffer offset with
  | error e => exact (hr ▸ hg).of_error
  | ok p =>
      obtain ⟨vs, fin⟩ := p
      obtain ⟨_, _, popped, depth, rfl⟩ := List.length_eq_four.mp (readFields_length hr)
      have hs := guarded_readStack buffer stack entryOffset fin popped depth
      dsimp only
      split
      next e he => exact (he ▸ hs).of_error
      next => exact .ok _

theorem guarded_readFree (typedPointer pointer : Nat) (zeroFlag : Bool) :
    Guarded (readFree tid buffer stack entryOffset offset typedPointer pointer zeroFlag) := by
  have hg := guarded_readFields freeFields "free entry fields" buffer offset
  simp only [readFree]
  split
  next => exact .ok _
  next =>
    cases hr : readFields freeFields "free entry fields" buffer offset with
    | error e => exact (hr ▸ hg).of_error
    | ok p =>
        obtain ⟨vs, fin⟩ := p
        obtain ⟨_, _, popped, depth, rfl⟩ := List.length_eq_four.mp (readFields_length hr)
        have hs := guarded_readStack buffer stack entryOffset fin popped depth
        dsimp only
        split
        next e he => exact (he ▸ hs).of_error
        next => exact .ok _

theorem guarded_readAlloc (type : EntryType) (pointer : Nat) (zeroFlag : Bool) :
    Guarded (readAlloc tid buffer stack entryOffset offset type pointer zeroFlag) := by
  have hg := guarded_readFields allocFields "allocation entry fields" buffer offset
  rw [readAlloc]
  cases hr : readFields allocFields "allocation entry fields" buffer offset with
  | error e => exact (hr ▸ hg).of_error
  | ok p =>
      obtain ⟨vs, fin⟩ := p
      obtain ⟨_, vs, rfl⟩ := List.exists_cons_of_length_eq_add_one (readFields_length hr)
      obtain ⟨_, _, popped, depth, rfl⟩ :=
        List.length_eq_four.mp (Nat.succ.inj (readFields_length hr))
      have hs := guarded_readStack buffer stack entryOffset fin popped depth
      dsimp only
      split
      next e he => exact (he ▸ hs).of_error
      next => exact .ok _

theorem guarded_readEntry (typedPointer : Nat) (type : EntryType) (pointer : Nat)
    (zeroFlag : Bool) :
    Guarded (readEntry tid buffer stack entryOffset offset typedPointer type pointer zeroFlag) := by
  cases type with
  | read | write => exact (guarded_readAccess ..).map _
  | alloc | mmap | munmap => exact (guarded_readAlloc ..).map _
  | free => exact guarded_readFree ..
  | testMarker => exact .ok _
  | threadStart =>
      have hg := guarded_readFields threadStartFields "thread-start entry fields" buffer offset
      simp only [readEntry]
      cases hr : readFields threadStartFields "thread-start entry fields" buffer offset with
      | error e => exact (hr ▸ hg).of_error
      | ok p =>
          obtain ⟨vs, fin⟩ := p
          obtain ⟨_, _, _, rfl⟩ := List.length_eq_three.mp (readFields_length hr)
          exact .ok _
  | atomicRead | atomicWrite =>
      have hg := guarded_readFields atomicAccessFields "atomic-access entry fields" buffer offset
      simp only [readEntry]
      cases hr : readFields atomicAccessFields "atomic-access entry fields" buffer offset with
      | error e => exact (hr ▸ hg).of_error
      | ok p =>
          obtain ⟨vs, fin⟩ := p
          obtain ⟨_, _, rfl⟩ := List.length_eq_two.mp (readFields_length hr)
          exact .ok _
  | _ =>
      have hg := guarded_readFields atomicFields "atomic entry fields" buffer offset
      simp only [readEntry]
      cases hr : readFields atomicFields "atomic entry fields" buffer offset with
      | error e => exact (hr ▸ hg).of_error
      | ok p =>
          obtain ⟨vs, fin⟩ := p
          obtain ⟨_, rfl⟩ := List.length_eq_one_iff.mp (readFields_length hr)
          exact .ok _

theorem guarded_readOne : Guarded (readOne tid buffer stack offset) := by
  simp only [readOne]
  split
  next =>
    split
    next => exact .ok _
    next => exact .traceDump ..
  next hle =>
    have hu : unpackFrom entryHeaderLayout buffer offset =
        some [readLe ((buffer.drop offset).take 8)] := by
      rw [unpackFrom, if_pos (by simp only [entryHeaderLayout, List.sum_cons, List.sum_nil]; omega)]
      rfl
    rw [hu]
    dsimp only
    split
    next => exact .traceDump ..
    next => exact guarded_readEntry ..

end

theorem guarded_decompress (B : Build) (maxFragmentSize : Nat) (data : List UInt8) :
    Guarded (decompress B maxFragmentSize data) := by
  rw [decompress]
  split
  next => exact .traceDump ..
  next hlong =>
    have hv : ∃ a b c d e, unpackFrom versionHeaderLayout data 0 = some [a, b, c, d, e] := by
      rw [unpackFrom, if_pos (by simpa [versionHeaderLayout, sizeofVersionHeader] using hlong)]
      exact ⟨_, _, _, _, _, rfl⟩
    obtain ⟨_, _, major, minor, patch, hv⟩ := hv
    rw [hv]
    dsimp only
    split
    next => exact .traceDump ..
    next =>
      split
      next => exact .traceDump ..
      next hhdr =>
        have hb : ∃ rawSize, unpackFrom blockHeaderLayout data sizeofVersionHeader =
            some [rawSize] := by
          rw [unpackFrom, if_pos
            (by simpa [blockHeaderLayout, sizeofVersionHeader, fragHdrSize] using hhdr)]
          exact ⟨_, rfl⟩
        obtain ⟨rawSize, hb⟩ := hb
        rw [hb]
        dsimp only
        split
        next => exact .traceDump ..
        next =>
          split
          next => exact .ok _
          next =>
            split
            next => exact .traceDump ..
            next =>
              split
              next => exact .traceDump ..
              next => exact .ok _

/-- Reading a fragment ends, and raises nothing but a `TraceDumpError`. -/
theorem readBuffer_guarded (tid : Nat) (s : List Nat) (buffer : List UInt8) :
    (∃ s', (readBuffer tid s buffer).outcome = .finished s') ∨
      ∃ offset f, (readBuffer tid s buffer).outcome = .raised (.traceDump offset f) := by
  obtain ⟨rs, s', -, -, -, -, -, hstop, -⟩ :=
    readLoop_spec tid buffer (buffer.length + 1) s sizeofVersionHeader
  have hne := readBuffer_ne_diverged tid s buffer
  rw [readBuffer] at hne ⊢
  generalize (readLoop tid buffer (buffer.length + 1) s sizeofVersionHeader).outcome = outcome at *
  cases hstop with
  | tail => exact .inl ⟨s', rfl⟩
  | @error e he =>
      have hg := he ▸ guarded_readOne tid buffer s' _
      cases hg with
      | traceDump offset f => exact .inr ⟨offset, f, rfl⟩
  | fuel => exact absurd rfl hne

/-! ## Acceptance -/

/-- The reader finishes exactly on the fragments that parse, in one way, and
reports their records; any other fragment or file makes it raise a
`TraceDumpError`. -/
theorem decoder_grammar (tid : Nat) (s : List Nat) (buffer : List UInt8) :
    (∀ es s', (readBuffer tid s buffer).outcome = .finished s' ∧
        (readBuffer tid s buffer).entries = es ↔
      ∃ rs t, Parses s (buffer.drop sizeofVersionHeader) rs t s' ∧ es = reported tid s rs) ∧
    (∀ rs₁ t₁ s₁ rs₂ t₂ s₂, Parses s (buffer.drop sizeofVersionHeader) rs₁ t₁ s₁ →
      Parses s (buffer.drop sizeofVersionHeader) rs₂ t₂ s₂ → rs₁ = rs₂ ∧ t₁ = t₂ ∧ s₁ = s₂) ∧
    ((∃ s', (readBuffer tid s buffer).outcome = .finished s') ∨
      ∃ offset f, (readBuffer tid s buffer).outcome = .raised (.traceDump offset f)) ∧
    ∀ (r : TraceReader) (B : Build) (data : List UInt8),
      (∃ s', (r.readFile B s data).outcome = .finished s') ∨
        ∃ offset f, (r.readFile B s data).outcome = .raised (.traceDump offset f) := by
  refine ⟨fun es s' => ⟨?_, ?_⟩, fun _ _ _ _ _ _ h₁ h₂ => h₁.unique h₂,
    readBuffer_guarded tid s buffer, fun r B data => ?_⟩
  · rintro ⟨hfin, rfl⟩
    obtain ⟨rs, hchain, hz, hes, hdrop, htail⟩ := chain_of_readBuffer hfin
    exact ⟨rs, _, ⟨hchain, hz, hdrop, tail_iff.mpr htail⟩, hes⟩
  · rintro ⟨rs, t, h, rfl⟩
    rw [readBuffer_of_chain tid h.chain h.notZeroFree h.bytes_eq (tail_iff.mp h.tail)]
    exact ⟨rfl, rfl⟩
  · have hg := guarded_decompress B r.maxFragmentSize data
    rw [TraceReader.readFile]
    generalize decompress B r.maxFragmentSize data = x at hg
    cases hg with
    | ok page => exact readBuffer_guarded r.tid s page
    | traceDump offset f => exact .inr ⟨offset, f, rfl⟩

end Coldtrace
