import Mathlib.Tactic.Common
import Coldtrace.Lib.Template
import Coldtrace.Lib.Decimal
import Coldtrace.Entries
import Coldtrace.Reader

/-!
# Printed entries

The model of `format_entry` and of the loop of `dump_trace`.  An f-string is a
list of pieces.  A field that is `None` is printed as such in decimal, and
raises an exception in hexadecimal.  The reader fills all fields of a type, so
neither happens for its entries (`entries_complete`).

Each line starts with its number and the thread.  What follows, up to the next
value, tells the type of the entry, since none of these texts is the start of
another.  So the lines of a dump determine the entries (`printed_of_text`), but
for three things that are not printed: the pointer of a fence, that of a test
marker, and the flag of an entry that is not a read.
-/

namespace Coldtrace

open Template

/-! ## Pieces -/

def lit (s : String) : Piece := .text (Decimal.ascii s)

/-- `{n}`. -/
def dec (n : Nat) : Piece := .number Decimal.numerals n

/-- `{n:x}`. -/
def hex (n : Nat) : Piece := .number hexadecimal n

/-- `{value}`, for a field that may be `None`. -/
def shown : Option Nat → Piece
  | some n => dec n
  | none => lit "None"

/-- What `format_entry` raises. -/
inductive PrintError where
  /-- `ValueError`: a type with a stack has no caller. -/
  | missingCaller (type : EntryType)
  /-- `TypeError`: `None` is not printed in hexadecimal. -/
  | hexOfNone
deriving DecidableEq, Repr

/-- `{value:x}`, for a field that may be `None`. -/
def shownHex : Option Nat → Except PrintError Piece
  | some n => .ok (hex n)
  | none => .error .hexOfNone

/-! ## Lines -/

/-- The text after the thread, up to the first value. -/
def operation : EntryType → Bool → String
  | .read, true => " ZeroRead access "
  | .read, false => " Read access "
  | .write, _ => " write access "
  | .free, _ => " Freed memory @"
  | .alloc, _ => " Allocated "
  | .atomicRead, _ => " atomic read "
  | .atomicWrite, _ => " atomic write "
  | .lockAcquire, _ => " acquire lock @"
  | .lockRelease, _ => " release lock @"
  | .threadCreate, _ => " thread create @"
  | .threadStart, _ => " thread start @"
  | .threadJoin, _ => " thread join @"
  | .threadExit, _ => " thread exit @"
  | .rwLockCreate, _ => " rw_lock create @"
  | .rwLockDestroy, _ => " rw_lock destroy @"
  | .rwLockAcqShr, _ => " rw_lock acq_shr @"
  | .rwLockAcqExc, _ => " rw_lock acq_exc @"
  | .rwLockRelShr, _ => " rw_lock rel_shr @"
  | .rwLockRelExc, _ => " rw_lock rel_exc @"
  | .rwLockRel, _ => " rw_lock rel @"
  | .fence, _ => " fence ["
  | .testMarker, _ => " test marker"
  | .cxaGuardAcquire, _ => " acquire cxa_guard @"
  | .cxaGuardRelease, _ => " release cxa_guard @"
  | .mmap, _ => " mmap-ed region of "
  | .munmap, _ => " munmap-ed region of "

/-- The depth of the stack and the callers. -/
def callers (e : TraceEntry) (caller : Piece) : List Piece :=
  [dec (e.stackDepth + 1), lit ": ", caller, lit ", ", hex e.caller1, lit ", ", hex e.caller2]

/-- A part of a line that has the callers, for the types other than READ and
WRITE. -/
def withCallers (e : TraceEntry) (ps : List Piece) : Except PrintError (List Piece) :=
  match e.caller with
  | none => .error (.missingCaller e.type)
  | some caller => .ok (ps ++ callers e (hex caller) ++ [lit " [", shown e.allocIndex, lit "]"])

/-- The rest of a line, from the first value on. -/
def details (e : TraceEntry) : Except PrintError (List Piece) :=
  match e.type with
  | .read | .write => do
      let caller ← shownHex e.caller
      pure ([shown e.size, lit "B @", hex e.pointer, lit " "] ++ callers e caller)
  | .free => withCallers e [hex e.pointer, lit " "]
  | .alloc => withCallers e [shown e.size, lit "B of memory @", hex e.pointer, lit " "]
  | .mmap | .munmap => withCallers e [shown e.size, lit " from ", hex e.pointer, lit " "]
  | .atomicRead | .atomicWrite =>
      pure [shown e.size, lit "B @", hex e.pointer, lit " [", shown e.atomicIndex, lit "]"]
  | .threadStart => do
      let ptr ← shownHex e.threadStackPtr
      pure [hex e.pointer, lit " ", ptr, lit " ", shown e.threadStackSize, lit " [",
        shown e.atomicIndex, lit "]"]
  | .fence => pure [shown e.atomicIndex, lit "]"]
  | .testMarker => pure []
  | _ => pure [hex e.pointer, lit " [", shown e.atomicIndex, lit "]"]

/-- `format_entry`. -/
def formatEntry (ordinal : Nat) (e : TraceEntry) : Except PrintError (List Piece) := do
  let ps ← details e
  pure ([dec ordinal, lit ") ", dec e.tid, lit ":", lit (operation e.type e.zeroFlag)] ++ ps)

/-- The loop of `dump_trace`, from a number on: what it writes, and what it
raises. -/
def printEntries : Nat → List TraceEntry → List UInt8 × Option PrintError
  | _, [] => ([], none)
  | ordinal, e :: es =>
      match formatEntry ordinal e with
      | .error err => ([], some err)
      | .ok ps =>
          let (out, err) := printEntries (ordinal + 1) es
          (render (ps ++ [lit "\n"]) ++ out, err)

/-- The last line of a dump. -/
def trailer (nentries : Nat) : List UInt8 :=
  render [lit "Unpacked nentries=", dec nentries, lit " log-entries.\n"]

/-! ## The entries of the reader -/

/-- The entry has the fields of its type, and no others. -/
def TraceEntry.Complete (e : TraceEntry) : Prop :=
  match e.type with
  | .read | .write =>
      e.size.isSome ∧ e.caller.isSome ∧ e.allocIndex = none ∧ e.atomicIndex = none ∧
        e.threadStackPtr = none ∧ e.threadStackSize = none
  | .free =>
      e.allocIndex.isSome ∧ e.caller.isSome ∧ e.size = none ∧ e.atomicIndex = none ∧
        e.threadStackPtr = none ∧ e.threadStackSize = none
  | .alloc | .mmap | .munmap =>
      e.size.isSome ∧ e.allocIndex.isSome ∧ e.caller.isSome ∧ e.atomicIndex = none ∧
        e.threadStackPtr = none ∧ e.threadStackSize = none
  | .atomicRead | .atomicWrite =>
      e.size.isSome ∧ e.atomicIndex.isSome ∧ e.allocIndex = none ∧ e.caller = none ∧
        e.threadStackPtr = none ∧ e.threadStackSize = none ∧ e.stackDepth = 0 ∧ e.caller1 = 0 ∧
        e.caller2 = 0
  | .threadStart =>
      e.atomicIndex.isSome ∧ e.threadStackPtr.isSome ∧ e.threadStackSize.isSome ∧ e.size = none ∧
        e.allocIndex = none ∧ e.caller = none ∧ e.stackDepth = 0 ∧ e.caller1 = 0 ∧ e.caller2 = 0
  | .testMarker =>
      e.size = none ∧ e.allocIndex = none ∧ e.atomicIndex = none ∧ e.caller = none ∧
        e.threadStackPtr = none ∧ e.threadStackSize = none ∧ e.stackDepth = 0 ∧ e.caller1 = 0 ∧
        e.caller2 = 0
  | _ =>
      e.atomicIndex.isSome ∧ e.size = none ∧ e.allocIndex = none ∧ e.caller = none ∧
        e.threadStackPtr = none ∧ e.threadStackSize = none ∧ e.stackDepth = 0 ∧ e.caller1 = 0 ∧
        e.caller2 = 0

section

variable {tid offset entryOffset pointer typedPointer : Nat} {buffer : List UInt8}
  {stack : List Nat} {type : EntryType} {zeroFlag : Bool} {y : Yielded}

theorem readAccess_complete (htype : type = .read ∨ type = .write)
    (h : readAccess tid buffer stack entryOffset offset type pointer zeroFlag = .ok y) :
    y.entry.Complete := by
  rw [readAccess] at h
  split at h
  next => cases h
  next =>
    split at h
    next => cases h
    next =>
      cases h
      rcases htype with rfl | rfl <;> simp [TraceEntry.Complete]
  next => cases h

theorem readAlloc_complete (htype : type = .alloc ∨ type = .mmap ∨ type = .munmap)
    (h : readAlloc tid buffer stack entryOffset offset type pointer zeroFlag = .ok y) :
    y.entry.Complete := by
  rw [readAlloc] at h
  split at h
  next => cases h
  next =>
    split at h
    next => cases h
    next =>
      cases h
      rcases htype with rfl | rfl | rfl <;> simp [TraceEntry.Complete]
  next => cases h

theorem readFree_complete
    (h : readFree tid buffer stack entryOffset offset typedPointer pointer zeroFlag =
      .ok (some y)) : y.entry.Complete := by
  rw [readFree] at h
  split at h
  next => cases h
  next =>
    split at h
    next => cases h
    next =>
      split at h
      next => cases h
      next =>
        cases h
        simp [TraceEntry.Complete]
    next => cases h

theorem map_some_ok {α : Type} {x : Except PyError α} {a : α} (h : x.map some = .ok (some a)) :
    x = .ok a := by
  cases x with
  | error => cases h
  | ok b =>
      cases h
      rfl

theorem readEntry_complete
    (h : readEntry tid buffer stack entryOffset offset typedPointer type pointer zeroFlag =
      .ok (some y)) : y.entry.Complete := by
  cases type with
  | read => exact readAccess_complete (.inl rfl) (map_some_ok h)
  | write => exact readAccess_complete (.inr rfl) (map_some_ok h)
  | free => exact readFree_complete h
  | alloc => exact readAlloc_complete (.inl rfl) (map_some_ok h)
  | mmap => exact readAlloc_complete (.inr (.inl rfl)) (map_some_ok h)
  | munmap => exact readAlloc_complete (.inr (.inr rfl)) (map_some_ok h)
  | testMarker =>
      cases h
      simp [TraceEntry.Complete]
  | _ =>
      simp only [readEntry] at h
      split at h
      next => cases h
      next =>
        cases h
        simp [TraceEntry.Complete]
      next => cases h

theorem readOne_complete (h : readOne tid buffer stack offset = .ok (some y)) :
    y.entry.Complete := by
  rw [readOne] at h
  dsimp only at h
  split at h
  next => split at h <;> cases h
  next =>
    split at h
    next =>
      split at h
      next => cases h
      next => exact readEntry_complete h
    next => cases h

theorem readLoop_complete (fuel : Nat) :
    ∀ e ∈ (readLoop tid buffer fuel stack offset).entries, e.Complete := by
  induction fuel generalizing stack offset with
  | zero => exact fun _ he => nomatch he
  | succ fuel ih =>
      rw [readLoop]
      split
      next =>
        split
        next => exact fun _ he => nomatch he
        next => exact fun _ he => nomatch he
        next y hy =>
          intro e he
          rcases List.mem_cons.mp he with rfl | he
          · exact readOne_complete hy
          · exact ih e he
      next => exact fun _ he => nomatch he

end

/-- Every entry of the reader has the fields of its type, whatever is in the
files. -/
theorem entries_complete (r : TraceReader) (B : Build) (stack : List Nat)
    (files : List (List UInt8)) : ∀ e ∈ (r.entries B stack files).1, e.Complete := by
  have hfile : ∀ stack file, ∀ e ∈ (r.readFile B stack file).entries, e.Complete := by
    intro stack file
    rw [TraceReader.readFile]
    split
    next => exact fun _ he => nomatch he
    next => exact readLoop_complete _
  induction files generalizing stack with
  | nil => exact fun _ he => nomatch he
  | cons file files ih =>
      have hfirst := hfile stack file
      rw [TraceReader.entries]
      split
      next heq =>
        rw [heq] at hfirst
        intro e he
        rcases List.mem_append.mp he with he | he
        · exact hfirst e he
        · exact ih _ e he
      next heq =>
        rw [heq] at hfirst
        exact hfirst

/-! ## Lines determine entries -/

/-- What a line shows of an entry. -/
def TraceEntry.printed (e : TraceEntry) : TraceEntry :=
  { e with
    zeroFlag := if e.type = .read then e.zeroFlag else false
    pointer := if e.type = .fence ∨ e.type = .testMarker then 0 else e.pointer }

@[simp] theorem dec_inj {m n : Nat} : dec m = dec n ↔ m = n := by simp [dec]

@[simp] theorem hex_inj {m n : Nat} : hex m = hex n ↔ m = n := by simp [hex]

theorem mem_entryTypes (t : EntryType) : t ∈ entryTypes := by
  cases t <;> decide

/-- No operation is the start of another. -/
theorem eq_of_operation_prefix {t t' : EntryType} {z z' : Bool}
    (h : Decimal.ascii (operation t z) <+: Decimal.ascii (operation t' z')) :
    t = t' ∧ (t = .read → z = z') := by
  have hall : ∀ t ∈ entryTypes, ∀ z, ∀ t' ∈ entryTypes, ∀ z',
      (Decimal.ascii (operation t z)).isPrefixOf (Decimal.ascii (operation t' z')) = true →
        t = t' ∧ (t = .read → z = z') := by decide +kernel
  exact hall t (mem_entryTypes t) z t' (mem_entryTypes t') z' (List.isPrefixOf_iff_prefix.mpr h)

theorem operation_cancel {t t' : EntryType} {z z' : Bool} {rest rest' : List UInt8}
    (h : Decimal.ascii (operation t z) ++ rest = Decimal.ascii (operation t' z') ++ rest') :
    t = t' ∧ (t = .read → z = z') ∧ rest = rest' := by
  have hsame : t = t' ∧ (t = .read → z = z') := by
    rcases List.prefix_or_prefix_of_prefix (List.prefix_append _ rest) ⟨rest', h.symm⟩ with hp | hp
    · exact eq_of_operation_prefix hp
    · obtain ⟨rfl, hz⟩ := eq_of_operation_prefix hp
      exact ⟨rfl, fun hread => (hz hread).symm⟩
  obtain ⟨rfl, hz⟩ := hsame
  have hop : operation t z = operation t z' := by
    cases t with
    | read => rw [hz rfl]
    | _ => rfl
  rw [hop] at h
  exact ⟨rfl, hz, List.append_cancel_left h⟩

section

variable {e e' : TraceEntry} {ps qs : List Piece} {rest rest' : List UInt8}

theorem details_complete (h : e.Complete) : ∃ ps, details e = .ok ps := by
  obtain ⟨tid, type, pointer, zeroFlag, size, allocIndex, atomicIndex, caller, depth, caller1,
    caller2, stackPtr, stackSize⟩ := e
  cases type with
  | read | write | free | alloc | mmap | munmap =>
      simp only [TraceEntry.Complete, Option.isSome_iff_exists] at h
      obtain ⟨caller, rfl⟩ : ∃ c, caller = some c := by grind
      exact ⟨_, rfl⟩
  | threadStart =>
      simp only [TraceEntry.Complete, Option.isSome_iff_exists] at h
      obtain ⟨-, ⟨ptr, rfl⟩, -⟩ := h
      exact ⟨_, rfl⟩
  | _ => exact ⟨_, rfl⟩

theorem callers_alike {c c' : Nat} {s : List UInt8}
    (hs : s.head?.map hexadecimal.accepts = some false) (h : Alike ps qs) :
    Alike (callers e (hex c) ++ .text s :: ps) (callers e' (hex c') ++ .text s :: qs) :=
  .number (by decide) (.number (by decide) (.number (by decide) (.number hs h)))

/-- The values of a line, for entries of one type. -/
theorem details_cancel (h : e.Complete) (h' : e'.Complete) (htid : e.tid = e'.tid)
    (htype : e.type = e'.type) (hflag : e.type = .read → e.zeroFlag = e'.zeroFlag)
    (hps : details e = .ok ps) (hqs : details e' = .ok qs)
    (heq : render (ps ++ [lit "\n"]) ++ rest = render (qs ++ [lit "\n"]) ++ rest') :
    e.printed = e'.printed ∧ rest = rest' := by
  obtain ⟨tid, type, pointer, zeroFlag, size, allocIndex, atomicIndex, caller, depth, caller1,
    caller2, stackPtr, stackSize⟩ := e
  obtain ⟨tid', type', pointer', zeroFlag', size', allocIndex', atomicIndex', caller', depth',
    caller1', caller2', stackPtr', stackSize'⟩ := e'
  dsimp only at htid htype hflag
  subst htid htype
  cases type with
  | read | write =>
      simp only [TraceEntry.Complete, Option.isSome_iff_exists] at h h'
      obtain ⟨⟨size, rfl⟩, ⟨caller, rfl⟩, rfl, rfl, rfl, rfl⟩ := h
      obtain ⟨⟨size', rfl⟩, ⟨caller', rfl⟩, rfl, rfl, rfl, rfl⟩ := h'
      obtain rfl := Except.ok.inj hps
      obtain rfl := Except.ok.inj hqs
      obtain ⟨hpieces, hrest⟩ := Alike.cancel
        (.number (by decide) (.number (by decide) (callers_alike (by decide) .nil))) heq
      simp_all [callers, TraceEntry.printed]
  | free =>
      simp only [TraceEntry.Complete, Option.isSome_iff_exists] at h h'
      obtain ⟨⟨index, rfl⟩, ⟨caller, rfl⟩, rfl, rfl, rfl, rfl⟩ := h
      obtain ⟨⟨index', rfl⟩, ⟨caller', rfl⟩, rfl, rfl, rfl, rfl⟩ := h'
      obtain rfl := Except.ok.inj hps
      obtain rfl := Except.ok.inj hqs
      obtain ⟨hpieces, hrest⟩ := Alike.cancel
        (.number (by decide) (callers_alike (by decide) (.number (by decide) (.text .nil)))) heq
      simp_all [callers, TraceEntry.printed]
  | alloc | mmap | munmap =>
      simp only [TraceEntry.Complete, Option.isSome_iff_exists] at h h'
      obtain ⟨⟨size, rfl⟩, ⟨index, rfl⟩, ⟨caller, rfl⟩, rfl, rfl, rfl⟩ := h
      obtain ⟨⟨size', rfl⟩, ⟨index', rfl⟩, ⟨caller', rfl⟩, rfl, rfl, rfl⟩ := h'
      obtain rfl := Except.ok.inj hps
      obtain rfl := Except.ok.inj hqs
      obtain ⟨hpieces, hrest⟩ := Alike.cancel (.number (by decide) (.number (by decide)
        (callers_alike (by decide) (.number (by decide) (.text .nil))))) heq
      simp_all [callers, TraceEntry.printed]
  | atomicRead | atomicWrite =>
      simp only [TraceEntry.Complete, Option.isSome_iff_exists] at h h'
      obtain ⟨⟨size, rfl⟩, ⟨index, rfl⟩, rfl, rfl, rfl, rfl, rfl, rfl, rfl⟩ := h
      obtain ⟨⟨size', rfl⟩, ⟨index', rfl⟩, rfl, rfl, rfl, rfl, rfl, rfl, rfl⟩ := h'
      obtain rfl := Except.ok.inj hps
      obtain rfl := Except.ok.inj hqs
      obtain ⟨hpieces, hrest⟩ := Alike.cancel (.number (by decide) (.number (by decide)
        (.number (by decide) (.text .nil)))) heq
      simp_all [TraceEntry.printed]
  | threadStart =>
      simp only [TraceEntry.Complete, Option.isSome_iff_exists] at h h'
      obtain ⟨⟨index, rfl⟩, ⟨ptr, rfl⟩, ⟨size, rfl⟩, rfl, rfl, rfl, rfl, rfl, rfl⟩ := h
      obtain ⟨⟨index', rfl⟩, ⟨ptr', rfl⟩, ⟨size', rfl⟩, rfl, rfl, rfl, rfl, rfl, rfl⟩ := h'
      obtain rfl := Except.ok.inj hps
      obtain rfl := Except.ok.inj hqs
      obtain ⟨hpieces, hrest⟩ := Alike.cancel (.number (by decide) (.number (by decide)
        (.number (by decide) (.number (by decide) (.text .nil))))) heq
      simp_all [TraceEntry.printed]
  | testMarker =>
      obtain ⟨rfl, rfl, rfl, rfl, rfl, rfl, rfl, rfl, rfl⟩ := h
      obtain ⟨rfl, rfl, rfl, rfl, rfl, rfl, rfl, rfl, rfl⟩ := h'
      obtain rfl := Except.ok.inj hps
      obtain rfl := Except.ok.inj hqs
      exact ⟨rfl, (Alike.cancel (.text .nil) heq).2⟩
  | fence =>
      simp only [TraceEntry.Complete, Option.isSome_iff_exists] at h h'
      obtain ⟨⟨index, rfl⟩, rfl, rfl, rfl, rfl, rfl, rfl, rfl, rfl⟩ := h
      obtain ⟨⟨index', rfl⟩, rfl, rfl, rfl, rfl, rfl, rfl, rfl, rfl⟩ := h'
      obtain rfl := Except.ok.inj hps
      obtain rfl := Except.ok.inj hqs
      obtain ⟨hpieces, hrest⟩ := Alike.cancel (.number (by decide) (.text .nil)) heq
      simp_all [TraceEntry.printed]
  | _ =>
      simp only [TraceEntry.Complete, Option.isSome_iff_exists] at h h'
      obtain ⟨⟨index, rfl⟩, rfl, rfl, rfl, rfl, rfl, rfl, rfl, rfl⟩ := h
      obtain ⟨⟨index', rfl⟩, rfl, rfl, rfl, rfl, rfl, rfl, rfl, rfl⟩ := h'
      obtain rfl := Except.ok.inj hps
      obtain rfl := Except.ok.inj hqs
      obtain ⟨hpieces, hrest⟩ := Alike.cancel (.number (by decide) (.number (by decide)
        (.text .nil))) heq
      simp_all [TraceEntry.printed]

theorem formatEntry_eq (k : Nat) (hps : details e = .ok ps) :
    formatEntry k e = .ok ([dec k, lit ") ", dec e.tid, lit ":"] ++
      lit (operation e.type e.zeroFlag) :: ps) := by
  rw [formatEntry, hps]
  rfl

theorem formatEntry_complete (k : Nat) (h : e.Complete) : ∃ ps, formatEntry k e = .ok ps := by
  obtain ⟨ps, hps⟩ := details_complete h
  exact ⟨_, formatEntry_eq k hps⟩

/-- The parts of a line. -/
theorem render_line {k : Nat} (h : formatEntry k e = .ok ps) :
    ∃ ps₀, details e = .ok ps₀ ∧ ∀ rest, render (ps ++ [lit "\n"]) ++ rest =
      render [dec k, lit ") ", dec e.tid, lit ":"] ++
        (Decimal.ascii (operation e.type e.zeroFlag) ++ (render (ps₀ ++ [lit "\n"]) ++ rest)) := by
  cases hd : details e with
  | error err =>
      rw [formatEntry, hd] at h
      cases h
  | ok ps₀ =>
      rw [formatEntry_eq k hd] at h
      obtain rfl := Except.ok.inj h
      refine ⟨ps₀, rfl, fun rest => ?_⟩
      simp only [render_append, render_cons, List.append_assoc, lit, Piece.render]

/-- A line determines what it shows of its entry. -/
theorem line_cancel {k k' : Nat} (h : e.Complete) (h' : e'.Complete)
    (hps : formatEntry k e = .ok ps) (hqs : formatEntry k' e' = .ok qs)
    (heq : render (ps ++ [lit "\n"]) ++ rest = render (qs ++ [lit "\n"]) ++ rest') :
    e.printed = e'.printed ∧ rest = rest' := by
  obtain ⟨ps₀, hps₀, hline⟩ := render_line hps
  obtain ⟨qs₀, hqs₀, hline'⟩ := render_line hqs
  rw [hline, hline'] at heq
  have halike : Alike [dec k, lit ") ", dec e.tid, lit ":"]
      [dec k', lit ") ", dec e'.tid, lit ":"] :=
    .number (by decide) (.number (by decide) .nil)
  obtain ⟨hstart, heq⟩ := halike.cancel heq
  obtain ⟨htype, hflag, heq⟩ := operation_cancel heq
  have htid : e.tid = e'.tid := by
    simp only [List.cons.injEq, dec_inj] at hstart
    exact hstart.2.2.1
  exact details_cancel h h' htid htype hflag hps₀ hqs₀ heq

theorem printEntries_cons {k : Nat} (es : List TraceEntry) (hps : formatEntry k e = .ok ps) :
    printEntries k (e :: es) = (render (ps ++ [lit "\n"]) ++ (printEntries (k + 1) es).1,
      (printEntries (k + 1) es).2) := by
  rw [printEntries, hps]

theorem formatEntry_printed (k : Nat) (e : TraceEntry) :
    formatEntry k e.printed = formatEntry k e := by
  obtain ⟨tid, type, pointer, zeroFlag, size, allocIndex, atomicIndex, caller, depth, caller1,
    caller2, stackPtr, stackSize⟩ := e
  cases type <;> rfl

theorem printEntries_printed (k : Nat) (es : List TraceEntry) :
    printEntries k (es.map TraceEntry.printed) = printEntries k es := by
  induction es generalizing k with
  | nil => rfl
  | cons e es ih => rw [List.map_cons, printEntries, printEntries, formatEntry_printed, ih]

end

theorem printEntries_complete (k : Nat) {es : List TraceEntry} (h : ∀ e ∈ es, e.Complete) :
    (printEntries k es).2 = none := by
  induction es generalizing k with
  | nil => rfl
  | cons e es ih =>
      rw [List.forall_mem_cons] at h
      obtain ⟨ps, hps⟩ := formatEntry_complete k h.1
      rw [printEntries_cons es hps]
      exact ih (k + 1) h.2

/-- What can follow the lines of the entries: nothing if the reader raised, and the
last line otherwise. -/
def DumpEnd (text : List UInt8) : Prop := text = [] ∨ ∃ n, text = trailer n

/-- A line starts with a digit, and the last line does not. -/
theorem DumpEnd.ne_line {text : List UInt8} (h : DumpEnd text) {k : Nat} {e : TraceEntry}
    {ps : List Piece} {rest : List UInt8} (hps : formatEntry k e = .ok ps) :
    text ≠ render (ps ++ [lit "\n"]) ++ rest := by
  obtain ⟨ps₀, -, hline⟩ := render_line hps
  obtain ⟨c, cs, hcs⟩ := List.exists_cons_of_ne_nil (Decimal.numerals.text_ne_nil k)
  have hdigit : Decimal.isDigit c = true :=
    Decimal.numerals.accepts_of_mem_text (n := k) (by simp [hcs])
  have hhead : (render (ps ++ [lit "\n"]) ++ rest).head? = some c := by
    rw [hline]
    simp [dec, Piece.render, hcs]
  rintro rfl
  rcases h with hnil | ⟨n, htrailer⟩
  · rw [hnil] at hhead
    cases hhead
  · have hc : some 85 = some c := by
      rw [← hhead, htrailer]
      rfl
    cases hc
    exact absurd hdigit (by decide)

/-- The text determines the entries and what follows them. -/
theorem printed_of_text {es es' : List TraceEntry} {text text' : List UInt8} (k : Nat)
    (h : ∀ e ∈ es, e.Complete) (h' : ∀ e ∈ es', e.Complete) (hc : DumpEnd text)
    (hc' : DumpEnd text')
    (heq : (printEntries k es).1 ++ text = (printEntries k es').1 ++ text') :
    es.map TraceEntry.printed = es'.map TraceEntry.printed ∧ text = text' := by
  induction es generalizing es' k with
  | nil =>
      cases es' with
      | nil => exact ⟨rfl, heq⟩
      | cons e' es' =>
          rw [List.forall_mem_cons] at h'
          obtain ⟨qs, hqs⟩ := formatEntry_complete k h'.1
          rw [printEntries_cons es' hqs, List.append_assoc] at heq
          exact absurd heq (hc.ne_line hqs)
  | cons e es ih =>
      rw [List.forall_mem_cons] at h
      obtain ⟨ps, hps⟩ := formatEntry_complete k h.1
      rw [printEntries_cons es hps, List.append_assoc] at heq
      cases es' with
      | nil => exact absurd heq.symm (hc'.ne_line hps)
      | cons e' es' =>
          rw [List.forall_mem_cons] at h'
          obtain ⟨qs, hqs⟩ := formatEntry_complete k h'.1
          rw [printEntries_cons es' hqs, List.append_assoc] at heq
          obtain ⟨hprinted, hrest⟩ := line_cancel h.1 h'.1 hps hqs heq
          obtain ⟨hprinted', htext⟩ := ih (k + 1) h.2 h'.2 hrest
          exact ⟨by rw [List.map_cons, List.map_cons, hprinted, hprinted'], htext⟩

end Coldtrace
