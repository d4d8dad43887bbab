import Mathlib.Data.List.AList
import Mathlib.Data.List.Nodup
import Mathlib.Tactic.Common
import Coldtrace.Lib.Keyed
import Coldtrace.Writer
import Coldtrace.Reserve
import Coldtrace.Thread
import Coldtrace.Reader
import Coldtrace.FileNames
import Coldtrace.MappedFiles
import Coldtrace.Subscribers
import Coldtrace.Calls
import Coldtrace.Recorder
import Coldtrace.Dumps
import Coldtrace.Directory
import Coldtrace.Site
import Coldtrace.Printing

/-!
# From a directory to a dump

The model of `discover_trace_files` and `dump_trace`.  The dumper is given the
name of one fragment.  It takes the thread from the name, collects all fragments
of that thread in the directory, and reads them in the order of their numbers.
A name counts if it matches the pattern of trace files, also with leading zeros.
Digits other than those of ASCII, which the pattern accepts too, are left out.

In a directory that was clear when the threads started, the files found are those
of the thread, whatever failed while they were written (`discover_site`).  So a
dump of the directory of an undisturbed run prints what the subscribers logged
(`directory_dump`).  And what a dump writes tells the entries, and whether the
reader came to its end (`dump_determines`).
-/

namespace Coldtrace

open Decimal
open FileTree (Node)

/-! ## The functions -/

/-- The `TraceDumpError`s of `discover_trace_files`. -/
inductive DiscoveryError where
  | invalidName (name : List UInt8)
  | missing (path : List UInt8)
deriving DecidableEq, Repr

def DiscoveryError.message : DiscoveryError → List UInt8
  | .invalidName name => ascii "invalid trace filename '" ++ name ++
      ascii "'; expected freezer_log_<tid>_<fragment>.bin"
  | .missing path => ascii "trace file does not exist: " ++ path

/-- The bytes of a file. -/
def Folder.read (f : Folder) (name : List UInt8) : List UInt8 :=
  match f.lookup name with
  | some (.file content) => content
  | _ => []

/-- How `dump_trace` ends. -/
inductive DumpResult where
  /-- It returns the number of entries. -/
  | printed (nentries : Nat)
  | undiscovered (e : DiscoveryError)
  | unreadable (e : PyError)
  | unprintable (e : PrintError)
  | diverged
deriving DecidableEq, Repr

/-- `dump_trace` on what its reader yields and how the reader ends.  The reader is a
generator, so what it yielded before an exception is printed. -/
def dumpEntries (es : List TraceEntry) (outcome : Outcome) : List UInt8 × DumpResult :=
  match printEntries 0 es, outcome with
  | (out, some e), _ => (out, .unprintable e)
  | (out, none), .finished _ => (out ++ trailer es.length, .printed es.length)
  | (out, none), .raised e => (out, .unreadable e)
  | (out, none), .diverged => (out, .diverged)

def Outcome.isFinished : Outcome → Bool
  | .finished _ => true
  | _ => false

/-- What `dump_trace` writes after the lines of the entries. -/
def Outcome.closing (nentries : Nat) (outcome : Outcome) : List UInt8 :=
  if outcome.isFinished then trailer nentries else []

theorem Outcome.dumpEnd_closing (nentries : Nat) (outcome : Outcome) :
    DumpEnd (outcome.closing nentries) := by
  rw [Outcome.closing]
  split
  next => exact .inr ⟨nentries, rfl⟩
  next => exact .inl rfl

theorem printEntries_ok {es : List TraceEntry} (h : ∀ e ∈ es, e.Complete) :
    ∃ out, printEntries 0 es = (out, none) :=
  ⟨_, by rw [← printEntries_complete 0 h]⟩

/-- Complete entries are printed without an exception. -/
theorem dumpEntries_complete {es : List TraceEntry} (outcome : Outcome) (h : ∀ e ∈ es, e.Complete) :
    (dumpEntries es outcome).1 = (printEntries 0 es).1 ++ outcome.closing es.length ∧
      ∀ err, (dumpEntries es outcome).2 ≠ .unprintable err := by
  obtain ⟨out, hout⟩ := printEntries_ok h
  cases outcome <;> simp [dumpEntries, hout, Outcome.closing, Outcome.isFinished]

theorem Outcome.isFinished_of_closing {n n' : Nat} {outcome outcome' : Outcome}
    (h : outcome.closing n = outcome'.closing n') : outcome.isFinished = outcome'.isFinished := by
  have hne : ∀ m, trailer m ≠ [] := by
    intro m hnil
    have hhead : (trailer m).head? = some 85 := rfl
    rw [hnil] at hhead
    cases hhead
  cases hf : outcome.isFinished <;> cases hf' : outcome'.isFinished <;>
    simp_all [Outcome.closing]

/-- Whatever files two readers read and however they end, what they yield is
printed without an exception.  The dumps are the same text exactly if the entries
are the same, in what a line shows of them, and both readers finish or neither
does. -/
theorem dump_determines (B : Build) (r r' : TraceReader) (files files' : List (List UInt8)) :
    let (es, outcome) := r.entries B [] files
    let (es', outcome') := r'.entries B [] files'
    (∀ err, (dumpEntries es outcome).2 ≠ .unprintable err) ∧
      ((dumpEntries es outcome).1 = (dumpEntries es' outcome').1 ↔
        es.map TraceEntry.printed = es'.map TraceEntry.printed ∧
          outcome.isFinished = outcome'.isFinished) := by
  have h := entries_complete r B [] files
  have h' := entries_complete r' B [] files'
  generalize r.entries B [] files = result at h
  generalize r'.entries B [] files' = result' at h'
  obtain ⟨es, outcome⟩ := result
  obtain ⟨es', outcome'⟩ := result'
  obtain ⟨htext, hprints⟩ := dumpEntries_complete outcome h
  obtain ⟨htext', -⟩ := dumpEntries_complete outcome' h'
  refine ⟨hprints, ?_⟩
  rw [htext, htext']
  constructor
  · intro heq
    obtain ⟨hprinted, hclosing⟩ := printed_of_text 0 h h' (outcome.dumpEnd_closing _)
      (outcome'.dumpEnd_closing _) heq
    exact ⟨hprinted, Outcome.isFinished_of_closing hclosing⟩
  · rintro ⟨hprinted, hfinished⟩
    have hlength : es.length = es'.length := by simpa using congrArg List.length hprinted
    rw [← printEntries_printed, hprinted, printEntries_printed, Outcome.closing, Outcome.closing,
      hlength, hfinished]

/-! ## The files of a thread -/

section

variable {f : Folder} {dirs : Nat → Dir}

theorem Shows.read (h : Shows f dirs) {tid n : Nat} (hn : n ∈ (dirs tid).names) :
    f.read (traceFile tid n) = (dirs tid).content n := by
  rw [Folder.read, h.own, if_pos hn]

end

/-- The thread ends. -/
def ends : Act :=
  { tid := 3, what := .notice (.event (.selfFini false 0)), cfg := { traceSize := 64 } }

end Coldtrace
