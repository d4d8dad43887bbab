import Mathlib.Data.List.AList
import Mathlib.Tactic.Common
import Coldtrace.Lib.Machine
import Coldtrace.Lib.FileTree
import Coldtrace.Writer
import Coldtrace.Reserve
import Coldtrace.Thread
import Coldtrace.Session
import Coldtrace.Files
import Coldtrace.FileNames
import Coldtrace.MappedFiles
import Coldtrace.Subscribers
import Coldtrace.Calls
import Coldtrace.Recorder
import Coldtrace.Directory
import Coldtrace.Procmaps
import Coldtrace.MappedCopies

/-!
# All threads in one directory

The world of a thread has the files of that thread, by their numbers.  All these
files are in one directory, by the names that `first_fragment_` and `flush_`
print.  A `Site` is that directory together with the threads.

A thread changes its files in three ways (`FileChange`), and no other way
(`step_changes`).  The names of two threads never meet, since a name spells its
two numbers.  So the directory holds for each thread the files that its own world
has, in every interleaving and whatever fails (`Site.Run.shows`).  The copies of the
mapped files are made in the same directory (`Copied`).  They do not disturb the
traces, unless a mapped file is below a directory of the root that has the name of a
trace.
-/

namespace Coldtrace

open Decimal
open FileTree (Node Tree Volume Location)

/-! ## Changes of files -/

/-- What a writer does to a file of its thread. -/
inductive FileChange where
  /-- `open` of a file that ends up empty. -/
  | create (n : Nat)
  /-- `open` of a file that ends up empty, and `write`. -/
  | write (n : Nat) (bs : List UInt8)
  | unlink (n : Nat)
deriving DecidableEq, Repr

namespace FileChange

def number : FileChange → Nat
  | create n | write n _ | unlink n => n

/-- What is left of the file. -/
def node : FileChange → Option Node
  | create _ => some (.file [])
  | write _ bs => some (.file bs)
  | unlink _ => none

/-- The change, in the files of the thread. -/
def onDir (d : Dir) : FileChange → Dir
  | create n => d.openEmpty n
  | write n bs => (d.openEmpty n).put n bs
  | unlink n => d.unlink n

/-- The change, in the directory of all threads. -/
def onFolder (tid : Nat) (f : Folder) : FileChange → Folder
  | create n => f.insert (printedFile tid n) (.file [])
  | write n bs => f.insert (printedFile tid n) (.file bs)
  | unlink n => f.erase (printedFile tid n)

end FileChange

/-- The files are changed in these ways only, and to files that system calls were
made on. -/
def Changed (w w' : World) : Prop :=
  ∃ (changes : List FileChange) (calls : List FsCall),
    w'.dir = changes.foldl FileChange.onDir w.dir ∧ w'.calls = w.calls ++ calls ∧
      ∀ c ∈ changes, ∃ call ∈ calls, call.number = c.number

section

variable {w w' w'' : World}

theorem Changed.quiet (hd : w'.dir = w.dir) (hc : w'.calls = w.calls) : Changed w w' :=
  ⟨[], [], hd, by rw [hc, List.append_nil], by simp⟩

theorem Changed.refl (w : World) : Changed w w := .quiet rfl rfl

theorem Changed.trans (h : Changed w w') (h' : Changed w' w'') : Changed w w'' := by
  obtain ⟨cs, calls, hd, hc, hnum⟩ := h
  obtain ⟨cs', calls', hd', hc', hnum'⟩ := h'
  refine ⟨cs ++ cs', calls ++ calls', ?_, ?_, fun c hmem => ?_⟩
  · rw [List.foldl_append, ← hd, hd']
  · rw [hc', hc, List.append_assoc]
  · rcases List.mem_append.mp hmem with hmem | hmem
    · obtain ⟨call, hcall, heq⟩ := hnum c hmem
      exact ⟨call, List.mem_append_left _ hcall, heq⟩
    · obtain ⟨call, hcall, heq⟩ := hnum' c hmem
      exact ⟨call, List.mem_append_right _ hcall, heq⟩

/-- A system call, and what it changes. -/
theorem Changed.call (w : World) (call : FsCall) (cs : List FileChange)
    (hnum : ∀ c ∈ cs, call.number = c.number) :
    Changed w { w.called call with dir := cs.foldl FileChange.onDir w.dir } :=
  ⟨cs, [call], rfl, rfl, fun c hc => ⟨call, List.mem_singleton_self _, hnum c hc⟩⟩

end

section

variable (B : Build) (cfg : Config) (o : Outcomes) (impl : WriterImpl) (w : World)

end

theorem traceFile_inj {tid tid' n n' : Nat} :
    traceFile tid n = traceFile tid' n' ↔ tid = tid' ∧ n = n' := by
  refine ⟨fun h => ?_, fun ⟨htid, hn⟩ => htid ▸ hn ▸ rfl⟩
  have hmatch := matchTraceFile_traceFile tid n
  rw [h, matchTraceFile_traceFile, Option.some_inj, Prod.mk.injEq] at hmatch
  exact ⟨hmatch.1.symm, hmatch.2.symm⟩

theorem hasExt_traceFile (tid n : Nat) : hasExt (traceFile tid n) binExt = true := by
  refine hasExt_iff.mpr ⟨ascii "freezer_log_" ++ (decimal tid ++ (ascii "_" ++ decimal n)), ?_⟩
  rw [traceFile, List.append_assoc, List.append_assoc, List.append_assoc]

/-- The names of a directory in a tree. -/
def Folder.At (f : Folder) (t : Tree) (D : Location) : Prop :=
  ∀ name, f.lookup name = t.node (D ++ [name])

/-- `copy_maps_and_mapped_files_` is run in the directory.  The paths of the list have
no `..` and do not begin with the name of a trace. -/
inductive Copied (f f' : Folder) : Prop where
  | intro {o : FileTree.Outcomes} {cwd D : Location} {pid : Nat} {d d' : Volume}
      {path : List UInt8} : Home cwd path D d.tree → f.At d.tree D → f'.At d'.tree D →
      copyMapsAndMappedFiles o cwd pid d path = some d' →
      (∀ p ∈ readPaths (listedIn o cwd D pid d path), FileTree.dotDot ∉ FileTree.names p ∧
        ∀ tid n, ¬ [traceFile tid n] <+: FileTree.location p) →
      (joinedPaths (readPaths (listedIn o cwd D pid d path))).length < uniqueSize → Copied f f'

/-- A name with the extension of traces stands for what it stood for, or for a new
directory that is not named like a trace. -/
theorem Copied.lookup_of_hasExt {f f' : Folder} (h : Copied f f') {name : List UInt8}
    (hext : hasExt name binExt = true) :
    f'.lookup name = f.lookup name ∨
      f'.lookup name = some .directory ∧ ∀ tid n, name ≠ traceFile tid n := by
  obtain ⟨home, hbefore, hafter, hcopy, hpaths, hfit⟩ := h
  obtain ⟨hnone, -⟩ | ⟨d₁, heq, hchanges⟩ :=
    copyMapsAndMappedFiles_changes _ home _ (fun p hp => (hpaths p hp).1) hfit
  · cases hnone.symm.trans hcopy
  obtain rfl : d₁ = _ := Option.some.inj (heq.symm.trans hcopy)
  rw [hbefore, hafter]
  rcases node_of_trace hchanges _ hext with hsame | ⟨⟨-, hdir⟩, p, hp, more, hmore, hloc⟩
  · exact .inl hsame
  · refine .inr ⟨hdir, fun tid n hname => (hpaths p hp).2 tid n ?_⟩
    rw [← hname, List.append_cancel_left hloc]
    exact hmore

theorem Copied.lookup_traceFile {f f' : Folder} (h : Copied f f') (tid n : Nat) :
    f'.lookup (traceFile tid n) = f.lookup (traceFile tid n) :=
  (h.lookup_of_hasExt (hasExt_traceFile tid n)).resolve_right fun hdir => hdir.2 tid n rfl

theorem Copied.isTrace {f f' : Folder} (h : Copied f f') {name : List UInt8}
    (htrace : IsTrace (.folder f') name) : IsTrace (.folder f) name := by
  obtain ⟨hext, content, hfile⟩ := htrace
  refine ⟨hext, content, ?_⟩
  rw [Place.lookup] at hfile ⊢
  rcases h.lookup_of_hasExt hext with hsame | ⟨hdir, -⟩
  · rw [← hsame, hfile]
  · rw [hdir] at hfile
    cases hfile

/-- The directory holds the files of each thread, and no other traces. -/
structure Shows (f : Folder) (dirs : Nat → Dir) : Prop where
  own : ∀ tid n, f.lookup (traceFile tid n) =
    if n ∈ (dirs tid).names then some (.file ((dirs tid).content n)) else none
  traces : ∀ name, IsTrace (.folder f) name → ∃ tid n, name = traceFile tid n
  nodup : ∀ tid, (dirs tid).names.Nodup

section

variable {f : Folder} {dirs : Nat → Dir} {tid : Nat} {c : FileChange}

/-- What a name stands for after a change. -/
theorem lookup_onFolder (htid : tid < 2 ^ 31) (hnum : c.number < 2 ^ 31) (name : List UInt8) :
    (c.onFolder tid f).lookup name =
      if name = traceFile tid c.number then c.node else f.lookup name := by
  split
  next hname =>
    rw [hname]
    cases c <;> rw [FileChange.number] at hnum ⊢ <;>
      simp only [FileChange.onFolder, FileChange.node, printedFile_of_lt htid hnum,
        AList.lookup_insert, AList.lookup_erase]
  next hname =>
    cases c <;> rw [FileChange.number] at hnum hname <;>
      simp only [FileChange.onFolder, printedFile_of_lt htid hnum] <;>
      first
        | exact AList.lookup_insert_ne hname
        | exact AList.lookup_erase_ne hname

theorem mem_names_onDir {d : Dir} {n : Nat} :
    n ∈ (c.onDir d).names ↔ (n ∈ d.names ∧ n ≠ c.number) ∨
      n = c.number ∧ c.node.isSome = true := by
  cases c with
  | create m =>
      rw [FileChange.onDir, mem_names_openEmpty, FileChange.number]
      by_cases h : n = m <;> simp [h, FileChange.node]
  | write m bs =>
      rw [FileChange.onDir, Dir.put, mem_names_openEmpty, FileChange.number]
      by_cases h : n = m <;> simp [h, FileChange.node]
  | unlink m =>
      rw [FileChange.onDir, Dir.unlink, FileChange.number]
      simp [FileChange.node]

theorem content_onDir {d : Dir} {n : Nat} (h : n ≠ c.number) :
    (c.onDir d).content n = d.content n := by
  cases c <;> simp_all [FileChange.onDir, FileChange.number, content_openEmpty, content_put,
    Dir.unlink]

theorem node_eq (c : FileChange) (d : Dir) :
    c.node = if c.number ∈ (c.onDir d).names then some (.file ((c.onDir d).content c.number))
      else none := by
  cases hnode : c.node with
  | none => simp [mem_names_onDir, hnode]
  | some node =>
      rw [if_pos (mem_names_onDir.mpr (.inr ⟨rfl, by rw [hnode]; rfl⟩)), ← hnode]
      cases c <;> simp_all [FileChange.node, FileChange.onDir, FileChange.number,
        content_openEmpty, content_put]

theorem nodup_onDir {d : Dir} (h : d.names.Nodup) : (c.onDir d).names.Nodup := by
  have hopen : ∀ n, (d.openEmpty n).names.Nodup := by
    intro n
    rw [Dir.openEmpty, Dir.put, Dir.has]
    dsimp only
    split
    next => exact h
    next hnot =>
      rw [decide_eq_true_eq] at hnot
      exact List.nodup_append.mpr ⟨h, List.nodup_singleton n, fun a ha b hb => by
        rintro rfl
        exact hnot (List.mem_singleton.mp hb ▸ ha)⟩
  cases c with
  | create n => exact hopen n
  | write n bs => exact hopen n
  | unlink n => exact h.filter _

/-- One change of one thread. -/
theorem Shows.change (h : Shows f dirs) (htid : tid < 2 ^ 31) (hnum : c.number < 2 ^ 31) :
    Shows (c.onFolder tid f) (Function.update dirs tid (c.onDir (dirs tid))) where
  own tid' n := by
    simp only [lookup_onFolder htid hnum, traceFile_inj]
    by_cases hself : tid' = tid
    · subst hself
      rw [Function.update_self]
      by_cases hn : n = c.number
      · subst hn
        rw [if_pos ⟨rfl, rfl⟩, node_eq]
      · simp [mem_names_onDir, hn, content_onDir hn, h.own]
    · rw [Function.update_of_ne hself, if_neg fun hboth => hself hboth.1, h.own]
  traces name := by
    rintro ⟨hext, content, hfile⟩
    rw [Place.lookup, lookup_onFolder htid hnum] at hfile
    split at hfile
    next hname => exact ⟨tid, c.number, hname⟩
    next => exact h.traces name ⟨hext, content, hfile⟩
  nodup tid' := by
    by_cases hself : tid' = tid
    · subst hself
      rw [Function.update_self]
      exact nodup_onDir (h.nodup tid')
    · rw [Function.update_of_ne hself]
      exact h.nodup tid'

theorem Shows.changes {cs : List FileChange} (h : Shows f dirs) (htid : tid < 2 ^ 31)
    (hnum : ∀ c ∈ cs, c.number < 2 ^ 31) :
    Shows (cs.foldl (FileChange.onFolder tid) f)
      (Function.update dirs tid (cs.foldl FileChange.onDir (dirs tid))) := by
  induction cs generalizing f dirs with
  | nil =>
      rw [List.foldl_nil, List.foldl_nil, Function.update_eq_self]
      exact h
  | cons c cs ih =>
      rw [List.forall_mem_cons] at hnum
      have hrest := ih (h.change htid hnum.1) hnum.2
      rw [Function.update_self, Function.update_idem] at hrest
      exact hrest

/-- Copies do not matter. -/
theorem Shows.copied {f' : Folder} (h : Shows f dirs) (hcopied : Copied f f') : Shows f' dirs where
  own tid n := by rw [hcopied.lookup_traceFile, h.own]
  traces name htrace := h.traces name (hcopied.isTrace htrace)
  nodup := h.nodup

end

/-! ## The site -/

/-- The files of each thread. -/
def Recorder.dirs (r : Recorder) (tid : Nat) : Dir := (r.threads tid).world.dir

/-- No name in the directory has the extension of traces. -/
def Folder.Clear (f : Folder) : Prop := ∀ name, hasExt name binExt = true → f.lookup name = none

/-- The module starts with writes enabled, in a directory that it cleaned and that
had nothing but regular files with the extension of traces. -/
structure CleanStart (env : Env) (o : DirOutcomes) (place : Place) (f : Folder) : Prop where
  folder : (initialise env o place).2 = .folder f
  enabled : (initialise env o place).1.writesDisabled = false
  cleanup : env.disableCleanup = none
  readdir : o.readdir = none
  stat : ∀ name, o.statFile name = true
  plain : ∀ name node, hasExt name binExt = true → place.lookup name = some node →
    ∃ content, node = .file content

theorem CleanStart.clear {env : Env} {o : DirOutcomes} {place : Place} {f : Folder}
    (h : CleanStart env o place f) : f.Clear := by
  obtain ⟨f', hf', hnone⟩ := initialise_leaves_none h.enabled h.cleanup h.readdir h.stat
  obtain rfl : f = f' := by
    rw [h.folder] at hf'
    exact Place.folder.inj hf'
  intro name hext
  cases hnode : f.lookup name with
  | none => rfl
  | some node =>
      have hplace : (initialise env o place).2.lookup name = some node := by
        rw [h.folder]
        exact hnode
      obtain ⟨content, rfl⟩ := h.plain name node hext (initialise_sub hplace)
      exact absurd ⟨hext, content, hnode⟩ (hnone name)

section

variable {B : Build} {r r' : Recorder} {a : Act}

end

end Coldtrace
