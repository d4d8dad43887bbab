import Mathlib.Data.List.Basic
import Mathlib.Data.List.Infix
import Mathlib.Tactic.Common
import Coldtrace.Lib.CString
import Coldtrace.Lib.Decimal
import Coldtrace.Lib.Collect

/-!
# The copies of the mapped files

The model of `copy_mapped_files_` in `procmaps.c`.  It reads the copy of
`/proc/self/maps` line by line and copies the file that a line names, so that a
trace can be symbolised elsewhere.  A file is mapped several times, and copied
once: the paths that were copied are appended to a buffer, and a path that
`strstr` finds there is skipped.

The search finds more than the paths that were copied.  After
`/usr/lib/a.so`, the file `/lib/a.so` is skipped.  A line of more than 255
bytes is read in several pieces, and each piece with a slash counts as a path.
`each_file_copied_once_iff` says for which contents neither does any harm.
-/

namespace Coldtrace

open CString Collect
open Decimal (ascii)

/-! ## The function -/

/-- `MAX_LINE_LENGTH`. -/
def maxLineLength : Nat := 256

/-- `MAX_PATH_LENGTH`. -/
def maxPathLength : Nat := 1024

/-- The size of `unique`, where `MAX_UNIQUE_PATHS` is 1000. -/
def uniqueSize : Nat := maxPathLength * 1000

def slash : UInt8 := 47

def colon : UInt8 := 58

/-- `has_ext`. -/
def hasExt (fname ext : List UInt8) : Bool :=
  match strrchr fname 46 with
  | none => false
  | some base => base == ext

/-- The calls of the function to its helpers. -/
inductive FileCall where
  | mkdir (path : List UInt8)
  | cp (src dst : List UInt8)
deriving DecidableEq, Repr

def FileCall.source : FileCall → Option (List UInt8)
  | .mkdir _ => none
  | .cp src _ => some src

/-- Which calls of `mkdir_` and `cp_` return 0. -/
structure CopyOutcomes where
  mkdir : List UInt8 → Bool := fun _ => true
  cp : List UInt8 → List UInt8 → Bool := fun _ _ => true

/-- All calls succeed. -/
structure CopyOutcomes.Succeed (o : CopyOutcomes) : Prop where
  mkdir : ∀ path, o.mkdir path = true
  cp : ∀ src dst, o.cp src dst = true

/-- The variables of the function, and the calls it made. -/
structure Copies where
  unique : List UInt8 := []
  ret : Int := 0
  calls : List FileCall := []
deriving DecidableEq, Repr

/-- The paths that were passed to `cp_`. -/
def Copies.copied (st : Copies) : List (List UInt8) := st.calls.filterMap FileCall.source

def Copies.called (st : Copies) (call : FileCall) : Copies :=
  { st with calls := st.calls ++ [call] }

/-- What the loop does after a line.  Appending to a buffer that is full is not
defined. -/
inductive AfterLine where
  | next (st : Copies)
  | stop (st : Copies)
  | overflow
deriving DecidableEq, Repr

/-- `snprintf(dst, sizeof(dst), "%s%s", path, src)`. -/
def destination (path src : List UInt8) : List UInt8 := (path ++ src).take (maxPathLength - 1)

/-- The directory of the destination is created. -/
def makeDirectory (o : CopyOutcomes) (dst : List UInt8) (st : Copies) : Bool × Copies :=
  match strrchr dst slash with
  | none => (true, st)
  | some base =>
      let dir := dst.take (dst.length - base.length)
      (o.mkdir dir, st.called (.mkdir dir))

/-- The body of the loop. -/
def copyLine (o : CopyOutcomes) (path : List UInt8) (st : Copies) (line : List UInt8) :
    AfterLine :=
  match strchr (ofBuffer line) slash with
  | none => .next st
  | some src =>
      let src := upTo src newline
      if strstr st.unique src then .next st
      else if hasExt src (ascii ".bin") then .next st
      else
        let dst := destination path src
        match makeDirectory o dst st with
        | (false, st) => .stop { st with ret := -1 }
        | (true, st) =>
            let st := st.called (.cp src dst)
            if !o.cp src dst then .next { st with ret := -1 }
            else if uniqueSize ≤ (st.unique ++ colon :: src).length then .overflow
            else .next { st with unique := st.unique ++ colon :: src }

/-- The loop. -/
def copyLines (o : CopyOutcomes) (path : List UInt8) :
    Nat → Copies → List UInt8 → Option Copies
  | 0, _, _ => none
  | fuel + 1, st, stream =>
      match fgets maxLineLength stream with
      | none => some st
      | some (line, stream) =>
          match copyLine o path st line with
          | .next st => copyLines o path fuel st stream
          | .stop st => some st
          | .overflow => none

/-- `copy_mapped_files_`, on the content of `maps` or on `none` where it cannot be
opened. -/
def copyMappedFiles (o : CopyOutcomes) (path : List UInt8) (maps : Option (List UInt8)) :
    Option Copies :=
  match maps with
  | none => some { ret := -1 }
  | some stream => copyLines o path (stream.length + 1) {} stream

/-! ## What is to be copied -/

/-- The paths of the lines, without those of trace files. -/
def mappedPaths (content : List UInt8) : List (List UInt8) :=
  (content.splitOn newline).filterMap fun line =>
    (strchr line slash).filter fun path => !decide (ascii ".bin" <:+ path)

/-- The files to copy, in the order of the lines that name them first. -/
def mappedFiles (content : List UInt8) : List (List UInt8) := (mappedPaths content).eraseDups

/-- Each mapped file is copied once, in the order of the lines. -/
def CopiesEachOnce (o : CopyOutcomes) (path content : List UInt8) : Prop :=
  ∃ st, copyMappedFiles o path (some content) = some st ∧ st.copied = mappedFiles content

/-- The text of the paths in `unique`. -/
def joinedPaths (paths : List (List UInt8)) : List UInt8 := paths.flatMap (colon :: ·)

/-- The path in a piece of the content that was read. -/
def readPath (piece : List UInt8) : Option (List UInt8) :=
  ((strchr (ofBuffer piece) slash).map (upTo · newline)).filter fun path =>
    !decide (ascii ".bin" <:+ path)

/-- The paths in the pieces of the content. -/
def readPaths (content : List UInt8) : List (List UInt8) :=
  (pieces maxLineLength content).filterMap readPath

/-- The files are read apart from each other. -/
structure ReadApart (files read : List (List UInt8)) : Prop where
  /-- Each of them is read as a whole, in the order of the lines. -/
  whole : firsts files read = files
  /-- When it is first read, it is not a part of the text of those read before. -/
  apart : ∀ i (h : i < read.length), read[i] ∈ files → read[i] ∉ read.take i →
    ¬ read[i] <:+: joinedPaths (firsts files (read.take i))
  /-- A path that is read and is none of them is a part of that text. -/
  hidden : ∀ i (h : i < read.length), read[i] ∉ files →
    read[i] <:+: joinedPaths (firsts files (read.take i))

instance (files read : List (List UInt8)) : Decidable (ReadApart files read) :=
  decidable_of_iff
    (firsts files read = files ∧
      (∀ i (h : i < read.length), read[i] ∈ files → read[i] ∉ read.take i →
        ¬ read[i] <:+: joinedPaths (firsts files (read.take i))) ∧
      ∀ i (h : i < read.length), read[i] ∉ files →
        read[i] <:+: joinedPaths (firsts files (read.take i)))
    ⟨fun ⟨hw, ha, hh⟩ => ⟨hw, ha, hh⟩, fun ⟨hw, ha, hh⟩ => ⟨hw, ha, hh⟩⟩

/-! ## One line -/

theorem hasExt_iff {fname : List UInt8} :
    hasExt fname (ascii ".bin") = true ↔ ascii ".bin" <:+ fname := by
  have hext : ascii ".bin" = 46 :: ascii "bin" := rfl
  rw [hext, ← strrchr_eq_some_iff (by decide), hasExt]
  cases strrchr fname 46 with
  | none => simp
  | some base => simp

/-- What the search in `unique` finds. -/
def found (copied : List (List UInt8)) (path : List UInt8) : Bool :=
  strstr (joinedPaths copied) path

theorem joinedPaths_append (l l' : List (List UInt8)) :
    joinedPaths (l ++ l') = joinedPaths l ++ joinedPaths l' :=
  List.flatMap_append ..

theorem joinedPaths_concat (l : List (List UInt8)) (path : List UInt8) :
    joinedPaths (l ++ [path]) = joinedPaths l ++ colon :: path := by
  rw [joinedPaths_append]
  simp [joinedPaths]

theorem length_joinedPaths_le {l l' : List (List UInt8)} (h : l <+: l') :
    (joinedPaths l).length ≤ (joinedPaths l').length := by
  obtain ⟨more, rfl⟩ := h
  rw [joinedPaths_append, List.length_append]
  exact Nat.le_add_right ..

theorem search_found : Search found where
  mem copied path h := by
    obtain ⟨before, after, rfl⟩ := List.append_of_mem h
    refine decide_eq_true ⟨joinedPaths before ++ [colon], joinedPaths after, ?_⟩
    rw [joinedPaths_append]
    simp [joinedPaths]
  mono copied more path h := by
    refine decide_eq_true ((of_decide_eq_true h).trans ?_)
    rw [joinedPaths_append]
    exact (List.prefix_append ..).isInfix

/-- What the body does to the variables, where all calls succeed. -/
inductive Handled (st : Copies) (line : List UInt8) : AfterLine → Prop where
  | skipped : readPath line = none → Handled st line (.next st)
  | found (path : List UInt8) : readPath line = some path → found st.copied path = true →
      Handled st line (.next st)
  | copied (path : List UInt8) (st' : Copies) : readPath line = some path →
      ¬ Coldtrace.found st.copied path = true → st'.copied = st.copied ++ [path] →
      st'.unique = joinedPaths st'.copied → st'.unique.length < uniqueSize →
      Handled st line (.next st')
  | overflow (path : List UInt8) : readPath line = some path →
      ¬ Coldtrace.found st.copied path = true →
      uniqueSize ≤ (joinedPaths (st.copied ++ [path])).length → Handled st line .overflow

section

variable {o : CopyOutcomes} {st : Copies}

theorem makeDirectory_spec (ho : o.Succeed) (dst : List UInt8) (st : Copies) :
    ∃ st', makeDirectory o dst st = (true, st') ∧ st'.unique = st.unique ∧
      st'.copied = st.copied := by
  rw [makeDirectory]
  split
  next => exact ⟨st, rfl, rfl, rfl⟩
  next base _ =>
    dsimp only
    rw [ho.mkdir]
    exact ⟨_, rfl, rfl, by simp [Copies.copied, Copies.called, FileCall.source]⟩

theorem copyLine_spec (ho : o.Succeed) (path line : List UInt8)
    (hst : st.unique = joinedPaths st.copied) : Handled st line (copyLine o path st line) := by
  rw [copyLine]
  cases hsrc : strchr (ofBuffer line) slash with
  | none => exact .skipped (by rw [readPath, hsrc]; rfl)
  | some rest =>
      dsimp only
      generalize hpath : upTo rest newline = src
      have hread : readPath line = if ascii ".bin" <:+ src then none else some src := by
        rw [readPath, hsrc, Option.map_some, hpath, Option.filter_some]
        by_cases hbin : ascii ".bin" <:+ src <;> simp [hbin]
      by_cases hbin : ascii ".bin" <:+ src
      · rw [if_pos hbin] at hread
        rw [if_pos (hasExt_iff.mpr hbin), ite_self]
        exact .skipped hread
      · rw [if_neg hbin] at hread
        rw [if_neg (fun h => hbin (hasExt_iff.mp h))]
        have hsearch : strstr st.unique src = found st.copied src := congrArg (strstr · src) hst
        rw [hsearch]
        by_cases hk : found st.copied src = true
        · rw [if_pos hk]
          exact .found src hread hk
        · rw [if_neg hk]
          obtain ⟨st₁, hmade, hunique, hcopied⟩ := makeDirectory_spec ho (destination path src) st
          have hjoined : st₁.unique ++ colon :: src = joinedPaths (st.copied ++ [src]) := by
            rw [hunique, hst, joinedPaths_concat]
          rw [hmade]
          dsimp only
          have hcalled : (st₁.called (.cp src (destination path src))).copied =
              st.copied ++ [src] := by
            rw [← hcopied]
            simp [Copies.copied, Copies.called, FileCall.source]
          generalize hst₂ : st₁.called (.cp src (destination path src)) = st₂ at hcalled
          have hunique₂ : st₂.unique ++ colon :: src = joinedPaths (st.copied ++ [src]) := by
            rw [← hst₂]
            exact hjoined
          rw [ho.cp, if_neg (show ¬ (!true) = true from Bool.false_ne_true), hunique₂]
          split
          next hfull => exact .overflow src hread hk hfull
          next hfull =>
            exact .copied src _ hread hk hcalled (congrArg joinedPaths hcalled.symm)
              (Nat.lt_of_not_le hfull)

/-! ## The loop -/

/-- The loop collects the paths of the pieces, as long as they fit in `unique`. -/
theorem copyLines_spec (ho : o.Succeed) (path : List UInt8) {fuel : Nat} {stream : List UInt8}
    (hfuel : stream.length < fuel) (hst : st.unique = joinedPaths st.copied)
    (hfit : st.unique.length < uniqueSize) :
    (copyLines o path fuel st stream).map Copies.copied =
      if (joinedPaths ((readPaths stream).foldl (add found) st.copied)).length < uniqueSize then
        some ((readPaths stream).foldl (add found) st.copied)
      else none := by
  have hsize : 2 ≤ maxLineLength := by decide
  induction fuel generalizing st stream with
  | zero => exact absurd hfuel (Nat.not_lt_zero _)
  | succ fuel ih =>
      rw [copyLines]
      cases hread : fgets maxLineLength stream with
      | none =>
          have hnil : stream = [] := by
            cases stream with
            | nil => rfl
            | cons c stream => cases hread
          subst hnil
          rw [hst] at hfit
          exact (if_pos hfit).symm
      | some read =>
          obtain ⟨line, rest⟩ := read
          have hlt := length_fgets hsize hread
          have hpieces : readPaths stream = (readPath line).toList ++ readPaths rest := by
            rw [readPaths, pieces_of_fgets hsize hread, List.filterMap_cons]
            cases readPath line <;> rfl
          have hspec := copyLine_spec ho path line hst
          dsimp only
          rw [hpieces, List.foldl_append]
          generalize copyLine o path st line = after at hspec
          cases hspec with
          | skipped hnone =>
              rw [hnone]
              exact ih (by omega) hst hfit
          | found p hp hk =>
              rw [hp, Option.toList_some, List.foldl_cons, List.foldl_nil, add_of_known hk]
              exact ih (by omega) hst hfit
          | copied p st' hp hk hcopied hunique hfit' =>
              rw [hp, Option.toList_some, List.foldl_cons, List.foldl_nil, add_of_new hk, ← hcopied]
              exact ih (by omega) hunique hfit'
          | overflow p hp hk hfull =>
              rw [hp, Option.toList_some, List.foldl_cons, List.foldl_nil, add_of_new hk]
              have hmore : st.copied ++ [p] <+: (readPaths rest).foldl (add found)
                  (st.copied ++ [p]) :=
                foldl_add_extends ..
              have hle := length_joinedPaths_le hmore
              exact (if_neg (by omega)).symm

end

/-- A content whose files fit in `unique` is copied as it should be exactly when
the loop collects its files. -/
theorem copiesEachOnce_iff {o : CopyOutcomes} (ho : o.Succeed) (path : List UInt8)
    {content : List UInt8} (htotal : (joinedPaths (mappedFiles content)).length < uniqueSize) :
    CopiesEachOnce o path content ↔ collect found (readPaths content) = mappedFiles content := by
  have hspec : (copyMappedFiles o path (some content)).map Copies.copied =
      if (joinedPaths (collect found (readPaths content))).length < uniqueSize then
        some (collect found (readPaths content))
      else none :=
    copyLines_spec ho path (Nat.lt_succ_self _) rfl (by decide)
  have hiff : CopiesEachOnce o path content ↔
      (copyMappedFiles o path (some content)).map Copies.copied = some (mappedFiles content) := by
    rw [Option.map_eq_some_iff]
    exact Iff.rfl
  rw [hiff, hspec]
  constructor
  · intro h
    split at h
    next => exact Option.some_inj.mp h
    next => cases h
  · intro h
    rw [h, if_pos htotal]

theorem collect_found_iff {files read : List (List UInt8)} :
    collect found read = files ↔ ReadApart files read := by
  rw [search_found.collect_eq_iff]
  constructor
  · rintro ⟨hwhole, hk⟩
    refine ⟨hwhole, fun i hi hmem hnew hpart => ?_, fun i hi hout => ?_⟩
    · exact ((hk i hi).mp (decide_eq_true hpart)).elim (· hmem) hnew
    · exact of_decide_eq_true ((hk i hi).mpr (.inl hout))
  · rintro ⟨hwhole, hapart, hhidden⟩
    refine ⟨hwhole, fun i hi => ⟨fun hpart => ?_, fun hor => ?_⟩⟩
    · by_contra hor
      rw [not_or, not_not] at hor
      exact hapart i hi hor.1 hor.2 (of_decide_eq_true hpart)
    · by_cases hmem : read[i] ∈ files
      · have hseen := hor.resolve_left (not_not.mpr hmem)
        exact search_found.mem _ _ (mem_firsts.mpr ⟨hseen, hmem⟩)
      · exact decide_eq_true (hhidden i hi hmem)

/-- With all calls succeeding, each mapped file is copied once exactly when the
files are read apart from each other. -/
theorem each_file_copied_once_iff (o : CopyOutcomes) (ho : o.Succeed) (path content : List UInt8)
    (htotal : (joinedPaths (mappedFiles content)).length < uniqueSize) :
    CopiesEachOnce o path content ↔ ReadApart (mappedFiles content) (readPaths content) := by
  rw [copiesEachOnce_iff ho path htotal, collect_found_iff]

/-- Two libraries with paths that are not part of each other, the first mapped
twice. -/
theorem two_libraries_copied_once :
    CopiesEachOnce {} (ascii "/t") (ascii "r /lib/a.so\nx /b.so\nx /lib/a.so\n") :=
  (each_file_copied_once_iff {} ⟨fun _ => rfl, fun _ _ => rfl⟩ _ _ (by decide)).mpr (by decide)

/-- The library `/lib/a.so` is not copied after `/usr/lib/a.so`. -/
theorem part_of_path_not_copied :
    let content := ascii "r /usr/lib/a.so\nr /lib/a.so\n"
    (joinedPaths (mappedFiles content)).length < uniqueSize ∧
      mappedFiles content = [ascii "/usr/lib/a.so", ascii "/lib/a.so"] ∧
      (copyMappedFiles {} (ascii "/t") (some content)).map Copies.copied =
        some [ascii "/usr/lib/a.so"] ∧
      ¬ CopiesEachOnce {} (ascii "/t") content := by
  have hcopied : (copyMappedFiles {} (ascii "/t")
      (some (ascii "r /usr/lib/a.so\nr /lib/a.so\n"))).map Copies.copied =
        some [ascii "/usr/lib/a.so"] := by decide
  refine ⟨by decide, by decide, hcopied, ?_⟩
  rintro ⟨st, hst, heq⟩
  rw [hst, Option.map_some, heq] at hcopied
  exact absurd hcopied (by decide)

/-! ## Lines that fit -/

/-- The lines fit in the buffer with their newlines, and are strings. -/
def ShortLines (content : List UInt8) : Prop :=
  ∀ line ∈ content.splitOn newline, line.length < maxLineLength - 1 ∧ 0 ∉ line

/-- Where the lines fit, the paths that are read are those of the lines. -/
theorem readPaths_of_short {content : List UInt8} (h : ShortLines content) :
    readPaths content = mappedPaths content := by
  refine filterMap_pieces (by decide) rfl fun line hline => ⟨(h line hline).1, fun hn => ?_⟩
  have h0 := (h line hline).2
  have h0' : 0 ∉ line ++ [newline] := by
    rw [List.mem_append, not_or]
    exact ⟨h0, by decide⟩
  rw [readPath, readPath, ofBuffer_eq_self h0, ofBuffer_eq_self h0',
    strchr_append_singleton (by decide)]
  cases hsrc : strchr line slash with
  | none => exact ⟨rfl, rfl⟩
  | some src =>
      have hnsrc : newline ∉ src := fun hmem => hn ((suffix_of_strchr hsrc).subset hmem)
      rw [Option.map_some, Option.map_some, Option.map_some, upTo_eq_self hnsrc, upTo_concat hnsrc]
      exact ⟨rfl, rfl⟩

/-- Paths that are all to be copied are read apart exactly when none is a part of
the text of those before it. -/
theorem readApart_eraseDups_iff {paths : List (List UInt8)} :
    ReadApart paths.eraseDups paths ↔ ∀ i (h : i < paths.length), paths[i] ∉ paths.take i →
      ¬ paths[i] <:+: joinedPaths (paths.take i).eraseDups := by
  have hfirsts : ∀ l, l ⊆ paths → firsts paths.eraseDups l = l.eraseDups := by
    intro l hl
    rw [firsts, List.filter_eq_self.mpr]
    exact fun p hp => decide_eq_true (List.mem_eraseDups.mpr (hl hp))
  have htake : ∀ i, firsts paths.eraseDups (paths.take i) = (paths.take i).eraseDups :=
    fun i => hfirsts _ (List.take_subset ..)
  have hmem : ∀ i (h : i < paths.length), paths[i] ∈ paths.eraseDups :=
    fun i h => List.mem_eraseDups.mpr (List.getElem_mem h)
  constructor
  · intro h i hi hnew
    rw [← htake]
    exact h.apart i hi (hmem i hi) hnew
  · intro h
    refine ⟨hfirsts _ (List.Subset.refl _), fun i hi _ hnew => ?_, fun i hi hout => ?_⟩
    · rw [htake]
      exact h i hi hnew
    · exact absurd (hmem i hi) hout

/-- Where the lines fit, each file is copied once exactly when no path is a part
of the text of the paths before it. -/
theorem copiesEachOnce_of_short {o : CopyOutcomes} (ho : o.Succeed) (path : List UInt8)
    {content : List UInt8} (h : ShortLines content)
    (htotal : (joinedPaths (mappedFiles content)).length < uniqueSize) :
    CopiesEachOnce o path content ↔ ∀ i (h : i < (mappedPaths content).length),
      (mappedPaths content)[i] ∉ (mappedPaths content).take i →
      ¬ (mappedPaths content)[i] <:+:
        joinedPaths ((mappedPaths content).take i).eraseDups := by
  rw [copiesEachOnce_iff ho path htotal, collect_found_iff, readPaths_of_short h, mappedFiles,
    readApart_eraseDups_iff]

end Coldtrace
