import Mathlib.Data.List.Basic
import Mathlib.Data.List.Infix
import Mathlib.Tactic.Common
import Coldtrace.Lib.CString
import Coldtrace.Lib.Decimal
import Coldtrace.Lib.FileTree
import Coldtrace.Config
import Coldtrace.MappedFiles

/-!
# Copying on the volume

The rest of `procmaps.c`: `mkdir_`, `cp_`, `copy_proc_maps_`, and
`copy_mapped_files_` with what it does to the volume.  In `MappedFiles` the calls of
`mkdir_` and `cp_` have given outcomes.  Here they are made on a tree of files, and
`copyMappedFilesOn_calls` says that the two models agree where nothing fails.

A function gives `none` where the model does not say how it ends: it opens a device
or a pipe, or it writes behind the end of `unique`.

Each function has one specification: where `mkdir_` makes directories, the ways `cp_`
can end (`Cp`), and the ways the body of the loop can end (`LineOn`).
-/

namespace Coldtrace

open CString FileTree
open Decimal (ascii)

/-! ## The functions -/

/-- `MAX_BUFFER_SIZE`. -/
def maxBufferSize : Nat := 4096

section

variable (o : FileTree.Outcomes) (cwd : Location)

/-- The loop of `mkdir_`.  `before` is the part of the path before `p`. -/
def mkdirLoop : List UInt8 → List UInt8 → Volume → Bool × Volume
  | _, [], d => (true, d)
  | before, c :: rest, d =>
      if c = slash then
        match d.mkdir o cwd before with
        | (false, d) => (false, d)
        | (true, d) => mkdirLoop (before ++ [c]) rest d
      else mkdirLoop (before ++ [c]) rest d

/-- `mkdir_`.  The first byte of the path is not looked at. -/
def mkdir (d : Volume) (path : List UInt8) : Bool × Volume :=
  let temp := path.take (maxPathLength - 1)
  let temp := if temp.getLast? = some slash then temp.dropLast else temp
  match mkdirLoop o cwd (temp.take 1) (temp.drop 1) d with
  | (false, d) => (false, d)
  | (true, d) => d.mkdir o cwd temp

/-- The loop of `cp_`, from an offset in the source on. -/
def cpLoop (fsrc fdst : Location) : Nat → Nat → Volume → Option Volume
  | 0, _, _ => none
  | fuel + 1, offset, d =>
      let (bytes, d) := d.read o fsrc offset maxBufferSize
      if bytes = [] then some d
      else cpLoop fsrc fdst fuel (offset + bytes.length) (d.append o fdst bytes)

/-- `cp_`.  It does not look at what `fwrite` returns, nor at why `fread` gives no more
bytes. -/
def cp (d : Volume) (src dst : List UInt8) : Option (Bool × Volume) :=
  match d.openRead o cwd src with
  | (none, d) => some (false, d)
  | (some fsrc, d) =>
      if d.tree.node fsrc = some .special then none
      else
        match d.openWrite o cwd dst with
        | (none, d) => some (false, d)
        | (some fdst, d) =>
            if d.tree.node fdst = some .special then none
            else (cpLoop o fsrc fdst ((d.tree.bytes fsrc).length + 1) 0 d).map (true, ·)

/-- The list of mappings. -/
def kernelMaps (pid : Nat) : List UInt8 := ascii "/proc/" ++ Decimal.decimal pid ++ ascii "/maps"

/-- The copy of the list of mappings. -/
def procMaps (path : List UInt8) : List UInt8 := (path ++ ascii "/maps").take (maxPathLength - 1)

/-- `copy_proc_maps_`. -/
def copyProcMaps (pid : Nat) (d : Volume) (path : List UInt8) : Option (Bool × Volume) :=
  match mkdir o cwd d path with
  | (false, d) => some (false, d)
  | (true, d) => cp o cwd d (kernelMaps pid) (procMaps path)

/-- The directory of the destination is created. -/
def makeDirectoryOn (dst : List UInt8) (st : Copies) (d : Volume) : Bool × Copies × Volume :=
  match strrchr dst slash with
  | none => (true, st, d)
  | some base =>
      let dir := dst.take (dst.length - base.length)
      let (ok, d) := mkdir o cwd d dir
      (ok, st.called (.mkdir dir), d)

/-- The body of the loop of `copy_mapped_files_`. -/
def copyLineOn (path : List UInt8) (st : Copies) (d : Volume) (line : List UInt8) :
    Option (AfterLine × Volume) :=
  match strchr (ofBuffer line) slash with
  | none => some (.next st, d)
  | some src =>
      let src := upTo src newline
      if strstr st.unique src then some (.next st, d)
      else if hasExt src (ascii ".bin") then some (.next st, d)
      else
        let dst := destination path src
        match makeDirectoryOn o cwd dst st d with
        | (false, st, d) => some (.stop { st with ret := -1 }, d)
        | (true, st, d) =>
            let st := st.called (.cp src dst)
            match cp o cwd d src dst with
            | none => none
            | some (false, d) => some (.next { st with ret := -1 }, d)
            | some (true, d) =>
                if uniqueSize ≤ (st.unique ++ colon :: src).length then some (.overflow, d)
                else some (.next { st with unique := st.unique ++ colon :: src }, d)

/-- The loop.  `fgets` gives `NULL` at the end of the list, and where a read fails. -/
def copyLinesOn (path : List UInt8) :
    Nat → Copies → Volume → List UInt8 → Option (Copies × Volume)
  | 0, _, _, _ => none
  | fuel + 1, st, d, stream =>
      if (o.read d.clock).isSome then some (st, d.tick)
      else
        match fgets maxLineLength stream with
        | none => some (st, d.tick)
        | some (line, stream) =>
            match copyLineOn o cwd path st d.tick line with
            | some (.next st, d) => copyLinesOn path fuel st d stream
            | some (.stop st, d) => some (st, d)
            | some (.overflow, _) => none
            | none => none

/-- `copy_mapped_files_`.  The list is taken as it is when it is opened.  That a mapped
file `/maps` is copied onto the list while it is read is left out. -/
def copyMappedFilesOn (d : Volume) (path : List UInt8) : Option (Copies × Volume) :=
  match d.openRead o cwd (procMaps path) with
  | (none, d) => some ({ ret := -1 }, d)
  | (some file, d) =>
      if d.tree.node file = some .special then none
      else copyLinesOn o cwd path ((d.tree.bytes file).length + 1) {} d (d.tree.bytes file)

/-- `copy_maps_and_mapped_files_`, without the flag. -/
def copyMapsAndMappedFiles (pid : Nat) (d : Volume) (path : List UInt8) : Option Volume :=
  if path = [] then some d
  else
    match copyProcMaps o cwd pid d path with
    | none => none
    | some (_, d) => (copyMappedFilesOn o cwd d path).map Prod.snd

end

/-! ## The calls -/

/-- The outcomes of the calls for a destination, as `MappedFiles` has them. -/
def outcomesOn (o : FileTree.Outcomes) (cwd : Location) (d : Volume) : CopyOutcomes where
  mkdir dir := (mkdir o cwd d dir).1
  cp src dst := (cp o cwd (makeDirectoryOn o cwd dst {} d).2.2 src dst).any Prod.fst

theorem makeDirectoryOn_eq (o : FileTree.Outcomes) (cwd : Location) (dst : List UInt8)
    (st : Copies) (d : Volume) :
    makeDirectoryOn o cwd dst st d = ((makeDirectory (outcomesOn o cwd d) dst st).1,
      (makeDirectory (outcomesOn o cwd d) dst st).2, (makeDirectoryOn o cwd dst {} d).2.2) := by
  rw [makeDirectoryOn, makeDirectory, makeDirectoryOn]
  cases strrchr dst slash with
  | none => rfl
  | some base => rfl

/-- The body of the loop does what the model without a volume says. -/
theorem copyLineOn_fst {o : FileTree.Outcomes} {cwd : Location} {path line : List UInt8}
    {st : Copies} {d d' : Volume} {after : AfterLine}
    (h : copyLineOn o cwd path st d line = some (after, d')) :
    after = copyLine (outcomesOn o cwd d) path st line := by
  rw [copyLineOn] at h
  rw [copyLine]
  cases hsrc : strchr (ofBuffer line) slash with
  | none =>
      rw [hsrc] at h
      cases h
      rfl
  | some src =>
      rw [hsrc] at h
      dsimp only at h ⊢
      generalize upTo src newline = src at h ⊢
      split at h
      next hknown =>
        cases h
        rw [if_pos hknown]
      next hknown =>
        rw [if_neg hknown]
        split at h
        next hext =>
          cases h
          rw [if_pos hext]
        next hext =>
          rw [if_neg hext]
          rw [makeDirectoryOn_eq] at h
          generalize makeDirectory (outcomesOn o cwd d) (destination path src) st = made at h ⊢
          obtain ⟨ok, st₁⟩ := made
          cases ok with
          | false =>
              cases h
              rfl
          | true =>
              have hout : (outcomesOn o cwd d).cp src (destination path src) =
                  (cp o cwd (makeDirectoryOn o cwd (destination path src) {} d).2.2 src
                    (destination path src)).any Prod.fst := rfl
              dsimp only at h ⊢
              rw [hout]
              generalize cp o cwd (makeDirectoryOn o cwd (destination path src) {} d).2.2 src
                (destination path src) = result at h ⊢
              rcases result with _ | ⟨_ | _, d₁⟩
              · cases h
              · cases h
                rfl
              · dsimp only at h
                split at h
                next hfull =>
                  cases h
                  exact ((if_neg (by simp)).trans (if_pos hfull)).symm
                next hfull =>
                  cases h
                  exact ((if_neg (by simp)).trans (if_neg hfull)).symm

/-- The call for the directory of the destination is the same if it succeeds. -/
theorem makeDirectory_ok (co : CopyOutcomes) (dst : List UInt8) (st : Copies) :
    makeDirectory {} dst st = (true, (makeDirectory co dst st).2) ∧
      (makeDirectory co dst st).2.ret = st.ret := by
  rw [makeDirectory, makeDirectory]
  cases strrchr dst slash with
  | none => exact ⟨rfl, rfl⟩
  | some base => exact ⟨rfl, rfl⟩

/-- A line after which 0 is still to be returned was handled without a failure. -/
theorem copyLine_of_ret {co : CopyOutcomes} {path line : List UInt8} {st st' : Copies}
    (h : copyLine co path st line = .next st') (hret : st'.ret = 0) :
    copyLine {} path st line = .next st' ∧ st.ret = 0 := by
  rw [copyLine] at h ⊢
  cases hsrc : strchr (ofBuffer line) slash with
  | none =>
      rw [hsrc] at h
      cases h
      exact ⟨rfl, hret⟩
  | some src =>
      rw [hsrc] at h
      dsimp only at h ⊢
      generalize upTo src newline = src at h ⊢
      split at h
      next hknown =>
        cases h
        exact ⟨if_pos hknown, hret⟩
      next hknown =>
        rw [if_neg hknown]
        split at h
        next hext =>
          cases h
          exact ⟨if_pos hext, hret⟩
        next hext =>
          rw [if_neg hext]
          have hmake := makeDirectory_ok co (destination path src) st
          rw [hmake.1]
          generalize makeDirectory co (destination path src) st = made at h hmake
          obtain ⟨ok, st₁⟩ := made
          cases ok with
          | false => cases h
          | true =>
              dsimp only at h hmake ⊢
              split at h
              next =>
                cases h
                cases hret
              next =>
                split at h
                next => cases h
                next hroom =>
                  cases h
                  exact ⟨(if_neg (by simp)).trans (if_neg hroom), hmake.2.symm.trans hret⟩

theorem copyLine_stop {co : CopyOutcomes} {path line : List UInt8} {st st' : Copies}
    (h : copyLine co path st line = .stop st') : st'.ret = -1 := by
  rw [copyLine] at h
  split at h
  next => cases h
  next =>
    dsimp only at h
    split at h
    next => cases h
    next =>
      split at h
      next => cases h
      next =>
        split at h
        next =>
          cases h
          rfl
        next =>
          split at h
          next => cases h
          next =>
            split at h
            next => cases h
            next => cases h

/-- The loop that returns 0 makes the calls of the loop without a volume. -/
theorem copyLinesOn_calls {o : FileTree.Outcomes} {cwd : Location} {path stream : List UInt8}
    {fuel : Nat} {st st' : Copies} {d d' : Volume} (ho : ∀ clock, o.read clock = none)
    (h : copyLinesOn o cwd path fuel st d stream = some (st', d')) (hret : st'.ret = 0) :
    copyLines {} path fuel st stream = some st' ∧ st.ret = 0 := by
  induction fuel generalizing st d stream with
  | zero => cases h
  | succ fuel ih =>
      rw [copyLinesOn, if_neg (by simp [ho])] at h
      rw [copyLines]
      cases hline : fgets maxLineLength stream with
      | none =>
          rw [hline] at h
          cases h
          exact ⟨rfl, hret⟩
      | some read =>
          obtain ⟨line, rest⟩ := read
          rw [hline] at h
          dsimp only at h ⊢
          cases hone : copyLineOn o cwd path st d.tick line with
          | none =>
              rw [hone] at h
              cases h
          | some result =>
              rw [hone] at h
              obtain ⟨after, d₁⟩ := result
              have hafter := copyLineOn_fst hone
              cases after with
              | next st₁ =>
                  obtain ⟨hrest, hret₁⟩ := ih h
                  obtain ⟨hnext, hstart⟩ := copyLine_of_ret hafter.symm hret₁
                  rw [hnext]
                  exact ⟨hrest, hstart⟩
              | stop st₁ =>
                  cases h
                  rw [copyLine_stop hafter.symm] at hret
                  cases hret
              | overflow => cases h

/-- If no read fails and the function returns 0 then it made the calls that the model
without a volume makes where all of them succeed. -/
theorem copyMappedFilesOn_calls {o : FileTree.Outcomes} {cwd : Location} {path : List UInt8}
    {st : Copies} {d d' : Volume} (ho : ∀ clock, o.read clock = none)
    (h : copyMappedFilesOn o cwd d path = some (st, d')) (hret : st.ret = 0) :
    ∃ file, (d.openRead o cwd (procMaps path)).1 = some file ∧
      copyMappedFiles {} path (some (d.tree.bytes file)) = some st := by
  have htree : (d.openRead o cwd (procMaps path)).2.tree = d.tree := Volume.openRead_tree
  rw [copyMappedFilesOn] at h
  generalize d.openRead o cwd (procMaps path) = opened at h htree
  obtain ⟨file, d₁⟩ := opened
  cases file with
  | none =>
      cases h
      cases hret
  | some file =>
      obtain ⟨-, hloop⟩ := Option.ite_none_left_eq_some.mp h
      dsimp only at htree
      rw [htree] at hloop
      exact ⟨file, rfl, (copyLinesOn_calls ho hloop hret).1⟩

/-! ## Where the calls go -/

theorem names_slash (path rest : List UInt8) :
    names (path ++ slash :: rest) = names path ++ names rest :=
  names_append path rest

theorem names_slash_cons (rest : List UInt8) : names (slash :: rest) = [] :: names rest :=
  names_slash [] rest

/-- The directory of the copies. -/
structure Home (cwd : Location) (path : List UInt8) (D : Location) (t : Tree) : Prop where
  resolves : t.resolve cwd path = some D
  directory : t.node D = some .directory
  short : path.length < defaultPathSize

/-- The last name of a path is a name. -/
def Named (path : List UInt8) : Prop := ∃ ns last, names path = ns ++ [last] ∧ ¬ Stays last

section

variable {made written : Location → Prop} {o : FileTree.Outcomes} {cwd D loc : Location}
  {path : List UInt8} {t t' : Tree} {d : Volume}

theorem Home.changes (h : Home cwd path D t) (hc : Changes made written t t') :
    Home cwd path D t' :=
  ⟨hc.resolve h.resolves, hc.directory h.directory, h.short⟩

theorem Home.walk (h : Home cwd path D t) :
    path ≠ [] ∧ t.walk (origin cwd path) (names path) = some D :=
  Option.ite_none_left_eq_some.mp h.resolves

/-- A directory that `mkdir_` makes is below. -/
theorem Home.creating (h : Home cwd path D t) {ns : List Name} (hup : dotDot ∉ ns)
    {dir pre : List UInt8} (hdir : path <+: dir) (hnames : names dir = names path ++ ns)
    (hpre : dir = pre ∨ ∃ rest, dir = pre ++ slash :: rest) (hloc : t.creating cwd pre = some loc)
    (hnone : t.node loc = none) :
    ∃ more, more <+: ns ∧ descent more ≠ [] ∧ loc = D ++ descent more := by
  obtain ⟨hne, hwalk⟩ := h.walk
  obtain ⟨hne', hpart⟩ := Option.ite_none_left_eq_some.mp hloc
  have hbegins : pre <+: dir := by
    rcases hpre with rfl | ⟨rest, rfl⟩
    · exact List.prefix_refl _
    · exact List.prefix_append ..
  have hnpart : names pre <+: names path ++ ns := by
    rw [← hnames]
    rcases hpre with rfl | ⟨rest, rfl⟩
    · exact List.prefix_refl _
    · rw [names_slash]
      exact List.prefix_append ..
  rw [origin_eq hne' hbegins, ← origin_eq hne hdir] at hpart
  rcases walk_part hwalk h.directory hup ((List.rdropWhile_prefix _ _).trans hnpart) hpart with
    hd | ⟨more, hmore, rfl⟩
  · rw [hd] at hnone
    cases hnone
  · refine ⟨more, hmore, fun hnil => ?_, rfl⟩
    rw [hnil, List.append_nil, h.directory] at hnone
    cases hnone

/-- A file that is written below has the last name of its path. -/
theorem Home.writing (h : Home cwd path D t) {rest : List UInt8} (hup : dotDot ∉ names rest)
    (hloc : t.resolve cwd (path ++ slash :: rest) = some loc)
    (hnot : t.node loc ≠ some .directory) :
    loc = D ++ location (slash :: rest) ∧ Named (slash :: rest) := by
  obtain ⟨hne, hwalk⟩ := h.walk
  obtain ⟨-, hpart⟩ := Option.ite_none_left_eq_some.mp hloc
  rw [← origin_eq hne (List.prefix_append ..), names_slash, walk_append, hwalk,
    Option.bind_some] at hpart
  obtain ⟨ns, last, hlast⟩ := (List.eq_nil_or_concat' (names rest)).resolve_left (names_ne_nil rest)
  have hnames : names (slash :: rest) = [] :: ns ++ [last] := by
    rw [names_slash_cons, hlast, List.cons_append]
  rw [hlast] at hpart hup
  obtain ⟨hstay, rfl⟩ := walk_last hup hpart hnot
  refine ⟨?_, [] :: ns, last, hnames, hstay⟩
  rw [location, hnames, descent_append, descent_nil_cons, descent_singleton hstay,
    List.append_assoc]

/-! ## `mkdir_` -/

theorem mkdirLoop_changes {before rest : List UInt8}
    (hmade : ∀ pre more, before ++ rest = pre ++ slash :: more → ∀ t', Changes made written t t' →
      ∀ loc, t'.creating cwd pre = some loc → t'.node loc = none → made loc)
    (hc : Changes made written t d.tree) :
    Changes made written t (mkdirLoop o cwd before rest d).2.tree := by
  induction rest generalizing before d with
  | nil => exact hc
  | cons c rest ih =>
      have hsame : before ++ [c] ++ rest = before ++ c :: rest := by simp
      rw [mkdirLoop]
      split
      next hslash =>
        subst hslash
        have hstep := hc.trans (Volume.mkdir_changes (o := o) (hmade before rest rfl d.tree hc))
        generalize d.mkdir o cwd before = result at hstep
        obtain ⟨ok, d₁⟩ := result
        cases ok with
        | false => exact hstep
        | true => exact ih (hsame ▸ hmade) hstep
      next => exact ih (hsame ▸ hmade) hc

/-- `mkdir_` makes directories below, at locations that begin the path. -/
theorem Home.mkdir (h : Home cwd path D d.tree) {ns : List Name} (hup : dotDot ∉ ns)
    {dir : List UInt8} (hdir : path <+: dir) (hnames : names dir = names path ++ ns)
    (hlen : dir.length < maxPathLength)
    (hmade : ∀ more, more <+: ns → descent more ≠ [] → made (D ++ descent more)) :
    Changes made written d.tree (Coldtrace.mkdir o cwd d dir).2.tree := by
  have hcut : dir.take (maxPathLength - 1) = dir := List.take_of_length_le (by omega)
  have hpre : ∀ pre, (dir = pre ∨ ∃ rest, dir = pre ++ slash :: rest) →
      ∀ t', Changes made written d.tree t' → ∀ loc, t'.creating cwd pre = some loc →
        t'.node loc = none → made loc := by
    intro pre hpre t' hc loc hloc hnone
    obtain ⟨more, hmore, hsome, rfl⟩ := (h.changes hc).creating hup hdir hnames hpre hloc hnone
    exact hmade more hmore hsome
  rw [Coldtrace.mkdir, hcut]
  generalize htemp : (if dir.getLast? = some slash then dir.dropLast else dir) = temp
  -- the path is `temp`, or ends with one more slash
  have hend : dir = temp ∨ dir = temp ++ [slash] := by
    rw [← htemp]
    split
    next hlast => exact .inr (List.dropLast_append_getLast? slash hlast).symm
    next => exact .inl rfl
  have hloop : Changes made written d.tree
      (mkdirLoop o cwd (temp.take 1) (temp.drop 1) d).2.tree := by
    refine mkdirLoop_changes (fun pre more heq => hpre pre (.inr ?_)) (.refl _)
    rw [List.take_append_drop] at heq
    rcases hend with rfl | rfl
    · exact ⟨more, heq⟩
    · exact ⟨more ++ [slash], by rw [heq]; simp⟩
  have hlast : dir = temp ∨ ∃ rest, dir = temp ++ slash :: rest :=
    hend.imp_right fun heq => ⟨[], heq⟩
  generalize mkdirLoop o cwd (temp.take 1) (temp.drop 1) d = result at hloop
  obtain ⟨ok, d₁⟩ := result
  cases ok with
  | false => exact hloop
  | true => exact hloop.trans (Volume.mkdir_changes (hpre temp hlast d₁.tree hloop))

/-- The directory itself is there. -/
theorem Home.mkdir_self (h : Home cwd path D d.tree) :
    Changes made written d.tree (Coldtrace.mkdir o cwd d path).2.tree := by
  have hshort : path.length < maxPathLength := Nat.lt_of_lt_of_le h.short (by decide)
  refine h.mkdir (by simp) (List.prefix_refl _) (List.append_nil _).symm hshort ?_
  intro more hmore hsome
  rw [List.prefix_nil.mp hmore] at hsome
  exact absurd rfl hsome

/-! ## `cp_` -/

section

variable {fsrc fdst : Location} {content : List UInt8}

/-- The loop comes to an end and changes the destination only.  If all bytes are read
and written, the destination ends up with those of the source. -/
theorem cpLoop_spec (hne : fsrc ≠ fdst) {fuel offset : Nat}
    (hfile : d.tree.node fdst = some (.file content)) (hle : offset ≤ (d.tree.bytes fsrc).length)
    (hfuel : (d.tree.bytes fsrc).length < offset + fuel) :
    ∃ content' d', cpLoop o fsrc fdst fuel offset d = some d' ∧
      (∀ loc, d'.tree.node loc = if loc = fdst then some (.file content') else d.tree.node loc) ∧
      (o.Whole → content = (d.tree.bytes fsrc).take offset → content' = d.tree.bytes fsrc) := by
  induction fuel generalizing offset d content with
  | zero => omega
  | succ fuel ih =>
      have hlen := Volume.length_read_le o d fsrc offset maxBufferSize
      rw [cpLoop]
      dsimp only
      split
      next hnil =>
        refine ⟨content, _, rfl, fun loc => ?_, fun ho hcontent => ?_⟩
        · split <;> simp_all [Volume.read]
        · rw [Volume.read_whole ho, List.take_eq_nil_iff, List.drop_eq_nil_iff] at hnil
          rw [hcontent, List.take_of_length_le (hnil.resolve_left (by decide))]
      next hsome =>
        have hpos := List.length_pos_iff.mpr hsome
        have happend := Volume.append_file (d := (d.read o fsrc offset maxBufferSize).2) o
          (d.read o fsrc offset maxBufferSize).1 hfile
        have hsource : ((d.read o fsrc offset maxBufferSize).2.append o fdst
            (d.read o fsrc offset maxBufferSize).1).tree.bytes fsrc = d.tree.bytes fsrc := by
          rw [Tree.bytes, happend, if_neg hne]
          rfl
        obtain ⟨content', d', heq, hnode, hall⟩ := @ih _ _
          (offset + (d.read o fsrc offset maxBufferSize).1.length)
          ((happend fdst).trans (if_pos rfl)) (by rw [hsource]; omega) (by rw [hsource]; omega)
        refine ⟨content', d', heq, fun loc => ?_, fun ho hcontent => ?_⟩
        · rw [hnode, happend]
          split <;> rfl
        · rw [hsource] at hall
          refine hall ho ?_
          have hbegins : (d.read o fsrc offset maxBufferSize).1 <+:
              (d.tree.bytes fsrc).drop offset := by
            rw [Volume.read_whole ho]
            exact List.take_prefix ..
          rw [hcontent, ho.write, List.take_add, ← List.prefix_iff_eq_take.mp hbegins]
          rfl

/-- If the destination is the source then nothing is left of it. -/
theorem cpLoop_self (hfile : d.tree.node fdst = some (.file [])) (fuel : Nat) :
    cpLoop o fdst fdst (fuel + 1) 0 d = some d.tick := by
  have hnil : (d.read o fdst 0 maxBufferSize).1 = [] := by
    have hlen := Volume.length_read_le o d fdst 0 maxBufferSize
    rw [Tree.bytes, hfile] at hlen
    exact List.length_eq_zero_iff.mp (Nat.le_zero.mp hlen)
  rw [cpLoop]
  dsimp only
  rw [if_pos hnil]
  rfl

end

/-- How `cp_` ends. -/
inductive Cp (o : FileTree.Outcomes) (cwd : Location) (d : Volume) (src dst : List UInt8) :
    Option (Bool × Volume) → Prop where
  | failed {d' : Volume} : d'.tree = d.tree → Cp o cwd d src dst (some (false, d'))
  | readsSpecial {loc : Location} : d.tree.resolve cwd src = some loc →
      d.tree.node loc = some .special → Cp o cwd d src dst none
  | writesSpecial {loc : Location} : d.tree.resolve cwd dst = some loc →
      d.tree.node loc = some .special → Cp o cwd d src dst none
  | copied {fsrc fdst : Location} {content : List UInt8} {d' : Volume} :
      d.tree.resolve cwd src = some fsrc → (d.tree.node fsrc).isSome = true →
      d.tree.resolve cwd dst = some fdst → d.tree.node fdst ≠ some .directory →
      d.tree.node fdst ≠ some .special →
      (∀ loc, d'.tree.node loc = if loc = fdst then some (.file content) else d.tree.node loc) →
      (fsrc = fdst → content = []) →
      (o.Whole → fsrc ≠ fdst → content = d.tree.bytes fsrc) →
      Cp o cwd d src dst (some (true, d'))

theorem cp_spec (o : FileTree.Outcomes) (cwd : Location) (d : Volume) (src dst : List UInt8) :
    Cp o cwd d src dst (cp o cwd d src dst) := by
  have hread : (d.openRead o cwd src).2.tree = d.tree := Volume.openRead_tree
  have hsrc := fun loc => @Volume.openRead_some o cwd loc d src
  rw [cp]
  generalize d.openRead o cwd src = reading at hread hsrc
  obtain ⟨fsrc, d₁⟩ := reading
  cases fsrc with
  | none => exact .failed hread
  | some fsrc =>
      obtain ⟨hfsrc, hexists⟩ := hsrc fsrc rfl
      dsimp only at hread ⊢
      split
      next hdevice => exact .readsSpecial hfsrc (hread ▸ hdevice)
      next =>
      have hopened := Volume.openWrite_spec o cwd d₁ dst
      generalize d₁.openWrite o cwd dst = writing at hopened
      cases hopened with
      | failed htree => exact .failed (htree.trans hread)
      | special hloc hspecial htree =>
          dsimp only
          rw [htree, if_pos hspecial]
          exact .writesSpecial (hread ▸ hloc) (hread ▸ hspecial)
      | @file fdst d₂ hloc hdir hspecial hnode =>
          rw [hread] at hloc hdir hspecial hnode
          have hempty : d₂.tree.node fdst = some (.file []) := (hnode fdst).trans (if_pos rfl)
          dsimp only
          rw [if_neg (by simp [hempty])]
          by_cases hself : fsrc = fdst
          · subst hself
            rw [cpLoop_self hempty]
            exact .copied hfsrc hexists hloc hdir hspecial hnode (fun _ => rfl)
              fun _ hne => absurd rfl hne
          · obtain ⟨content, d₃, heq, hcontent, hall⟩ := cpLoop_spec (o := o) hself hempty
              (Nat.zero_le _) (Nat.lt_add_left 0 (Nat.lt_succ_self _))
            rw [heq]
            have hsource : d₂.tree.bytes fsrc = d.tree.bytes fsrc := by
              rw [Tree.bytes, hnode, if_neg hself, Tree.bytes]
            refine .copied hfsrc hexists hloc hdir hspecial (fun loc => ?_)
              (fun heq => absurd heq hself) fun ho _ => (hall ho rfl).trans hsource
            rw [hcontent, hnode]
            split <;> rfl

theorem Cp.changes {src dst : List UInt8} {ok : Bool} {d' : Volume}
    (h : Cp o cwd d src dst (some (ok, d')))
    (hwritten : ∀ loc, d.tree.resolve cwd dst = some loc → d.tree.node loc ≠ some .directory →
      written loc) : Changes made written d.tree d'.tree := by
  cases h with
  | failed htree => exact htree ▸ .refl _
  | copied _ _ hloc hdir hspecial hnode =>
      exact .write hnode hdir hspecial (hwritten _ hloc hdir)

/-! ## One line -/

theorem readPath_of_strchr {line src : List UInt8} (h : strchr (ofBuffer line) slash = some src) :
    readPath line =
      if hasExt (upTo src newline) (ascii ".bin") then none else some (upTo src newline) := by
  rw [readPath, h, Option.map_some, Option.filter_some]
  by_cases hbin : ascii ".bin" <:+ upTo src newline
  · rw [if_pos (hasExt_iff.mpr hbin)]
    simp [hbin]
  · rw [if_neg fun hext => hbin (hasExt_iff.mp hext)]
    simp [hbin]

/-- The path in a line. -/
theorem readPath_spec {line p : List UInt8} (h : readPath line = some p) :
    (∃ rest, p = slash :: rest) ∧ p.length ≤ line.length ∧ hasExt p (ascii ".bin") = false := by
  cases hsrc : strchr (ofBuffer line) slash with
  | none =>
      rw [readPath, hsrc] at h
      cases h
  | some src =>
      rw [readPath_of_strchr hsrc] at h
      obtain ⟨hext, hp⟩ := Option.ite_none_left_eq_some.mp h
      obtain rfl := Option.some.inj hp
      refine ⟨?_, ?_, Bool.not_eq_true _ ▸ hext⟩
      · obtain ⟨rest, rfl⟩ := exists_cons_of_strchr hsrc
        exact ⟨upTo rest newline, List.takeWhile_cons_of_pos (by decide)⟩
      · calc (upTo src newline).length
          _ ≤ src.length := (List.takeWhile_prefix _).length_le
          _ ≤ (ofBuffer line).length := (suffix_of_strchr hsrc).length_le
          _ ≤ line.length := (List.takeWhile_prefix _).length_le

/-- The destination is split at its last slash. -/
theorem destination_split {rest dir base : List UInt8}
    (h : path ++ slash :: rest = dir ++ slash :: base) (hbase : slash ∉ base) :
    path <+: dir ∧ names dir = names path ++ (names rest).dropLast := by
  constructor
  · rcases List.append_eq_append_iff.mp h with ⟨more, rfl, -⟩ | ⟨more, rfl, hmore⟩
    · exact List.prefix_append ..
    · cases more with
      | nil => simp
      | cons c more =>
          rw [List.cons_append, List.cons.injEq] at hmore
          exact absurd (hmore.2 ▸ List.mem_append_right _ (List.mem_cons_self ..)) hbase
  · have hnames := congrArg (List.dropLast <| names ·) h
    simp only [names_slash] at hnames
    rw [List.dropLast_append_of_ne_nil (names_ne_nil rest), names_eq_singleton hbase,
      List.dropLast_concat] at hnames
    exact hnames.symm

/-- What the body of the loop does, with the path in the line. -/
inductive LineOn (o : FileTree.Outcomes) (cwd : Location) (path : List UInt8) (st : Copies)
    (d : Volume) (line : List UInt8) : Option (AfterLine × Volume) → Prop where
  | skipped : readPath line = none → LineOn o cwd path st d line (some (.next st, d))
  | known {p : List UInt8} : readPath line = some p → strstr st.unique p = true →
      LineOn o cwd path st d line (some (.next st, d))
  | stopped {p dir base : List UInt8} {st' : Copies} {d' : Volume} : readPath line = some p →
      path ++ p = dir ++ slash :: base → slash ∉ base → mkdir o cwd d dir = (false, d') →
      st'.unique = st.unique → st'.ret = -1 → LineOn o cwd path st d line (some (.stop st', d'))
  | stuck {p dir base : List UInt8} {d₁ : Volume} : readPath line = some p →
      path ++ p = dir ++ slash :: base → slash ∉ base → mkdir o cwd d dir = (true, d₁) →
      cp o cwd d₁ p (path ++ p) = none → LineOn o cwd path st d line none
  | failed {p dir base : List UInt8} {st' : Copies} {d₁ d' : Volume} : readPath line = some p →
      path ++ p = dir ++ slash :: base → slash ∉ base → mkdir o cwd d dir = (true, d₁) →
      cp o cwd d₁ p (path ++ p) = some (false, d') →
      st'.unique = st.unique → st'.ret = -1 → LineOn o cwd path st d line (some (.next st', d'))
  | copied {p dir base : List UInt8} {st' : Copies} {d₁ d' : Volume} : readPath line = some p →
      path ++ p = dir ++ slash :: base → slash ∉ base → mkdir o cwd d dir = (true, d₁) →
      cp o cwd d₁ p (path ++ p) = some (true, d') →
      st'.unique = st.unique ++ colon :: p → st'.ret = st.ret →
      LineOn o cwd path st d line (some (.next st', d'))
  | overflow {p : List UInt8} {d' : Volume} : readPath line = some p →
      uniqueSize ≤ (st.unique ++ colon :: p).length →
      LineOn o cwd path st d line (some (.overflow, d'))

theorem makeDirectoryOn_spec (o : FileTree.Outcomes) (cwd : Location) {dst : List UInt8}
    (h : slash ∈ dst) (st : Copies) (d : Volume) :
    ∃ dir base, dst = dir ++ slash :: base ∧ slash ∉ base ∧
      makeDirectoryOn o cwd dst st d =
        ((mkdir o cwd d dir).1, st.called (.mkdir dir), (mkdir o cwd d dir).2) := by
  obtain ⟨base, hbase, dir, rfl⟩ := exists_last_of_mem h
  refine ⟨dir, base, rfl, hbase, ?_⟩
  rw [makeDirectoryOn, (strrchr_eq_some_iff hbase).mpr (List.suffix_append ..)]
  simp

theorem copyLineOn_spec (o : FileTree.Outcomes) (cwd : Location) {path : List UInt8} (st : Copies)
    (d : Volume) {line : List UInt8} (hpath : path.length < defaultPathSize)
    (hline : line.length < maxLineLength) :
    LineOn o cwd path st d line (copyLineOn o cwd path st d line) := by
  rw [copyLineOn]
  cases hsrc : strchr (ofBuffer line) slash with
  | none => exact .skipped (by rw [readPath, hsrc]; rfl)
  | some src =>
      have hread := readPath_of_strchr hsrc
      dsimp only
      generalize upTo src newline = p at hread ⊢
      by_cases hext : hasExt p (ascii ".bin") = true
      · rw [if_pos hext] at hread ⊢
        rw [ite_self]
        exact .skipped hread
      · rw [if_neg hext] at hread ⊢
        split
        next hknown => exact .known hread hknown
        next =>
          obtain ⟨⟨rest, hrest⟩, hlen, -⟩ := readPath_spec hread
          have hdst : destination path p = path ++ p := by
            refine List.take_of_length_le ?_
            have hsizes : maxPathLength = 1024 ∧ defaultPathSize = 128 ∧ maxLineLength = 256 :=
              ⟨rfl, rfl, rfl⟩
            rw [List.length_append]
            omega
          have hslash : slash ∈ path ++ p := by simp [hrest]
          obtain ⟨dir, base, hsplit, hbase, hmake⟩ := makeDirectoryOn_spec o cwd hslash st d
          rw [hdst, hmake]
          generalize hmkdir : mkdir o cwd d dir = made
          obtain ⟨ok, d₁⟩ := made
          cases ok with
          | false => exact .stopped hread hsplit hbase hmkdir rfl rfl
          | true =>
              dsimp only
              generalize hcp : cp o cwd d₁ p (path ++ p) = copied
              rcases copied with _ | ⟨_ | _, d₂⟩
              · exact .stuck hread hsplit hbase hmkdir hcp
              · exact .failed hread hsplit hbase hmkdir hcp rfl rfl
              · dsimp only
                split
                next hfull => exact .overflow hread hfull
                next => exact .copied hread hsplit hbase hmkdir hcp rfl rfl

end

end Coldtrace
